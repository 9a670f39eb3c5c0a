import BittorrentClient.Theorems.Tracker.Classified

/-! The parser of a response and the reader of a datagram find the same peers in the same blob. -/

namespace BittorrentClient
open FlatMemory Fuel Bencode Content
open TrackerResponse (parseTrackerCompactResponseContent)
open MessageUdpAnnounceResponse (kHeaderSize kMaxPeers kSize parseNetwork)

/-- The content is a dictionary that fits a string, and the blob is the value of its peers. -/
structure PeersContent (m : Memory) (r : Region) (max : MaxSize) (entries : List (Str × Term)) (blob : List UInt8) :
    Prop where
  bytes : r.bytes m = (Term.dict entries).bytes
  string : r.size.toNat ≤ max.string
  peers : (value entries "peers").bind Content.string = some blob

/-- The buffer of an announce response holds a header of any values, the blob and whatever is behind them. -/
structure PeersDatagram (buffer header blob rest : List UInt8) : Prop where
  bytes : buffer = header ++ blob ++ rest
  header : header.length = kHeaderSize
  size : buffer.length = kSize

/-- There is no failure reason, and an interval is a number of the right width. -/
structure OthersValid (entries : List (Str × Term)) : Prop where
  noFailure : value entries "failure reason" = none
  interval : ∀ t, value entries "interval" = some t → ∃ z, integer t = some z ∧ 0 ≤ z ∧ z < 2 ^ 64

/-- Over HTTP, the peers are found in each dictionary that is not at fault elsewhere. -/
structure FoundOverHttp (endian : Endian) (blob : List UInt8) (peers : List PeerAddress) : Prop where
  found : ∀ m r max entries, PeersContent m r max entries blob → OthersValid entries → ∃ data,
    Converges (fun fuel => parseTrackerCompactResponseContent m endian max fuel r) (.ok (.onSuccess data))
  same : ∀ m r max entries, PeersContent m r max entries blob → ∀ data,
    Converges (fun fuel => parseTrackerCompactResponseContent m endian max fuel r) (.ok (.onSuccess data)) →
      data.peers = peers

/-- Over UDP, the peers are found behind each header. -/
def FoundOverUdp (endian : Endian) (blob : List UInt8) (peers : List PeerAddress) : Prop :=
  ∀ buffer header rest, PeersDatagram buffer header blob rest → ∃ response,
    parseNetwork endian buffer (kHeaderSize + blob.length) = .ok response ∧ response.peers = peers

/-- The blob is not taken for peers by either of the two: each returns an error code, and throws nothing. -/
structure Rejected (endian : Endian) (blob : List UInt8) : Prop where
  http : ∀ m r max entries, PeersContent m r max entries blob → ∃ error, error ≠ .lengthError ∧
    Converges (fun fuel => parseTrackerCompactResponseContent m endian max fuel r) (.error error)
  udp : ∀ buffer header rest, PeersDatagram buffer header blob rest → ∃ error,
    parseNetwork endian buffer (kHeaderSize + blob.length) = .error error

section
variable {m : Memory} {r : Region} {endian : Endian} {max : MaxSize} {entries : List (Str × Term)} {blob : List UInt8}

theorem PeersContent.exists_term (h : PeersContent m r max entries blob) :
    ∃ t, value entries "peers" = some t ∧ Content.string t = some blob := Option.bind_eq_some_iff.mp h.peers

theorem PeersContent.isClassified (h : PeersContent m r max entries blob) :
    Classified endian entries fun fuel => parseTrackerCompactResponseContent m endian max fuel r :=
  classified_of_bytes h.bytes h.string

/-- The value of the peers alone decides whether they are at fault. -/
theorem PeersContent.succeeds_iff (h : PeersContent m r max entries blob) :
    Succeeds entries ↔ OthersValid entries ∧ blob ≠ [] ∧ blob.length % 6 = 0 := by
  obtain ⟨t, ht, hblob⟩ := h.exists_term
  constructor
  · intro hs
    obtain ⟨blob', hblob', hne, hmod⟩ := hs.peers t ht
    cases hblob.symm.trans hblob'
    exact ⟨⟨hs.noFailure, hs.interval⟩, hne, hmod⟩
  · rintro ⟨hothers, hne, hmod⟩
    refine ⟨hothers.noFailure, .inr ?_, hothers.interval, ?_⟩
    · rw [ht]
      exact Option.some_ne_none t
    · intro t' ht'
      cases ht.symm.trans ht'
      exact ⟨blob, hblob, hne, hmod⟩

theorem foundOverHttp {n : Nat} (hn : 0 < n) (hblob : blob.length = 6 * n) :
    FoundOverHttp endian blob (compactPeers endian n blob) := by
  have hmod : blob.length % 6 = 0 := by omega
  have hdiv : blob.length / 6 = n := by omega
  have hne : blob ≠ [] := List.length_pos_iff.mp (by omega)
  constructor
  · intro m r max entries h hothers
    exact h.isClassified.success.mpr (h.succeeds_iff.mpr ⟨hothers, hne, hmod⟩)
  · intro m r max entries h data hdata
    obtain ⟨t, ht, hterm⟩ := h.exists_term
    have hbytes := (h.isClassified.values data hdata).peers t ht
    rw [hterm, Option.some.injEq] at hbytes
    rw [(bytes_peers_eq_iff endian hmod).mp hbytes.symm, hdiv]

theorem foundOverUdp {n : Nat} (hn : 0 < n) (hblob : blob.length = 6 * n) :
    FoundOverUdp endian blob (compactPeers endian n blob) := by
  intro buffer header rest h
  rw [h.bytes, hblob]
  exact MessageUdpAnnounceResponse.parseNetwork_compact endian h.header hn hblob

theorem rejected (hmod : blob.length % 6 ≠ 0) : Rejected endian blob := by
  constructor
  · intro m r max entries h
    refine h.isClassified.otherwise ?_ ?_
    · intro hs
      exact hmod (h.succeeds_iff.mp hs).2.2
    · intro message hfails
      obtain ⟨t, ht, -⟩ := h.exists_term
      cases ht.symm.trans hfails.noPeers
  · intro buffer header rest h
    have hle : kHeaderSize ≤ buffer.length := by
      rw [h.size]
      exact Nat.le_add_right _ _
    refine ⟨.todo, MessageUdpAnnounceResponse.parseNetwork_torn endian hle ?_⟩
    rwa [Nat.add_sub_cancel_left]

end

/-- A blob of whole addresses is the same list of peers to both, with all of its bytes, and another one is rejected. -/
theorem peersAgree (endian : Endian) (blob : List UInt8) :
    (∀ n, 0 < n → blob.length = 6 * n → ∃ peers : List PeerAddress, peers.length = n ∧
      (peers.map (PeerAddress.bytes endian)).flatten = blob ∧ FoundOverHttp endian blob peers ∧
      (n ≤ kMaxPeers → FoundOverUdp endian blob peers)) ∧
    (blob.length % 6 ≠ 0 → Rejected endian blob) := by
  refine ⟨?_, rejected⟩
  intro n hn hblob
  refine ⟨compactPeers endian n blob, ?_, ?_, ?_, ?_⟩
  · exact length_compactPeers endian n blob
  · exact bytes_compactPeers endian hblob
  · exact foundOverHttp hn hblob
  · intro _
    exact foundOverUdp hn hblob

/-! ### Two peers in a dictionary and in a datagram -/

def twoPeersBlob : List UInt8 := [127, 0, 0, 1, 26, 225, 10, 0, 0, 2, 26, 226]

def twoPeersBuffer : List UInt8 :=
  List.replicate kHeaderSize 0 ++ twoPeersBlob ++ List.replicate (kSize - kHeaderSize - 12) 0

theorem twoPeers_content : PeersContent (place 4096 (twoPeersText twoPeers)) (twoPeersContent twoPeers twoPeersText_length)
    ⟨2 ^ 62, 2 ^ 62⟩ twoPeers twoPeersBlob := by
  refine ⟨?_, ?_, ?_⟩
  · exact twoPeersContent_bytes twoPeersText_length
  · exact twoPeersContent_size twoPeersText_length
  · decide

theorem twoPeers_othersValid : OthersValid twoPeers := by
  refine ⟨by decide, ?_⟩
  intro t ht
  have hinterval : value twoPeers "interval" = some (.int 1800) := rfl
  cases hinterval.symm.trans ht
  exact ⟨1800, rfl, by decide, by decide⟩

theorem twoPeers_datagram : PeersDatagram twoPeersBuffer (List.replicate kHeaderSize 0) twoPeersBlob
    (List.replicate (kSize - kHeaderSize - 12) 0) := by
  refine ⟨rfl, List.length_replicate, ?_⟩
  rw [twoPeersBuffer, List.length_append, List.length_append, List.length_replicate, List.length_replicate]
  rfl

theorem peersAgree_twoPeers : ∃ peers : List PeerAddress, peers.length = 2 ∧
    (∃ data, Converges (fun fuel => parseTrackerCompactResponseContent (place 4096 (twoPeersText twoPeers)) .little
      ⟨2 ^ 62, 2 ^ 62⟩ fuel (twoPeersContent twoPeers twoPeersText_length)) (.ok (.onSuccess data)) ∧ data.peers = peers) ∧
    ∃ response, parseNetwork .little twoPeersBuffer (kHeaderSize + twoPeersBlob.length) = .ok response ∧
      response.peers = peers := by
  obtain ⟨peers, hlength, -, hhttp, hudp⟩ := (peersAgree .little twoPeersBlob).1 2 (by decide) rfl
  obtain ⟨data, hdata⟩ := hhttp.found _ _ _ _ twoPeers_content twoPeers_othersValid
  refine ⟨peers, hlength, ⟨data, hdata, ?_⟩, ?_⟩
  · exact hhttp.same _ _ _ _ twoPeers_content data hdata
  · exact hudp (by decide) _ _ _ twoPeers_datagram

end BittorrentClient
