import BittorrentClient.Theorems.Program.Runs
import BittorrentClient.Theorems.Tracker.Requests
import BittorrentClient.Theorems.Tracker.Served

/-! How a round begins: the trackers of the torrent are asked, and a connection is made to each peer that they serve. -/

namespace BittorrentClient
open Bencode FlatMemory Fuel Interleaving SortUnique

/-- A round begins, with a connection that is new for each of the peers, and with nothing else changed but what is
    counted. -/
structure BeginsWith (endian : Endian) (client : TorrentClient) {Url : Type} (urls : UrlParser Url) (served : List Endpoint)
    (w w' : World Downloads PeerDownload) : Prop where
  step : Rounds.Step (program endian client urls) w w'
  peers : (w'.parties.map fun x => x.address.asEndpoint endian).Perm served.dedup
  fresh : ∀ x ∈ w'.parties, x.point = .connect ∧ x.written = []
  pieces : w'.shared.pieces = w.shared.pieces
  disk : w'.shared.disk = w.shared.disk
  told : w'.shared.requests = w.shared.requests ++ [w.shared.request]

section
variable {Url : Type} {endian : Endian} {client : TorrentClient} {urls : UrlParser Url} {w : World Downloads PeerDownload}
  {max : MaxSize} {cuts : Bool} {asked : List (Tracker.Request × Contact)}
  {served : List (List Endpoint)}

/-- The trackers are asked between two rounds, each over a network that it may not be reached through. The next round
    has a connection to each peer that one of them serves, and where none serves a peer, it is asserted that one does. -/
theorem round_begins (sort : Sorter PeerAddress.less) (strings : Strings max) (ndebug : Bool)
    (hasked : client.buildTrackerRequests urls w.shared.request = .ok (asked.map Prod.fst))
    (hserved : List.Forall₂ (fun a peers => TrackerServes endian max cuts a.1 a.2 peers) asked served)
    (hunfinished : w.shared.unfinished) (hover : ∀ x ∈ w.parties, x.finished) : ∃ calls,
      Converges (fun fuel => askTrackers endian strings ndebug cuts fuel asked) (.ok calls) ∧
        TrackersAnswer client urls w.shared.request (requestTorrentPeers sort (.ok calls)) ∧
        (served.flatten = [] →
          w.shared.beginRound (requestTorrentPeers sort (.ok calls)) = .error .noPeers) ∧
        (served.flatten ≠ [] → ∃ w', BeginsWith endian client urls served.flatten w w' ∧
          w.shared.beginRound (requestTorrentPeers sort (.ok calls)) = .ok (w'.shared, w'.parties)) := by
  obtain ⟨calls, hcalls, hrequests, hpeers⟩ := askTrackers_of_serves strings ndebug hserved
  have hanswer : TrackersAnswer client urls w.shared.request (requestTorrentPeers sort (.ok calls)) := by
    refine ⟨sort, .ok calls, ?_, rfl⟩
    rw [hasked, ← hrequests]
    rfl
  refine ⟨calls, hcalls, hanswer, ?_, ?_⟩
  · intro hnil
    obtain ⟨-, hnone⟩ := (requestTorrentPeers_served sort hpeers).resolve_right fun h => h.1 hnil
    rw [hnone]
    rfl
  · intro hsome
    obtain ⟨-, addresses, hresponse, hperm⟩ := (requestTorrentPeers_served sort hpeers).resolve_left fun h => hsome h.1
    have hpos : addresses.length > 0 := by
      have hlength := hperm.length_eq
      rw [List.length_map] at hlength
      rw [hlength]
      exact List.length_pos_of_ne_nil (mt (List.dedup_eq_nil _).mp hsome)
    rw [hresponse] at hanswer ⊢
    have hround : w.shared.beginRound (.ok addresses) = .ok
        ({ w.shared with debug := w.shared.debug.onPeersListReceived addresses,
                         requests := w.shared.requests ++ [w.shared.request] },
          addresses.map fun address => { address := address }) := by
      rw [Downloads.beginRound, MainAssertion.check, if_pos hpos]
      rfl
    refine ⟨⟨_, _⟩, ⟨.begin hover ⟨hunfinished, _, hanswer, hround⟩, ?_, ?_, rfl, rfl, rfl⟩, hround⟩
    · rw [List.map_map]
      exact hperm
    · exact List.forall_mem_map.mpr fun _ _ => ⟨rfl, rfl⟩

end

theorem twoPeers_version : ∀ b ∈ ascii "1.0", isSpace b = false := isSpace_of_all (by decide)

theorem twoPeers_reason : 10 ∉ ascii "OK" := by decide

theorem twoPeers_headers : ∀ header ∈ [ascii "Server: tracker"], header ≠ [] ∧ 10 ∉ header :=
  List.forall_mem_singleton.mpr (by decide)

/-- A tracker that lists two peers over HTTP. -/
def httpTwoPeers : HttpTracker where
  answer := { version := ascii "1.0"
              reason := ascii "OK"
              headers := [ascii "Server: tracker"]
              body := (Term.dict twoPeers).bytes
              version_token := twoPeers_version
              reason_line := twoPeers_reason
              headers_line := twoPeers_headers }
  entries := twoPeers
  peers := [⟨0x7F000001, 6881⟩, ⟨0x0A000002, 6882⟩]
  headers := List.cons_ne_nil _ _
  body := rfl
  lists := .peers (twoPeers_content.succeeds_iff.mpr ⟨twoPeers_othersValid, by decide, by decide⟩) twoPeers_content.peers

/-- A tracker that lists one of them and another one over UDP. -/
def udpTwoPeers : UdpTracker where
  connection_id := 5
  connection_id_ne := by decide
  info_hash := announceList.info_hash
  interval := 1800
  leechers := 1
  seeders := 1
  peers := [⟨0x7F000001, 6881⟩, ⟨0x7F000001, 6882⟩]
  refusal := ascii "no such torrent"

theorem announceList_requests (info : Tracker.RequestInfo) : ∃ r r',
    announceList.buildTrackerRequests twoUrls info = .ok [.http r, .udp r'] ∧ r'.info_hash = announceList.info_hash := by
  have hall : List.Forall₂ (RequestFor announceList twoUrls info) (announceList.usableUrls twoUrls) _ :=
    forall₂_requests twoUrls_lawful announceList.trackerUrls
  rw [announceList_usable] at hall
  obtain ⟨request, rest, hhttp, hrest, hrequests⟩ := List.forall₂_cons_left_iff.mp hall
  obtain ⟨request', rest', hudp, hnone, rfl⟩ := List.forall₂_cons_left_iff.mp hrest
  obtain rfl := List.forall₂_nil_left_iff.mp hnone
  have hbuilt : announceList.buildTrackerRequests twoUrls info = .ok [request, request'] :=
    buildTrackerRequests_ok_iff.mpr ⟨List.cons_ne_nil _ _, hrequests.symm⟩
  cases hhttp with
  | https hscheme | udp hscheme => exact absurd hscheme (by decide)
  | @http r =>
    cases hudp with
    | http hscheme | https hscheme => exact absurd hscheme (by decide)
    | @udp r' _ h => exact ⟨r, r', hbuilt, h.info_hash⟩

/-- The first round for a torrent of one piece. -/
def roundStart : Downloads := { pieces := { pieces_count := 1 }, disk := .make ⟨announceList, []⟩ }

/-- Two trackers that are reached: three connections. -/
theorem round_begins_twoTrackers : ∃ w' : World Downloads PeerDownload,
    Rounds.Step (program .little announceList twoUrls) ⟨roundStart, []⟩ w' ∧
      (w'.parties.map fun x => x.address.asEndpoint .little).Perm
        [⟨0x0A000002, 6882⟩, ⟨0x7F000001, 6881⟩, ⟨0x7F000001, 6882⟩] := by
  obtain ⟨r, r', hrequests, hhash⟩ := announceList_requests roundStart.request
  have hfits : httpTwoPeers.answer.body.length ≤ (⟨2 ^ 62, 2 ^ 62⟩ : MaxSize).string :=
    twoPeersText_length.le.trans (by decide)
  have hunfinished : roundStart.unfinished := (by decide : (0 : UInt32) < 1)
  have hserved : List.Forall₂ (fun a peers => TrackerServes .little ⟨2 ^ 62, 2 ^ 62⟩ true a.1 a.2 peers)
      [(.http r, ⟨httpTwoPeers.answer.atOnce, udpTwoPeers.lossless r' 7 1⟩),
        (.udp r', ⟨httpTwoPeers.answer.atOnce, udpTwoPeers.lossless r' 7 1⟩)]
      [httpTwoPeers.peers, udpTwoPeers.peers.take 128] :=
    .cons (.http httpTwoPeers httpTwoPeers.answer.arrives_atOnce hfits) (.cons (.udp udpTwoPeers
      (udpTwoPeers.talks_lossless .little 7 1 hhash) (udpTwoPeers.reached_lossless true r' 7 1 (by decide))) .nil)
  obtain ⟨calls, -, -, -, hbegins⟩ := round_begins (w := ⟨roundStart, []⟩) PeerAddress.linear_less.mergeSort
    (.placed 4096 (by decide)) false hrequests hserved hunfinished (List.forall_mem_nil _)
  obtain ⟨w', hw', -⟩ := hbegins (List.cons_ne_nil _ _)
  exact ⟨w', hw'.step, hw'.peers⟩

end BittorrentClient
