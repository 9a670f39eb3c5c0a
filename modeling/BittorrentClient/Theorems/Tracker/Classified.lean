import BittorrentClient.Theorems.Tracker.Response

/-! What a response is taken for, and that both kinds of trackers are understood alike. -/

namespace BittorrentClient
open FlatMemory Fuel Bencode Dispatch
open TrackerResponse (parseTrackerCompactResponseContent OnSuccess OnError)

/-! ### The two kinds of responses -/

section
open Content

/-- No failure reason, and an interval or peers, where each that is there is as it should be. -/
structure Succeeds (entries : List (Str × Term)) : Prop where
  noFailure : value entries "failure reason" = none
  present : value entries "interval" ≠ none ∨ value entries "peers" ≠ none
  interval : ∀ t, value entries "interval" = some t → ∃ z, integer t = some z ∧ 0 ≤ z ∧ z < 2 ^ 64
  peers : ∀ t, value entries "peers" = some t → ∃ blob, string t = some blob ∧ blob ≠ [] ∧ blob.length % 6 = 0

/-- The values of a success: the peers have the bytes of the blob. -/
structure SucceedsWith (endian : Endian) (entries : List (Str × Term)) (data : OnSuccess) : Prop where
  interval : ∀ t, value entries "interval" = some t → integer t = some (data.rerequest_dt_secs.toNat : Int)
  noInterval : value entries "interval" = none → data.rerequest_dt_secs = 0
  peers : ∀ t, value entries "peers" = some t → string t = some (data.peers.map (PeerAddress.bytes endian)).flatten
  noPeers : value entries "peers" = none → data.peers = []

/-- A failure reason that is a text, and neither an interval nor peers. -/
structure FailsWith (entries : List (Str × Term)) (message : List UInt8) : Prop where
  reason : (value entries "failure reason").bind string = some message
  noInterval : value entries "interval" = none
  noPeers : value entries "peers" = none

variable {endian : Endian} {entries : List (Str × Term)} {t : Term}

theorem number_eq_some_iff {n : UInt64} : number t = some n ↔ integer t = some (n.toNat : Int) := by
  rw [number]
  cases integer t with
  | none => constructor <;> rintro ⟨⟩
  | some z =>
    rw [Option.bind_some, Option.some.injEq]
    constructor
    · intro h
      split at h
      · rename_i hz
        cases h
        have hlt : z.toNat < 2 ^ 64 := by omega
        rw [UInt64.toNat_ofNat_of_lt' hlt]
        omega
      · cases h
    · rintro rfl
      have hlt := n.toNat_lt
      rw [if_pos (by omega), Int.toNat_natCast, UInt64.ofNat_toNat]

theorem number_isSome_iff : (∃ n, number t = some n) ↔ ∃ z, integer t = some z ∧ 0 ≤ z ∧ z < 2 ^ 64 := by
  constructor
  · rintro ⟨n, h⟩
    have hlt := n.toNat_lt
    exact ⟨n.toNat, number_eq_some_iff.mp h, by omega, by omega⟩
  · rintro ⟨z, hz, h0, hlt⟩
    exact ⟨UInt64.ofNat z.toNat, by rw [number, hz, Option.bind_some, if_pos ⟨h0, hlt⟩]⟩

theorem peers_eq_some_iff {peers : List PeerAddress} : Content.peers endian t = some peers ↔
    ∃ blob, string t = some blob ∧ blob ≠ [] ∧ blob.length % 6 = 0 ∧
      (peers.map (PeerAddress.bytes endian)).flatten = blob := by
  rw [Content.peers, peersBlob, part]
  cases string t with
  | none =>
    constructor
    · rintro ⟨⟩
    · rintro ⟨blob, ⟨⟩, -⟩
  | some blob =>
    simp only [Option.bind_some, Option.some.injEq, exists_eq_left']
    by_cases hempty : blob = []
    · rw [if_pos hempty]
      refine ⟨?_, fun h => absurd hempty h.1⟩
      rintro ⟨⟩
    · rw [if_neg hempty, Option.bind_some]
      by_cases hmod : blob.length % 6 = 0
      · rw [if_pos hmod, Option.map_some, Option.some.injEq, bytes_peers_eq_iff endian hmod]
        exact ⟨fun h => ⟨hempty, hmod, h.symm⟩, fun h => h.2.2.symm⟩
      · rw [if_neg hmod]
        refine ⟨?_, fun h => absurd h.2.1 hmod⟩
        rintro ⟨⟩

theorem valueOr_number_eq_some_iff {n : UInt64} :
    valueOr 0 number (value entries "interval") = some n ↔
      (∀ t, value entries "interval" = some t → integer t = some (n.toNat : Int)) ∧
        (value entries "interval" = none → n = 0) := by
  cases value entries "interval" with
  | none =>
    rw [valueOr, Option.some.injEq]
    refine ⟨fun h => ⟨?_, fun _ => h.symm⟩, fun h => (h.2 rfl).symm⟩
    rintro t ⟨⟩
  | some t =>
    rw [valueOr, number_eq_some_iff]
    refine ⟨fun h => ⟨?_, ?_⟩, fun h => h.1 t rfl⟩
    · rintro t' ⟨⟩
      exact h
    · rintro ⟨⟩

theorem valueOr_peers_eq_some_iff {peers : List PeerAddress} :
    valueOr [] (Content.peers endian) (value entries "peers") = some peers ↔
      (∀ t, value entries "peers" = some t → ∃ blob, string t = some blob ∧ blob ≠ [] ∧ blob.length % 6 = 0 ∧
        (peers.map (PeerAddress.bytes endian)).flatten = blob) ∧ (value entries "peers" = none → peers = []) := by
  cases value entries "peers" with
  | none =>
    rw [valueOr, Option.some.injEq]
    refine ⟨fun h => ⟨?_, fun _ => h.symm⟩, fun h => (h.2 rfl).symm⟩
    rintro t ⟨⟩
  | some t =>
    rw [valueOr, peers_eq_some_iff]
    refine ⟨fun h => ⟨?_, ?_⟩, fun h => h.1 t rfl⟩
    · rintro t' ⟨⟩
      exact h
    · rintro ⟨⟩

theorem response_eq_onSuccess_iff {data : OnSuccess} :
    response endian entries = some (.onSuccess data) ↔ Succeeds entries ∧ SucceedsWith endian entries data := by
  have hvalues : response endian entries = some (.onSuccess data) ↔
      value entries "failure reason" = none ∧ ¬(value entries "interval" = none ∧ value entries "peers" = none) ∧
        valueOr 0 number (value entries "interval") = some data.rerequest_dt_secs ∧
        valueOr [] (Content.peers endian) (value entries "peers") = some data.peers := by
    rw [response]
    cases value entries "failure reason" with
    | none =>
      dsimp only
      split
      · rename_i hneither
        refine ⟨?_, fun h => absurd hneither h.2.1⟩
        rintro ⟨⟩
      · rename_i hneither
        obtain ⟨interval, peers⟩ := data
        simp only [Option.bind_eq_some_iff, Option.map_eq_some_iff, TrackerResponse.onSuccess.injEq, OnSuccess.mk.injEq]
        constructor
        · rintro ⟨v, hv, added, hadded, rfl, rfl⟩
          exact ⟨trivial, hneither, hv, hadded⟩
        · rintro ⟨-, -, hv, hadded⟩
          exact ⟨interval, hv, peers, hadded, rfl, rfl⟩
    | some reason =>
      dsimp only
      split
      · cases string reason with
        | none =>
          constructor
          · rintro ⟨⟩
          · rintro ⟨⟨⟩, -⟩
        | some text =>
          constructor
          · rintro ⟨⟩
          · rintro ⟨⟨⟩, -⟩
      · constructor
        · rintro ⟨⟩
        · rintro ⟨⟨⟩, -⟩
  rw [hvalues, valueOr_number_eq_some_iff, valueOr_peers_eq_some_iff]
  constructor
  · rintro ⟨hfailure, hpresent, ⟨hinterval, hnoInterval⟩, hpeers, hnoPeers⟩
    refine ⟨⟨hfailure, ?_, ?_, ?_⟩, ⟨hinterval, hnoInterval, ?_, hnoPeers⟩⟩
    · exact not_and_or.mp hpresent
    · intro t ht
      exact number_isSome_iff.mp ⟨_, number_eq_some_iff.mpr (hinterval t ht)⟩
    · intro t ht
      obtain ⟨blob, hblob, hne, hmod, -⟩ := hpeers t ht
      exact ⟨blob, hblob, hne, hmod⟩
    · intro t ht
      obtain ⟨blob, hblob, -, -, hbytes⟩ := hpeers t ht
      rw [hblob, hbytes]
  · rintro ⟨hsucceeds, hwith⟩
    refine ⟨hsucceeds.noFailure, not_and_or.mpr hsucceeds.present, ⟨hwith.interval, hwith.noInterval⟩, ?_, hwith.noPeers⟩
    intro t ht
    obtain ⟨blob, hblob, hne, hmod⟩ := hsucceeds.peers t ht
    exact ⟨blob, hblob, hne, hmod, Option.some.inj ((hwith.peers t ht).symm.trans hblob)⟩

theorem response_eq_onError_iff {message : List UInt8} :
    response endian entries = some (.onError ⟨message⟩) ↔ FailsWith entries message := by
  have hvalues : FailsWith entries message ↔ (value entries "failure reason").bind string = some message ∧
      value entries "interval" = none ∧ value entries "peers" = none :=
    ⟨fun h => ⟨h.reason, h.noInterval, h.noPeers⟩, fun h => ⟨h.1, h.2.1, h.2.2⟩⟩
  rw [hvalues, response]
  cases value entries "failure reason" with
  | none =>
    constructor
    · intro h
      dsimp only at h
      split at h
      · cases h
      · obtain ⟨interval, -, h⟩ := Option.bind_eq_some_iff.mp h
        obtain ⟨peers, -, h⟩ := Option.map_eq_some_iff.mp h
        cases h
    · rintro ⟨⟨⟩, -⟩
  | some reason =>
    dsimp only
    split
    · rename_i hneither
      rw [Option.bind_some]
      cases string reason with
      | none =>
        constructor
        · rintro ⟨⟩
        · rintro ⟨⟨⟩, -⟩
      | some text =>
        simp only [Option.map_some, Option.some.injEq, TrackerResponse.onError.injEq, OnError.mk.injEq]
        exact ⟨fun h => ⟨h, hneither⟩, fun h => h.1⟩
    · rename_i hneither
      refine ⟨?_, fun h => absurd h.2 hneither⟩
      rintro ⟨⟩

theorem response_ne_monostate : response endian entries ≠ some .monostate := by
  intro h
  rw [response] at h
  split at h
  · split at h
    · cases h
    · obtain ⟨interval, -, h⟩ := Option.bind_eq_some_iff.mp h
      obtain ⟨peers, -, h⟩ := Option.map_eq_some_iff.mp h
      cases h
  · split at h
    · obtain ⟨text, -, h⟩ := Option.map_eq_some_iff.mp h
      cases h
    · cases h

/-- Where all is as it should be, there are values. -/
theorem Succeeds.exists_response (h : Succeeds entries) (endian : Endian) :
    ∃ data, response endian entries = some (.onSuccess data) := by
  have hinterval : ∃ n, valueOr 0 number (value entries "interval") = some n := by
    cases hvalue : value entries "interval" with
    | none => exact ⟨0, rfl⟩
    | some t => exact number_isSome_iff.mpr (h.interval t hvalue)
  have hpeers : ∃ peers, valueOr [] (Content.peers endian) (value entries "peers") = some peers := by
    cases hvalue : value entries "peers" with
    | none => exact ⟨[], rfl⟩
    | some t =>
      obtain ⟨blob, hblob, hne, hmod⟩ := h.peers t hvalue
      exact ⟨_, peers_eq_some_iff.mpr ⟨blob, hblob, hne, hmod, (bytes_peers_eq_iff endian hmod).mpr rfl⟩⟩
  obtain ⟨n, hn⟩ := hinterval
  obtain ⟨peers, hp⟩ := hpeers
  rw [response, h.noFailure]
  dsimp only
  rw [if_neg (not_and_or.mpr h.present), hn, hp]
  exact ⟨⟨n, peers⟩, rfl⟩

theorem value_perm {entries' : List (Str × Term)} (hperm : entries'.Perm entries)
    (hkeys : (entries.map fun e => e.1.body).Nodup) (key : String) : value entries' key = value entries key := by
  have hkeys' : ((byKey entries).map Prod.fst).Nodup := by
    rw [byKey, List.map_map]
    exact hkeys
  exact (first_perm (hperm.symm.map _) hkeys' (ascii key)).symm

theorem response_perm {entries' : List (Str × Term)} (hperm : entries'.Perm entries)
    (hkeys : (entries.map fun e => e.1.body).Nodup) : response endian entries' = response endian entries := by
  rw [response, response, value_perm hperm hkeys, value_perm hperm hkeys, value_perm hperm hkeys]

end

/-! ### Parsing -/

section
variable {m m' : Memory} {r r' : Region} {endian : Endian} {max : MaxSize} {entries entries' : List (Str × Term)}

/-- The parser returns what the response says, or a failure; nothing is thrown. -/
theorem parseTracker_converges (endian : Endian) (hbytes : r.bytes m = (Term.dict entries).bytes)
    (hstring : r.size.toNat ≤ max.string) :
    ∃ result, Converges (fun fuel => parseTrackerCompactResponseContent m endian max fuel r) result ∧
      result.toOption = Content.response endian entries ∧ Outcome.Errors (fun error => error ≠ .lengthError) result := by
  have hlen : (entriesBytes entries).length ≤ max.string := by
    have := congrArg List.length hbytes
    rw [r.length_bytes, length_bytes_dict] at this
    omega
  obtain ⟨n, hn⟩ := parseDictionary_of_reads (fits_agrees m r) (reads_locate (.dict entries) (holds_of_bytes hbytes).1)
  have hcarry : EntriesCarry m r (locateEntries r 1 entries) entries := locateEntries_carry_dict hbytes
  have hoption : (TrackerResponse.parseData m endian max (locateEntries r 1 entries)).toOption = _ :=
    TrackerResponse.parseData_toOption hcarry hlen
  have herrors : Outcome.Errors TrackerResponse.Returned
      (TrackerResponse.parseData m endian max (locateEntries r 1 entries)) := TrackerResponse.errors_parseData hcarry hlen
  cases hdata : TrackerResponse.parseData m endian max (locateEntries r 1 entries) with
  | ok response =>
    rw [hdata] at hoption
    refine ⟨.ok response, ⟨n, ?_⟩, hoption, .ok response⟩
    intro k hk
    have hparse := hn k hk
    simp only [Nat.zero_add] at hparse
    simp only [parseTrackerCompactResponseContent, hparse, Option.bind_some, hdata]
  | error error =>
    obtain ⟨e, rfl, he⟩ := herrors error hdata
    rw [hdata] at hoption
    refine ⟨.error e, ⟨n, ?_⟩, hoption, .error he⟩
    intro k hk
    have hparse := hn k hk
    simp only [Nat.zero_add] at hparse
    simp only [parseTrackerCompactResponseContent, hparse, Option.bind_some, hdata]

theorem parseTracker_ok_iff (hbytes : r.bytes m = (Term.dict entries).bytes) (hstring : r.size.toNat ≤ max.string)
    (response : TrackerResponse) :
    Converges (fun fuel => parseTrackerCompactResponseContent m endian max fuel r) (.ok response) ↔
      Content.response endian entries = some response := by
  obtain ⟨result, hresult, hoption, -⟩ := parseTracker_converges endian hbytes hstring
  rw [← hoption, Outcome.toOption_eq_some]
  constructor
  · exact hresult.unique
  · rintro rfl
    exact hresult

/-- The response is a success or a failure exactly where the first values of the keys say so. In every other case the
    parser returns an error code, and throws nothing. -/
structure Classified (endian : Endian) (entries : List (Str × Term))
    (parse : Nat → Option (Except FileError TrackerResponse)) : Prop where
  success : (∃ data, Converges parse (.ok (.onSuccess data))) ↔ Succeeds entries
  values : ∀ data, Converges parse (.ok (.onSuccess data)) → SucceedsWith endian entries data
  failure : ∀ message, Converges parse (.ok (.onError ⟨message⟩)) ↔ FailsWith entries message
  otherwise : ¬Succeeds entries → (∀ message, ¬FailsWith entries message) →
    ∃ error, error ≠ .lengthError ∧ Converges parse (.error error)

theorem classified_of_bytes (hbytes : r.bytes m = (Term.dict entries).bytes) (hstring : r.size.toNat ≤ max.string) :
    Classified endian entries fun fuel => parseTrackerCompactResponseContent m endian max fuel r := by
  have hok : ∀ response, Converges (fun fuel => parseTrackerCompactResponseContent m endian max fuel r) (.ok response) ↔
      Content.response endian entries = some response := parseTracker_ok_iff hbytes hstring
  refine ⟨⟨?_, ?_⟩, ?_, ?_, ?_⟩
  · rintro ⟨data, hdata⟩
    exact (response_eq_onSuccess_iff.mp ((hok _).mp hdata)).1
  · intro h
    obtain ⟨data, hdata⟩ := h.exists_response endian
    exact ⟨data, (hok _).mpr hdata⟩
  · intro data hdata
    exact (response_eq_onSuccess_iff.mp ((hok _).mp hdata)).2
  · intro message
    rw [hok, response_eq_onError_iff]
  · intro hsuccess hfailure
    obtain ⟨result, hresult, hoption, herrors⟩ := parseTracker_converges endian hbytes hstring
    cases result with
    | error error => exact ⟨error, herrors error rfl, hresult⟩
    | ok response =>
      exfalso
      cases response with
      | monostate => exact response_ne_monostate hoption.symm
      | onSuccess data => exact hsuccess (response_eq_onSuccess_iff.mp hoption.symm).1
      | onError data => exact hfailure data.error (response_eq_onError_iff.mp hoption.symm)

/-- A response is classified by the first values of its keys, in any order of distinct keys. -/
theorem classified (m : Memory) (r : Region) (endian : Endian) (max : MaxSize) (entries : List (Str × Term))
    (hbytes : r.bytes m = (Term.dict entries).bytes) (hstring : r.size.toNat ≤ max.string) :
    Classified endian entries (fun fuel => parseTrackerCompactResponseContent m endian max fuel r) ∧
      ∀ (m' : Memory) (r' : Region) (entries' : List (Str × Term)), entries'.Perm entries →
        (entries.map fun e => e.1.body).Nodup → r'.bytes m' = (Term.dict entries').bytes → r'.size.toNat ≤ max.string →
        ∀ response, Converges (fun fuel => parseTrackerCompactResponseContent m' endian max fuel r') (.ok response) ↔
          Converges (fun fuel => parseTrackerCompactResponseContent m endian max fuel r) (.ok response) := by
  refine ⟨classified_of_bytes hbytes hstring, ?_⟩
  intro m' r' entries' hperm hkeys hbytes' hstring' response
  rw [parseTracker_ok_iff hbytes hstring, parseTracker_ok_iff hbytes' hstring', response_perm hperm hkeys]

end

/-! ### Two peers, and a key that is skipped -/

def twoPeers : List (Str × Term) := [
  (.canonical (ascii "complete"), .int 3), (.canonical (ascii "interval"), .int 1800),
  (.canonical (ascii "peers"), .str (.canonical [127, 0, 0, 1, 26, 225, 10, 0, 0, 2, 26, 226]))]

def twoPeersText (entries : List (Str × Term)) : List UInt8 := (Term.dict entries).bytes

def twoPeersContent (entries : List (Str × Term)) (h : (twoPeersText entries).length = 53) : Region :=
  .of 4096 (twoPeersText entries) (by rw [h]; decide)

theorem twoPeersContent_bytes {entries : List (Str × Term)} (h : (twoPeersText entries).length = 53) :
    (twoPeersContent entries h).bytes (place 4096 (twoPeersText entries)) = (Term.dict entries).bytes := Region.bytes_of _

theorem twoPeersContent_size {entries : List (Str × Term)} (h : (twoPeersText entries).length = 53) :
    (twoPeersContent entries h).size.toNat ≤ 2 ^ 62 := by
  rw [← Region.length_bytes _ (place 4096 (twoPeersText entries)), twoPeersContent_bytes]
  exact h.le.trans (by decide)

theorem twoPeersText_length : (twoPeersText twoPeers).length = 53 := by decide

theorem twoPeersText_reverse_length : (twoPeersText twoPeers.reverse).length = 53 := by decide

theorem twoPeers_nodup : (twoPeers.map fun e => e.1.body).Nodup := by decide

/-- The peers may come first. -/
theorem classified_twoPeers :
    Classified .little twoPeers (fun fuel => parseTrackerCompactResponseContent (place 4096 (twoPeersText twoPeers))
      .little ⟨2 ^ 62, 2 ^ 62⟩ fuel (twoPeersContent twoPeers twoPeersText_length)) ∧
      ∀ response,
        Converges (fun fuel => parseTrackerCompactResponseContent (place 4096 (twoPeersText twoPeers.reverse))
          .little ⟨2 ^ 62, 2 ^ 62⟩ fuel (twoPeersContent twoPeers.reverse twoPeersText_reverse_length)) (.ok response) ↔
        Converges (fun fuel => parseTrackerCompactResponseContent (place 4096 (twoPeersText twoPeers))
          .little ⟨2 ^ 62, 2 ^ 62⟩ fuel (twoPeersContent twoPeers twoPeersText_length)) (.ok response) := by
  obtain ⟨hclassified, hperm⟩ := classified _ _ .little ⟨2 ^ 62, 2 ^ 62⟩ twoPeers
    (twoPeersContent_bytes twoPeersText_length) (twoPeersContent_size twoPeersText_length)
  refine ⟨hclassified, hperm _ _ _ (List.reverse_perm _) twoPeers_nodup ?_ ?_⟩
  · exact twoPeersContent_bytes twoPeersText_reverse_length
  · exact twoPeersContent_size twoPeersText_reverse_length

end BittorrentClient
