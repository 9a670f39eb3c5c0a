import BittorrentClient.Theorems.Torrent.Dispatch

/-! What a .torrent file is parsed to: what it says, and the range of its first info, where its announce comes first. -/

namespace BittorrentClient
open FlatMemory Fuel Bencode Outcome Dispatch

section
variable {m : Memory} {r : Region} {max : MaxSize}

/-! ### The parsers and their slots -/

/-- A length or files that are put into the info of a metainfo. -/
theorem map_putOnce {α : Type} (x : Option α) (content : α → LengthOrFiles) (s : TorrentMetainfo) (info : Metainfo.Info) :
    (if info.length_or_files ≠ .monostate then none
      else x.map fun a => { s with info := { info with length_or_files := content a } }) =
        (x.bind fun a => Content.putOnce (content a) info).map fun info => { s with info } := by
  rw [Option.map_bind]
  by_cases hput : info.length_or_files ≠ .monostate
  · have hnone (a : α) : Content.putOnce (content a) info = none := if_pos hput
    simp only [hnone, Function.comp_def, Option.map_none, Option.bind_fun_none]
    exact if_pos hput
  · have hsome (a : α) : Content.putOnce (content a) info = some { info with length_or_files := content a } :=
      if_neg hput
    simp only [hsome, Function.comp_def, Option.map_some]
    rw [if_neg hput, Option.map_eq_bind]
    rfl

theorem waiting_infoParsers (s : TorrentMetainfo) :
    Waiting m r (fun info => { s with info }) (infoParsers m max) (Content.infoSlots max) := by
  refine .cons ⟨rfl, rfl, ?_⟩ (.cons ⟨rfl, rfl, ?_⟩ (.cons ⟨rfl, rfl, ?_⟩ (.cons ⟨rfl, rfl, ?_⟩ (.cons ⟨rfl, rfl, ?_⟩ .nil))))
  · intro info e t h
    refine (parseInfoName_of_carries h _).trans ?_
    rw [Content.nameSlot, Option.map_bind, Option.map_eq_bind]
    refine congrArg _ (funext fun name => ?_)
    rw [Function.comp_apply, Function.comp_apply, Option.map_some]
    split
    · rfl
    · rfl
  · intro info e t h
    refine (parseInfoPieceLength_of_carries h _).trans ?_
    rw [Content.pieceLengthSlot, Option.map_bind, Option.map_eq_bind]
    rfl
  · intro info e t h
    refine (parseInfoPieces_of_carries h _).trans ?_
    rw [Content.piecesSlot, Option.map_bind, Option.map_eq_bind]
    rfl
  · intro info e t h
    exact (parseInfoLength_of_carries h _).trans (map_putOnce (Content.number t) .length s info)
  · intro info e t h
    exact (parseInfoFiles_of_carries h _).trans (map_putOnce (Content.files max t) .files s info)

theorem parseInfo_of_carries {e : ElementRef} {t : Term} (h : Carries m r e t) (s : TorrentMetainfo) :
    (parseInfo m max s e).toOption = (Content.guardedInfoSlot max).handle s t := by
  rw [parseInfo, toOption_bind, elementRefAsDictionary, elementRefAs_toOption]
  show _ = if s.tracker_url_utf8 = [] then none else (Content.dict t).bind fun entries => Content.putInfo max entries s
  rcases h.asDictionary with ⟨he, ht⟩ | ⟨data, entries, he, ht, hdata⟩
  · rw [he, ht]
    exact (ite_self _).symm
  · have hwait : Waiting m r (fun info => { s with info }) (infoParsers m max) (Content.infoSlots max) :=
      waiting_infoParsers s
    have hrun := invokeParsers_waiting hwait hdata s.info
    rw [run_eq_turns (Content.infoSlots_nodup max) (Content.infoSlots_commute max)] at hrun
    rw [he, ht, Option.bind_some, toOption_bind, Option.bind_some, Content.putInfo]
    cases hinvoke : invokeParsers m s (infoParsers m max) data with
    | error error =>
      have hnone : turns (Content.byKey entries) (Content.infoSlots max) s.info = none := by
        rw [hinvoke] at hrun
        exact Option.map_eq_none_iff.mp hrun.symm
      rw [hnone]
      exact (ite_self _).symm
    | ok result =>
      obtain ⟨metainfo, parsers⟩ := result
      rw [hinvoke] at hrun
      obtain ⟨info, hinfo, rfl⟩ := Option.map_eq_some_iff.mp hrun.symm
      rw [hinfo]
      show (if s.tracker_url_utf8.length > 0 ∧ Content.Complete info then
          (pure { s with info } : Except FileError TorrentMetainfo) else throw (.code .invalidInvariant)).toOption = _
      by_cases hurl : s.tracker_url_utf8 = []
      · rw [if_pos hurl, if_neg (by simp [hurl])]
        rfl
      · have hpos : s.tracker_url_utf8.length > 0 := List.length_pos_iff.mpr hurl
        rw [if_neg hurl, Option.bind_some]
        by_cases hcomplete : Content.Complete info
        · rw [if_pos ⟨hpos, hcomplete⟩, if_pos hcomplete]
          rfl
        · rw [if_neg (fun h => hcomplete h.2), if_neg hcomplete]
          rfl

/-- The parsers of `ParseTorrentFileContent`. -/
def contentParsers (m : Memory) (max : MaxSize) : List KeyParser :=
  [announceParser m max, infoParser m max, announceListParser m max]

theorem waiting_contentParsers : Waiting m r id (contentParsers m max)
    [Content.announceSlot max, Content.guardedInfoSlot max, Content.announceListSlot max] := by
  refine .cons ⟨rfl, rfl, ?_⟩ (.cons ⟨rfl, rfl, ?_⟩ (.cons ⟨rfl, rfl, ?_⟩ .nil))
  · intro s e t h
    refine (parseAnnounce_of_carries h s).trans ?_
    rw [Content.announceSlot, Option.map_id_fun, id_eq, Option.map_eq_bind]
    rfl
  · intro s e t h
    rw [Option.map_id_fun, id_eq]
    exact parseInfo_of_carries h s
  · intro s e t h
    refine (parseAnnounceList_of_carries h s).trans ?_
    rw [Content.announceListSlot, Option.map_id_fun, id_eq, Option.map_eq_bind]
    rfl

/-! ### The positions -/

theorem Carries.end_ne_zero {e : ElementRef} {t : Term} (h : Carries m r e t) : e.position.end_ ≠ 0 := by
  have hspan := h.spans.1
  have hpos := t.length_bytes_pos
  intro hend
  rw [hend, UInt64.toNat_zero] at hspan
  omega

/-- A position of `ParseTorrentFileContent` after its loop. -/
def positionOf (m : Memory) (key : List UInt8) (data : DictionaryRef) : ElementPosition :=
  match data.find? fun entry => entry.1.equals m key with
  | none => {}
  | some entry => entry.2.position

theorem positionOf_cons_of_equals {name : StringRef} {key : List UInt8} (h : name.equals m key = true) (e : ElementRef)
    (data : DictionaryRef) : positionOf m key ((name, e) :: data) = e.position := by
  have hfind : ((name, e) :: data).find? (fun entry => entry.1.equals m key) = some (name, e) :=
    List.find?_cons_of_pos h
  rw [positionOf, hfind]

theorem positionOf_cons_of_not_equals {name : StringRef} {key : List UInt8} (h : ¬name.equals m key = true)
    (e : ElementRef) (data : DictionaryRef) : positionOf m key ((name, e) :: data) = positionOf m key data := by
  have hfind : ((name, e) :: data).find? (fun entry => entry.1.equals m key) =
      data.find? fun entry => entry.1.equals m key := List.find?_cons_of_neg h
  rw [positionOf, hfind, positionOf]

theorem end_positionOf {data : DictionaryRef} {entries : List (Str × Term)} (h : EntriesCarry m r data entries)
    (key : String) : (positionOf m (ascii key) data).end_ = 0 ↔ Content.value entries key = none := by
  rw [positionOf, Content.value]
  rcases find_of_carries h (ascii key) with ⟨hfind, hfirst⟩ | ⟨k, e, t, hfind, hfirst, he⟩
  · rw [hfind, hfirst]
    exact iff_of_true rfl rfl
  · rw [hfind, hfirst]
    exact iff_of_false he.end_ne_zero (Option.some_ne_none t)

theorem position_after {p : KeyParser} (hparsed : p.parsed = false) (hposition : p.position = some {})
    (data : DictionaryRef) : (p.after m data).position = some (positionOf m p.key data) := by
  rw [KeyParser.after, if_neg (by simp [hparsed]), positionOf]
  cases data.find? fun entry => entry.1.equals m p.key with
  | none => exact hposition
  | some entry =>
    simp only [hposition]
    rfl

theorem position_after_none {p : KeyParser} (hparsed : p.parsed = false) (hposition : p.position = none)
    (data : DictionaryRef) : (p.after m data).position = none := by
  rw [KeyParser.after, if_neg (by simp [hparsed])]
  cases data.find? fun entry => entry.1.equals m p.key with
  | none => exact hposition
  | some entry =>
    simp only [hposition]
    rfl

theorem positions_contentParsers (data : DictionaryRef) :
    ((contentParsers m max).map (KeyParser.after m data)).map KeyParser.position =
      [some (positionOf m (ascii "announce") data), some (positionOf m (ascii "info") data), none] := by
  simp only [contentParsers, List.map_cons, List.map_nil]
  rw [position_after rfl rfl, position_after rfl rfl, position_after_none rfl rfl]
  rfl

/-! ### The content -/

/-- What is returned for a dictionary. -/
theorem parseTorrentData_eq_ok_iff {data : DictionaryRef} {entries : List (Str × Term)}
    (h : EntriesCarry m r data entries) (info : TorrentFileInfo) :
    parseTorrentData m max data = .ok info ↔
      (Content.AnnounceFirst entries ∧ Content.metainfo max entries = some info.metainfo) ∧
        info.info_position = positionOf m (ascii "info") data := by
  have hkeys : ((contentParsers m max).map KeyParser.key).Nodup := by
    show [ascii "announce", ascii "info", ascii "announce-list"].Nodup
    decide
  have hwait : Waiting m r id (contentParsers m max) _ := waiting_contentParsers
  have hrun := invokeParsers_waiting hwait h {}
  rw [Option.map_id_fun, id_eq, id_eq] at hrun
  have hparsers : [announceParser m max, infoParser m max, announceListParser m max] = contentParsers m max := rfl
  rw [← Content.run_fileSlots_iff, ← hrun, parseTorrentData, hparsers]
  cases hinvoke : invokeParsers m {} (contentParsers m max) data with
  | error error =>
    constructor
    · rintro ⟨⟩
    · rintro ⟨⟨⟨⟩, -⟩, -⟩
  | ok result =>
    obtain ⟨metainfo, parsers⟩ := result
    obtain rfl := invokeParsers_after_eq hkeys hinvoke
    have habsent : (positionOf m (ascii "announce") data).end_ = 0 ∨ (positionOf m (ascii "info") data).end_ = 0 ↔
        ¬(Content.value entries "announce" ≠ none ∧ Content.value entries "info" ≠ none) := by
      rw [end_positionOf h, end_positionOf h, not_and_or, not_not, not_not]
    simp only [positions_contentParsers]
    constructor
    · intro hok
      split at hok
      · cases hok
      · next hpresent =>
        cases hok
        exact ⟨⟨rfl, not_not.mp (mt habsent.mpr hpresent)⟩, rfl⟩
    · rintro ⟨⟨hmetainfo, hpresent⟩, hposition⟩
      rw [if_neg (fun h => habsent.mp h hpresent), ← hposition]
      cases hmetainfo
      rfl

/-- `ParseDictionary` gives the dictionary that is read at the start of the region. -/
theorem parseDictionary_of_reads {S : StringRule} (hS : Agrees m r S) {data : DictionaryRef} {position : ElementPosition}
    {j : Nat} (h : Reads m r S 0 (.dictionary data position) j) :
    Converges (fun fuel => parseDictionary m fuel r) (.ok data, cursor r j) := by
  unfold parseDictionary
  rw [make_eq_cursor]
  cases h with
  | @dictionary _ _ k hi hb hentries hk hend =>
    have hloop : Converges (fun fuel => Parser.dictionaryLoop m fuel (r.addr 0) [] (cursor r (0 + 1)))
        (.ok (.dictionary data (rangeOf 0 (k + 1))), cursor r (k + 1)) := by
      refine hentries.loop hS hi ?_
      simpa only [if_pos hk] using dictionary_end_cursor (i := 0) data hk.le fun h => h.2 hend
    exact take_converges (Parser.dictionary_enter (consume_eq_some hi hb) hloop) rfl

/-- The entries of the dictionary in the content, with the ranges at which they stand, are parsed. -/
theorem parseTorrentFileContent_dict {entries : List (Str × Term)} (h : r.bytes m = (Term.dict entries).bytes) :
    Converges (fun fuel => parseTorrentFileContent m max fuel r) (parseTorrentData m max (locateEntries r 1 entries)) := by
  have hread := reads_locate (.dict entries) (holds_of_bytes h).1
  obtain ⟨n, hn⟩ := parseDictionary_of_reads (fits_agrees m r) hread
  refine ⟨n, ?_⟩
  intro k hk
  have hparse := hn k hk
  simp only at hparse
  simp only [parseTorrentFileContent, hparse, Option.map_some]

theorem locateEntries_carry_dict {entries : List (Str × Term)} (h : r.bytes m = (Term.dict entries).bytes) :
    EntriesCarry m r (locateEntries r 1 entries) entries := by
  have hholds := (holds_of_bytes h).1
  rw [Term.bytes, r.holds_enclosed_iff] at hholds
  exact locateEntries_carry entries hholds.2.2.1

/-- What is returned for the text of a dictionary. -/
theorem parseTorrentFileContent_ok_iff {entries : List (Str × Term)} (h : r.bytes m = (Term.dict entries).bytes)
    (info : TorrentFileInfo) :
    Converges (fun fuel => parseTorrentFileContent m max fuel r) (.ok info) ↔
      (Content.AnnounceFirst entries ∧ Content.metainfo max entries = some info.metainfo) ∧
        info.info_position = positionOf m (ascii "info") (locateEntries r 1 entries) := by
  rw [← parseTorrentData_eq_ok_iff (locateEntries_carry_dict h)]
  have hparse : Converges (fun fuel => parseTorrentFileContent m max fuel r) _ := parseTorrentFileContent_dict h
  constructor
  · exact hparse.unique
  · intro hok
    rwa [hok] at hparse

/-! ### The range of the info -/

/-- The position is that of the text of the first value of the key, where the entries stand at offset `i`. -/
def ValueRange (entries : List (Str × Term)) (key : String) (i : Nat) (position : ElementPosition) : Prop :=
  ∃ before s t after, entries = before ++ (s, t) :: after ∧ s.body = ascii key ∧
    (∀ entry ∈ before, entry.1.body ≠ ascii key) ∧
    position.start.toNat = i + (entriesBytes before).length + s.bytes.length ∧
    position.end_.toNat = position.start.toNat + t.bytes.length

theorem valueRange_positionOf {entries : List (Str × Term)} {key : String} {i : Nat}
    (h : r.Holds m i (entriesBytes entries)) (hvalue : Content.value entries key ≠ none) :
    ValueRange entries key i (positionOf m (ascii key) (locateEntries r i entries)) := by
  induction entries generalizing i with
  | nil => exact absurd rfl hvalue
  | cons entry entries ih =>
    obtain ⟨s, t⟩ := entry
    have hcarry := locateEntries_carry _ h
    rw [entriesBytes, r.holds_append_iff, r.holds_append_iff, List.length_append, ← Nat.add_assoc] at h
    obtain ⟨⟨hs, ht⟩, hrest⟩ := h
    have hread : StringView.read m ⟨r.addr (i + s.header), UInt64.ofNat s.body.length⟩ = s.body := hcarry.1
    rw [locateEntries]
    by_cases hkey : s.body = ascii key
    · rw [positionOf_cons_of_equals ((equals_iff hread).mpr hkey), position_locate ht]
      refine ⟨[], s, t, entries, rfl, hkey, List.forall_mem_nil _, ?_⟩
      have hend := ht.1
      simp only [rangeOf, entriesBytes, List.length_nil, Nat.add_zero]
      rw [toNat_ofNat_le (r := r) (by omega), toNat_ofNat_le ht.1]
      exact ⟨rfl, rfl⟩
    · have hnot : ¬StringView.equals m ⟨r.addr (i + s.header), UInt64.ofNat s.body.length⟩ (ascii key) = true :=
        fun h => hkey ((equals_iff hread).mp h)
      have hrestValue : Content.value entries key ≠ none := by
        rwa [Content.value, Content.byKey, List.map_cons, first_cons_of_ne hkey] at hvalue
      obtain ⟨before, s', t', after, heq, hkey', hbefore, hstart, hend⟩ := ih hrest hrestValue
      rw [positionOf_cons_of_not_equals hnot]
      refine ⟨(s, t) :: before, s', t', after, by rw [heq, List.cons_append], hkey', ?_, ?_, hend⟩
      · exact List.forall_mem_cons.mpr ⟨hkey, hbefore⟩
      · rw [hstart, entriesBytes, List.length_append, List.length_append]
        omega

end

end BittorrentClient
