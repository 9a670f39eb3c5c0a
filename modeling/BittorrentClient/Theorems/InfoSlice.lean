import BittorrentClient.Bencoding.TorrentFile
import BittorrentClient.Lib.Outcome
import BittorrentClient.Theorems.Parser.Completeness
import BittorrentClient.Theorems.Parser.WellFormed

/-! The bytes of the info-hash. The dispatch takes `info_` and its position from the first 'info' entry;
    the position is that of the entry's own text where the lengths that are read fit. -/

namespace BittorrentClient
open FlatMemory Fuel Bencode Outcome BittorrentClient.Parser

/-- The metainfo and its position come from the element `e` of the first entry with the key 'info'. -/
structure FromFirstInfo (m : Memory) (max : MaxSize) (data : DictionaryRef) (info : TorrentFileInfo) (e : ElementRef) :
    Prop where
  first : ∃ before key after, data = before ++ (key, e) :: after ∧ key.equals m (ascii "info") = true ∧
    ∀ entry ∈ before, entry.1.equals m (ascii "info") = false
  filled : ∃ metainfo metainfo', parseInfo m max metainfo e = .ok metainfo' ∧ info.metainfo.info = metainfo'.info
  position : info.info_position = e.position

/-- The position of the info is not empty and lies inside the content. Its slice, which `AsStringView`
    gives, is by itself a bencoded dictionary, and `Parse` of the slice gives the value of the first 'info' entry. -/
def InfoSliced (m : Memory) (max : MaxSize) (content : Region) (info : TorrentFileInfo) : Prop :=
  info.info_position.start < info.info_position.end_ ∧ info.info_position.end_ ≤ content.size ∧
    ∃ slice : Region, asStringView content info.info_position.start info.info_position.end_ =
        some ⟨slice.data, slice.size⟩ ∧
      (∃ entries, slice.bytes m = (Term.dict entries).bytes) ∧
      ∃ data p e e' q, Converges (fun fuel => parseDictionary m fuel content) (.ok data, p) ∧
        FromFirstInfo m max data info e ∧ Converges (fun fuel => parse m fuel slice) (.ok [e'], q) ∧ e'.equals m e = true

section
variable {m : Memory} {max : MaxSize}

/-! ### The dispatch -/

theorem parseAnnounce_info {metainfo metainfo' : TorrentMetainfo} {e : ElementRef}
    (h : parseAnnounce m max metainfo e = .ok metainfo') : metainfo'.info = metainfo.info := by
  obtain ⟨str, -, h⟩ := bind_ok h
  split at h
  · obtain ⟨url, -, h⟩ := bind_ok h
    cases h
    rfl
  · cases h

theorem announceTier_info {i : Nat} {metainfo metainfo' : TorrentMetainfo} (tier : ListRef)
    (h : announceTier m max i metainfo tier = .ok metainfo') : metainfo'.info = metainfo.info := by
  induction tier generalizing metainfo with
  | nil =>
    cases h
    rfl
  | cons url tier ih =>
    unfold announceTier at h
    split at h
    · exact ih h
    · split at h
      · exact ih h
      · obtain ⟨url, -, h⟩ := bind_ok h
        have hinfo := ih h
        exact hinfo

theorem announceTiers_info {i : Nat} {metainfo metainfo' : TorrentMetainfo} (list : ListRef)
    (h : announceTiers m max i metainfo list = .ok metainfo') : metainfo'.info = metainfo.info := by
  induction list generalizing metainfo i with
  | nil =>
    cases h
    rfl
  | cons e list ih =>
    unfold announceTiers at h
    split at h
    · exact ih h
    · obtain ⟨next, htier, h⟩ := bind_ok h
      rw [ih h, announceTier_info _ htier]

theorem parseAnnounceList_info {metainfo metainfo' : TorrentMetainfo} {e : ElementRef}
    (h : parseAnnounceList m max metainfo e = .ok metainfo') : metainfo'.info = metainfo.info := by
  obtain ⟨list, -, h⟩ := bind_ok h
  exact announceTiers_info list h

/-- The parsers of `ParseTorrentFileContent` in the course of the loop: which were used, and the positions. -/
def fileParsers (m : Memory) (max : MaxSize) (announce info announceList : Bool) (p q : ElementPosition) :
    List KeyParser := [
  ⟨ascii "announce", parseAnnounce m max, announce, some p⟩,
  ⟨ascii "info", parseInfo m max, info, some q⟩,
  ⟨ascii "announce-list", parseAnnounceList m max, announceList, none⟩]

theorem equals_length {v : StringView} {s : List UInt8} (h : v.equals m s = true) : v.size.toNat = s.length := by
  simp only [StringView.equals, Bool.and_eq_true, beq_iff_eq] at h
  exact h.1

theorem not_equals_of_length {v : StringView} {s t : List UInt8} (h : v.equals m s = true) (hlen : s.length ≠ t.length) :
    v.equals m t = false := by
  rw [Bool.eq_false_iff]
  exact fun h' => hlen (by rw [← equals_length h, equals_length h'])

theorem map_ok {α β : Type} {x : Except FileError α} {f : α → β} {b : β} (h : x.map f = .ok b) :
    ∃ a, x = .ok a ∧ f a = b := by
  cases x with
  | error e => cases h
  | ok a => exact ⟨a, rfl, Except.ok.inj h⟩

/-- One parser of the dispatch is skipped, or it is used. -/
theorem invoke_cons {metainfo metainfo' : TorrentMetainfo} {key : StringRef} {value : ElementRef} {state : KeyParser}
    {parsers parsers' : List KeyParser}
    (h : invokeParserOptionalKey m metainfo key value (state :: parsers) = .ok (metainfo', parsers')) :
    ((state.parsed = true ∨ key.equals m state.key = false) ∧
        ∃ rest, invokeParserOptionalKey m metainfo key value parsers = .ok (metainfo', rest) ∧ parsers' = state :: rest) ∨
      (state.parsed = false ∧ key.equals m state.key = true ∧ state.parse metainfo value = .ok metainfo' ∧
        parsers' = { state with parsed := true, position := state.position.map fun _ => value.position } :: parsers) := by
  unfold invokeParserOptionalKey at h
  split at h
  · next hskip =>
    obtain ⟨⟨_, rest⟩, hrest, heq⟩ := map_ok h
    cases heq
    exact .inl ⟨by simpa using hskip, rest, hrest, rfl⟩
  · next huse =>
    obtain ⟨_, hparse, heq⟩ := map_ok h
    cases heq
    simp only [Bool.or_eq_true, Bool.not_eq_true', not_or, Bool.not_eq_true, Bool.not_eq_false] at huse
    exact .inr ⟨huse.1, huse.2, hparse, rfl⟩

/-- One step of the dispatch: the first 'info' entry is parsed, another entry keeps `info_` and its position. -/
theorem invoke_fileParsers {a i l : Bool} {p q : ElementPosition} {metainfo metainfo' : TorrentMetainfo}
    {key : StringRef} {value : ElementRef} {parsers : List KeyParser}
    (h : invokeParserOptionalKey m metainfo key value (fileParsers m max a i l p q) = .ok (metainfo', parsers)) :
    (i = false ∧ key.equals m (ascii "info") = true ∧ parseInfo m max metainfo value = .ok metainfo' ∧
        parsers = fileParsers m max a true l p value.position) ∨
      ((i = true ∨ key.equals m (ascii "info") = false) ∧ metainfo'.info = metainfo.info ∧
        ∃ a' l' p', parsers = fileParsers m max a' i l' p' q) := by
  rcases invoke_cons h with ⟨-, rest, h₁, rfl⟩ | ⟨-, hkey, hparse, rfl⟩
  · rcases invoke_cons h₁ with ⟨hskip, rest, h₂, rfl⟩ | ⟨hi, hkey, hparse, rfl⟩
    · rcases invoke_cons h₂ with ⟨-, rest, h₃, rfl⟩ | ⟨-, -, hparse, rfl⟩
      · cases h₃
        exact .inr ⟨hskip, rfl, a, l, p, rfl⟩
      · exact .inr ⟨hskip, parseAnnounceList_info hparse, a, true, p, rfl⟩
    · exact .inl ⟨hi, hkey, hparse, rfl⟩
  · have hlen : (ascii "announce").length ≠ (ascii "info").length := by decide
    exact .inr ⟨.inr (not_equals_of_length hkey hlen), parseAnnounce_info hparse, true, l, _, rfl⟩

/-- Once an 'info' entry was used, the entries after it keep `info_` and its position. -/
theorem invokeParsers_after (data : DictionaryRef) {a l : Bool} {p q : ElementPosition}
    {metainfo metainfo' : TorrentMetainfo} {parsers : List KeyParser}
    (h : invokeParsers m metainfo (fileParsers m max a true l p q) data = .ok (metainfo', parsers)) :
    metainfo'.info = metainfo.info ∧ ∃ a' l' p', parsers = fileParsers m max a' true l' p' q := by
  induction data generalizing metainfo a l p with
  | nil =>
    cases h
    exact ⟨rfl, a, l, p, rfl⟩
  | cons entry data ih =>
    unfold invokeParsers at h
    split at h
    · cases h
    · next _ _ _ hstep =>
      rcases invoke_fileParsers hstep with ⟨hi, -⟩ | ⟨-, hinfo, a', l', p', rfl⟩
      · cases hi
      · rw [← hinfo]
        exact ih h

/-- The run of the dispatch: the first 'info' entry is used, or there is none. -/
theorem invokeParsers_run (data : DictionaryRef) {a l : Bool} {p q : ElementPosition}
    {metainfo metainfo' : TorrentMetainfo} {parsers : List KeyParser}
    (h : invokeParsers m metainfo (fileParsers m max a false l p q) data = .ok (metainfo', parsers)) :
    (∃ a' l' p', parsers = fileParsers m max a' false l' p' q) ∨
      ∃ e a' l' p', parsers = fileParsers m max a' true l' p' e.position ∧
        FromFirstInfo m max data ⟨metainfo', e.position⟩ e := by
  induction data generalizing metainfo a l p with
  | nil =>
    cases h
    exact .inl ⟨a, l, p, rfl⟩
  | cons entry data ih =>
    unfold invokeParsers at h
    split at h
    · cases h
    · next next' parsers' hstep =>
      rcases invoke_fileParsers hstep with ⟨-, hkey, hparse, rfl⟩ | ⟨hskip, -, a', l', p', rfl⟩
      · obtain ⟨hinfo, a', l', p', rfl⟩ := invokeParsers_after data h
        refine .inr ⟨_, a', l', p', rfl, ⟨[], _, data, rfl, hkey, by simp⟩, ⟨metainfo, next', hparse, hinfo⟩, rfl⟩
      · have hkey := hskip.resolve_left (by decide)
        rcases ih h with hnone | ⟨e', a', l', p', hparsers, ⟨before, key, after, hdata, hinfo, hbefore⟩, hfilled, hpos⟩
        · exact .inl hnone
        · refine .inr ⟨e', a', l', p', hparsers, ⟨_ :: before, key, after, by rw [hdata]; rfl, hinfo, ?_⟩, hfilled, hpos⟩
          exact List.forall_mem_cons.mpr ⟨hkey, hbefore⟩

theorem fromFirstInfo_of_data {data : DictionaryRef} {info : TorrentFileInfo}
    (h : parseTorrentData m max data = .ok info) : ∃ e, FromFirstInfo m max data info e := by
  unfold parseTorrentData at h
  split at h
  · cases h
  · next metainfo parsers hrun =>
    rcases invokeParsers_run (p := {}) (q := {}) data hrun with ⟨a, l, p, rfl⟩ | ⟨e, a, l, p, rfl, hfirst⟩
    · simp [fileParsers] at h
    · simp only [fileParsers, List.map_cons, List.map_nil] at h
      split at h
      · cases h
      · cases h
        exact ⟨e, hfirst⟩

/-! ### The slice -/

variable {r : Region}

theorem exists_locate_of_mem {i : Nat} {key : StringRef} {e : ElementRef} (entries : List (Str × Term))
    (h : r.Holds m i (entriesBytes entries)) (hmem : (key, e) ∈ locateEntries r i entries) :
    ∃ j t, e = locate r j t ∧ r.Holds m j t.bytes := by
  induction entries generalizing i with
  | nil => cases hmem
  | cons entry entries ih =>
    obtain ⟨s, t⟩ := entry
    rw [entriesBytes, r.holds_append_iff, r.holds_append_iff, List.length_append, ← Nat.add_assoc] at h
    rcases List.mem_cons.mp hmem with heq | hmem
    · cases heq
      exact ⟨_, t, rfl, h.1.2⟩
    · exact ih h.2 hmem

theorem eq_dict_of_locate {i : Nat} {t : Term} {data : DictionaryRef} {p : ElementPosition}
    (h : .dictionary data p = locate r i t) : ∃ entries, t = .dict entries ∧ data = locateEntries r (i + 1) entries := by
  cases t with
  | dict entries =>
    simp only [locate, ElementRef.dictionary.injEq] at h
    exact ⟨entries, rfl, h.1⟩
  | int => simp [locate, integerAt] at h
  | str => simp [locate, stringAt] at h
  | list => simp [locate] at h

theorem parseInfo_dictionary {metainfo metainfo' : TorrentMetainfo} {i : Nat} {t : Term}
    (h : parseInfo m max metainfo (locate r i t) = .ok metainfo') : ∃ entries, t = .dict entries := by
  obtain ⟨data, hdata, -⟩ := bind_ok h
  cases t with
  | dict entries => exact ⟨entries, rfl⟩
  | _ => cases hdata

/-- The slice of a located dictionary is a text of its own with the same value. -/
theorem slice_of_located {i : Nat} {t : Term} (h : r.Holds m i t.bytes) :
    ∃ slice : Region, asStringView r (UInt64.ofNat i) (UInt64.ofNat (i + t.bytes.length)) = some ⟨slice.data, slice.size⟩ ∧
      slice.bytes m = t.bytes ∧
      ∃ e' q, Converges (fun fuel => parse m fuel slice) (.ok [e'], q) ∧ e'.equals m (locate r i t) = true := by
  have hij : i ≤ i + t.bytes.length := Nat.le_add_right _ _
  have hbytes : (r.sub i (i + t.bytes.length) hij h.1).bytes m = t.bytes := by rw [r.bytes_sub, h.2]
  have htext : (r.sub i (i + t.bytes.length) hij h.1).bytes m = itemsBytes [t] := by
    rw [hbytes, itemsBytes, itemsBytes, List.append_nil]
  refine ⟨r.sub i (i + t.bytes.length) hij h.1, ?_, hbytes, locate (r.sub i (i + t.bytes.length) hij h.1) 0 t, _,
    parse_terms (List.cons_ne_nil _ _) htext, ?_⟩
  · have hend := toNat_ofNat_le h.1
    have hstart : (UInt64.ofNat i).toNat = i := toNat_ofNat_le (r := r) (by have := h.1; omega)
    unfold asStringView
    rw [if_pos (by rw [UInt64.le_iff_toNat_le, UInt64.le_iff_toNat_le, hend, hstart]; exact ⟨hij, h.1⟩)]
    simp only [Region.sub, Region.addr, Option.some.injEq, StringView.mk.injEq, true_and]
    rw [← UInt64.toNat_inj, UInt64.toNat_sub_of_le _ _ (by rw [UInt64.le_iff_toNat_le, hend, hstart]; exact hij), hend,
      hstart, toNat_ofNat_le (r := r) (by have := h.1; omega)]
  · have hsub := (holds_of_bytes hbytes).1
    exact (locate_carries t hsub).equals t (locate_carries t h)

/-- Where the lengths that are read fit, the info-hash is taken over the right bytes. -/
theorem infoSliced_of_lengthsFit (m : Memory) (max : MaxSize) (content : Region) (info : TorrentFileInfo) (fuel : Nat)
    (hfit : LengthsFit m content (· = 0)) (h : parseTorrentFileContent m max fuel content = some (.ok info)) :
    InfoSliced m max content info := by
  obtain ⟨x, hparse, hends⟩ := parseDictionary_run (· = 0) rfl (fits_agrees m content) (covers_fits hfit)
  unfold parseTorrentFileContent at h
  obtain ⟨y, hy, hinfo⟩ := Option.map_eq_some_iff.mp h
  obtain rfl := hparse.eq_of_some (parseDictionary_stable content) hy
  rcases y with ⟨_ | data, p⟩
  · cases hinfo
  · obtain ⟨e, hfirst⟩ := fromFirstInfo_of_data hinfo
    obtain ⟨k, rfl, hread⟩ := hends
    obtain ⟨t, ht, rfl, hholds⟩ := hread.located
    obtain ⟨entries, rfl, rfl⟩ := eq_dict_of_locate ht
    rw [Term.bytes, Region.holds_enclosed_iff] at hholds
    obtain ⟨before, key, after, hdata, -⟩ := hfirst.first
    have hmem : (key, e) ∈ locateEntries content (0 + 1) entries := by simp [hdata]
    obtain ⟨j, t, rfl, ht'⟩ := exists_locate_of_mem entries hholds.2.2.1 hmem
    obtain ⟨metainfo, metainfo', hfilled, -⟩ := hfirst.filled
    obtain ⟨entries', rfl⟩ := parseInfo_dictionary hfilled
    obtain ⟨slice, hview, hbytes, e', q, hslice, heq⟩ := slice_of_located ht'
    have hpos := hfirst.position
    rw [position_locate ht'] at hpos
    have hlen := (Term.dict entries').length_bytes_pos
    have hend := ht'.1
    rw [InfoSliced, hpos]
    refine ⟨?_, ?_, slice, hview, ⟨entries', hbytes⟩, _, _, _, e', q, hparse, hfirst, hslice, heq⟩
    · simp only [rangeOf, UInt64.lt_iff_toNat_lt]
      rw [toNat_ofNat_le ht'.1, toNat_ofNat_le (r := content) (by omega)]
      omega
    · simp only [rangeOf, UInt64.le_iff_toNat_le]
      rw [toNat_ofNat_le ht'.1]
      exact ht'.1

/-- A small .torrent file. -/
def torrentFile : List UInt8 := ascii "d8:announce1:u4:infod6:lengthi1e12:piece lengthi1e6:pieces20:aaaaaaaaaaaaaaaaaaaaee"

def torrentValue : Value := .dict [(ascii "announce", .str (ascii "u")), (ascii "info", .dict [
  (ascii "length", .int 1), (ascii "piece length", .int 1), (ascii "pieces", .str (ascii "aaaaaaaaaaaaaaaaaaaa"))])]

def torrentInfo : TorrentFileInfo where
  metainfo := { tracker_url_utf8 := ascii "u", info.piece_length_bytes := 1, info.length_or_files := .length 1,
                info.pieces_SHA1 := ascii "aaaaaaaaaaaaaaaaaaaa" }
  info_position := ⟨20, 82⟩

theorem infoSliced_torrentFile :
    InfoSliced (place 4096 torrentFile) ⟨2 ^ 62, 2 ^ 62⟩ (.of 4096 torrentFile (by decide)) torrentInfo := by
  refine infoSliced_of_lengthsFit _ _ _ _ 40 (lengthsFit_of_term (t := torrentValue.term) ?_) (by decide +kernel)
  rw [Region.bytes_of, Value.bytes_term]
  decide +kernel

/-! ### A length that falls back -/

/-- The last length, `2 ^ 64 - 93`, moves the cursor back into the announce string, which ends the info and
    the file. The test of the length passes at every address of the content from 93 on. -/
def fallingBack : List UInt8 := ascii
  "d8:announce62:6:lengthi1e12:piece lengthi1e6:pieces20:aaaaaaaaaaaaaaaaaaaaee4:infod1:x18446744073709551523:"

theorem fallingBack_accepted : (parseTorrentFileContent (place 4096 fallingBack) ⟨2 ^ 62, 2 ^ 62⟩ 40
    (.of 4096 fallingBack (by decide))).map (fun info => info.toOption.map TorrentFileInfo.info_position) =
      some (some ⟨82, 75⟩) := by decide +kernel

/-- The file is accepted and its info starts after it ends. -/
theorem not_infoSliced_fallingBack : ∃ info, parseTorrentFileContent (place 4096 fallingBack) ⟨2 ^ 62, 2 ^ 62⟩ 40
    (.of 4096 fallingBack (by decide)) = some (.ok info) ∧
      ¬InfoSliced (place 4096 fallingBack) ⟨2 ^ 62, 2 ^ 62⟩ (.of 4096 fallingBack (by decide)) info := by
  have h := fallingBack_accepted
  revert h
  rcases parseTorrentFileContent (place 4096 fallingBack) ⟨2 ^ 62, 2 ^ 62⟩ 40 (.of 4096 fallingBack (by decide)) with
    _ | _ | info
  · simp
  · simp [Except.toOption]
  · intro h
    simp only [Option.map_some, Except.toOption, Option.some.injEq] at h
    exact ⟨info, rfl, fun hsliced => absurd hsliced.1 (by rw [h]; decide)⟩

end

end BittorrentClient
