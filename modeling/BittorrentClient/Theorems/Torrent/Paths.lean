import BittorrentClient.Theorems.Torrent.Accepted

/-! The paths of the files of a torrent: when they can be taken apart into the components they were joined from. -/

namespace BittorrentClient
open FlatMemory Fuel Bencode Outcome

/-- The value of the first entry with the key. -/
def firstOf (m : Memory) (data : DictionaryRef) (key : String) : Option ElementRef :=
  (data.find? fun entry => entry.1.equals m (ascii key)).map Prod.snd

/-- The list 'path' of an entry of 'files', as strings. -/
def components (m : Memory) (entry : ElementRef) : Option (List (List UInt8)) := do
  let file ← entry.asDictionary
  let path ← (← firstOf m file "path").asList
  path.mapM fun part => part.asString.map (StringView.read m)

/-- The components of file `i` of a parsed torrent. -/
def componentsAt (m : Memory) (data : DictionaryRef) (i : Nat) : Option (List (List UInt8)) := do
  let info ← (← firstOf m data "info").asDictionary
  let files ← (← firstOf m info "files").asList
  components m (← files[i]?)

/-- The content is accepted as a torrent of several files, and is the dictionary `data`. -/
structure AcceptedFiles (m : Memory) (max : MaxSize) (content : Region) (data : DictionaryRef)
    (files : List Metainfo.File) : Prop where
  dictionary : ∃ p, Converges (fun fuel => parseDictionary m fuel content) (.ok data, p)
  accepted : ∃ info, Converges (fun fuel => parseTorrentFileContent m max fuel content) (.ok info) ∧
    info.metainfo.info.length_or_files = .files files

/-- A path is taken apart at its slashes into the components it was parsed from, and these are told apart by it. -/
structure PathsKept (m : Memory) (data : DictionaryRef) (files : List Metainfo.File) : Prop where
  split : ∀ i file, files[i]? = some file → ∃ parts, componentsAt m data i = some parts ∧ parts ≠ [] ∧
    file.path_utf8.splitOn 47 = parts
  distinct : ∀ i j file file', files[i]? = some file → files[j]? = some file' →
    componentsAt m data i ≠ componentsAt m data j → file.path_utf8 ≠ file'.path_utf8

/-- There are components, and no slash in any of them. -/
def BareComponents (m : Memory) (data : DictionaryRef) : Prop :=
  ∀ i parts, componentsAt m data i = some parts → parts ≠ [] ∧ ∀ part ∈ parts, 47 ∉ part

/-! ### Splitting -/

theorem not_mem_of_mem_splitOn {x : UInt8} {text part : List UInt8} (h : part ∈ text.splitOn x) : x ∉ part := by
  induction text generalizing part with
  | nil =>
    rw [List.splitOn_nil, List.mem_singleton] at h
    rw [h]
    exact List.not_mem_nil
  | cons b text ih =>
    rw [List.splitOn_cons_eq_if_modifyHead] at h
    split at h
    · rcases List.mem_cons.mp h with rfl | h
      · exact List.not_mem_nil
      · exact ih h
    · rename_i hb
      cases hsplit : text.splitOn x with
      | nil => exact absurd hsplit (List.splitOn_ne_nil x text)
      | cons first rest =>
        rw [hsplit, List.modifyHead_cons] at h
        rcases List.mem_cons.mp h with rfl | h
        · rw [List.mem_cons, not_or]
          refine ⟨?_, ih (hsplit ▸ List.mem_cons_self)⟩
          rintro rfl
          exact hb (beq_self_eq_true x)
        · exact ih (hsplit ▸ List.mem_cons_of_mem _ h)

theorem splitOn_intercalate_iff {parts : List (List UInt8)} :
    ([47].intercalate parts).splitOn 47 = parts ↔ parts ≠ [] ∧ ∀ part ∈ parts, 47 ∉ part := by
  constructor
  · intro h
    refine ⟨?_, ?_⟩
    · rw [← h]
      exact List.splitOn_ne_nil _ _
    · intro part hpart
      exact not_mem_of_mem_splitOn (h.symm ▸ hpart)
  · rintro ⟨hne, hpart⟩
    exact List.splitOn_intercalate 47 hpart hne

/-! ### What the loops over the entries leave of a value -/

section
variable {α : Type} {obs : TorrentMetainfo → α} {m : Memory}

theorem firstOf_cons_of_equals {name : StringRef} {key : String} (h : name.equals m (ascii key) = true) (e : ElementRef)
    (data : DictionaryRef) : firstOf m ((name, e) :: data) key = some e := by
  have hfind : ((name, e) :: data).find? (fun entry => entry.1.equals m (ascii key)) = some (name, e) :=
    List.find?_cons_of_pos h
  rw [firstOf, hfind]
  rfl

theorem firstOf_cons_of_not_equals {name : StringRef} {key : String} (h : ¬name.equals m (ascii key) = true)
    (e : ElementRef) (data : DictionaryRef) : firstOf m ((name, e) :: data) key = firstOf m data key := by
  have hfind : ((name, e) :: data).find? (fun entry => entry.1.equals m (ascii key)) =
      data.find? fun entry => entry.1.equals m (ascii key) := List.find?_cons_of_neg h
  rw [firstOf, hfind, firstOf]

/-- The parser leaves the value alone. -/
def KeyParser.Keeps (obs : TorrentMetainfo → α) (p : KeyParser) : Prop :=
  ∀ s e s', p.parse s e = .ok s' → obs s' = obs s

/-- A step of the dispatch: no parser waits for the key, or the first one that does is used. -/
theorem invoke_cases {parsers parsers' : List KeyParser} {s s' : TorrentMetainfo} {name : StringRef} {e : ElementRef}
    (h : invokeParserOptionalKey m s name e parsers = .ok (s', parsers')) :
    (s' = s ∧ parsers' = parsers ∧ ∀ p ∈ parsers, p.parsed = false → name.equals m p.key = false) ∨
    ∃ before p after position, parsers = before ++ p :: after ∧ name.equals m p.key = true ∧ p.parsed = false ∧
      p.parse s e = .ok s' ∧ parsers' = before ++ { p with parsed := true, position } :: after := by
  induction parsers generalizing parsers' with
  | nil =>
    cases h
    exact .inl ⟨rfl, rfl, nofun⟩
  | cons state parsers ih =>
    rcases invoke_cons h with ⟨hskip, rest, hrest, rfl⟩ | ⟨hparsed, hkey, hparse, rfl⟩
    · rcases ih hrest with ⟨rfl, rfl, hnone⟩ | ⟨before, p, after, position, rfl, hkey, hparsed, hparse, rfl⟩
      · refine .inl ⟨rfl, rfl, List.forall_mem_cons.mpr ⟨?_, hnone⟩⟩
        intro hparsed
        exact hskip.resolve_left (by simp [hparsed])
      · exact .inr ⟨state :: before, p, after, position, rfl, hkey, hparsed, hparse, rfl⟩
    · exact .inr ⟨[], state, parsers, _, rfl, hkey, hparsed, hparse, rfl⟩

/-- The parsers that are not used yet leave the value alone. -/
def AllKeep (obs : TorrentMetainfo → α) (parsers : List KeyParser) : Prop :=
  ∀ p ∈ parsers, p.parsed = false → p.Keeps obs

theorem AllKeep.used {before after : List KeyParser} {p : KeyParser} {position : Option ElementPosition}
    (h : AllKeep obs (before ++ p :: after)) :
    AllKeep obs (before ++ { p with parsed := true, position } :: after) := by
  intro q hq hparsed
  rcases List.mem_append.mp hq with hq | hq
  · exact h q (List.mem_append_left _ hq) hparsed
  · rcases List.mem_cons.mp hq with rfl | hq
    · cases hparsed
    · exact h q (List.mem_append_right _ (List.mem_cons_of_mem _ hq)) hparsed

theorem invokeParsers_keeps {parsers parsers' : List KeyParser} {s s' : TorrentMetainfo} (data : DictionaryRef)
    (hkeep : AllKeep obs parsers) (h : invokeParsers m s parsers data = .ok (s', parsers')) : obs s' = obs s := by
  induction data generalizing s parsers with
  | nil =>
    cases h
    rfl
  | cons entry data ih =>
    rw [invokeParsers] at h
    split at h
    · cases h
    · rename_i hstep
      rcases invoke_cases hstep with ⟨rfl, rfl, -⟩ | ⟨before, p, after, position, rfl, -, hparsed, hparse, rfl⟩
      · exact ih hkeep h
      · rw [ih hkeep.used h]
        exact hkeep p (List.mem_append_right _ List.mem_cons_self) hparsed _ _ _ hparse

/-- The parsers that are not used yet leave the value alone, but for the one of a key. -/
structure AllKeepBut (obs : TorrentMetainfo → α) (key : String)
    (parse : TorrentMetainfo → ElementRef → Except FileError TorrentMetainfo) (parsers : List KeyParser) : Prop where
  keys : (parsers.map KeyParser.key).Nodup
  parse_eq : ∀ p ∈ parsers, p.key = ascii key → p.parse = parse
  keep : ∀ p ∈ parsers, p.parsed = false → p.key ≠ ascii key → p.Keeps obs

theorem AllKeepBut.used {key : String} {parse : TorrentMetainfo → ElementRef → Except FileError TorrentMetainfo}
    {before after : List KeyParser} {p : KeyParser} {position : Option ElementPosition}
    (h : AllKeepBut obs key parse (before ++ p :: after)) :
    AllKeepBut obs key parse (before ++ { p with parsed := true, position } :: after) := by
  have hmem : ∀ q ∈ before ++ { p with parsed := true, position } :: after,
      q = { p with parsed := true, position } ∨ q ∈ before ++ p :: after := by
    intro q hq
    rcases List.mem_append.mp hq with hq | hq
    · exact .inr (List.mem_append_left _ hq)
    · rcases List.mem_cons.mp hq with rfl | hq
      · exact .inl rfl
      · exact .inr (List.mem_append_right _ (List.mem_cons_of_mem _ hq))
  refine ⟨?_, ?_, ?_⟩
  · have hkeys := h.keys
    rw [List.map_append, List.map_cons] at hkeys ⊢
    exact hkeys
  · intro q hq hkey
    rcases hmem q hq with rfl | hq
    · exact h.parse_eq p (List.mem_append_right _ List.mem_cons_self) hkey
    · exact h.parse_eq q hq hkey
  · intro q hq hparsed hkey
    rcases hmem q hq with rfl | hq
    · cases hparsed
    · exact h.keep q hq hparsed hkey

/-- Once the parser of the key is used, all leave the value alone. -/
theorem AllKeepBut.allKeep {key : String} {parse : TorrentMetainfo → ElementRef → Except FileError TorrentMetainfo}
    {before after : List KeyParser} {p : KeyParser} {position : Option ElementPosition}
    (h : AllKeepBut obs key parse (before ++ p :: after)) (hkey : p.key = ascii key) :
    AllKeep obs (before ++ { p with parsed := true, position } :: after) := by
  have hkeys := h.keys
  rw [List.map_append, List.map_cons, List.nodup_middle, List.nodup_cons, List.mem_append] at hkeys
  have hother : ∀ q, q ∈ before ∨ q ∈ after → q.key ≠ ascii key := by
    rintro q hq hqkey
    refine hkeys.1 ?_
    rw [hkey, ← hqkey]
    rcases hq with hq | hq
    · exact .inl (List.mem_map_of_mem hq)
    · exact .inr (List.mem_map_of_mem hq)
  intro q hq hparsed
  rcases List.mem_append.mp hq with hq | hq
  · exact h.keep q (List.mem_append_left _ hq) hparsed (hother q (.inl hq))
  · rcases List.mem_cons.mp hq with rfl | hq
    · cases hparsed
    · exact h.keep q (List.mem_append_right _ (List.mem_cons_of_mem _ hq)) hparsed (hother q (.inr hq))

/-- The value is what the parser of the key makes of its first entry, or it was left alone. -/
theorem invokeParsers_first {key : String} {parse : TorrentMetainfo → ElementRef → Except FileError TorrentMetainfo}
    {parsers parsers' : List KeyParser} {s s' : TorrentMetainfo} (data : DictionaryRef)
    (hkeep : AllKeepBut obs key parse parsers) (h : invokeParsers m s parsers data = .ok (s', parsers')) :
    obs s' = obs s ∨ ∃ e t t', firstOf m data key = some e ∧ parse t e = .ok t' ∧ obs t = obs s ∧ obs s' = obs t' := by
  induction data generalizing s parsers with
  | nil =>
    cases h
    exact .inl rfl
  | cons entry data ih =>
    obtain ⟨name, e⟩ := entry
    rw [invokeParsers] at h
    split at h
    · cases h
    · rename_i hstep
      by_cases hname : name.equals m (ascii key) = true
      · rcases invoke_cases hstep with ⟨rfl, rfl, hnone⟩ | ⟨before, p, after, position, rfl, hequals, hparsed, hparse, rfl⟩
        · refine .inl (invokeParsers_keeps data ?_ h)
          intro p hp hparsed
          refine hkeep.keep p hp hparsed ?_
          intro hkey
          have hother := hnone p hp hparsed
          rw [hkey, hname] at hother
          cases hother
        · have hkey : p.key = ascii key := (read_of_equals hequals).symm.trans (read_of_equals hname)
          rw [hkeep.parse_eq p (List.mem_append_right _ List.mem_cons_self) hkey] at hparse
          exact .inr ⟨e, _, _, firstOf_cons_of_equals hname e data, hparse, rfl,
            invokeParsers_keeps data (hkeep.allKeep hkey) h⟩
      · rw [firstOf_cons_of_not_equals hname]
        rcases invoke_cases hstep with ⟨rfl, rfl, -⟩ | ⟨before, p, after, position, rfl, hequals, hparsed, hparse, rfl⟩
        · exact ih hkeep h
        · have hkey : p.key ≠ ascii key := by
            intro hkey
            rw [hkey] at hequals
            exact hname hequals
          rw [← hkeep.keep p (List.mem_append_right _ List.mem_cons_self) hparsed hkey _ _ _ hparse]
          exact ih hkeep.used h

end

/-! ### The files -/

/-- The files, where there are several. -/
def TorrentMetainfo.multiFiles (s : TorrentMetainfo) : Option (List Metainfo.File) :=
  match s.info.length_or_files with
  | .files files => some files
  | _ => none

section
variable {m : Memory} {max : MaxSize}

theorem multiFiles_of_info {s s' : TorrentMetainfo} (h : s'.info = s.info) : s'.multiFiles = s.multiFiles := by
  rw [TorrentMetainfo.multiFiles, h, TorrentMetainfo.multiFiles]

theorem elementRefAs_ok {α : Type} {as : ElementRef → Option α} {ec : ParseErrorc} {e : ElementRef} {a : α}
    (h : elementRefAs as ec e = .ok a) : as e = some a := by
  rw [elementRefAs] at h
  split at h
  · rename_i b hb
    cases h
    exact hb
  · cases h

theorem parseInfoName_keeps {s s' : TorrentMetainfo} {e : ElementRef} (h : parseInfoName m max s e = .ok s') :
    s'.multiFiles = s.multiFiles := by
  obtain ⟨str, -, h⟩ := bind_ok h
  split at h
  · obtain ⟨name, -, h⟩ := bind_ok h
    cases h
    rfl
  · cases h
    rfl

theorem parseInfoPieceLength_keeps {s s' : TorrentMetainfo} {e : ElementRef}
    (h : parseInfoPieceLength m s e = .ok s') : s'.multiFiles = s.multiFiles := by
  obtain ⟨n, -, h⟩ := bind_ok h
  obtain ⟨lengthBytes, -, h⟩ := bind_ok h
  cases h
  rfl

theorem parseInfoPieces_keeps {s s' : TorrentMetainfo} {e : ElementRef} (h : parseInfoPieces m max s e = .ok s') :
    s'.multiFiles = s.multiFiles := by
  obtain ⟨hashes, -, h⟩ := bind_ok h
  by_cases hlength : hashes.size.toNat = 0 ∨ hashes.size.toNat % kSHA1Length ≠ 0
  · rw [if_pos hlength] at h
    cases h
  · rw [if_neg hlength] at h
    by_cases hmax : max.vector < hashes.size.toNat
    · rw [if_pos hmax] at h
      cases h
    · rw [if_neg hmax] at h
      cases h
      rfl

/-- A length is only put where nothing was, so that there are no files before and after. -/
theorem parseInfoLength_keeps {s s' : TorrentMetainfo} {e : ElementRef} (h : parseInfoLength m s e = .ok s') :
    s'.multiFiles = s.multiFiles := by
  rw [parseInfoLength] at h
  split at h
  · cases h
  · rename_i hempty
    obtain ⟨n, -, h⟩ := bind_ok h
    obtain ⟨lengthBytes, -, h⟩ := bind_ok h
    cases h
    rw [TorrentMetainfo.multiFiles, TorrentMetainfo.multiFiles, not_not.mp hempty]

theorem contentParsers_keepBut : AllKeepBut TorrentMetainfo.multiFiles "info" (parseInfo m max)
    [announceParser m max, infoParser m max, announceListParser m max] := by
  have hkeys : [ascii "announce", ascii "info", ascii "announce-list"].Nodup := by decide
  refine ⟨hkeys, ?_, ?_⟩
  · intro p hp hkey
    simp only [List.mem_cons, List.not_mem_nil, or_false] at hp
    rcases hp with rfl | rfl | rfl
    · exact absurd hkey (by decide : ascii "announce" ≠ ascii "info")
    · rfl
    · exact absurd hkey (by decide : ascii "announce-list" ≠ ascii "info")
  · intro p hp _ hkey s e s' h
    simp only [List.mem_cons, List.not_mem_nil, or_false] at hp
    rcases hp with rfl | rfl | rfl
    · exact multiFiles_of_info (parseAnnounce_info h)
    · exact absurd rfl hkey
    · exact multiFiles_of_info (parseAnnounceList_info h)

theorem infoParsers_keepBut :
    AllKeepBut TorrentMetainfo.multiFiles "files" (parseInfoFiles m max) (infoParsers m max) := by
  have hkeys : [ascii "name", ascii "piece length", ascii "pieces", ascii "length", ascii "files"].Nodup := by decide
  refine ⟨hkeys, ?_, ?_⟩
  · intro p hp hkey
    simp only [infoParsers, List.mem_cons, List.not_mem_nil, or_false] at hp
    rcases hp with rfl | rfl | rfl | rfl | rfl
    · exact absurd hkey (by decide : ascii "name" ≠ ascii "files")
    · exact absurd hkey (by decide : ascii "piece length" ≠ ascii "files")
    · exact absurd hkey (by decide : ascii "pieces" ≠ ascii "files")
    · exact absurd hkey (by decide : ascii "length" ≠ ascii "files")
    · rfl
  · intro p hp _ hkey s e s' h
    simp only [infoParsers, List.mem_cons, List.not_mem_nil, or_false] at hp
    rcases hp with rfl | rfl | rfl | rfl | rfl
    · exact parseInfoName_keeps h
    · exact parseInfoPieceLength_keeps h
    · exact parseInfoPieces_keeps h
    · exact parseInfoLength_keeps h
    · exact absurd rfl hkey

theorem parseInfoFiles_ok {s s' : TorrentMetainfo} {e : ElementRef} (h : parseInfoFiles m max s e = .ok s') :
    ∃ list files, e.asList = some list ∧ list.mapM (parseFile m max) = .ok files ∧ s'.multiFiles = some files := by
  rw [parseInfoFiles] at h
  split at h
  · cases h
  · obtain ⟨list, hlist, h⟩ := bind_ok h
    obtain ⟨files, hfiles, h⟩ := bind_ok h
    split at h
    · cases h
    · cases h
      exact ⟨list, files, elementRefAs_ok hlist, hfiles, rfl⟩

theorem parseInfo_ok {s s' : TorrentMetainfo} {e : ElementRef} (h : parseInfo m max s e = .ok s') :
    ∃ data parsers, e.asDictionary = some data ∧ invokeParsers m s (infoParsers m max) data = .ok (s', parsers) := by
  obtain ⟨data, hdata, h⟩ := bind_ok h
  obtain ⟨⟨t, parsers⟩, hrun, h⟩ := bind_ok h
  dsimp only at h
  split at h
  · cases h
    exact ⟨data, parsers, elementRefAs_ok hdata, hrun⟩
  · cases h

/-- The files come from the first 'files' of the first 'info'. -/
theorem exists_fileList {data : DictionaryRef} {info : TorrentFileInfo} {files : List Metainfo.File}
    (h : parseTorrentData m max data = .ok info) (hfiles : info.metainfo.info.length_or_files = .files files) :
    ∃ e infoData e' list, firstOf m data "info" = some e ∧ e.asDictionary = some infoData ∧
      firstOf m infoData "files" = some e' ∧ e'.asList = some list ∧ list.mapM (parseFile m max) = .ok files := by
  have hmulti : info.metainfo.multiFiles = some files := by rw [TorrentMetainfo.multiFiles, hfiles]
  rw [parseTorrentData] at h
  split at h
  · cases h
  · rename_i metainfo parsers hrun
    have hinfo : info.metainfo = metainfo := by
      split at h
      · split at h
        · cases h
        · cases h
          rfl
      · cases h
    rw [hinfo] at hmulti
    rcases invokeParsers_first data contentParsers_keepBut hrun with hnone | ⟨e, t, t', he, hparse, ht, ht'⟩
    · rw [hmulti] at hnone
      cases hnone
    · obtain ⟨infoData, parsers', hdata, hrun'⟩ := parseInfo_ok hparse
      rcases invokeParsers_first infoData infoParsers_keepBut hrun' with hnone | ⟨e', u, u', he', hparse', -, hu'⟩
      · rw [ht, ← ht', hmulti] at hnone
        cases hnone
      · obtain ⟨list, files', hlist, hmapM, hfiles'⟩ := parseInfoFiles_ok hparse'
        rw [← hu', ← ht', hmulti, Option.some.injEq] at hfiles'
        exact ⟨e, infoData, e', list, he, hdata, he', hlist, hfiles' ▸ hmapM⟩

/-! ### The path of a file -/

theorem append_ok {path part path' : List UInt8} (h : append max path part = .ok path') : path' = path ++ part := by
  rw [append] at h
  split at h
  · cases h
    rfl
  · cases h

theorem joinParts_ok {names : List StringRef} {before path : List UInt8} (h : joinParts m max before names = .ok path) :
    path = before ++ [47].intercalate (names.map (StringView.read m)) := by
  induction names generalizing before with
  | nil =>
    cases h
    exact (List.append_nil _).symm
  | cons name names ih =>
    cases names with
    | nil =>
      rw [List.map_cons, List.map_nil, List.intercalate_singleton]
      exact append_ok h
    | cons next names =>
      rw [joinParts] at h
      · obtain ⟨path₁, h₁, h⟩ := bind_ok h
        obtain ⟨path₂, h₂, h⟩ := bind_ok h
        rw [ih h, append_ok h₂, append_ok h₁]
        simp only [List.map_cons, List.intercalate_cons_cons, List.append_assoc]
      · exact List.cons_ne_nil next names

theorem joinUTF8PartsToString_ok {names : List StringRef} {total : UInt64} {path : List UInt8}
    (h : joinUTF8PartsToString m max names total = .ok path) :
    path = [47].intercalate (names.map (StringView.read m)) := by
  by_cases hnil : names = []
  · rw [hnil] at h ⊢
    cases h
    rfl
  · rw [joinUTF8PartsToString, if_neg hnil] at h
    dsimp only at h
    split at h
    · cases h
    · exact joinParts_ok h

theorem pathParts_ok {parts : ListRef} {names : List StringRef} {total : UInt64}
    (h : pathParts parts = .ok (names, total)) :
    (parts.mapM fun part => part.asString.map (StringView.read m)) = some (names.map (StringView.read m)) := by
  induction parts generalizing names total with
  | nil =>
    cases h
    rfl
  | cons part parts ih =>
    obtain ⟨name, hname, h⟩ := bind_ok h
    dsimp only at h
    split at h
    · cases h
    · obtain ⟨⟨names', total'⟩, hrest, h⟩ := bind_ok h
      cases h
      rw [List.mapM_cons, elementRefAs_ok hname, ih hrest]
      rfl

/-- The path of a file is joined from its components. -/
theorem parseFile_ok {e : ElementRef} {file : Metainfo.File} (h : parseFile m max e = .ok file) :
    ∃ parts, components m e = some parts ∧ file.path_utf8 = [47].intercalate parts := by
  obtain ⟨data, hdata, h⟩ := bind_ok h
  dsimp only at h
  split at h
  · rename_i length path hlength hpath
    obtain ⟨n, -, h⟩ := bind_ok h
    obtain ⟨parts, hparts, h⟩ := bind_ok h
    obtain ⟨lengthBytes, -, h⟩ := bind_ok h
    obtain ⟨⟨names, total⟩, hnames, h⟩ := bind_ok h
    obtain ⟨text, htext, h⟩ := bind_ok h
    cases h
    refine ⟨_, ?_, joinUTF8PartsToString_ok htext⟩
    have hfirst : firstOf m data "path" = some path := hpath
    rw [components, elementRefAs_ok hdata]
    simp only [Option.bind_eq_bind, Option.bind_some, hfirst, elementRefAs_ok hparts]
    exact pathParts_ok hnames
  · cases h

/-- Each file has components, which its path is joined from, and there are no others. -/
theorem joined_of_data {data : DictionaryRef} {info : TorrentFileInfo} {files : List Metainfo.File}
    (h : parseTorrentData m max data = .ok info) (hfiles : info.metainfo.info.length_or_files = .files files) :
    (∀ i file, files[i]? = some file → ∃ parts, componentsAt m data i = some parts ∧
      file.path_utf8 = [47].intercalate parts) ∧
      ∀ i parts, componentsAt m data i = some parts → ∃ file, files[i]? = some file := by
  obtain ⟨e, infoData, e', list, he, hinfo, he', hlist, hmapM⟩ := exists_fileList h hfiles
  have hat (i : Nat) : componentsAt m data i = list[i]?.bind (components m) := by
    simp only [componentsAt, he, hinfo, he', hlist, Option.bind_eq_bind, Option.bind_some]
  obtain ⟨hlength, hparsed⟩ := List.forall₂_iff_get.mp (forall₂_of_mapM_ok hmapM)
  refine ⟨?_, ?_⟩
  · intro i file hfile
    obtain ⟨hi, rfl⟩ := List.getElem?_eq_some_iff.mp hfile
    obtain ⟨parts, hparts, hjoined⟩ := parseFile_ok (hparsed i (hlength ▸ hi) hi)
    refine ⟨parts, ?_, hjoined⟩
    rw [hat, List.getElem?_eq_getElem (hlength ▸ hi), Option.bind_some]
    exact hparts
  · intro i parts hparts
    rw [hat] at hparts
    obtain ⟨entry, hentry, -⟩ := Option.bind_eq_some_iff.mp hparts
    obtain ⟨hi, -⟩ := List.getElem?_eq_some_iff.mp hentry
    exact ⟨_, List.getElem?_eq_getElem (hlength ▸ hi)⟩

theorem pathsKept_iff_bare {data : DictionaryRef} {info : TorrentFileInfo} {files : List Metainfo.File}
    (h : parseTorrentData m max data = .ok info) (hfiles : info.metainfo.info.length_or_files = .files files) :
    PathsKept m data files ↔ BareComponents m data := by
  obtain ⟨hjoined, hfile⟩ := joined_of_data h hfiles
  constructor
  · intro hkept i parts hparts
    obtain ⟨file, hi⟩ := hfile i parts hparts
    obtain ⟨parts', hparts', hpath⟩ := hjoined i file hi
    obtain ⟨parts'', hparts'', -, hsplit⟩ := hkept.split i file hi
    cases hparts.symm.trans hparts'
    cases hparts.symm.trans hparts''
    rw [hpath] at hsplit
    exact splitOn_intercalate_iff.mp hsplit
  · intro hbare
    have hsplit : ∀ i file, files[i]? = some file → ∃ parts, componentsAt m data i = some parts ∧ parts ≠ [] ∧
        file.path_utf8.splitOn 47 = parts := by
      intro i file hi
      obtain ⟨parts, hparts, hpath⟩ := hjoined i file hi
      have hparts' := hbare i parts hparts
      refine ⟨parts, hparts, hparts'.1, ?_⟩
      rw [hpath]
      exact splitOn_intercalate_iff.mpr hparts'
    refine ⟨hsplit, ?_⟩
    intro i j file file' hi hj hne hpath
    obtain ⟨parts, hparts, -, hsplit₁⟩ := hsplit i file hi
    obtain ⟨parts', hparts', -, hsplit₂⟩ := hsplit j file' hj
    rw [hparts, hparts', ← hsplit₁, ← hsplit₂, hpath] at hne
    exact hne rfl

theorem AcceptedFiles.exists_data {content : Region} {data : DictionaryRef} {files : List Metainfo.File}
    (h : AcceptedFiles m max content data files) : ∃ info, parseTorrentData m max data = .ok info ∧
      info.metainfo.info.length_or_files = .files files := by
  obtain ⟨p, n, hn⟩ := h.dictionary
  obtain ⟨info, ⟨k, hk⟩, hfiles⟩ := h.accepted
  refine ⟨info, ?_, hfiles⟩
  have hparse := hk (Nat.max n k) (Nat.le_max_right n k)
  have hdata := hn (Nat.max n k) (Nat.le_max_left n k)
  simp only at hparse hdata
  simpa only [parseTorrentFileContent, hdata, Option.map_some, Option.some.injEq] using hparse

end

/-- The paths keep the components exactly where there are some and none has a slash. -/
theorem pathsKept_iff (m : Memory) (max : MaxSize) (content : Region) (data : DictionaryRef) (files : List Metainfo.File)
    (h : AcceptedFiles m max content data files) : PathsKept m data files ↔ BareComponents m data := by
  obtain ⟨info, hdata, hfiles⟩ := h.exists_data
  exact pathsKept_iff_bare hdata hfiles

/-! ### Torrents with given paths -/

def pathsTorrent (paths : List (List (List UInt8))) : List (Str × Term) := [
  (.canonical (ascii "announce"), .str (.canonical (ascii "u"))),
  (.canonical (ascii "info"), .dict [
    (.canonical (ascii "files"), .list (paths.map fun path => .dict [
      (.canonical (ascii "length"), .int 1),
      (.canonical (ascii "path"), .list (path.map fun part => .str (.canonical part)))])),
    (.canonical (ascii "piece length"), .int 1),
    (.canonical (ascii "pieces"), .str (.canonical (ascii "aaaaaaaaaaaaaaaaaaaa")))])]

def pathsText (paths : List (List (List UInt8))) : List UInt8 := (Term.dict (pathsTorrent paths)).bytes

def pathsContent (paths : List (List (List UInt8))) (h : (pathsText paths).length < 1000) : Region :=
  .of 4096 (pathsText paths) (Nat.lt_trans (Nat.add_lt_add_left h _) (by decide))

def pathsData (paths : List (List (List UInt8))) (h : (pathsText paths).length < 1000) : DictionaryRef :=
  locateEntries (pathsContent paths h) 1 (pathsTorrent paths)

def pathsFiles (paths : List (List (List UInt8))) : List Metainfo.File :=
  paths.map fun path => ⟨1, [47].intercalate path⟩

def pathsMetainfo (paths : List (List (List UInt8))) : TorrentMetainfo :=
  { tracker_url_utf8 := ascii "u"
    info := { piece_length_bytes := 1, pieces_SHA1 := ascii "aaaaaaaaaaaaaaaaaaaa"
              length_or_files := .files (pathsFiles paths) } }

theorem accepted_paths {paths : List (List (List UInt8))} (h : (pathsText paths).length < 1000)
    (hfirst : Content.AnnounceFirst (pathsTorrent paths))
    (hmetainfo : Content.metainfo ⟨2 ^ 62, 2 ^ 62⟩ (pathsTorrent paths) = some (pathsMetainfo paths)) :
    AcceptedFiles (place 4096 (pathsText paths)) ⟨2 ^ 62, 2 ^ 62⟩ (pathsContent paths h) (pathsData paths h)
      (pathsFiles paths) := by
  have hbytes : (pathsContent paths h).bytes (place 4096 (pathsText paths)) = (Term.dict (pathsTorrent paths)).bytes :=
    Region.bytes_of _
  refine ⟨⟨_, parseDictionary_of_reads (fits_agrees _ _) (reads_locate _ (holds_of_bytes hbytes).1)⟩, ?_⟩
  exact ⟨⟨pathsMetainfo paths, _⟩, (parseTorrentFileContent_ok_iff hbytes _).mpr ⟨⟨hfirst, hmetainfo⟩, rfl⟩, rfl⟩

def nested : List (List (List UInt8)) := [[ascii "a"], [ascii "b", ascii "c"]]

/-- A slash in a component, and the same path with another one between two components. -/
def slashed : List (List (List UInt8)) := [[ascii "b/c"], [ascii "b", ascii "c"]]

/-- No components at all. -/
def unnamed : List (List (List UInt8)) := [[]]

theorem nested_length : (pathsText nested).length < 1000 := by decide +kernel
theorem slashed_length : (pathsText slashed).length < 1000 := by decide +kernel
theorem unnamed_length : (pathsText unnamed).length < 1000 := by decide

theorem accepted_nested : AcceptedFiles (place 4096 (pathsText nested)) ⟨2 ^ 62, 2 ^ 62⟩
    (pathsContent nested nested_length) (pathsData nested nested_length) (pathsFiles nested) :=
  accepted_paths nested_length (by decide) (by decide)

theorem accepted_slashed : AcceptedFiles (place 4096 (pathsText slashed)) ⟨2 ^ 62, 2 ^ 62⟩
    (pathsContent slashed slashed_length) (pathsData slashed slashed_length) (pathsFiles slashed) :=
  accepted_paths slashed_length (by decide) (by decide)

theorem accepted_unnamed : AcceptedFiles (place 4096 (pathsText unnamed)) ⟨2 ^ 62, 2 ^ 62⟩
    (pathsContent unnamed unnamed_length) (pathsData unnamed unnamed_length) (pathsFiles unnamed) :=
  accepted_paths unnamed_length (by decide) (by decide)

theorem pathsKept_nested : PathsKept (place 4096 (pathsText nested)) (pathsData nested nested_length) (pathsFiles nested) ↔
    BareComponents (place 4096 (pathsText nested)) (pathsData nested nested_length) :=
  pathsKept_iff _ ⟨2 ^ 62, 2 ^ 62⟩ (pathsContent nested nested_length) _ _ accepted_nested

/-- Both torrents are accepted. The first has two files of one path and the second a file without a name. -/
theorem not_pathsKept :
    (AcceptedFiles (place 4096 (pathsText slashed)) ⟨2 ^ 62, 2 ^ 62⟩ (pathsContent slashed slashed_length)
        (pathsData slashed slashed_length) (pathsFiles slashed) ∧
      ¬PathsKept (place 4096 (pathsText slashed)) (pathsData slashed slashed_length) (pathsFiles slashed)) ∧
    AcceptedFiles (place 4096 (pathsText unnamed)) ⟨2 ^ 62, 2 ^ 62⟩ (pathsContent unnamed unnamed_length)
        (pathsData unnamed unnamed_length) (pathsFiles unnamed) ∧
      ¬PathsKept (place 4096 (pathsText unnamed)) (pathsData unnamed unnamed_length) (pathsFiles unnamed) := by
  refine ⟨⟨accepted_slashed, ?_⟩, accepted_unnamed, ?_⟩
  · intro h
    refine h.distinct 0 1 ⟨1, ascii "b/c"⟩ ⟨1, ascii "b/c"⟩ (by decide) (by decide) ?_ rfl
    decide
  · intro h
    obtain ⟨parts, hparts, hne, -⟩ := h.split 0 ⟨1, []⟩ rfl
    have hnone : componentsAt (place 4096 (pathsText unnamed)) (pathsData unnamed unnamed_length) 0 = some [] := by
      decide
    exact hne (Option.some.inj (hparts.symm.trans hnone))

end BittorrentClient
