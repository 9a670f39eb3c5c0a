import BittorrentClient.Theorems.Torrent.Accepted
import Mathlib.Data.List.Forall2

/-! A .torrent file decodes to the description that it carries, where the indices of its tiers fit. -/

namespace BittorrentClient
open FlatMemory Fuel Bencode

/-! ### Descriptions -/

/-- A file of a torrent: its length and the components of its path. -/
structure FileDescription where
  length : UInt64
  path : List (List UInt8)
  path_ne_nil : path ≠ []
  component_ne_nil : ∀ component ∈ path, component ≠ []

/-- One file with the name of the torrent, or files with paths. -/
inductive FilesDescription where
  | single (length : UInt64)
  | multi (files : List FileDescription) (ne_nil : files ≠ [])

/-- What a torrent file is made for. -/
structure TorrentDescription where
  announce : List UInt8
  announce_ne_nil : announce ≠ []
  announceList : Option (List (List (List UInt8)))
  name : List UInt8
  pieceLength : UInt64
  pieceLength_pos : 0 < pieceLength
  pieces : List UInt8
  pieces_ne_nil : pieces ≠ []
  pieces_mod : pieces.length % 20 = 0
  files : FilesDescription

/-! ### Dictionaries that carry a description -/

section
open Content

/-- Each string is written as the term at its place. -/
def StringsCarried (texts : List (List UInt8)) (items : List Term) : Prop :=
  List.Forall₂ (fun text t => string t = some text) texts items

def FileDescription.Carried (file : FileDescription) (t : Term) : Prop :=
  ∃ entries components, t = .dict entries ∧ value entries "length" = some (.int file.length.toNat) ∧
    value entries "path" = some (.list components) ∧ StringsCarried file.path components

def FilesDescription.Carried : FilesDescription → List (Str × Term) → Prop
  | .single length, entries => value entries "length" = some (.int length.toNat) ∧ value entries "files" = none
  | .multi files _, entries => value entries "length" = none ∧
    ∃ items, value entries "files" = some (.list items) ∧ List.Forall₂ FileDescription.Carried files items

def TierCarried (tier : List (List UInt8)) (t : Term) : Prop := ∃ urls, t = .list urls ∧ StringsCarried tier urls

def AnnounceListCarried : Option (List (List (List UInt8))) → Option Term → Prop
  | none, t => t = none
  | some tiers, t => ∃ items, t = some (.list items) ∧ List.Forall₂ TierCarried tiers items

/-- The first value of each key of the info is that of the description. -/
structure TorrentDescription.InfoCarried (d : TorrentDescription) (entries : List (Str × Term)) : Prop where
  name : (value entries "name").bind string = some d.name
  pieceLength : value entries "piece length" = some (.int d.pieceLength.toNat)
  pieces : (value entries "pieces").bind string = some d.pieces
  files : d.files.Carried entries

/-- The first value of each known key is that of the description, and the announce comes before the info. -/
structure TorrentDescription.Carried (d : TorrentDescription) (entries : List (Str × Term)) : Prop where
  announce : (value entries "announce").bind string = some d.announce
  announceList : AnnounceListCarried d.announceList (value entries "announce-list")
  info : ∃ infoEntries, value entries "info" = some (.dict infoEntries) ∧ d.InfoCarried infoEntries
  announceFirst : AnnounceFirst entries

end

/-! ### What is decoded -/

def FileDescription.file (file : FileDescription) : Metainfo.File where
  length_bytes := file.length
  path_utf8 := [47].intercalate file.path

def FilesDescription.content : FilesDescription → LengthOrFiles
  | .single length => .length length
  | .multi files _ => .files (files.map FileDescription.file)

def TorrentDescription.tiers (d : TorrentDescription) : List (List (List UInt8)) := d.announceList.getD []

/-- The urls that are not empty, each with the index of its tier. -/
def TorrentDescription.trackers (d : TorrentDescription) : List (List UInt8 × Int) :=
  d.tiers.zipIdx.flatMap fun (tier, i) => (tier.filter (· ≠ [])).map fun url => (url, (i : Int))

/-- The file info is what the description says, with the range of the first info. -/
structure Decoded (d : TorrentDescription) (entries : List (Str × Term)) (info : TorrentFileInfo) : Prop where
  url : info.metainfo.tracker_url_utf8 = d.announce
  trackers : info.metainfo.multi_trackers.map (fun tracker => (tracker.url_utf8, tracker.tier.toInt)) = d.trackers
  position : ValueRange entries "info" 1 info.info_position
  info : info.metainfo.info = ⟨d.name, d.pieceLength, d.pieces, d.files.content⟩

/-- The tiers that say something have indices that fit in an `int`. -/
def TorrentDescription.TiersFit (d : TorrentDescription) : Prop :=
  ∀ i tier, d.tiers[i]? = some tier → (∃ url ∈ tier, url ≠ []) → i < 2 ^ 31

/-- The trackers as they are filled in. -/
def TorrentDescription.multiTrackers (d : TorrentDescription) : List Multitracker :=
  d.tiers.zipIdx.flatMap fun (tier, i) => (tier.filter (· ≠ [])).map fun url => ⟨url, Int32.ofNat i⟩

/-! ### The lengths of what is carried -/

theorem length_bytes_list (items : List Term) : (Term.list items).bytes.length = (itemsBytes items).length + 2 := by
  simp [Term.bytes]

theorem itemsBytes_cons_le {t : Term} {items : List Term} {n : Nat} (h : (itemsBytes (t :: items)).length ≤ n) :
    t.bytes.length ≤ n ∧ (itemsBytes items).length ≤ n := by
  rw [itemsBytes, List.length_append] at h
  omega

theorem length_intercalate_le (texts : List (List UInt8)) :
    ([47].intercalate texts).length ≤ (texts.map fun text => text.length + 1).sum := by
  cases texts with
  | nil => exact Nat.zero_le _
  | cons text texts =>
    rw [length_intercalate_cons, List.map_cons, List.sum_cons]
    omega

/-! ### What a term says -/

section
variable {max : MaxSize} {t : Term} {items : List Term} {text : List UInt8}

theorem name_of_string (h : Content.string t = some text) (hlen : t.bytes.length ≤ max.string) :
    Content.name max t = some text := by
  rw [Content.name, h, Option.bind_some]
  exact fitting_of_string h hlen

theorem part_of_string (h : Content.string t = some text) (hne : text ≠ []) : Content.part t = some text := by
  rw [Content.part, h, Option.bind_some, if_neg hne]

theorem announce_of_string (h : Content.string t = some text) (hne : text ≠ []) (hlen : t.bytes.length ≤ max.string) :
    Content.announce max t = some text := by
  rw [Content.announce, part_of_string h hne]
  exact fitting_of_string h hlen

theorem pieces_of_string (h : Content.string t = some text) (hne : text ≠ []) (hmod : text.length % 20 = 0)
    (hlen : t.bytes.length ≤ max.vector) : Content.pieces max t = some text := by
  have hle := length_of_string h
  rw [Content.pieces, part_of_string h hne]
  exact if_pos ⟨hmod, by omega⟩

theorem number_int (n : UInt64) : Content.number (.int n.toNat) = some n := by
  have hlt := n.toNat_lt
  have hfit : 0 ≤ (n.toNat : Int) ∧ (n.toNat : Int) < 2 ^ 64 := by omega
  rw [Content.number, Content.integer, Option.bind_some, if_pos hfit, Int.toNat_natCast, UInt64.ofNat_toNat]

theorem path_of_carried {path : List (List UInt8)} (h : StringsCarried path items)
    (hne : ∀ component ∈ path, component ≠ []) (hlen : (itemsBytes items).length ≤ max.string) :
    Content.path max (.list items) = some ([47].intercalate path) := by
  have hparts : items.mapM Content.part = some path := by
    clear hlen
    induction h with
    | nil => rfl
    | cons ht _ ih =>
      obtain ⟨hcomponent, hrest⟩ := List.forall_mem_cons.mp hne
      rw [List.mapM_cons, part_of_string ht hcomponent, ih hrest]
      rfl
  have hle := sum_lengths_le hparts
  have hjoined := length_intercalate_le path
  rw [Content.path, Content.list, Option.bind_some, hparts, Option.bind_some]
  exact if_pos (by omega)

theorem file_of_carried {file : FileDescription} (h : file.Carried t) (hlen : t.bytes.length ≤ max.string) :
    Content.file max t = some file.file := by
  obtain ⟨entries, components, rfl, hlength, hpath, hcomponents⟩ := h
  have hle := length_of_value hpath
  rw [length_bytes_dict] at hlen
  rw [length_bytes_list] at hle
  rw [Content.file, Content.dict, Option.bind_some, hlength, hpath]
  simp only [number_int, Option.bind_some]
  rw [path_of_carried hcomponents file.component_ne_nil (by omega)]
  rfl

theorem files_of_carried {files : List FileDescription} (h : List.Forall₂ FileDescription.Carried files items)
    (hne : files ≠ []) (hlen : (itemsBytes items).length ≤ max.string) :
    Content.files max (.list items) = some (files.map FileDescription.file) := by
  have hfiles : items.mapM (Content.file max) = some (files.map FileDescription.file) := by
    clear hne
    induction h with
    | nil => rfl
    | cons hfile _ ih =>
      obtain ⟨ht, hrest⟩ := itemsBytes_cons_le hlen
      rw [List.mapM_cons, file_of_carried hfile ht, ih hrest]
      rfl
  rw [Content.files, Content.list, Option.bind_some, hfiles, Option.bind_some]
  exact if_neg (fun h => hne (List.map_eq_nil_iff.mp h))

theorem lengthOrFiles_of_carried {files : FilesDescription} {entries : List (Str × Term)} (h : files.Carried entries)
    (hlen : (entriesBytes entries).length ≤ max.string) : Content.lengthOrFiles max entries = some files.content := by
  cases files with
  | single length =>
    obtain ⟨hlength, hfiles⟩ := h
    rw [Content.lengthOrFiles, hlength, hfiles]
    simp only [number_int, Option.map_some]
    rfl
  | multi files hne =>
    obtain ⟨hlength, items, hitems, hfiles⟩ := h
    have hle := length_of_value hitems
    rw [length_bytes_list] at hle
    rw [Content.lengthOrFiles, hlength, hitems]
    simp only
    rw [files_of_carried hfiles hne (by omega)]
    rfl

theorem tier_of_carried {tier : List (List UInt8)} (h : StringsCarried tier items) (i : Nat)
    (hlen : (itemsBytes items).length ≤ max.string) :
    Content.tier max i items = some ((tier.filter (· ≠ [])).map fun url => ⟨url, Int32.ofNat i⟩) := by
  induction h with
  | nil => rfl
  | @cons url t tier items ht _ ih =>
    obtain ⟨hurl, hrest⟩ := itemsBytes_cons_le hlen
    rw [Content.tier]
    by_cases hempty : url = []
    · have hpart : Content.part t = none := by rw [Content.part, ht, Option.bind_some, if_pos hempty]
      rw [hpart, List.filter_cons_of_neg (by simpa using hempty)]
      exact ih hrest
    · rw [part_of_string ht hempty, List.filter_cons_of_pos (by simpa using hempty)]
      simp only
      rw [fitting_of_string ht hurl, Option.bind_some, ih hrest]
      rfl

theorem tiers_of_carried {tiers : List (List (List UInt8))} (h : List.Forall₂ TierCarried tiers items) (i : Nat)
    (hlen : (itemsBytes items).length ≤ max.string) :
    Content.tiers max i items = some ((tiers.zipIdx i).flatMap fun (tier, i) =>
      (tier.filter (· ≠ [])).map fun url => ⟨url, Int32.ofNat i⟩) := by
  induction h generalizing i with
  | nil => rfl
  | cons ht _ ih =>
    obtain ⟨urls, rfl, hurls⟩ := ht
    obtain ⟨htier, hrest⟩ := itemsBytes_cons_le hlen
    rw [length_bytes_list] at htier
    rw [Content.tiers, Content.list]
    simp only
    rw [tier_of_carried hurls i (by omega), Option.bind_some, ih (i + 1) hrest, Option.map_some, List.zipIdx_cons,
      List.flatMap_cons]

end

/-! ### Decoding -/

section
variable {d : TorrentDescription} {entries : List (Str × Term)} {max : MaxSize}

theorem TorrentDescription.InfoCarried.info (h : d.InfoCarried entries)
    (hstring : (entriesBytes entries).length ≤ max.string) (hvector : (entriesBytes entries).length ≤ max.vector) :
    Content.info max (.dict entries) = some ⟨d.name, d.pieceLength, d.pieces, d.files.content⟩ := by
  obtain ⟨nameTerm, hname, hnameString⟩ := Option.bind_eq_some_iff.mp h.name
  obtain ⟨piecesTerm, hpieces, hpiecesString⟩ := Option.bind_eq_some_iff.mp h.pieces
  have hnameLength := length_of_value hname
  have hpiecesLength := length_of_value hpieces
  have hcomplete : d.pieceLength > 0 ∧ d.pieces.length > 0 ∧ d.files.content ≠ .monostate := by
    refine ⟨d.pieceLength_pos, List.length_pos_iff.mpr d.pieces_ne_nil, ?_⟩
    cases d.files with
    | single => exact nofun
    | multi => exact nofun
  have hnameValue : Content.valueOr [] (Content.name max) (Content.value entries "name") = some d.name := by
    rw [hname, Content.valueOr, name_of_string hnameString (by omega)]
  have hpieceLengthValue : Content.valueOr 0 Content.number (Content.value entries "piece length") = some d.pieceLength := by
    rw [h.pieceLength, Content.valueOr, number_int]
  have hpiecesValue : Content.valueOr [] (Content.pieces max) (Content.value entries "pieces") = some d.pieces := by
    rw [hpieces, Content.valueOr, pieces_of_string hpiecesString d.pieces_ne_nil d.pieces_mod (by omega)]
  rw [Content.info, Content.dict, Option.bind_some, hnameValue, Option.bind_some, hpieceLengthValue, Option.bind_some,
    hpiecesValue, Option.bind_some, lengthOrFiles_of_carried h.files hstring, Option.bind_some, if_pos hcomplete]

theorem TorrentDescription.Carried.metainfo (h : d.Carried entries)
    (hstring : (entriesBytes entries).length ≤ max.string) (hvector : (entriesBytes entries).length ≤ max.vector) :
    Content.metainfo max entries =
      some ⟨⟨d.name, d.pieceLength, d.pieces, d.files.content⟩, d.announce, d.multiTrackers⟩ := by
  obtain ⟨announceTerm, hannounce, hannounceString⟩ := Option.bind_eq_some_iff.mp h.announce
  obtain ⟨infoEntries, hinfo, hcarried⟩ := h.info
  have hannounceLength := length_of_value hannounce
  have hinfoLength := length_of_value hinfo
  rw [length_bytes_dict] at hinfoLength
  have htrackers : Content.valueOr [] (Content.announceList max) (Content.value entries "announce-list") =
      some d.multiTrackers := by
    have hlist := h.announceList
    rw [TorrentDescription.multiTrackers, TorrentDescription.tiers]
    cases hd : d.announceList with
    | none =>
      rw [hd] at hlist
      rw [hlist]
      rfl
    | some tiers =>
      rw [hd] at hlist
      obtain ⟨items, hitems, htiers⟩ := hlist
      have hitemsLength := length_of_value hitems
      rw [length_bytes_list] at hitemsLength
      rw [hitems, Content.valueOr, Content.announceList, Content.list, Option.bind_some,
        tiers_of_carried htiers 0 (by omega)]
      rfl
  rw [Content.metainfo, hannounce, hinfo, Option.bind_some, Option.bind_some, htrackers,
    announce_of_string hannounceString d.announce_ne_nil (by omega), Option.bind_some,
    hcarried.info (by omega) (by omega)]
  rfl

/-- The text of a dictionary that carries a description is parsed to it, with the trackers as they are filled in. -/
theorem TorrentDescription.Carried.parsed {m : Memory} {r : Region} (h : d.Carried entries)
    (hbytes : r.bytes m = (Term.dict entries).bytes) (hstring : r.size.toNat ≤ max.string)
    (hvector : r.size.toNat ≤ max.vector) :
    ∃ position, Converges (fun fuel => parseTorrentFileContent m max fuel r)
        (.ok ⟨⟨⟨d.name, d.pieceLength, d.pieces, d.files.content⟩, d.announce, d.multiTrackers⟩, position⟩) ∧
      ValueRange entries "info" 1 position := by
  obtain ⟨hholds, hlen⟩ := holds_of_bytes hbytes
  rw [length_bytes_dict] at hlen
  rw [Term.bytes, r.holds_enclosed_iff] at hholds
  obtain ⟨infoEntries, hinfo, -⟩ := h.info
  have hne : Content.value entries "info" ≠ none := by
    rw [hinfo]
    exact Option.some_ne_none _
  have hmetainfo : Content.metainfo max entries = _ := h.metainfo (by omega) (by omega)
  exact ⟨_, (parseTorrentFileContent_ok_iff hbytes _).mpr ⟨⟨h.announceFirst, hmetainfo⟩, rfl⟩,
    valueRange_positionOf hholds.2.2.1 hne⟩

end

/-! ### The indices of the tiers -/

theorem toInt_ofNat_eq_iff (i : Nat) : (Int32.ofNat i).toInt = i ↔ i < 2 ^ 31 := by
  rw [Int32.toInt_ofNat', Int32.size]
  constructor
  · intro h
    have hlt := Int.bmod_lt (x := (i : Int)) (m := 4294967296) (by decide)
    rw [h] at hlt
    omega
  · intro h
    exact Int.bmod_eq_of_le (by omega) (by omega)

theorem flatMap_eq_iff {α β : Type} {f g : α → List β} {xs : List α} (h : ∀ x ∈ xs, (f x).length = (g x).length) :
    xs.flatMap f = xs.flatMap g ↔ ∀ x ∈ xs, f x = g x := by
  induction xs with
  | nil => exact iff_of_true rfl (List.forall_mem_nil _)
  | cons x xs ih =>
    obtain ⟨hx, hxs⟩ := List.forall_mem_cons.mp h
    rw [List.flatMap_cons, List.flatMap_cons, List.forall_mem_cons, ← ih hxs]
    constructor
    · intro heq
      exact List.append_inj heq hx
    · rintro ⟨heq, heqs⟩
      rw [heq, heqs]

theorem map_index_eq_iff {α : Type} (urls : List α) (z i : Int) :
    (urls.map fun url => (url, z)) = urls.map (fun url => (url, i)) ↔ urls = [] ∨ z = i := by
  cases urls with
  | nil => exact iff_of_true rfl (.inl rfl)
  | cons url urls =>
    constructor
    · intro h
      exact .inr (Prod.mk.inj (List.cons.inj h).1).2
    · rintro (h | rfl)
      · cases h
      · rfl

/-- The trackers are those of the description where the indices fit. -/
theorem multiTrackers_eq_iff (d : TorrentDescription) :
    d.multiTrackers.map (fun tracker => (tracker.url_utf8, tracker.tier.toInt)) = d.trackers ↔ d.TiersFit := by
  have hmap : d.multiTrackers.map (fun tracker => (tracker.url_utf8, tracker.tier.toInt)) =
      d.tiers.zipIdx.flatMap fun (tier, i) => (tier.filter (· ≠ [])).map fun url => (url, (Int32.ofNat i).toInt) := by
    simp only [TorrentDescription.multiTrackers, List.map_flatMap, List.map_map, Function.comp_def]
  rw [hmap, TorrentDescription.trackers, flatMap_eq_iff (fun x _ => by simp only [List.length_map]),
    TorrentDescription.TiersFit]
  constructor
  · rintro h i tier htier ⟨url, hurl, hne⟩
    rcases (map_index_eq_iff _ _ _).mp (h (tier, i) (List.mk_mem_zipIdx_iff_getElem?.mpr htier)) with hnil | heq
    · have hmem : url ∈ tier.filter (· ≠ []) := List.mem_filter.mpr ⟨hurl, by simpa using hne⟩
      simp only [hnil, List.not_mem_nil] at hmem
    · exact (toInt_ofNat_eq_iff i).mp heq
  · rintro h ⟨tier, i⟩ hmem
    refine (map_index_eq_iff _ _ _).mpr ?_
    by_cases hnil : tier.filter (· ≠ []) = []
    · exact .inl hnil
    · obtain ⟨url, hurl⟩ := List.exists_mem_of_ne_nil _ hnil
      obtain ⟨hurl, hne⟩ := List.mem_filter.mp hurl
      exact .inr ((toInt_ofNat_eq_iff i).mpr
        (h i tier (List.mk_mem_zipIdx_iff_getElem?.mp hmem) ⟨url, hurl, by simpa using hne⟩))

/-- A dictionary that carries a description decodes to it exactly where the indices of the tiers with urls fit. -/
theorem decoded_iff (m : Memory) (r : Region) (max : MaxSize) (d : TorrentDescription) (entries : List (Str × Term))
    (hbytes : r.bytes m = (Term.dict entries).bytes) (hcarried : d.Carried entries)
    (hstring : r.size.toNat ≤ max.string) (hvector : r.size.toNat ≤ max.vector) :
    (∃ info, Converges (fun fuel => parseTorrentFileContent m max fuel r) (.ok info) ∧ Decoded d entries info) ↔
      d.TiersFit := by
  obtain ⟨position, hparse, hposition⟩ := hcarried.parsed hbytes hstring hvector
  rw [← multiTrackers_eq_iff]
  constructor
  · rintro ⟨info, hinfo, hdecoded⟩
    cases hparse.unique hinfo
    exact hdecoded.trackers
  · intro htrackers
    exact ⟨_, hparse, rfl, htrackers, hposition, rfl⟩

/-! ### A tier behind empty tiers -/

/-- A torrent whose only listed url stands behind `n` tiers without urls. -/
def lateTier (n : Nat) : TorrentDescription where
  announce := ascii "u"
  announce_ne_nil := by decide
  announceList := some (List.replicate n [] ++ [[ascii "u"]])
  name := ascii "n"
  pieceLength := 1
  pieceLength_pos := by decide
  pieces := ascii "aaaaaaaaaaaaaaaaaaaa"
  pieces_ne_nil := by decide
  pieces_mod := by decide
  files := .single 1

def lateTierItems (n : Nat) : List Term :=
  List.replicate n (.list []) ++ [.list [.str (.canonical (ascii "u"))]]

def lateTierInfo : List (Str × Term) := [
  (.canonical (ascii "length"), .int 1), (.canonical (ascii "name"), .str (.canonical (ascii "n"))),
  (.canonical (ascii "piece length"), .int 1),
  (.canonical (ascii "pieces"), .str (.canonical (ascii "aaaaaaaaaaaaaaaaaaaa")))]

def lateTierEntries (n : Nat) : List (Str × Term) := [
  (.canonical (ascii "announce"), .str (.canonical (ascii "u"))),
  (.canonical (ascii "announce-list"), .list (lateTierItems n)), (.canonical (ascii "info"), .dict lateTierInfo)]

theorem lateTier_carried (n : Nat) : (lateTier n).Carried (lateTierEntries n) where
  announce := rfl
  announceList := by
    refine ⟨lateTierItems n, rfl, List.rel_append ?_ (.cons ⟨_, rfl, .cons rfl .nil⟩ .nil)⟩
    induction n with
    | zero => exact .nil
    | succ n ih => exact .cons ⟨[], rfl, .nil⟩ ih
  info := ⟨lateTierInfo, rfl, rfl, rfl, rfl, rfl, rfl⟩
  announceFirst := Dispatch.precedes_cons_self _ _ _ _

theorem lateTier_length (n : Nat) : (Term.dict (lateTierEntries n)).bytes.length = 115 + 2 * n := by
  have hempty : (itemsBytes (List.replicate n (.list []))).length = 2 * n := by
    induction n with
    | zero => rfl
    | succ n ih =>
      rw [List.replicate_succ, itemsBytes, List.length_append, ih, length_bytes_list, itemsBytes, List.length_nil]
      omega
  have hannounce : (Str.canonical (ascii "announce")).bytes.length = 10 := by decide
  have hlist : (Str.canonical (ascii "announce-list")).bytes.length = 16 := by decide
  have hinfo : (Str.canonical (ascii "info")).bytes.length = 6 := by decide
  have hurl : (Term.str (.canonical (ascii "u"))).bytes.length = 3 := by decide
  have hvalue : (Term.dict lateTierInfo).bytes.length = 71 := by decide
  rw [lateTierEntries, length_bytes_dict, lateTierItems]
  simp only [entriesBytes, itemsBytes, itemsBytes_append, List.length_append, List.length_nil, length_bytes_list, hempty,
    hannounce, hlist, hinfo, hurl, hvalue]
  omega

theorem lateTier_fits_iff (n : Nat) : (lateTier n).TiersFit ↔ n < 2 ^ 31 := by
  have htiers : (lateTier n).tiers = List.replicate n [] ++ [[ascii "u"]] := rfl
  rw [TorrentDescription.TiersFit, htiers]
  constructor
  · intro h
    refine h n [ascii "u"] ?_ ⟨ascii "u", List.mem_singleton_self _, by decide⟩
    rw [List.getElem?_append_right (by rw [List.length_replicate]), List.length_replicate, Nat.sub_self]
    rfl
  · rintro h i tier htier ⟨url, hurl, -⟩
    by_cases hi : i < n
    · rw [List.getElem?_append_left (by rwa [List.length_replicate]), List.getElem?_replicate_of_lt hi] at htier
      cases htier
      cases hurl
    · have hlt := (List.getElem?_eq_some_iff.mp htier).1
      rw [List.length_append, List.length_replicate, List.length_singleton] at hlt
      omega

def lateTierText (n : Nat) : List UInt8 := (Term.dict (lateTierEntries n)).bytes

theorem lateTier_room {n : Nat} (h : n ≤ 2 ^ 32) : (4096 : UInt64).toNat + (lateTierText n).length < 2 ^ 64 := by
  rw [lateTierText, lateTier_length]
  show 4096 + (115 + 2 * n) < 2 ^ 64
  omega

def lateTierContent (n : Nat) (h : n ≤ 2 ^ 32) : Region := .of 4096 (lateTierText n) (lateTier_room h)

theorem lateTier_size {n : Nat} (h : n ≤ 2 ^ 32) : (lateTierContent n h).size.toNat ≤ 2 ^ 62 := by
  rw [lateTierContent, Region.of_size, lateTierText, lateTier_length]
  omega

theorem lateTier_bytes {n : Nat} (h : n ≤ 2 ^ 32) :
    (lateTierContent n h).bytes (place 4096 (lateTierText n)) = (Term.dict (lateTierEntries n)).bytes :=
  Region.bytes_of (lateTier_room h)

theorem decoded_lateTier : ∃ info, Converges (fun fuel => parseTorrentFileContent (place 4096 (lateTierText 1))
    ⟨2 ^ 62, 2 ^ 62⟩ fuel (lateTierContent 1 (by decide))) (.ok info) ∧ Decoded (lateTier 1) (lateTierEntries 1) info :=
  (decoded_iff (place 4096 (lateTierText 1)) (lateTierContent 1 (by decide)) ⟨2 ^ 62, 2 ^ 62⟩ (lateTier 1)
    (lateTierEntries 1) (lateTier_bytes _) (lateTier_carried 1) (lateTier_size _) (lateTier_size _)).mpr
      ((lateTier_fits_iff 1).mpr (by decide))

theorem lateTier_index {n : Nat} (h : n ≤ 2 ^ 32) (hn : ¬n < 2 ^ 31) : ¬∃ info, Converges (fun fuel =>
    parseTorrentFileContent (place 4096 (lateTierText n)) ⟨2 ^ 62, 2 ^ 62⟩ fuel (lateTierContent n h)) (.ok info) ∧
      Decoded (lateTier n) (lateTierEntries n) info := by
  rintro ⟨info, hinfo, hdecoded⟩
  have hmax : (lateTierContent n h).size.toNat ≤ (⟨2 ^ 62, 2 ^ 62⟩ : MaxSize).string := lateTier_size h
  obtain ⟨position, hparse, -⟩ := (lateTier_carried n).parsed (lateTier_bytes h) hmax hmax
  cases hparse.unique hinfo
  exact hn ((lateTier_fits_iff n).mp ((multiTrackers_eq_iff _).mp hdecoded.trackers))

/-- Behind `2 ^ 31` empty tiers the index of a tier comes out negative. -/
theorem not_decoded_lateTier : (lateTierContent (2 ^ 31) (by decide)).bytes (place 4096 (lateTierText (2 ^ 31))) =
      (Term.dict (lateTierEntries (2 ^ 31))).bytes ∧ (lateTier (2 ^ 31)).Carried (lateTierEntries (2 ^ 31)) ∧
    ¬∃ info, Converges (fun fuel => parseTorrentFileContent (place 4096 (lateTierText (2 ^ 31))) ⟨2 ^ 62, 2 ^ 62⟩ fuel
      (lateTierContent (2 ^ 31) (by decide))) (.ok info) ∧
        Decoded (lateTier (2 ^ 31)) (lateTierEntries (2 ^ 31)) info :=
  ⟨lateTier_bytes _, lateTier_carried (2 ^ 31), lateTier_index (by decide) (by decide)⟩

end BittorrentClient
