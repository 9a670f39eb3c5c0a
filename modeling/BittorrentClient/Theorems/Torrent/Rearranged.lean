import BittorrentClient.Theorems.Torrent.Accepted

/-! The order of the keys does not matter to what a .torrent file says. It matters to the parser where it moves the
    announce across the info. -/

namespace BittorrentClient
open FlatMemory Fuel Bencode Dispatch

/-! ### Dictionaries that differ by their order -/

/-- The keys are distinct; the entries are permuted, and each value is one that is related to it. -/
def Rearranged (R : List UInt8 → Term → Term → Prop) (entries entries' : List (Str × Term)) : Prop :=
  (entries.map fun e => e.1.body).Nodup ∧ ∃ permuted, entries.Perm permuted ∧
    List.Forall₂ (fun e e' => e.1 = e'.1 ∧ R e.1.body e.2 e'.2) permuted entries'

/-- A file entry whose keys are permuted. -/
def FileRearranged (t t' : Term) : Prop :=
  t = t' ∨ ∃ entries entries', t = .dict entries ∧ t' = .dict entries' ∧ Rearranged (fun _ => Eq) entries entries'

def FilesRearranged (t t' : Term) : Prop :=
  t = t' ∨ ∃ items items', t = .list items ∧ t' = .list items' ∧ List.Forall₂ FileRearranged items items'

/-- An info whose keys are permuted, and the keys of its file entries. -/
def InfoRearranged (t t' : Term) : Prop :=
  t = t' ∨ ∃ entries entries', t = .dict entries ∧ t' = .dict entries' ∧
    Rearranged (fun key t t' => if key = ascii "files" then FilesRearranged t t' else t = t') entries entries'

/-- A torrent whose keys are permuted, and those of its info. -/
def TorrentRearranged (entries entries' : List (Str × Term)) : Prop :=
  Rearranged (fun key t t' => if key = ascii "info" then InfoRearranged t t' else t = t') entries entries'

/-- Both contents are accepted, with equal metainfo, or neither is. -/
def SameMetainfo (max : MaxSize) (m : Memory) (r : Region) (m' : Memory) (r' : Region) : Prop :=
  ((∃ info, Converges (fun fuel => parseTorrentFileContent m max fuel r) (.ok info)) ↔
      ∃ info, Converges (fun fuel => parseTorrentFileContent m' max fuel r') (.ok info)) ∧
    ∀ info info', Converges (fun fuel => parseTorrentFileContent m max fuel r) (.ok info) →
      Converges (fun fuel => parseTorrentFileContent m' max fuel r') (.ok info') → info.metainfo = info'.metainfo

/-! ### The content does not depend on the order -/

section
variable {max : MaxSize} {t t' : Term} {entries entries' : List (Str × Term)}

theorem Rearranged.value {R : List UInt8 → Term → Term → Prop} (h : Rearranged R entries entries') (key : String) :
    Option.Rel (R (ascii key)) (Content.value entries key) (Content.value entries' key) := by
  obtain ⟨hnodup, permuted, hperm, hrel⟩ := h
  have hkeys : ((Content.byKey entries).map Prod.fst).Nodup := by
    rwa [Content.byKey, List.map_map]
  have hfirst := first_perm (hperm.map fun e => (e.1.body, e.2)) hkeys (ascii key)
  rw [Content.value, Content.byKey, hfirst]
  refine first_rel ?_ (ascii key)
  refine List.forall₂_map_left_iff.mpr (List.forall₂_map_right_iff.mpr (hrel.imp ?_))
  rintro e e' ⟨hkey, hvalue⟩
  exact ⟨congrArg Str.body hkey, hvalue⟩

theorem eq_of_rel {α : Type} {R : α → α → Prop} {a b : Option α} (h : Option.Rel R a b) (heq : ∀ x y, R x y → x = y) :
    a = b := by
  cases h with
  | some h => rw [heq _ _ h]
  | none => rfl

theorem bind_eq_of_rel {α β : Type} {R : α → α → Prop} {f : α → Option β} {a b : Option α} (h : Option.Rel R a b)
    (heq : ∀ x y, R x y → f x = f y) : a.bind f = b.bind f := by
  cases h with
  | some h => rw [Option.bind_some, Option.bind_some, heq _ _ h]
  | none => rfl

theorem FileRearranged.file (h : FileRearranged t t') : Content.file max t = Content.file max t' := by
  rcases h with rfl | ⟨entries, entries', rfl, rfl, h⟩
  · rfl
  · rw [Content.file, Content.file, Content.dict, Content.dict, Option.bind_some, Option.bind_some,
      eq_of_rel (h.value "length") fun _ _ => id, eq_of_rel (h.value "path") fun _ _ => id]

theorem FilesRearranged.files (h : FilesRearranged t t') : Content.files max t = Content.files max t' := by
  rcases h with rfl | ⟨items, items', rfl, rfl, h⟩
  · rfl
  · have hmap : items.mapM (Content.file max) = items'.mapM (Content.file max) := by
      induction h with
      | nil => rfl
      | cons hfile _ ih => rw [List.mapM_cons, List.mapM_cons, hfile.file, ih]
    rw [Content.files, Content.files, Content.list, Content.list, Option.bind_some, Option.bind_some, hmap]

/-- The keys of an info other than 'files' have the same values. -/
theorem value_of_infoRearranged
    (h : Rearranged (fun key t t' => if key = ascii "files" then FilesRearranged t t' else t = t') entries entries')
    {key : String} (hkey : ascii key ≠ ascii "files") : Content.value entries key = Content.value entries' key :=
  eq_of_rel (h.value key) fun _ _ ht => by rwa [if_neg hkey] at ht

theorem lengthOrFiles_of_infoRearranged
    (h : Rearranged (fun key t t' => if key = ascii "files" then FilesRearranged t t' else t = t') entries entries') :
    Content.lengthOrFiles max entries = Content.lengthOrFiles max entries' := by
  have hrel := h.value "files"
  rw [Content.lengthOrFiles, Content.lengthOrFiles, value_of_infoRearranged h (by decide)]
  generalize Content.value entries "files" = files at hrel ⊢
  generalize Content.value entries' "files" = files' at hrel ⊢
  cases hrel with
  | some hfiles =>
    rw [if_pos rfl] at hfiles
    cases Content.value entries' "length" with
    | none => simp only [hfiles.files]
    | some => rfl
  | none => rfl

theorem InfoRearranged.info (h : InfoRearranged t t') : Content.info max t = Content.info max t' := by
  rcases h with rfl | ⟨entries, entries', rfl, rfl, h⟩
  · rfl
  · rw [Content.info, Content.info, Content.dict, Content.dict, Option.bind_some, Option.bind_some,
      value_of_infoRearranged h (by decide), value_of_infoRearranged h (by decide),
      value_of_infoRearranged h (by decide), lengthOrFiles_of_infoRearranged h]

theorem value_of_torrentRearranged (h : TorrentRearranged entries entries') {key : String}
    (hkey : ascii key ≠ ascii "info") : Content.value entries key = Content.value entries' key :=
  eq_of_rel (h.value key) fun _ _ ht => by rwa [if_neg hkey] at ht

/-- What a torrent file says does not depend on the order of its keys. -/
theorem TorrentRearranged.metainfo (h : TorrentRearranged entries entries') :
    Content.metainfo max entries = Content.metainfo max entries' := by
  have hinfo : (Content.value entries "info").bind (Content.info max) =
      (Content.value entries' "info").bind (Content.info max) := by
    refine bind_eq_of_rel (h.value "info") ?_
    intro t t' ht
    rw [if_pos rfl] at ht
    exact ht.info
  rw [Content.metainfo, Content.metainfo, value_of_torrentRearranged h (by decide), hinfo,
    value_of_torrentRearranged h (by decide)]

end

/-! ### What the parser makes of the order -/

/-- The text of a dictionary is accepted where its announce comes first and it says a whole torrent. -/
theorem accepted_iff {m : Memory} {r : Region} {max : MaxSize} {entries : List (Str × Term)}
    (h : r.bytes m = (Term.dict entries).bytes) :
    (∃ info, Converges (fun fuel => parseTorrentFileContent m max fuel r) (.ok info)) ↔
      Content.AnnounceFirst entries ∧ Content.metainfo max entries ≠ none := by
  constructor
  · rintro ⟨info, hinfo⟩
    obtain ⟨⟨hfirst, hmetainfo⟩, -⟩ := (parseTorrentFileContent_ok_iff h info).mp hinfo
    exact ⟨hfirst, by rw [hmetainfo]; exact Option.some_ne_none _⟩
  · rintro ⟨hfirst, hmetainfo⟩
    obtain ⟨metainfo, hmetainfo⟩ := Option.ne_none_iff_exists'.mp hmetainfo
    exact ⟨⟨metainfo, _⟩, (parseTorrentFileContent_ok_iff h _).mpr ⟨⟨hfirst, hmetainfo⟩, rfl⟩⟩

/-- Two orders of a torrent file are treated alike where they say nothing whole or the announce comes first in both or in
    neither. -/
theorem sameMetainfo_iff (max : MaxSize) (m : Memory) (r : Region) (m' : Memory) (r' : Region)
    (entries entries' : List (Str × Term)) (hbytes : r.bytes m = (Term.dict entries).bytes)
    (hbytes' : r'.bytes m' = (Term.dict entries').bytes) (h : TorrentRearranged entries entries') :
    SameMetainfo max m r m' r' ↔
      Content.metainfo max entries = none ∨ (Content.AnnounceFirst entries ↔ Content.AnnounceFirst entries') := by
  have hequal (info info' : TorrentFileInfo) (hinfo : Converges (fun fuel => parseTorrentFileContent m max fuel r) (.ok info))
      (hinfo' : Converges (fun fuel => parseTorrentFileContent m' max fuel r') (.ok info')) :
      info.metainfo = info'.metainfo := by
    have hmetainfo := ((parseTorrentFileContent_ok_iff hbytes info).mp hinfo).1.2
    rw [h.metainfo, ((parseTorrentFileContent_ok_iff hbytes' info').mp hinfo').1.2] at hmetainfo
    exact (Option.some.inj hmetainfo).symm
  rw [SameMetainfo, accepted_iff hbytes, accepted_iff hbytes', ← h.metainfo]
  constructor
  · rintro ⟨hiff, -⟩
    by_cases hnone : Content.metainfo max entries = none
    · exact .inl hnone
    · exact .inr ⟨fun hfirst => (hiff.mp ⟨hfirst, hnone⟩).1, fun hfirst => (hiff.mpr ⟨hfirst, hnone⟩).1⟩
  · rintro (hnone | hfirst)
    · exact ⟨iff_of_false (fun h => h.2 hnone) (fun h => h.2 hnone), hequal⟩
    · exact ⟨and_congr_left fun _ => hfirst, hequal⟩

/-! ### An info before the announce -/

def tinyInfo : List (Str × Term) := [
  (.canonical (ascii "length"), .int 1), (.canonical (ascii "piece length"), .int 1),
  (.canonical (ascii "pieces"), .str (.canonical (ascii "aaaaaaaaaaaaaaaaaaaa")))]

def tinyTorrent (infoEntries : List (Str × Term)) : List (Str × Term) := [
  (.canonical (ascii "announce"), .str (.canonical (ascii "u"))), (.canonical (ascii "info"), .dict infoEntries)]

def tinyText (entries : List (Str × Term)) : List UInt8 := (Term.dict entries).bytes

def tinyContent (entries : List (Str × Term)) (h : (tinyText entries).length = 83) : Region :=
  .of 4096 (tinyText entries) (by rw [h]; decide)

theorem tinyContent_bytes {entries : List (Str × Term)} (h : (tinyText entries).length = 83) :
    (tinyContent entries h).bytes (place 4096 (tinyText entries)) = (Term.dict entries).bytes := Region.bytes_of _

theorem tinyText_length : (tinyText (tinyTorrent tinyInfo)).length = 83 := by decide

theorem tinyText_infoReverse_length : (tinyText (tinyTorrent tinyInfo.reverse)).length = 83 := by decide

theorem tinyText_reverse_length : (tinyText (tinyTorrent tinyInfo).reverse).length = 83 := by decide

theorem tinyTorrent_whole : Content.metainfo ⟨2 ^ 62, 2 ^ 62⟩ (tinyTorrent tinyInfo) ≠ none := by decide

theorem rearranged_of_perm {R : List UInt8 → Term → Term → Prop} (hrefl : ∀ key t, R key t t)
    {entries entries' : List (Str × Term)} (hkeys : (entries.map fun e => e.1.body).Nodup) (hperm : entries.Perm entries') :
    Rearranged R entries entries' :=
  ⟨hkeys, entries', hperm, List.forall₂_same.mpr fun _ _ => ⟨rfl, hrefl _ _⟩⟩

theorem infoRearranged_refl (key : List UInt8) (t : Term) : if key = ascii "info" then InfoRearranged t t else t = t := by
  split
  · exact .inl rfl
  · rfl

theorem filesRearranged_refl (key : List UInt8) (t : Term) :
    if key = ascii "files" then FilesRearranged t t else t = t := by
  split
  · exact .inl rfl
  · rfl

theorem tinyInfo_rearranged : TorrentRearranged (tinyTorrent tinyInfo) (tinyTorrent tinyInfo.reverse) := by
  refine ⟨by decide, _, .refl _, .cons ⟨rfl, rfl⟩ (.cons ⟨rfl, .inr ⟨_, _, rfl, rfl, ?_⟩⟩ .nil)⟩
  exact rearranged_of_perm filesRearranged_refl (by decide) (List.reverse_perm _).symm

theorem sameMetainfo_tinyInfo : SameMetainfo ⟨2 ^ 62, 2 ^ 62⟩
    (place 4096 (tinyText (tinyTorrent tinyInfo))) (tinyContent (tinyTorrent tinyInfo) tinyText_length)
    (place 4096 (tinyText (tinyTorrent tinyInfo.reverse)))
    (tinyContent (tinyTorrent tinyInfo.reverse) tinyText_infoReverse_length) :=
  (sameMetainfo_iff ⟨2 ^ 62, 2 ^ 62⟩ _ _ _ _ (tinyTorrent tinyInfo) (tinyTorrent tinyInfo.reverse)
    (tinyContent_bytes tinyText_length) (tinyContent_bytes tinyText_infoReverse_length) tinyInfo_rearranged).mpr
      (.inr (by decide))

/-- The file is accepted, and not with its two entries the other way around. -/
theorem not_sameMetainfo_infoFirst : TorrentRearranged (tinyTorrent tinyInfo) (tinyTorrent tinyInfo).reverse ∧
    ¬SameMetainfo ⟨2 ^ 62, 2 ^ 62⟩
      (place 4096 (tinyText (tinyTorrent tinyInfo))) (tinyContent (tinyTorrent tinyInfo) tinyText_length)
      (place 4096 (tinyText (tinyTorrent tinyInfo).reverse))
      (tinyContent (tinyTorrent tinyInfo).reverse tinyText_reverse_length) := by
  refine ⟨rearranged_of_perm infoRearranged_refl (by decide) (List.reverse_perm _).symm, ?_⟩
  rintro ⟨hiff, -⟩
  rw [accepted_iff (tinyContent_bytes tinyText_length), accepted_iff (tinyContent_bytes tinyText_reverse_length)] at hiff
  exact absurd (hiff.mp ⟨by decide, tinyTorrent_whole⟩).1 (by decide)

end BittorrentClient
