import BittorrentClient.Theorems.Torrent.Content

/-! The handlers as slots that wait for their keys. Those of the info commute, and so do those of the top level where the
    announce comes first. -/

namespace BittorrentClient.Content
open FlatMemory Bencode Dispatch

section
variable (max : MaxSize)

/-! ### The info -/

def nameSlot : Slot (List UInt8) Term Metainfo.Info where
  key := ascii "name"
  handle s t := (name max t).bind fun name => some (if name = [] then s else { s with suggested_name_utf8 := name })

def pieceLengthSlot : Slot (List UInt8) Term Metainfo.Info where
  key := ascii "piece length"
  handle s t := (number t).bind fun n => some { s with piece_length_bytes := n }

def piecesSlot : Slot (List UInt8) Term Metainfo.Info where
  key := ascii "pieces"
  handle s t := (pieces max t).bind fun hashes => some { s with pieces_SHA1 := hashes }

/-- A length or files are put where neither is yet. -/
def putOnce (content : LengthOrFiles) (s : Metainfo.Info) : Option Metainfo.Info :=
  if s.length_or_files ≠ .monostate then none else some { s with length_or_files := content }

def lengthSlot : Slot (List UInt8) Term Metainfo.Info where
  key := ascii "length"
  handle s t := (number t).bind fun n => putOnce (.length n) s

def filesSlot : Slot (List UInt8) Term Metainfo.Info where
  key := ascii "files"
  handle s t := (files max t).bind fun files => putOnce (.files files) s

def infoSlots : List (Slot (List UInt8) Term Metainfo.Info) :=
  [nameSlot max, pieceLengthSlot, piecesSlot max, lengthSlot, filesSlot max]

theorem infoSlots_nodup : ((infoSlots max).map Slot.key).Nodup := by
  show [ascii "name", ascii "piece length", ascii "pieces", ascii "length", ascii "files"].Nodup
  decide

/-- A length or files do not depend on the fields that are put beside them. -/
theorem putOnce_bind {content : LengthOrFiles} (put : Metainfo.Info → Metainfo.Info)
    (hkeep : ∀ s, (put s).length_or_files = s.length_or_files)
    (hput : ∀ s, { put s with length_or_files := content } = put { s with length_or_files := content })
    (s : Metainfo.Info) : (some (put s)).bind (putOnce content) = (putOnce content s).bind fun s => some (put s) := by
  rw [Option.bind_some, putOnce, putOnce, hkeep]
  split
  · rfl
  · rw [Option.bind_some, hput]

theorem putOnce_putOnce {content content' : LengthOrFiles} (hcontent : content ≠ .monostate)
    (hcontent' : content' ≠ .monostate) (s : Metainfo.Info) :
    (putOnce content s).bind (putOnce content') = (putOnce content' s).bind (putOnce content) := by
  simp only [putOnce]
  split
  · rfl
  · exact (if_pos hcontent).trans (if_pos hcontent').symm

/-- The name is kept apart from the fields that are put beside it. -/
theorem name_bind {name : List UInt8} {put : Metainfo.Info → Metainfo.Info}
    (hput : ∀ s, put { s with suggested_name_utf8 := name } = { put s with suggested_name_utf8 := name })
    (s : Metainfo.Info) :
    (some (if name = [] then s else { s with suggested_name_utf8 := name })).bind (fun s => some (put s)) =
      (some (put s)).bind fun s => some (if name = [] then s else { s with suggested_name_utf8 := name }) := by
  rw [Option.bind_some, Option.bind_some]
  split
  · rfl
  · rw [hput]

theorem infoSlots_commute : (infoSlots max).Pairwise Slot.Commute := by
  have hname (name : List UInt8) (s : Metainfo.Info) :
      (if name = [] then s else { s with suggested_name_utf8 := name }).length_or_files = s.length_or_files := by
    split
    · rfl
    · rfl
  have hname' (name : List UInt8) (content : LengthOrFiles) (s : Metainfo.Info) :
      { (if name = [] then s else { s with suggested_name_utf8 := name }) with length_or_files := content } =
        (if name = [] then { s with length_or_files := content }
          else { s with length_or_files := content, suggested_name_utf8 := name }) := by
    split
    · rfl
    · rfl
  refine .cons ?_ (.cons ?_ (.cons ?_ (.cons ?_ (.cons ?_ .nil))))
  · simp only [List.forall_mem_cons, List.not_mem_nil, false_implies, implies_true, and_true]
    refine ⟨?_, ?_, ?_, ?_⟩
    · exact Slot.commute_of_bind fun name n s => name_bind (fun _ => rfl) s
    · exact Slot.commute_of_bind fun name hashes s => name_bind (fun _ => rfl) s
    · exact Slot.commute_of_bind fun name n s => putOnce_bind _ (hname name) (hname' name _) s
    · exact Slot.commute_of_bind fun name files s => putOnce_bind _ (hname name) (hname' name _) s
  · simp only [List.forall_mem_cons, List.not_mem_nil, false_implies, implies_true, and_true]
    refine ⟨?_, ?_, ?_⟩
    · exact Slot.commute_of_bind fun n hashes s => rfl
    · exact Slot.commute_of_bind fun n length s =>
        putOnce_bind ({ · with piece_length_bytes := n }) (fun _ => rfl) (fun _ => rfl) s
    · exact Slot.commute_of_bind fun n files s =>
        putOnce_bind ({ · with piece_length_bytes := n }) (fun _ => rfl) (fun _ => rfl) s
  · simp only [List.forall_mem_cons, List.not_mem_nil, false_implies, implies_true, and_true]
    refine ⟨?_, ?_⟩
    · exact Slot.commute_of_bind fun hashes length s =>
        putOnce_bind ({ · with pieces_SHA1 := hashes }) (fun _ => rfl) (fun _ => rfl) s
    · exact Slot.commute_of_bind fun hashes files s =>
        putOnce_bind ({ · with pieces_SHA1 := hashes }) (fun _ => rfl) (fun _ => rfl) s
  · simp only [List.forall_mem_cons, List.not_mem_nil, false_implies, implies_true, and_true]
    exact Slot.commute_of_bind fun length files s =>
      putOnce_putOnce (LengthOrFiles.noConfusion ·) (LengthOrFiles.noConfusion ·) s
  · exact List.forall_mem_nil _

/-- What the slots of the info gather from its entries. -/
def gathered (entries : List (Str × Term)) : Option Metainfo.Info :=
  (valueOr [] (name max) (value entries "name")).bind fun name =>
    (valueOr 0 number (value entries "piece length")).bind fun pieceLength =>
    (valueOr [] (pieces max) (value entries "pieces")).bind fun pieces =>
    (lengthOrFiles max entries).map fun lengthOrFiles => ⟨name, pieceLength, pieces, lengthOrFiles⟩

theorem turns_value {S : Type} {slot : Slot (List UInt8) Term S} {slots : List (Slot (List UInt8) Term S)} {key : String}
    (hkey : slot.key = ascii key) (entries : List (Str × Term)) : turns (byKey entries) (slot :: slots) = fun s =>
      match value entries key with
      | none => turns (byKey entries) slots s
      | some t => (slot.handle s t).bind (turns (byKey entries) slots) := by
  funext s
  rw [turns, hkey, value]
  cases first (byKey entries) (ascii key) with
  | none => rfl
  | some t => rfl

/-- The turn of a slot that reads its value, where the state is as if the default had been read. -/
theorem turns_cons {α S : Type} {slot : Slot (List UInt8) Term S} {slots : List (Slot (List UInt8) Term S)} {s : S}
    {key : String} {default : α} (read : Term → Option α) (put : α → S) (entries : List (Str × Term))
    (hkey : slot.key = ascii key) (hread : ∀ t, slot.handle s t = (read t).bind fun a => some (put a))
    (hdefault : put default = s) :
    turns (byKey entries) (slot :: slots) s =
      (valueOr default read (value entries key)).bind fun a => turns (byKey entries) slots (put a) := by
  rw [turns_value hkey]
  cases value entries key with
  | none => rw [valueOr, Option.bind_some, hdefault]
  | some t => simp only [valueOr, hread, Option.bind_assoc, Option.bind_some]

theorem turns_lengthOrFiles (entries : List (Str × Term)) {s : Metainfo.Info} (h : s.length_or_files = .monostate) :
    turns (byKey entries) [lengthSlot, filesSlot max] s =
      (lengthOrFiles max entries).map fun content => { s with length_or_files := content } := by
  have hput (content : LengthOrFiles) : putOnce content s = some { s with length_or_files := content } :=
    if_neg (not_not_intro h)
  have hfull (n : UInt64) (files : List Metainfo.File) :
      putOnce (.files files) { s with length_or_files := .length n } = none := if_pos nofun
  rw [lengthOrFiles, turns_value (show lengthSlot.key = ascii "length" from rfl),
    turns_value (show (filesSlot max).key = ascii "files" from rfl)]
  cases value entries "length" with
  | none =>
    cases value entries "files" with
    | none => simp only [turns, Option.map_some, ← h]
    | some t =>
      simp only [turns, filesSlot, hput, Option.bind_fun_some, Option.map_eq_bind, Option.bind_assoc, Option.bind_some,
        Function.comp_apply]
  | some t =>
    cases value entries "files" with
    | none =>
      simp only [turns, lengthSlot, hput, Option.bind_fun_some, Option.map_eq_bind, Option.bind_assoc, Option.bind_some,
        Function.comp_apply]
    | some t' =>
      simp only [turns, lengthSlot, filesSlot, hput, hfull, Option.map_none, Option.bind_some, Option.bind_none,
        Option.bind_fun_none, Option.bind_assoc]

theorem turns_infoSlots (entries : List (Str × Term)) :
    turns (byKey entries) (infoSlots max) {} = gathered max entries := by
  have hname (t : Term) : (nameSlot max).handle {} t = (name max t).bind fun name => some { suggested_name_utf8 := name } := by
    rw [nameSlot]
    refine Option.bind_congr ?_
    intro name _
    split
    · next hempty => rw [hempty]
    · rfl
  refine Eq.trans (turns_cons (name max) (⟨·, 0, [], .monostate⟩) entries rfl hname rfl) ?_
  refine congrArg _ (funext fun name => ?_)
  refine Eq.trans (turns_cons number (⟨name, ·, [], .monostate⟩) entries rfl (fun _ => rfl) rfl) ?_
  refine congrArg _ (funext fun pieceLength => ?_)
  refine Eq.trans (turns_cons (pieces max) (⟨name, pieceLength, ·, .monostate⟩) entries rfl (fun _ => rfl) rfl) ?_
  refine congrArg _ (funext fun pieces => ?_)
  exact turns_lengthOrFiles max entries rfl

/-! ### The top level -/

/-- The info has all that is needed. -/
def Complete (info : Metainfo.Info) : Prop :=
  info.piece_length_bytes > 0 ∧ info.pieces_SHA1.length > 0 ∧ info.length_or_files ≠ .monostate

instance (info : Metainfo.Info) : Decidable (Complete info) := inferInstanceAs (Decidable (_ ∧ _ ∧ _))

/-- The entries of an info are gathered, and the info is put if it is complete. -/
def putInfo (entries : List (Str × Term)) (s : TorrentMetainfo) : Option TorrentMetainfo :=
  (turns (byKey entries) (infoSlots max) s.info).bind fun info => if Complete info then some { s with info } else none

def announceSlot : Slot (List UInt8) Term TorrentMetainfo where
  key := ascii "announce"
  handle s t := (announce max t).bind fun url => some { s with tracker_url_utf8 := url }

def infoSlot : Slot (List UInt8) Term TorrentMetainfo where
  key := ascii "info"
  handle s t := (dict t).bind fun entries => putInfo max entries s

/-- The info as it is parsed: not without the url. -/
def guardedInfoSlot : Slot (List UInt8) Term TorrentMetainfo where
  key := ascii "info"
  handle s t := if s.tracker_url_utf8 = [] then none else (infoSlot max).handle s t

def announceListSlot : Slot (List UInt8) Term TorrentMetainfo where
  key := ascii "announce-list"
  handle s t := (announceList max t).bind fun trackers => some { s with multi_trackers := s.multi_trackers ++ trackers }

/-- The first announce of a torrent file comes before its infos. -/
def AnnounceFirst (entries : List (Str × Term)) : Prop := Precedes (ascii "announce") (ascii "info") (byKey entries)

instance (entries : List (Str × Term)) : Decidable (AnnounceFirst entries) := inferInstanceAs (Decidable (Precedes _ _ _))

theorem announce_ne_nil {max : MaxSize} {t : Term} {url : List UInt8} (h : announce max t = some url) : url ≠ [] := by
  obtain ⟨text, htext, hurl⟩ := Option.bind_eq_some_iff.mp h
  obtain ⟨_, -, hpart⟩ := Option.bind_eq_some_iff.mp htext
  rw [fitting] at hurl
  split at hpart
  · cases hpart
  · next hne =>
    split at hurl
    · cases hpart
      cases hurl
      exact hne
    · cases hurl

theorem putInfo_url {max : MaxSize} {entries : List (Str × Term)} {s s' : TorrentMetainfo}
    (h : putInfo max entries s = some s') : s'.tracker_url_utf8 = s.tracker_url_utf8 := by
  obtain ⟨info, -, h⟩ := Option.bind_eq_some_iff.mp h
  split at h
  · cases h
    rfl
  · cases h

theorem guarded_info :
    Guarded (fun s => s.tracker_url_utf8 ≠ []) (announceSlot max) (guardedInfoSlot max) (infoSlot max) where
  key := rfl
  ne := show ascii "announce" ≠ ascii "info" by decide
  opens s v s' h := by
    obtain ⟨url, hurl, h⟩ := Option.bind_eq_some_iff.mp h
    cases h
    exact announce_ne_nil hurl
  closed s v hs := if_pos (not_not.mp hs)
  same s v hs := if_neg hs
  keeps s v s' hs h := by
    obtain ⟨entries, -, h⟩ := Option.bind_eq_some_iff.mp h
    rw [putInfo_url h]
    exact hs

theorem aside_announceList (c : Slot (List UInt8) Term TorrentMetainfo) (hc : c ∈ [announceListSlot max]) :
    c.Aside (fun s => s.tracker_url_utf8 ≠ []) (announceSlot max) (guardedInfoSlot max) := by
  obtain rfl := List.mem_singleton.mp hc
  refine ⟨show ascii "announce-list" ≠ ascii "announce" by decide,
    show ascii "announce-list" ≠ ascii "info" by decide, ?_⟩
  intro s v s' h
  obtain ⟨trackers, -, h⟩ := Option.bind_eq_some_iff.mp h
  cases h
  exact Iff.rfl

theorem fileSlots_commute : [announceSlot max, infoSlot max, announceListSlot max].Pairwise Slot.Commute := by
  refine .cons ?_ (.cons ?_ (.cons ?_ .nil))
  · simp only [List.forall_mem_cons, List.not_mem_nil, false_implies, implies_true, and_true]
    refine ⟨?_, ?_⟩
    · refine Slot.commute_of_bind fun url entries s => ?_
      simp only [putInfo, Option.bind_some, Option.bind_assoc]
      refine Option.bind_congr ?_
      intro info _
      split
      · rfl
      · rfl
    · exact Slot.commute_of_bind fun url trackers s => rfl
  · simp only [List.forall_mem_cons, List.not_mem_nil, false_implies, implies_true, and_true]
    refine Slot.commute_of_bind fun entries trackers s => ?_
    simp only [putInfo, Option.bind_some, Option.bind_assoc]
    refine Option.bind_congr ?_
    intro info _
    split
    · rfl
    · rfl
  · exact List.forall_mem_nil _

theorem info_eq_putInfo (t : Term) (s : TorrentMetainfo) (hs : s.info = {}) :
    (infoSlot max).handle s t = (info max t).bind fun info => some { s with info } := by
  simp only [infoSlot, info, Option.bind_assoc]
  refine Option.bind_congr ?_
  intro entries _
  rw [putInfo, hs, turns_infoSlots, gathered]
  simp only [Option.bind_assoc, Option.bind_map, Function.comp_def]
  refine congrArg _ (funext fun name => congrArg _ (funext fun pieceLength => congrArg _ (funext fun pieces =>
    congrArg _ (funext fun content => ?_))))
  have hiff : Complete ⟨name, pieceLength, pieces, content⟩ ↔
      pieceLength > 0 ∧ pieces.length > 0 ∧ content ≠ .monostate := Iff.rfl
  by_cases hcomplete : pieceLength > 0 ∧ pieces.length > 0 ∧ content ≠ .monostate
  · rw [if_pos (hiff.mpr hcomplete), if_pos hcomplete, Option.bind_some]
  · rw [if_neg (mt hiff.mp hcomplete), if_neg hcomplete, Option.bind_none]

/-- The slots of the top level give what the file says, where announce and info are there. -/
theorem turns_fileSlots {entries : List (Str × Term)} (hannounce : value entries "announce" ≠ none)
    (hinfo : value entries "info" ≠ none) :
    turns (byKey entries) [announceSlot max, infoSlot max, announceListSlot max] {} = metainfo max entries := by
  obtain ⟨announceTerm, hannounce⟩ := Option.ne_none_iff_exists'.mp hannounce
  obtain ⟨infoTerm, hinfo⟩ := Option.ne_none_iff_exists'.mp hinfo
  rw [metainfo, turns_value (show (announceSlot max).key = ascii "announce" from rfl),
    turns_value (show (infoSlot max).key = ascii "info" from rfl), hannounce, hinfo, Option.bind_some, Option.bind_some]
  simp only [announceSlot, Option.bind_assoc, Option.bind_some]
  refine congrArg _ (funext fun url => ?_)
  rw [info_eq_putInfo max infoTerm _ rfl, Option.bind_assoc]
  refine congrArg _ (funext fun info => ?_)
  rw [Option.bind_some, Option.map_eq_bind]
  refine Eq.trans (turns_cons (announceList max) (⟨info, url, ·⟩) entries rfl (fun _ => rfl) rfl) ?_
  rfl

/-- The run as it is parsed: it gives what the file says where the announce comes first, and nothing elsewhere. -/
theorem run_fileSlots_iff (entries : List (Str × Term)) (s : TorrentMetainfo) :
    (run [announceSlot max, guardedInfoSlot max, announceListSlot max] {} (byKey entries) = some s ∧
        value entries "announce" ≠ none ∧ value entries "info" ≠ none) ↔
      AnnounceFirst entries ∧ metainfo max entries = some s := by
  have hnodup : ([announceSlot max, infoSlot max, announceListSlot max].map Slot.key).Nodup := by
    show [ascii "announce", ascii "info", ascii "announce-list"].Nodup
    decide
  constructor
  · rintro ⟨hrun, hannounce, hinfo⟩
    rcases precedes_or (a := ascii "announce") hinfo with hfirst | hfirst
    · refine ⟨hfirst, ?_⟩
      rw [(guarded_info max).run_of_precedes (aside_announceList max) _ hfirst,
        run_eq_turns hnodup (fileSlots_commute max), turns_fileSlots max hannounce hinfo] at hrun
      exact hrun
    · rw [(guarded_info max).run_eq_none (aside_announceList max) (not_not_intro rfl) hfirst] at hrun
      cases hrun
  · rintro ⟨hfirst, hmetainfo⟩
    have hannounce : value entries "announce" ≠ none := hfirst.first
    have hinfo : value entries "info" ≠ none := by
      intro hnone
      simp only [metainfo, hnone, Option.bind_none, Option.bind_fun_none] at hmetainfo
      cases hmetainfo
    refine ⟨?_, hannounce, hinfo⟩
    rw [(guarded_info max).run_of_precedes (aside_announceList max) _ hfirst,
      run_eq_turns hnodup (fileSlots_commute max), turns_fileSlots max hannounce hinfo]
    exact hmetainfo

end

end BittorrentClient.Content
