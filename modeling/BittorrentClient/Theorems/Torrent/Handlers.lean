import BittorrentClient.Lib.Outcome
import BittorrentClient.Theorems.Parser.Carries
import BittorrentClient.Theorems.Parser.Tokens
import BittorrentClient.Theorems.Torrent.Content

/-! The handlers of the keys read what the terms say: each gives the content of the term that its element carries, or
    fails. -/

namespace BittorrentClient
open FlatMemory Decimal Bencode Outcome

section
variable {m : Memory} {r : Region} {max : MaxSize} {e : ElementRef} {t : Term}

/-! ### The kinds of elements -/

theorem size_eq_zero_iff {v : StringView} {text : List UInt8} (h : v.read m = text) : v.size = 0 ↔ text = [] := by
  rw [← h, ← UInt64.toNat_inj, ← List.length_eq_zero_iff, StringView.read, length_read]
  rfl

theorem toNat_size {v : StringView} {text : List UInt8} (h : v.read m = text) : v.size.toNat = text.length := by
  rw [← h, StringView.read, length_read]

/-- An element and the term that it carries are of one kind. -/
theorem Carries.kinds (h : Carries m r e t) :
    (∃ n p z, e = .integer n p ∧ t = .int z ∧ n.read m = intText z) ∨
      (∃ v p s, e = .string v p ∧ t = .str s ∧ v.read m = s.body) ∨
      (∃ es p items, e = .list es p ∧ t = .list items ∧ ItemsCarry m r es items) ∨
      ∃ es p entries, e = .dictionary es p ∧ t = .dict entries ∧ EntriesCarry m r es entries := by
  cases t with
  | int z =>
    obtain ⟨n, p, he, hn⟩ := h.integer
    exact .inl ⟨n, p, z, he, rfl, hn⟩
  | str s =>
    obtain ⟨v, p, he, hv⟩ := h.string
    exact .inr (.inl ⟨v, p, s, he, rfl, hv⟩)
  | list items =>
    obtain ⟨es, p, he, hes⟩ := h.list
    exact .inr (.inr (.inl ⟨es, p, items, he, rfl, hes⟩))
  | dict entries =>
    obtain ⟨es, p, he, hes⟩ := h.dictionary
    exact .inr (.inr (.inr ⟨es, p, entries, he, rfl, hes⟩))

theorem Carries.asString (h : Carries m r e t) :
    (e.asString = none ∧ Content.string t = none) ∨
      ∃ v text, e.asString = some v ∧ Content.string t = some text ∧ v.read m = text := by
  rcases h.kinds with ⟨n, p, z, rfl, rfl, -⟩ | ⟨v, p, s, rfl, rfl, hv⟩ | ⟨es, p, items, rfl, rfl, -⟩ |
    ⟨es, p, entries, rfl, rfl, -⟩
  · exact .inl ⟨rfl, rfl⟩
  · exact .inr ⟨v, s.body, rfl, rfl, hv⟩
  · exact .inl ⟨rfl, rfl⟩
  · exact .inl ⟨rfl, rfl⟩

theorem Carries.asInteger (h : Carries m r e t) :
    (e.asInteger = none ∧ Content.integer t = none) ∨
      ∃ n z, e.asInteger = some n ∧ Content.integer t = some z ∧ n.read m = intText z := by
  rcases h.kinds with ⟨n, p, z, rfl, rfl, hn⟩ | ⟨v, p, s, rfl, rfl, -⟩ | ⟨es, p, items, rfl, rfl, -⟩ |
    ⟨es, p, entries, rfl, rfl, -⟩
  · exact .inr ⟨n, z, rfl, rfl, hn⟩
  · exact .inl ⟨rfl, rfl⟩
  · exact .inl ⟨rfl, rfl⟩
  · exact .inl ⟨rfl, rfl⟩

theorem Carries.asList (h : Carries m r e t) :
    (e.asList = none ∧ Content.list t = none) ∨
      ∃ es items, e.asList = some es ∧ Content.list t = some items ∧ ItemsCarry m r es items := by
  rcases h.kinds with ⟨n, p, z, rfl, rfl, -⟩ | ⟨v, p, s, rfl, rfl, -⟩ | ⟨es, p, items, rfl, rfl, hes⟩ |
    ⟨es, p, entries, rfl, rfl, -⟩
  · exact .inl ⟨rfl, rfl⟩
  · exact .inl ⟨rfl, rfl⟩
  · exact .inr ⟨es, items, rfl, rfl, hes⟩
  · exact .inl ⟨rfl, rfl⟩

theorem Carries.asDictionary (h : Carries m r e t) :
    (e.asDictionary = none ∧ Content.dict t = none) ∨
      ∃ es entries, e.asDictionary = some es ∧ Content.dict t = some entries ∧ EntriesCarry m r es entries := by
  rcases h.kinds with ⟨n, p, z, rfl, rfl, -⟩ | ⟨v, p, s, rfl, rfl, -⟩ | ⟨es, p, items, rfl, rfl, -⟩ |
    ⟨es, p, entries, rfl, rfl, hes⟩
  · exact .inl ⟨rfl, rfl⟩
  · exact .inl ⟨rfl, rfl⟩
  · exact .inl ⟨rfl, rfl⟩
  · exact .inr ⟨es, entries, rfl, rfl, hes⟩

/-- At every kind of element the position is that of the text. -/
theorem Carries.spans (h : Carries m r e t) : Spans m r e.position t.bytes := by
  rcases h.kinds with ⟨n, p, z, rfl, rfl, -⟩ | ⟨v, p, s, rfl, rfl, -⟩ | ⟨es, p, items, rfl, rfl, -⟩ |
    ⟨es, p, entries, rfl, rfl, -⟩
  · exact h.2
  · exact h.2
  · exact h.2
  · exact h.2

theorem elementRefAs_toOption {α : Type} (as : ElementRef → Option α) (ec : ParseErrorc) (e : ElementRef) :
    (elementRefAs as ec e).toOption = as e := by
  rw [elementRefAs]
  cases as e <;> rfl

/-! ### Numbers and strings -/

/-- The digits of an integer are those of a number of 64 bits where it is one. -/
theorem parseLength_intText (z : Int) :
    parseLength (intText z) = if 0 ≤ z ∧ z < 2 ^ 64 then some (UInt64.ofNat z.toNat) else none := by
  cases z with
  | ofNat n =>
    rw [intText, parseLength_digits (natText_ne_nil n) fun _ => isDigit_of_mem_natText, value_natText]
    have hiff : n < 2 ^ 64 ↔ 0 ≤ Int.ofNat n ∧ Int.ofNat n < 2 ^ 64 := by
      simp only [Int.ofNat_eq_natCast]
      omega
    simp only [hiff, Int.ofNat_eq_natCast, Int.toNat_natCast]
  | negSucc n =>
    rw [if_neg (by omega)]
    rfl

theorem parseAsUint64_toOption {n : IntegerRef} {z : Int} (h : n.read m = intText z) :
    (parseAsUint64 m n).toOption = if 0 ≤ z ∧ z < 2 ^ 64 then some (UInt64.ofNat z.toNat) else none := by
  rw [← parseLength_intText, parseAsUint64, h]
  cases parseLength (intText z) <;> rfl

theorem assign_toOption {v : StringView} {text : List UInt8} (h : v.read m = text) :
    (assign m max v).toOption = Content.fitting max text := by
  rw [assign, Content.fitting, toNat_size h, h]
  split
  · rfl
  · rfl

/-- An integer is taken for the number that it writes. -/
theorem number_of_carries (h : Carries m r e t) :
    (e.asInteger.bind fun n => (parseAsUint64 m n).toOption) = Content.number t := by
  rw [Content.number]
  rcases h.asInteger with ⟨he, ht⟩ | ⟨n, z, he, ht, hn⟩
  · rw [he, ht]
    rfl
  · rw [he, ht, Option.bind_some, Option.bind_some, parseAsUint64_toOption hn]

/-! ### The handlers of the top level and of the info -/

theorem parseAnnounce_of_carries (h : Carries m r e t) (s : TorrentMetainfo) :
    (parseAnnounce m max s e).toOption =
      (Content.announce max t).map fun url => { s with tracker_url_utf8 := url } := by
  rw [parseAnnounce, toOption_bind, elementRefAsString, elementRefAs_toOption, Content.announce, Content.part]
  rcases h.asString with ⟨he, ht⟩ | ⟨v, text, he, ht, hv⟩
  · rw [he, ht]
    rfl
  · rw [he, ht, Option.bind_some, Option.bind_some]
    by_cases hempty : text = []
    · rw [if_neg (not_not_intro ((size_eq_zero_iff hv).mpr hempty)), if_pos hempty]
      rfl
    · rw [if_pos fun h0 => hempty ((size_eq_zero_iff hv).mp h0), if_neg hempty, toOption_bind, assign_toOption hv,
        Option.bind_some, Option.map_eq_bind]
      rfl

theorem parseInfoName_of_carries (h : Carries m r e t) (s : TorrentMetainfo) :
    (parseInfoName m max s e).toOption = (Content.name max t).map fun name =>
      if name = [] then s else { s with info.suggested_name_utf8 := name } := by
  rw [parseInfoName, toOption_bind, elementRefAsString, elementRefAs_toOption, Content.name]
  rcases h.asString with ⟨he, ht⟩ | ⟨v, text, he, ht, hv⟩
  · rw [he, ht]
    rfl
  · rw [he, ht, Option.bind_some, Option.bind_some]
    by_cases hempty : text = []
    · rw [if_neg (not_not_intro ((size_eq_zero_iff hv).mpr hempty)), hempty]
      rfl
    · rw [if_pos fun h0 => hempty ((size_eq_zero_iff hv).mp h0), toOption_bind, assign_toOption hv, Content.fitting]
      split
      · simp only [Option.bind_some, Option.map_some, hempty, ↓reduceIte]
        rfl
      · rfl

theorem parseInfoPieceLength_of_carries (h : Carries m r e t) (s : TorrentMetainfo) :
    (parseInfoPieceLength m s e).toOption = (Content.number t).map fun n =>
      { s with info.piece_length_bytes := n } := by
  rw [parseInfoPieceLength, toOption_bind, elementRefAsInteger, elementRefAs_toOption, ← number_of_carries h,
    Option.map_eq_bind, Option.bind_assoc]
  refine Option.bind_congr fun n _ => ?_
  rw [toOption_bind]
  rfl

theorem parseInfoPieces_of_carries (h : Carries m r e t) (s : TorrentMetainfo) :
    (parseInfoPieces m max s e).toOption = (Content.pieces max t).map fun hashes =>
      { s with info.pieces_SHA1 := hashes } := by
  rw [parseInfoPieces, toOption_bind, elementRefAsString, elementRefAs_toOption, Content.pieces, Content.part]
  rcases h.asString with ⟨he, ht⟩ | ⟨v, text, he, ht, hv⟩
  · rw [he, ht]
    rfl
  · rw [he, ht, Option.bind_some, Option.bind_some]
    rw [toNat_size hv, hv]
    by_cases hempty : text = []
    · rw [if_pos (.inl (List.length_eq_zero_iff.mpr hempty)), if_pos hempty]
      rfl
    · rw [if_neg hempty, Option.bind_some]
      by_cases hmod : text.length % kSHA1Length = 0
      · rw [if_neg (not_or.mpr ⟨fun h0 => hempty (List.length_eq_zero_iff.mp h0), not_not_intro hmod⟩)]
        by_cases hmax : max.vector < text.length
        · have hnot : ¬ (text.length % kSHA1Length = 0 ∧ text.length ≤ max.vector) :=
            fun hfit => Nat.not_le_of_lt hmax hfit.2
          rw [if_neg hnot, if_pos hmax]
          rfl
        · have hfit : text.length % kSHA1Length = 0 ∧ text.length ≤ max.vector := ⟨hmod, Nat.le_of_not_lt hmax⟩
          rw [if_pos hfit, if_neg hmax]
          rfl
      · have hnot : ¬ (text.length % kSHA1Length = 0 ∧ text.length ≤ max.vector) := fun hfit => hmod hfit.1
        rw [if_neg hnot, if_pos (.inr hmod)]
        rfl

/-- The two alternatives exclude each other: the one that comes second fails. -/
theorem parseInfoLength_of_carries (h : Carries m r e t) (s : TorrentMetainfo) :
    (parseInfoLength m s e).toOption =
      if s.info.length_or_files ≠ .monostate then none
      else (Content.number t).map fun n => { s with info.length_or_files := .length n } := by
  rw [parseInfoLength]
  split
  · rfl
  · show (elementRefAsInteger e >>= fun n => parseAsUint64 m n >>= fun lengthBytes =>
      pure { s with info.length_or_files := .length lengthBytes }).toOption = _
    rw [toOption_bind, elementRefAsInteger, elementRefAs_toOption, ← number_of_carries h, Option.map_eq_bind,
      Option.bind_assoc]
    refine Option.bind_congr fun n _ => ?_
    rw [toOption_bind]
    rfl

/-! ### The files -/

theorem sum_length_add_one (texts : List (List UInt8)) :
    (texts.map fun text => text.length + 1).sum = (texts.map List.length).sum + texts.length := by
  induction texts with
  | nil => rfl
  | cons text texts ih =>
    rw [List.map_cons, List.sum_cons, ih, List.map_cons, List.sum_cons, List.length_cons]
    omega

theorem length_intercalate_cons (sep : UInt8) (text : List UInt8) (texts : List (List UInt8)) :
    ([sep].intercalate (text :: texts)).length = text.length + (texts.map fun text => text.length + 1).sum := by
  induction texts generalizing text with
  | nil => simp
  | cons next texts ih =>
    rw [List.intercalate_cons_cons, List.length_append, List.length_append, ih, List.map_cons, List.sum_cons,
      List.length_singleton]
    omega

/-- A string is written with a colon at least before it. -/
theorem length_of_string {text : List UInt8} (h : Content.string t = some text) : text.length + 1 ≤ t.bytes.length := by
  cases t with
  | str s =>
    cases h
    rw [Term.bytes, s.length_bytes, Str.header]
    omega
  | _ => cases h

theorem fitting_of_string {text : List UInt8} (h : Content.string t = some text) (hlen : t.bytes.length ≤ max.string) :
    Content.fitting max text = some text := by
  have hle := length_of_string h
  exact if_pos (by omega)

theorem length_of_value {entries : List (Str × Term)} {key : String} {t : Term}
    (h : Content.value entries key = some t) : t.bytes.length ≤ (entriesBytes entries).length := by
  induction entries with
  | nil => cases h
  | cons entry entries ih =>
    obtain ⟨s, t'⟩ := entry
    rw [entriesBytes, List.length_append, List.length_append]
    rw [Content.value, Content.byKey, List.map_cons] at h
    by_cases hkey : s.body = ascii key
    · simp only [hkey, Dispatch.first_cons_self, Option.some.injEq] at h
      rw [h]
      omega
    · rw [Dispatch.first_cons_of_ne hkey] at h
      have hle := ih h
      omega

theorem length_bytes_dict (entries : List (Str × Term)) :
    (Term.dict entries).bytes.length = (entriesBytes entries).length + 2 := by
  simp [Term.bytes]

/-- The components of a path are shorter than its text. -/
theorem sum_lengths_le {items : List Term} {texts : List (List UInt8)} (h : items.mapM Content.part = some texts) :
    (texts.map fun text => text.length + 1).sum ≤ (itemsBytes items).length := by
  induction items generalizing texts with
  | nil =>
    cases h
    exact Nat.zero_le _
  | cons t items ih =>
    rw [List.mapM_cons] at h
    obtain ⟨text, htext, h⟩ := Option.bind_eq_some_iff.mp h
    obtain ⟨rest, hrest, h⟩ := Option.bind_eq_some_iff.mp h
    cases h
    obtain ⟨_, hstring, hpart⟩ := Option.bind_eq_some_iff.mp htext
    split at hpart
    · cases hpart
    · cases hpart
      have hle := length_of_string hstring
      have hle' := ih hrest
      rw [List.map_cons, List.sum_cons, itemsBytes, List.length_append]
      omega

theorem pathParts_of_carries {es : ListRef} {items : List Term} (h : ItemsCarry m r es items) :
    (items.mapM Content.part = none ∧ ∃ error, pathParts es = .error error) ∨
      ∃ names texts, items.mapM Content.part = some texts ∧ names.map (StringView.read m) = texts ∧
        pathParts es = .ok (names, UInt64.ofNat (texts.map List.length).sum) := by
  induction items generalizing es with
  | nil =>
    obtain rfl := h.nil
    exact .inr ⟨[], [], rfl, rfl, rfl⟩
  | cons t items ih =>
    obtain ⟨e, es, rfl, he, hes⟩ := h.cons
    rw [List.mapM_cons]
    rcases he.asString with ⟨has, ht⟩ | ⟨v, text, has, ht, hv⟩
    · refine .inl ⟨by rw [Content.part, ht]; rfl, .code .notString, ?_⟩
      rw [pathParts, elementRefAsString, elementRefAs, has]
      rfl
    · have hpart : Content.part t = if text = [] then none else some text := by rw [Content.part, ht, Option.bind_some]
      have hstring : elementRefAsString e = .ok v := by rw [elementRefAsString, elementRefAs, has]
      by_cases hempty : text = []
      · refine .inl ⟨by rw [hpart, if_pos hempty]; rfl, .code .emptyMultiFileName, ?_⟩
        rw [pathParts, hstring, ok_bind, if_pos ((size_eq_zero_iff hv).mpr hempty)]
        rfl
      · have hsize : ¬ v.size = 0 := fun h0 => hempty ((size_eq_zero_iff hv).mp h0)
        rw [hpart, if_neg hempty]
        rcases ih hes with ⟨hnone, error, herror⟩ | ⟨names, texts, hsome, hnames, hparts⟩
        · refine .inl ⟨by rw [hnone]; rfl, error, ?_⟩
          rw [pathParts, hstring, ok_bind, if_neg hsize, herror]
          rfl
        · refine .inr ⟨v :: names, text :: texts, by rw [hsome]; rfl, by rw [List.map_cons, hv, hnames], ?_⟩
          have hv64 : v.size = UInt64.ofNat text.length := by rw [← toNat_size hv, UInt64.ofNat_toNat]
          rw [pathParts, hstring, ok_bind, if_neg hsize, hparts, List.map_cons, List.sum_cons, UInt64.ofNat_add, ← hv64]
          rfl

theorem joinParts_eq {names : List StringRef} {before : List UInt8}
    (h : before.length + ([47].intercalate (names.map (StringView.read m))).length ≤ max.string) :
    joinParts m max before names = .ok (before ++ [47].intercalate (names.map (StringView.read m))) := by
  induction names generalizing before with
  | nil => rw [joinParts, List.map_nil, List.intercalate_nil, List.append_nil]
  | cons name names ih =>
    cases names with
    | nil =>
      rw [List.map_cons, List.map_nil, List.intercalate_singleton] at h ⊢
      rw [joinParts, append, if_pos h]
    | cons next names =>
      rw [List.map_cons, List.map_cons, List.intercalate_cons_cons, List.length_append, List.length_append,
        List.length_singleton] at h
      rw [joinParts, append, if_pos (by omega), ok_bind, append, if_pos (by simp; omega), ok_bind, ih]
      · simp only [List.map_cons, List.intercalate_cons_cons, List.append_assoc]
      · rw [List.map_cons, List.length_append, List.length_append, List.length_singleton]
        omega
      · exact List.cons_ne_nil next names

/-- The path is joined where it fits; its length does not wrap. -/
theorem joinUTF8PartsToString_toOption {names : List StringRef} {texts : List (List UInt8)}
    (hnames : names.map (StringView.read m) = texts) (hlt : (texts.map fun text => text.length + 1).sum < 2 ^ 64) :
    (joinUTF8PartsToString m max names (UInt64.ofNat (texts.map List.length).sum)).toOption =
      Content.fitting max ([47].intercalate texts) := by
  cases names with
  | nil =>
    subst hnames
    exact (if_pos (Nat.zero_le _)).symm
  | cons name names =>
    have hlength : ([47].intercalate texts).length + 1 = (texts.map fun text => text.length + 1).sum := by
      rw [← hnames, List.map_cons, length_intercalate_cons, List.map_cons, List.sum_cons]
      omega
    have hcount : (name :: names).length = texts.length := by rw [← hnames, List.length_map]
    have hsize : (UInt64.ofNat (texts.map List.length).sum + UInt64.ofNat ((name :: names).length - 1)).toNat =
        ([47].intercalate texts).length := by
      rw [sum_length_add_one] at hlength hlt
      rw [List.length_cons] at hcount ⊢
      rw [UInt64.toNat_add, UInt64.toNat_ofNat', UInt64.toNat_ofNat']
      omega
    rw [joinUTF8PartsToString, if_neg (List.cons_ne_nil _ _), Content.fitting]
    dsimp only
    rw [hsize]
    by_cases hmax : max.string < ([47].intercalate texts).length
    · rw [if_pos hmax, if_neg (Nat.not_le_of_lt hmax)]
      rfl
    · rw [if_neg hmax, if_pos (Nat.le_of_not_lt hmax), joinParts_eq (m := m) (by rw [hnames]; simpa using hmax), hnames]
      rfl

theorem length_itemsBytes_lt {items : List Term} (h : Carries m r e t) (ht : Content.list t = some items) :
    (itemsBytes items).length < 2 ^ 64 := by
  cases t with
  | list items' =>
    cases ht
    cases e with
    | list es position =>
      have hspan := h.2.1
      have hend := position.end_.toNat_lt
      simp only [Term.bytes, List.length_append, List.length_cons, List.length_nil] at hspan
      omega
    | _ => exact h.elim
  | _ => cases ht

theorem parseInfoFilesFile_of_carries {length components : ElementRef} {lengthTerm componentsTerm : Term}
    (hlength : Carries m r length lengthTerm) (hcomponents : Carries m r components componentsTerm) :
    (parseInfoFilesFile m max length components).toOption =
      (Content.number lengthTerm).bind fun n => (Content.path max componentsTerm).map fun path => ⟨n, path⟩ := by
  rw [parseInfoFilesFile, toOption_bind, elementRefAsInteger, elementRefAs_toOption, Content.number]
  rcases hlength.asInteger with ⟨he, ht⟩ | ⟨n, z, he, ht, hn⟩
  · rw [he, ht]
    rfl
  · rw [he, ht, Option.bind_some, Option.bind_some, toOption_bind, elementRefAsList, elementRefAs_toOption, Content.path]
    rcases hcomponents.asList with ⟨he, ht⟩ | ⟨es, items, he, ht, hes⟩
    · rw [he, ht]
      exact (Option.bind_fun_none _).symm
    · have hlt := length_itemsBytes_lt hcomponents ht
      rw [he, ht, Option.bind_some, toOption_bind, parseAsUint64_toOption hn]
      refine congrArg _ (funext fun lengthBytes => ?_)
      rw [toOption_bind]
      rcases pathParts_of_carries hes with ⟨hnone, error, herror⟩ | ⟨names, texts, hsome, hnames, hparts⟩
      · rw [herror, Option.bind_some, hnone]
        rfl
      · rw [hparts, Option.bind_some, hsome, Option.bind_some,
          ← joinUTF8PartsToString_toOption hnames (Nat.lt_of_le_of_lt (sum_lengths_le hsome) hlt), Option.map_eq_bind]
        exact toOption_bind _ _

theorem equals_iff {v : StringView} {text key : List UInt8} (h : v.read m = text) : v.equals m key = true ↔ text = key := by
  simp only [StringView.equals, Bool.and_eq_true, beq_iff_eq, toNat_size h, h]
  exact ⟨fun h => h.2, fun h => ⟨congrArg List.length h, h⟩⟩

/-- The first element with a key carries the first value of the key. -/
theorem find_of_carries {data : DictionaryRef} {entries : List (Str × Term)} (h : EntriesCarry m r data entries)
    (key : List UInt8) :
    (data.find? (fun entry => entry.1.equals m key) = none ∧ Dispatch.first (Content.byKey entries) key = none) ∨
      ∃ k e t, data.find? (fun entry => entry.1.equals m key) = some (k, e) ∧
        Dispatch.first (Content.byKey entries) key = some t ∧ Carries m r e t := by
  induction entries generalizing data with
  | nil =>
    obtain rfl := h.nil
    exact .inl ⟨rfl, rfl⟩
  | cons entry entries ih =>
    obtain ⟨s, t⟩ := entry
    obtain ⟨v, e, rest, rfl, hv, he, hrest⟩ := h.cons
    by_cases hkey : s.body = key
    · refine .inr ⟨v, e, t, List.find?_cons_of_pos ((equals_iff hv).mpr hkey), ?_, he⟩
      rw [← hkey]
      exact Dispatch.first_cons_self _ _ _
    · have hnot : ¬ v.equals m key = true := fun h' => hkey ((equals_iff hv).mp h')
      have hfind : ((v, e) :: rest).find? (fun entry => entry.1.equals m key) =
          rest.find? fun entry => entry.1.equals m key := List.find?_cons_of_neg hnot
      have hfirst : Dispatch.first (Content.byKey ((s, t) :: entries)) key = Dispatch.first (Content.byKey entries) key :=
        Dispatch.first_cons_of_ne hkey _ _
      rw [hfind, hfirst]
      exact ih hrest

theorem parseFile_of_carries (h : Carries m r e t) : (parseFile m max e).toOption = Content.file max t := by
  rw [parseFile, toOption_bind, elementRefAsDictionary, elementRefAs_toOption, Content.file]
  rcases h.asDictionary with ⟨he, ht⟩ | ⟨data, entries, he, ht, hdata⟩
  · rw [he, ht]
    rfl
  · rw [he, ht, Option.bind_some, Option.bind_some]
    simp only [Content.value]
    rcases find_of_carries hdata (ascii "length") with ⟨hfind, hfirst⟩ | ⟨k, length, lengthTerm, hfind, hfirst, hlength⟩
    · rw [hfind, hfirst]
      rfl
    · rcases find_of_carries hdata (ascii "path") with ⟨hfind', hfirst'⟩ | ⟨k', path, pathTerm, hfind', hfirst', hpath⟩
      · rw [hfind, hfirst, hfind', hfirst']
        rfl
      · rw [hfind, hfirst, hfind', hfirst']
        exact parseInfoFilesFile_of_carries hlength hpath

theorem mapM_parseFile {es : ListRef} {items : List Term} (h : ItemsCarry m r es items) :
    (es.mapM (parseFile m max)).toOption = items.mapM (Content.file max) := by
  induction items generalizing es with
  | nil =>
    obtain rfl := h.nil
    rfl
  | cons t items ih =>
    obtain ⟨e, es, rfl, he, hes⟩ := h.cons
    rw [List.mapM_cons, List.mapM_cons, toOption_bind, parseFile_of_carries he]
    refine congrArg _ (funext fun file => ?_)
    rw [toOption_bind, ih hes]
    rfl

theorem parseInfoFiles_of_carries (h : Carries m r e t) (s : TorrentMetainfo) :
    (parseInfoFiles m max s e).toOption =
      if s.info.length_or_files ≠ .monostate then none
      else (Content.files max t).map fun files => { s with info.length_or_files := .files files } := by
  rw [parseInfoFiles, Content.files]
  split
  · rfl
  · show (elementRefAsList e >>= fun list => list.mapM (parseFile m max) >>= fun files =>
      if files = [] then _ else pure { s with info.length_or_files := .files files }).toOption = _
    rw [toOption_bind, elementRefAsList, elementRefAs_toOption]
    rcases h.asList with ⟨he, ht⟩ | ⟨es, items, he, ht, hes⟩
    · rw [he, ht]
      rfl
    · rw [he, ht, Option.bind_some, Option.bind_some, toOption_bind, mapM_parseFile hes, Option.map_bind]
      refine congrArg _ (funext fun files => ?_)
      by_cases hempty : files = []
      · rw [if_pos hempty, Function.comp_apply, if_pos hempty]
        rfl
      · rw [if_neg hempty, Function.comp_apply, if_neg hempty]
        rfl

/-! ### The trackers -/

theorem announceTier_of_carries {es : ListRef} {items : List Term} (h : ItemsCarry m r es items) (i : Nat)
    (s : TorrentMetainfo) :
    (announceTier m max i s es).toOption =
      (Content.tier max i items).map fun trackers => { s with multi_trackers := s.multi_trackers ++ trackers } := by
  induction items generalizing es s with
  | nil =>
    obtain rfl := h.nil
    simp [announceTier, Content.tier, Except.toOption]
  | cons t items ih =>
    obtain ⟨e, es, rfl, he, hes⟩ := h.cons
    rw [announceTier, Content.tier, Content.part]
    rcases he.asString with ⟨has, ht⟩ | ⟨v, text, has, ht, hv⟩
    · rw [has, ht]
      exact ih hes s
    · simp only [has, ht, Option.bind_some]
      by_cases hempty : text = []
      · rw [if_pos ((size_eq_zero_iff hv).mpr hempty), if_pos hempty]
        exact ih hes s
      · rw [if_neg fun h0 => hempty ((size_eq_zero_iff hv).mp h0), if_neg hempty, toOption_bind, assign_toOption hv,
          Option.map_bind]
        refine congrArg _ (funext fun url => ?_)
        rw [ih hes, Function.comp_apply, Option.map_map]
        simp only [Function.comp_def, List.append_assoc, List.singleton_append]

theorem announceTiers_of_carries {es : ListRef} {items : List Term} (h : ItemsCarry m r es items) (i : Nat)
    (s : TorrentMetainfo) :
    (announceTiers m max i s es).toOption =
      (Content.tiers max i items).map fun trackers => { s with multi_trackers := s.multi_trackers ++ trackers } := by
  induction items generalizing es s i with
  | nil =>
    obtain rfl := h.nil
    simp [announceTiers, Content.tiers, Except.toOption]
  | cons t items ih =>
    obtain ⟨e, es, rfl, he, hes⟩ := h.cons
    rw [announceTiers, Content.tiers]
    rcases he.asList with ⟨has, ht⟩ | ⟨urls, urlTerms, has, ht, hurls⟩
    · simp only [has, ht]
      exact ih hes (i + 1) s
    · simp only [has, ht]
      rw [toOption_bind, announceTier_of_carries hurls, Option.map_bind, Option.bind_map]
      refine congrArg _ (funext fun trackers => ?_)
      simp only [Function.comp_apply]
      rw [ih hes, Option.map_map]
      simp only [Function.comp_def, List.append_assoc]

theorem parseAnnounceList_of_carries (h : Carries m r e t) (s : TorrentMetainfo) :
    (parseAnnounceList m max s e).toOption =
      (Content.announceList max t).map fun trackers => { s with multi_trackers := s.multi_trackers ++ trackers } := by
  rw [parseAnnounceList, toOption_bind, elementRefAsList, elementRefAs_toOption, Content.announceList]
  rcases h.asList with ⟨he, ht⟩ | ⟨es, items, he, ht, hes⟩
  · rw [he, ht]
    rfl
  · rw [he, ht, Option.bind_some, Option.bind_some]
    exact announceTiers_of_carries hes 0 s

end

end BittorrentClient
