import BittorrentClient.Bencoding.Strtoull
import BittorrentClient.Theorems.Parser.Tokens

/-! The two branches of `ParseLength`: what each of them takes for a length, and where they differ. -/

namespace BittorrentClient
open Decimal

/-! ### strtoull -/

theorem isSpace_of_isDigit {d : UInt8} (h : isDigit d = true) : isSpace d = false := by
  have hd := isDigit_iff.mp h
  simp only [isSpace, Bool.or_eq_false_iff, beq_eq_false_iff_ne, ne_eq, ← UInt8.toNat_inj, Bool.and_eq_false_iff,
    decide_eq_false_iff_not, UInt8.le_iff_toNat_le, UInt8.reduceToNat]
  omega

/-- What `strtoull` takes for a number. -/
structure Numeral where
  spaces : List UInt8
  sign : List UInt8
  digits : List UInt8
  isSpace_of_mem : ∀ b ∈ spaces, isSpace b = true
  sign_eq : sign = [] ∨ sign = [43] ∨ sign = [45]
  digits_ne_nil : digits ≠ []
  isDigit_of_mem : ∀ d ∈ digits, isDigit d = true

namespace Numeral
variable (n : Numeral)

def text : List UInt8 := n.spaces ++ (n.sign ++ n.digits)

theorem length_text : n.text.length = n.spaces.length + n.sign.length + n.digits.length := by
  rw [text, List.length_append, List.length_append, Nat.add_assoc]

/-- None of its characters ends a text. -/
theorem ne_zero_of_mem {b : UInt8} (h : b ∈ n.text) : b ≠ 0 := by
  rintro rfl
  rcases List.mem_append.mp h with h | h
  · exact absurd (n.isSpace_of_mem 0 h) (by decide)
  · rcases List.mem_append.mp h with h | h
    · rcases n.sign_eq with hsign | hsign | hsign
      · rw [hsign] at h
        cases h
      · rw [hsign] at h
        exact absurd h (by decide)
      · rw [hsign] at h
        exact absurd h (by decide)
    · exact absurd (n.isDigit_of_mem 0 h) (by decide)

/-- Digits, and the sign before them, are no white space. -/
theorem not_isSpace_head (tail : List UInt8) : ∃ b rest, n.sign ++ n.digits ++ tail = b :: rest ∧ isSpace b = false := by
  rcases n.sign_eq with hsign | hsign | hsign
  · obtain ⟨d, ds, hds⟩ := List.exists_cons_of_ne_nil n.digits_ne_nil
    refine ⟨d, ds ++ tail, by rw [hsign, hds]; rfl, isSpace_of_isDigit (n.isDigit_of_mem d ?_)⟩
    rw [hds]
    exact List.mem_cons_self
  · exact ⟨43, n.digits ++ tail, by rw [hsign]; rfl, by decide⟩
  · exact ⟨45, n.digits ++ tail, by rw [hsign]; rfl, by decide⟩

theorem signOf_append (tail : List UInt8) : signOf (n.sign ++ (n.digits ++ tail)) = n.sign := by
  rcases n.sign_eq with hsign | hsign | hsign
  · obtain ⟨d, ds, hds⟩ := List.exists_cons_of_ne_nil n.digits_ne_nil
    have hd := isDigit_iff.mp (n.isDigit_of_mem d (by rw [hds]; exact List.mem_cons_self))
    rw [hsign, hds]
    simp only [List.nil_append, List.cons_append]
    unfold signOf
    split
    · rename_i heq
      cases heq
      exact absurd hd.1 (by decide)
    · rename_i heq
      cases heq
      exact absurd hd.1 (by decide)
    · rfl
  · rw [hsign]
    rfl
  · rw [hsign]
    rfl

/-- A number that no digit follows is read to its end. -/
theorem strtoull_text {tail : List UInt8} (h : tail.takeWhile isDigit = []) :
    strtoull (n.text ++ tail) = ⟨n.text.length, strtoullValue n.sign n.digits⟩ := by
  obtain ⟨b, rest, hhead, hb⟩ := n.not_isSpace_head tail
  have hnot : ¬isSpace b = true := by simp [hb]
  have hspaces : (n.text ++ tail).takeWhile isSpace = n.spaces := by
    rw [text, List.append_assoc, hhead, List.takeWhile_append_of_pos n.isSpace_of_mem, List.takeWhile_cons_of_neg hnot,
      List.append_nil]
  have hrest : (n.text ++ tail).dropWhile isSpace = n.sign ++ (n.digits ++ tail) := by
    rw [text, List.append_assoc, hhead, List.dropWhile_append_of_pos n.isSpace_of_mem, List.dropWhile_cons_of_neg hnot,
      ← hhead, List.append_assoc]
  rw [strtoull, hspaces, hrest, n.signOf_append, List.drop_left' rfl, List.takeWhile_append_of_pos n.isDigit_of_mem, h,
    List.append_nil, if_neg (mt List.isEmpty_iff.mp n.digits_ne_nil), n.length_text]

end Numeral

theorem signOf_cases (text : List UInt8) :
    (signOf text = [] ∨ signOf text = [43] ∨ signOf text = [45]) ∧ text = signOf text ++ text.drop (signOf text).length := by
  unfold signOf
  split
  · exact ⟨.inr (.inl rfl), rfl⟩
  · exact ⟨.inr (.inr rfl), rfl⟩
  · exact ⟨.inl rfl, rfl⟩

/-- Where `strtoull` reads something, it reads a number. -/
theorem exists_numeral {text : List UInt8} (h : (strtoull text).parseEnd ≠ 0) :
    ∃ (n : Numeral) (tail : List UInt8), text = n.text ++ tail ∧
      strtoull text = ⟨n.text.length, strtoullValue n.sign n.digits⟩ := by
  obtain ⟨hsign, hrest⟩ := signOf_cases (text.dropWhile isSpace)
  generalize hafter : (text.dropWhile isSpace).drop (signOf (text.dropWhile isSpace)).length = after at hrest
  have hne : after.takeWhile isDigit ≠ [] := by
    intro hnil
    rw [strtoull, hafter, if_pos (List.isEmpty_iff.mpr hnil)] at h
    exact h rfl
  let n : Numeral :=
    { spaces := text.takeWhile isSpace
      sign := signOf (text.dropWhile isSpace)
      digits := after.takeWhile isDigit
      isSpace_of_mem := fun b hb => List.mem_takeWhile_imp hb
      sign_eq := hsign
      digits_ne_nil := hne
      isDigit_of_mem := fun d hd => List.mem_takeWhile_imp hd }
  refine ⟨n, after.dropWhile isDigit, ?_, ?_⟩
  · rw [Numeral.text, List.append_assoc, List.append_assoc, List.takeWhile_append_dropWhile, ← hrest,
      List.takeWhile_append_dropWhile]
  · rw [strtoull, hafter, if_neg (mt List.isEmpty_iff.mp hne), n.length_text]

/-! ### The copy -/

theorem length_strncpy (src : List UInt8) : (strncpy src src.length).length = src.length := by
  have hle : ((src.take src.length).takeWhile (· ≠ 0)).length ≤ src.length :=
    Nat.le_trans (List.takeWhile_sublist _).length_le (by simp)
  rw [strncpy, List.length_append, List.length_replicate]
  omega

/-- A text without a zero byte is copied, and no other copy is free of them. -/
theorem strncpy_eq_self {src : List UInt8} (h : ∀ b ∈ src, b ≠ 0) : strncpy src src.length = src := by
  rw [strncpy, List.take_length, List.takeWhile_eq_self_iff.mpr (by simpa using h), Nat.sub_self, List.replicate_zero,
    List.append_nil]

theorem eq_of_strncpy {src : List UInt8} (h : ∀ b ∈ strncpy src src.length, b ≠ 0) : strncpy src src.length = src := by
  refine strncpy_eq_self ?_
  intro b hb hzero
  have hshort : (src.takeWhile (· ≠ 0)).length < src.length := by
    refine Nat.lt_of_le_of_ne (List.takeWhile_sublist _).length_le ?_
    intro hlen
    have hself : src.takeWhile (· ≠ 0) = src := (List.takeWhile_sublist _).eq_of_length hlen
    exact absurd hzero (of_decide_eq_true (List.takeWhile_eq_self_iff.mp hself b hb))
  refine h 0 ?_ rfl
  rw [strncpy, List.take_length]
  exact List.mem_append_right _ (List.mem_replicate.mpr ⟨Nat.sub_ne_zero_of_lt hshort, rfl⟩)

/-! ### The two branches -/

/-- The text of a length: digits, and the number that they write. -/
def IsLength (str : List UInt8) (length : UInt64) : Prop :=
  str ≠ [] ∧ (∀ d ∈ str, isDigit d = true) ∧ value str = length.toNat

theorem parseLength_iff {str : List UInt8} {v : UInt64} : parseLength str = some v ↔ IsLength str v := by
  constructor
  · intro h
    have hend : (fromChars str).ptr = str.length ∧ (fromChars str).ec = .ok := by
      rw [parseLength] at h
      split at h
      · cases h
      · rename_i hok
        exact ⟨not_not.mp fun hne => hok (.inl hne), not_not.mp fun hne => hok (.inr hne)⟩
    have hdigits : ∃ d ∈ str, isDigit d = true := by
      by_contra hnone
      have hnil : str.takeWhile isDigit = [] := by
        cases str with
        | nil => rfl
        | cons d str => exact List.takeWhile_cons_of_neg fun hd => hnone ⟨d, List.mem_cons_self, hd⟩
      rw [fromChars, if_pos (List.isEmpty_iff.mpr hnil)] at hend
      cases hend.2
    have hne : str ≠ [] := by
      rintro rfl
      obtain ⟨d, hd, -⟩ := hdigits
      cases hd
    have hall : ∀ d ∈ str, isDigit d = true := by
      refine List.takeWhile_eq_self_iff.mp ((List.takeWhile_sublist isDigit).eq_of_length ?_)
      rw [fromChars] at hend
      split at hend
      · cases hend.2
      · split at hend
        · exact hend.1
        · exact hend.1
    rw [parseLength_digits hne hall] at h
    split at h
    · rename_i hlt
      cases h
      exact ⟨hne, hall, (UInt64.toNat_ofNat_of_lt' hlt).symm⟩
    · cases h
  · rintro ⟨hne, hall, hvalue⟩
    rw [parseLength_digits hne hall, hvalue, if_pos v.toNat_lt, UInt64.ofNat_toNat]

/-- Without `std::from_chars`, a number in at most 19 characters is taken, with its white space and its sign. -/
theorem parseLengthFallback_iff {str : List UInt8} {v : UInt64} :
    parseLengthFallback str = some v ↔
      str.length < kBufSize ∧ ∃ n : Numeral, n.text = str ∧ strtoullValue n.sign n.digits = v := by
  constructor
  · intro h
    rw [parseLengthFallback] at h
    split at h
    · cases h
    · rename_i hsize
      dsimp only at h
      split at h
      · rename_i hend
        have hread : (strtoull (strncpy str str.length ++ [0])).parseEnd ≠ 0 := by rw [hend.2]; exact hend.1
        obtain ⟨n, tail, htext, hresult⟩ := exists_numeral hread
        rw [hresult] at hend
        have hcopy : strncpy str str.length = n.text :=
          (List.append_inj htext ((length_strncpy str).trans hend.2.symm)).1
        have hself := eq_of_strncpy (hcopy ▸ fun b hb => n.ne_zero_of_mem hb)
        refine ⟨by omega, n, hcopy.symm.trans hself, ?_⟩
        rw [← Option.some.inj h, hresult]
      · cases h
  · rintro ⟨hlen, n, rfl, rfl⟩
    have hne : n.text.length ≠ 0 := by
      rw [n.length_text]
      have := List.length_pos_of_ne_nil n.digits_ne_nil
      omega
    rw [parseLengthFallback, if_neg (by omega)]
    simp only [strncpy_eq_self fun b hb => n.ne_zero_of_mem hb]
    rw [n.strtoull_text (by decide), if_pos ⟨hne, rfl⟩]

/-- Both branches take exactly the lengths, for what they are. -/
structure LengthsAgree (str : List UInt8) : Prop where
  agree : parseLength str = parseLengthFallback str
  chars : ∀ v, parseLength str = some v ↔ IsLength str v
  fallback : ∀ v, parseLengthFallback str = some v ↔ IsLength str v

/-- A length has at most 19 digits, and a number of at most 19 characters has neither white space nor a sign. -/
structure CommonLength (str : List UInt8) : Prop where
  short : ∀ v, IsLength str v → str.length < kBufSize
  bare : ∀ n : Numeral, n.text = str → str.length < kBufSize → n.spaces = [] ∧ n.sign = []

theorem Numeral.bare_of_digits (n : Numeral) (h : ∀ d ∈ n.text, isDigit d = true) : n.spaces = [] ∧ n.sign = [] := by
  refine ⟨?_, ?_⟩
  · refine List.eq_nil_iff_forall_not_mem.mpr ?_
    intro b hb
    have hspace := n.isSpace_of_mem b hb
    rw [isSpace_of_isDigit (h b (List.mem_append_left _ hb))] at hspace
    cases hspace
  · have hmem : ∀ b ∈ n.sign, isDigit b = true := fun b hb => h b (List.mem_append_right _ (List.mem_append_left _ hb))
    rcases n.sign_eq with hsign | hsign | hsign
    · exact hsign
    · exact absurd (hmem 43 (by rw [hsign]; exact List.mem_cons_self)) (by decide)
    · exact absurd (hmem 45 (by rw [hsign]; exact List.mem_cons_self)) (by decide)

/-- At most 19 digits are read as what they write. -/
theorem toNat_strtoullValue {digits : List UInt8} (h : ∀ d ∈ digits, isDigit d = true) (hlen : digits.length < kBufSize) :
    (strtoullValue [] digits).toNat = value digits := by
  have hlt : value digits < 2 ^ 64 :=
    Nat.lt_of_lt_of_le (value_lt h)
      (Nat.le_trans (Nat.pow_le_pow_right (by decide) (Nat.le_of_lt_succ hlen)) (by decide))
  rw [strtoullValue, if_pos hlt, if_neg (by decide), UInt64.toNat_ofNat_of_lt' hlt]

theorem lengthsAgree_iff (str : List UInt8) : LengthsAgree str ↔ CommonLength str := by
  constructor
  · intro h
    refine ⟨?_, ?_⟩
    · intro v hv
      exact (parseLengthFallback_iff.mp ((h.fallback v).mpr hv)).1
    · intro n hn hlen
      obtain ⟨-, hdigits, -⟩ := (h.fallback _).mp (parseLengthFallback_iff.mpr ⟨hlen, n, hn, rfl⟩)
      exact n.bare_of_digits (hn.symm ▸ hdigits)
  · intro h
    have hfallback : ∀ v, parseLengthFallback str = some v ↔ IsLength str v := by
      intro v
      rw [parseLengthFallback_iff]
      constructor
      · rintro ⟨hlen, n, hn, rfl⟩
        obtain ⟨hspaces, hsign⟩ := h.bare n hn hlen
        have hstr : n.digits = str := by rw [← hn, Numeral.text, hspaces, hsign, List.nil_append, List.nil_append]
        refine ⟨hstr ▸ n.digits_ne_nil, hstr ▸ n.isDigit_of_mem, ?_⟩
        rw [hsign, ← hstr, toNat_strtoullValue n.isDigit_of_mem (hstr ▸ hlen)]
      · intro hv
        obtain ⟨hne, hdigits, hvalue⟩ := hv
        have hlen := h.short v ⟨hne, hdigits, hvalue⟩
        refine ⟨hlen, ⟨[], [], str, fun b hb => absurd hb List.not_mem_nil, .inl rfl, hne, hdigits⟩, rfl, ?_⟩
        rw [← UInt64.toNat_inj, toNat_strtoullValue hdigits hlen, hvalue]
    refine ⟨?_, fun v => parseLength_iff, hfallback⟩
    refine Option.ext ?_
    intro v
    rw [parseLength_iff, hfallback]

/-- A minus sign is taken by one branch only, and 20 digits by the other one only. -/
theorem not_lengthsAgree_minusOne :
    ¬LengthsAgree (FlatMemory.ascii "-1") ∧ ¬LengthsAgree (FlatMemory.ascii "18446744073709551615") := by
  refine ⟨?_, ?_⟩
  · intro h
    exact absurd h.agree (by decide)
  · intro h
    exact absurd h.agree (by decide)

end BittorrentClient
