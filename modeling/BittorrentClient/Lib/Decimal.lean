import Mathlib.Data.Nat.Digits.Defs
import Mathlib.Data.Nat.Digits.Lemmas

/-! Decimal texts over bytes: the value of a run of digits, the text of a number, and that a run of
    digits without a leading zero is the text of its value. -/

namespace Decimal

/-- The ASCII digits `'0'` to `'9'`. -/
def isDigit (b : UInt8) : Bool := 48 ≤ b && b ≤ 57

/-- The value of a run of digits, most significant digit first. -/
def value (ds : List UInt8) : Nat := ds.foldl (fun n d => 10 * n + (d.toNat - 48)) 0

def digitByte (d : Nat) : UInt8 := UInt8.ofNat (48 + d)

def natText (n : Nat) : List UInt8 := if n = 0 then [48] else (Nat.digits 10 n).reverse.map digitByte

def intText : Int → List UInt8
  | .ofNat n => natText n
  | .negSucc n => 45 :: natText (n + 1)

theorem isDigit_iff {b : UInt8} : isDigit b = true ↔ 48 ≤ b.toNat ∧ b.toNat ≤ 57 := by
  simp [isDigit, UInt8.le_iff_toNat_le]

theorem toNat_digitByte {d : Nat} (h : d < 10) : (digitByte d).toNat = 48 + d := by
  simp only [digitByte, UInt8.toNat_ofNat']
  omega

theorem digitByte_toNat {b : UInt8} (h : isDigit b = true) : digitByte (b.toNat - 48) = b := by
  obtain ⟨hlo, hhi⟩ := isDigit_iff.mp h
  rw [← UInt8.toNat_inj, toNat_digitByte (by omega)]
  omega

theorem isDigit_digitByte {d : Nat} (h : d < 10) : isDigit (digitByte d) = true := by
  rw [isDigit_iff, toNat_digitByte h]
  omega

/-! ### Values -/

theorem value_append_singleton (ds : List UInt8) (d : UInt8) : value (ds ++ [d]) = 10 * value ds + (d.toNat - 48) := by
  simp [value, List.foldl_append]

/-- The value is the base 10 value of the digits, which `Nat.ofDigits` reads from the least significant on. -/
theorem value_eq_ofDigits (ds : List UInt8) : value ds = Nat.ofDigits 10 (ds.reverse.map fun d => d.toNat - 48) := by
  induction ds using List.reverseRecOn with
  | nil => rfl
  | append_singleton ds d ih => simp [value_append_singleton, ih, Nat.ofDigits_cons, Nat.add_comm]

theorem value_lt {ds : List UInt8} (h : ∀ d ∈ ds, isDigit d = true) : value ds < 10 ^ ds.length := by
  rw [value_eq_ofDigits]
  refine Nat.lt_of_lt_of_eq (Nat.ofDigits_lt_base_pow_length (by decide) ?_) (by simp)
  intro k hk
  obtain ⟨d, hd, rfl⟩ := List.mem_map.mp hk
  have := isDigit_iff.mp (h d (List.mem_reverse.mp hd))
  omega

theorem value_natText (n : Nat) : value (natText n) = n := by
  unfold natText
  split
  · next h => simp [h, value]
  · have hdig : ((Nat.digits 10 n).map fun d => (digitByte d).toNat - 48) = Nat.digits 10 n := by
      conv_rhs => rw [← List.map_id (Nat.digits 10 n)]
      refine List.map_congr_left ?_
      intro d hd
      rw [toNat_digitByte (Nat.digits_lt_base (by decide) hd)]
      simp
    rw [value_eq_ofDigits, ← List.map_reverse, List.reverse_reverse, List.map_map]
    simp only [Function.comp_def, hdig, Nat.ofDigits_digits]

/-! ### Texts -/

theorem natText_ne_nil (n : Nat) : natText n ≠ [] := by
  unfold natText
  split
  · simp
  · next h => simpa [Nat.digits_eq_nil_iff_eq_zero] using h

theorem isDigit_of_mem_natText {n : Nat} {d : UInt8} (h : d ∈ natText n) : isDigit d = true := by
  unfold natText at h
  split at h
  · simp only [List.mem_singleton] at h
    subst h
    decide
  · obtain ⟨k, hk, rfl⟩ := List.mem_map.mp h
    exact isDigit_digitByte (Nat.digits_lt_base (by decide) (List.mem_reverse.mp hk))

/-- The text of a positive number starts with a digit other than `'0'`. -/
theorem natText_head {n : Nat} (hn : n ≠ 0) : ∃ d ds, natText n = d :: ds ∧ isDigit d = true ∧ d ≠ 48 := by
  have hne : Nat.digits 10 n ≠ [] := Nat.digits_ne_nil_iff_ne_zero.mpr hn
  have hlast : (Nat.digits 10 n).getLast hne ≠ 0 := Nat.getLast_digit_ne_zero 10 hn
  have hlt : (Nat.digits 10 n).getLast hne < 10 := Nat.digits_lt_base (by decide) (List.getLast_mem hne)
  refine ⟨digitByte ((Nat.digits 10 n).getLast hne), (Nat.digits 10 n).dropLast.reverse.map digitByte, ?_,
    isDigit_digitByte hlt, ?_⟩
  · have hsplit : (Nat.digits 10 n).reverse = (Nat.digits 10 n).getLast hne :: (Nat.digits 10 n).dropLast.reverse := by
      conv_lhs => rw [← List.dropLast_append_getLast hne]
      simp
    rw [natText, if_neg hn, hsplit, List.map_cons]
  · intro h
    have := congrArg UInt8.toNat h
    rw [toNat_digitByte hlt] at this
    exact hlast (by simpa using this)

/-- A run of digits without a leading zero is the text of its value. -/
theorem natText_value {ds : List UInt8} (hdig : ∀ d ∈ ds, isDigit d = true) (hne : ds ≠ [])
    (hlead : ds.head hne ≠ 48 ∨ ds = [48]) : natText (value ds) = ds := by
  rcases hlead with hlead | rfl
  · have hlt : ∀ d ∈ ds, d.toNat - 48 < 10 := fun d hd => by
      have := isDigit_iff.mp (hdig d hd)
      omega
    have hdigits : Nat.digits 10 (value ds) = ds.reverse.map fun d => d.toNat - 48 := by
      rw [value_eq_ofDigits]
      refine Nat.digits_ofDigits 10 (by decide) _ ?_ ?_
      · intro k hk
        obtain ⟨d, hd, rfl⟩ := List.mem_map.mp hk
        exact hlt d (List.mem_reverse.mp hd)
      · intro hne'
        have hhead := isDigit_iff.mp (hdig _ (List.head_mem hne))
        simp only [List.getLast_map, List.getLast_reverse]
        intro h0
        exact hlead (UInt8.toNat_inj.mp (by simp; omega))
    have hpos : value ds ≠ 0 := fun h0 => by
      rw [h0, Nat.digits_zero] at hdigits
      exact hne (by simpa using hdigits.symm)
    have hback : (ds.map fun d => digitByte (d.toNat - 48)) = ds := by
      conv_rhs => rw [← List.map_id ds]
      exact List.map_congr_left fun d hd => digitByte_toNat (hdig d hd)
    rw [natText, if_neg hpos, hdigits, ← List.map_reverse, List.reverse_reverse, List.map_map]
    simpa only [Function.comp_def] using hback
  · decide

/-! ### Signed texts -/

/-- A run of digits without a leading zero is the text of an integer. -/
theorem exists_intText {ds : List UInt8} (hdig : ∀ d ∈ ds, isDigit d = true) (hne : ds ≠ [])
    (hlead : ds.head hne ≠ 48 ∨ ds = [48]) : ∃ z, intText z = ds :=
  ⟨.ofNat (value ds), natText_value hdig hne hlead⟩

/-- A minus sign and a run of digits that does not start with zero is the text of an integer. -/
theorem exists_intText_neg {ds : List UInt8} (hdig : ∀ d ∈ ds, isDigit d = true) (hne : ds ≠ [])
    (hlead : ds.head hne ≠ 48) : ∃ z, intText z = 45 :: ds := by
  have htext := natText_value hdig hne (.inl hlead)
  obtain ⟨n, hn⟩ : ∃ n, value ds = n + 1 := Nat.exists_eq_succ_of_ne_zero fun h0 => by
    rw [h0] at htext
    simp only [natText, ↓reduceIte] at htext
    exact hlead (by simp [← htext])
  exact ⟨.negSucc n, by rw [intText, ← hn, htext]⟩

/-- The text of an integer is a run of digits, which starts with zero only for zero, or a minus sign
    before a run of digits that does not start with zero. -/
theorem intText_cases (z : Int) :
    (∃ d ds, intText z = d :: ds ∧ (∀ x ∈ d :: ds, isDigit x = true) ∧ (d = 48 → ds = [])) ∨
      ∃ d ds, intText z = 45 :: d :: ds ∧ (∀ x ∈ d :: ds, isDigit x = true) ∧ d ≠ 48 := by
  cases z with
  | ofNat n =>
    by_cases hn : n = 0
    · subst hn
      exact .inl ⟨48, [], rfl, List.forall_mem_singleton.mpr rfl, fun _ => rfl⟩
    · obtain ⟨d, ds, hds, -, h0⟩ := natText_head hn
      exact .inl ⟨d, ds, hds, fun x hx => isDigit_of_mem_natText (hds ▸ hx), fun h => absurd h h0⟩
  | negSucc n =>
    obtain ⟨d, ds, hds, -, h0⟩ := natText_head (Nat.succ_ne_zero n)
    exact .inr ⟨d, ds, by rw [intText, ← hds], fun x hx => isDigit_of_mem_natText (hds ▸ hx), h0⟩

end Decimal
