import Mathlib.Data.List.Basic
import Mathlib.Data.Nat.Bitwise

/-! The bits of a run of bytes, in each byte the most significant one first. -/

namespace BitArray

/-- Bit `i`; the bits behind the end are not set. -/
def get (bytes : List UInt8) (i : Nat) : Bool :=
  match bytes[i / 8]? with
  | some b => b.toNat.testBit (7 - i % 8)
  | none => false

/-- The bytes with bit `i` set. -/
def set (bytes : List UInt8) (i : Nat) : List UInt8 :=
  bytes.modify (i / 8) fun b => b ||| UInt8.ofNat (2 ^ (7 - i % 8))

section
variable {bytes : List UInt8} {i j : Nat}

@[simp] theorem length_set (bytes : List UInt8) (i : Nat) : (set bytes i).length = bytes.length :=
  List.length_modify _ _ _

theorem toNat_mask (i : Nat) : (UInt8.ofNat (2 ^ (7 - i % 8))).toNat = 2 ^ (7 - i % 8) := by
  have hlt : 2 ^ (7 - i % 8) < 2 ^ 8 :=
    Nat.pow_lt_pow_right Nat.one_lt_two (Nat.lt_of_le_of_lt (Nat.sub_le _ _) (by decide))
  exact UInt8.toNat_ofNat_of_lt' hlt

/-- Setting a bit that is there sets it, and leaves the others as they are. -/
theorem get_set (h : i < 8 * bytes.length) (j : Nat) : get (set bytes i) j = (decide (j = i) || get bytes j) := by
  have hi : i / 8 < bytes.length := Nat.div_lt_of_lt_mul h
  by_cases hbyte : i / 8 = j / 8
  · have hbit : 7 - i % 8 = 7 - j % 8 ↔ j = i := by omega
    rw [get, get, set, ← hbyte, List.getElem?_modify_eq, List.getElem?_eq_getElem hi]
    simp only [Option.map_eq_map, Option.map_some, UInt8.toNat_or, Nat.testBit_or, toNat_mask, Nat.testBit_two_pow, hbit]
    exact Bool.or_comm _ _
  · have hne : j ≠ i := fun heq => hbyte (heq ▸ rfl)
    rw [get, get, set, List.getElem?_modify_ne _ _ hbyte, decide_eq_false hne, Bool.false_or]

end

end BitArray
