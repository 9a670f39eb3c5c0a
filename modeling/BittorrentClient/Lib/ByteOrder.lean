import Mathlib.Data.List.Basic
import Mathlib.Data.Nat.Bitwise

/-! Numbers as runs of bytes of a fixed width, in either byte order. -/

namespace ByteOrder

/-- The number whose bytes these are, the least significant one first. -/
def ofLittle (bytes : List UInt8) : Nat := bytes.foldr (fun b n => b.toNat + 2 ^ 8 * n) 0

/-- The number whose bytes these are, the most significant one first. -/
def ofBig (bytes : List UInt8) : Nat := ofLittle bytes.reverse

/-- The `width` low bytes of a number, the least significant one first. -/
def toLittle (width n : Nat) : List UInt8 := (List.range width).map fun k => UInt8.ofNat (n / 2 ^ (8 * k))

def toBig (width n : Nat) : List UInt8 := (toLittle width n).reverse

/-- The field of `size` bytes at an offset. -/
def bigField (bytes : List UInt8) (offset size : Nat) : Nat := ofBig ((bytes.drop offset).take size)

theorem bigField_take {bytes : List UInt8} {offset size n : Nat} (h : offset + size ≤ n) :
    bigField (bytes.take n) offset size = bigField bytes offset size := by
  rw [bigField, bigField, List.drop_take, List.take_take, Nat.min_eq_left (by omega)]

@[simp] theorem length_toLittle (width n : Nat) : (toLittle width n).length = width := by simp [toLittle]

@[simp] theorem length_toBig (width n : Nat) : (toBig width n).length = width := by simp [toBig]

theorem toLittle_succ (width n : Nat) :
    toLittle (width + 1) n = UInt8.ofNat n :: toLittle width (n / 2 ^ 8) := by
  rw [toLittle, List.range_succ_eq_map, List.map_cons, List.map_map, toLittle]
  refine congrArg₂ _ (by simp) (List.map_congr_left ?_)
  intro k _
  rw [Function.comp_apply, Nat.div_div_eq_div_mul, ← Nat.pow_add, Nat.succ_eq_add_one, Nat.mul_add, Nat.add_comm]

theorem ofLittle_cons (b : UInt8) (bytes : List UInt8) : ofLittle (b :: bytes) = b.toNat + 2 ^ 8 * ofLittle bytes := rfl

theorem ofLittle_lt (bytes : List UInt8) : ofLittle bytes < 2 ^ (8 * bytes.length) := by
  induction bytes with
  | nil => simp [ofLittle]
  | cons b bytes ih =>
    have hb := b.toNat_lt
    rw [ofLittle_cons, List.length_cons, Nat.mul_add, Nat.mul_one, Nat.pow_add]
    omega

theorem ofLittle_toLittle {width n : Nat} (h : n < 2 ^ (8 * width)) : ofLittle (toLittle width n) = n := by
  induction width generalizing n with
  | zero =>
    have hn : n = 0 := by simpa using h
    rw [hn]
    rfl
  | succ width ih =>
    rw [Nat.mul_add, Nat.mul_one, Nat.pow_add] at h
    rw [toLittle_succ, ofLittle_cons, ih (by omega), UInt8.toNat_ofNat']
    omega

theorem toLittle_ofLittle (bytes : List UInt8) : toLittle bytes.length (ofLittle bytes) = bytes := by
  induction bytes with
  | nil => rfl
  | cons b bytes ih =>
    have hb := b.toNat_lt
    have hlow : UInt8.ofNat (b.toNat + 2 ^ 8 * ofLittle bytes) = b := by
      rw [← UInt8.toNat_inj, UInt8.toNat_ofNat']
      omega
    have hhigh : (b.toNat + 2 ^ 8 * ofLittle bytes) / 2 ^ 8 = ofLittle bytes := by omega
    rw [List.length_cons, toLittle_succ, ofLittle_cons, hlow, hhigh, ih]

theorem ofBig_toBig {width n : Nat} (h : n < 2 ^ (8 * width)) : ofBig (toBig width n) = n := by
  rw [ofBig, toBig, List.reverse_reverse, ofLittle_toLittle h]

/-- Numbers whose bits are those of each other with the bytes in the other order. -/
theorem toLittle_eq_toBig {width m n : Nat}
    (h : ∀ i < 8 * width, m.testBit i = n.testBit (8 * (width - 1) - 8 * (i / 8) + i % 8)) :
    toLittle width m = toBig width n := by
  refine List.ext_getElem (by simp) ?_
  intro k hk _
  rw [length_toLittle] at hk
  simp only [toBig, toLittle, List.getElem_reverse, List.getElem_map, List.getElem_range, List.length_map,
    List.length_range]
  refine UInt8.eq_of_toBitVec_eq (BitVec.eq_of_getLsbD_eq ?_)
  intro i hi
  have hbit := h (8 * k + i) (by omega)
  simp only [UInt8.toBitVec_ofNat', BitVec.getLsbD_ofNat, Nat.testBit_div_two_pow]
  rw [Nat.add_comm i (8 * k), hbit]
  congr 2
  omega

theorem eq_ofBig {width m n : Nat} (hm : m < 2 ^ (8 * width)) (h : toLittle width m = toBig width n) :
    m = ofBig (toLittle width n) := by
  rw [← ofLittle_toLittle hm, h]
  rfl

/-- Bytes that are put in the other order twice are in the first one. -/
theorem eq_of_toLittle_eq_toBig {width l m n : Nat} (hl : l < 2 ^ (8 * width)) (hn : n < 2 ^ (8 * width))
    (h : toLittle width l = toBig width m) (h' : toLittle width m = toBig width n) : l = n := by
  have hbytes : toLittle width l = toLittle width n := by rw [h, toBig, h', toBig, List.reverse_reverse]
  rw [← ofLittle_toLittle hl, hbytes, ofLittle_toLittle hn]

/-! ### Fields one after the other -/

/-- Chunk `i` lies behind the chunks before it. -/
theorem take_drop_flatten {chunks : List (List UInt8)} {i offset size : Nat} {chunk : List UInt8}
    (hi : chunks[i]? = some chunk) (hoffset : (chunks.take i).flatten.length = offset) (hsize : chunk.length = size) :
    (chunks.flatten.drop offset).take size = chunk := by
  obtain ⟨hlt, hget⟩ := List.getElem?_eq_some_iff.mp hi
  have hsplit : chunks = chunks.take i ++ chunk :: chunks.drop (i + 1) := by
    rw [← hget, List.getElem_cons_drop, List.take_append_drop]
  have hflatten : chunks.flatten = (chunks.take i).flatten ++ (chunk ++ (chunks.drop (i + 1)).flatten) := by
    rw [← List.flatten_cons, ← List.flatten_append, ← hsplit]
  rw [hflatten, List.drop_left' hoffset, List.take_left' hsize]

theorem bigField_flatten {chunks : List (List UInt8)} {i offset size n : Nat} (hi : chunks[i]? = some (toBig size n))
    (hoffset : (chunks.take i).flatten.length = offset) (hn : n < 2 ^ (8 * size)) :
    bigField chunks.flatten offset size = n := by
  rw [bigField, take_drop_flatten hi hoffset (length_toBig size n), ofBig_toBig hn]

end ByteOrder
