import Mathlib.Algebra.Group.Nat.Defs
import Mathlib.Data.List.GetD
import Mathlib.Data.Nat.Basic

/-! A flat 64-bit address space. Addresses are `UInt64`, so that address arithmetic is taken modulo
    `2 ^ 64`; a `Region` is a run of bytes that lies inside the space together with its end address. -/

namespace FlatMemory

abbrev Memory := UInt64 → UInt8

/-- The `n` bytes from address `a` on. -/
def read (m : Memory) (a : UInt64) : Nat → List UInt8
  | 0 => []
  | n + 1 => m a :: read m (a + 1) n

theorem ofNat_succ (i : Nat) : UInt64.ofNat (i + 1) = UInt64.ofNat i + 1 := by
  simp [UInt64.ofNat_add]

theorem add_ofNat_add (a : UInt64) (i j : Nat) : a + UInt64.ofNat (i + j) = a + UInt64.ofNat i + UInt64.ofNat j := by
  simp [UInt64.ofNat_add, UInt64.add_assoc]

theorem add_ofNat_ne (a : UInt64) {k : Nat} (hpos : 0 < k) (hk : k < 2 ^ 64) : a + UInt64.ofNat k ≠ a := by
  intro heq
  have hnat := congrArg UInt64.toNat heq
  have hlt := a.toNat_lt
  rw [UInt64.toNat_add, UInt64.toNat_ofNat_of_lt' hk] at hnat
  omega

@[simp] theorem length_read (m : Memory) (a : UInt64) (n : Nat) : (read m a n).length = n := by
  induction n generalizing a with
  | zero => rfl
  | succ n ih => simp [read, ih]

theorem read_add (m : Memory) (a : UInt64) (i j : Nat) :
    read m a (i + j) = read m a i ++ read m (a + UInt64.ofNat i) j := by
  induction i generalizing a with
  | zero => simp [read]
  | succ i ih =>
    rw [show i + 1 + j = (i + j) + 1 by omega]
    simp only [read, ih, List.cons_append]
    rw [ofNat_succ, UInt64.add_comm (UInt64.ofNat i) 1, ← UInt64.add_assoc]

/-! ### Regions -/

/-- A run of `size` bytes at `data` whose end address does not wrap. -/
structure Region where
  data : UInt64
  size : UInt64
  fits : data.toNat + size.toNat < 2 ^ 64

namespace Region
variable (r : Region) (m : Memory)

/-- The address of offset `i`, which may lie outside the region. -/
def addr (i : Nat) : UInt64 := r.data + UInt64.ofNat i

/-- The byte at offset `i`. -/
def byte (i : Nat) : UInt8 := m (r.addr i)

/-- The content of the region. -/
def bytes : List UInt8 := read m r.data r.size.toNat

/-- The bytes of the offsets `[i, j)`. -/
def slice (i j : Nat) : List UInt8 := read m (r.addr i) (j - i)

theorem toNat_addr {i : Nat} (h : i ≤ r.size.toNat) : (r.addr i).toNat = r.data.toNat + i := by
  have hfits := r.fits
  simp only [addr, UInt64.toNat_add, UInt64.toNat_ofNat']
  omega

theorem addr_succ (i : Nat) : r.addr i + 1 = r.addr (i + 1) := by
  simp only [addr, ofNat_succ, UInt64.add_assoc]

theorem addr_add (i j : Nat) : r.addr i + UInt64.ofNat j = r.addr (i + j) := by
  simp only [addr, add_ofNat_add]

theorem toNat_addr_mod (i : Nat) : (r.addr i).toNat = (r.data.toNat + i) % 2 ^ 64 := by
  simp only [addr, UInt64.toNat_add, UInt64.toNat_ofNat']
  omega

/-- Offsets that differ by the size of the address space have one address. -/
theorem addr_add_wrap (i : Nat) : r.addr (i + 2 ^ 64) = r.addr i := by
  rw [← UInt64.toNat_inj, toNat_addr_mod, toNat_addr_mod]
  omega

theorem addr_size : r.data + r.size = r.addr r.size.toNat := by
  simp [addr]

theorem addr_lt_iff {i j : Nat} (hi : i ≤ r.size.toNat) (hj : j ≤ r.size.toNat) : r.addr i < r.addr j ↔ i < j := by
  rw [UInt64.lt_iff_toNat_lt, r.toNat_addr hi, r.toNat_addr hj]
  omega

theorem addr_inj {i j : Nat} (hi : i ≤ r.size.toNat) (hj : j ≤ r.size.toNat) : r.addr i = r.addr j ↔ i = j := by
  rw [← UInt64.toNat_inj, r.toNat_addr hi, r.toNat_addr hj]
  omega

/-- The distance of two offsets inside the region, as the code computes it. -/
theorem toNat_addr_sub {i j : Nat} (hij : i ≤ j) (hj : j ≤ r.size.toNat) : (r.addr j - r.addr i).toNat = j - i := by
  have hi := r.toNat_addr (Nat.le_trans hij hj)
  have hj' := r.toNat_addr hj
  rw [UInt64.toNat_sub_of_le _ _ (by rw [UInt64.le_iff_toNat_le]; omega)]
  omega

theorem addr_sub_data (i : Nat) : r.addr i - r.data = UInt64.ofNat i := by
  simp [addr, UInt64.add_comm r.data]

@[simp] theorem length_bytes : (r.bytes m).length = r.size.toNat := by simp [bytes]

@[simp] theorem length_slice (i j : Nat) : (r.slice m i j).length = j - i := by simp [slice]

theorem slice_self (i : Nat) : r.slice m i i = [] := by simp [slice, read]

theorem slice_append {i j k : Nat} (hij : i ≤ j) (hjk : j ≤ k) :
    r.slice m i k = r.slice m i j ++ r.slice m j k := by
  unfold slice
  rw [show k - i = (j - i) + (k - j) by omega, read_add, r.addr_add, show i + (j - i) = j by omega]

theorem slice_cons {i j : Nat} (h : i < j) : r.slice m i j = r.byte m i :: r.slice m (i + 1) j := by
  unfold slice
  rw [show j - i = (j - (i + 1)) + 1 by omega, read, r.addr_succ, byte]

theorem slice_snoc {i j : Nat} (h : i ≤ j) : r.slice m i (j + 1) = r.slice m i j ++ [r.byte m j] := by
  rw [r.slice_append m h (Nat.le_succ j), r.slice_cons m (Nat.lt_succ_self j), slice_self]

theorem bytes_eq_slice : r.bytes m = r.slice m 0 r.size.toNat := by simp [bytes, slice, addr]

/-- A list found at the head of a slice ends at a known offset. -/
theorem slice_eq_append_iff {i k : Nat} {s t : List UInt8} (hik : i ≤ k) :
    r.slice m i k = s ++ t ↔
      i + s.length ≤ k ∧ r.slice m i (i + s.length) = s ∧ r.slice m (i + s.length) k = t := by
  constructor
  · intro h
    have hlen : i + s.length ≤ k := by
      have := congrArg List.length h
      simp only [length_slice, List.length_append] at this
      omega
    rw [r.slice_append m (Nat.le_add_right i s.length) hlen] at h
    exact ⟨hlen, List.append_inj h (by simp)⟩
  · rintro ⟨hlen, hs, ht⟩
    rw [r.slice_append m (Nat.le_add_right i s.length) hlen, hs, ht]

theorem slice_eq_cons_iff {i k : Nat} {b : UInt8} {t : List UInt8} (hik : i ≤ k) :
    r.slice m i k = b :: t ↔ i < k ∧ r.byte m i = b ∧ r.slice m (i + 1) k = t := by
  constructor
  · intro h
    have hlt : i < k := by
      have := congrArg List.length h
      simp only [length_slice, List.length_cons] at this
      omega
    rw [r.slice_cons m hlt] at h
    exact ⟨hlt, List.cons.inj h⟩
  · rintro ⟨hlt, hb, ht⟩
    rw [r.slice_cons m hlt, hb, ht]

theorem eq_nil_of_slice {i k : Nat} (hik : i ≤ k) (h : r.slice m i k = []) : i = k := by
  have := congrArg List.length h
  simp only [length_slice, List.length_nil] at this
  omega

/-- The bytes `s` stand at offset `i`, inside the region. -/
def Holds (i : Nat) (s : List UInt8) : Prop := i + s.length ≤ r.size.toNat ∧ r.slice m i (i + s.length) = s

theorem holds_nil_iff {i : Nat} : r.Holds m i [] ↔ i ≤ r.size.toNat := by simp [Holds, slice_self]

theorem holds_append_iff {i : Nat} {s t : List UInt8} :
    r.Holds m i (s ++ t) ↔ r.Holds m i s ∧ r.Holds m (i + s.length) t := by
  have hlen : i + (s ++ t).length = i + s.length + t.length := by rw [List.length_append, Nat.add_assoc]
  unfold Holds
  rw [slice_eq_append_iff r m (by omega), hlen]
  constructor
  · rintro ⟨h, -, hs, ht⟩
    exact ⟨⟨by omega, hs⟩, h, ht⟩
  · rintro ⟨⟨-, hs⟩, h, ht⟩
    exact ⟨h, by omega, hs, ht⟩

theorem holds_cons_iff {i : Nat} {b : UInt8} {t : List UInt8} :
    r.Holds m i (b :: t) ↔ i < r.size.toNat ∧ r.byte m i = b ∧ r.Holds m (i + 1) t := by
  have hlen : i + (b :: t).length = i + 1 + t.length := by rw [List.length_cons]; omega
  unfold Holds
  rw [slice_eq_cons_iff r m (by omega), hlen]
  constructor
  · rintro ⟨h, -, hb, ht⟩
    exact ⟨by omega, hb, h, ht⟩
  · rintro ⟨-, hb, h, ht⟩
    exact ⟨h, by omega, hb, ht⟩

/-- Bytes between a first and a last one. -/
theorem holds_enclosed_iff {i : Nat} {b e : UInt8} {s : List UInt8} :
    r.Holds m i (b :: s ++ [e]) ↔
      i < r.size.toNat ∧ r.byte m i = b ∧ r.Holds m (i + 1) s ∧ i + 1 + s.length < r.size.toNat ∧
        r.byte m (i + 1 + s.length) = e := by
  rw [List.cons_append, holds_cons_iff, holds_append_iff, holds_cons_iff, holds_nil_iff]
  constructor
  · rintro ⟨hi, hb, hs, hk, he, -⟩
    exact ⟨hi, hb, hs, hk, he⟩
  · rintro ⟨hi, hb, hs, hk, he⟩
    exact ⟨hi, hb, hs, hk, he, hk⟩

theorem holds_slice {i j : Nat} (hij : i ≤ j) (hj : j ≤ r.size.toNat) : r.Holds m i (r.slice m i j) := by
  simp only [Holds, length_slice, Nat.add_sub_cancel' hij, and_true]
  exact hj

theorem holds_bytes : r.Holds m 0 (r.bytes m) := by
  rw [bytes_eq_slice]
  exact r.holds_slice m (Nat.zero_le _) (Nat.le_refl _)

/-- The region of the offsets `[i, j)`. -/
def sub (i j : Nat) (hij : i ≤ j) (hj : j ≤ r.size.toNat) : Region where
  data := r.addr i
  size := UInt64.ofNat (j - i)
  fits := by
    have hfits := r.fits
    rw [r.toNat_addr (Nat.le_trans hij hj), UInt64.toNat_ofNat']
    omega

theorem sub_size {i j : Nat} (hij : i ≤ j) (hj : j ≤ r.size.toNat) : (r.sub i j hij hj).size.toNat = j - i := by
  have := r.size.toNat_lt
  simp only [sub, UInt64.toNat_ofNat']
  omega

theorem bytes_sub {i j : Nat} (hij : i ≤ j) (hj : j ≤ r.size.toNat) : (r.sub i j hij hj).bytes m = r.slice m i j := by
  rw [bytes, r.sub_size hij hj]
  rfl

end Region

/-! ### Placing bytes in memory -/

/-- The bytes of an ASCII text. -/
def ascii (s : String) : List UInt8 := s.toList.map fun c => UInt8.ofNat c.toNat

/-- A memory that holds `s` at address `base` and zeros elsewhere. -/
def place (base : UInt64) (s : List UInt8) : Memory := fun a => s.getD (a - base).toNat 0

/-- The region of `s` at `base`. -/
def Region.of (base : UInt64) (s : List UInt8) (fits : base.toNat + s.length < 2 ^ 64) : Region where
  data := base
  size := UInt64.ofNat s.length
  fits := by
    rw [UInt64.toNat_ofNat']
    omega

theorem Region.of_size {base : UInt64} {s : List UInt8} (fits : base.toNat + s.length < 2 ^ 64) :
    (Region.of base s fits).size.toNat = s.length := by
  simp only [Region.of, UInt64.toNat_ofNat']
  omega

theorem read_place (base : UInt64) (s t : List UInt8) (h : s.length + t.length < 2 ^ 64) :
    read (place base (s ++ t)) (base + UInt64.ofNat s.length) t.length = t := by
  induction t generalizing s with
  | nil => rfl
  | cons b t ih =>
    simp only [List.length_cons] at h
    have hb : place base (s ++ b :: t) (base + UInt64.ofNat s.length) = b := by
      have hsub : (base + UInt64.ofNat s.length - base).toNat = s.length := by
        rw [UInt64.add_comm, UInt64.add_sub_cancel, UInt64.toNat_ofNat']
        omega
      simp only [place, hsub, List.getD_append_right s (b :: t) 0 s.length (Nat.le_refl _), Nat.sub_self,
        List.getD_cons_zero]
    have hrest := ih (s ++ [b]) (by simp only [List.length_append, List.length_singleton]; omega)
    rw [List.append_assoc, List.singleton_append, List.length_append, List.length_singleton, ofNat_succ,
      ← UInt64.add_assoc] at hrest
    rw [List.length_cons, read, hb, hrest]

theorem Region.bytes_of {base : UInt64} {s : List UInt8} (fits : base.toNat + s.length < 2 ^ 64) :
    (Region.of base s fits).bytes (place base s) = s := by
  rw [Region.bytes, Region.of_size fits]
  simpa [Region.of] using read_place base [] s (by simp only [List.length_nil]; omega)

theorem Region.holds_of {base : UInt64} {s : List UInt8} (fits : base.toNat + s.length < 2 ^ 64) :
    (Region.of base s fits).Holds (place base s) 0 s := by
  have h := (Region.of base s fits).holds_bytes (place base s)
  rwa [Region.bytes_of fits] at h

end FlatMemory
