import Mathlib.Algebra.GroupWithZero.Nat
import Mathlib.Data.Finset.Card
import Mathlib.Order.Interval.Finset.Nat

/-! Blocks: half-open ranges of offsets. A list of blocks may tile a range, one after the other, or cover it
    in any order; blocks that do not overlap cover a range as soon as their lengths add up to it. -/

namespace Blocks

structure Block where
  start : Nat
  length : Nat
  deriving DecidableEq, Repr

namespace Block

def stop (b : Block) : Nat := b.start + b.length

instance : Membership Nat Block := ⟨fun b x => b.start ≤ x ∧ x < b.stop⟩

/-- No offset lies in both. -/
def Apart (a b : Block) : Prop := ∀ x, x ∈ a → x ∉ b

theorem apart_of_le {a b : Block} (h : a.stop ≤ b.start) : Apart a b := fun _ ha hb =>
  Nat.lt_irrefl _ (Nat.lt_of_lt_of_le ha.2 (Nat.le_trans h hb.1))

def points (b : Block) : Finset Nat := Finset.Ico b.start b.stop

@[simp] theorem mem_points {b : Block} {x : Nat} : x ∈ b.points ↔ x ∈ b := by
  simp only [points, Finset.mem_Ico]
  exact Iff.rfl

@[simp] theorem card_points (b : Block) : b.points.card = b.length := by simp [points, stop]

end Block

/-- Every offset below `n` lies in a block. -/
def Covers (bs : List Block) (n : Nat) : Prop := ∀ x < n, ∃ b ∈ bs, x ∈ b

def total (bs : List Block) : Nat := (bs.map Block.length).sum

@[simp] theorem total_nil : total [] = 0 := rfl

@[simp] theorem total_cons (b : Block) (bs : List Block) : total (b :: bs) = b.length + total bs := rfl

@[simp] theorem total_append (xs ys : List Block) : total (xs ++ ys) = total xs + total ys := by simp [total]

theorem total_perm {xs ys : List Block} (h : xs.Perm ys) : total xs = total ys := (h.map _).sum_eq

/-! ### Tilings -/

/-- The blocks are not empty and follow each other from the first offset to the second. -/
inductive Tiles (i : Nat) : List Block → Nat → Prop where
  | nil : Tiles i [] i
  | snoc {bs j n} : Tiles i bs j → 0 < n → Tiles i (bs ++ [⟨j, n⟩]) (j + n)

namespace Tiles
variable {i j : Nat} {bs : List Block}

theorem le (h : Tiles i bs j) : i ≤ j := by
  induction h with
  | nil => exact Nat.le_refl i
  | snoc _ _ ih => exact Nat.le_trans ih (Nat.le_add_right _ _)

theorem total_eq (h : Tiles i bs j) : i + total bs = j := by
  induction h with
  | nil => rfl
  | snoc _ _ ih => rw [total_append, ← Nat.add_assoc, ih]; rfl

theorem length_pos (h : Tiles i bs j) : ∀ b ∈ bs, 0 < b.length := by
  induction h with
  | nil => exact fun b hb => absurd hb List.not_mem_nil
  | snoc _ hn ih => exact List.forall_mem_append.mpr ⟨ih, List.forall_mem_singleton.mpr hn⟩

theorem mem_iff (h : Tiles i bs j) (x : Nat) : (∃ b ∈ bs, x ∈ b) ↔ i ≤ x ∧ x < j := by
  induction h with
  | nil => exact ⟨fun ⟨_, hb, _⟩ => absurd hb List.not_mem_nil, fun ⟨h, h'⟩ => absurd h' (Nat.not_lt.mpr h)⟩
  | @snoc bs j n hbs _ ih =>
    have hle := hbs.le
    have hlast : x ∈ (⟨j, n⟩ : Block) ↔ j ≤ x ∧ x < j + n := Iff.rfl
    simp only [List.mem_append, List.mem_singleton, or_and_right, exists_or, exists_eq_left]
    rw [ih, hlast]
    omega

theorem stop_le (h : Tiles i bs j) : ∀ b ∈ bs, b.stop ≤ j := by
  induction h with
  | nil => exact fun b hb => absurd hb List.not_mem_nil
  | snoc _ _ ih =>
    exact List.forall_mem_append.mpr
      ⟨fun b hb => Nat.le_trans (ih b hb) (Nat.le_add_right _ _), List.forall_mem_singleton.mpr (Nat.le_refl _)⟩

theorem pairwise (h : Tiles i bs j) : bs.Pairwise Block.Apart := by
  induction h with
  | nil => exact List.Pairwise.nil
  | snoc hbs _ ih =>
    refine List.pairwise_append.mpr ⟨ih, List.pairwise_singleton _ _, ?_⟩
    intro a ha b hb
    rw [List.mem_singleton.mp hb]
    exact Block.apart_of_le (hbs.stop_le a ha)

/-- What the blocks cut out of a list, one after the other, is what the whole range cuts out. -/
theorem flatten_slices {α : Type} (h : Tiles i bs j) (l : List α) :
    (bs.map fun b => (l.drop b.start).take b.length).flatten = (l.drop i).take (j - i) := by
  induction h with
  | nil => rw [Nat.sub_self, List.take_zero, List.map_nil, List.flatten_nil]
  | @snoc bs j n hbs _ ih =>
    have hle := hbs.le
    rw [List.map_append, List.flatten_append, ih, List.map_singleton, List.flatten_singleton,
      Nat.sub_add_comm hle, List.take_add, List.drop_drop, Nat.add_sub_of_le hle]

end Tiles

/-! ### Chunks -/

/-- A range of `total` offsets cut into chunks of `size`, the last of which may be shorter. -/
structure Chunking where
  count : Nat
  size : Nat
  total : Nat
  lt_total : (count - 1) * size < total
  total_le : total ≤ count * size

namespace Chunking
variable (c : Chunking)

def chunk (i : Nat) : Block := ⟨i * c.size, min c.size (c.total - i * c.size)⟩

theorem start_lt {i : Nat} (hi : i < c.count) : i * c.size < c.total :=
  Nat.lt_of_le_of_lt (Nat.mul_le_mul_right _ (Nat.le_sub_one_of_lt hi)) c.lt_total

theorem size_pos : 0 < c.size := by
  rcases Nat.eq_zero_or_pos c.size with h | h
  · have := c.lt_total
    have := c.total_le
    rw [h] at *
    omega
  · exact h

theorem count_pos : 0 < c.count := by
  rcases Nat.eq_zero_or_pos c.count with h | h
  · have := c.lt_total
    have := c.total_le
    rw [h] at *
    omega
  · exact h

theorem length_pos {i : Nat} (hi : i < c.count) : 0 < (c.chunk i).length :=
  Nat.lt_min.mpr ⟨c.size_pos, Nat.sub_pos_of_lt (c.start_lt hi)⟩

/-- Every chunk but the last is a whole one. -/
theorem length_of_lt {i : Nat} (hi : i + 1 < c.count) : (c.chunk i).length = c.size := by
  have := c.start_lt hi
  rw [Nat.add_mul, Nat.one_mul] at this
  exact Nat.min_eq_left (by omega)

/-- There are `count - 1` whole chunks and at most one more. -/
theorem total_le_last : c.total ≤ (c.count - 1) * c.size + c.size := by
  have hle := c.total_le
  rwa [← Nat.sub_one_add_one_eq_of_pos c.count_pos, Nat.add_mul, Nat.one_mul] at hle

theorem length_last : (c.chunk (c.count - 1)).length = c.total - (c.count - 1) * c.size :=
  Nat.min_eq_right (Nat.sub_le_iff_le_add'.mpr c.total_le_last)

theorem stop_eq {i : Nat} (hi : i < c.count) : (c.chunk i).stop = min ((i + 1) * c.size) c.total := by
  have := c.start_lt hi
  rw [Nat.add_mul, Nat.one_mul]
  simp only [Block.stop, chunk]
  omega

/-- The chunks tile the range. -/
theorem tiles : Tiles 0 ((List.range c.count).map c.chunk) c.total := by
  have hprefix : ∀ k, k ≤ c.count → Tiles 0 ((List.range k).map c.chunk) (min (k * c.size) c.total) := by
    intro k hk
    induction k with
    | zero =>
      rw [Nat.zero_mul, Nat.zero_min]
      exact Tiles.nil
    | succ k ih =>
      have hstart : min (k * c.size) c.total = k * c.size := Nat.min_eq_left (Nat.le_of_lt (c.start_lt hk))
      have hsnoc := (ih (Nat.le_of_succ_le hk)).snoc (c.length_pos hk)
      rw [hstart] at hsnoc
      rw [List.range_succ, List.map_append, List.map_singleton, ← c.stop_eq hk]
      exact hsnoc
  have := hprefix c.count (Nat.le_refl _)
  rwa [Nat.min_eq_right c.total_le] at this

end Chunking

/-! ### Coverage by counting -/

def points : List Block → Finset Nat
  | [] => ∅
  | b :: bs => b.points ∪ points bs

theorem mem_points {bs : List Block} {x : Nat} : x ∈ points bs ↔ ∃ b ∈ bs, x ∈ b := by
  induction bs with
  | nil => simp [points]
  | cons b bs ih => simp [points, ih]

theorem card_points {bs : List Block} (h : bs.Pairwise Block.Apart) : (points bs).card = total bs := by
  induction bs with
  | nil => rfl
  | cons b bs ih =>
    rw [List.pairwise_cons] at h
    have hdisjoint : Disjoint b.points (points bs) := by
      rw [Finset.disjoint_left]
      intro x hx hbs
      obtain ⟨b', hb', hx'⟩ := mem_points.mp hbs
      exact h.1 b' hb' x (Block.mem_points.mp hx) hx'
    rw [points, Finset.card_union_of_disjoint hdisjoint, ih h.2, Block.card_points, total_cons]

theorem points_subset_range {bs : List Block} {n : Nat} (hin : ∀ b ∈ bs, b.stop ≤ n) : points bs ⊆ Finset.range n := by
  intro x hx
  obtain ⟨b, hb, hxb⟩ := mem_points.mp hx
  exact Finset.mem_range.mpr (Nat.lt_of_lt_of_le hxb.2 (hin b hb))

/-- Blocks that lie below `n`, do not overlap and have `n` offsets together cover all below `n`. -/
theorem covers_of_total {bs : List Block} {n : Nat} (h : bs.Pairwise Block.Apart) (hin : ∀ b ∈ bs, b.stop ≤ n)
    (htotal : total bs = n) : Covers bs n := by
  have heq : points bs = Finset.range n :=
    Finset.eq_of_subset_of_card_le (points_subset_range hin) (by rw [Finset.card_range, card_points h, htotal])
  intro x hx
  exact mem_points.mp (heq ▸ Finset.mem_range.mpr hx)

/-- Blocks that do not overlap have no more offsets than they have room for. -/
theorem total_le {bs : List Block} {n : Nat} (h : bs.Pairwise Block.Apart) (hin : ∀ b ∈ bs, b.stop ≤ n) :
    total bs ≤ n := by
  have := Finset.card_le_card (points_subset_range hin)
  rwa [Finset.card_range, card_points h] at this

end Blocks
