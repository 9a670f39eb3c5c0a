import Mathlib.Data.List.GetD

/-! Writing a run of elements over a list, as `memcpy` does into a buffer: the elements that would lie
    behind the end of the list are dropped. -/

namespace Memcpy
variable {α : Type}

/-- `dst` with `src` written over it from offset `i` on. -/
def copy (dst : List α) (i : Nat) (src : List α) : List α :=
  dst.mapIdx fun x a => if i ≤ x then src.getD (x - i) a else a

@[simp] theorem length_copy (dst : List α) (i : Nat) (src : List α) : (copy dst i src).length = dst.length := by
  simp [copy]

theorem getElem?_copy (dst : List α) (i : Nat) (src : List α) (x : Nat) :
    (copy dst i src)[x]? = dst[x]?.map fun a => if i ≤ x then src.getD (x - i) a else a := by
  simp only [copy, List.getElem?_mapIdx]

/-- An element behind the start of the copied run and before its end is the copied one. -/
theorem getElem?_copy_in {dst src : List α} {i x : Nat} (hix : i ≤ x) (hx : x < i + src.length) (hdst : x < dst.length) :
    (copy dst i src)[x]? = src[x - i]? := by
  rw [getElem?_copy, List.getElem?_eq_getElem hdst, Option.map_some, if_pos hix,
    List.getD_eq_getElem src _ (show x - i < src.length by omega), List.getElem?_eq_getElem]

theorem getElem?_copy_out {dst src : List α} {i x : Nat} (h : x < i ∨ i + src.length ≤ x) :
    (copy dst i src)[x]? = dst[x]? := by
  rw [getElem?_copy]
  rcases h with h | h
  · simp only [Nat.not_le.mpr h, ↓reduceIte, Option.map_id']
  · by_cases hix : i ≤ x
    · have hnone : ∀ a, src.getD (x - i) a = a := fun a => List.getD_eq_default src a (show src.length ≤ x - i by omega)
      simp only [hix, ↓reduceIte, hnone, Option.map_id']
    · simp only [hix, ↓reduceIte, Option.map_id']

theorem copy_append (pre post : List α) {old new : List α} (h : old.length = new.length) :
    copy (pre ++ old ++ post) pre.length new = pre ++ new ++ post := by
  refine List.ext_getElem? ?_
  intro x
  rcases Nat.lt_or_ge x pre.length with hpre | hpre
  · rw [getElem?_copy_out (.inl hpre), List.append_assoc, List.append_assoc, List.getElem?_append_left hpre,
      List.getElem?_append_left hpre]
  · rcases Nat.lt_or_ge x (pre.length + new.length) with hnew | hnew
    · rw [getElem?_copy_in hpre hnew (by simp only [List.length_append]; omega),
        List.getElem?_append_left (by simp only [List.length_append]; omega), List.getElem?_append_right hpre]
    · rw [getElem?_copy_out (.inr hnew), List.getElem?_append_right (by simp only [List.length_append]; omega),
        List.getElem?_append_right (by simp only [List.length_append]; omega)]
      simp only [List.length_append, h]

/-- A list that starts with a run it was given starts as the run does. -/
theorem take_copy_zero {dst src : List α} {n : Nat} (hdst : n ≤ dst.length) (hsrc : n ≤ src.length) :
    (copy dst 0 src).take n = src.take n := by
  refine List.ext_getElem? ?_
  intro x
  rcases Nat.lt_or_ge x n with hx | hx
  · rw [List.getElem?_take_of_lt hx, List.getElem?_take_of_lt hx,
      getElem?_copy_in (Nat.zero_le x) (by omega) (by omega), Nat.sub_zero]
  · rw [List.getElem?_eq_none (by rw [List.length_take]; omega), List.getElem?_eq_none (by rw [List.length_take]; omega)]

/-- Runs of elements written one after the other, each at its offset. -/
def copyAll (dst : List α) (writes : List (Nat × List α)) : List α := writes.foldl (fun dst w => copy dst w.1 w.2) dst

@[simp] theorem length_copyAll (dst : List α) (writes : List (Nat × List α)) :
    (copyAll dst writes).length = dst.length := by
  induction writes generalizing dst with
  | nil => rfl
  | cons w writes ih => rw [copyAll, List.foldl_cons, ← copyAll, ih, length_copy]

/-- Where the runs are those of `t`, what they cover is what `t` has there. -/
theorem getElem?_copyAll {dst t : List α} {writes : List (Nat × List α)}
    (ht : ∀ w ∈ writes, ∀ x < w.2.length, w.2[x]? = t[w.1 + x]?) {y : Nat} (hy : y < dst.length)
    (h : dst[y]? = t[y]? ∨ ∃ w ∈ writes, w.1 ≤ y ∧ y < w.1 + w.2.length) : (copyAll dst writes)[y]? = t[y]? := by
  induction writes generalizing dst with
  | nil =>
    rcases h with h | ⟨w, hw, -⟩
    · exact h
    · cases hw
  | cons w writes ih =>
    obtain ⟨hw, hws⟩ := List.forall_mem_cons.mp ht
    rw [copyAll, List.foldl_cons, ← copyAll]
    refine ih hws (by rw [length_copy]; exact hy) ?_
    by_cases hin : w.1 ≤ y ∧ y < w.1 + w.2.length
    · refine .inl ?_
      rw [getElem?_copy_in hin.1 hin.2 hy, hw _ (by omega), Nat.add_sub_cancel' hin.1]
    · rw [getElem?_copy_out (by omega)]
      rcases h with h | ⟨w', hw', hin'⟩
      · exact .inl h
      · rcases List.mem_cons.mp hw' with rfl | hw'
        · exact absurd hin' hin
        · exact .inr ⟨w', hw', hin'⟩

end Memcpy
