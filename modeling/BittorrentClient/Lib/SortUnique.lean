import Mathlib.Data.List.Destutter
import Mathlib.Data.List.Sort

/-! Sorting and then dropping equal neighbours: for an order in which elements that are not before each other are
    equal, this gives each element once, in an order that does not depend on the sort. -/

namespace SortUnique
variable {α : Type} {less : α → α → Bool}

/-- A sort by a comparison: no element is less than one before it. -/
structure Sorter (less : α → α → Bool) where
  run : List α → List α
  perm : ∀ l, (run l).Perm l
  sorted : ∀ l, (run l).Pairwise fun a b => less b a = false

/-- Of each run of equivalent neighbours, the first. -/
def unique (equal : α → α → Bool) (l : List α) : List α := l.destutter fun a b => ¬equal a b = true

/-- A comparison that is total up to equality. -/
structure Linear (less : α → α → Bool) : Prop where
  trans : ∀ a b c, less b a = false → less c b = false → less c a = false
  total : ∀ a b, less a b = false ∨ less b a = false
  antisymm : ∀ a b, less b a = false → less a b = false → a = b

namespace Linear
variable (h : Linear less)
include h

/-- The stable sort of the library. -/
def mergeSort : Sorter less where
  run l := l.mergeSort fun a b => !less b a
  perm l := List.mergeSort_perm l _
  sorted l := by
    refine (List.pairwise_mergeSort ?_ ?_ l).imp ?_
    · intro a b c hab hbc
      simpa using h.trans a b c (by simpa using hab) (by simpa using hbc)
    · intro a b
      rcases h.total a b with hab | hba
      · simp [hab]
      · simp [hba]
    · intro a b hab
      simpa using hab

/-- All sorts give the same. -/
theorem run_eq (s s' : Sorter less) {l l' : List α} (hperm : l.Perm l') : s.run l = s'.run l' := by
  refine List.Perm.eq_of_pairwise ?_ (s.sorted l) (s'.sorted l') ?_
  · intro a b _ _ hab hba
    exact h.antisymm a b hab hba
  · exact (s.perm l).trans (hperm.trans (s'.perm l').symm)

variable [DecidableEq α] {equal : α → α → Bool} (hequal : ∀ a b, equal a b = true ↔ a = b)
include hequal

/-- Among sorted elements, equal ones are neighbours. -/
theorem unique_run_eq_dedup (s : Sorter less) (l : List α) : unique equal (s.run l) = (s.run l).dedup := by
  have hanti : Std.Antisymm fun a b => less b a = false := ⟨h.antisymm⟩
  rw [← (s.sorted l).destutter_eq_dedup, unique]
  congr 1
  funext a b
  rw [hequal]

theorem mem_unique_run (s : Sorter less) (l : List α) (a : α) : a ∈ unique equal (s.run l) ↔ a ∈ l := by
  rw [h.unique_run_eq_dedup hequal, List.mem_dedup, (s.perm l).mem_iff]

theorem nodup_unique_run (s : Sorter less) (l : List α) : (unique equal (s.run l)).Nodup := by
  rw [h.unique_run_eq_dedup hequal]
  exact List.nodup_dedup _

end Linear

end SortUnique
