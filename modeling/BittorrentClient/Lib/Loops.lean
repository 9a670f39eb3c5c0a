import Mathlib.Data.Nat.Basic

/-! Passes of a loop. Where each pass lowers a rank there are no more of them than the rank, and there is a last one. -/

namespace Loops
variable {σ : Type} {again : σ → σ → Prop} {n : Nat} {s t : σ}

/-- A number of passes, each of which goes back to the head of the loop. -/
inductive Passes (again : σ → σ → Prop) : Nat → σ → σ → Prop where
  | refl (s : σ) : Passes again 0 s s
  | head {n s t u} (h : again s t) (rest : Passes again n t u) : Passes again (n + 1) s u

namespace Passes

theorem invariant {I : σ → Prop} (h : Passes again n s t) (hstart : I s) (hpass : ∀ s t, I s → again s t → I t) :
    I t := by
  induction h with
  | refl => exact hstart
  | head hagain _ ih => exact ih (hpass _ _ hstart hagain)

/-- What is left of the rank is at most what the passes have not used. -/
theorem add_rank_le (h : Passes again n s t) (rank : σ → Nat) (hrank : ∀ s t, again s t → rank t < rank s) :
    n + rank t ≤ rank s := by
  induction h with
  | refl => rw [Nat.zero_add]
  | @head n s t u hagain _ ih =>
    have hlt := hrank s t hagain
    omega

theorem le_rank (h : Passes again n s t) (rank : σ → Nat) (hrank : ∀ s t, again s t → rank t < rank s) : n ≤ rank s :=
  Nat.le_trans (Nat.le_add_right n (rank t)) (h.add_rank_le rank hrank)

/-- After some number of passes there is no further one. -/
theorem exists_last (rank : σ → Nat) (hrank : ∀ s t, again s t → rank t < rank s) (s : σ) :
    ∃ n t, Passes again n s t ∧ ¬∃ u, again t u := by
  induction hr : rank s using Nat.strong_induction_on generalizing s with
  | h r ih =>
    by_cases hagain : ∃ u, again s u
    · obtain ⟨u, hu⟩ := hagain
      obtain ⟨n, t, hpasses, hlast⟩ := ih (rank u) (hr ▸ hrank s u hu) u rfl
      exact ⟨n + 1, t, .head hu hpasses, hlast⟩
    · exact ⟨0, s, .refl s, hagain⟩

end Passes

end Loops
