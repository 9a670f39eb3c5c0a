import Mathlib.Data.Nat.Basic

/-! Computations with fuel. A computation gives `none` when its fuel runs out; what counts is the result
    that it gives with any fuel from some amount on. -/

namespace Fuel
variable {α β : Type}

/-- The computation terminates with `x`. -/
def Converges (f : Nat → Option α) (x : α) : Prop := ∃ n, ∀ k, n ≤ k → f k = some x

/-- One more unit of fuel does not change a result. -/
def Stable (f : Nat → Option α) : Prop := ∀ n x, f n = some x → f (n + 1) = some x

theorem Stable.le {f : Nat → Option α} (hf : Stable f) {n k : Nat} {x : α} (h : f n = some x) (hnk : n ≤ k) :
    f k = some x := by
  induction hnk with
  | refl => exact h
  | step _ ih => exact hf _ _ ih

theorem Stable.converges {f : Nat → Option α} (hf : Stable f) {n : Nat} {x : α} (h : f n = some x) : Converges f x :=
  ⟨n, fun _ => hf.le h⟩

/-- More fuel for the two halves of a computation is more fuel for the whole. -/
theorem bind_le {a a' : Option α} {k k' : α → Option β} (ha : ∀ x, a = some x → a' = some x)
    (hk : ∀ x y, k x = some y → k' x = some y) (y : β) (h : a.bind k = some y) : a'.bind k' = some y := by
  obtain ⟨x, hx, hy⟩ := Option.bind_eq_some_iff.mp h
  rw [ha x hx, Option.bind_some]
  exact hk x y hy

theorem Stable.bind_const {f : Nat → Option α} (hf : Stable f) (k : α → Option β) :
    Stable fun n => (f n).bind k :=
  fun n y h => bind_le (hf n) (fun _ _ h => h) y h

namespace Converges

theorem exists_eq {f : Nat → Option α} {x : α} (h : Converges f x) : ∃ n, f n = some x := by
  obtain ⟨n, hn⟩ := h
  exact ⟨n, hn n (Nat.le_refl n)⟩

theorem unique {f : Nat → Option α} {x y : α} (hx : Converges f x) (hy : Converges f y) : x = y := by
  obtain ⟨n, hn⟩ := hx
  obtain ⟨k, hk⟩ := hy
  have h := hn _ (Nat.le_max_left n k)
  rw [hk _ (Nat.le_max_right n k)] at h
  exact (Option.some.inj h).symm

/-- A result that is there at some amount of fuel is the result. -/
theorem eq_of_some {f : Nat → Option α} (hf : Stable f) {n : Nat} {x y : α} (hx : Converges f x) (h : f n = some y) :
    y = x := (hf.converges h).unique hx

theorem of_succ {f g : Nat → Option α} {x : α} (hg : Converges g x) (h : ∀ n, f (n + 1) = g n) : Converges f x := by
  obtain ⟨n, hn⟩ := hg
  refine ⟨n + 1, ?_⟩
  intro k hk
  obtain ⟨k, rfl⟩ := Nat.exists_eq_succ_of_ne_zero (by omega : k ≠ 0)
  rw [h, hn k (by omega)]

theorem pure {f : Nat → Option α} {x : α} (h : ∀ n, f (n + 1) = some x) : Converges f x :=
  of_succ (g := fun _ => some x) ⟨0, fun _ _ => rfl⟩ h

/-- Running `g` and then `k` on its result, each with the same fuel. -/
theorem bind {g : Nat → Option α} {k : Nat → α → Option β} {x : α} {y : β} (hg : Converges g x)
    (hk : Converges (fun n => k n x) y) : Converges (fun n => (g n).bind (k n)) y := by
  obtain ⟨a, ha⟩ := hg
  obtain ⟨b, hb⟩ := hk
  refine ⟨max a b, ?_⟩
  intro n hn
  simp only [ha n (by omega), Option.bind_some]
  exact hb n (by omega)

end Converges

end Fuel
