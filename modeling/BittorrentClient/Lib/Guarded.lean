import Mathlib.Data.Option.Basic

/-! Computations that may run out of fuel or abort at an assertion, and the same computations without the assertions. -/

namespace Guarded
variable {ε α β : Type} {a : ExceptT ε Option α} {b : Option α} {f : α → ExceptT ε Option β} {g : α → Option β}

/-- With its assertions the computation gives what it gives without them, or it aborts. -/
def Guards (a : ExceptT ε Option α) (b : Option α) : Prop := a.run = b.map .ok ∨ ∃ e, a.run = some (.error e)

namespace Guards

theorem pure (x : α) : Guards (Pure.pure x : ExceptT ε Option α) (some x) := .inl rfl

theorem none : Guards (.mk Option.none : ExceptT ε Option α) Option.none := .inl rfl

theorem lift (b : Option α) : Guards (ε := ε) (liftM b) b := by
  cases b with
  | none => exact .none
  | some x => exact .pure x

theorem bind (h : Guards a b) (hf : ∀ x, b = some x → Guards (f x) (g x)) : Guards (a >>= f) (b.bind g) := by
  rcases h with h | ⟨e, h⟩
  · cases b with
    | none => exact .inl (congrArg (fun r => (ExceptT.mk r >>= f).run) h)
    | some x =>
      have hrun : (a >>= f).run = (f x).run := congrArg (fun r => (ExceptT.mk r >>= f).run) h
      rw [Guards, hrun]
      exact hf x rfl
  · exact .inr ⟨e, congrArg (fun r => (ExceptT.mk r >>= f).run) h⟩

/-- An assertion before the computation. -/
theorem after {γ : Type} {c : ExceptT ε Option γ} {x : γ} {f : γ → ExceptT ε Option α} (hc : Guards c (some x))
    (h : Guards (f x) b) : Guards (c >>= f) b :=
  hc.bind (g := fun _ => b) fun y hy => by
    cases hy
    exact h

theorem of_ok (h : Guards a b) {x : α} (ha : a.run = some (.ok x)) : b = some x := by
  rcases h with h | ⟨e, h⟩
  · rw [ha] at h
    cases b with
    | none => cases h
    | some y =>
      cases h
      rfl
  · rw [ha] at h
    cases h

theorem of_some (h : Guards a b) {x : α} (hb : b = some x) : a.run = some (.ok x) ∨ ∃ e, a.run = some (.error e) := by
  rw [Guards, hb] at h
  exact h

end Guards

theorem run_bind_ok {y : β} (h : (a >>= f).run = some (.ok y)) :
    ∃ x, a.run = some (.ok x) ∧ (f x).run = some (.ok y) := by
  have hrun : ((ExceptT.mk a.run) >>= f).run = some (.ok y) := h
  cases ha : a.run with
  | none =>
    rw [ha] at hrun
    cases hrun
  | some r =>
    rw [ha] at hrun
    cases r with
    | error e => cases hrun
    | ok x => exact ⟨x, rfl, hrun⟩

theorem run_bind_error {e : ε} (h : (a >>= f).run = some (.error e)) :
    a.run = some (.error e) ∨ ∃ x, a.run = some (.ok x) ∧ (f x).run = some (.error e) := by
  have hrun : ((ExceptT.mk a.run) >>= f).run = some (.error e) := h
  cases ha : a.run with
  | none =>
    rw [ha] at hrun
    cases hrun
  | some r =>
    rw [ha] at hrun
    cases r with
    | error e' =>
      cases hrun
      exact .inl rfl
    | ok x => exact .inr ⟨x, rfl, hrun⟩

end Guarded
