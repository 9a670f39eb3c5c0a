import Mathlib.Data.List.Forall2

/-! Computations that may fail, taken apart: a sequence of steps gives a result when every step does. -/

namespace Outcome
variable {ε α β : Type}

theorem bind_ok {x : Except ε α} {f : α → Except ε β} {b : β} (h : x >>= f = .ok b) : ∃ a, x = .ok a ∧ f a = .ok b := by
  cases x with
  | error e => cases h
  | ok a => exact ⟨a, rfl, h⟩

theorem ok_of_map {x : Except ε α} {f : α → β} {b : β} (h : x.map f = .ok b) : ∃ a, x = .ok a ∧ f a = b := by
  cases x with
  | error e => cases h
  | ok a => exact ⟨a, rfl, Except.ok.inj h⟩

/-- What is computed for each element of a list. -/
theorem forall₂_of_mapM_ok {f : α → Except ε β} {l : List α} {l' : List β} (h : l.mapM f = .ok l') :
    List.Forall₂ (fun a b => f a = .ok b) l l' := by
  induction l generalizing l' with
  | nil =>
    cases h
    exact .nil
  | cons a l ih =>
    rw [List.mapM_cons] at h
    obtain ⟨b, hb, h⟩ := bind_ok h
    obtain ⟨bs, hbs, h⟩ := bind_ok h
    cases h
    exact .cons hb (ih hbs)

@[simp] theorem ok_bind (a : α) (f : α → Except ε β) : (Except.ok a >>= f) = f a := rfl

/-! ### Results without the errors -/

theorem toOption_bind (x : Except ε α) (f : α → Except ε β) :
    (x >>= f).toOption = x.toOption.bind fun a => (f a).toOption := by
  cases x <;> rfl

theorem toOption_map (x : Except ε α) (f : α → β) : (x.map f).toOption = x.toOption.map f := by
  cases x <;> rfl

theorem toOption_eq_some {x : Except ε α} {a : α} : x.toOption = some a ↔ x = .ok a := by
  cases x with
  | error e => exact ⟨nofun, nofun⟩
  | ok b => exact ⟨fun h => congrArg Except.ok (Option.some.inj h), fun h => congrArg some (Except.ok.inj h)⟩

/-! ### Errors -/

/-- Every error satisfies `P`. -/
def Errors (P : ε → Prop) (x : Except ε α) : Prop := ∀ e, x = .error e → P e

namespace Errors
variable {P : ε → Prop} {x : Except ε α}

theorem ok (a : α) : Errors P (.ok a) := by
  rintro e ⟨⟩

theorem error {e : ε} (h : P e) : Errors P (Except.error e : Except ε α) := by
  rintro e' ⟨⟩
  exact h

theorem bind {f : α → Except ε β} (hx : Errors P x) (hf : ∀ a, x = .ok a → Errors P (f a)) : Errors P (x >>= f) := by
  cases x with
  | error e => exact error (hx e rfl)
  | ok a => exact hf a rfl

theorem map {f : α → β} (hx : Errors P x) : Errors P (x.map f) := by
  cases x with
  | error e => exact error (hx e rfl)
  | ok a => exact ok (f a)

end Errors

end Outcome
