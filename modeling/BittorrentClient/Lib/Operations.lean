import Mathlib.Data.List.Induction

/-! Asynchronous operations of an executor with one thread: each completes once, by itself or because it is cancelled,
    and its handler is then run from a queue. Runs of events over a state, and what holds after each of them. -/

/-- Not started, running, completed with its handler in the queue, and with its handler run. -/
inductive Operation (ρ : Type) where
  | idle
  | pending
  | queued (result : ρ)
  | dispatched (result : ρ)
  deriving DecidableEq, Repr

namespace Operation
variable {ρ : Type}

/-- The operation completes by itself. -/
def complete (result : ρ) : Operation ρ → Option (Operation ρ)
  | pending => some (queued result)
  | _ => none

/-- A cancel completes what is running, and leaves alone what has completed. -/
def cancel (aborted : ρ) : Operation ρ → Operation ρ
  | pending => queued aborted
  | op => op

/-- The handler is taken from the queue. -/
def dispatch : Operation ρ → Option (ρ × Operation ρ)
  | queued result => some (result, dispatched result)
  | _ => none

/-- What the operation has completed with. -/
def result : Operation ρ → Option ρ
  | queued result => some result
  | dispatched result => some result
  | _ => none

/-- How many more times the operation can move. -/
def rank : Operation ρ → Nat
  | idle => 2
  | pending => 2
  | queued _ => 1
  | dispatched _ => 0

theorem complete_eq_some_iff {result : ρ} {op op' : Operation ρ} :
    op.complete result = some op' ↔ op = pending ∧ op' = queued result := by
  cases op <;> simp [complete, eq_comm]

theorem dispatch_eq_some_iff {result : ρ} {op op' : Operation ρ} :
    op.dispatch = some (result, op') ↔ op = queued result ∧ op' = dispatched result := by
  cases op with
  | queued result' =>
    simp only [dispatch, Option.some.injEq, Prod.mk.injEq, queued.injEq]
    refine and_congr_right ?_
    rintro rfl
    exact eq_comm
  | idle => simp [dispatch]
  | pending => simp [dispatch]
  | dispatched result' => simp [dispatch]

@[simp] theorem result_pending : (pending : Operation ρ).result = none := rfl
@[simp] theorem result_queued (result : ρ) : (queued result).result = some result := rfl
@[simp] theorem result_dispatched (result : ρ) : (dispatched result).result = some result := rfl

theorem cancel_of_result {result : ρ} {op : Operation ρ} (h : op.result = some result) (aborted : ρ) :
    op.cancel aborted = op := by
  cases op with
  | pending => cases h
  | idle => rfl
  | queued result => rfl
  | dispatched result => rfl

/-- A cancel brings in no other result than its own. -/
theorem result_of_cancel {aborted result : ρ} {op : Operation ρ} (h : (op.cancel aborted).result = some result) :
    op.result = some result ∨ (op = pending ∧ result = aborted) := by
  cases op with
  | pending => exact .inr ⟨rfl, (Option.some.inj h).symm⟩
  | idle => exact .inl h
  | queued result' => exact .inl h
  | dispatched result' => exact .inl h

theorem rank_cancel_le (aborted : ρ) (op : Operation ρ) : (op.cancel aborted).rank ≤ op.rank := by
  cases op <;> simp [cancel, rank]

end Operation

/-! ### Runs of events -/

namespace Runs
variable {σ ε : Type} {step : σ → ε → Option σ} {s s' s'' : σ} {events events' : List ε}

/-- The state after the events, where each of them can happen. -/
def run (step : σ → ε → Option σ) : σ → List ε → Option σ
  | s, [] => some s
  | s, event :: events => (step s event).bind fun s' => run step s' events

theorem run_append : run step s (events ++ events') = (run step s events).bind fun s' => run step s' events' := by
  induction events generalizing s with
  | nil => rfl
  | cons event events ih =>
    rw [List.cons_append, run, run, Option.bind_assoc]
    exact Option.bind_congr fun s' _ => ih

theorem run_concat {event : ε} : run step s (events ++ [event]) = (run step s events).bind fun s' => step s' event := by
  rw [run_append]
  refine Option.bind_congr ?_
  intro s' _
  cases h : step s' event with
  | none => rw [run, h, Option.bind_none]
  | some s'' => rw [run, h, Option.bind_some, run]

/-- What holds at the start and is kept by every event holds after every run, of the events and the state. -/
theorem invariant {I : List ε → σ → Prop} (hrun : run step s events = some s') (hstart : I [] s)
    (hstep : ∀ before t event t', I before t → step t event = some t' → I (before ++ [event]) t') : I events s' := by
  induction events using List.reverseRecOn generalizing s' with
  | nil =>
    cases hrun
    exact hstart
  | append_singleton before event ih =>
    rw [run_concat] at hrun
    obtain ⟨t, ht, hevent⟩ := Option.bind_eq_some_iff.mp hrun
    exact hstep before t event s' (ih ht) hevent

/-- Where each event uses up some of a rank, a run is no longer than the rank at its start. -/
theorem length_add_rank_le (I : σ → Prop) (rank : σ → Nat) (hrun : run step s events = some s') (hstart : I s)
    (hstep : ∀ t event t', I t → step t event = some t' → I t' ∧ rank t' < rank t) :
    events.length + rank s' ≤ rank s := by
  have hkept : I s' ∧ events.length + rank s' ≤ rank s := by
    refine invariant (I := fun before t => I t ∧ before.length + rank t ≤ rank s) hrun ?_ ?_
    · exact ⟨hstart, Nat.le_of_eq (Nat.zero_add _)⟩
    · rintro before t event t' ⟨hI, hle⟩ hevent
      obtain ⟨hI', hlt⟩ := hstep t event t' hI hevent
      refine ⟨hI', ?_⟩
      rw [List.length_append, List.length_singleton]
      omega
  exact hkept.2

end Runs
