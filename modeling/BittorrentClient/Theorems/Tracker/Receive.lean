import BittorrentClient.Client.Receive

/-! `AsyncReceiveWithTimeout` in every order of events: the callback of the receive is run once and before the coroutine
    returns, and what is returned is what the receive ended with. -/

namespace BittorrentClient
open Runs
open ReceiveFrame (start step)

/-! ### Where a run can be -/

/-- The frames that are reached, by where the coroutine is and whether the callback has been run. -/
inductive ReceiveStage (readMinimum : Nat) : ReceiveFrame → Prop where
  /-- The callback is still to come, and nothing was cancelled. -/
  | waiting {timeout receive} (htimeout : timeout = .pending ∨ timeout = .queued none)
      (hreceive : receive = .pending ∨ ∃ r : Received, r.ec ≠ some .operationAborted ∧ receive = .queued r) :
      ReceiveStage readMinimum ⟨timeout, .idle, receive, none, false, 0, .awaitTimeout⟩
  /-- The callback has been run before the end of the first wait, which is in the queue. -/
  | called {ok r} (hok : ok = none ∨ ok = some .operationAborted) :
      ReceiveStage readMinimum ⟨.queued ok, .idle, .dispatched r, r.ec, true, r.read, .awaitTimeout⟩
  /-- The timeout has expired, and the callback is in the queue. -/
  | expired {r} : ReceiveStage readMinimum ⟨.dispatched none, .pending, .queued r, none, false, 0, .awaitReadEnd⟩
  /-- The callback has been run and has ended the second wait. -/
  | notified {r} : ReceiveStage readMinimum
      ⟨.dispatched none, .queued (some .operationAborted), .dispatched r, r.ec, true, r.read, .awaitReadEnd⟩
  | returned {ok read_end r} (hend : read_end = .idle ∨ read_end = .dispatched (some .operationAborted)) :
      ReceiveStage readMinimum ⟨.dispatched ok, read_end, .dispatched r, r.ec, true, r.read,
        .returned (receiveResult r.ec r.read readMinimum)⟩

section
variable {readMinimum : Nat} {frame frame' : ReceiveFrame} {event : ReceiveEvent} {events : List ReceiveEvent}

theorem ReceiveStage.start : ReceiveStage readMinimum start := .waiting (.inl rfl) (.inl rfl)

/-- What an event is, and what it leaves. -/
theorem receive_step_cases (h : step readMinimum frame event = some frame') :
    (event = .expire ∧ frame.timeout = .pending ∧ frame' = { frame with timeout := .queued none }) ∨
    (∃ r : Received, event = .received r ∧ r.ec ≠ some .operationAborted ∧ frame.receive = .pending ∧
      frame' = { frame with receive := .queued r }) ∨
    (∃ r, event = .callback ∧ frame.receive = .queued r ∧
      frame' = ReceiveFrame.callback { frame with receive := .dispatched r } r) ∨
    (∃ ok, event = .resumeTimeout ∧ frame.timeout = .queued ok ∧
      frame' = ReceiveFrame.afterTimeout readMinimum { frame with timeout := .dispatched ok } ok) ∨
    (∃ ok, event = .resumeReadEnd ∧ frame.read_end = .queued ok ∧
      frame' = ReceiveFrame.afterReadEnd readMinimum { frame with read_end := .dispatched ok } ok) := by
  cases event with
  | expire =>
    obtain ⟨timeout, htimeout, rfl⟩ := Option.map_eq_some_iff.mp h
    obtain ⟨hpending, rfl⟩ := Operation.complete_eq_some_iff.mp htimeout
    exact .inl ⟨rfl, hpending, rfl⟩
  | received r =>
    rw [step] at h
    split at h
    · cases h
    · rename_i hec
      obtain ⟨receive, hreceive, rfl⟩ := Option.map_eq_some_iff.mp h
      obtain ⟨hpending, rfl⟩ := Operation.complete_eq_some_iff.mp hreceive
      exact .inr (.inl ⟨r, rfl, hec, hpending, rfl⟩)
  | callback =>
    obtain ⟨⟨r, receive⟩, hreceive, rfl⟩ := Option.map_eq_some_iff.mp h
    obtain ⟨hqueued, rfl⟩ := Operation.dispatch_eq_some_iff.mp hreceive
    exact .inr (.inr (.inl ⟨r, rfl, hqueued, rfl⟩))
  | resumeTimeout =>
    obtain ⟨⟨ok, timeout⟩, htimeout, rfl⟩ := Option.map_eq_some_iff.mp h
    obtain ⟨hqueued, rfl⟩ := Operation.dispatch_eq_some_iff.mp htimeout
    exact .inr (.inr (.inr (.inl ⟨ok, rfl, hqueued, rfl⟩)))
  | resumeReadEnd =>
    obtain ⟨⟨ok, readEnd⟩, hreadEnd, rfl⟩ := Option.map_eq_some_iff.mp h
    obtain ⟨hqueued, rfl⟩ := Operation.dispatch_eq_some_iff.mp hreadEnd
    exact .inr (.inr (.inr (.inr ⟨ok, rfl, hqueued, rfl⟩)))

/-- A completed receive has its callback to come. -/
theorem ReceiveStage.receive_queued (h : ReceiveStage readMinimum frame) {r : Received}
    (hqueued : frame.receive = .queued r) :
    (∃ timeout, (timeout = .pending ∨ timeout = .queued none) ∧ r.ec ≠ some .operationAborted ∧
      frame = ⟨timeout, .idle, .queued r, none, false, 0, .awaitTimeout⟩) ∨
    frame = ⟨.dispatched none, .pending, .queued r, none, false, 0, .awaitReadEnd⟩ := by
  cases h with
  | waiting htimeout hreceive =>
    rcases hreceive with rfl | ⟨r', hec, rfl⟩
    · cases hqueued
    · cases hqueued
      exact .inl ⟨_, htimeout, hec, rfl⟩
  | called => cases hqueued
  | expired =>
    cases hqueued
    exact .inr rfl
  | notified => cases hqueued
  | returned => cases hqueued

/-- The first wait has expired before the callback, or the callback has been run. -/
theorem ReceiveStage.timeout_queued (h : ReceiveStage readMinimum frame) {ok : Waited}
    (hqueued : frame.timeout = .queued ok) :
    (∃ receive, (receive = .pending ∨ ∃ r : Received, r.ec ≠ some .operationAborted ∧ receive = .queued r) ∧
      ok = none ∧ frame = ⟨.queued none, .idle, receive, none, false, 0, .awaitTimeout⟩) ∨
    (∃ r : Received, (ok = none ∨ ok = some .operationAborted) ∧
      frame = ⟨.queued ok, .idle, .dispatched r, r.ec, true, r.read, .awaitTimeout⟩) := by
  cases h with
  | waiting htimeout hreceive =>
    rcases htimeout with rfl | rfl
    · cases hqueued
    · cases hqueued
      exact .inl ⟨_, hreceive, rfl, rfl⟩
  | called hok =>
    cases hqueued
    exact .inr ⟨_, hok, rfl⟩
  | expired => cases hqueued
  | notified => cases hqueued
  | returned => cases hqueued

theorem ReceiveStage.expire (h : ReceiveStage readMinimum frame) (hpending : frame.timeout = .pending) :
    ReceiveStage readMinimum { frame with timeout := .queued none } := by
  cases h with
  | waiting _ hreceive => exact .waiting (.inr rfl) hreceive
  | called => cases hpending
  | expired => cases hpending
  | notified => cases hpending
  | returned => cases hpending

theorem ReceiveStage.received (h : ReceiveStage readMinimum frame) {r : Received} (hec : r.ec ≠ some .operationAborted)
    (hpending : frame.receive = .pending) : ReceiveStage readMinimum { frame with receive := .queued r } := by
  cases h with
  | waiting htimeout _ => exact .waiting htimeout (.inr ⟨r, hec, rfl⟩)
  | called => cases hpending
  | expired => cases hpending
  | notified => cases hpending
  | returned => cases hpending

/-- The callback ends the wait that the coroutine is in, unless that one has ended. -/
theorem ReceiveStage.callback (h : ReceiveStage readMinimum frame) {r : Received} (hqueued : frame.receive = .queued r) :
    ReceiveStage readMinimum (ReceiveFrame.callback { frame with receive := .dispatched r } r) := by
  rcases h.receive_queued hqueued with ⟨timeout, htimeout, hec, rfl⟩ | rfl
  · rw [ReceiveFrame.callback, if_neg hec]
    rcases htimeout with rfl | rfl
    · exact .called (.inr rfl)
    · exact .called (.inl rfl)
  · rw [ReceiveFrame.callback]
    split
    · exact .notified
    · exact .notified

theorem ReceiveStage.resumeTimeout (h : ReceiveStage readMinimum frame) {ok : Waited}
    (hqueued : frame.timeout = .queued ok) :
    ReceiveStage readMinimum (ReceiveFrame.afterTimeout readMinimum { frame with timeout := .dispatched ok } ok) := by
  rcases h.timeout_queued hqueued with ⟨receive, hreceive, rfl, rfl⟩ | ⟨r, hok, rfl⟩
  -- The receive is cancelled, which changes nothing when it has completed.
  · rcases hreceive with rfl | ⟨r, -, rfl⟩
    · exact .expired
    · exact .expired
  · rcases hok with rfl | rfl
    · exact .returned (.inl rfl)
    · exact .returned (.inl rfl)

theorem ReceiveStage.resumeReadEnd (h : ReceiveStage readMinimum frame) {ok : Waited}
    (hqueued : frame.read_end = .queued ok) :
    ReceiveStage readMinimum (ReceiveFrame.afterReadEnd readMinimum { frame with read_end := .dispatched ok } ok) := by
  cases h with
  | waiting => cases hqueued
  | called => cases hqueued
  | expired => cases hqueued
  | notified =>
    cases hqueued
    exact .returned (.inr rfl)
  | returned hend =>
    rcases hend with rfl | rfl
    · cases hqueued
    · cases hqueued

theorem ReceiveStage.kept (h : ReceiveStage readMinimum frame) (hstep : step readMinimum frame event = some frame') :
    ReceiveStage readMinimum frame' := by
  rcases receive_step_cases hstep with ⟨-, hpending, rfl⟩ | ⟨r, -, hec, hpending, rfl⟩ | ⟨r, -, hqueued, rfl⟩ |
    ⟨ok, -, hqueued, rfl⟩ | ⟨ok, -, hqueued, rfl⟩
  · exact h.expire hpending
  · exact h.received hec hpending
  · exact h.callback hqueued
  · exact h.resumeTimeout hqueued
  · exact h.resumeReadEnd hqueued

/-! ### What the events of a run say of the operations -/

/-- The timeout expired, and the receive had not completed by itself before. -/
def ExpiredFirst (events : List ReceiveEvent) : Prop :=
  ∃ before after, events = before ++ .expire :: after ∧ ∀ r, .received r ∉ before

structure ReceiveHistory (events : List ReceiveEvent) (frame : ReceiveFrame) : Prop where
  callbacks : events.count .callback = if frame.finished then 1 else 0
  expired : .expire ∈ events ↔ frame.timeout.result = some none
  received : ∀ r, .received r ∈ events ↔ frame.receive.result = some r ∧ r.ec ≠ some .operationAborted
  aborted : ∀ r, frame.receive.result = some r → r.ec = some .operationAborted → ExpiredFirst events

theorem ExpiredFirst.concat (h : ExpiredFirst events) : ExpiredFirst (events ++ [event]) := by
  obtain ⟨before, after, rfl, hbefore⟩ := h
  exact ⟨before, after ++ [event], List.append_assoc .., hbefore⟩

theorem expiredFirst_of_mem (h : .expire ∈ events) (hreceived : ∀ r, .received r ∉ events) : ExpiredFirst events := by
  obtain ⟨before, after, rfl⟩ := List.append_of_mem h
  exact ⟨before, after, rfl, fun r hr => hreceived r (List.mem_append_left _ hr)⟩

theorem ReceiveHistory.start : ReceiveHistory [] start := by
  refine ⟨rfl, ?_, ?_, ?_⟩
  · exact iff_of_false List.not_mem_nil nofun
  · intro r
    exact iff_of_false List.not_mem_nil nofun
  · nofun

/-- An event that completes nothing by itself and runs no callback leaves what is known. -/
theorem ReceiveHistory.quiet (h : ReceiveHistory events frame) (hcallback : event ≠ .callback) (hexpire : event ≠ .expire)
    (hevent : ∀ r, event ≠ .received r) (hfinished : frame'.finished = frame.finished)
    (htimeout : frame'.timeout.result = frame.timeout.result)
    (hreceive : ∀ r, frame'.receive.result = some r →
      frame.receive.result = some r ∨ (r.ec = some .operationAborted ∧ ExpiredFirst events))
    (hkept : ∀ r, frame.receive.result = some r → frame'.receive.result = some r) :
    ReceiveHistory (events ++ [event]) frame' := by
  have hcount : [event].count .callback = 0 := List.count_eq_zero_of_not_mem (by simpa using hcallback.symm)
  refine ⟨?_, ?_, ?_, ?_⟩
  · rw [List.count_append, h.callbacks, hcount, hfinished, Nat.add_zero]
  · rw [htimeout, ← h.expired]
    simp [hexpire.symm]
  · intro r
    rw [List.mem_append, List.mem_singleton, h.received]
    constructor
    · rintro (⟨hr, hec⟩ | hr)
      · exact ⟨hkept r hr, hec⟩
      · exact absurd hr.symm (hevent r)
    · rintro ⟨hr, hec⟩
      rcases hreceive r hr with hr | ⟨haborted, -⟩
      · exact .inl ⟨hr, hec⟩
      · exact absurd haborted hec
  · intro r hr hec
    rcases hreceive r hr with hr | ⟨-, hfirst⟩
    · exact (h.aborted r hr hec).concat
    · exact hfirst.concat

theorem ReceiveHistory.expire (h : ReceiveHistory events frame) :
    ReceiveHistory (events ++ [.expire]) { frame with timeout := .queued none } := by
  refine ⟨?_, ?_, ?_, ?_⟩
  · rw [List.count_append, h.callbacks]
    rfl
  · exact iff_of_true (List.mem_append_right _ List.mem_cons_self) rfl
  · intro r
    rw [List.mem_append, List.mem_singleton, h.received]
    exact or_iff_left nofun
  · intro r hr hec
    exact (h.aborted r hr hec).concat

theorem ReceiveHistory.receive (h : ReceiveHistory events frame) {r : Received} (hec : r.ec ≠ some .operationAborted)
    (hpending : frame.receive = .pending) :
    ReceiveHistory (events ++ [.received r]) { frame with receive := .queued r } := by
  refine ⟨?_, ?_, ?_, ?_⟩
  · rw [List.count_append, h.callbacks]
    rfl
  · rw [List.mem_append, List.mem_singleton, h.expired]
    exact or_iff_left nofun
  · intro r'
    rw [List.mem_append, List.mem_singleton, h.received, hpending, Operation.result_queued, Option.some.injEq,
      ReceiveEvent.received.injEq, Operation.result_pending]
    constructor
    · rintro (⟨hr', -⟩ | rfl)
      · cases hr'
      · exact ⟨rfl, hec⟩
    · rintro ⟨rfl, -⟩
      exact .inr rfl
  · rintro r' hr' hec'
    cases hr'
    exact absurd hec' hec

theorem ReceiveHistory.callback (h : ReceiveHistory events frame) {r : Received} (hqueued : frame.receive = .queued r)
    (hfinished : frame.finished = false) :
    ReceiveHistory (events ++ [.callback]) (ReceiveFrame.callback { frame with receive := .dispatched r } r) := by
  have hresult : frame.receive.result = some r := by rw [hqueued, Operation.result_queued]
  have hreceive : (ReceiveFrame.callback { frame with receive := .dispatched r } r).receive.result =
      frame.receive.result := by
    rw [hresult, ReceiveFrame.callback]
    dsimp only
    split <;> rfl
  have htimeout : (ReceiveFrame.callback { frame with receive := .dispatched r } r).timeout.result = some none ↔
      frame.timeout.result = some none := by
    rw [ReceiveFrame.callback]
    dsimp only
    split
    · exact Iff.rfl
    · refine ⟨?_, fun hexpired => by rwa [Operation.cancel_of_result hexpired]⟩
      intro hexpired
      rcases Operation.result_of_cancel hexpired with hexpired | ⟨-, haborted⟩
      · exact hexpired
      · cases haborted
  refine ⟨?_, ?_, ?_, ?_⟩
  · rw [List.count_append, h.callbacks, hfinished]
    rfl
  · rw [htimeout, ← h.expired, List.mem_append, List.mem_singleton]
    exact or_iff_left nofun
  · intro r'
    rw [hreceive, ← h.received, List.mem_append, List.mem_singleton]
    exact or_iff_left nofun
  · intro r' hr' hec
    rw [hreceive] at hr'
    exact (h.aborted r' hr' hec).concat

@[simp] theorem ReceiveFrame.afterTimeout_finished (ok : Waited) :
    (afterTimeout readMinimum frame ok).finished = frame.finished := by
  rw [afterTimeout]
  split <;> split <;> rfl

@[simp] theorem ReceiveFrame.afterTimeout_timeout (ok : Waited) :
    (afterTimeout readMinimum frame ok).timeout = frame.timeout := by
  rw [afterTimeout]
  split <;> split <;> rfl

@[simp] theorem ReceiveFrame.afterTimeout_receive (ok : Waited) : (afterTimeout readMinimum frame ok).receive =
    if ok ≠ some .operationAborted then frame.receive.cancel ⟨some .operationAborted, 0⟩ else frame.receive := by
  rw [afterTimeout]
  split <;> split <;> rfl

@[simp] theorem ReceiveFrame.afterReadEnd_finished (ok : Waited) :
    (afterReadEnd readMinimum frame ok).finished = frame.finished := by
  rw [afterReadEnd]
  split <;> rfl

@[simp] theorem ReceiveFrame.afterReadEnd_timeout (ok : Waited) :
    (afterReadEnd readMinimum frame ok).timeout = frame.timeout := by
  rw [afterReadEnd]
  split <;> rfl

@[simp] theorem ReceiveFrame.afterReadEnd_receive (ok : Waited) :
    (afterReadEnd readMinimum frame ok).receive = frame.receive := by
  rw [afterReadEnd]
  split <;> rfl

/-- A receive that is cancelled is cancelled by a timeout that expired before it completed. -/
theorem ReceiveHistory.resumeTimeout (h : ReceiveHistory events frame) {ok : Waited} (hqueued : frame.timeout = .queued ok)
    (hok : ok = none ∨ ok = some .operationAborted) :
    ReceiveHistory (events ++ [.resumeTimeout])
      (ReceiveFrame.afterTimeout readMinimum { frame with timeout := .dispatched ok } ok) := by
  refine h.quiet nofun nofun nofun ?_ ?_ ?_ ?_
  · exact ReceiveFrame.afterTimeout_finished ok
  · rw [ReceiveFrame.afterTimeout_timeout, hqueued]
    rfl
  · intro r hr
    rw [ReceiveFrame.afterTimeout_receive] at hr
    rcases hok with rfl | rfl
    · rw [if_pos (by simp)] at hr
      rcases Operation.result_of_cancel hr with hr | ⟨hpending, rfl⟩
      · exact .inl hr
      · refine .inr ⟨rfl, expiredFirst_of_mem ?_ ?_⟩
        · rw [h.expired, hqueued, Operation.result_queued]
        · intro r hr
          have hresult : frame.receive.result = some r := ((h.received r).mp hr).1
          rw [show frame.receive = .pending from hpending] at hresult
          cases hresult
    · rw [if_neg (by simp)] at hr
      exact .inl hr
  · intro r hr
    rw [ReceiveFrame.afterTimeout_receive]
    split
    · rwa [Operation.cancel_of_result hr]
    · exact hr

theorem ReceiveHistory.resumeReadEnd (h : ReceiveHistory events frame) {ok : Waited} :
    ReceiveHistory (events ++ [.resumeReadEnd])
      (ReceiveFrame.afterReadEnd readMinimum { frame with read_end := .dispatched ok } ok) := by
  refine h.quiet nofun nofun nofun ?_ ?_ ?_ ?_
  · exact ReceiveFrame.afterReadEnd_finished ok
  · rw [ReceiveFrame.afterReadEnd_timeout]
  · intro r hr
    rw [ReceiveFrame.afterReadEnd_receive] at hr
    exact .inl hr
  · intro r hr
    rwa [ReceiveFrame.afterReadEnd_receive]

theorem ReceiveStage.not_finished (h : ReceiveStage readMinimum frame) {r : Received}
    (hqueued : frame.receive = .queued r) : frame.finished = false := by
  rcases h.receive_queued hqueued with ⟨timeout, -, -, rfl⟩ | rfl
  · rfl
  · rfl

theorem ReceiveStage.waited (h : ReceiveStage readMinimum frame) {ok : Waited} (hqueued : frame.timeout = .queued ok) :
    ok = none ∨ ok = some .operationAborted := by
  rcases h.timeout_queued hqueued with ⟨receive, -, rfl, -⟩ | ⟨r, hok, -⟩
  · exact .inl rfl
  · exact hok

theorem ReceiveHistory.kept (h : ReceiveHistory events frame) (hstage : ReceiveStage readMinimum frame)
    (hstep : step readMinimum frame event = some frame') : ReceiveHistory (events ++ [event]) frame' := by
  rcases receive_step_cases hstep with ⟨rfl, -, rfl⟩ | ⟨r, rfl, hec, hpending, rfl⟩ | ⟨r, rfl, hqueued, rfl⟩ |
    ⟨ok, rfl, hqueued, rfl⟩ | ⟨ok, rfl, -, rfl⟩
  · exact h.expire
  · exact h.receive hec hpending
  · exact h.callback hqueued (hstage.not_finished hqueued)
  · exact h.resumeTimeout hqueued (hstage.waited hqueued)
  · exact h.resumeReadEnd

theorem receiveRun_invariant (h : receiveRun readMinimum events = some frame) :
    ReceiveStage readMinimum frame ∧ ReceiveHistory events frame := by
  refine invariant (I := fun events frame => ReceiveStage readMinimum frame ∧ ReceiveHistory events frame) h ?_ ?_
  · exact ⟨.start, .start⟩
  · rintro before t event t' ⟨hstage, hhistory⟩ hevent
    exact ⟨hstage.kept hevent, hhistory.kept hstage hevent⟩

/-! ### The end of a run -/

/-- How many more events there can be, at most. -/
def ReceiveFrame.rank (frame : ReceiveFrame) : Nat := frame.timeout.rank + frame.read_end.rank + frame.receive.rank

theorem ReceiveFrame.rank_callback_le (r : Received) : (callback frame r).rank ≤ frame.rank := by
  have htimeout := Operation.rank_cancel_le (some .operationAborted) frame.timeout
  have hreadEnd := Operation.rank_cancel_le (some .operationAborted) frame.read_end
  rw [callback]
  split
  · simp only [rank]
    omega
  · simp only [rank]
    omega

theorem ReceiveFrame.rank_afterTimeout_le (hidle : frame.read_end = .idle) (ok : Waited) :
    (afterTimeout readMinimum frame ok).rank ≤ frame.rank := by
  have hreceive := Operation.rank_cancel_le ⟨some .operationAborted, 0⟩ frame.receive
  have hreadEnd : (Operation.pending : Operation Waited).rank = frame.read_end.rank := by rw [hidle]; rfl
  rw [afterTimeout]
  split
  · split
    · simp only [rank]
      omega
    · simp only [rank, return_]
      omega
  · split
    · simp only [rank]
      omega
    · exact Nat.le_refl _

theorem ReceiveFrame.rank_afterReadEnd (ok : Waited) : (afterReadEnd readMinimum frame ok).rank = frame.rank := by
  rw [afterReadEnd]
  split <;> rfl

theorem ReceiveStage.read_end_idle (h : ReceiveStage readMinimum frame) {ok : Waited}
    (hqueued : frame.timeout = .queued ok) : frame.read_end = .idle := by
  rcases h.timeout_queued hqueued with ⟨receive, -, -, rfl⟩ | ⟨r, -, rfl⟩
  · rfl
  · rfl

theorem ReceiveStage.rank_lt (h : ReceiveStage readMinimum frame) (hstep : step readMinimum frame event = some frame') :
    frame'.rank < frame.rank := by
  rcases receive_step_cases hstep with ⟨-, hpending, rfl⟩ | ⟨r, -, -, hpending, rfl⟩ | ⟨r, -, hqueued, rfl⟩ |
    ⟨ok, -, hqueued, rfl⟩ | ⟨ok, -, hqueued, rfl⟩
  · simp [ReceiveFrame.rank, hpending, Operation.rank]
  · simp [ReceiveFrame.rank, hpending, Operation.rank]
  · refine Nat.lt_of_le_of_lt (ReceiveFrame.rank_callback_le r) ?_
    simp [ReceiveFrame.rank, hqueued, Operation.rank]
  · have hidle : ({ frame with timeout := .dispatched ok } : ReceiveFrame).read_end = .idle := h.read_end_idle hqueued
    refine Nat.lt_of_le_of_lt (ReceiveFrame.rank_afterTimeout_le hidle ok) ?_
    simp [ReceiveFrame.rank, hqueued, Operation.rank]
  · rw [ReceiveFrame.rank_afterReadEnd]
    simp [ReceiveFrame.rank, hqueued, Operation.rank]

/-- Events go on until the coroutine has returned, and no longer. -/
theorem ReceiveStage.last_iff (h : ReceiveStage readMinimum frame) :
    (∀ event, step readMinimum frame event = none) ↔ ∃ result, frame.point = .returned result := by
  constructor
  · intro hnone
    cases h with
    | waiting htimeout =>
      rcases htimeout with rfl | rfl
      · cases hnone .expire
      · cases hnone .resumeTimeout
    | called => cases hnone .resumeTimeout
    | expired => cases hnone .callback
    | notified => cases hnone .resumeReadEnd
    | returned => exact ⟨_, rfl⟩
  · rintro ⟨result, hresult⟩ event
    cases h with
    | waiting => cases hresult
    | called => cases hresult
    | expired => cases hresult
    | notified => cases hresult
    | returned hend =>
      rcases hend with rfl | rfl
      · cases event <;> simp [step, Operation.complete, Operation.dispatch]
      · cases event <;> simp [step, Operation.complete, Operation.dispatch]

/-- What is returned is what the receive ended with. -/
theorem ReceiveStage.result_eq (h : ReceiveStage readMinimum frame) {result : Except UdpError Nat}
    (hreturned : frame.point = .returned result) :
    ∃ r, frame.receive.result = some r ∧ frame.finished = true ∧ result = receiveResult r.ec r.read readMinimum := by
  cases h with
  | waiting => cases hreturned
  | called => cases hreturned
  | expired => cases hreturned
  | notified => cases hreturned
  | returned =>
    cases hreturned
    exact ⟨_, rfl, rfl, rfl⟩

theorem receiveResult_ok_iff {ec : Option SocketError} {read n : Nat} :
    receiveResult ec read readMinimum = .ok n ↔ ec = none ∧ read = n ∧ readMinimum ≤ n := by
  cases ec with
  | some e => exact ⟨nofun, nofun⟩
  | none =>
    rw [receiveResult]
    split
    · rename_i hle
      rw [Except.ok.injEq]
      exact ⟨fun h => ⟨rfl, h, h ▸ hle⟩, fun h => h.2.1⟩
    · rename_i hle
      refine ⟨nofun, ?_⟩
      rintro ⟨-, rfl, h⟩
      exact absurd h hle

theorem receiveResult_socket_iff {ec : Option SocketError} {read : Nat} {e : SocketError} :
    receiveResult ec read readMinimum = .error (.socket e) ↔ ec = some e := by
  cases ec with
  | some e' => simp [receiveResult]
  | none =>
    rw [receiveResult]
    split
    · exact ⟨nofun, nofun⟩
    · exact ⟨nofun, nofun⟩

/-- How a receive into a buffer is told to the callback. -/
def Reception.told (cuts : Bool) (size : Nat) (reception : Reception) : Received :=
  ⟨(asyncReceiveFrom cuts size reception).1, (asyncReceiveFrom cuts size reception).2.1⟩

/-- Every run returns what the receive alone decides, in whatever order the events come. -/
theorem receiveRun_returned (h : receiveRun readMinimum events = some frame) {result : Except UdpError Nat}
    (hreturned : frame.point = .returned result) {cuts : Bool} {size : Nat} {reception : Reception}
    (htold : frame.receive.result = some (reception.told cuts size)) :
    result = (asyncReceiveWithTimeout cuts size readMinimum reception).1 := by
  obtain ⟨r, hr, -, rfl⟩ := (receiveRun_invariant h).1.result_eq hreturned
  cases hr.symm.trans htold
  rfl

end

/-- After the events, the coroutine has not returned without its callback, nor found the other timer expired; what it
    returned is decided by the events, as the receive alone decides it, and there are more events until it returns. -/
structure ReceivesOnce (readMinimum : Nat) (events : List ReceiveEvent) (frame : ReceiveFrame) : Prop where
  callbackOnce : ∀ result, frame.point = .returned result → events.count .callback = 1
  untouched : ∀ result, frame.point = .returned result → ∀ event, step readMinimum frame event = none
  noAssertion : frame.point ≠ .assertionFailed
  success : ∀ result, frame.point = .returned result → ∀ n,
    result = .ok n ↔ .received ⟨none, n⟩ ∈ events ∧ readMinimum ≤ n
  aborted : frame.point = .returned (.error (.socket .operationAborted)) → ExpiredFirst events
  returns : (∀ event, step readMinimum frame event = none) → ∃ result, frame.point = .returned result
  bounded : events.length ≤ 6
  decided : ∀ result, frame.point = .returned result → ∀ cuts size (reception : Reception),
    frame.receive.result = some (reception.told cuts size) →
      result = (asyncReceiveWithTimeout cuts size readMinimum reception).1

theorem receivesOnce (readMinimum : Nat) (events : List ReceiveEvent) (frame : ReceiveFrame)
    (h : receiveRun readMinimum events = some frame) : ReceivesOnce readMinimum events frame := by
  obtain ⟨hstage, hhistory⟩ := receiveRun_invariant h
  refine ⟨?_, ?_, ?_, ?_, ?_, ?_, ?_, ?_⟩
  · intro result hreturned
    obtain ⟨r, -, hfinished, -⟩ := hstage.result_eq hreturned
    rw [hhistory.callbacks, hfinished]
    rfl
  · intro result hreturned
    exact hstage.last_iff.mpr ⟨result, hreturned⟩
  · intro hfailed
    cases hstage <;> cases hfailed
  · intro result hreturned n
    obtain ⟨r, hr, -, rfl⟩ := hstage.result_eq hreturned
    rw [receiveResult_ok_iff, hhistory.received, hr]
    constructor
    · rintro ⟨hec, hread, hle⟩
      refine ⟨⟨?_, nofun⟩, hle⟩
      rw [← hec, ← hread]
    · rintro ⟨⟨hreceived, -⟩, hle⟩
      cases hreceived
      exact ⟨rfl, rfl, hle⟩
  · intro hreturned
    obtain ⟨r, hr, -, hresult⟩ := hstage.result_eq hreturned
    exact hhistory.aborted r hr (receiveResult_socket_iff.mp hresult.symm)
  · exact hstage.last_iff.mp
  · have hle := length_add_rank_le (ReceiveStage readMinimum) ReceiveFrame.rank h .start
      fun t event t' hstage hevent => ⟨hstage.kept hevent, hstage.rank_lt hevent⟩
    exact Nat.le_trans (Nat.le_add_right _ _) hle
  · intro result hreturned cuts size reception htold
    exact receiveRun_returned h hreturned htold

/-- The datagram and the expiry are both in the queue when the coroutine is resumed. -/
theorem receivesOnce_bothQueued : ∃ frame,
    receiveRun 16 [.received ⟨none, 16⟩, .expire, .resumeTimeout, .callback, .resumeReadEnd] = some frame ∧
      ReceivesOnce 16 [.received ⟨none, 16⟩, .expire, .resumeTimeout, .callback, .resumeReadEnd] frame ∧
      frame.point = .returned (.ok 16) := by
  refine ⟨_, rfl, receivesOnce _ _ _ rfl, rfl⟩

end BittorrentClient
