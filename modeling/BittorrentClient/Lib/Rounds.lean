import BittorrentClient.Lib.Interleaving

/-! Rounds of parties. The parties of a round take turns, in any order, and the next round begins with new parties when
    all have finished. Seen over all rounds they are parties that join and act in an interleaving. -/

namespace Rounds
open Interleaving (World)
variable {Shared Party Shared' Party' : Type}

/-- What a round begins with, how a party may act on the shared state, and when it has finished. -/
structure Rules (Shared Party : Type) where
  begins : Shared → Shared → List Party → Prop
  acts : Shared → Party → Shared → Party → Prop
  finished : Party → Prop

inductive Step (R : Rules Shared Party) : World Shared Party → World Shared Party → Prop where
  | begin {s s' old new} (hold : ∀ x ∈ old, R.finished x) (h : R.begins s s' new) : Step R ⟨s, old⟩ ⟨s', new⟩
  | act {s s' before x x' after} (h : R.acts s x s' x') : Step R ⟨s, before ++ x :: after⟩ ⟨s', before ++ x' :: after⟩

/-- A run from one world to another. -/
abbrev Run (R : Rules Shared Party) : World Shared Party → World Shared Party → Prop := Relation.ReflTransGen (Step R)

/-- The worlds that are reached from a shared state before the first round. -/
def Reachable (R : Rules Shared Party) (start : Shared) (w : World Shared Party) : Prop := Run R ⟨start, []⟩ w

namespace Reachable
variable {R : Rules Shared Party} {start : Shared} {w w' : World Shared Party}

/-- What holds at the start and is kept by every step holds in every reachable world. -/
theorem invariant {I : World Shared Party → Prop} (h : Reachable R start w) (hstart : I ⟨start, []⟩)
    (hstep : ∀ v v', Reachable R start v → I v → Step R v v' → I v') : I w := by
  induction h with
  | refl => exact hstart
  | tail hv hvw ih => exact hstep _ _ hv ih hvw

theorem run (h : Reachable R start w) (hrun : Run R w w') : Reachable R start w' := Relation.ReflTransGen.trans h hrun

/-- An invariant of each party: it holds of those that a round begins with, a party keeps its own when it acts, and
    leaves alone those of the others. What is already known of the reachable worlds may be used. -/
theorem each {G : World Shared Party → Prop} {L : Shared → Party → Prop} (h : Reachable R start w)
    (hG : ∀ v, Reachable R start v → G v) (hbegin : ∀ s s' new, R.begins s s' new → ∀ x ∈ new, L s' x)
    (hact : ∀ s before x after s' x', G ⟨s, before ++ x :: after⟩ → L s x → R.acts s x s' x' →
      L s' x' ∧ ∀ y ∈ before ++ after, L s y → L s' y) : ∀ x ∈ w.parties, L w.shared x := by
  refine h.invariant (I := fun w => ∀ x ∈ w.parties, L w.shared x) (List.forall_mem_nil _) ?_
  intro v v' hv hL hstep
  cases hstep with
  | begin _ hbegins => exact hbegin _ _ _ hbegins
  | @act s s' before x x' after hacts =>
    obtain ⟨hbefore, hrest⟩ := List.forall_mem_append.mp hL
    obtain ⟨hown, hafter⟩ := List.forall_mem_cons.mp hrest
    obtain ⟨hx', hothers⟩ := hact s before x after s' x' (hG _ hv) hown hacts
    refine List.forall_mem_append.mpr ⟨?_, List.forall_mem_cons.mpr ⟨hx', ?_⟩⟩
    · intro y hy
      exact hothers y (List.mem_append_left _ hy) (hbefore y hy)
    · intro y hy
      exact hothers y (List.mem_append_right _ hy) (hafter y hy)

end Reachable

/-! ### Over all rounds -/

/-- What the rounds do is what an interleaving does: a party becomes one of the interleaving at some point of its
    round, and from then on acts as it does. What every party keeps may be used. -/
structure Refines (R : Rules Shared Party) (R' : Interleaving.Rules Shared' Party') (view : Shared → Shared')
    (part : Party → Option Party') (I : Party → Prop) : Prop where
  begins : ∀ s s' new, R.begins s s' new → view s' = view s ∧ ∀ x ∈ new, I x ∧ part x = none
  keeps : ∀ s x s' x', R.acts s x s' x' → I x → I x'
  acts : ∀ s x s' x', R.acts s x s' x' → I x →
    (∃ q q', part x = some q ∧ part x' = some q' ∧ R'.acts (view s) q (view s') q') ∨
    (∃ q', part x = none ∧ part x' = some q' ∧ R'.joins q' ∧ view s' = view s) ∨
    (part x' = part x ∧ view s' = view s)

namespace Refines
variable {R : Rules Shared Party} {R' : Interleaving.Rules Shared' Party'} {view : Shared → Shared'}
  {part : Party → Option Party'} {I : Party → Prop} {start : Shared} {w : World Shared Party}

theorem parties (hR : Refines R R' view part I) (h : Reachable R start w) : ∀ x ∈ w.parties, I x := by
  refine h.invariant (I := fun w => ∀ x ∈ w.parties, I x) (List.forall_mem_nil _) ?_
  intro v v' _ hv hstep
  cases hstep with
  | begin _ h => exact fun x hx => ((hR.begins _ _ _ h).2 x hx).1
  | act h =>
    obtain ⟨hbefore, hrest⟩ := List.forall_mem_append.mp hv
    obtain ⟨hx, hafter⟩ := List.forall_mem_cons.mp hrest
    exact List.forall_mem_append.mpr ⟨hbefore, List.forall_mem_cons.mpr ⟨hR.keeps _ _ _ _ h hx, hafter⟩⟩

/-- A reachable world of the rounds is one of the interleaving, up to the order of the parties, together with the
    parties of earlier rounds. -/
theorem interleaved (hR : Refines R R' view part I) (h : Reachable R start w) :
    ∃ past parties, (∀ q ∈ past, ∃ x, R.finished x ∧ part x = some q) ∧
      parties.Perm (past ++ w.parties.filterMap part) ∧ Interleaving.Reachable R' (view start) ⟨view w.shared, parties⟩ := by
  induction h with
  | refl => exact ⟨[], [], List.forall_mem_nil _, List.Perm.refl _, Relation.ReflTransGen.refl⟩
  | tail hreach hstep ih =>
    have hparties := hR.parties hreach
    obtain ⟨past, parties, hpast, hperm, hreach⟩ := ih
    cases hstep with
    | @begin s s' old new hold hbegins =>
      obtain ⟨hview, hnew⟩ := hR.begins s s' new hbegins
      refine ⟨past ++ old.filterMap part, parties, ?_, ?_, ?_⟩
      · refine List.forall_mem_append.mpr ⟨hpast, ?_⟩
        intro q hq
        obtain ⟨x, hx, hpart⟩ := List.mem_filterMap.mp hq
        exact ⟨x, hold x hx, hpart⟩
      · rw [List.filterMap_eq_nil_iff.mpr fun x hx => (hnew x hx).2, List.append_nil]
        exact hperm
      · rw [hview]
        exact hreach
    | @act s s' before x x' after hacts =>
      have hx := hparties x List.mem_append_cons_self
      rw [List.filterMap_append, ← List.append_assoc] at hperm
      refine ⟨past, ?_⟩
      simp only [List.filterMap_append, ← List.append_assoc]
      rcases hR.acts s x s' x' hacts hx with ⟨q, q', hq, hq', hact⟩ | ⟨q', hq, hq', hjoin, hview⟩ | ⟨hsame, hview⟩
      · rw [List.filterMap_cons_some hq] at hperm
        rw [List.filterMap_cons_some hq']
        obtain ⟨first, last, hsplit⟩ := List.append_of_mem (hperm.mem_iff.mpr List.mem_append_cons_self)
        subst hsplit
        refine ⟨first ++ q' :: last, hpast, ?_, hreach.tail (.act hact)⟩
        have hothers := (List.perm_middle.symm.trans (hperm.trans List.perm_middle)).cons_inv
        exact List.perm_middle.trans ((hothers.cons q').trans List.perm_middle.symm)
      · rw [List.filterMap_cons_none hq] at hperm
        rw [List.filterMap_cons_some hq', hview]
        refine ⟨parties ++ [q'], hpast, ?_, hreach.tail (.join hjoin)⟩
        exact (List.perm_append_singleton _ _).trans ((hperm.cons q').trans List.perm_middle.symm)
      · rw [List.filterMap_cons, hsame, ← List.filterMap_cons, hview]
        exact ⟨parties, hpast, hperm, hreach⟩

/-- What a party has become is among the parties of a reachable interleaving. -/
theorem member (hR : Refines R R' view part I) (h : Reachable R start w) {x : Party} {q : Party'} (hx : x ∈ w.parties)
    (hq : part x = some q) :
    ∃ parties, q ∈ parties ∧ Interleaving.Reachable R' (view start) ⟨view w.shared, parties⟩ := by
  obtain ⟨past, parties, -, hperm, hreach⟩ := hR.interleaved h
  have hmem : q ∈ w.parties.filterMap part := List.mem_filterMap.mpr ⟨x, hx, hq⟩
  exact ⟨parties, hperm.mem_iff.mpr (List.mem_append_right _ hmem), hreach⟩

end Refines

/-- Forgetting a part of the parties. -/
theorem Run.map {R : Rules Shared Party} {R' : Rules Shared Party'} {w w' : World Shared Party} (f : Party → Party')
    (h : Run R w w') (hbegins : ∀ s s' new, R.begins s s' new → R'.begins s s' (new.map f))
    (hacts : ∀ s x s' x', R.acts s x s' x' → R'.acts s (f x) s' (f x')) (hfinished : ∀ x, R.finished x → R'.finished (f x)) :
    Run R' ⟨w.shared, w.parties.map f⟩ ⟨w'.shared, w'.parties.map f⟩ := by
  induction h with
  | refl => exact Relation.ReflTransGen.refl
  | tail _ hstep ih =>
    refine ih.tail ?_
    cases hstep with
    | begin hold h => exact .begin (List.forall_mem_map.mpr fun x hx => hfinished x (hold x hx)) (hbegins _ _ _ h)
    | act h =>
      simp only [List.map_append, List.map_cons]
      exact .act (hacts _ _ _ _ h)

/-- What is recorded of the parties restricts no run: a run of what remains is a run with the records. -/
theorem Run.lift {R : Rules Shared Party} {R' : Rules Shared Party'} {v : World Shared Party} {w' : World Shared Party'}
    (f : Party → Party') (h : Run R' ⟨v.shared, v.parties.map f⟩ w')
    (hbegins : ∀ s s' new, R'.begins s s' new → ∃ new', R.begins s s' new' ∧ new'.map f = new)
    (hacts : ∀ s x s' y, R'.acts s (f x) s' y → ∃ x', R.acts s x s' x' ∧ f x' = y)
    (hfinished : ∀ x, R'.finished (f x) → R.finished x) :
    ∃ w, Run R v w ∧ w.shared = w'.shared ∧ w.parties.map f = w'.parties := by
  induction h with
  | refl => exact ⟨v, Relation.ReflTransGen.refl, rfl, rfl⟩
  | tail _ hstep ih =>
    obtain ⟨⟨shared, parties⟩, hrun, rfl, hparties⟩ := ih
    cases hstep with
    | begin hold h =>
      obtain ⟨new, hnew, rfl⟩ := hbegins _ _ _ h
      refine ⟨_, hrun.tail (.begin ?_ hnew), rfl, rfl⟩
      intro x hx
      have hmem : f x ∈ parties.map f := List.mem_map_of_mem hx
      rw [hparties] at hmem
      exact hfinished x (hold _ hmem)
    | act h =>
      obtain ⟨before, rest, rfl, rfl, hrest⟩ := List.map_eq_append_iff.mp hparties
      obtain ⟨x, after, rfl, rfl, rfl⟩ := List.map_eq_cons_iff.mp hrest
      obtain ⟨x', hact, rfl⟩ := hacts _ _ _ _ h
      exact ⟨_, hrun.tail (.act hact), rfl, by rw [List.map_append, List.map_cons]⟩

end Rounds
