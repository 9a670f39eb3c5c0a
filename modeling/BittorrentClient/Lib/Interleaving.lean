import Mathlib.Logic.Relation
import Mathlib.Data.List.Basic

/-! Parties that share a state and act one at a time, in any order; new ones may join at any time. -/

namespace Interleaving
variable {Shared Party Party' : Type}

structure World (Shared Party : Type) where
  shared : Shared
  parties : List Party

/-- The parties that may join, and how a party may act on the shared state. -/
structure Rules (Shared Party : Type) where
  joins : Party → Prop
  acts : Shared → Party → Shared → Party → Prop

inductive Step (R : Rules Shared Party) : World Shared Party → World Shared Party → Prop where
  | join {shared parties p} (h : R.joins p) : Step R ⟨shared, parties⟩ ⟨shared, parties ++ [p]⟩
  | act {shared shared' before p p' after} (h : R.acts shared p shared' p') :
      Step R ⟨shared, before ++ p :: after⟩ ⟨shared', before ++ p' :: after⟩

/-- The worlds that are reached from a shared state without parties. -/
def Reachable (R : Rules Shared Party) (start : Shared) (w : World Shared Party) : Prop :=
  Relation.ReflTransGen (Step R) ⟨start, []⟩ w

namespace Reachable
variable {R : Rules Shared Party} {start : Shared} {w : World Shared Party}

/-- What holds at the start and is kept by every step holds in every reachable world. -/
theorem invariant {I : World Shared Party → Prop} (h : Reachable R start w) (hstart : I ⟨start, []⟩)
    (hstep : ∀ v v', Reachable R start v → I v → Step R v v' → I v') : I w := by
  induction h with
  | refl => exact hstart
  | tail hv hvw ih => exact hstep _ _ hv ih hvw

/-- A shared invariant and one of each party: a party keeps both when it acts, and leaves alone those of the
    others. What is already known of the reachable worlds may be used. -/
theorem each {G : World Shared Party → Prop} {I : Shared → Prop} {L : Shared → Party → Prop} (h : Reachable R start w)
    (hG : ∀ v, Reachable R start v → G v) (hstart : I start) (hjoin : ∀ s p, R.joins p → L s p)
    (hact : ∀ s before p after s' p', G ⟨s, before ++ p :: after⟩ → I s → L s p → R.acts s p s' p' →
      I s' ∧ L s' p' ∧ ∀ q ∈ before ++ after, L s q → L s' q) : I w.shared ∧ ∀ p ∈ w.parties, L w.shared p := by
  refine h.invariant (I := fun w => I w.shared ∧ ∀ p ∈ w.parties, L w.shared p)
    ⟨hstart, List.forall_mem_nil _⟩ ?_
  rintro v v' hv ⟨hI, hL⟩ hstep
  cases hstep with
  | join hp => exact ⟨hI, List.forall_mem_append.mpr ⟨hL, List.forall_mem_singleton.mpr (hjoin _ _ hp)⟩⟩
  | @act s s' before p p' after hp =>
    obtain ⟨hbefore, hrest⟩ := List.forall_mem_append.mp hL
    obtain ⟨hown, hafter⟩ := List.forall_mem_cons.mp hrest
    obtain ⟨hI', hp', hothers⟩ := hact s before p after s' p' (hG _ hv) hI hown hp
    refine ⟨hI', List.forall_mem_append.mpr ⟨?_, List.forall_mem_cons.mpr ⟨hp', ?_⟩⟩⟩
    · intro q hq
      exact hothers q (List.mem_append_left _ hq) (hbefore q hq)
    · intro q hq
      exact hothers q (List.mem_append_right _ hq) (hafter q hq)

/-- Forgetting a part of the parties: where their acts are acts of what remains, or change nothing that
    remains, reachable worlds stay reachable. -/
theorem map {R' : Rules Shared Party'} (f : Party → Party') (h : Reachable R start w)
    (hjoins : ∀ p, R.joins p → R'.joins (f p))
    (hacts : ∀ s p s' p', R.acts s p s' p' → R'.acts s (f p) s' (f p') ∨ (s' = s ∧ f p' = f p)) :
    Reachable R' start ⟨w.shared, w.parties.map f⟩ := by
  induction h with
  | refl => exact Relation.ReflTransGen.refl
  | tail _ hstep ih =>
    cases hstep with
    | join hp =>
      rw [List.map_append, List.map_singleton]
      exact ih.tail (.join (hjoins _ hp))
    | act hp =>
      rw [List.map_append, List.map_cons] at ih ⊢
      rcases hacts _ _ _ _ hp with hact | ⟨rfl, heq⟩
      · exact ih.tail (.act hact)
      · rw [heq]
        exact ih

theorem act_mem {p p' : Party} {s : Shared} (h : Reachable R start w) (hp : p ∈ w.parties) (hact : R.acts w.shared p s p') :
    ∃ parties, Reachable R start ⟨s, parties⟩ := by
  obtain ⟨shared, parties⟩ := w
  obtain ⟨before, after, rfl⟩ := List.append_of_mem hp
  exact ⟨_, h.tail (.act hact)⟩

/-! A single party -/

theorem join {p : Party} (h : R.joins p) : Reachable R start ⟨start, [p]⟩ := Relation.ReflTransGen.refl.tail (.join h)

theorem act {s s' : Shared} {p p' : Party} (h : Reachable R start ⟨s, [p]⟩) (hact : R.acts s p s' p') :
    Reachable R start ⟨s', [p']⟩ :=
  h.tail (Step.act hact : Step R ⟨s, [] ++ p :: []⟩ ⟨s', [] ++ p' :: []⟩)

end Reachable

end Interleaving
