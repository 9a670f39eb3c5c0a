import Mathlib.Data.List.Nodup

/-! A linked list with stable handles: a handle names its element until the element is erased, whatever is
    inserted or erased elsewhere, and no handle is ever given out again. -/

/-- `next` is the handle of the next element that is inserted. -/
structure StableList (α : Type) where
  nodes : List (Nat × α)
  next : Nat
  lt_next : ∀ node ∈ nodes, node.1 < next
  nodup : (nodes.map Prod.fst).Nodup

namespace StableList
variable {α : Type}

def empty : StableList α := ⟨[], 0, nofun, List.nodup_nil⟩

def isEmpty (l : StableList α) : Bool := l.nodes.isEmpty

def handles (l : StableList α) : List Nat := l.nodes.map Prod.fst

def get? (l : StableList α) (h : Nat) : Option α := l.nodes.lookup h

theorem lt_of_mem_handles {l : StableList α} {h : Nat} (hh : h ∈ l.handles) : h < l.next := by
  obtain ⟨node, hnode, rfl⟩ := List.mem_map.mp hh
  exact l.lt_next node hnode

/-- The list with `a` at its end; the handle of `a` is `l.next`. -/
def emplaceBack (l : StableList α) (a : α) : StableList α where
  nodes := l.nodes ++ [(l.next, a)]
  next := l.next + 1
  lt_next := by
    rw [List.forall_mem_append]
    exact ⟨fun node hnode => Nat.lt_succ_of_lt (l.lt_next node hnode), List.forall_mem_singleton.mpr (Nat.lt_succ_self _)⟩
  nodup := by
    rw [List.map_append]
    refine List.Nodup.append l.nodup (List.nodup_singleton _) ?_
    intro h hh hnext
    exact absurd (lt_of_mem_handles hh) (Nat.not_lt.mpr (Nat.le_of_eq (List.mem_singleton.mp hnext).symm))

theorem map_fst_modify (nodes : List (Nat × α)) (h : Nat) (f : α → α) :
    (nodes.map fun node => if node.1 = h then (node.1, f node.2) else node).map Prod.fst = nodes.map Prod.fst := by
  rw [List.map_map]
  refine List.map_congr_left ?_
  intro node _
  rw [Function.comp]
  split <;> rfl

/-- The element behind the handle is changed in place. -/
def modify (l : StableList α) (h : Nat) (f : α → α) : StableList α where
  nodes := l.nodes.map fun node => if node.1 = h then (node.1, f node.2) else node
  next := l.next
  lt_next := by
    rw [List.forall_mem_map]
    intro node hnode
    split <;> exact l.lt_next node hnode
  nodup := by
    rw [map_fst_modify]
    exact l.nodup

def erase (l : StableList α) (h : Nat) : StableList α where
  nodes := l.nodes.filter fun node => node.1 ≠ h
  next := l.next
  lt_next := fun node hnode => l.lt_next node (List.mem_filter.mp hnode).1
  nodup := l.nodup.sublist (List.filter_sublist.map _)

/-! ### Handles -/

@[simp] theorem handles_emplaceBack (l : StableList α) (a : α) : (l.emplaceBack a).handles = l.handles ++ [l.next] := by
  simp only [handles, emplaceBack, List.map_append, List.map_singleton]

@[simp] theorem handles_modify (l : StableList α) (h : Nat) (f : α → α) : (l.modify h f).handles = l.handles :=
  map_fst_modify l.nodes h f

@[simp] theorem handles_erase (l : StableList α) (h : Nat) : (l.erase h).handles = l.handles.erase h := by
  rw [handles, handles, l.nodup.erase_eq_filter, erase, List.filter_map]
  exact congrArg (List.map Prod.fst) (List.filter_congr fun node _ => by rw [Function.comp, bne, decide_not]; rfl)

theorem isEmpty_iff {l : StableList α} : l.isEmpty = true ↔ l.handles = [] := by
  rw [isEmpty, List.isEmpty_iff, handles, List.map_eq_nil_iff]

theorem mem_handles_iff {l : StableList α} {h : Nat} : h ∈ l.handles ↔ ∃ a, l.get? h = some a := by
  rw [← Option.isSome_iff_exists, get?, List.lookup_isSome_iff, handles, List.mem_map]
  exact exists_congr fun node => and_congr_right fun _ => by rw [beq_iff_eq, eq_comm]

/-! ### Elements -/

theorem get?_next (l : StableList α) : l.get? l.next = none := by
  rw [← Option.not_isSome_iff_eq_none, Option.isSome_iff_exists, ← mem_handles_iff]
  exact fun h => Nat.lt_irrefl _ (lt_of_mem_handles h)

theorem get?_emplaceBack (l : StableList α) (a : α) (h : Nat) :
    (l.emplaceBack a).get? h = if h = l.next then some a else l.get? h := by
  rw [get?, emplaceBack, List.lookup_append, List.lookup_cons, List.lookup_nil]
  by_cases hh : h = l.next
  · have hnone : l.nodes.lookup l.next = none := l.get?_next
    rw [if_pos hh, hh, hnone, beq_self_eq_true]
    rfl
  · rw [if_neg hh, beq_false_of_ne hh, Option.or_none]
    rfl

theorem lookup_map_modify (nodes : List (Nat × α)) (h h' : Nat) (f : α → α) :
    (nodes.map fun node => if node.1 = h then (node.1, f node.2) else node).lookup h' =
      if h' = h then (nodes.lookup h').map f else nodes.lookup h' := by
  induction nodes with
  | nil => simp only [List.map_nil, List.lookup_nil, Option.map_none, ite_self]
  | cons node nodes ih =>
    obtain ⟨key, a⟩ := node
    rw [List.map_cons]
    by_cases hkey : h' = key
    · subst hkey
      by_cases hh : h' = h
      · rw [if_pos hh, if_pos hh, List.lookup_cons_self, List.lookup_cons_self, Option.map_some]
      · rw [if_neg hh, if_neg hh, List.lookup_cons_self, List.lookup_cons_self]
    · have hother : ∀ (b : α) rest, ((key, b) :: rest).lookup h' = rest.lookup h' := fun b rest => by
        rw [List.lookup_cons, beq_false_of_ne hkey]
      rw [hother a, ← ih]
      split <;> rw [hother]

theorem get?_modify (l : StableList α) (h h' : Nat) (f : α → α) :
    (l.modify h f).get? h' = if h' = h then (l.get? h').map f else l.get? h' :=
  lookup_map_modify l.nodes h h' f

theorem lookup_filter_ne (nodes : List (Nat × α)) (h h' : Nat) :
    (nodes.filter fun node => node.1 ≠ h).lookup h' = if h' = h then none else nodes.lookup h' := by
  induction nodes with
  | nil => simp only [List.filter_nil, List.lookup_nil, ite_self]
  | cons node nodes ih =>
    obtain ⟨key, a⟩ := node
    rw [List.filter_cons]
    by_cases hkey : key = h
    · rw [if_neg (by rw [decide_eq_true_iff]; exact not_not_intro hkey), ih]
      by_cases hh : h' = h
      · rw [if_pos hh, if_pos hh]
      · rw [if_neg hh, if_neg hh, List.lookup_cons, beq_false_of_ne (hkey ▸ hh)]
    · rw [if_pos (decide_eq_true hkey)]
      by_cases hh : h' = key
      · rw [hh, if_neg hkey, List.lookup_cons_self, List.lookup_cons_self]
      · rw [List.lookup_cons, List.lookup_cons, beq_false_of_ne hh, ih]

theorem get?_erase (l : StableList α) (h h' : Nat) : (l.erase h).get? h' = if h' = h then none else l.get? h' :=
  lookup_filter_ne l.nodes h h'

end StableList
