import Mathlib.Data.List.Nodup
import Mathlib.Data.List.Perm.Basic

/-! Dispatch by key: a slot waits for the first entry with its key and then is used up. Where the slots commute, they
    can be taken one after the other, each with the first value of its key. -/

namespace Dispatch
variable {K V S : Type} [DecidableEq K]

/-- The first value of a key. -/
def first (entries : List (K × V)) (key : K) : Option V := (entries.find? fun e => e.1 = key).map Prod.snd

structure Slot (K V S : Type) where
  key : K
  handle : S → V → Option S

/-- The entries, one after the other, over the slots that still wait. -/
def run : List (Slot K V S) → S → List (K × V) → Option S
  | _, s, [] => some s
  | slots, s, (k, v) :: entries =>
    match slots.find? fun slot => slot.key = k with
    | none => run slots s entries
    | some slot => (slot.handle s v).bind fun s => run (slots.eraseP fun slot => slot.key = k) s entries

/-- The slots, one after the other, each with the first value of its key. -/
def turns (entries : List (K × V)) : List (Slot K V S) → S → Option S
  | [], s => some s
  | slot :: slots, s =>
    match first entries slot.key with
    | none => turns entries slots s
    | some v => (slot.handle s v).bind (turns entries slots)

/-! ### First values -/

theorem first_nil (key : K) : first ([] : List (K × V)) key = none := rfl

theorem first_cons_self (key : K) (v : V) (entries : List (K × V)) : first ((key, v) :: entries) key = some v := by
  simp [first]

theorem first_cons_of_ne {key k : K} (h : k ≠ key) (v : V) (entries : List (K × V)) :
    first ((k, v) :: entries) key = first entries key := by
  rw [first, List.find?_cons_of_neg (by simpa using h), first]

/-- Where keys are distinct, a key's value is in the list with it. -/
theorem first_eq_some_iff {entries : List (K × V)} (h : (entries.map Prod.fst).Nodup) {key : K} {v : V} :
    first entries key = some v ↔ (key, v) ∈ entries := by
  induction entries with
  | nil => simp [first]
  | cons entry entries ih =>
    obtain ⟨k, v'⟩ := entry
    obtain ⟨hk, hrest⟩ := List.nodup_cons.mp h
    by_cases hkey : k = key
    · subst hkey
      rw [first_cons_self, List.mem_cons]
      constructor
      · rintro hv
        exact .inl (by rw [Option.some.inj hv])
      · rintro (heq | hmem)
        · rw [(Prod.mk.inj heq).2]
        · exact absurd (List.mem_map_of_mem hmem) hk
    · rw [first_cons_of_ne hkey, ih hrest, List.mem_cons]
      constructor
      · exact .inr
      · rintro (heq | hmem)
        · exact absurd (Prod.mk.inj heq).1.symm hkey
        · exact hmem

/-- The order of entries with distinct keys does not matter. -/
theorem first_perm {entries entries' : List (K × V)} (hperm : entries.Perm entries')
    (h : (entries.map Prod.fst).Nodup) (key : K) : first entries key = first entries' key := by
  have h' : (entries'.map Prod.fst).Nodup := (hperm.map Prod.fst).nodup h
  refine Option.ext ?_
  intro v
  rw [first_eq_some_iff h, first_eq_some_iff h', hperm.mem_iff]

/-- Entries with the same keys and related values have related first values. -/
theorem first_rel {R : K → V → V → Prop} {entries entries' : List (K × V)}
    (h : List.Forall₂ (fun e e' => e.1 = e'.1 ∧ R e.1 e.2 e'.2) entries entries') (key : K) :
    Option.Rel (R key) (first entries key) (first entries' key) := by
  induction h with
  | nil => exact .none
  | @cons e e' entries entries' he _ ih =>
    obtain ⟨k, v⟩ := e
    obtain ⟨k', v'⟩ := e'
    obtain ⟨rfl, hv⟩ := he
    by_cases hkey : k = key
    · subst hkey
      rw [first_cons_self, first_cons_self]
      exact .some hv
    · rw [first_cons_of_ne hkey, first_cons_of_ne hkey]
      exact ih

/-! ### Taking turns -/

/-- Two slots that may be used in either order. -/
def Slot.Commute (a b : Slot K V S) : Prop :=
  ∀ s v w, (a.handle s v).bind (b.handle · w) = (b.handle s w).bind (a.handle · v)

omit [DecidableEq K] in
/-- Slots that read their values and then change the state, where the changes commute. -/
theorem Slot.commute_of_bind {X Y : Type} {k k' : K} {f : V → Option X} {f' : V → Option Y} {g : X → S → Option S}
    {g' : Y → S → Option S} (h : ∀ x y s, (g x s).bind (g' y) = (g' y s).bind (g x)) :
    Slot.Commute (V := V) ⟨k, fun s v => (f v).bind (g · s)⟩ ⟨k', fun s v => (f' v).bind (g' · s)⟩ := by
  intro s v w
  simp only
  cases f v with
  | none => simp
  | some x =>
    cases f' w with
    | none => simp
    | some y => simp [h]

theorem turns_nil (slots : List (Slot K V S)) (s : S) : turns [] slots s = some s := by
  induction slots with
  | nil => rfl
  | cons slot slots ih => rw [turns, first_nil, ih]

theorem turns_congr {entries entries' : List (K × V)} {slots : List (Slot K V S)}
    (h : ∀ slot ∈ slots, first entries slot.key = first entries' slot.key) (s : S) :
    turns entries slots s = turns entries' slots s := by
  induction slots generalizing s with
  | nil => rfl
  | cons slot slots ih =>
    obtain ⟨hslot, hslots⟩ := List.forall_mem_cons.mp h
    rw [turns, turns, hslot, funext (ih hslots)]

theorem turns_append (entries : List (K × V)) (slots slots' : List (Slot K V S)) (s : S) :
    turns entries (slots ++ slots') s = (turns entries slots s).bind (turns entries slots') := by
  induction slots generalizing s with
  | nil => rfl
  | cons slot slots ih =>
    rw [List.cons_append, turns, turns]
    cases first entries slot.key with
    | none => exact ih s
    | some v => rw [Option.bind_assoc, funext ih]

/-- A slot that commutes with others may be used before their turns. -/
theorem handle_turns {entries : List (K × V)} {slot : Slot K V S} {slots : List (Slot K V S)}
    (h : ∀ a ∈ slots, a.Commute slot) (s : S) (v : V) :
    (slot.handle s v).bind (turns entries slots) = (turns entries slots s).bind (slot.handle · v) := by
  induction slots generalizing s with
  | nil =>
    simp only [turns, Option.bind_some, Option.bind_fun_some]
  | cons a slots ih =>
    obtain ⟨ha, hslots⟩ := List.forall_mem_cons.mp h
    cases hfirst : first entries a.key with
    | none => simp only [turns, hfirst, ih hslots]
    | some w =>
      simp only [turns, hfirst]
      have hih := fun s => ih hslots s
      calc (slot.handle s v).bind (fun s => (a.handle s w).bind (turns entries slots))
          = ((slot.handle s v).bind (a.handle · w)).bind (turns entries slots) := (Option.bind_assoc _ _ _).symm
        _ = ((a.handle s w).bind (slot.handle · v)).bind (turns entries slots) := by rw [ha s w v]
        _ = (a.handle s w).bind fun s => (turns entries slots s).bind (slot.handle · v) := by
          rw [Option.bind_assoc, funext hih]
        _ = ((a.handle s w).bind (turns entries slots)).bind (slot.handle · v) := (Option.bind_assoc _ _ _).symm

theorem run_eq_turns {slots : List (Slot K V S)} (hkeys : (slots.map Slot.key).Nodup)
    (hcomm : slots.Pairwise Slot.Commute) (s : S) (entries : List (K × V)) :
    run slots s entries = turns entries slots s := by
  induction entries generalizing slots s with
  | nil => rw [run, turns_nil]
  | cons entry entries ih =>
    obtain ⟨k, v⟩ := entry
    cases hfind : slots.find? fun slot => slot.key = k with
    | none =>
      rw [run, hfind]
      refine (ih hkeys hcomm s).trans (turns_congr ?_ s)
      intro slot hslot
      have hne : slot.key ≠ k := by simpa using List.find?_eq_none.mp hfind slot hslot
      exact (first_cons_of_ne hne.symm v entries).symm
    | some slot =>
      obtain ⟨hkey, before, after, rfl, hbefore⟩ := List.find?_eq_some_iff_append.mp hfind
      have hkey : slot.key = k := of_decide_eq_true hkey
      have hbefore : ∀ a ∈ before, ¬ decide (a.key = k) = true := by
        intro a ha
        simpa using hbefore a ha
      have herase : (before ++ slot :: after).eraseP (fun slot => slot.key = k) = before ++ after := by
        simp [List.eraseP_append_right _ hbefore, hkey]
      have hsub : List.Sublist (before ++ after) (before ++ slot :: after) :=
        (List.sublist_cons_self slot after).append_left before
      obtain ⟨-, hslot, hcross⟩ := List.pairwise_append.mp hcomm
      rw [List.map_append, List.map_cons, List.nodup_middle, List.nodup_cons, ← List.map_append] at hkeys
      have hfirst : ∀ a ∈ before ++ after, first entries a.key = first ((k, v) :: entries) a.key := by
        intro a ha
        refine (first_cons_of_ne ?_ v entries).symm
        intro heq
        exact hkeys.1 (List.mem_map.mpr ⟨a, ha, by rw [hkey, heq]⟩)
      have hrest : (fun s => run (before ++ after) s entries) =
          fun s => (turns ((k, v) :: entries) before s).bind (turns ((k, v) :: entries) after) := by
        funext s
        rw [ih hkeys.2 (hcomm.sublist hsub), turns_congr hfirst, turns_append]
      have hturn : turns ((k, v) :: entries) (slot :: after) =
          fun s => (slot.handle s v).bind (turns ((k, v) :: entries) after) := by
        funext s
        rw [turns, hkey, first_cons_self]
      simp only [run, hfind, herase]
      rw [hrest, turns_append, hturn, ← Option.bind_assoc, ← Option.bind_assoc,
        handle_turns (fun a ha => hcross a ha slot List.mem_cons_self)]

/-! ### Other handlers -/

/-- The slots differ only in states that are not reached. -/
def Slot.Agree (P : S → Prop) (a b : Slot K V S) : Prop :=
  a.key = b.key ∧ ∀ s v, P s → a.handle s v = b.handle s v ∧ ∀ s', a.handle s v = some s' → P s'

theorem find_agree {P : S → Prop} {slots slots' : List (Slot K V S)} (h : List.Forall₂ (Slot.Agree P) slots slots')
    (k : K) :
    (slots.find? (fun slot => slot.key = k) = none ∧ slots'.find? (fun slot => slot.key = k) = none) ∨
      ∃ a b, slots.find? (fun slot => slot.key = k) = some a ∧ slots'.find? (fun slot => slot.key = k) = some b ∧
        a.Agree P b ∧
          List.Forall₂ (Slot.Agree P) (slots.eraseP fun slot => slot.key = k) (slots'.eraseP fun slot => slot.key = k) := by
  induction h with
  | nil => exact .inl ⟨rfl, rfl⟩
  | @cons a b slots slots' hab hrest ih =>
    by_cases hk : a.key = k
    · have hk' : b.key = k := hab.1.symm.trans hk
      refine .inr ⟨a, b, by simp [hk], by simp [hk'], hab, ?_⟩
      simpa [List.eraseP_cons, hk, hk'] using hrest
    · have hk' : b.key ≠ k := fun h => hk (hab.1.trans h)
      simp only [List.find?_cons, List.eraseP_cons, hk, hk', decide_false, cond_false]
      rcases ih with hnone | ⟨a', b', ha, hb, hab', herase⟩
      · exact .inl hnone
      · exact .inr ⟨a', b', ha, hb, hab', .cons hab herase⟩

theorem run_congr {P : S → Prop} {slots slots' : List (Slot K V S)} (h : List.Forall₂ (Slot.Agree P) slots slots')
    {s : S} (hs : P s) (entries : List (K × V)) : run slots s entries = run slots' s entries := by
  induction entries generalizing slots slots' s with
  | nil => rw [run, run]
  | cons entry entries ih =>
    obtain ⟨k, v⟩ := entry
    rcases find_agree h k with ⟨hnone, hnone'⟩ | ⟨a, b, ha, hb, hab, herase⟩
    · simp only [run, hnone, hnone']
      exact ih h hs
    · obtain ⟨heq, hkeep⟩ := hab.2 s v hs
      simp only [run, ha, hb, ← heq]
      refine Option.bind_congr ?_
      intro s' hs'
      exact ih herase (hkeep s' hs')

/-! ### Guards -/

/-- Of the two keys, the first that comes up is `a`. -/
def Precedes (a b : K) (entries : List (K × V)) : Prop :=
  (entries.find? fun e => e.1 = a ∨ e.1 = b).map Prod.fst = some a

instance (a b : K) (entries : List (K × V)) : Decidable (Precedes a b entries) :=
  inferInstanceAs (Decidable (_ = some a))

/-- The slot `b` is closed until `a` was used; `b'` is the slot without the guard. -/
structure Guarded (P : S → Prop) (a b b' : Slot K V S) : Prop where
  key : b.key = b'.key
  ne : a.key ≠ b.key
  opens : ∀ s v s', a.handle s v = some s' → P s'
  closed : ∀ s v, ¬P s → b.handle s v = none
  same : ∀ s v, P s → b.handle s v = b'.handle s v
  keeps : ∀ s v s', P s → b'.handle s v = some s' → P s'

/-- A slot that has nothing to do with the guard. -/
def Slot.Aside (P : S → Prop) (c a b : Slot K V S) : Prop :=
  c.key ≠ a.key ∧ c.key ≠ b.key ∧ ∀ s v s', c.handle s v = some s' → (P s' ↔ P s)

theorem precedes_cons_self (a b : K) (v : V) (entries : List (K × V)) : Precedes a b ((a, v) :: entries) := by
  simp [Precedes]

theorem not_precedes_cons {a b : K} (h : a ≠ b) (v : V) (entries : List (K × V)) : ¬Precedes a b ((b, v) :: entries) := by
  simp [Precedes, h.symm]

theorem precedes_cons_iff {a b k : K} (ha : k ≠ a) (hb : k ≠ b) (v : V) (entries : List (K × V)) :
    Precedes a b ((k, v) :: entries) ↔ Precedes a b entries := by
  simp [Precedes, ha, hb]

/-- The key comes up where the other does not come before it. -/
theorem Precedes.first {a b : K} {entries : List (K × V)} (h : Precedes a b entries) : first entries a ≠ none := by
  induction entries with
  | nil => cases h
  | cons entry entries ih =>
    obtain ⟨k, v⟩ := entry
    by_cases hka : k = a
    · rw [hka, first_cons_self]
      exact Option.some_ne_none v
    · rw [first_cons_of_ne hka]
      by_cases hkb : k = b
      · subst hkb
        exact absurd h (not_precedes_cons (Ne.symm hka) v entries)
      · exact ih ((precedes_cons_iff hka hkb v entries).mp h)

/-- One of two keys that come up is the first. -/
theorem precedes_or {a b : K} {entries : List (K × V)} (h : Dispatch.first entries b ≠ none) :
    Precedes a b entries ∨ Precedes b a entries := by
  induction entries with
  | nil => exact absurd rfl h
  | cons entry entries ih =>
    obtain ⟨k, v⟩ := entry
    by_cases hka : k = a
    · exact .inl (by rw [hka]; exact precedes_cons_self a b v entries)
    · by_cases hkb : k = b
      · exact .inr (by rw [hkb]; exact precedes_cons_self b a v entries)
      · rw [first_cons_of_ne hkb] at h
        rw [precedes_cons_iff hka hkb, precedes_cons_iff hkb hka]
        exact ih h

theorem run_cons_of_ne {a : Slot K V S} {slots : List (Slot K V S)} {k : K} (h : k ≠ a.key) (s : S) (v : V)
    (entries : List (K × V)) : run (a :: slots) s ((k, v) :: entries) =
      match slots.find? fun slot => slot.key = k with
      | none => run (a :: slots) s entries
      | some slot => (slot.handle s v).bind fun s => run (a :: slots.eraseP fun slot => slot.key = k) s entries := by
  simp only [run, List.find?_cons, List.eraseP_cons, h.symm, decide_false, cond_false]

theorem run_cons_cons_of_ne {a b : Slot K V S} {slots : List (Slot K V S)} {k : K} (ha : k ≠ a.key) (hb : k ≠ b.key)
    (s : S) (v : V) (entries : List (K × V)) : run (a :: b :: slots) s ((k, v) :: entries) =
      match slots.find? fun slot => slot.key = k with
      | none => run (a :: b :: slots) s entries
      | some slot => (slot.handle s v).bind fun s => run (a :: b :: slots.eraseP fun slot => slot.key = k) s entries := by
  rw [run_cons_of_ne ha]
  simp only [List.find?_cons, List.eraseP_cons, hb.symm, decide_false, cond_false]

variable {P : S → Prop} {a b b' : Slot K V S} {rest : List (Slot K V S)}

/-- Where the opening key comes first, the guard is not felt. -/
theorem Guarded.run_of_precedes (h : Guarded P a b b') (hrest : ∀ c ∈ rest, c.Aside P a b) (s : S)
    {entries : List (K × V)} (hfirst : Precedes a.key b.key entries) :
    run (a :: b :: rest) s entries = run (a :: b' :: rest) s entries := by
  induction entries generalizing rest s with
  | nil => cases hfirst
  | cons entry entries ih =>
    obtain ⟨k, v⟩ := entry
    by_cases hka : k = a.key
    · have hagree : List.Forall₂ (Slot.Agree P) (b :: rest) (b' :: rest) := by
        refine .cons ⟨h.key, ?_⟩ (List.forall₂_same.mpr ?_)
        · intro s v hs
          refine ⟨h.same s v hs, ?_⟩
          rw [h.same s v hs]
          exact fun s' => h.keeps s v s' hs
        · intro c hc
          exact ⟨rfl, fun s v hs => ⟨rfl, fun s' hs' => ((hrest c hc).2.2 s v s' hs').mpr hs⟩⟩
      simp only [run, hka, List.find?_cons, List.eraseP_cons, decide_true, cond_true]
      refine Option.bind_congr ?_
      intro s' hs'
      exact run_congr hagree (h.opens s v s' hs') entries
    · by_cases hkb : k = b.key
      · subst hkb
        exact absurd hfirst (not_precedes_cons h.ne v entries)
      · have hentries := (precedes_cons_iff hka hkb v entries).mp hfirst
        rw [run_cons_cons_of_ne hka hkb, run_cons_cons_of_ne hka (h.key ▸ hkb)]
        cases rest.find? fun slot => slot.key = k with
        | none => exact ih hrest s hentries
        | some slot =>
          refine Option.bind_congr ?_
          intro s' _
          exact ih (fun c hc => hrest c (List.mem_of_mem_eraseP hc)) s' hentries

/-- Where the guarded key comes first, it fails. -/
theorem Guarded.run_eq_none (h : Guarded P a b b') (hrest : ∀ c ∈ rest, c.Aside P a b) {s : S} (hs : ¬P s)
    {entries : List (K × V)} (hfirst : Precedes b.key a.key entries) : run (a :: b :: rest) s entries = none := by
  induction entries generalizing rest s with
  | nil => cases hfirst
  | cons entry entries ih =>
    obtain ⟨k, v⟩ := entry
    by_cases hkb : k = b.key
    · rw [run_cons_of_ne (by rw [hkb]; exact h.ne.symm)]
      simp only [List.find?_cons, hkb, decide_true, h.closed s v hs, Option.bind_none]
    · by_cases hka : k = a.key
      · subst hka
        exact absurd hfirst (not_precedes_cons h.ne.symm v entries)
      · have hentries := (precedes_cons_iff hkb hka v entries).mp hfirst
        rw [run_cons_cons_of_ne hka hkb]
        cases hfind : rest.find? fun slot => slot.key = k with
        | none => exact ih hrest hs hentries
        | some slot =>
          have hslot := hrest slot (List.mem_of_find?_eq_some hfind)
          refine Option.bind_eq_none_iff.mpr ?_
          intro s' hs'
          exact ih (fun c hc => hrest c (List.mem_of_mem_eraseP hc)) (fun hP => hs ((hslot.2.2 s v s' hs').mp hP)) hentries

end Dispatch
