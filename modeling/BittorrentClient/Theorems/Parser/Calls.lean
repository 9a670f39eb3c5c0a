import Mathlib.Logic.Relation
import BittorrentClient.Lib.Fuel
import BittorrentClient.Bencoding.Parser

/-! The recursive functions of the parser as computations with fuel: their results are stable, each is
    given by the results of the calls it makes, and the calls of `parse_element` in a run. -/

namespace BittorrentClient
open FlatMemory Fuel

namespace Parser
variable (m : Memory)

/-- The parser is at data that does not end a list or a dictionary. -/
def AtElement (p : Parser) : Prop := (p.hasData && m p.current != kElementEnd) = true

/-! ### One step of each function -/

def itemNext (position : UInt64) (builder : ListRef) (fuel : Nat) :
    ParsedElementRef × Parser → Option (ParsedElementRef × Parser)
  | (.error e, p) => some (.error e, p)
  | (.ok element, p) => listLoop m fuel position (builder ++ [element]) p

def valueNext (position : UInt64) (builder : DictionaryRef) (key : StringRef) (fuel : Nat) :
    ParsedElementRef × Parser → Option (ParsedElementRef × Parser)
  | (.error e, p) => some (.error e, p)
  | (.ok value, p) => dictionaryLoop m fuel position (builder ++ [(key, value)]) p

def keyNext (position : UInt64) (builder : DictionaryRef) (fuel : Nat) :
    ParsedElementRef × Parser → Option (ParsedElementRef × Parser)
  | (.error e, p) => some (.error e, p)
  | (.ok key, p) =>
    match key.asString with
    | none => some (p.makeError .dictionary .nonStringAsDictionaryKey, p)
    | some key => (parseElement m fuel .dictionary p).bind (valueNext m position builder key fuel)

def loopNext (elements : ListRef) (fuel : Nat) :
    ParsedElementRef × Parser → Option (Except ParseErrorInfo ListRef × Parser)
  | (.error e, p) => some (.error e, p)
  | (.ok element, p) =>
    if p.hasData then parseLoop m fuel (elements ++ [element]) p else some (.ok (elements ++ [element]), p)

variable {m}

theorem listLoop_item {p : Parser} (h : AtElement m p) (n : Nat) (position : UInt64) (builder : ListRef) :
    listLoop m (n + 1) position builder p = (parseElement m n .list p).bind (itemNext m position builder n) := by
  unfold AtElement at h
  rw [listLoop, if_pos h]
  rcases parseElement m n .list p with _ | ⟨_ | e, q⟩ <;> rfl

theorem dictionaryLoop_entry {p : Parser} (h : AtElement m p) (n : Nat) (position : UInt64) (builder : DictionaryRef) :
    dictionaryLoop m (n + 1) position builder p =
      (parseElement m n .dictionary p).bind (keyNext m position builder n) := by
  unfold AtElement at h
  rw [dictionaryLoop, if_pos h]
  rcases parseElement m n .dictionary p with _ | ⟨_ | e, q⟩
  · rfl
  · rfl
  · simp only [Option.bind_some, keyNext]
    cases e.asString with
    | none => rfl
    | some key => rcases parseElement m n .dictionary q with _ | ⟨_ | v, q'⟩ <;> rfl

theorem parseLoop_element (n : Nat) (elements : ListRef) (p : Parser) :
    parseLoop m (n + 1) elements p = (parseElement m n .none p).bind (loopNext m elements n) := by
  rw [parseLoop]
  rcases parseElement m n .none p with _ | ⟨_ | e, q⟩ <;> rfl

/-! ### Stability -/

/-- The five functions at one amount of fuel and at one more. -/
structure StableAt (m : Memory) (n : Nat) : Prop where
  element : ∀ id p x, parseElement m n id p = some x → parseElement m (n + 1) id p = some x
  list : ∀ p x, parseList m n p = some x → parseList m (n + 1) p = some x
  items : ∀ position b p x, listLoop m n position b p = some x → listLoop m (n + 1) position b p = some x
  dictionary : ∀ p x, parseDictionary m n p = some x → parseDictionary m (n + 1) p = some x
  entries : ∀ position b p x, dictionaryLoop m n position b p = some x →
    dictionaryLoop m (n + 1) position b p = some x

theorem stableAt (n : Nat) : StableAt m n := by
  induction n with
  | zero =>
    exact ⟨fun _ _ _ h => by simp [parseElement] at h, fun _ _ h => by simp [parseList] at h,
      fun _ _ _ _ h => by simp [listLoop] at h, fun _ _ h => by simp [parseDictionary] at h,
      fun _ _ _ _ h => by simp [dictionaryLoop] at h⟩
  | succ n ih =>
    constructor
    case element =>
      intro id p x h
      rw [parseElement] at h ⊢
      split at h
      · next hend => rw [if_pos hend, h]
      · next hend =>
        rw [if_neg hend]
        split at h
        · next hint => rw [if_pos hint, h]
        · next hint =>
          rw [if_neg hint]
          split at h
          · next hlist => rw [if_pos hlist, ih.list p x h]
          · next hlist =>
            rw [if_neg hlist]
            split at h
            · next hdict => rw [if_pos hdict, ih.dictionary p x h]
            · next hdict => rw [if_neg hdict, h]
    case list =>
      intro p x h
      rw [parseList] at h ⊢
      cases hc : p.consume m kListStart with
      | none => simpa only [hc] using h
      | some q =>
        simp only [hc] at h ⊢
        exact ih.items _ _ _ _ h
    case items =>
      intro position b p x h
      by_cases hmore : AtElement m p
      · rw [listLoop_item hmore] at h ⊢
        refine bind_le (ih.element .list p) ?_ x h
        intro y z hy
        rcases y with ⟨_ | e, q⟩
        · exact hy
        · exact ih.items _ _ _ _ hy
      · unfold AtElement at hmore
        rw [listLoop, if_neg hmore] at h ⊢
        exact h
    case dictionary =>
      intro p x h
      rw [parseDictionary] at h ⊢
      cases hc : p.consume m kDictionaryStart with
      | none => simpa only [hc] using h
      | some q =>
        simp only [hc] at h ⊢
        exact ih.entries _ _ _ _ h
    case entries =>
      intro position b p x h
      by_cases hmore : AtElement m p
      · rw [dictionaryLoop_entry hmore] at h ⊢
        refine bind_le (ih.element .dictionary p) ?_ x h
        intro y z hy
        rcases y with ⟨_ | k, q⟩
        · exact hy
        · simp only [keyNext] at hy ⊢
          cases hkey : k.asString with
          | none => simpa only [hkey] using hy
          | some key =>
            simp only [hkey] at hy ⊢
            refine bind_le (ih.element .dictionary q) ?_ z hy
            intro y' z' hy'
            rcases y' with ⟨_ | v, q'⟩
            · exact hy'
            · exact ih.entries _ _ _ _ hy'
      · unfold AtElement at hmore
        rw [dictionaryLoop, if_neg hmore] at h ⊢
        exact h

theorem parseElement_stable (id : ElementId) (p : Parser) : Stable fun fuel => parseElement m fuel id p :=
  fun n x => (stableAt n).element id p x

theorem parseLoop_stable (elements : ListRef) (p : Parser) : Stable fun fuel => parseLoop m fuel elements p := by
  intro n
  induction n generalizing elements p with
  | zero => exact fun x h => by simp [parseLoop] at h
  | succ n ih =>
    intro x h
    simp only [parseLoop_element] at h ⊢
    refine bind_le ((stableAt n).element .none p) ?_ x h
    intro y z hy
    rcases y with ⟨_ | e, q⟩
    · exact hy
    · simp only [loopNext] at hy ⊢
      split at hy
      · next hdata =>
        rw [if_pos hdata]
        exact ih _ _ z hy
      · next hdata => rw [if_neg hdata, hy]

theorem parseList_stable (r : Region) : Stable fun fuel => BittorrentClient.parseList m fuel r :=
  Stable.bind_const (fun n x => (stableAt n).list _ x) _

theorem parseDictionary_stable (r : Region) : Stable fun fuel => BittorrentClient.parseDictionary m fuel r :=
  Stable.bind_const (fun n x => (stableAt n).dictionary _ x) _

/-! ### Results -/

/-- `parse_element` called at `p` terminates with `x`. -/
abbrev Element (m : Memory) (id : ElementId) (p : Parser) (x : ParsedElementRef × Parser) : Prop :=
  Converges (fun fuel => parseElement m fuel id p) x

theorem element_end {p : Parser} (id : ElementId) (h : p.end_ ≤ p.current) :
    Element m id p (p.makeError id .unexpectedEnd, p) :=
  .pure fun n => by rw [parseElement, if_pos h]

theorem element_integer {p : Parser} (id : ElementId) (h : ¬p.end_ ≤ p.current) (hb : m p.current = kIntegerStart) :
    Element m id p (p.parseInteger m) :=
  .pure fun n => by rw [parseElement, if_neg h, if_pos hb]

theorem element_list {p : Parser} (id : ElementId) (h : ¬p.end_ ≤ p.current) (hb : m p.current = kListStart)
    {x : ParsedElementRef × Parser} (hx : Converges (fun fuel => parseList m fuel p) x) : Element m id p x :=
  hx.of_succ fun n => by
    rw [parseElement, if_neg h, if_neg (by rw [hb]; decide), if_pos hb]

theorem element_dictionary {p : Parser} (id : ElementId) (h : ¬p.end_ ≤ p.current)
    (hb : m p.current = kDictionaryStart) {x : ParsedElementRef × Parser}
    (hx : Converges (fun fuel => parseDictionary m fuel p) x) : Element m id p x :=
  hx.of_succ fun n => by
    rw [parseElement, if_neg h, if_neg (by rw [hb]; decide), if_neg (by rw [hb]; decide), if_pos hb]

theorem element_string {p : Parser} (id : ElementId) (h : ¬p.end_ ≤ p.current) (hi : m p.current ≠ kIntegerStart)
    (hl : m p.current ≠ kListStart) (hd : m p.current ≠ kDictionaryStart) : Element m id p (p.parseString m) :=
  .pure fun n => by rw [parseElement, if_neg h, if_neg hi, if_neg hl, if_neg hd]

theorem list_enter {p q : Parser} (h : p.consume m kListStart = some q) {x : ParsedElementRef × Parser}
    (hx : Converges (fun fuel => listLoop m fuel p.current [] q) x) : Converges (fun fuel => parseList m fuel p) x :=
  hx.of_succ fun n => by rw [parseList, h]

theorem dictionary_enter {p q : Parser} (h : p.consume m kDictionaryStart = some q) {x : ParsedElementRef × Parser}
    (hx : Converges (fun fuel => dictionaryLoop m fuel p.current [] q) x) :
    Converges (fun fuel => parseDictionary m fuel p) x :=
  hx.of_succ fun n => by rw [parseDictionary, h]

section
variable {position : UInt64} {items : ListRef} {entries : DictionaryRef} {p q : Parser}
  {x : ParsedElementRef × Parser}

theorem list_end (position : UInt64) (items : ListRef) (h : ¬AtElement m p) :
    Converges (fun fuel => listLoop m fuel position items p)
    (match p.consume m kElementEnd with
      | none => (p.makeError .string .missingListEnd, p)
      | some q => (.ok (.list items (q.positionFrom position)), q)) :=
  .pure fun n => by
    unfold AtElement at h
    rw [listLoop, if_neg h]
    cases p.consume m kElementEnd <;> rfl

theorem list_item (h : AtElement m p) {y : ParsedElementRef × Parser} (hy : Element m .list p y)
    (hx : Converges (fun fuel => itemNext m position items fuel y) x) :
    Converges (fun fuel => listLoop m fuel position items p) x :=
  (hy.bind hx).of_succ fun n => listLoop_item h n position items

theorem dictionary_end (position : UInt64) (entries : DictionaryRef) (h : ¬AtElement m p) :
    Converges (fun fuel => dictionaryLoop m fuel position entries p)
    (match p.consume m kElementEnd with
      | none => (p.makeError .dictionary .missingDictionaryEnd, p)
      | some q => (.ok (.dictionary entries (q.positionFrom position)), q)) :=
  .pure fun n => by
    unfold AtElement at h
    rw [dictionaryLoop, if_neg h]
    cases p.consume m kElementEnd <;> rfl

theorem dictionary_entry (h : AtElement m p) {y : ParsedElementRef × Parser} (hy : Element m .dictionary p y)
    (hx : Converges (fun fuel => keyNext m position entries fuel y) x) :
    Converges (fun fuel => dictionaryLoop m fuel position entries p) x :=
  (hy.bind hx).of_succ fun n => dictionaryLoop_entry h n position entries

theorem dictionary_value {k : ElementRef} {key : StringRef} (hkey : k.asString = some key)
    {y : ParsedElementRef × Parser} (hy : Element m .dictionary p y)
    (hx : Converges (fun fuel => valueNext m position entries key fuel y) x) :
    Converges (fun fuel => keyNext m position entries fuel (.ok k, p)) x := by
  simpa only [keyNext, hkey] using hy.bind hx

end

/-! ### The calls of a run -/

/-- The states at the head of the loop of a `parse_list` called at `p`. -/
inductive ListHead (m : Memory) (p : Parser) : Parser → Prop where
  | enter {q} : p.consume m kListStart = some q → ListHead m p q
  | next {q q' e} : ListHead m p q → AtElement m q → Element m .list q (.ok e, q') → ListHead m p q'

/-- The states at the head of the loop of a `parse_dictionary` called at `p`. -/
inductive DictionaryHead (m : Memory) (p : Parser) : Parser → Prop where
  | enter {q} : p.consume m kDictionaryStart = some q → DictionaryHead m p q
  | next {q q' q'' k key e} : DictionaryHead m p q → AtElement m q → Element m .dictionary q (.ok k, q') →
      k.asString = some key → Element m .dictionary q' (.ok e, q'') → DictionaryHead m p q''

/-- The states at the head of the loop of `Parse`. -/
inductive ParseHead (m : Memory) (r : Region) : Parser → Prop where
  | enter : ParseHead m r (make r)
  | next {p q e} : ParseHead m r p → Element m .none p (.ok e, q) → q.hasData = true → ParseHead m r q

/-- A `parse_list` called at `p` calls `parse_element` at `q`. -/
def ListCall (m : Memory) (p q : Parser) : Prop := ListHead m p q ∧ AtElement m q

/-- A `parse_dictionary` called at `p` calls `parse_element` at `q`, for a key or for a value. -/
def DictionaryCall (m : Memory) (p q : Parser) : Prop :=
  ∃ h, DictionaryHead m p h ∧ AtElement m h ∧
    (q = h ∨ ∃ k key, Element m .dictionary h (.ok k, q) ∧ k.asString = some key)

/-- A `parse_element` called at `p` calls `parse_element` at `q` through `parse_list` or `parse_dictionary`. -/
def Calls (m : Memory) (p q : Parser) : Prop := ListCall m p q ∨ DictionaryCall m p q

/-- `parse_element` is called at `q` when `Parse`, `ParseList` or `ParseDictionary` runs on the region. -/
def Called (m : Memory) (r : Region) (q : Parser) : Prop :=
  ∃ p, (ParseHead m r p ∨ ListCall m (make r) p ∨ DictionaryCall m (make r) p) ∧ Relation.ReflTransGen (Calls m) p q

/-- `Parse` makes the calls of `ParseList` and `ParseDictionary` below its first element. -/
theorem Called.parse {r : Region} {q : Parser} (h : Called m r q) :
    ∃ p, ParseHead m r p ∧ Relation.ReflTransGen (Calls m) p q := by
  rcases h with ⟨p, hp | hp | hp, hq⟩
  · exact ⟨p, hp, hq⟩
  · exact ⟨_, .enter, .head (.inl hp) hq⟩
  · exact ⟨_, .enter, .head (.inr hp) hq⟩

end Parser

end BittorrentClient
