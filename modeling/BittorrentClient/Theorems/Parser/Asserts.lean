import BittorrentClient.Bencoding.Asserts
import BittorrentClient.Lib.Guarded
import BittorrentClient.Theorems.Parser.Calls

/-! The parser with its assertions. It does what it does without them, unless a string that is read leaves the cursor
    before the text: then it aborts. -/

namespace BittorrentClient
open FlatMemory Fuel Guarded Relation

/-! ### One step of each function -/

namespace Asserting
section
variable (m : Memory)

def itemNext (position : UInt64) (builder : ListRef) (fuel : Nat) :
    ParsedElementRef × Parser → Asserting (ParsedElementRef × Parser)
  | (.error e, p) => pure (.error e, p)
  | (.ok element, p) => listLoop m fuel position (builder ++ [element]) p

def valueNext (position : UInt64) (builder : DictionaryRef) (key : StringRef) (fuel : Nat) :
    ParsedElementRef × Parser → Asserting (ParsedElementRef × Parser)
  | (.error e, p) => pure (.error e, p)
  | (.ok value, p) => dictionaryLoop m fuel position (builder ++ [(key, value)]) p

def keyNext (position : UInt64) (builder : DictionaryRef) (fuel : Nat) :
    ParsedElementRef × Parser → Asserting (ParsedElementRef × Parser)
  | (.error e, p) => pure (.error e, p)
  | (.ok key, p) =>
    match key.asString with
    | none => pure (p.makeError .dictionary .nonStringAsDictionaryKey, p)
    | some key => parseElement m fuel .dictionary p >>= valueNext m position builder key fuel

/-- A list or a dictionary begins: the position is remembered, and its first byte is consumed. -/
def opening (p : Parser) (ch : UInt8) (missing : ParseErrorInfo)
    (loop : UInt64 → Parser → Asserting (ParsedElementRef × Parser)) : Asserting (ParsedElementRef × Parser) := do
  let position ← rememberPosition p
  match p.consume m ch with
  | none => return (.error missing, p)
  | some q => loop position q

/-- It ends: its last byte is consumed, and the position is got. -/
def closing (p : Parser) (position : UInt64) (missing : ParseErrorInfo) (build : ElementPosition → ElementRef) :
    Asserting (ParsedElementRef × Parser) :=
  match p.consume m kElementEnd with
  | none => pure (.error missing, p)
  | some q => do return (.ok (build (← getPosition q position)), q)

variable {m} {p : Parser}

theorem parseList_opening (n : Nat) : parseList m (n + 1) p =
    opening m p kListStart ⟨.missingListStart, p.current - p.start, .string⟩ fun position => listLoop m n position [] := by
  rw [parseList]
  rfl

theorem parseDictionary_opening (n : Nat) : parseDictionary m (n + 1) p =
    opening m p kDictionaryStart ⟨.missingDictionaryStart, p.current - p.start, .dictionary⟩ fun position =>
      dictionaryLoop m n position [] := by
  rw [parseDictionary]
  rfl

theorem listLoop_item (h : Parser.AtElement m p) (n : Nat) (position : UInt64) (builder : ListRef) :
    listLoop m (n + 1) position builder p = parseElement m n .list p >>= itemNext m position builder n := by
  rw [Parser.AtElement] at h
  rw [listLoop, if_pos h]
  refine congrArg (parseElement m n .list p >>= ·) (funext ?_)
  rintro ⟨_ | e, q⟩ <;> rfl

theorem listLoop_closing (h : ¬Parser.AtElement m p) (n : Nat) (position : UInt64) (builder : ListRef) :
    listLoop m (n + 1) position builder p =
      closing m p position ⟨.missingListEnd, p.current - p.start, .string⟩ (.list builder) := by
  rw [Parser.AtElement] at h
  rw [listLoop, if_neg h]
  rfl

theorem dictionaryLoop_entry (h : Parser.AtElement m p) (n : Nat) (position : UInt64) (builder : DictionaryRef) :
    dictionaryLoop m (n + 1) position builder p = parseElement m n .dictionary p >>= keyNext m position builder n := by
  rw [Parser.AtElement] at h
  rw [dictionaryLoop, if_pos h]
  refine congrArg (parseElement m n .dictionary p >>= ·) (funext ?_)
  rintro ⟨_ | e, q⟩
  · rfl
  · simp only [keyNext]
    cases e.asString with
    | none => rfl
    | some key =>
      refine congrArg (parseElement m n .dictionary q >>= ·) (funext ?_)
      rintro ⟨_ | v, q'⟩ <;> rfl

theorem dictionaryLoop_closing (h : ¬Parser.AtElement m p) (n : Nat) (position : UInt64) (builder : DictionaryRef) :
    dictionaryLoop m (n + 1) position builder p =
      closing m p position ⟨.missingDictionaryEnd, p.current - p.start, .dictionary⟩ (.dictionary builder) := by
  rw [Parser.AtElement] at h
  rw [dictionaryLoop, if_neg h]
  rfl

end
end Asserting

/-! ### The same results -/

section
variable {m : Memory}

theorem guards_assert {cond : Prop} [Decidable cond] {assertion : ParserAssertion} :
    Guards (Asserting.assert cond assertion) (some ()) := by
  rw [Asserting.assert]
  split
  · exact .pure ()
  · exact .inr ⟨assertion, rfl⟩

theorem guards_rememberPosition (p : Parser) : Guards (Asserting.rememberPosition p) (some p.current) :=
  .after guards_assert (.pure _)

theorem guards_getPosition (p : Parser) (position : UInt64) :
    Guards (Asserting.getPosition p position) (some (p.positionFrom position)) :=
  .after guards_assert (.after guards_assert (.pure _))

theorem guards_remembering {α : Type} (p : Parser) (x : Except ParseErrorInfo α × Parser) :
    Guards (Asserting.remembering p x) (some x) := by
  obtain ⟨_ | a, q⟩ := x
  · exact .after (guards_rememberPosition p) (.pure _)
  · exact .after (guards_rememberPosition p) (.after (guards_getPosition q _) (.pure _))

/-- The five functions with some fuel. -/
structure GuardsAt (m : Memory) (n : Nat) : Prop where
  element : ∀ id p, Guards (Asserting.parseElement m n id p) (Parser.parseElement m n id p)
  list : ∀ p, Guards (Asserting.parseList m n p) (Parser.parseList m n p)
  items : ∀ position b p, Guards (Asserting.listLoop m n position b p) (Parser.listLoop m n position b p)
  dictionary : ∀ p, Guards (Asserting.parseDictionary m n p) (Parser.parseDictionary m n p)
  entries : ∀ position b p, Guards (Asserting.dictionaryLoop m n position b p) (Parser.dictionaryLoop m n position b p)

theorem guardsAt (n : Nat) : GuardsAt m n := by
  induction n with
  | zero =>
    constructor <;> intros <;> exact .none
  | succ n ih =>
    constructor
    case element =>
      intro id p
      rw [Asserting.parseElement, Parser.parseElement]
      split
      · exact .pure _
      · split
        · exact guards_remembering _ _
        · split
          · exact ih.list p
          · split
            · exact ih.dictionary p
            · exact .after (guards_remembering _ _) (guards_remembering _ _)
    case list =>
      intro p
      rw [Asserting.parseList_opening, Parser.parseList]
      refine .after (guards_rememberPosition p) ?_
      cases p.consume m kListStart with
      | none => exact .pure _
      | some q => exact ih.items _ _ _
    case items =>
      intro position b p
      by_cases hmore : Parser.AtElement m p
      · rw [Asserting.listLoop_item hmore, Parser.listLoop_item hmore]
        refine (ih.element .list p).bind ?_
        rintro ⟨_ | e, q⟩ -
        · exact .pure _
        · exact ih.items _ _ _
      · rw [Asserting.listLoop_closing hmore, Asserting.closing]
        rw [Parser.AtElement] at hmore
        rw [Parser.listLoop, if_neg hmore]
        cases p.consume m kElementEnd with
        | none => exact .pure _
        | some q => exact .after (guards_getPosition q position) (.pure _)
    case dictionary =>
      intro p
      rw [Asserting.parseDictionary_opening, Parser.parseDictionary]
      refine .after (guards_rememberPosition p) ?_
      cases p.consume m kDictionaryStart with
      | none => exact .pure _
      | some q => exact ih.entries _ _ _
    case entries =>
      intro position b p
      by_cases hmore : Parser.AtElement m p
      · rw [Asserting.dictionaryLoop_entry hmore, Parser.dictionaryLoop_entry hmore]
        refine (ih.element .dictionary p).bind ?_
        rintro ⟨_ | k, q⟩ -
        · exact .pure _
        · simp only [Asserting.keyNext, Parser.keyNext]
          cases k.asString with
          | none => exact .pure _
          | some key =>
            refine (ih.element .dictionary q).bind ?_
            rintro ⟨_ | v, q'⟩ -
            · exact .pure _
            · exact ih.entries _ _ _
      · rw [Asserting.dictionaryLoop_closing hmore, Asserting.closing]
        rw [Parser.AtElement] at hmore
        rw [Parser.dictionaryLoop, if_neg hmore]
        cases p.consume m kElementEnd with
        | none => exact .pure _
        | some q => exact .after (guards_getPosition q position) (.pure _)

end

/-! ### When it aborts -/

/-- The cursor is not before the text. -/
abbrev Parser.Inside (p : Parser) : Prop := p.start ≤ p.current

/-- The cursor has gone on in the same text. -/
structure Parser.GoesOn (p q : Parser) : Prop where
  start : q.start = p.start
  le : p.current ≤ q.current

namespace Parser.GoesOn
variable {m : Memory} {p q q' : Parser}

theorem refl (p : Parser) : p.GoesOn p := ⟨rfl, UInt64.le_refl _⟩

theorem trans (h : p.GoesOn q) (h' : q.GoesOn q') : p.GoesOn q' :=
  ⟨h'.start.trans h.start, UInt64.le_trans h.le h'.le⟩

theorem inside (h : p.GoesOn q) (hp : p.Inside) : q.Inside := by
  rw [Parser.Inside, h.start]
  exact UInt64.le_trans hp h.le

theorem advance (h : p.hasData = true) : p.GoesOn (p.advance 1) := by
  refine ⟨rfl, ?_⟩
  have hlt := UInt64.lt_iff_toNat_lt.mp (of_decide_eq_true h)
  have hmax := p.end_.toNat_lt
  rw [Parser.advance, UInt64.le_iff_toNat_le, UInt64.toNat_add, UInt64.toNat_one, Nat.mod_eq_of_lt (by omega)]
  exact Nat.le_succ _

theorem consume {ch : UInt8} (h : p.consume m ch = some q) : p.GoesOn q := by
  rw [Parser.consume] at h
  split at h
  · rename_i hdata
    cases h
    exact advance (Bool.and_eq_true_iff.mp hdata).1
  · cases h

theorem skipDigits (stop : UInt8) (n : Nat) : p.GoesOn (p.skipDigits m stop n).2 := by
  induction n generalizing p with
  | zero => exact refl p
  | succ n ih =>
    rw [Parser.skipDigits]
    split
    · rename_i hdata
      split
      · exact (advance (Bool.and_eq_true_iff.mp hdata).1).trans ih
      · exact refl p
    · exact refl p

theorem parseInteger : p.GoesOn (p.parseInteger m).2 := by
  rw [Parser.parseInteger]
  split
  · exact refl p
  · rename_i q hq
    dsimp only
    have hsign : q.GoesOn (if (q.hasData && m q.current == 45) = true then q.advance 1 else q) := by
      split
      · rename_i hdata
        exact advance (Bool.and_eq_true_iff.mp hdata).1
      · exact refl q
    have hbegin := (consume hq).trans hsign
    generalize (if (q.hasData && m q.current == 45) = true then q.advance 1 else q) = p₁ at hbegin ⊢
    have hdigits : p₁.GoesOn _ := @skipDigits m p₁ kElementEnd p₁.bytesLeft
    revert hdigits
    rcases p₁.skipDigits m kElementEnd p₁.bytesLeft with ⟨_ | _, p₂⟩
    · exact fun hdigits => hbegin.trans hdigits
    · intro hdigits
      have hlast := hbegin.trans hdigits
      dsimp only
      split
      · exact hlast
      · rename_i p₃ hp₃
        have hend := hlast.trans (consume hp₃)
        split
        · exact hend
        · split
          · exact hend
          · split
            · exact hend
            · split <;> exact hend

theorem parseStringLength : p.GoesOn (p.parseStringLength m).2 := by
  rw [Parser.parseStringLength]
  have hdigits : p.GoesOn _ := @skipDigits m p kStringStart p.bytesLeft
  revert hdigits
  rcases p.skipDigits m kStringStart p.bytesLeft with ⟨_ | _, q⟩
  · exact fun hdigits => hdigits
  · intro hdigits
    dsimp only
    split
    · exact hdigits
    · split
      · exact hdigits
      · rename_i q' hq'
        exact hdigits.trans (consume hq')

end Parser.GoesOn

section
variable {m : Memory} {p q : Parser}

theorem start_parseString : (p.parseString m).2.start = p.start := by
  have hlength : p.GoesOn (p.parseStringLength m).2 := .parseStringLength
  rw [Parser.parseString]
  revert hlength
  rcases p.parseStringLength m with ⟨_ | element, p₁⟩
  · exact fun hlength => hlength.start
  · intro hlength
    dsimp only
    split
    · exact hlength.start
    · rename_i length _
      cases hcount : p₁.consumeN length with
      | none => exact hlength.start
      | some p₂ =>
        rw [Parser.consumeN] at hcount
        split at hcount
        · cases hcount
          exact hlength.start
        · cases hcount

theorem assert_error {cond : Prop} [Decidable cond] {assertion a : ParserAssertion}
    (h : (Asserting.assert cond assertion).run = some (.error a)) : ¬cond := by
  intro hcond
  rw [Asserting.assert, if_pos hcond] at h
  cases h

theorem assert_ok {cond : Prop} [Decidable cond] {assertion : ParserAssertion} {u : Unit}
    (h : (Asserting.assert cond assertion).run = some (.ok u)) : cond := by
  rw [Asserting.assert] at h
  split at h
  · assumption
  · cases h

theorem rememberPosition_error {a : ParserAssertion} (h : (Asserting.rememberPosition p).run = some (.error a)) :
    ¬p.Inside := by
  rcases run_bind_error h with h | ⟨_, -, h⟩
  · exact assert_error h
  · cases h

theorem getPosition_error {position : UInt64} {a : ParserAssertion}
    (h : (Asserting.getPosition p position).run = some (.error a)) : ¬p.start ≤ position ∨ ¬p.Inside := by
  rcases run_bind_error h with h | ⟨_, -, h⟩
  · exact .inl (assert_error h)
  · rcases run_bind_error h with h | ⟨_, -, h⟩
    · exact .inr (assert_error h)
    · cases h

/-- A position is got where the cursor is not before the text. -/
theorem getPosition_ok {position : UInt64} {x : ElementPosition}
    (h : (Asserting.getPosition p position).run = some (.ok x)) : p.Inside := by
  obtain ⟨_, -, h⟩ := run_bind_ok h
  obtain ⟨_, hinside, -⟩ := run_bind_ok h
  exact assert_ok hinside

theorem remembering_error {α : Type} {x : Except ParseErrorInfo α × Parser} {a : ParserAssertion} (hp : p.Inside)
    (hstart : x.2.start = p.start) (h : (Asserting.remembering p x).run = some (.error a)) :
    ¬x.2.Inside ∧ ∃ value, x.1 = .ok value := by
  obtain ⟨_ | value, q⟩ := x
  · rcases run_bind_error h with h | ⟨_, -, h⟩
    · exact absurd hp (rememberPosition_error h)
    · cases h
  · rcases run_bind_error h with h | ⟨position, hposition, h⟩
    · exact absurd hp (rememberPosition_error h)
    · obtain rfl := Option.some.inj ((guards_rememberPosition p).of_ok hposition)
      rcases run_bind_error h with h | ⟨_, -, h⟩
      · rcases getPosition_error h with hremembered | hcurrent
        · rw [show q.start = p.start from hstart] at hremembered
          exact absurd hp hremembered
        · exact ⟨hcurrent, value, rfl⟩
      · cases h

section
variable {ch : UInt8} {missing : ParseErrorInfo} {loop : UInt64 → Parser → Asserting (ParsedElementRef × Parser)}

theorem opening_ok {x : ParsedElementRef × Parser} (h : (Asserting.opening m p ch missing loop).run = some (.ok x)) :
    p.consume m ch = none ∧ x = (.error missing, p) ∨
      ∃ q, p.consume m ch = some q ∧ (loop p.current q).run = some (.ok x) := by
  obtain ⟨position, hposition, h⟩ := run_bind_ok h
  obtain rfl := Option.some.inj ((guards_rememberPosition p).of_ok hposition)
  cases hc : p.consume m ch with
  | none =>
    rw [hc] at h
    cases h
    exact .inl ⟨rfl, rfl⟩
  | some q =>
    rw [hc] at h
    exact .inr ⟨q, rfl, h⟩

theorem opening_of_consume {x : ParsedElementRef × Parser} (hc : p.consume m ch = some q)
    (h : (Asserting.opening m p ch missing loop).run = some (.ok x)) : (loop p.current q).run = some (.ok x) := by
  rcases opening_ok h with ⟨hnone, -⟩ | ⟨q', hq', h⟩
  · cases hnone.symm.trans hc
  · cases hq'.symm.trans hc
    exact h

theorem opening_error {a : ParserAssertion} (hp : p.Inside)
    (h : (Asserting.opening m p ch missing loop).run = some (.error a)) :
    ∃ q, p.consume m ch = some q ∧ (loop p.current q).run = some (.error a) := by
  rcases run_bind_error h with h | ⟨position, hposition, h⟩
  · exact absurd hp (rememberPosition_error h)
  · obtain rfl := Option.some.inj ((guards_rememberPosition p).of_ok hposition)
    cases hc : p.consume m ch with
    | none =>
      rw [hc] at h
      cases h
    | some q =>
      rw [hc] at h
      exact ⟨q, rfl, h⟩

end

section
variable {position : UInt64} {missing : ParseErrorInfo} {build : ElementPosition → ElementRef}

theorem closing_ok {e : ElementRef} (h : (Asserting.closing m p position missing build).run = some (.ok (.ok e, q))) :
    q.Inside ∧ q.start = p.start := by
  rw [Asserting.closing] at h
  cases hc : p.consume m kElementEnd with
  | none =>
    rw [hc] at h
    cases h
  | some p' =>
    rw [hc] at h
    obtain ⟨_, hposition, h⟩ := run_bind_ok h
    cases h
    exact ⟨getPosition_ok hposition, (Parser.GoesOn.consume hc).start⟩

/-- The assertions at the end of a list or a dictionary hold. -/
theorem closing_ne_error {a : ParserAssertion} (hstart : p.start ≤ position) (hp : p.Inside) :
    (Asserting.closing m p position missing build).run ≠ some (.error a) := by
  intro h
  rw [Asserting.closing] at h
  cases hc : p.consume m kElementEnd with
  | none =>
    rw [hc] at h
    cases h
  | some q =>
    rw [hc] at h
    have hon := Parser.GoesOn.consume hc
    rcases run_bind_error h with h | ⟨_, -, h⟩
    · rcases getPosition_error h with hposition | hcurrent
      · rw [hon.start] at hposition
        exact hposition hstart
      · exact hcurrent (hon.inside hp)
    · cases h

end

theorem remembering_ok {α : Type} {value : α} {x : Except ParseErrorInfo α × Parser}
    (h : (Asserting.remembering p (.ok value, q)).run = some (.ok x)) :
    q.Inside := by
  obtain ⟨_, -, h⟩ := run_bind_ok h
  obtain ⟨_, h, -⟩ := run_bind_ok h
  exact getPosition_ok h

/-! ### What is read -/

/-- A function that has succeeded leaves the cursor in the text, or behind it. -/
structure OkAt (m : Memory) (n : Nat) : Prop where
  element : ∀ id p e q, (Asserting.parseElement m n id p).run = some (.ok (.ok e, q)) → q.Inside ∧ q.start = p.start
  list : ∀ p e q, (Asserting.parseList m n p).run = some (.ok (.ok e, q)) → q.Inside ∧ q.start = p.start
  items : ∀ position b p e q, (Asserting.listLoop m n position b p).run = some (.ok (.ok e, q)) →
    q.Inside ∧ q.start = p.start
  dictionary : ∀ p e q, (Asserting.parseDictionary m n p).run = some (.ok (.ok e, q)) → q.Inside ∧ q.start = p.start
  entries : ∀ position b p e q, (Asserting.dictionaryLoop m n position b p).run = some (.ok (.ok e, q)) →
    q.Inside ∧ q.start = p.start

theorem remembering_eq_ok {α : Type} {x : Except ParseErrorInfo α × Parser} {value : α}
    (hstart : x.2.start = p.start) (h : (Asserting.remembering p x).run = some (.ok (.ok value, q))) :
    q.Inside ∧ q.start = p.start := by
  cases Option.some.inj ((guards_remembering p x).of_ok h)
  exact ⟨remembering_ok h, hstart⟩

theorem okAt (n : Nat) : OkAt m n := by
  induction n with
  | zero => constructor <;> intros <;> rename_i h <;> cases h
  | succ n ih =>
    constructor
    case element =>
      intro id p e q h
      rw [Asserting.parseElement] at h
      split at h
      · cases h
      · split at h
        · exact remembering_eq_ok Parser.GoesOn.parseInteger.start h
        · split at h
          · exact ih.list p e q h
          · split at h
            · exact ih.dictionary p e q h
            · obtain ⟨_, -, h⟩ := run_bind_ok h
              exact remembering_eq_ok start_parseString h
    case list =>
      intro p e q h
      rw [Asserting.parseList_opening] at h
      rcases opening_ok h with ⟨-, hx⟩ | ⟨p', hc, h⟩
      · cases hx
      · rw [← (Parser.GoesOn.consume hc).start]
        exact ih.items _ _ p' e q h
    case items =>
      intro position b p e q h
      by_cases hmore : Parser.AtElement m p
      · rw [Asserting.listLoop_item hmore] at h
        obtain ⟨⟨_ | element, p'⟩, helement, h⟩ := run_bind_ok h
        · cases h
        · rw [← (ih.element _ p _ p' helement).2]
          exact ih.items _ _ p' e q h
      · rw [Asserting.listLoop_closing hmore] at h
        exact closing_ok h
    case dictionary =>
      intro p e q h
      rw [Asserting.parseDictionary_opening] at h
      rcases opening_ok h with ⟨-, hx⟩ | ⟨p', hc, h⟩
      · cases hx
      · rw [← (Parser.GoesOn.consume hc).start]
        exact ih.entries _ _ p' e q h
    case entries =>
      intro position b p e q h
      by_cases hmore : Parser.AtElement m p
      · rw [Asserting.dictionaryLoop_entry hmore] at h
        obtain ⟨⟨_ | k, p'⟩, hk, h⟩ := run_bind_ok h
        · cases h
        · simp only [Asserting.keyNext] at h
          cases hkey : k.asString with
          | none =>
            rw [hkey] at h
            cases h
          | some key =>
            rw [hkey] at h
            obtain ⟨⟨_ | v, p''⟩, hv, h⟩ := run_bind_ok h
            · cases h
            · rw [← (ih.element _ p _ p' hk).2, ← (ih.element _ p' _ p'' hv).2]
              exact ih.entries _ _ p'' e q h
      · rw [Asserting.dictionaryLoop_closing hmore] at h
        exact closing_ok h

/-- What is read with the assertions is read without them. -/
theorem element_of_asserting {n : Nat} {id : ElementId} {x : ParsedElementRef × Parser}
    (h : (Asserting.parseElement m n id p).run = some (.ok x)) : Parser.Element m id p x :=
  (Parser.parseElement_stable id p).converges (((guardsAt n).element id p).of_ok h)

/-! ### An assertion that fails -/

/-- Some element that is read from here on leaves the cursor before the text. -/
def Parser.FallsBack (m : Memory) (p : Parser) : Prop :=
  ∃ q id e q', ReflTransGen (Calls m) p q ∧ Element m id q (.ok e, q') ∧ ¬q'.Inside

theorem Parser.FallsBack.of_call (h : Parser.FallsBack m q) (hcall : Parser.Calls m p q) : Parser.FallsBack m p := by
  obtain ⟨q₁, id, e, q', hcalls, helement, hinside⟩ := h
  exact ⟨q₁, id, e, q', .head hcall hcalls, helement, hinside⟩

/-- A function that aborts has read such an element. -/
structure AbortsAt (m : Memory) (n : Nat) : Prop where
  element : ∀ id p a, p.Inside → (Asserting.parseElement m n id p).run = some (.error a) → Parser.FallsBack m p
  list : ∀ p a, p.Inside → (Asserting.parseList m n p).run = some (.error a) →
    ∃ q, Parser.ListCall m p q ∧ Parser.FallsBack m q
  items : ∀ p position b q a, Parser.ListHead m p q → q.start ≤ position → q.Inside →
    (Asserting.listLoop m n position b q).run = some (.error a) → ∃ q, Parser.ListCall m p q ∧ Parser.FallsBack m q
  dictionary : ∀ p a, p.Inside → (Asserting.parseDictionary m n p).run = some (.error a) →
    ∃ q, Parser.DictionaryCall m p q ∧ Parser.FallsBack m q
  entries : ∀ p position b q a, Parser.DictionaryHead m p q → q.start ≤ position → q.Inside →
    (Asserting.dictionaryLoop m n position b q).run = some (.error a) →
      ∃ q, Parser.DictionaryCall m p q ∧ Parser.FallsBack m q

theorem abortsAt (n : Nat) : AbortsAt m n := by
  induction n with
  | zero => constructor <;> intros <;> rename_i h <;> cases h
  | succ n ih =>
    constructor
    case element =>
      intro id p a hp h
      rw [Asserting.parseElement] at h
      split at h
      · cases h
      · rename_i hend
        split at h
        · exact absurd (Parser.GoesOn.parseInteger.inside hp) (remembering_error hp Parser.GoesOn.parseInteger.start h).1
        · rename_i hi
          split at h
          · obtain ⟨q, hcall, hfalls⟩ := ih.list p a hp h
            exact hfalls.of_call (.inl hcall)
          · rename_i hl
            split at h
            · obtain ⟨q, hcall, hfalls⟩ := ih.dictionary p a hp h
              exact hfalls.of_call (.inr hcall)
            · rename_i hd
              rcases run_bind_error h with h | ⟨_, -, h⟩
              · have hlength := @Parser.GoesOn.parseStringLength m p
                exact absurd (hlength.inside hp) (remembering_error hp hlength.start h).1
              · -- The length took the cursor to before the text.
                obtain ⟨hinside, e, he⟩ := remembering_error hp start_parseString h
                have helement := Parser.element_string id hend hi hl hd
                refine ⟨p, id, e, (p.parseString m).2, .refl, ?_, hinside⟩
                rw [← he]
                exact helement
    case list =>
      intro p a hp h
      rw [Asserting.parseList_opening] at h
      obtain ⟨q, hc, h⟩ := opening_error hp h
      have hon := Parser.GoesOn.consume hc
      exact ih.items p _ _ q a (.enter hc) (hon.start ▸ hp) (hon.inside hp) h
    case items =>
      intro p position b q a hhead hstart hq h
      by_cases hmore : Parser.AtElement m q
      · have hcall : Parser.ListCall m p q := ⟨hhead, hmore⟩
        rw [Asserting.listLoop_item hmore] at h
        rcases run_bind_error h with h | ⟨⟨_ | e, q'⟩, he, h⟩
        · exact ⟨q, hcall, ih.element _ q a hq h⟩
        · cases h
        · obtain ⟨hinside, hsame⟩ := (okAt n).element _ _ _ _ he
          exact ih.items p position _ q' a (.next hhead hmore (element_of_asserting he)) (hsame ▸ hstart) hinside h
      · rw [Asserting.listLoop_closing hmore] at h
        exact absurd h (closing_ne_error hstart hq)
    case dictionary =>
      intro p a hp h
      rw [Asserting.parseDictionary_opening] at h
      obtain ⟨q, hc, h⟩ := opening_error hp h
      have hon := Parser.GoesOn.consume hc
      exact ih.entries p _ _ q a (.enter hc) (hon.start ▸ hp) (hon.inside hp) h
    case entries =>
      intro p position b q a hhead hstart hq h
      by_cases hmore : Parser.AtElement m q
      · have hcall : Parser.DictionaryCall m p q := ⟨q, hhead, hmore, .inl rfl⟩
        rw [Asserting.dictionaryLoop_entry hmore] at h
        rcases run_bind_error h with h | ⟨⟨_ | k, q₁⟩, hk, h⟩
        · exact ⟨q, hcall, ih.element _ q a hq h⟩
        · cases h
        · obtain ⟨hinside₁, hsame₁⟩ := (okAt n).element _ _ _ _ hk
          simp only [Asserting.keyNext] at h
          cases hkey : k.asString with
          | none =>
            rw [hkey] at h
            cases h
          | some key =>
            rw [hkey] at h
            have helement := element_of_asserting hk
            rcases run_bind_error h with h | ⟨⟨_ | v, q₂⟩, hv, h⟩
            · exact ⟨q₁, ⟨q, hhead, hmore, .inr ⟨k, key, helement, hkey⟩⟩, ih.element _ q₁ a hinside₁ h⟩
            · cases h
            · obtain ⟨hinside₂, hsame₂⟩ := (okAt n).element _ _ _ _ hv
              refine ih.entries p position _ q₂ a (.next hhead hmore helement hkey (element_of_asserting hv)) ?_ hinside₂ h
              rw [hsame₂, hsame₁]
              exact hstart
      · rw [Asserting.dictionaryLoop_closing hmore] at h
        exact absurd h (closing_ne_error hstart hq)

/-! ### A run that does not abort -/

/-- `parse_element` does not abort at `p`. -/
def Unaborted (m : Memory) (p : Parser) : Prop := ∃ n id x, (Asserting.parseElement m n id p).run = some (.ok x)

/-- A loop goes on as it does without the assertions. -/
theorem exists_element {n : Nat} {id : ElementId} {f : ParsedElementRef × Parser → Asserting (ParsedElementRef × Parser)}
    {x y : ParsedElementRef × Parser} (h : (Asserting.parseElement m n id p >>= f).run = some (.ok x))
    (he : Parser.Element m id p y) : (f y).run = some (.ok x) := by
  obtain ⟨y', hy', hf⟩ := run_bind_ok h
  rwa [← (element_of_asserting hy').unique he]

theorem unaborted_of_bind {n : Nat} {id : ElementId} {f : ParsedElementRef × Parser → Asserting (ParsedElementRef × Parser)}
    {x : ParsedElementRef × Parser} (h : (Asserting.parseElement m n id p >>= f).run = some (.ok x)) : Unaborted m p := by
  obtain ⟨y, hy, -⟩ := run_bind_ok h
  exact ⟨n, id, y, hy⟩

theorem listHead_unaborted {n : Nat} {x : ParsedElementRef × Parser} (h : (Asserting.parseList m n p).run = some (.ok x))
    (hhead : Parser.ListHead m p q) :
    ∃ n position b x, (Asserting.listLoop m n position b q).run = some (.ok x) := by
  induction hhead with
  | enter hc =>
    cases n with
    | zero => cases h
    | succ n =>
      rw [Asserting.parseList_opening] at h
      exact ⟨n, _, [], x, opening_of_consume hc h⟩
  | next _ hmore he ih =>
    obtain ⟨n, position, b, x, h⟩ := ih
    cases n with
    | zero => cases h
    | succ n =>
      rw [Asserting.listLoop_item hmore] at h
      exact ⟨n, position, _, x, exists_element h he⟩

theorem dictionaryHead_unaborted {n : Nat} {x : ParsedElementRef × Parser}
    (h : (Asserting.parseDictionary m n p).run = some (.ok x)) (hhead : Parser.DictionaryHead m p q) :
    ∃ n position b x, (Asserting.dictionaryLoop m n position b q).run = some (.ok x) := by
  induction hhead with
  | enter hc =>
    cases n with
    | zero => cases h
    | succ n =>
      rw [Asserting.parseDictionary_opening] at h
      exact ⟨n, _, [], x, opening_of_consume hc h⟩
  | next _ hmore hk hkey hv ih =>
    obtain ⟨n, position, b, x, h⟩ := ih
    cases n with
    | zero => cases h
    | succ n =>
      rw [Asserting.dictionaryLoop_entry hmore] at h
      have h := exists_element h hk
      simp only [Asserting.keyNext, hkey] at h
      exact ⟨n, position, _, x, exists_element h hv⟩

theorem listCall_unaborted {n : Nat} {x : ParsedElementRef × Parser} (h : (Asserting.parseList m n p).run = some (.ok x))
    (hcall : Parser.ListCall m p q) : Unaborted m q := by
  obtain ⟨hhead, hmore⟩ := hcall
  obtain ⟨n, position, b, x, h⟩ := listHead_unaborted h hhead
  cases n with
  | zero => cases h
  | succ n =>
    rw [Asserting.listLoop_item hmore] at h
    exact unaborted_of_bind h

theorem dictionaryCall_unaborted {n : Nat} {x : ParsedElementRef × Parser}
    (h : (Asserting.parseDictionary m n p).run = some (.ok x)) (hcall : Parser.DictionaryCall m p q) : Unaborted m q := by
  obtain ⟨head, hhead, hmore, hq⟩ := hcall
  obtain ⟨n, position, b, x, h⟩ := dictionaryHead_unaborted h hhead
  cases n with
  | zero => cases h
  | succ n =>
    rw [Asserting.dictionaryLoop_entry hmore] at h
    rcases hq with rfl | ⟨k, key, hk, hkey⟩
    · exact unaborted_of_bind h
    · have h := exists_element h hk
      simp only [Asserting.keyNext, hkey] at h
      exact unaborted_of_bind h

theorem first_of_consume {ch : UInt8} (h : p.consume m ch = some q) : ¬p.end_ ≤ p.current ∧ m p.current = ch := by
  rw [Parser.consume] at h
  split at h
  · rename_i hdata
    obtain ⟨hdata, hfirst⟩ := Bool.and_eq_true_iff.mp hdata
    exact ⟨UInt64.not_le.mpr (of_decide_eq_true hdata), beq_iff_eq.mp hfirst⟩
  · cases h

theorem Parser.ListHead.consume (h : Parser.ListHead m p q) : ∃ q, p.consume m kListStart = some q := by
  induction h with
  | enter hc => exact ⟨_, hc⟩
  | next _ _ _ ih => exact ih

theorem Parser.DictionaryHead.consume (h : Parser.DictionaryHead m p q) : ∃ q, p.consume m kDictionaryStart = some q := by
  induction h with
  | enter hc => exact ⟨_, hc⟩
  | next _ _ _ _ _ ih => exact ih

theorem Unaborted.call (h : Unaborted m p) (hcall : Parser.Calls m p q) : Unaborted m q := by
  obtain ⟨n, id, x, h⟩ := h
  cases n with
  | zero => cases h
  | succ n =>
    rw [Asserting.parseElement] at h
    rcases hcall with hcall | hcall
    · obtain ⟨_, hc⟩ := hcall.1.consume
      obtain ⟨hend, hfirst⟩ := first_of_consume hc
      rw [if_neg hend, if_neg (by rw [hfirst]; decide), if_pos hfirst] at h
      exact listCall_unaborted h hcall
    · have ⟨_, hhead, _⟩ := hcall
      obtain ⟨_, hc⟩ := hhead.consume
      obtain ⟨hend, hfirst⟩ := first_of_consume hc
      rw [if_neg hend, if_neg (by rw [hfirst]; decide), if_neg (by rw [hfirst]; decide), if_pos hfirst] at h
      exact dictionaryCall_unaborted h hcall

/-- What is read does not depend on the parent. -/
theorem element_id {id id' : ElementId} {e : ElementRef} (h : Parser.Element m id p (.ok e, q)) :
    Parser.Element m id' p (.ok e, q) := by
  obtain ⟨n, hn⟩ := h.exists_eq
  refine (Parser.parseElement_stable id' p).converges (n := n) ?_
  cases n with
  | zero => cases hn
  | succ n =>
    rw [Parser.parseElement] at hn ⊢
    split at hn
    · cases hn
    · rename_i hend
      rw [if_neg hend]
      exact hn

theorem Unaborted.not_fallsBack (h : Unaborted m p) : ¬Parser.FallsBack m p := by
  rintro ⟨q, id, e, q', hcalls, helement, hinside⟩
  have hunaborted : Unaborted m q := by
    clear helement
    induction hcalls with
    | refl => exact h
    | tail _ hcall ih => exact ih.call hcall
  obtain ⟨n, id', x, hx⟩ := hunaborted
  obtain rfl := (element_of_asserting hx).unique (element_id helement)
  exact hinside ((okAt n).element _ _ _ _ hx).1

/-! ### The whole run -/

/-- No element that `ParseDictionary` reads of the text leaves the cursor before the text. -/
def StaysInside (m : Memory) (r : Region) : Prop :=
  ∀ p, Parser.DictionaryCall m (.make r) p → ¬Parser.FallsBack m p

theorem parseDictionary_stays {r : Region} {n : Nat} {x : ParsedElementRef × Parser}
    (h : (Asserting.parseDictionary m n (.make r)).run = some (.ok x)) : StaysInside m r :=
  fun _ hcall => (dictionaryCall_unaborted h hcall).not_fallsBack

/-- Where the cursor stays inside, the assertions hold. -/
theorem parseDictionary_asserting {r : Region} (h : StaysInside m r) {n : Nat} {x : ParsedElementRef × Parser}
    (hx : Parser.parseDictionary m n (.make r) = some x) :
    (Asserting.parseDictionary m n (.make r)).run = some (.ok x) := by
  rcases ((guardsAt n).dictionary (.make r)).of_some hx with hok | ⟨a, herror⟩
  · exact hok
  · obtain ⟨q, hcall, hfalls⟩ := (abortsAt n).dictionary (.make r) a (UInt64.le_refl _) herror
    exact absurd hfalls (h q hcall)

/-- The length of a key takes the cursor to one byte before the text: the parser that does not assert it goes on. -/
def beforeStart : List UInt8 := ascii "d18446744073709551593:e"

example : (Asserting.parseDictionary (place 4096 beforeStart) 5 (.make (.of 4096 beforeStart (by decide)))).run =
    some (.error .currentPosition) := rfl

end

end BittorrentClient
