import BittorrentClient.Theorems.Parser.Calls
import BittorrentClient.Theorems.Parser.Tokens

/-! What the parser reads, as a grammar over the bytes of the region. The grammar leaves open where a
    string ends. For every rule that the bound test of `consume_n` agrees with, the parser reads exactly
    the elements of the grammar, and it terminates. -/

namespace BittorrentClient
open FlatMemory Fuel Decimal BittorrentClient.Parser

/-- Where a string ends: it starts at the first offset, its body at the second, and it declares a length. -/
abbrev StringRule := Nat → Nat → UInt64 → Nat → Prop

section
variable (m : Memory) (r : Region) (S : StringRule)

/-- An offset inside the region that does not hold `e`. -/
def AtOffset (k : Nat) : Prop := k < r.size.toNat ∧ r.byte m k ≠ 101

mutual
/-- The element is read at the first offset and ends at the second. -/
inductive Reads : Nat → ElementRef → Nat → Prop where
  | integer {i z j} : IsInteger m r i z j → Reads i (integerAt r i z) j
  | string {i c length j} : IsHeader m r i length c → S i c length j → Reads i (stringAt r i c length) j
  | list {i items k} : i < r.size.toNat → r.byte m i = 108 → ItemsRead (i + 1) items k → k < r.size.toNat →
      r.byte m k = 101 → Reads i (.list items (rangeOf i (k + 1))) (k + 1)
  | dictionary {i entries k} : i < r.size.toNat → r.byte m i = 100 → EntriesRead (i + 1) entries k →
      k < r.size.toNat → r.byte m k = 101 → Reads i (.dictionary entries (rangeOf i (k + 1))) (k + 1)

inductive ItemsRead : Nat → ListRef → Nat → Prop where
  | nil {i} : ItemsRead i [] i
  | snoc {i items j e k} : ItemsRead i items j → Reads j e k → ItemsRead i (items ++ [e]) k

inductive EntriesRead : Nat → DictionaryRef → Nat → Prop where
  | nil {i} : EntriesRead i [] i
  | snoc {i entries j key k e l} : EntriesRead i entries j → Reads j key k → ∀ {s}, key.asString = some s →
      Reads k e l → EntriesRead i (entries ++ [(s, e)]) l
end

/-- Offsets at which an element is read when the reading starts at an offset in `Root`. -/
inductive Standing (Root : Nat → Prop) : Nat → Prop where
  | root {i} : Root i → Standing Root i
  | item {i items k} : Standing Root i → i < r.size.toNat → r.byte m i = 108 → ItemsRead m r S (i + 1) items k →
      AtOffset m r k → Standing Root k
  | key {i entries k} : Standing Root i → i < r.size.toNat → r.byte m i = 100 → EntriesRead m r S (i + 1) entries k →
      AtOffset m r k → Standing Root k
  | value {i entries j e s k} : Standing Root i → i < r.size.toNat → r.byte m i = 100 →
      EntriesRead m r S (i + 1) entries j → AtOffset m r j → Reads m r S j e k → e.asString = some s →
      Standing Root k

/-- The rule agrees with `consume_n`: a string that it ends passes the bound test, moves the cursor
    forward and leaves it inside the region. -/
structure Agrees : Prop where
  accepts {i c length j} : IsHeader m r i length c → S i c length j → Accepts r length
  cursor_eq {i c length j} : IsHeader m r i length c → S i c length j → cursor r (c + length.toNat) = cursor r j
  lt {i c length j} : IsHeader m r i length c → S i c length j → i < j
  le_size {i c length j} : IsHeader m r i length c → S i c length j → j ≤ r.size.toNat

/-- Every string that is read and passes the bound test is one that the rule ends. -/
def Covers (Root : Nat → Prop) : Prop :=
  ∀ i length c, Standing m r S Root i → IsHeader m r i length c → Accepts r length → ∃ j, S i c length j

end

section
variable {m : Memory} {r : Region} {S : StringRule}

theorem atElement_cursor {k : Nat} (hk : k ≤ r.size.toNat) : AtElement m (cursor r k) ↔ AtOffset m r k := by
  simp only [AtElement, hasData_cursor hk, byte_cursor, Bool.and_eq_true, decide_eq_true_eq, bne_iff_ne, AtOffset]
  exact Iff.rfl

theorem IsInteger.lt {i j : Nat} {z : Int} (h : IsInteger m r i z j) : i < j ∧ r.byte m i = 105 := by
  obtain ⟨hlt, hbyte, -⟩ := (r.slice_eq_cons_iff m h.1).mp h.2.2
  exact ⟨hlt, hbyte⟩

theorem IsHeader.first {i c : Nat} {length : UInt64} (h : IsHeader m r i length c) :
    i < r.size.toNat ∧ isDigit (r.byte m i) = true := by
  obtain ⟨k, rfl, hik, hk, hds, -⟩ := h.digits
  rw [r.slice_cons m hik] at hds
  exact ⟨by omega, hds _ List.mem_cons_self⟩

theorem isDigit_ne {b : UInt8} (h : isDigit b = true) : b ≠ 105 ∧ b ≠ 108 ∧ b ≠ 100 ∧ b ≠ 101 := by
  refine ⟨?_, ?_, ?_, ?_⟩ <;> rintro rfl <;> exact absurd h (by decide)

theorem Reads.atOffset {i : Nat} {e : ElementRef} {j : Nat} (h : Reads m r S i e j) : AtOffset m r i := by
  cases h with
  | integer h => exact ⟨by have := h.lt; have := h.2.1; omega, by rw [h.lt.2]; decide⟩
  | string h _ => exact ⟨h.first.1, (isDigit_ne h.first.2).2.2.2⟩
  | list hi hb _ _ _ => exact ⟨hi, by rw [hb]; decide⟩
  | dictionary hi hb _ _ _ => exact ⟨hi, by rw [hb]; decide⟩

/-! ### Offsets -/

mutual
theorem Reads.bounds (hS : Agrees m r S) {i : Nat} {e : ElementRef} {j : Nat} :
    Reads m r S i e j → i < j ∧ j ≤ r.size.toNat
  | .integer h => ⟨h.lt.1, h.2.1⟩
  | .string h hj => ⟨hS.lt h hj, hS.le_size h hj⟩
  | .list _ _ hitems hk _ => by
    have := hitems.le hS
    omega
  | .dictionary _ _ hentries hk _ => by
    have := hentries.le hS
    omega

theorem ItemsRead.le (hS : Agrees m r S) {i : Nat} {items : ListRef} {k : Nat} : ItemsRead m r S i items k → i ≤ k
  | .nil => Nat.le_refl i
  | .snoc hitems he => Nat.le_trans (hitems.le hS) (he.bounds hS).1.le

theorem EntriesRead.le (hS : Agrees m r S) {i : Nat} {entries : DictionaryRef} {k : Nat} :
    EntriesRead m r S i entries k → i ≤ k
  | .nil => Nat.le_refl i
  | .snoc hentries hkey _ he => by
    have := hentries.le hS
    have := hkey.bounds hS
    have := he.bounds hS
    omega
end

/-! ### The parser at an offset -/

section
variable {i k : Nat} {x : ParsedElementRef × Parser}

theorem has_data (hi : i < r.size.toNat) : ¬(cursor r i).end_ ≤ (cursor r i).current := by
  have h := hasData_cursor hi.le
  simp only [hi, decide_true, Parser.hasData, decide_eq_true_eq] at h
  exact UInt64.not_le.mpr h

theorem element_cursor_end (id : ElementId) (hi : ¬i < r.size.toNat) (hi' : i ≤ r.size.toNat) :
    Element m id (cursor r i) ((cursor r i).makeError id .unexpectedEnd, cursor r i) := by
  have h := hasData_cursor hi'
  simp only [hi, decide_false, Parser.hasData, decide_eq_false_iff_not] at h
  exact element_end id (UInt64.not_lt.mp h)

theorem element_cursor_list (id : ElementId) (hi : i < r.size.toNat) (hb : r.byte m i = 108)
    (h : Converges (fun fuel => listLoop m fuel (r.addr i) [] (cursor r (i + 1))) x) :
    Element m id (cursor r i) x :=
  element_list id (has_data hi) hb (list_enter (consume_eq_some hi hb) h)

theorem element_cursor_dictionary (id : ElementId) (hi : i < r.size.toNat) (hb : r.byte m i = 100)
    (h : Converges (fun fuel => dictionaryLoop m fuel (r.addr i) [] (cursor r (i + 1))) x) :
    Element m id (cursor r i) x :=
  element_dictionary id (has_data hi) hb (dictionary_enter (consume_eq_some hi hb) h)

theorem element_cursor_integer (id : ElementId) (hi : i < r.size.toNat) (hb : r.byte m i = 105) :
    Element m id (cursor r i) ((cursor r i).parseInteger m) :=
  element_integer id (has_data hi) hb

theorem element_cursor_string (id : ElementId) (hi : i < r.size.toNat) (hb : r.byte m i ≠ 105)
    (hb' : r.byte m i ≠ 108) (hb'' : r.byte m i ≠ 100) :
    Element m id (cursor r i) ((cursor r i).parseString m) :=
  element_string id (has_data hi) hb hb' hb''

/-- A string whose length passes the bound test moves the cursor, whatever the length. -/
theorem element_header (id : ElementId) {length : UInt64} {c : Nat} (h : IsHeader m r i length c)
    (hacc : Accepts r length) :
    Element m id (cursor r i) (.ok (stringAt r i c length), cursor r (c + length.toNat)) := by
  obtain ⟨hi, hd⟩ := h.first
  obtain ⟨h1, h2, h3, -⟩ := isDigit_ne hd
  have := element_cursor_string id hi h1 h2 h3
  rwa [parseString_header h, if_pos hacc] at this

/-- Where no element starts, an `e` is consumed, or the region ends. -/
theorem consume_end (hk : k ≤ r.size.toNat) (h : ¬AtOffset m r k) :
    (cursor r k).consume m kElementEnd = if k < r.size.toNat then some (cursor r (k + 1)) else none := by
  by_cases hlt : k < r.size.toNat
  · rw [if_pos hlt]
    exact consume_eq_some hlt (not_not.mp fun hb => h ⟨hlt, hb⟩)
  · rw [if_neg hlt, Option.eq_none_iff_forall_ne_some]
    exact fun p hp => hlt ((consume_eq_some_iff hk).mp hp).1

/-- The loop of a list ends with the list at an `e`, and with an error at the end of the region. -/
theorem list_end_cursor (items : ListRef) (hk : k ≤ r.size.toNat) (h : ¬AtOffset m r k) :
    Converges (fun fuel => listLoop m fuel (r.addr i) items (cursor r k))
      (if k < r.size.toNat then (.ok (.list items (rangeOf i (k + 1))), cursor r (k + 1))
        else ((cursor r k).makeError .string .missingListEnd, cursor r k)) := by
  have hend := list_end (r.addr i) items (mt (atElement_cursor hk).mp h)
  have hpos : (cursor r (k + 1)).positionFrom (r.addr i) = rangeOf i (k + 1) := positionFrom_cursor
  rw [consume_end hk h] at hend
  by_cases hlt : k < r.size.toNat
  · simpa only [hpos, if_pos hlt] using hend
  · simpa only [if_neg hlt] using hend

theorem dictionary_end_cursor (entries : DictionaryRef) (hk : k ≤ r.size.toNat) (h : ¬AtOffset m r k) :
    Converges (fun fuel => dictionaryLoop m fuel (r.addr i) entries (cursor r k))
      (if k < r.size.toNat then (.ok (.dictionary entries (rangeOf i (k + 1))), cursor r (k + 1))
        else ((cursor r k).makeError .dictionary .missingDictionaryEnd, cursor r k)) := by
  have hend := dictionary_end (r.addr i) entries (mt (atElement_cursor hk).mp h)
  have hpos : (cursor r (k + 1)).positionFrom (r.addr i) = rangeOf i (k + 1) := positionFrom_cursor
  rw [consume_end hk h] at hend
  by_cases hlt : k < r.size.toNat
  · simpa only [hpos, if_pos hlt] using hend
  · simpa only [if_neg hlt] using hend

end

/-! ### The parser reads all of the grammar -/

mutual
theorem Reads.element (hS : Agrees m r S) {i : Nat} {e : ElementRef} {j : Nat} (id : ElementId) :
    Reads m r S i e j → Element m id (cursor r i) (.ok e, cursor r j)
  | .integer h => by
    have hi : i < r.size.toNat := Nat.lt_of_lt_of_le h.lt.1 h.2.1
    simpa only [parseInteger_integer h] using element_cursor_integer id hi h.lt.2
  | .string h hj => hS.cursor_eq h hj ▸ element_header id h (hS.accepts h hj)
  | .list hi hb hitems hk hend =>
    element_cursor_list id hi hb (hitems.loop hS (by omega) (by
      simpa only [if_pos hk] using list_end_cursor (i := i) _ hk.le fun h => h.2 hend))
  | .dictionary hi hb hentries hk hend =>
    element_cursor_dictionary id hi hb (hentries.loop hS (by omega) (by
      simpa only [if_pos hk] using dictionary_end_cursor (i := i) _ hk.le fun h => h.2 hend))

/-- The loop of a list passes the items that are read. -/
theorem ItemsRead.loop (hS : Agrees m r S) {i : Nat} {items : ListRef} {k : Nat} {position : UInt64}
    {x : ParsedElementRef × Parser} : ItemsRead m r S i items k → i ≤ r.size.toNat →
    Converges (fun fuel => listLoop m fuel position items (cursor r k)) x →
    Converges (fun fuel => listLoop m fuel position [] (cursor r i)) x
  | .nil, _, hx => hx
  | .snoc hitems he, hi, hx =>
    hitems.loop hS hi (list_item ((atElement_cursor he.atOffset.1.le).mpr he.atOffset) (he.element hS .list) hx)

theorem EntriesRead.loop (hS : Agrees m r S) {i : Nat} {entries : DictionaryRef} {k : Nat} {position : UInt64}
    {x : ParsedElementRef × Parser} : EntriesRead m r S i entries k → i ≤ r.size.toNat →
    Converges (fun fuel => dictionaryLoop m fuel position entries (cursor r k)) x →
    Converges (fun fuel => dictionaryLoop m fuel position [] (cursor r i)) x
  | .nil, _, hx => hx
  | .snoc hentries hkey hs he, hi, hx =>
    hentries.loop hS hi (dictionary_entry ((atElement_cursor hkey.atOffset.1.le).mpr hkey.atOffset)
      (hkey.element hS .dictionary) (dictionary_value hs (he.element hS .dictionary) hx))
end

/-! ### The parser reads nothing else -/

section
variable {Root : Nat → Prop} {i : Nat}

/-- The loop of a list terminates when every element after the start of the list does. -/
theorem list_run (hS : Agrees m r S) (hi : i < r.size.toNat) (hb : r.byte m i = 108) (hroot : Standing m r S Root i)
    (helement : ∀ k, i < k → k ≤ r.size.toNat → Standing m r S Root k →
      ∃ x, Element m .list (cursor r k) x ∧ Ends r k (Reads m r S k) x)
    (n : Nat) {k : Nat} {items : ListRef} (hn : r.size.toNat - k ≤ n) (hk : k ≤ r.size.toNat)
    (hitems : ItemsRead m r S (i + 1) items k) :
    ∃ x, Converges (fun fuel => listLoop m fuel (r.addr i) items (cursor r k)) x ∧ Ends r i (Reads m r S i) x := by
  have hik := hitems.le hS
  induction n generalizing k items with
  | zero =>
    have hend := list_end_cursor (i := i) items hk fun h : AtOffset m r k => by have := h.1; omega
    rw [if_neg (by omega)] at hend
    exact ⟨_, hend, makeError_ends (by omega) hk⟩
  | succ n ih =>
    by_cases hat : AtOffset m r k
    · obtain ⟨⟨_ | e, p⟩, hx, hends⟩ := helement k hik hk (.item hroot hi hb hitems hat)
      · exact ⟨_, list_item ((atElement_cursor hk).mpr hat) hx (.pure fun _ => rfl), hends.of_error (by omega)⟩
      · obtain ⟨j, rfl, he⟩ := hends
        have hbounds := he.bounds hS
        obtain ⟨x, hloop, hx'⟩ := ih (by omega) hbounds.2 (hitems.snoc he) ((hitems.snoc he).le hS)
        exact ⟨x, list_item ((atElement_cursor hk).mpr hat) hx hloop, hx'⟩
    · have hend := list_end_cursor (i := i) items hk hat
      refine ⟨_, hend, ?_⟩
      split
      · next hlt =>
        exact ⟨k + 1, rfl, .list hi hb hitems hlt (not_not.mp fun h => hat ⟨hlt, h⟩)⟩
      · exact makeError_ends (by omega) hk

/-- The loop of a dictionary, likewise. -/
theorem dictionary_run (hS : Agrees m r S) (hi : i < r.size.toNat) (hb : r.byte m i = 100)
    (hroot : Standing m r S Root i)
    (helement : ∀ k, i < k → k ≤ r.size.toNat → Standing m r S Root k →
      ∃ x, Element m .dictionary (cursor r k) x ∧ Ends r k (Reads m r S k) x)
    (n : Nat) {k : Nat} {entries : DictionaryRef} (hn : r.size.toNat - k ≤ n) (hk : k ≤ r.size.toNat)
    (hentries : EntriesRead m r S (i + 1) entries k) :
    ∃ x, Converges (fun fuel => dictionaryLoop m fuel (r.addr i) entries (cursor r k)) x ∧
      Ends r i (Reads m r S i) x := by
  have hik := hentries.le hS
  induction n generalizing k entries with
  | zero =>
    have hend := dictionary_end_cursor (i := i) entries hk fun h : AtOffset m r k => by have := h.1; omega
    rw [if_neg (by omega)] at hend
    exact ⟨_, hend, makeError_ends (by omega) hk⟩
  | succ n ih =>
    by_cases hat : AtOffset m r k
    · have hmore := (atElement_cursor hk).mpr hat
      obtain ⟨⟨_ | key, p⟩, hx, hends⟩ := helement k hik hk (.key hroot hi hb hentries hat)
      · exact ⟨_, dictionary_entry hmore hx (.pure fun _ => rfl), hends.of_error (by omega)⟩
      · obtain ⟨j, rfl, hkey⟩ := hends
        have hj := hkey.bounds hS
        cases hs : key.asString with
        | none =>
          refine ⟨((cursor r j).makeError .dictionary .nonStringAsDictionaryKey, cursor r j),
            dictionary_entry hmore hx (.pure fun _ => ?_), makeError_ends (by omega) hj.2⟩
          simp only [keyNext, hs]
        | some s =>
          obtain ⟨⟨_ | e, p⟩, hy, hends⟩ := helement j (by omega) hj.2 (.value hroot hi hb hentries hat hkey hs)
          · exact ⟨_, dictionary_entry hmore hx (dictionary_value hs hy (.pure fun _ => rfl)),
              hends.of_error (by omega)⟩
          · obtain ⟨l, rfl, he⟩ := hends
            have hbounds := he.bounds hS
            have hnext := hentries.snoc hkey hs he
            obtain ⟨x, hloop, hx'⟩ := ih (by omega) hbounds.2 hnext (hnext.le hS)
            exact ⟨x, dictionary_entry hmore hx (dictionary_value hs hy hloop), hx'⟩
    · have hend := dictionary_end_cursor (i := i) entries hk hat
      refine ⟨_, hend, ?_⟩
      split
      · next hlt =>
        exact ⟨k + 1, rfl, .dictionary hi hb hentries hlt (not_not.mp fun h => hat ⟨hlt, h⟩)⟩
      · exact makeError_ends (by omega) hk

/-- A call of `parse_element` at an offset where an element is read terminates, with an element of the
    grammar or with an error inside the region. -/
theorem element_run (hS : Agrees m r S) (hcov : Covers m r S Root) (n : Nat) {i : Nat} (hn : r.size.toNat - i ≤ n)
    (hi : i ≤ r.size.toNat) (hstand : Standing m r S Root i) (id : ElementId) :
    ∃ x, Element m id (cursor r i) x ∧ Ends r i (Reads m r S i) x := by
  induction n generalizing i id with
  | zero =>
    exact ⟨_, element_cursor_end id (by omega) hi, makeError_ends (Nat.le_refl i) hi⟩
  | succ n ih =>
    by_cases hlt : i < r.size.toNat
    · have hnext : ∀ id k, i < k → k ≤ r.size.toNat → Standing m r S Root k →
          ∃ x, Element m id (cursor r k) x ∧ Ends r k (Reads m r S k) x :=
        fun id k hik hk hs => ih (by omega) hk hs id
      by_cases hint : r.byte m i = 105
      · refine ⟨_, element_cursor_integer id hlt hint, (parseInteger_spec hi).mono (Nat.le_refl i) ?_⟩
        rintro e j ⟨z, hz, rfl⟩
        exact .integer hz
      by_cases hlist : r.byte m i = 108
      · obtain ⟨x, hloop, hends⟩ :=
          list_run hS hlt hlist hstand (hnext .list) r.size.toNat (by omega) hlt (.nil (i := i + 1))
        exact ⟨x, element_cursor_list id hlt hlist hloop, hends⟩
      by_cases hdict : r.byte m i = 100
      · obtain ⟨x, hloop, hends⟩ :=
          dictionary_run hS hlt hdict hstand (hnext .dictionary) r.size.toNat (by omega) hlt (.nil (i := i + 1))
        exact ⟨x, element_cursor_dictionary id hlt hdict hloop, hends⟩
      · have hspec := parseString_spec (m := m) hi
        refine ⟨_, element_cursor_string id hlt hint hlist hdict, ?_⟩
        revert hspec
        rcases (cursor r i).parseString m with ⟨_ | e, p⟩
        · exact fun h => h.of_error (Nat.le_refl i)
        · rintro ⟨_, rfl, length, c, hdr, hacc, rfl, rfl⟩
          obtain ⟨j, hj⟩ := hcov i length c hstand hdr hacc
          exact ⟨j, hS.cursor_eq hdr hj, .string hdr hj⟩
    · exact ⟨_, element_cursor_end id hlt hi, makeError_ends (Nat.le_refl i) hi⟩

end

end

end BittorrentClient
