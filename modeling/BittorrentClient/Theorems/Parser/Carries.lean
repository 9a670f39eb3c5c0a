import BittorrentClient.Theorems.Parser.Located

/-! What a parsed element says: its views read the content of a term, and the positions at every depth
    are those of the text. -/

namespace BittorrentClient
open FlatMemory Decimal Bencode

section
variable (m : Memory) (r : Region)

/-- The position is the range of offsets at which the text stands. -/
def Spans (position : ElementPosition) (text : List UInt8) : Prop :=
  position.start.toNat + text.length = position.end_.toNat ∧ r.Holds m position.start.toNat text

mutual
/-- The element has the content of the term, and the range of its text, at every depth. -/
def Carries : ElementRef → Term → Prop
  | .integer n position, .int z => n.read m = intText z ∧ Spans m r position (Term.int z).bytes
  | .string v position, .str s => v.read m = s.body ∧ Spans m r position (Term.str s).bytes
  | .list items position, .list ts => ItemsCarry items ts ∧ Spans m r position (Term.list ts).bytes
  | .dictionary entries position, .dict ts => EntriesCarry entries ts ∧ Spans m r position (Term.dict ts).bytes
  | _, _ => False

def ItemsCarry : ListRef → List Term → Prop
  | [], [] => True
  | e :: items, t :: ts => Carries e t ∧ ItemsCarry items ts
  | _, _ => False

def EntriesCarry : DictionaryRef → List (Str × Term) → Prop
  | [], [] => True
  | (v, e) :: entries, (s, t) :: ts => v.read m = s.body ∧ Carries e t ∧ EntriesCarry entries ts
  | _, _ => False
end

end

/-- Ranges that are not empty, in order and disjoint, between two offsets. -/
def Siblings (start end_ : UInt64) : List ElementPosition → Prop
  | [] => start ≤ end_
  | position :: rest => start ≤ position.start ∧ position.start < position.end_ ∧ Siblings position.end_ end_ rest

mutual
/-- At every depth the ranges of the elements lie inside that of their parent, disjoint and in order. -/
def Nested : ElementRef → Prop
  | .integer _ _ | .string _ _ => True
  | .list items position => Siblings position.start position.end_ (items.map ElementRef.position) ∧ ItemsNested items
  | .dictionary entries position =>
    Siblings position.start position.end_ (entries.map fun entry => entry.2.position) ∧ EntriesNested entries

def ItemsNested : ListRef → Prop
  | [] => True
  | e :: items => Nested e ∧ ItemsNested items

def EntriesNested : DictionaryRef → Prop
  | [] => True
  | (_, e) :: entries => Nested e ∧ EntriesNested entries
end

section
variable {m : Memory} {r : Region}

theorem toNat_ofNat_le {i : Nat} (h : i ≤ r.size.toNat) : (UInt64.ofNat i).toNat = i := by
  have := size_lt r
  rw [UInt64.toNat_ofNat']
  omega

theorem spans_rangeOf {i : Nat} {text : List UInt8} (h : r.Holds m i text) :
    Spans m r (rangeOf i (i + text.length)) text := by
  have hi : (UInt64.ofNat i).toNat = i := toNat_ofNat_le (r := r) (by have := h.1; omega)
  simp only [Spans, rangeOf, hi, toNat_ofNat_le h.1]
  exact ⟨trivial, h⟩

/-- The view of a text that stands in the region reads it. -/
theorem read_of_holds {i : Nat} {text : List UInt8} (h : r.Holds m i text) :
    StringView.read m ⟨r.addr i, UInt64.ofNat text.length⟩ = text := by
  rw [read_view (by have := h.1; have := size_lt r; omega), h.2]

theorem position_locate {i : Nat} {t : Term} (h : r.Holds m i t.bytes) :
    (locate r i t).position = rangeOf i (i + t.bytes.length) := by
  cases t with
  | int z =>
    simp only [locate, integerAt, ElementRef.position, Term.bytes, List.length_append, List.length_cons, List.length_nil]
    congr 1
  | str s =>
    obtain ⟨-, hlen⟩ := isHeader_of_holds h
    simp only [locate, stringAt, ElementRef.position, hlen, Term.bytes, s.length_bytes, Nat.add_assoc]
  | list | dict => rfl

theorem holds_body {i : Nat} {s : Str} (h : r.Holds m i s.bytes) : r.Holds m (i + s.header) s.body := by
  rw [Str.bytes, List.append_cons, r.holds_append_iff, List.length_append, List.length_singleton] at h
  exact h.2

theorem holds_of_bytes {s : List UInt8} (h : r.bytes m = s) : r.Holds m 0 s ∧ s.length = r.size.toNat := by
  subst h
  exact ⟨r.holds_bytes m, r.length_bytes m⟩

/-! ### Content -/

mutual
theorem locate_carries {i : Nat} : ∀ t, r.Holds m i t.bytes → Carries m r (locate r i t) t
  | .int z, h => by
    have hspan := spans_rangeOf h
    rw [← position_locate h] at hspan
    rw [Term.bytes, r.holds_enclosed_iff] at h
    exact ⟨read_of_holds h.2.2.1, hspan⟩
  | .str s, h => by
    have hspan := spans_rangeOf h
    rw [← position_locate h] at hspan
    exact ⟨read_of_holds (holds_body h), hspan⟩
  | .list items, h => by
    have hspan := spans_rangeOf h
    rw [Term.bytes, r.holds_enclosed_iff] at h
    exact ⟨locateItems_carry items h.2.2.1, hspan⟩
  | .dict entries, h => by
    have hspan := spans_rangeOf h
    rw [Term.bytes, r.holds_enclosed_iff] at h
    exact ⟨locateEntries_carry entries h.2.2.1, hspan⟩

theorem locateItems_carry {i : Nat} : ∀ items, r.Holds m i (itemsBytes items) →
    ItemsCarry m r (locateItems r i items) items
  | [], _ => trivial
  | t :: items, h => by
    rw [itemsBytes, r.holds_append_iff] at h
    exact ⟨locate_carries t h.1, locateItems_carry items h.2⟩

theorem locateEntries_carry {i : Nat} : ∀ entries, r.Holds m i (entriesBytes entries) →
    EntriesCarry m r (locateEntries r i entries) entries
  | [], _ => trivial
  | (s, t) :: entries, h => by
    rw [entriesBytes, r.holds_append_iff, r.holds_append_iff, List.length_append, ← Nat.add_assoc] at h
    exact ⟨read_of_holds (holds_body h.1.1), locate_carries t h.1.2, locateEntries_carry entries h.2⟩
end

/-! ### Equality -/

theorem view_equals {v w : StringView} {text : List UInt8} (hv : v.read m = text) (hw : w.read m = text) :
    v.equals m (w.read m) = true := by
  have hlen : v.size.toNat = text.length := by rw [← hv, StringView.read, length_read]
  simp [StringView.equals, hw, hv, hlen]

section
variable {e : ElementRef}

theorem Carries.integer {z : Int} (h : Carries m r e (.int z)) : ∃ n p, e = .integer n p ∧ n.read m = intText z := by
  cases e with
  | integer n p => exact ⟨n, p, rfl, h.1⟩
  | _ => exact h.elim

theorem Carries.string {s : Str} (h : Carries m r e (.str s)) : ∃ v p, e = .string v p ∧ v.read m = s.body := by
  cases e with
  | string v p => exact ⟨v, p, rfl, h.1⟩
  | _ => exact h.elim

theorem Carries.list {ts : List Term} (h : Carries m r e (.list ts)) :
    ∃ es p, e = .list es p ∧ ItemsCarry m r es ts := by
  cases e with
  | list es p => exact ⟨es, p, rfl, h.1⟩
  | _ => exact h.elim

theorem Carries.dictionary {ts : List (Str × Term)} (h : Carries m r e (.dict ts)) :
    ∃ es p, e = .dictionary es p ∧ EntriesCarry m r es ts := by
  cases e with
  | dictionary es p => exact ⟨es, p, rfl, h.1⟩
  | _ => exact h.elim

theorem ItemsCarry.nil {es : ListRef} (h : ItemsCarry m r es []) : es = [] := by
  cases es with
  | nil => rfl
  | cons => exact h.elim

theorem ItemsCarry.cons {es : ListRef} {t : Term} {ts : List Term} (h : ItemsCarry m r es (t :: ts)) :
    ∃ e rest, es = e :: rest ∧ Carries m r e t ∧ ItemsCarry m r rest ts := by
  cases es with
  | nil => exact h.elim
  | cons e rest => exact ⟨e, rest, rfl, h⟩

theorem EntriesCarry.nil {es : DictionaryRef} (h : EntriesCarry m r es []) : es = [] := by
  cases es with
  | nil => rfl
  | cons => exact h.elim

theorem EntriesCarry.cons {es : DictionaryRef} {s : Str} {t : Term} {ts : List (Str × Term)}
    (h : EntriesCarry m r es ((s, t) :: ts)) :
    ∃ v e rest, es = (v, e) :: rest ∧ v.read m = s.body ∧ Carries m r e t ∧ EntriesCarry m r rest ts := by
  cases es with
  | nil => exact h.elim
  | cons entry rest => exact ⟨entry.1, entry.2, rest, rfl, h⟩

end

variable {r' : Region}

mutual
/-- Elements with the content of one term are equal, wherever they were parsed. -/
theorem Carries.equals {e e' : ElementRef} : ∀ t, Carries m r e t → Carries m r' e' t → e.equals m e' = true
  | .int z, h, h' => by
    obtain ⟨n, p, rfl, hn⟩ := h.integer
    obtain ⟨n', p', rfl, hn'⟩ := h'.integer
    exact view_equals hn hn'
  | .str s, h, h' => by
    obtain ⟨v, p, rfl, hv⟩ := h.string
    obtain ⟨v', p', rfl, hv'⟩ := h'.string
    exact view_equals hv hv'
  | .list ts, h, h' => by
    obtain ⟨es, p, rfl, hes⟩ := h.list
    obtain ⟨es', p', rfl, hes'⟩ := h'.list
    exact ItemsCarry.equals ts hes hes'
  | .dict ts, h, h' => by
    obtain ⟨es, p, rfl, hes⟩ := h.dictionary
    obtain ⟨es', p', rfl, hes'⟩ := h'.dictionary
    exact EntriesCarry.equals ts hes hes'

theorem ItemsCarry.equals {es es' : ListRef} : ∀ ts, ItemsCarry m r es ts → ItemsCarry m r' es' ts →
    listEquals m es es' = true
  | [], h, h' => by
    obtain rfl := h.nil
    obtain rfl := h'.nil
    rfl
  | t :: ts, h, h' => by
    obtain ⟨e, rest, rfl, he, hrest⟩ := h.cons
    obtain ⟨e', rest', rfl, he', hrest'⟩ := h'.cons
    simp only [listEquals, Carries.equals t he he', ItemsCarry.equals ts hrest hrest', Bool.and_self]

theorem EntriesCarry.equals {es es' : DictionaryRef} : ∀ ts, EntriesCarry m r es ts → EntriesCarry m r' es' ts →
    dictionaryEquals m es es' = true
  | [], h, h' => by
    obtain rfl := h.nil
    obtain rfl := h'.nil
    rfl
  | (s, t) :: ts, h, h' => by
    obtain ⟨v, e, rest, rfl, hv, he, hrest⟩ := h.cons
    obtain ⟨v', e', rest', rfl, hv', he', hrest'⟩ := h'.cons
    simp only [dictionaryEquals, view_equals hv hv', Carries.equals t he he', EntriesCarry.equals ts hrest hrest',
      Bool.and_self]
end

/-! ### Order -/

theorem siblings_cons {i j : Nat} {start end_ : UInt64} {rest : List ElementPosition} (hij : i < j)
    (hj : j ≤ r.size.toNat) (hstart : start ≤ UInt64.ofNat i) (h : Siblings (UInt64.ofNat j) end_ rest) :
    Siblings start end_ (rangeOf i j :: rest) := by
  refine ⟨hstart, ?_, h⟩
  simp only [rangeOf, UInt64.lt_iff_toNat_lt]
  rw [toNat_ofNat_le (r := r) (by omega), toNat_ofNat_le hj]
  exact hij

theorem locateItems_siblings {i k : Nat} (start : UInt64) (items : List Term) (h : r.Holds m i (itemsBytes items))
    (hstart : start.toNat ≤ i) (hk : i + (itemsBytes items).length ≤ k) (hk' : k ≤ r.size.toNat) :
    Siblings start (UInt64.ofNat k) ((locateItems r i items).map ElementRef.position) := by
  induction items generalizing i start with
  | nil =>
    simp only [locateItems, List.map_nil, Siblings, UInt64.le_iff_toNat_le, toNat_ofNat_le hk']
    omega
  | cons t items ih =>
    rw [itemsBytes, List.length_append] at hk
    rw [itemsBytes, r.holds_append_iff] at h
    have hpos := t.length_bytes_pos
    have hj := h.1.1
    simp only [locateItems, List.map_cons, position_locate h.1]
    refine siblings_cons (by omega) hj ?_ (ih _ h.2 (toNat_ofNat_le hj).le (by omega))
    rwa [UInt64.le_iff_toNat_le, toNat_ofNat_le (r := r) (by omega)]

theorem locateEntries_siblings {i k : Nat} (start : UInt64) (entries : List (Str × Term))
    (h : r.Holds m i (entriesBytes entries)) (hstart : start.toNat ≤ i) (hk : i + (entriesBytes entries).length ≤ k)
    (hk' : k ≤ r.size.toNat) :
    Siblings start (UInt64.ofNat k) ((locateEntries r i entries).map fun entry => entry.2.position) := by
  induction entries generalizing i start with
  | nil =>
    simp only [locateEntries, List.map_nil, Siblings, UInt64.le_iff_toNat_le, toNat_ofNat_le hk']
    omega
  | cons entry entries ih =>
    obtain ⟨s, t⟩ := entry
    rw [entriesBytes, List.length_append, List.length_append] at hk
    rw [entriesBytes, r.holds_append_iff, r.holds_append_iff, List.length_append, ← Nat.add_assoc] at h
    have hpos := t.length_bytes_pos
    have hj := h.1.2.1
    simp only [locateEntries, List.map_cons, position_locate h.1.2]
    refine siblings_cons (by omega) hj ?_ (ih _ h.2 (toNat_ofNat_le hj).le (by omega))
    rw [UInt64.le_iff_toNat_le, toNat_ofNat_le (r := r) (by omega)]
    omega

mutual
theorem locate_nested {i : Nat} : ∀ t, r.Holds m i t.bytes → Nested (locate r i t)
  | .int _, _ => trivial
  | .str _, _ => trivial
  | .list items, h => by
    have hend := h.1
    have hlen : (Term.list items).bytes.length = (itemsBytes items).length + 2 := by simp [Term.bytes]
    rw [Term.bytes, r.holds_enclosed_iff] at h
    refine ⟨locateItems_siblings _ items h.2.2.1 ?_ (by omega) hend, locateItems_nested items h.2.2.1⟩
    simp only [rangeOf]
    rw [toNat_ofNat_le (r := r) (by omega)]
    omega
  | .dict entries, h => by
    have hend := h.1
    have hlen : (Term.dict entries).bytes.length = (entriesBytes entries).length + 2 := by simp [Term.bytes]
    rw [Term.bytes, r.holds_enclosed_iff] at h
    refine ⟨locateEntries_siblings _ entries h.2.2.1 ?_ (by omega) hend, locateEntries_nested entries h.2.2.1⟩
    simp only [rangeOf]
    rw [toNat_ofNat_le (r := r) (by omega)]
    omega

theorem locateItems_nested {i : Nat} : ∀ items, r.Holds m i (itemsBytes items) → ItemsNested (locateItems r i items)
  | [], _ => trivial
  | t :: items, h => by
    rw [itemsBytes, r.holds_append_iff] at h
    exact ⟨locate_nested t h.1, locateItems_nested items h.2⟩

theorem locateEntries_nested {i : Nat} : ∀ entries, r.Holds m i (entriesBytes entries) →
    EntriesNested (locateEntries r i entries)
  | [], _ => trivial
  | (s, t) :: entries, h => by
    rw [entriesBytes, r.holds_append_iff, r.holds_append_iff, List.length_append, ← Nat.add_assoc] at h
    exact ⟨locate_nested t h.1.2, locateEntries_nested entries h.2⟩
end

end

end BittorrentClient
