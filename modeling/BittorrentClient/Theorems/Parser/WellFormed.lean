import BittorrentClient.Theorems.Parser.Asserts
import BittorrentClient.Theorems.Parser.Soundness

/-! In a text that is well-formed every length that is read fits: wherever an element is read, one stands. -/

namespace BittorrentClient
open FlatMemory Fuel Bencode BittorrentClient.Parser

section
variable {m : Memory} {r : Region}

theorem Reads.unique {S : StringRule} (hS : Agrees m r S) {i j j' : Nat} {e e' : ElementRef} (h : Reads m r S i e j)
    (h' : Reads m r S i e' j') : e = e' ∧ j = j' := by
  have heq := (h.element hS .none).unique (h'.element hS .none)
  simp only [Prod.mk.injEq, Except.ok.injEq] at heq
  exact ⟨heq.1, (r.addr_inj (h.bounds hS).2 (h'.bounds hS).2).mp (congrArg Parser.current heq.2)⟩

theorem length_eq_of_holds {i : Nat} {t t' : Term} (h : r.Holds m i t.bytes) (h' : r.Holds m i t'.bytes) :
    t.bytes.length = t'.bytes.length := by
  have := ((reads_locate t h).unique (fits_agrees m r) (reads_locate t' h')).2
  omega

/-- Where items stand that an end does not follow, those that an end follows go on. -/
theorem exists_item (ts ts' : List Term) {i : Nat} (h : r.Holds m i (itemsBytes ts)) (h' : r.Holds m i (itemsBytes ts'))
    (hend : ¬AtOffset m r (i + (itemsBytes ts').length)) (hat : AtOffset m r (i + (itemsBytes ts).length)) :
    ∃ t rest, ts'.drop ts.length = t :: rest ∧ r.Holds m (i + (itemsBytes ts).length) (itemsBytes (t :: rest)) := by
  induction ts generalizing i ts' with
  | nil =>
    cases ts' with
    | nil => exact absurd hat hend
    | cons t' ts' => exact ⟨t', ts', rfl, h'⟩
  | cons t ts ih =>
    rw [itemsBytes, r.holds_append_iff] at h
    cases ts' with
    | nil => exact absurd (reads_locate t h.1).atOffset hend
    | cons t' ts' =>
      rw [itemsBytes, r.holds_append_iff] at h'
      rw [itemsBytes, List.length_append, ← Nat.add_assoc] at hend hat ⊢
      rw [← length_eq_of_holds h.1 h'.1] at h' hend
      exact ih ts' h.2 h'.2 hend hat

theorem exists_entry (ts ts' : List (Str × Term)) {i : Nat} (h : r.Holds m i (entriesBytes ts))
    (h' : r.Holds m i (entriesBytes ts')) (hend : ¬AtOffset m r (i + (entriesBytes ts').length))
    (hat : AtOffset m r (i + (entriesBytes ts).length)) :
    ∃ (s : Str) (t : Term), r.Holds m (i + (entriesBytes ts).length) (s.bytes ++ t.bytes) := by
  simp only [← itemsBytes_flatItems] at h h' hend hat ⊢
  obtain ⟨t, rest, hdrop, hholds⟩ := exists_item _ _ h h' hend hat
  rw [drop_flatItems] at hdrop
  rw [← hdrop, itemsBytes_flatItems (ts'.drop ts.length)] at hholds
  cases hrest : ts'.drop ts.length with
  | nil =>
    rw [hrest] at hdrop
    cases hdrop
  | cons entry rest =>
    obtain ⟨s, t⟩ := entry
    rw [hrest, entriesBytes, r.holds_append_iff] at hholds
    exact ⟨s, t, hholds.1⟩

/-- Inside a list or a dictionary, its `e` follows what it has. -/
theorem inner_of_holds {i : Nat} {b : UInt8} {s : List UInt8} (h : r.Holds m i (b :: s ++ [101])) :
    r.Holds m (i + 1) s ∧ ¬AtOffset m r (i + 1 + s.length) := by
  obtain ⟨-, -, hs, -, hend⟩ := (r.holds_enclosed_iff m).mp h
  exact ⟨hs, fun hat => hat.2 hend⟩

theorem list_of_holds {i : Nat} {t : Term} (h : r.Holds m i t.bytes) (hb : r.byte m i = 108) :
    ∃ ts, r.Holds m (i + 1) (itemsBytes ts) ∧ ¬AtOffset m r (i + 1 + (itemsBytes ts).length) := by
  obtain ⟨items, has, -⟩ := (reads_locate t h).asList hb
  cases t with
  | list ts => exact ⟨ts, inner_of_holds h⟩
  | _ => cases has

theorem dict_of_holds {i : Nat} {t : Term} (h : r.Holds m i t.bytes) (hb : r.byte m i = 100) :
    ∃ ts, r.Holds m (i + 1) (entriesBytes ts) ∧ ¬AtOffset m r (i + 1 + (entriesBytes ts).length) := by
  obtain ⟨entries, has, -⟩ := (reads_locate t h).asDictionary hb
  cases t with
  | dict ts => exact ⟨ts, inner_of_holds h⟩
  | _ => cases has

/-- Where terms stand at the roots, one stands wherever an element is read. -/
theorem Standing.exists_term {Root : Nat → Prop} (hroot : ∀ i, Root i → AtOffset m r i → ∃ t : Term, r.Holds m i t.bytes)
    {i : Nat} (h : Standing m r (Fits r) Root i) (hat : AtOffset m r i) : ∃ t : Term, r.Holds m i t.bytes := by
  induction h with
  | root hi => exact hroot _ hi hat
  | item _ hi hb hitems _ ih =>
    obtain ⟨t, ht⟩ := ih ⟨hi, by rw [hb]; decide⟩
    obtain ⟨ts', hts', hend⟩ := list_of_holds ht hb
    obtain ⟨ts, rfl, rfl, hts⟩ := hitems.located hi
    obtain ⟨t, rest, -, hitem⟩ := exists_item ts ts' hts hts' hend hat
    rw [itemsBytes, r.holds_append_iff] at hitem
    exact ⟨t, hitem.1⟩
  | key _ hi hb hentries _ ih =>
    obtain ⟨t, ht⟩ := ih ⟨hi, by rw [hb]; decide⟩
    obtain ⟨ts', hts', hend⟩ := dict_of_holds ht hb
    obtain ⟨ts, rfl, rfl, hts⟩ := hentries.located hi
    obtain ⟨s, t, hst⟩ := exists_entry ts ts' hts hts' hend hat
    exact ⟨.str s, ((r.holds_append_iff m).mp hst).1⟩
  | value _ hi hb hentries hat' he hs ih =>
    obtain ⟨t, ht⟩ := ih ⟨hi, by rw [hb]; decide⟩
    obtain ⟨ts', hts', hend⟩ := dict_of_holds ht hb
    obtain ⟨ts, rfl, rfl, hts⟩ := hentries.located hi
    obtain ⟨s, t, hst⟩ := exists_entry ts ts' hts hts' hend hat'
    rw [r.holds_append_iff] at hst
    obtain ⟨-, rfl⟩ := he.unique (fits_agrees m r) (reads_locate (.str s) hst.1)
    exact ⟨t, hst.2⟩

/-- The lengths fit that are read where terms stand at the roots. -/
theorem lengthsFit_of_roots {Root : Nat → Prop} (hroot : ∀ i, Root i → AtOffset m r i → ∃ t : Term, r.Holds m i t.bytes) :
    LengthsFit m r Root := by
  intro i length c hstand hdr hacc
  obtain ⟨hi, hd⟩ := hdr.first
  obtain ⟨t, ht⟩ := hstand.exists_term hroot ⟨hi, (isDigit_ne hd).2.2.2⟩
  have heq := (element_header .none hdr hacc).unique ((reads_locate t ht).element (fits_agrees m r) .none)
  simp only [Prod.mk.injEq, Except.ok.injEq] at heq
  have hview := locate_inside t ht ⟨r.addr c, length⟩ (by rw [← heq.1]; exact List.mem_cons_self)
  have := hview.2
  simp only [r.toNat_addr hdr.lt.2] at this
  omega

/-- The lengths fit that `ParseDictionary` reads in a term. -/
theorem lengthsFit_of_term {t : Term} (h : r.bytes m = t.bytes) : LengthsFit m r (· = 0) := by
  refine lengthsFit_of_roots ?_
  rintro i rfl -
  exact ⟨t, (holds_of_bytes h).1⟩

end

end BittorrentClient
