import BittorrentClient.Lib.Bencode
import BittorrentClient.Theorems.Parser.Reads

/-! The grammar with strings that fit is bencoding: what is read at an offset is a term located there. -/

namespace BittorrentClient
open FlatMemory Decimal Bencode

/-- A string ends after its body, inside the region. -/
def Fits (r : Region) : StringRule := fun _ c length j => j = c + length.toNat ∧ j ≤ r.size.toNat

theorem fits_agrees (m : Memory) (r : Region) : Agrees m r (Fits r) where
  accepts {i c length j} hdr h := .inl (by have := hdr.lt; have := h.1; have := h.2; omega)
  cursor_eq _ h := by rw [h.1]
  lt hdr h := by have := hdr.lt; have := h.1; omega
  le_size _ h := h.2

section
variable (r : Region)

mutual
/-- The element of a term that stands at offset `i`. -/
def locate (i : Nat) : Term → ElementRef
  | .int z => integerAt r i z
  | .str s => stringAt r i (i + s.header) (UInt64.ofNat s.body.length)
  | .list items => .list (locateItems (i + 1) items) (rangeOf i (i + (Term.list items).bytes.length))
  | .dict entries => .dictionary (locateEntries (i + 1) entries) (rangeOf i (i + (Term.dict entries).bytes.length))

def locateItems (i : Nat) : List Term → ListRef
  | [] => []
  | t :: items => locate i t :: locateItems (i + t.bytes.length) items

def locateEntries (i : Nat) : List (Str × Term) → DictionaryRef
  | [] => []
  | (k, t) :: entries =>
    (⟨r.addr (i + k.header), UInt64.ofNat k.body.length⟩, locate (i + k.bytes.length) t) ::
      locateEntries (i + k.bytes.length + t.bytes.length) entries
end

variable {r}

theorem locateItems_append (i : Nat) (xs ys : List Term) :
    locateItems r i (xs ++ ys) = locateItems r i xs ++ locateItems r (i + (itemsBytes xs).length) ys :=
  walk_append (fun t => t.bytes.length) (fun xs => (itemsBytes xs).length) ⟨rfl, fun _ _ => List.length_append⟩
    ⟨fun _ => rfl, fun _ _ _ => rfl⟩ i xs ys

theorem locateEntries_append (i : Nat) (xs ys : List (Str × Term)) :
    locateEntries r i (xs ++ ys) = locateEntries r i xs ++ locateEntries r (i + (entriesBytes xs).length) ys := by
  refine walk_append (fun entry => (entry.1.bytes ++ entry.2.bytes).length) (fun xs => (entriesBytes xs).length)
    ⟨rfl, fun _ _ => List.length_append⟩ ⟨fun _ => rfl, ?_⟩ i xs ys
  intro i entry xs
  rw [List.length_append, ← Nat.add_assoc]
  rfl

end

section
variable {m : Memory} {r : Region}

/-! ### What is read is located -/

theorem exists_str {i c : Nat} {length : UInt64} (h : IsHeader m r i length c) (hc : c + length.toNat ≤ r.size.toNat) :
    ∃ s : Str, c = i + s.header ∧ length = UInt64.ofNat s.body.length ∧ length.toNat = s.body.length ∧
      r.Holds m i s.bytes := by
  obtain ⟨ds, hne, hds, hval, rfl, hc', hslice⟩ := h
  set c := i + ds.length + 1 with hcdef
  have hlen : (r.slice m c (c + length.toNat)).length = length.toNat := by rw [r.length_slice]; omega
  refine ⟨⟨ds, r.slice m c (c + length.toNat), hne, hds, by rw [hval, hlen]⟩, by simp only [Str.header]; omega,
    by rw [hlen, UInt64.ofNat_toNat], hlen.symm, ?_⟩
  have hhead : r.Holds m i (ds ++ [58]) := hslice ▸ r.holds_slice m (by omega) hc'
  have hbody : r.Holds m c (r.slice m c (c + length.toNat)) := r.holds_slice m (by omega) hc
  rw [Str.bytes, List.append_cons, r.holds_append_iff, List.length_append, List.length_singleton, ← Nat.add_assoc]
  exact ⟨hhead, hbody⟩

theorem asString_locate {i : Nat} {t : Term} {v : StringRef} (h : (locate r i t).asString = some v) :
    ∃ s, t = .str s ∧ v = ⟨r.addr (i + s.header), UInt64.ofNat s.body.length⟩ := by
  cases t with
  | str s =>
    simp only [locate, stringAt, ElementRef.asString, Option.some.injEq] at h
    exact ⟨s, rfl, h.symm⟩
  | int => simp [locate, integerAt, ElementRef.asString] at h
  | list => simp [locate, ElementRef.asString] at h
  | dict => simp [locate, ElementRef.asString] at h

mutual
theorem Reads.located {i : Nat} {e : ElementRef} {j : Nat} : Reads m r (Fits r) i e j →
    ∃ t, e = locate r i t ∧ j = i + t.bytes.length ∧ r.Holds m i t.bytes
  | .integer (z := z) h => by
    have hlen : j = i + (Term.int z).bytes.length := by
      have := congrArg List.length h.2.2
      have := h.1
      simp only [r.length_slice, Term.bytes] at *
      omega
    refine ⟨.int z, rfl, hlen, ?_⟩
    have := r.holds_slice m h.1 h.2.1
    rwa [h.2.2] at this
  | .string h hj => by
    obtain ⟨s, hc, hlen, hnat, hbytes⟩ := exists_str h (hj.1 ▸ hj.2)
    refine ⟨.str s, by rw [locate, ← hc, ← hlen], ?_, hbytes⟩
    rw [hj.1, Term.bytes, s.length_bytes]
    omega
  | .list hi hb hitems hk hend => by
    have hts := hitems.located hi
    obtain ⟨ts, rfl, rfl, hts⟩ := hts
    have hlen : i + 1 + (itemsBytes ts).length + 1 = i + (Term.list ts).bytes.length := length_enclosed i _ _ _
    refine ⟨.list ts, by rw [locate, hlen], hlen, ?_⟩
    exact (r.holds_enclosed_iff m).mpr ⟨hi, hb, hts, hk, hend⟩
  | .dictionary hi hb hentries hk hend => by
    have hts := hentries.located hi
    obtain ⟨ts, rfl, rfl, hts⟩ := hts
    have hlen : i + 1 + (entriesBytes ts).length + 1 = i + (Term.dict ts).bytes.length := length_enclosed i _ _ _
    refine ⟨.dict ts, by rw [locate, hlen], hlen, ?_⟩
    exact (r.holds_enclosed_iff m).mpr ⟨hi, hb, hts, hk, hend⟩

theorem ItemsRead.located {i : Nat} {items : ListRef} {k : Nat} : ItemsRead m r (Fits r) i items k →
    i ≤ r.size.toNat → ∃ ts, items = locateItems r i ts ∧ k = i + (itemsBytes ts).length ∧ r.Holds m i (itemsBytes ts)
  | .nil, hi => ⟨[], rfl, rfl, (r.holds_nil_iff m).mpr hi⟩
  | .snoc hitems he, hi => by
    have hts := hitems.located hi
    have ht := he.located
    obtain ⟨ts, rfl, rfl, hts⟩ := hts
    obtain ⟨t, rfl, rfl, ht⟩ := ht
    refine ⟨ts ++ [t], ?_, ?_, ?_⟩
    · simp only [locateItems_append, locateItems]
    · simp only [itemsBytes_append, itemsBytes, List.append_nil, List.length_append, Nat.add_assoc]
    · simp only [itemsBytes_append, itemsBytes, List.append_nil]
      exact (r.holds_append_iff m).mpr ⟨hts, ht⟩

theorem EntriesRead.located {i : Nat} {entries : DictionaryRef} {k : Nat} : EntriesRead m r (Fits r) i entries k →
    i ≤ r.size.toNat →
    ∃ ts, entries = locateEntries r i ts ∧ k = i + (entriesBytes ts).length ∧ r.Holds m i (entriesBytes ts)
  | .nil, hi => ⟨[], rfl, rfl, (r.holds_nil_iff m).mpr hi⟩
  | .snoc hentries hkey hs he, hi => by
    have hts := hentries.located hi
    have hk := hkey.located
    have ht := he.located
    obtain ⟨ts, rfl, rfl, hts⟩ := hts
    obtain ⟨tk, rfl, rfl, hk⟩ := hk
    obtain ⟨s, rfl, rfl⟩ := asString_locate hs
    obtain ⟨t, rfl, rfl, ht⟩ := ht
    refine ⟨ts ++ [(s, t)], ?_, ?_, ?_⟩
    · simp only [locateEntries_append, locateEntries, Term.bytes]
    · simp only [entriesBytes_append, entriesBytes, List.append_nil, List.length_append, Nat.add_assoc, Term.bytes]
    · simp only [entriesBytes_append, entriesBytes, List.append_nil]
      rw [r.holds_append_iff, r.holds_append_iff]
      exact ⟨hts, hk, ht⟩
end

/-! ### What is located is read -/

theorem isHeader_of_holds {i : Nat} {s : Str} (h : r.Holds m i s.bytes) :
    IsHeader m r i (UInt64.ofNat s.body.length) (i + s.header) ∧ (UInt64.ofNat s.body.length).toNat = s.body.length := by
  have hsize := size_lt r
  have hlen := s.length_bytes
  have hbound := h.1
  have hnat : (UInt64.ofNat s.body.length).toNat = s.body.length := by
    rw [UInt64.toNat_ofNat']
    omega
  refine ⟨⟨s.digits, s.digits_ne_nil, s.isDigit, by rw [s.value_digits, hnat], by simp only [Str.header]; omega, by omega,
    ?_⟩, hnat⟩
  rw [Str.bytes, List.append_cons, r.holds_append_iff] at h
  have hhead := h.1.2
  rw [List.length_append, List.length_singleton] at hhead
  exact hhead

mutual
theorem reads_locate {i : Nat} : ∀ t, r.Holds m i t.bytes → Reads m r (Fits r) i (locate r i t) (i + t.bytes.length)
  | .int z, h => .integer ⟨Nat.le_add_right i _, h.1, h.2⟩
  | .str s, h => by
    obtain ⟨hdr, hlen⟩ := isHeader_of_holds h
    exact .string hdr ⟨by rw [hlen, Term.bytes, s.length_bytes]; omega, h.1⟩
  | .list items, h => by
    have hlen : i + 1 + (itemsBytes items).length + 1 = i + (Term.list items).bytes.length := length_enclosed i _ _ _
    obtain ⟨hi, hb, hitems, hk, hend⟩ := (r.holds_enclosed_iff m).mp h
    rw [locate, ← hlen]
    exact .list hi hb (itemsRead_locate .nil items hitems) hk hend
  | .dict entries, h => by
    have hlen : i + 1 + (entriesBytes entries).length + 1 = i + (Term.dict entries).bytes.length := length_enclosed i _ _ _
    obtain ⟨hi, hb, hentries, hk, hend⟩ := (r.holds_enclosed_iff m).mp h
    rw [locate, ← hlen]
    exact .dictionary hi hb (entriesRead_locate .nil entries hentries) hk hend

theorem itemsRead_locate {i k : Nat} {before : ListRef} (hbefore : ItemsRead m r (Fits r) i before k) :
    ∀ items, r.Holds m k (itemsBytes items) →
      ItemsRead m r (Fits r) i (before ++ locateItems r k items) (k + (itemsBytes items).length)
  | [], _ => by simpa only [locateItems, List.append_nil, itemsBytes, List.length_nil, Nat.add_zero] using hbefore
  | t :: items, h => by
    rw [itemsBytes, r.holds_append_iff] at h
    have := itemsRead_locate (hbefore.snoc (reads_locate t h.1)) items h.2
    rwa [List.append_assoc, List.singleton_append, Nat.add_assoc, ← List.length_append] at this

theorem entriesRead_locate {i k : Nat} {before : DictionaryRef} (hbefore : EntriesRead m r (Fits r) i before k) :
    ∀ entries, r.Holds m k (entriesBytes entries) →
      EntriesRead m r (Fits r) i (before ++ locateEntries r k entries) (k + (entriesBytes entries).length)
  | [], _ => by
    simpa only [locateEntries, List.append_nil, entriesBytes, List.length_nil, Nat.add_zero] using hbefore
  | (s, t) :: entries, h => by
    rw [entriesBytes, r.holds_append_iff, r.holds_append_iff, List.length_append, ← Nat.add_assoc] at h
    obtain ⟨⟨hs, ht⟩, hrest⟩ := h
    obtain ⟨hdr, hlen⟩ := isHeader_of_holds hs
    have hkey : Reads m r (Fits r) k (locate r k (.str s)) (k + s.bytes.length) :=
      .string hdr ⟨by rw [hlen, s.length_bytes]; omega, hs.1⟩
    have := entriesRead_locate (hbefore.snoc hkey rfl (reads_locate t ht)) entries hrest
    simp only [List.append_assoc, List.singleton_append] at this
    rw [entriesBytes, List.length_append, List.length_append, ← Nat.add_assoc, ← Nat.add_assoc]
    exact this
end

end

end BittorrentClient
