import BittorrentClient.Theorems.Parser.Carries
import BittorrentClient.Theorems.Parser.Runs

/-! Soundness and bounds. `consume_n` compares `start_ + count` with the end, not `current_ + count`, so
    a length may pass although fewer bytes are left. The parser is sound where no such length is read. -/

namespace BittorrentClient
open FlatMemory Fuel Decimal Bencode BittorrentClient.Parser

/-- The cursor is between the start and the end of the text. -/
def Within (r : Region) (p : Parser) : Prop := r.data ≤ p.current ∧ p.current ≤ r.data + r.size

/-- A result with its cursor inside the text: on success the views are inside too, on failure the
    position of the error. -/
def Bounded {α : Type} (r : Region) (views : α → List StringView) : Except ParseErrorInfo α × Parser → Prop
  | (.ok a, p) => Within r p ∧ ∀ v ∈ views a, v.Inside r
  | (.error e, p) => Within r p ∧ e.position ≤ r.size

structure Sound (m : Memory) (r : Region) : Prop where
  /-- The text is the concatenation of the bencodings of the elements. -/
  text : ∀ fuel es p, parse m fuel r = some (.ok es, p) → ∃ ts, r.bytes m = itemsBytes ts ∧ ItemsCarry m r es ts
  parse : ∀ fuel x, parse m fuel r = some x → Bounded r listViews x
  parseString : ∀ x, parseString m r = some x → Bounded r (fun s => [s]) x
  parseInteger : ∀ x, parseInteger m r = some x → Bounded r (fun n => [n]) x
  parseList : ∀ fuel x, parseList m fuel r = some x → Bounded r listViews x
  parseDictionary : ∀ fuel x, parseDictionary m fuel r = some x → Bounded r dictionaryViews x
  /-- The cursor is inside wherever an element is read, before and after. -/
  cursor : ∀ p id x q, Called m r p → Element m id p (x, q) → Within r p ∧ Within r q

/-- The views of inner elements are inside the text, also when the parsing fails later. -/
def InnerInside (m : Memory) (r : Region) : Prop :=
  ∀ p id e q, Called m r p → Element m id p (.ok e, q) → ∀ v ∈ e.views, v.Inside r

/-- No string that is read when the reading starts in `Root` declares more bytes than are left and still
    passes the bound test. -/
def LengthsFit (m : Memory) (r : Region) (Root : Nat → Prop) : Prop :=
  ∀ i length c, Standing m r (Fits r) Root i → IsHeader m r i length c → Accepts r length →
    c + length.toNat ≤ r.size.toNat

section
variable {m : Memory} {r : Region}

theorem covers_fits {Root : Nat → Prop} (h : LengthsFit m r Root) : Covers m r (Fits r) Root :=
  fun i length c hstand hdr hacc => ⟨_, rfl, h i length c hstand hdr hacc⟩

/-! ### Views -/

theorem view_inside {k n : Nat} (h : k + n ≤ r.size.toNat) : StringView.Inside ⟨r.addr k, UInt64.ofNat n⟩ r := by
  have := size_lt r
  simp only [StringView.Inside, r.toNat_addr (show k ≤ r.size.toNat by omega), toNat_ofNat_le (r := r) (i := n) (by omega)]
  omega

mutual
theorem locate_inside {i : Nat} : ∀ t, r.Holds m i t.bytes → ∀ v ∈ (locate r i t).views, v.Inside r
  | .int z, h => by
    have hend := h.1
    simp only [Term.bytes, List.length_append, List.length_cons, List.length_nil] at hend
    simp only [locate, integerAt, ElementRef.views, List.mem_singleton, forall_eq]
    exact view_inside (by omega)
  | .str s, h => by
    simp only [locate, stringAt, ElementRef.views, List.mem_singleton, forall_eq]
    exact view_inside (holds_body h).1
  | .list items, h => by
    rw [Term.bytes, r.holds_enclosed_iff] at h
    exact locateItems_inside items h.2.2.1
  | .dict entries, h => by
    rw [Term.bytes, r.holds_enclosed_iff] at h
    exact locateEntries_inside entries h.2.2.1

theorem locateItems_inside {i : Nat} : ∀ items, r.Holds m i (itemsBytes items) →
    ∀ v ∈ listViews (locateItems r i items), v.Inside r
  | [], _ => fun v hv => absurd hv List.not_mem_nil
  | t :: items, h => by
    rw [itemsBytes, r.holds_append_iff] at h
    intro v hv
    rcases List.mem_append.mp hv with hv | hv
    · exact locate_inside t h.1 v hv
    · exact locateItems_inside items h.2 v hv

theorem locateEntries_inside {i : Nat} : ∀ entries, r.Holds m i (entriesBytes entries) →
    ∀ v ∈ dictionaryViews (locateEntries r i entries), v.Inside r
  | [], _ => fun v hv => absurd hv List.not_mem_nil
  | (s, t) :: entries, h => by
    rw [entriesBytes, r.holds_append_iff, r.holds_append_iff, List.length_append, ← Nat.add_assoc] at h
    intro v hv
    rcases List.mem_append.mp hv with hv | hv
    · rcases List.mem_cons.mp hv with rfl | hv
      · exact view_inside (holds_body h.1.1).1
      · exact locate_inside t h.1.2 v hv
    · exact locateEntries_inside entries h.2 v hv
end

theorem Reads.inside {i : Nat} {e : ElementRef} {j : Nat} (h : Reads m r (Fits r) i e j) : ∀ v ∈ e.views, v.Inside r := by
  obtain ⟨t, rfl, -, ht⟩ := h.located
  exact locate_inside t ht

/-! ### Bounds -/

theorem within_cursor {i : Nat} (hi : i ≤ r.size.toNat) : Within r (BittorrentClient.cursor r i) := by
  simp only [Within, BittorrentClient.cursor, r.addr_size, UInt64.le_iff_toNat_le, r.toNat_addr hi,
    r.toNat_addr (Nat.le_refl _)]
  omega

theorem bounded_of_ends {α : Type} {views : α → List StringView} {Q : α → Nat → Prop} {i : Nat}
    {x : Except ParseErrorInfo α × Parser} (h : Ends r i Q x)
    (hQ : ∀ a j, Q a j → j ≤ r.size.toNat ∧ ∀ v ∈ views a, v.Inside r) : Bounded r views x := by
  rcases x with ⟨_ | a, p⟩
  · obtain ⟨j, rfl, -, hj, herr⟩ := h
    refine ⟨within_cursor hj, ?_⟩
    rw [herr, UInt64.le_iff_toNat_le, toNat_ofNat_le hj]
    exact hj
  · obtain ⟨j, rfl, ha⟩ := h
    exact ⟨within_cursor (hQ a j ha).1, (hQ a j ha).2⟩

/-! ### Results -/

theorem parse_stable : Stable fun fuel => parse m fuel r := parseLoop_stable _ _

theorem itemsRead_text {items : ListRef} (h : ItemsRead m r (Fits r) 0 items r.size.toNat) :
    ∃ ts, r.bytes m = itemsBytes ts ∧ items = locateItems r 0 ts ∧ r.Holds m 0 (itemsBytes ts) := by
  obtain ⟨ts, hitems, hlen, hts⟩ := h.located (Nat.zero_le _)
  refine ⟨ts, ?_, hitems, hts⟩
  rw [Region.bytes_eq_slice, hlen, hts.2]

theorem parseString_bounded (h : LengthsFit m r (TopLevel m r (Fits r))) {x : Except ParseErrorInfo StringRef × Parser}
    (hx : parseString m r = some x) : Bounded r (fun s => [s]) x := by
  have hspec := parseString_spec (m := m) (r := r) (Nat.zero_le _)
  unfold BittorrentClient.parseString at hx
  rw [make_eq_cursor] at hx
  revert hspec hx
  rcases (BittorrentClient.cursor r 0).parseString m with ⟨_ | e, p⟩
  · rintro hx hends
    cases hx
    exact bounded_of_ends (Q := fun _ _ => False) (hends.of_error (Nat.le_refl 0)) fun _ _ h => h.elim
  · rintro hx ⟨j, rfl, length, c, hdr, hacc, rfl, rfl⟩
    cases hx
    have hfits := h 0 length c standing_zero hdr hacc
    have := view_inside hfits
    rw [UInt64.ofNat_toNat] at this
    exact ⟨within_cursor hfits, by simpa using this⟩

theorem parseInteger_bounded {x : Except ParseErrorInfo IntegerRef × Parser} (hx : parseInteger m r = some x) :
    Bounded r (fun n => [n]) x := by
  have hspec := parseInteger_spec (m := m) (r := r) (Nat.zero_le _)
  unfold BittorrentClient.parseInteger at hx
  rw [make_eq_cursor] at hx
  revert hspec hx
  rcases (BittorrentClient.cursor r 0).parseInteger m with ⟨_ | e, p⟩
  · rintro hx hends
    cases hx
    exact bounded_of_ends (Q := fun _ _ => False) (hends.of_error (Nat.le_refl 0)) fun _ _ h => h.elim
  · rintro hx ⟨j, rfl, z, hz, rfl⟩
    cases hx
    exact ⟨within_cursor hz.2.1, (Reads.integer (S := Fits r) hz).inside⟩

theorem sound_of_lengthsFit (h : LengthsFit m r (TopLevel m r (Fits r))) : Sound m r ∧ InnerInside m r := by
  have hS := fits_agrees m r
  have hcov := covers_fits h
  obtain ⟨x, hparse, hx⟩ := parse_run hS hcov
  obtain ⟨y, hlist, hy⟩ := parseList_run hS hcov
  obtain ⟨z, hdict, hz⟩ := parseDictionary_run _ topLevel_zero hS hcov
  have helement : ∀ p id x q, Called m r p → Element m id p (x, q) →
      Within r p ∧ Bounded r ElementRef.views (x, q) := by
    intro p id x q hp he
    obtain ⟨i, rfl, hi, hstand⟩ := called_standing hS hcov hp
    exact ⟨within_cursor hi, bounded_of_ends (element_ends hS hcov hi hstand he)
      fun e j hread => ⟨(hread.bounds hS).2, hread.inside⟩⟩
  refine ⟨⟨?_, ?_, fun x hx => parseString_bounded h hx, fun x hx => parseInteger_bounded hx, ?_, ?_, ?_⟩, ?_⟩
  · intro fuel es p hes
    have heq := hparse.eq_of_some parse_stable hes
    subst heq
    obtain ⟨k, -, hitems, rfl⟩ := hx
    obtain ⟨ts, hbytes, rfl, hts⟩ := itemsRead_text hitems
    exact ⟨ts, hbytes, locateItems_carry ts hts⟩
  · intro fuel x' hx'
    rw [hparse.eq_of_some parse_stable hx']
    refine bounded_of_ends hx ?_
    rintro items k ⟨hitems, rfl⟩
    obtain ⟨ts, -, rfl, hts⟩ := itemsRead_text hitems
    exact ⟨Nat.le_refl _, locateItems_inside ts hts⟩
  · intro fuel y' hy'
    rw [hlist.eq_of_some (parseList_stable r) hy']
    exact bounded_of_ends hy fun items j hread => ⟨(hread.bounds hS).2, hread.inside⟩
  · intro fuel z' hz'
    rw [hdict.eq_of_some (parseDictionary_stable r) hz']
    exact bounded_of_ends hz fun entries j hread => ⟨(hread.bounds hS).2, hread.inside⟩
  · intro p id x q hp he
    obtain ⟨hp', hb⟩ := helement p id x q hp he
    cases x with
    | ok e => exact ⟨hp', hb.1⟩
    | error err => exact ⟨hp', hb.1⟩
  · intro p id e q hp he
    exact (helement p id _ q hp he).2.2

/-- The parser is sound, its inner elements included, exactly when the lengths that pass the test fit. -/
theorem sound_iff (m : Memory) (r : Region) :
    Sound m r ∧ InnerInside m r ↔ LengthsFit m r (TopLevel m r (Fits r)) := by
  refine ⟨?_, sound_of_lengthsFit⟩
  intro h i length c hstand hdr hacc
  have hcall := hstand.called (fits_agrees m r)
  have hview := h.2 _ .none _ _ hcall (element_header .none hdr hacc) ⟨r.addr c, length⟩ List.mem_cons_self
  have := hview.2
  simp only [r.toNat_addr hdr.lt.2] at this
  omega

/-! ### A length that does not fit -/

/-- A string of three bytes with two bytes left. -/
def overlong : List UInt8 := ascii "3:ab"

def overlongRegion : Region := .of 4096 overlong (by decide)

theorem not_sound_overlong : ¬Sound (place 4096 overlong) overlongRegion := by
  intro h
  have hdr : IsHeader (place 4096 overlong) overlongRegion 0 3 2 := by
    have htext : overlongRegion.Holds (place 4096 overlong) 0 (ascii "3:" ++ ascii "ab") := Region.holds_of (by decide)
    exact .of_holds (ascii "3") ((overlongRegion.holds_append_iff _).mp htext).1 (by decide)
      (List.all_eq_true.mp (by decide)) (by decide)
  have hparse : Converges (fun fuel => parseLoop (place 4096 overlong) fuel [] (BittorrentClient.cursor overlongRegion 0))
      (.ok [stringAt overlongRegion 0 2 3], BittorrentClient.cursor overlongRegion 5) :=
    loop_last (element_header .none hdr (.inl (by decide))) (by decide)
  obtain ⟨fuel, hfuel⟩ := hparse.exists_eq
  rw [← make_eq_cursor] at hfuel
  have hview := (h.parse fuel _ hfuel).2 ⟨4098, 3⟩ List.mem_cons_self
  exact absurd hview.2 (by decide)

end

end BittorrentClient
