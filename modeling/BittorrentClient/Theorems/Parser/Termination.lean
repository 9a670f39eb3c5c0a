import BittorrentClient.Theorems.Parser.Runs

/-! Termination. A length near `2 ^ 64` moves the cursor backwards: the sum `start_ + count` of the bound
    test wraps, so the length passes, and so does the sum that moves the cursor. Parsing makes progress
    exactly when no string that is read does that. -/

namespace BittorrentClient
open FlatMemory Fuel BittorrentClient.Parser

/-- The four entry points finish, and every `parse_element` that succeeds leaves the cursor strictly
    beyond where it started and not beyond the end. -/
structure Progresses (m : Memory) (r : Region) : Prop where
  parse : ∃ fuel x, parse m fuel r = some x
  parseList : ∃ fuel x, parseList m fuel r = some x
  parseDictionary : ∃ fuel x, parseDictionary m fuel r = some x
  parseString : ∃ x, parseString m r = some x
  forward : ∀ p id e q, Called m r p → Element m id p (.ok e, q) → p.current < q.current ∧ q.current ≤ r.data + r.size

/-- A string moves the cursor forward: to the end of its body, or back by less than its own header. -/
def Forward (r : Region) : StringRule := fun i c length j =>
  Accepts r length ∧ i < j ∧ j ≤ r.size.toNat ∧ (c + length.toNat = j ∨ c + length.toNat = j + 2 ^ 64)

/-- Every string that is read with a length that passes the bound test has its body inside the text, or a
    length so near to `2 ^ 64` that the cursor falls back by less than the header. -/
def LengthsMoveForward (m : Memory) (r : Region) : Prop :=
  ∀ i length c, Standing m r (Forward r) (TopLevel m r (Forward r)) i → IsHeader m r i length c → Accepts r length →
    c + length.toNat ≤ r.size.toNat ∨ 2 ^ 64 - length.toNat < c - i

section
variable {m : Memory} {r : Region}

theorem forward_agrees (m : Memory) (r : Region) : Agrees m r (Forward r) where
  accepts _ h := h.1
  cursor_eq {i c length j} _ h := by
    rcases h with ⟨-, -, -, h | h⟩
    · rw [h]
    · simp only [cursor, h, r.addr_add_wrap]
  lt _ h := h.2.1
  le_size _ h := h.2.2.1

theorem covers_forward (h : LengthsMoveForward m r) : Covers m r (Forward r) (TopLevel m r (Forward r)) := by
  intro i length c hstand hdr hacc
  have hlt := hdr.lt
  have hlen := length.toNat_lt
  rcases h i length c hstand hdr hacc with hfits | hback
  · exact ⟨_, hacc, by omega, hfits, .inl rfl⟩
  · exact ⟨c + length.toNat - 2 ^ 64, hacc, by omega, by omega, .inr (by omega)⟩

theorem parseString_total (m : Memory) (r : Region) : ∃ x, parseString m r = some x := by
  have hspec := parseString_spec (m := m) (r := r) (Nat.zero_le _)
  unfold parseString
  rw [make_eq_cursor]
  revert hspec
  rcases (cursor r 0).parseString m with ⟨err | e, p⟩
  · exact fun _ => ⟨(.error err, p), rfl⟩
  · rintro ⟨_, rfl, length, c, -, -, -, rfl⟩
    exact ⟨_, rfl⟩

/-- A cursor that moved as a string moves it is ahead and inside exactly for lengths that fit or that
    fall back inside the header. -/
theorem moves_forward_iff {i c : Nat} {length : UInt64} (hic : i < c) (hc : c ≤ r.size.toNat) :
    r.addr i < r.addr (c + length.toNat) ∧ r.addr (c + length.toNat) ≤ r.data + r.size ↔
      c + length.toNat ≤ r.size.toNat ∨ 2 ^ 64 - length.toNat < c - i := by
  have hfits := r.fits
  have hlen := length.toNat_lt
  rw [r.addr_size, UInt64.lt_iff_toNat_lt, UInt64.le_iff_toNat_le, r.toNat_addr (i := i) (by omega),
    r.toNat_addr (Nat.le_refl _), r.toNat_addr_mod]
  omega

/-- Parsing finishes with every element ahead of the last, exactly when the lengths move forward. -/
theorem progresses_iff (m : Memory) (r : Region) : Progresses m r ↔ LengthsMoveForward m r := by
  have hS := forward_agrees m r
  constructor
  · intro h i length c hstand hdr hacc
    obtain ⟨hic, hc⟩ := hdr.lt
    exact (moves_forward_iff (by omega) hc).mp
      (h.forward _ .none _ _ (hstand.called hS) (element_header .none hdr hacc))
  · intro h
    have hcov := covers_forward h
    obtain ⟨x, hparse, -⟩ := parse_run hS hcov
    obtain ⟨y, hlist, -⟩ := parseList_run hS hcov
    obtain ⟨z, hdict, -⟩ := parseDictionary_run _ topLevel_zero hS hcov
    obtain ⟨n₁, h₁⟩ := hparse.exists_eq
    obtain ⟨n₂, h₂⟩ := hlist.exists_eq
    obtain ⟨n₃, h₃⟩ := hdict.exists_eq
    refine ⟨⟨n₁, x, h₁⟩, ⟨n₂, y, h₂⟩, ⟨n₃, z, h₃⟩, parseString_total m r, ?_⟩
    intro p id e q hp he
    obtain ⟨i, rfl, hi, hstand⟩ := called_standing hS hcov hp
    obtain ⟨j, rfl, hread⟩ := element_ends hS hcov hi hstand he
    obtain ⟨hij, hj⟩ := hread.bounds hS
    exact ⟨(r.addr_lt_iff hi hj).mpr hij, by
      rw [r.addr_size, UInt64.le_iff_toNat_le, cursor, r.toNat_addr hj, r.toNat_addr (Nat.le_refl _)]
      omega⟩

/-! ### A length that loops -/

/-- `Parse` does not finish at an element that leaves the cursor where it started. -/
theorem parseLoop_diverges {i : Nat} (hi : i < r.size.toNat) {e : ElementRef}
    (he : Element m .none (cursor r i) (.ok e, cursor r i)) (fuel : Nat) (items : ListRef) :
    parseLoop m fuel items (cursor r i) = none := by
  induction fuel generalizing items with
  | zero => rfl
  | succ n ih =>
    rw [parseLoop_element]
    cases hx : parseElement m n .none (cursor r i) with
    | none => rfl
    | some x =>
      rw [he.eq_of_some (parseElement_stable .none _) hx]
      simp only [Option.bind_some, loopNext, hasData_cursor hi.le, decide_eq_true hi, if_true]
      exact ih _

/-- A text whose length is `2 ^ 64 - 21`; its header has 21 bytes. -/
def looping : List UInt8 := ascii "18446744073709551595:"

theorem parse_looping (fuel : Nat) : parse (place 4096 looping) fuel (.of 4096 looping (by decide)) = none := by
  have hdr : IsHeader (place 4096 looping) (.of 4096 looping (by decide)) 0 18446744073709551595 21 :=
    .of_holds (ascii "18446744073709551595") (Region.holds_of (by decide)) (by decide)
      (List.all_eq_true.mp (by decide)) (by decide)
  have he := element_header .none hdr (.inr (by decide))
  have hback : cursor (.of 4096 looping (by decide)) (21 + (18446744073709551595 : UInt64).toNat) =
      cursor (.of 4096 looping (by decide)) 0 := by decide
  rw [hback] at he
  unfold parse
  rw [make_eq_cursor]
  exact parseLoop_diverges (by decide) he fuel []

/-- Parsing does not finish on it. -/
theorem not_progresses_looping : ¬Progresses (place 4096 looping) (.of 4096 looping (by decide)) := by
  intro h
  obtain ⟨fuel, x, hx⟩ := h.parse
  rw [parse_looping] at hx
  cases hx

end

end BittorrentClient
