import Mathlib.Data.List.TakeWhile
import BittorrentClient.Bencoding.Parser

/-! What the parser does at a token. A parser of the region `r` is described by the offset of its cursor;
    offsets are exact, also where the cursor left the region and its address may have wrapped. -/

namespace BittorrentClient
open FlatMemory Decimal

/-- The parser of `r` with its cursor at offset `i`. -/
def cursor (r : Region) (i : Nat) : Parser where
  current := r.addr i
  end_ := r.data + r.size
  start := r.data

/-- The bound test of `consume_n`, in exact arithmetic: the length is less than the size of the whole
    text, or the sum `start_ + count` wraps. -/
def Accepts (r : Region) (length : UInt64) : Prop :=
  length.toNat < r.size.toNat ∨ 2 ^ 64 ≤ r.data.toNat + length.toNat

instance (r : Region) (length : UInt64) : Decidable (Accepts r length) := by
  unfold Accepts
  infer_instance

/-- The run of digits and the colon of a string that declares `length` stand at offset `i`; the body
    starts at offset `c`. -/
def IsHeader (m : Memory) (r : Region) (i : Nat) (length : UInt64) (c : Nat) : Prop :=
  ∃ ds, ds ≠ [] ∧ (∀ d ∈ ds, isDigit d = true) ∧ value ds = length.toNat ∧ c = i + ds.length + 1 ∧
    c ≤ r.size.toNat ∧ r.slice m i c = ds ++ [58]

def rangeOf (i j : Nat) : ElementPosition := ⟨UInt64.ofNat i, UInt64.ofNat j⟩

def stringAt (r : Region) (i c : Nat) (length : UInt64) : ElementRef :=
  .string ⟨r.addr c, length⟩ (rangeOf i (c + length.toNat))

/-- A call that started at offset `i` ends with an element in `Q`, or with an error reported at its
    cursor, which is inside the region and not before `i`. -/
def Ends {α : Type} (r : Region) (i : Nat) (Q : α → Nat → Prop) : Except ParseErrorInfo α × Parser → Prop
  | (.ok e, p) => ∃ j, p = cursor r j ∧ Q e j
  | (.error err, p) => ∃ j, p = cursor r j ∧ i ≤ j ∧ j ≤ r.size.toNat ∧ err.position = UInt64.ofNat j

section
variable {m : Memory} {r : Region} {i j k : Nat}

theorem Ends.mono {α : Type} {Q Q' : α → Nat → Prop} {x : Except ParseErrorInfo α × Parser} (h : Ends r i Q x) (hji : j ≤ i)
    (hq : ∀ e k, Q e k → Q' e k) : Ends r j Q' x := by
  rcases x with ⟨_ | e, p⟩
  · obtain ⟨k, hp, hik, hk, herr⟩ := h
    exact ⟨k, hp, Nat.le_trans hji hik, hk, herr⟩
  · obtain ⟨k, hp, hQ⟩ := h
    exact ⟨k, hp, hq e k hQ⟩

theorem Ends.of_error {α β : Type} {Q : α → Nat → Prop} {Q' : β → Nat → Prop} {err : ParseErrorInfo} {p : Parser}
    (h : Ends r i Q (.error err, p)) (hji : j ≤ i) : Ends r j Q' (.error err, p) := by
  obtain ⟨k, hp, hik, hk, herr⟩ := h
  exact ⟨k, hp, Nat.le_trans hji hik, hk, herr⟩

theorem make_eq_cursor (r : Region) : Parser.make r = cursor r 0 := by
  simp [Parser.make, cursor, Region.addr]

theorem makeError_ends {α : Type} {Q : α → Nat → Prop} {id : ElementId} {e : ParseErrorc} (hij : i ≤ j)
    (hj : j ≤ r.size.toNat) : Ends r i Q ((cursor r j).makeError id e, cursor r j) :=
  ⟨j, rfl, hij, hj, r.addr_sub_data j⟩

theorem hasData_cursor (hi : i ≤ r.size.toNat) : (cursor r i).hasData = decide (i < r.size.toNat) := by
  simp only [Parser.hasData, cursor, r.addr_size, r.addr_lt_iff hi (Nat.le_refl _)]

theorem byte_cursor : m (cursor r i).current = r.byte m i := by simp only [cursor, Region.byte]

theorem advance_cursor (count : UInt64) : (cursor r i).advance count = cursor r (i + count.toNat) := by
  simp only [Parser.advance, cursor, ← r.addr_add, UInt64.ofNat_toNat]

theorem positionFrom_cursor : (cursor r j).positionFrom (cursor r i).current = rangeOf i j := by
  simp only [Parser.positionFrom, cursor, r.addr_sub_data, rangeOf]

theorem bytesLeft_cursor (hi : i ≤ r.size.toNat) : (cursor r i).bytesLeft = r.size.toNat - i := by
  simp only [Parser.bytesLeft, cursor, r.addr_size, r.toNat_addr_sub hi (Nat.le_refl _)]

theorem consume_eq_some (hi : i < r.size.toNat) {ch : UInt8} (h : r.byte m i = ch) :
    (cursor r i).consume m ch = some (cursor r (i + 1)) := by
  simp [Parser.consume, hasData_cursor (Nat.le_of_lt hi), hi, byte_cursor, h, advance_cursor]

theorem consume_eq_some_iff (hi : i ≤ r.size.toNat) {ch : UInt8} {p : Parser} :
    (cursor r i).consume m ch = some p ↔ i < r.size.toNat ∧ r.byte m i = ch ∧ p = cursor r (i + 1) := by
  simp only [Parser.consume, hasData_cursor hi, byte_cursor, Bool.and_eq_true, decide_eq_true_eq, beq_iff_eq,
    advance_cursor]
  constructor
  · intro h
    split at h
    · next hc => exact ⟨hc.1, hc.2, (Option.some.inj h).symm⟩
    · cases h
  · rintro ⟨h1, h2, rfl⟩
    simp [h1, h2]

theorem consumeN_cursor (length : UInt64) :
    (cursor r i).consumeN length = if Accepts r length then some (cursor r (i + length.toNat)) else none := by
  have hfits := r.fits
  have hlen := length.toNat_lt
  have htest : r.data + length < r.data + r.size ↔ Accepts r length := by
    rw [UInt64.lt_iff_toNat_lt, UInt64.toNat_add, UInt64.toNat_add, Accepts]
    omega
  simp only [Parser.consumeN, advance_cursor]
  exact ite_congr (propext htest) (fun _ => rfl) (fun _ => rfl)

/-! ### Digits -/

/-- The digit loop stops after a run of digits: at the end of the data or at the stop byte when it
    succeeds, and at another byte when it fails. -/
theorem skipDigits_spec (stop : UInt8) (n : Nat) (hi : i ≤ r.size.toNat) (hn : r.size.toNat - i ≤ n) :
    ∃ ok k, (cursor r i).skipDigits m stop n = (ok, cursor r k) ∧ i ≤ k ∧ k ≤ r.size.toNat ∧
      (∀ d ∈ r.slice m i k, isDigit d = true) ∧ (ok = true → k < r.size.toNat → r.byte m k = stop) := by
  induction n generalizing i with
  | zero => exact ⟨true, i, rfl, Nat.le_refl i, hi, by simp [Region.slice_self], fun _ _ => by omega⟩
  | succ n ih =>
    unfold Parser.skipDigits
    simp only [hasData_cursor hi, byte_cursor, Bool.and_eq_true, decide_eq_true_eq, bne_iff_ne, ne_eq]
    by_cases hgo : i < r.size.toNat ∧ ¬r.byte m i = stop
    · by_cases hdigit : isDigit (r.byte m i) = true
      · obtain ⟨ok, k, heq, hik, hk, hds, hstop⟩ := ih (i := i + 1) (by omega) (by omega)
        refine ⟨ok, k, ?_, by omega, hk, ?_, hstop⟩
        · rw [if_pos hgo, if_pos hdigit, advance_cursor]
          exact heq
        · rw [r.slice_cons m (by omega)]
          exact List.forall_mem_cons.mpr ⟨hdigit, hds⟩
      · exact ⟨false, i, by rw [if_pos hgo, if_neg hdigit], Nat.le_refl i, hi, by simp [Region.slice_self],
          fun h _ => by cases h⟩
    · refine ⟨true, i, by rw [if_neg hgo], Nat.le_refl i, hi, by simp [Region.slice_self], ?_⟩
      intro _ hlt
      by_contra hne
      exact hgo ⟨hlt, hne⟩

/-- The digit loop passes a run of digits that ends at the stop byte. -/
theorem skipDigits_digits (stop : UInt8) (hstop : isDigit stop = false) (n : Nat) (hik : i ≤ k)
    (hk : k < r.size.toNat) (hn : k - i < n) (hds : ∀ d ∈ r.slice m i k, isDigit d = true) (hbyte : r.byte m k = stop) :
    (cursor r i).skipDigits m stop n = (true, cursor r k) := by
  induction n generalizing i with
  | zero => omega
  | succ n ih =>
    unfold Parser.skipDigits
    simp only [hasData_cursor (show i ≤ r.size.toNat by omega), byte_cursor]
    by_cases heq : i = k
    · subst heq
      simp [hbyte]
    · rw [r.slice_cons m (by omega), List.forall_mem_cons] at hds
      have hne : r.byte m i ≠ stop := fun h => by
        rw [h, hstop] at hds
        exact absurd hds.1 (by decide)
      simp only [show i < r.size.toNat by omega, decide_true, bne_iff_ne.mpr hne, Bool.and_self, ↓reduceIte, hds.1,
        advance_cursor]
      exact ih (by simp; omega) (by simp; omega) (by simpa using hds.2)

/-! ### Strings -/

theorem parseLength_digits {ds : List UInt8} (hne : ds ≠ []) (hds : ∀ d ∈ ds, isDigit d = true) :
    parseLength ds = if value ds < 2 ^ 64 then some (UInt64.ofNat (value ds)) else none := by
  have htake : ds.takeWhile isDigit = ds := List.takeWhile_eq_self_iff.mpr hds
  have hemp : ds.isEmpty = false := by simpa using hne
  unfold parseLength fromChars
  by_cases hlt : value ds < 2 ^ 64
  · simp only [htake, hemp, if_pos hlt, Bool.false_eq_true, ↓reduceIte, ne_eq, not_true_eq_false, or_self]
  · simp only [htake, hemp, if_neg hlt, Bool.false_eq_true, ↓reduceIte, ne_eq, reduceCtorEq, not_false_eq_true,
      or_true]

theorem read_view {n : Nat} (hn : n < 2 ^ 64) : StringView.read m ⟨r.addr i, UInt64.ofNat n⟩ = r.slice m i (i + n) := by
  simp only [StringView.read, Region.slice, UInt64.toNat_ofNat', Nat.mod_eq_of_lt hn, Nat.add_sub_cancel_left]

theorem size_lt (r : Region) : r.size.toNat < 2 ^ 64 := r.size.toNat_lt

theorem addr_succ_sub (hik : i ≤ k) (hk : k < r.size.toNat) :
    (cursor r (k + 1)).current - r.addr i - 1 = UInt64.ofNat (k - i) := by
  have hsub := r.toNat_addr_sub (Nat.le_succ_of_le hik) hk
  have := size_lt r
  rw [← UInt64.toNat_inj, UInt64.toNat_ofNat']
  simp only [cursor]
  rw [UInt64.toNat_sub_of_le _ _ (by rw [UInt64.le_iff_toNat_le, hsub]; simp; omega), hsub]
  simp
  omega

/-- The length of a string is read as a view of a non-empty run of digits before a colon. -/
theorem parseStringLength_spec (hi : i ≤ r.size.toNat) :
    (∃ err j, (cursor r i).parseStringLength m = (.error err, cursor r j) ∧ i ≤ j ∧ j ≤ r.size.toNat ∧
        err.position = UInt64.ofNat j) ∨
      ∃ k, i < k ∧ k < r.size.toNat ∧ (∀ d ∈ r.slice m i k, isDigit d = true) ∧ r.byte m k = 58 ∧
        (cursor r i).parseStringLength m = (.ok ⟨r.addr i, UInt64.ofNat (k - i)⟩, cursor r (k + 1)) := by
  obtain ⟨ok, k, heq, hik, hk, hds, hstop⟩ :=
    skipDigits_spec (m := m) kStringStart (cursor r i).bytesLeft hi (by rw [bytesLeft_cursor hi])
  unfold Parser.parseStringLength
  simp only [heq]
  cases ok with
  | false => exact .inl ⟨_, k, rfl, hik, hk, r.addr_sub_data k⟩
  | true =>
    by_cases hbegin : i = k
    · subst hbegin
      simp only [↓reduceIte]
      exact .inl ⟨_, i, rfl, Nat.le_refl i, hi, r.addr_sub_data i⟩
    · have hne : (cursor r i).current ≠ (cursor r k).current := fun h => hbegin ((r.addr_inj hi hk).mp h)
      simp only [if_neg hne]
      cases hc : (cursor r k).consume m kStringStart with
      | none => exact .inl ⟨_, k, rfl, hik, hk, r.addr_sub_data k⟩
      | some p =>
        obtain ⟨hlt, hcolon, rfl⟩ := (consume_eq_some_iff hk).mp hc
        refine .inr ⟨k, by omega, hlt, hds, hcolon, ?_⟩
        rw [← addr_succ_sub hik hlt]
        rfl

theorem parseStringLength_digits (hik : i < k) (hk : k < r.size.toNat) (hds : ∀ d ∈ r.slice m i k, isDigit d = true)
    (hcolon : r.byte m k = 58) :
    (cursor r i).parseStringLength m = (.ok ⟨r.addr i, UInt64.ofNat (k - i)⟩, cursor r (k + 1)) := by
  have hi : i ≤ r.size.toNat := by omega
  have hskip := skipDigits_digits kStringStart (by decide) (cursor r i).bytesLeft (Nat.le_of_lt hik) hk
    (by rw [bytesLeft_cursor hi]; omega) hds hcolon
  have hne : (cursor r i).current ≠ (cursor r k).current := fun h =>
    Nat.ne_of_lt hik ((r.addr_inj hi (Nat.le_of_lt hk)).mp h)
  have hcons : (cursor r k).consume m kStringStart = some (cursor r (k + 1)) := consume_eq_some hk hcolon
  unfold Parser.parseStringLength
  simp only [hskip, if_neg hne, hcons, ← addr_succ_sub (Nat.le_of_lt hik) hk]
  rfl

theorem IsHeader.of_digits {length : UInt64} (hik : i < k) (hk : k < r.size.toNat)
    (hds : ∀ d ∈ r.slice m i k, isDigit d = true) (hcolon : r.byte m k = 58)
    (hval : value (r.slice m i k) = length.toNat) : IsHeader m r i length (k + 1) := by
  refine ⟨r.slice m i k, ?_, hds, hval, by rw [r.length_slice]; omega, hk, by rw [r.slice_snoc m hik.le, hcolon]⟩
  intro h
  have := r.eq_nil_of_slice m hik.le h
  omega

theorem IsHeader.of_holds (ds : List UInt8) {length : UInt64} (h : r.Holds m i (ds ++ [58])) (hne : ds ≠ [])
    (hds : ∀ d ∈ ds, isDigit d = true) (hval : value ds = length.toNat) :
    IsHeader m r i length (i + ds.length + 1) := by
  refine ⟨ds, hne, hds, hval, rfl, ?_, ?_⟩
  · simpa only [List.length_append, List.length_singleton, Nat.add_assoc] using h.1
  · simpa only [List.length_append, List.length_singleton, Nat.add_assoc] using h.2

theorem IsHeader.digits {length : UInt64} {c : Nat} (h : IsHeader m r i length c) :
    ∃ k, c = k + 1 ∧ i < k ∧ k < r.size.toNat ∧ (∀ d ∈ r.slice m i k, isDigit d = true) ∧ r.byte m k = 58 ∧
      value (r.slice m i k) = length.toNat := by
  obtain ⟨ds, hne, hds, hval, rfl, hc, hslice⟩ := h
  have hpos : 0 < ds.length := List.length_pos_iff.mpr hne
  obtain ⟨-, hhead, hcolon⟩ := (r.slice_eq_append_iff m (by omega)).mp hslice
  obtain ⟨-, hbyte, -⟩ := (r.slice_eq_cons_iff m (by omega)).mp hcolon
  exact ⟨i + ds.length, rfl, by omega, by omega, by rwa [hhead], hbyte, by rw [hhead, hval]⟩

theorem IsHeader.lt {length : UInt64} {c : Nat} (h : IsHeader m r i length c) : i + 1 < c ∧ c ≤ r.size.toNat := by
  obtain ⟨k, rfl, hik, hk, -⟩ := h.digits
  omega

/-- A string is a header and the `length` bytes after it, whether they lie inside the region or not. -/
theorem parseString_header {length : UInt64} {c : Nat} (h : IsHeader m r i length c) :
    (cursor r i).parseString m =
      if Accepts r length then (.ok (stringAt r i c length), cursor r (c + length.toNat))
      else ((cursor r c).makeError .string .stringOutOfBound, cursor r c) := by
  obtain ⟨k, rfl, hik, hk, hds, hcolon, hval⟩ := h.digits
  have := size_lt r
  have hne : r.slice m i k ≠ [] := fun h => by
    have := r.eq_nil_of_slice m hik.le h
    omega
  unfold Parser.parseString
  simp only [parseStringLength_digits hik hk hds hcolon, read_view (m := m) (r := r) (show k - i < 2 ^ 64 by omega),
    show i + (k - i) = k by omega, parseLength_digits hne hds, hval, length.toNat_lt, ↓reduceIte, UInt64.ofNat_toNat,
    consumeN_cursor]
  by_cases hacc : Accepts r length
  · simp only [if_pos hacc, positionFrom_cursor]
    rfl
  · simp only [if_neg hacc]

theorem parseString_spec (hi : i ≤ r.size.toNat) :
    Ends r i (fun e j => ∃ length c, IsHeader m r i length c ∧ Accepts r length ∧ j = c + length.toNat ∧
      e = stringAt r i c length) ((cursor r i).parseString m) := by
  have := size_lt r
  rcases parseStringLength_spec (m := m) hi with ⟨err, j, heq, hij, hj, herr⟩ | ⟨k, hik, hk, hds, hcolon, heq⟩
  · simp only [Parser.parseString, heq]
    exact ⟨j, rfl, hij, hj, herr⟩
  · have hne : r.slice m i k ≠ [] := fun h => by
      have := r.eq_nil_of_slice m hik.le h
      omega
    by_cases hval : value (r.slice m i k) < 2 ^ 64
    · have hdr : IsHeader m r i (UInt64.ofNat (value (r.slice m i k))) (k + 1) :=
        .of_digits hik hk hds hcolon (by rw [UInt64.toNat_ofNat']; omega)
      rw [parseString_header hdr]
      split
      · next hacc => exact ⟨_, rfl, _, _, hdr, hacc, rfl, rfl⟩
      · exact makeError_ends (by omega) hk
    · simp only [Parser.parseString, heq, read_view (m := m) (r := r) (show k - i < 2 ^ 64 by omega),
        show i + (k - i) = k by omega, parseLength_digits hne hds, if_neg hval]
      exact makeError_ends (by omega) hk

/-! ### Integers -/

def integerAt (r : Region) (i : Nat) (z : Int) : ElementRef :=
  .integer ⟨r.addr (i + 1), UInt64.ofNat (intText z).length⟩ (rangeOf i (i + (intText z).length + 2))

/-- The integer `z` stands at the offsets `[i, j)`. -/
def IsInteger (m : Memory) (r : Region) (i : Nat) (z : Int) (j : Nat) : Prop :=
  i ≤ j ∧ j ≤ r.size.toNat ∧ r.slice m i j = 105 :: intText z ++ [101]

/-- The rejected texts between `i` and `e`: no digits, no digits or a zero after the sign, a leading zero. -/
def BadText (m : Memory) (r : Region) (i : Nat) (sign : Bool) (k : Nat) : Prop :=
  i + 1 = k ∨ (sign = true ∧ k = i + 2) ∨ (sign = true ∧ r.byte m (i + 2) = 48) ∨ r.byte m (i + 1) = 48 ∧ i + 2 < k

instance (m : Memory) (r : Region) (i : Nat) (sign : Bool) (k : Nat) : Decidable (BadText m r i sign k) := by
  unfold BadText
  infer_instance

/-- The minus sign that `parse_integer` looks for after `i`. -/
def hasSign (m : Memory) (r : Region) (i : Nat) : Bool := decide (i + 1 < r.size.toNat) && r.byte m (i + 1) == 45

theorem hasSign_iff : hasSign m r i = true ↔ i + 1 < r.size.toNat ∧ r.byte m (i + 1) = 45 := by
  simp [hasSign]

/-- What `parse_integer` does once the sign and the digits are passed. -/
theorem parseInteger_text {sign ok : Bool} (hi : i < r.size.toNat) (hstart : r.byte m i = 105) (hik : i < k)
    (hk : k ≤ r.size.toNat) (hsign : hasSign m r i = sign)
    (hskip : (cursor r (i + 1 + sign.toNat)).skipDigits m kElementEnd (cursor r (i + 1 + sign.toNat)).bytesLeft =
      (ok, cursor r k)) :
    (cursor r i).parseInteger m =
      if ok = true ∧ k < r.size.toNat ∧ r.byte m k = 101 then
        if BadText m r i sign k then ((cursor r (k + 1)).makeError .integer .badInteger, cursor r (k + 1))
        else (.ok (.integer ⟨r.addr (i + 1), UInt64.ofNat (k - (i + 1))⟩ (rangeOf i (k + 1))), cursor r (k + 1))
      else ((cursor r k).makeError .integer .badInteger, cursor r k) := by
  have hcons : (cursor r i).consume m kIntegerStart = some (cursor r (i + 1)) := consume_eq_some hi hstart
  have hbegin : (cursor r (i + 1)).current = r.addr (i + 1) := rfl
  have hbyte : m (r.addr (i + 1)) = r.byte m (i + 1) := by simp only [Region.byte]
  have hadv : (if sign = true then (cursor r (i + 1)).advance 1 else cursor r (i + 1)) =
      cursor r (i + 1 + sign.toNat) := by
    cases sign
    · rfl
    · exact advance_cursor 1
  unfold hasSign at hsign
  unfold Parser.parseInteger
  simp only [hcons, hbegin, hasData_cursor hi, hbyte, hsign, hadv, hskip]
  cases ok with
  | false => simp only [Bool.false_eq_true, false_and, ↓reduceIte]
  | true =>
    cases hend : (cursor r k).consume m kElementEnd with
    | none =>
      have hno : ¬(k < r.size.toNat ∧ r.byte m k = 101) := fun h => by
        have hsome : (cursor r k).consume m kElementEnd = some (cursor r (k + 1)) := consume_eq_some h.1 h.2
        rw [hend] at hsome
        cases hsome
      simp only [hend, true_and, if_neg hno]
    | some p =>
      obtain ⟨hlt, hbyte_k, rfl⟩ := (consume_eq_some_iff hk).mp hend
      have hbyte_k : r.byte m k = 101 := hbyte_k
      have hlast : (cursor r k).current = r.addr k := rfl
      have hbyte' : m (r.addr (i + 2)) = r.byte m (i + 2) := by simp only [Region.byte]
      have hsub : r.addr k - r.addr (i + 1) = UInt64.ofNat (k - (i + 1)) := by
        rw [← UInt64.toNat_inj, r.toNat_addr_sub (by omega) hk, UInt64.toNat_ofNat']
        have := size_lt r
        omega
      have hpos : (cursor r (k + 1)).positionFrom (cursor r i).current = rangeOf i (k + 1) := positionFrom_cursor
      simp only [hend, hlast, r.addr_succ, show i + 1 + 1 = i + 2 by omega, hbyte', r.addr_inj hi hk,
        r.addr_inj hk (show i + 2 ≤ r.size.toNat by omega), r.addr_lt_iff (show i + 2 ≤ r.size.toNat by omega) hk,
        hsub, hpos, Bool.and_eq_true, decide_eq_true_eq, hlt, hbyte_k, and_self, ↓reduceIte]
      simp only [← ite_or]
      exact if_congr Iff.rfl rfl rfl

/-- The text between `i` and `e` that passes the tests is the text of an integer. -/
theorem exists_intText_of_digits (hik : i + 1 + (hasSign m r i).toNat ≤ k)
    (hds : ∀ d ∈ r.slice m (i + 1 + (hasSign m r i).toNat) k, isDigit d = true)
    (hbad : ¬BadText m r i (hasSign m r i) k) : ∃ z, r.slice m (i + 1) k = intText z := by
  simp only [BadText, not_or, not_and] at hbad
  obtain ⟨hne, hsign1, hsign0, hzero⟩ := hbad
  cases hs : hasSign m r i with
  | false =>
    simp only [hs, Bool.toNat_false, Nat.add_zero] at hik hds
    have hlt : i + 1 < k := by omega
    rw [r.slice_cons m hlt] at hds ⊢
    obtain ⟨z, hz⟩ := exists_intText hds (List.cons_ne_nil _ _) <| by
      by_cases h0 : r.byte m (i + 1) = 48
      · have hend : k = i + 2 := by have := hzero h0; omega
        exact .inr (by rw [h0, hend, r.slice_self])
      · exact .inl h0
    exact ⟨z, hz.symm⟩
  | true =>
    simp only [hs, Bool.toNat_true, forall_const] at hik hds hsign1 hsign0
    have hlt : i + 2 < k := by omega
    have hminus := (hasSign_iff.mp hs).2
    rw [r.slice_cons m hlt] at hds
    obtain ⟨z, hz⟩ := exists_intText_neg hds (List.cons_ne_nil _ _) hsign0
    exact ⟨z, by rw [hz, r.slice_cons m (by omega), hminus, r.slice_cons m hlt]⟩

/-- An integer that is accepted is the canonical decimal text between `i` and `e`. -/
theorem parseInteger_spec (hi : i ≤ r.size.toNat) :
    Ends r i (fun e j => ∃ z, IsInteger m r i z j ∧ e = integerAt r i z) ((cursor r i).parseInteger m) := by
  cases hc : (cursor r i).consume m kIntegerStart with
  | none =>
    simp only [Parser.parseInteger, hc]
    exact makeError_ends (Nat.le_refl i) hi
  | some p =>
    obtain ⟨hlt, hstart, -⟩ := (consume_eq_some_iff hi).mp hc
    have hle : i + 1 + (hasSign m r i).toNat ≤ r.size.toNat := by
      cases hs : hasSign m r i with
      | false => exact hlt
      | true => exact (hasSign_iff.mp hs).1
    obtain ⟨ok, k, hskip, hik, hk, hds, -⟩ := skipDigits_spec (m := m) kElementEnd
      (cursor r (i + 1 + (hasSign m r i).toNat)).bytesLeft hle (by rw [bytesLeft_cursor hle])
    rw [parseInteger_text hlt hstart (by omega) hk rfl hskip]
    split
    · next hend =>
      obtain ⟨-, hklt, hbyte⟩ := hend
      split
      · exact makeError_ends (by omega) hklt
      · next hbad =>
        obtain ⟨z, hz⟩ := exists_intText_of_digits hik hds hbad
        have hlen : (intText z).length = k - (i + 1) := by rw [← hz, r.length_slice]
        have hslice : r.slice m i (k + 1) = 105 :: intText z ++ [101] := by
          rw [r.slice_snoc m (by omega), hbyte, r.slice_cons m (by omega), hz, hstart]
          rfl
        refine ⟨k + 1, rfl, z, ⟨by omega, hklt, hslice⟩, ?_⟩
        rw [integerAt, hlen, show i + (k - (i + 1)) + 2 = k + 1 by omega]
    · exact makeError_ends (by omega) hk

theorem parseInteger_integer {z : Int} (h : IsInteger m r i z j) :
    (cursor r i).parseInteger m = (.ok (integerAt r i z), cursor r j) := by
  obtain ⟨hij, hj, hslice⟩ := h
  obtain ⟨hlt, hstart, htail⟩ := (r.slice_eq_cons_iff m hij).mp hslice
  obtain ⟨hk, htext, hlast⟩ := (r.slice_eq_append_iff m hlt).mp htail
  obtain ⟨hkj, hend, hnil⟩ := (r.slice_eq_cons_iff m hk).mp hlast
  have hj' : j = i + 1 + (intText z).length + 1 := (r.eq_nil_of_slice m hkj hnil).symm
  subst hj'
  set k := i + 1 + (intText z).length with hkdef
  have hklt : k < r.size.toNat := hj
  have htests : i + 1 + (hasSign m r i).toNat < k ∧
      (∀ d ∈ r.slice m (i + 1 + (hasSign m r i).toNat) k, isDigit d = true) ∧ ¬BadText m r i (hasSign m r i) k := by
    rcases intText_cases z with ⟨d, ds, hz, hdig, hzero⟩ | ⟨d, ds, hz, hdig, hzero⟩
    · rw [hz, r.slice_eq_cons_iff m (by omega)] at htext
      obtain ⟨hlt', hd, hds⟩ := htext
      have hs : hasSign m r i = false := by
        by_contra hs
        have hminus := (hasSign_iff.mp (by simpa using hs)).2
        have hdd := hdig d List.mem_cons_self
        rw [← hd, hminus] at hdd
        cases hdd
      have hlen : k = i + 2 + ds.length := by rw [hkdef, hz, List.length_cons]; omega
      simp only [hs, Bool.toNat_false, Nat.add_zero, BadText, Bool.false_eq_true, false_and, false_or, not_or, not_and]
      refine ⟨hlt', by rw [r.slice_cons m hlt', hd, hds]; exact hdig, by omega, ?_⟩
      intro h0
      rw [hlen, hzero (hd ▸ h0)]
      simp
    · rw [hz, r.slice_eq_cons_iff m (by omega)] at htext
      obtain ⟨hlt', hminus, htext'⟩ := htext
      obtain ⟨hlt'', hd, hds⟩ := (r.slice_eq_cons_iff m hlt').mp htext'
      have hs : hasSign m r i = true := hasSign_iff.mpr ⟨by omega, hminus⟩
      simp only [hs, Bool.toNat_true, BadText, true_and, not_or, not_and]
      refine ⟨hlt'', by rw [r.slice_cons m hlt'', hd, hds]; exact hdig, by omega, by omega, hd ▸ hzero, ?_⟩
      intro h0
      rw [hminus] at h0
      cases h0
  obtain ⟨hik, hds, hbad⟩ := htests
  have hskip := skipDigits_digits kElementEnd (by decide)
    (cursor r (i + 1 + (hasSign m r i).toNat)).bytesLeft (Nat.le_of_lt hik) hklt
    (by rw [bytesLeft_cursor (by omega)]; omega) hds hend
  rw [parseInteger_text (by omega) hstart (by omega) hklt.le rfl hskip, if_pos ⟨rfl, hklt, hend⟩, if_neg hbad, integerAt,
    show (intText z).length = k - (i + 1) by omega, show i + (k - (i + 1)) + 2 = k + 1 by omega]

end

end BittorrentClient
