import Mathlib.Data.List.TakeWhile

/-! Queries of URLs: pairs that are joined by `'&'`, the key and the value of each by `'='`, where `'+'` stands for
    a space and `'%'` with two hexadecimal digits for a byte. -/

namespace UrlQuery

/-- The digit `'0'` to `'9'` or `'A'` to `'F'`. -/
def hexDigit (n : UInt8) : UInt8 := if n < 10 then 48 + n else 55 + n

def hexValue (digit : UInt8) : UInt8 := if digit < 58 then digit - 48 else digit - 55

def escape (b : UInt8) : List UInt8 := [37, hexDigit (b / 16), hexDigit (b % 16)]

def decode : List UInt8 → List UInt8
  | [] => []
  | 37 :: high :: low :: rest => (hexValue high * 16 + hexValue low) :: decode rest
  | b :: rest => (if b = 43 then 32 else b) :: decode rest

/-- The key and the value of a part, which has no value when it has no `'='`. -/
def readPair (part : List UInt8) : List UInt8 × List UInt8 :=
  (decode (part.takeWhile (· ≠ 61)), decode ((part.dropWhile (· ≠ 61)).drop 1))

def readPairs (query : List UInt8) : List (List UInt8 × List UInt8) := (query.splitOn 38).map readPair

/-- `e` writes each byte so that it is read back, with bytes that are allowed. -/
structure Encodes (allowed : UInt8 → Prop) (e : UInt8 → List UInt8) : Prop where
  decode_append : ∀ b rest, decode (e b ++ rest) = b :: decode rest
  allowed_of_mem : ∀ b, ∀ x ∈ e b, allowed x

/-- A byte is written as it is, as `'+'`, or escaped. -/
def Writes (e : UInt8 → List UInt8) (b : UInt8) : Prop :=
  (e b = [b] ∧ b ≠ 43 ∧ b ≠ 37) ∨ (e b = [43] ∧ b = 32) ∨ e b = escape b

instance (e : UInt8 → List UInt8) (b : UInt8) : Decidable (Writes e b) := inferInstanceAs (Decidable (_ ∨ _ ∨ _))

theorem hexValue_escape (b : UInt8) : hexValue (hexDigit (b / 16)) * 16 + hexValue (hexDigit (b % 16)) = b := by
  have h : ∀ n < 256, hexValue (hexDigit (UInt8.ofNat n / 16)) * 16 + hexValue (hexDigit (UInt8.ofNat n % 16)) =
      UInt8.ofNat n := by decide +kernel
  have hb := h b.toNat b.toNat_lt
  rwa [UInt8.ofNat_toNat] at hb

theorem Writes.decode_append {e : UInt8 → List UInt8} {b : UInt8} (h : Writes e b) (rest : List UInt8) :
    decode (e b ++ rest) = b :: decode rest := by
  have hplain : ∀ x, x ≠ 37 → decode (x :: rest) = (if x = 43 then 32 else x) :: decode rest := by
    intro x hx
    rw [decode]
    intro high low _ h
    exact absurd h hx
  rcases h with ⟨h, hplus, hpercent⟩ | ⟨h, rfl⟩ | h
  · rw [h, List.singleton_append, hplain b hpercent, if_neg hplus]
  · rw [h, List.singleton_append, hplain 43 (by decide), if_pos rfl]
  · rw [h, escape]
    exact congrArg₂ _ (hexValue_escape b) rfl

theorem Encodes.of_writes {allowed : UInt8 → Prop} [DecidablePred allowed] {e : UInt8 → List UInt8}
    (h : ∀ n < 256, Writes e (UInt8.ofNat n) ∧ (e (UInt8.ofNat n)).all (allowed ·)) : Encodes allowed e := by
  have hbyte : ∀ b, Writes e b ∧ ∀ x ∈ e b, allowed x := by
    intro b
    have hb := h b.toNat b.toNat_lt
    simpa only [UInt8.ofNat_toNat, List.all_eq_true, decide_eq_true_eq] using hb
  exact ⟨fun b => (hbyte b).1.decode_append, fun b => (hbyte b).2⟩

namespace Encodes
variable {allowed : UInt8 → Prop} {e : UInt8 → List UInt8} (he : Encodes allowed e)
include he

theorem decode_flatMap (s : List UInt8) : decode (s.flatMap e) = s := by
  induction s with
  | nil => rfl
  | cons b s ih => rw [List.flatMap_cons, he.decode_append, ih]

theorem allowed_of_mem_flatMap {s : List UInt8} {x : UInt8} (h : x ∈ s.flatMap e) : allowed x := by
  obtain ⟨b, -, hx⟩ := List.mem_flatMap.mp h
  exact he.allowed_of_mem b x hx

end Encodes

/-! ### Pairs -/

section
variable {keyAllowed valueAllowed : UInt8 → Prop} {key value : UInt8 → List UInt8}

/-- A pair as it is written: without `'='` when the value is empty. -/
def pairText (key value : UInt8 → List UInt8) (pair : List UInt8 × List UInt8) : List UInt8 :=
  pair.1.flatMap key ++ if pair.2 = [] then [] else 61 :: pair.2.flatMap value

theorem readPair_pairText (hkey : Encodes keyAllowed key) (hvalue : Encodes valueAllowed value)
    (hequals : ¬ keyAllowed 61) (pair : List UInt8 × List UInt8) : readPair (pairText key value pair) = pair := by
  obtain ⟨k, v⟩ := pair
  have hk : ∀ x ∈ k.flatMap key, decide (x ≠ 61) = true := by
    intro x hx
    refine decide_eq_true ?_
    rintro rfl
    exact hequals (hkey.allowed_of_mem_flatMap hx)
  rw [readPair, pairText]
  by_cases hv : v = []
  · rw [if_pos hv, List.append_nil, List.takeWhile_eq_self_iff.mpr hk, List.dropWhile_eq_nil_iff.mpr hk,
      hkey.decode_flatMap, hv]
    rfl
  · rw [if_neg hv, List.takeWhile_append_of_pos hk, List.dropWhile_append_of_pos hk]
    simp only [ne_eq, not_true_eq_false, decide_false, Bool.false_eq_true, not_false_eq_true,
      List.takeWhile_cons_of_neg, List.dropWhile_cons_of_neg, List.append_nil, List.drop_one, List.tail_cons,
      hkey.decode_flatMap, hvalue.decode_flatMap]

theorem readPairs_intercalate (hkey : Encodes keyAllowed key) (hvalue : Encodes valueAllowed value)
    (hequals : ¬ keyAllowed 61) (hkeyAnd : ¬ keyAllowed 38) (hvalueAnd : ¬ valueAllowed 38)
    {pairs : List (List UInt8 × List UInt8)} (hne : pairs ≠ []) :
    readPairs ([38].intercalate (pairs.map (pairText key value))) = pairs := by
  have hnone : ∀ part ∈ pairs.map (pairText key value), 38 ∉ part := by
    intro part hpart
    obtain ⟨⟨k, v⟩, -, rfl⟩ := List.mem_map.mp hpart
    rw [pairText, List.mem_append]
    rintro (h | h)
    · exact hkeyAnd (hkey.allowed_of_mem_flatMap h)
    · split at h
      · cases h
      · rcases List.mem_cons.mp h with h | h
        · exact absurd h (by decide)
        · exact hvalueAnd (hvalue.allowed_of_mem_flatMap h)
  rw [readPairs, List.splitOn_intercalate 38 hnone (by simpa using hne), List.map_map]
  have hid : pairs.map (readPair ∘ pairText key value) = pairs.map id := by
    refine List.map_congr_left ?_
    intro pair _
    exact readPair_pairText hkey hvalue hequals pair
  rw [hid, List.map_id]

end

end UrlQuery
