import BittorrentClient.Lib.Decimal

/-! Bencoding. A `Value` is what a bencoded text means and `Value.encode` its canonical text. A `Term`
    is a text as it is written: the length of a string is any run of digits with the right value, so
    leading zeros are kept. A term cannot be ill-formed. -/

namespace Bencode
open Decimal

/-! ### Values -/

inductive Value where
  | int (z : Int)
  | str (s : List UInt8)
  | list (items : List Value)
  | dict (entries : List (List UInt8 × Value))

def encodeStr (s : List UInt8) : List UInt8 := natText s.length ++ 58 :: s

mutual
/-- The canonical encoding: `i…e`, `length:bytes`, `l…e`, `d…e`. -/
def Value.encode : Value → List UInt8
  | .int z => 105 :: intText z ++ [101]
  | .str s => encodeStr s
  | .list items => 108 :: encodeItems items ++ [101]
  | .dict entries => 100 :: encodeEntries entries ++ [101]

def encodeItems : List Value → List UInt8
  | [] => []
  | v :: items => v.encode ++ encodeItems items

def encodeEntries : List (List UInt8 × Value) → List UInt8
  | [] => []
  | (k, v) :: entries => encodeStr k ++ v.encode ++ encodeEntries entries
end

/-! ### Terms -/

/-- A string as written: a non-empty run of digits whose value is the length of the body. -/
structure Str where
  digits : List UInt8
  body : List UInt8
  digits_ne_nil : digits ≠ []
  isDigit : ∀ d ∈ digits, isDigit d = true
  value_digits : value digits = body.length

def Str.bytes (s : Str) : List UInt8 := s.digits ++ 58 :: s.body

/-- The bytes before the body. -/
def Str.header (s : Str) : Nat := s.digits.length + 1

def Str.canonical (body : List UInt8) : Str where
  digits := natText body.length
  body := body
  digits_ne_nil := natText_ne_nil _
  isDigit _ hd := isDigit_of_mem_natText hd
  value_digits := value_natText _

inductive Term where
  | int (z : Int)
  | str (s : Str)
  | list (items : List Term)
  | dict (entries : List (Str × Term))

mutual
def Term.bytes : Term → List UInt8
  | .int z => 105 :: intText z ++ [101]
  | .str s => s.bytes
  | .list items => 108 :: itemsBytes items ++ [101]
  | .dict entries => 100 :: entriesBytes entries ++ [101]

def itemsBytes : List Term → List UInt8
  | [] => []
  | t :: items => t.bytes ++ itemsBytes items

def entriesBytes : List (Str × Term) → List UInt8
  | [] => []
  | (k, t) :: entries => k.bytes ++ t.bytes ++ entriesBytes entries
end

mutual
/-- The term that writes a value canonically. -/
def Value.term : Value → Term
  | .int z => .int z
  | .str s => .str (.canonical s)
  | .list items => .list (itemsTerm items)
  | .dict entries => .dict (entriesTerm entries)

def itemsTerm : List Value → List Term
  | [] => []
  | v :: items => v.term :: itemsTerm items

def entriesTerm : List (List UInt8 × Value) → List (Str × Term)
  | [] => []
  | (k, v) :: entries => (.canonical k, v.term) :: entriesTerm entries
end

mutual
theorem Value.bytes_term : ∀ v : Value, v.term.bytes = v.encode
  | .int _ => rfl
  | .str _ => rfl
  | .list items => by simp only [Value.term, Term.bytes, Value.encode, bytes_itemsTerm items]
  | .dict entries => by simp only [Value.term, Term.bytes, Value.encode, bytes_entriesTerm entries]

theorem bytes_itemsTerm : ∀ items, itemsBytes (itemsTerm items) = encodeItems items
  | [] => rfl
  | v :: items => by simp only [itemsTerm, itemsBytes, encodeItems, v.bytes_term, bytes_itemsTerm items]

theorem bytes_entriesTerm : ∀ entries, entriesBytes (entriesTerm entries) = encodeEntries entries
  | [] => rfl
  | (k, v) :: entries => by
    simp only [entriesTerm, entriesBytes, encodeEntries, v.bytes_term, bytes_entriesTerm entries]
    rfl
end

theorem itemsBytes_eq_flatMap (items : List Term) : itemsBytes items = items.flatMap Term.bytes := by
  induction items with
  | nil => rfl
  | cons t items ih => simp only [itemsBytes, List.flatMap_cons, ih]

theorem encodeItems_eq_flatMap (items : List Value) : encodeItems items = items.flatMap Value.encode := by
  induction items with
  | nil => rfl
  | cons v items ih => simp only [encodeItems, List.flatMap_cons, ih]

theorem itemsBytes_append (xs ys : List Term) : itemsBytes (xs ++ ys) = itemsBytes xs ++ itemsBytes ys := by
  simp only [itemsBytes_eq_flatMap, List.flatMap_append]

theorem entriesBytes_append (xs ys : List (Str × Term)) :
    entriesBytes (xs ++ ys) = entriesBytes xs ++ entriesBytes ys := by
  induction xs with
  | nil => rfl
  | cons e xs ih =>
    obtain ⟨k, t⟩ := e
    simp only [List.cons_append, entriesBytes, ih, List.append_assoc]

/-- A list or a dictionary ends with its `e`. -/
theorem length_enclosed (i : Nat) (b e : UInt8) (s : List UInt8) : i + 1 + s.length + 1 = i + (b :: s ++ [e]).length := by
  rw [List.length_append, List.length_cons, List.length_singleton]
  omega

/-- The entries of a dictionary as items, each key before its value. -/
def flatItems (entries : List (Str × Term)) : List Term := entries.flatMap fun entry => [.str entry.1, entry.2]

theorem itemsBytes_flatItems (entries : List (Str × Term)) : itemsBytes (flatItems entries) = entriesBytes entries := by
  induction entries with
  | nil => rfl
  | cons entry entries ih =>
    obtain ⟨k, t⟩ := entry
    rw [entriesBytes, ← ih, List.append_assoc]
    rfl

theorem drop_flatItems (entries entries' : List (Str × Term)) :
    (flatItems entries').drop (flatItems entries).length = flatItems (entries'.drop entries.length) := by
  induction entries generalizing entries' with
  | nil => rfl
  | cons entry entries ih =>
    cases entries' with
    | nil => rfl
    | cons entry' entries' => exact ih entries'

/-- A function that goes over a list with an offset goes on behind its first part. -/
theorem walk_append {α β : Type} (size : α → Nat) (length : List α → Nat) {walk : Nat → List α → List β}
    (hlength : length [] = 0 ∧ ∀ x xs, length (x :: xs) = size x + length xs)
    (hwalk : (∀ i, walk i [] = []) ∧ ∀ i x xs, walk i (x :: xs) = walk i [x] ++ walk (i + size x) xs) (i : Nat)
    (xs ys : List α) : walk i (xs ++ ys) = walk i xs ++ walk (i + length xs) ys := by
  induction xs generalizing i with
  | nil => rw [List.nil_append, hwalk.1, List.nil_append, hlength.1, Nat.add_zero]
  | cons x xs ih =>
    rw [List.cons_append, hwalk.2, hwalk.2 i x xs, ih, hlength.2, List.append_assoc, Nat.add_assoc]

/-! ### First bytes -/

theorem Str.exists_bytes (s : Str) : ∃ d rest, s.bytes = d :: rest ∧ Decimal.isDigit d = true := by
  obtain ⟨d, ds, hds⟩ := List.exists_cons_of_ne_nil s.digits_ne_nil
  exact ⟨d, ds ++ 58 :: s.body, by simp [Str.bytes, hds], s.isDigit d (by simp [hds])⟩

/-- A term starts with `i`, `l`, `d` or a digit, never with `e`. -/
theorem Term.exists_bytes (t : Term) : ∃ b rest, t.bytes = b :: rest ∧ b ≠ 101 := by
  cases t with
  | int z => exact ⟨105, _, rfl, by decide⟩
  | str s =>
    obtain ⟨d, rest, h, hd⟩ := s.exists_bytes
    exact ⟨d, rest, h, by rintro rfl; exact absurd hd (by decide)⟩
  | list items => exact ⟨108, _, rfl, by decide⟩
  | dict entries => exact ⟨100, _, rfl, by decide⟩

theorem Str.length_bytes (s : Str) : s.bytes.length = s.header + s.body.length := by
  simp [Str.bytes, Str.header]
  omega

theorem Term.length_bytes_pos (t : Term) : 0 < t.bytes.length := by
  obtain ⟨_, _, h, -⟩ := t.exists_bytes
  simp [h]

end Bencode
