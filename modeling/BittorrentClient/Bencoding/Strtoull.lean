import BittorrentClient.Bencoding.Parser

/-! The branch of `ParseLength` (utils_string.h) for libraries without `std::from_chars`. -/

namespace BittorrentClient
open Decimal

/-- `isspace` in the "C" locale. -/
def isSpace (b : UInt8) : Bool := b == 32 || (9 ≤ b && b ≤ 13)

/-- The sign at the start of a text. -/
def signOf : List UInt8 → List UInt8
  | 43 :: _ => [43]
  | 45 :: _ => [45]
  | _ => []

/-- A number that `strtoull` has read: it is cut at `ULLONG_MAX`, and else negated in 64 bits behind a minus sign. -/
def strtoullValue (sign digits : List UInt8) : UInt64 :=
  if value digits < 2 ^ 64 then
    if sign = [45] then 0 - UInt64.ofNat (value digits) else UInt64.ofNat (value digits)
  else 0xFFFFFFFFFFFFFFFF

structure StrtoullResult where
  parseEnd : Nat
  value : UInt64
  deriving DecidableEq

/-- `std::strtoull` in base 10: white space, an optional sign, and digits; `parseEnd` is the start of the text when
    there are none. -/
def strtoull (text : List UInt8) : StrtoullResult :=
  let spaces := text.takeWhile isSpace
  let sign := signOf (text.dropWhile isSpace)
  let digits := ((text.dropWhile isSpace).drop sign.length).takeWhile isDigit
  if digits.isEmpty then ⟨0, 0⟩
  else ⟨spaces.length + sign.length + digits.length, strtoullValue sign digits⟩

/-- The bytes that `strncpy` writes: the text up to a zero byte, and then zeros. -/
def strncpy (src : List UInt8) (n : Nat) : List UInt8 :=
  let copied := (src.take n).takeWhile (· ≠ 0)
  copied ++ List.replicate (n - copied.length) 0

/-- `k_buf_size`. -/
def kBufSize : Nat := 241 * 8 / 100 + 1

/-- `ParseLength` without `std::from_chars`. -/
def parseLengthFallback (str : List UInt8) : Option UInt64 :=
  let size := str.length
  if size = 0 ∨ size ≥ kBufSize then none
  else
    let temp := strncpy str size ++ [0]
    let result := strtoull temp
    if size ≠ 0 ∧ result.parseEnd = size then some result.value else none

end BittorrentClient
