import BittorrentClient.Bencoding.ElementRef
import BittorrentClient.Lib.Decimal

/-! The bencode parser (be_element_ref_parse.cpp, `ParseLength` of utils_string.h). Pointers are `UInt64`
    addresses, and pointer sums wrap modulo `2 ^ 64`. The functions that call each other take fuel; they
    give `none` when it runs out, and otherwise the result and the parser as the call leaves it. -/

namespace BittorrentClient
open FlatMemory Decimal

def kIntegerStart : UInt8 := 105
def kListStart : UInt8 := 108
def kDictionaryStart : UInt8 := 100
def kElementEnd : UInt8 := 101
def kStringStart : UInt8 := 58

/-! ### ParseLength -/

inductive Errc where
  | ok | invalidArgument | resultOutOfRange
  deriving DecidableEq

structure FromCharsResult where
  ptr : Nat
  ec : Errc
  value : UInt64

/-- `std::from_chars` for an unsigned 64-bit number in base 10: `ptr` counts the characters of the pattern. -/
def fromChars (str : List UInt8) : FromCharsResult :=
  let digits := str.takeWhile isDigit
  if digits.isEmpty then ⟨0, .invalidArgument, 0⟩
  else if value digits < 2 ^ 64 then ⟨digits.length, .ok, UInt64.ofNat (value digits)⟩
  else ⟨digits.length, .resultOutOfRange, 0⟩

def parseLength (str : List UInt8) : Option UInt64 :=
  let result := fromChars str
  if result.ptr ≠ str.length ∨ result.ec ≠ .ok then none else some result.value

/-! ### Parser -/

structure Parser where
  current : UInt64
  end_ : UInt64
  start : UInt64
  deriving DecidableEq, Repr

abbrev ParsedElementRef := Except ParseErrorInfo ElementRef

namespace Parser

def make (bencoded : Region) : Parser where
  current := bencoded.data
  end_ := bencoded.data + bencoded.size
  start := bencoded.data

def hasData (p : Parser) : Bool := p.current < p.end_

def advance (p : Parser) (count : UInt64) : Parser := { p with current := p.current + count }

def makeError {α : Type} (p : Parser) (element : ElementId) (e : ParseErrorc) : Except ParseErrorInfo α :=
  .error { ec := e, position := p.current - p.start, element := element }

/-- `RememberPosition::get` for a position remembered at `start`. -/
def positionFrom (p : Parser) (start : UInt64) : ElementPosition where
  start := start - p.start
  end_ := p.current - p.start

variable (m : Memory)

def consume (p : Parser) (ch : UInt8) : Option Parser :=
  if p.hasData && m p.current == ch then some (p.advance 1) else none

def consumeN (p : Parser) (count : UInt64) : Option Parser :=
  if p.start + count < p.end_ then some (p.advance count) else none

/-- The loop over digits of `parse_integer` and of `parse_string_length`: it stops at the end of the data
    or at `stop`, and fails at any other byte. It takes at most `end_ - current` steps. -/
def skipDigits (stop : UInt8) : Nat → Parser → Bool × Parser
  | 0, p => (true, p)
  | n + 1, p =>
    if p.hasData && m p.current != stop then
      if isDigit (m p.current) then skipDigits stop n (p.advance 1) else (false, p)
    else (true, p)

def bytesLeft (p : Parser) : Nat := (p.end_ - p.current).toNat

def parseInteger (p : Parser) : ParsedElementRef × Parser :=
  let position := p.current
  match p.consume m kIntegerStart with
  | none => (p.makeError .integer .missingIntegerStart, p)
  | some p =>
    let begin := p.current
    let hasSign := p.hasData && m begin == 45
    let p := if hasSign then p.advance 1 else p
    match p.skipDigits m kElementEnd p.bytesLeft with
    | (false, p) => (p.makeError .integer .badInteger, p)
    | (true, p) =>
      let last := p.current
      match p.consume m kElementEnd with
      | none => (p.makeError .integer .badInteger, p)
      | some p =>
        -- "ie", "i-e", "i-0e" and "i03e".
        if begin = last then (p.makeError .integer .badInteger, p)
        else if hasSign && last = begin + 1 then (p.makeError .integer .badInteger, p)
        else if hasSign && m (begin + 1) = 48 then (p.makeError .integer .badInteger, p)
        else if m begin = 48 && begin + 1 < last then (p.makeError .integer .badInteger, p)
        else (.ok (.integer ⟨begin, last - begin⟩ (p.positionFrom position)), p)

/-- The digits before the colon, which is consumed. -/
def parseStringLength (p : Parser) : Except ParseErrorInfo IntegerRef × Parser :=
  let begin := p.current
  match p.skipDigits m kStringStart p.bytesLeft with
  | (false, p) => (p.makeError .string .unexpectedStringLength, p)
  | (true, p) =>
    -- Missing number's digits: ":str" or empty string "".
    if begin = p.current then (p.makeError .string .unexpectedStringLength, p)
    else match p.consume m kStringStart with
      | none => (p.makeError .string .missingStringStart, p)
      | some p => (.ok ⟨begin, p.current - begin - 1⟩, p)

def parseString (p : Parser) : ParsedElementRef × Parser :=
  let position := p.current
  match p.parseStringLength m with
  | (.error e, p) => (.error e, p)
  | (.ok lengthElement, p) =>
    match parseLength (lengthElement.read m) with
    | none => (p.makeError .string .badStringLength, p)
    | some length =>
      let begin := p.current
      match p.consumeN length with
      | none => (p.makeError .string .stringOutOfBound, p)
      | some p => (.ok (.string ⟨begin, length⟩ (p.positionFrom position)), p)

mutual
def parseElement : Nat → ElementId → Parser → Option (ParsedElementRef × Parser)
  | 0, _, _ => none
  | fuel + 1, parentId, p =>
    if p.end_ ≤ p.current then some (p.makeError parentId .unexpectedEnd, p)
    else if m p.current = kIntegerStart then some (p.parseInteger m)
    else if m p.current = kListStart then parseList fuel p
    else if m p.current = kDictionaryStart then parseDictionary fuel p
    else some (p.parseString m)

def parseList : Nat → Parser → Option (ParsedElementRef × Parser)
  | 0, _ => none
  | fuel + 1, p =>
    match p.consume m kListStart with
    | none => some (p.makeError .string .missingListStart, p)
    | some q => listLoop fuel p.current [] q

/-- The loop of `parse_list` that was entered at `position`. -/
def listLoop : Nat → UInt64 → ListRef → Parser → Option (ParsedElementRef × Parser)
  | 0, _, _, _ => none
  | fuel + 1, position, builder, p =>
    if p.hasData && m p.current != kElementEnd then
      match parseElement fuel .list p with
      | none => none
      | some (.error e, p) => some (.error e, p)
      | some (.ok element, p) => listLoop fuel position (builder ++ [element]) p
    else match p.consume m kElementEnd with
      | none => some (p.makeError .string .missingListEnd, p)
      | some p => some (.ok (.list builder (p.positionFrom position)), p)

def parseDictionary : Nat → Parser → Option (ParsedElementRef × Parser)
  | 0, _ => none
  | fuel + 1, p =>
    match p.consume m kDictionaryStart with
    | none => some (p.makeError .dictionary .missingDictionaryStart, p)
    | some q => dictionaryLoop fuel p.current [] q

/-- The loop of `parse_dictionary` that was entered at `position`. -/
def dictionaryLoop : Nat → UInt64 → DictionaryRef → Parser → Option (ParsedElementRef × Parser)
  | 0, _, _, _ => none
  | fuel + 1, position, builder, p =>
    if p.hasData && m p.current != kElementEnd then
      match parseElement fuel .dictionary p with
      | none => none
      | some (.error e, p) => some (.error e, p)
      | some (.ok key, p) =>
        match key.asString with
        | none => some (p.makeError .dictionary .nonStringAsDictionaryKey, p)
        | some key =>
          match parseElement fuel .dictionary p with
          | none => none
          | some (.error e, p) => some (.error e, p)
          | some (.ok value, p) => dictionaryLoop fuel position (builder ++ [(key, value)]) p
    else match p.consume m kElementEnd with
      | none => some (p.makeError .dictionary .missingDictionaryEnd, p)
      | some p => some (.ok (.dictionary builder (p.positionFrom position)), p)
end

/-- The `do … while` loop of `Parse`. -/
def parseLoop : Nat → ListRef → Parser → Option (Except ParseErrorInfo ListRef × Parser)
  | 0, _, _ => none
  | fuel + 1, elements, p =>
    match parseElement m fuel .none p with
    | none => none
    | some (.error e, p) => some (.error e, p)
    | some (.ok element, p) =>
      if p.hasData then parseLoop fuel (elements ++ [element]) p
      else some (.ok (elements ++ [element]), p)

end Parser

/-! ### Entry points

Each gives its result together with the parser it ends with. -/

/-- The result of an entry point that asks the parsed element for one alternative. The source asserts
    that the alternative is there, which each parse function makes sure of. -/
def Parsed.take {α : Type} (as : ElementRef → Option α) :
    ParsedElementRef × Parser → Option (Except ParseErrorInfo α × Parser)
  | (.error e, p) => some (.error e, p)
  | (.ok element, p) => (as element).map fun a => (.ok a, p)

def parse (m : Memory) (fuel : Nat) (bencoded : Region) : Option (Except ParseErrorInfo ListRef × Parser) :=
  (Parser.make bencoded).parseLoop m fuel []

def parseString (m : Memory) (bencoded : Region) : Option (Except ParseErrorInfo StringRef × Parser) :=
  Parsed.take ElementRef.asString ((Parser.make bencoded).parseString m)

def parseInteger (m : Memory) (bencoded : Region) : Option (Except ParseErrorInfo IntegerRef × Parser) :=
  Parsed.take ElementRef.asInteger ((Parser.make bencoded).parseInteger m)

def parseList (m : Memory) (fuel : Nat) (bencoded : Region) : Option (Except ParseErrorInfo ListRef × Parser) :=
  ((Parser.make bencoded).parseList m fuel).bind (Parsed.take ElementRef.asList)

def parseDictionary (m : Memory) (fuel : Nat) (bencoded : Region) :
    Option (Except ParseErrorInfo DictionaryRef × Parser) :=
  ((Parser.make bencoded).parseDictionary m fuel).bind (Parsed.take ElementRef.asDictionary)

end BittorrentClient
