import BittorrentClient.Bencoding.TorrentFile

/-! The parser where `NDEBUG` is not defined: `RememberPosition` asserts that the cursor is not before the text. -/

namespace BittorrentClient
open FlatMemory

/-- The assertions of `RememberPosition`: about the position that it remembers, and about the cursor. -/
inductive ParserAssertion where
  | rememberedPosition | currentPosition
  deriving DecidableEq, Repr

/-- What may abort, or run out of fuel. -/
abbrev Asserting := ExceptT ParserAssertion Option

namespace Asserting

def assert (cond : Prop) [Decidable cond] (assertion : ParserAssertion) : Asserting Unit :=
  if cond then pure () else throw assertion

/-- The constructor of `RememberPosition`. -/
def rememberPosition (p : Parser) : Asserting UInt64 := do
  assert (p.current ≥ p.start) .rememberedPosition
  return p.current

/-- `RememberPosition::get`. -/
def getPosition (p : Parser) (start : UInt64) : Asserting ElementPosition := do
  assert (start ≥ p.start) .rememberedPosition
  assert (p.current ≥ p.start) .currentPosition
  return p.positionFrom start

/-- A function that remembers the position where it begins at `p`, and gets it where it succeeds. -/
def remembering {α : Type} (p : Parser) :
    Except ParseErrorInfo α × Parser → Asserting (Except ParseErrorInfo α × Parser)
  | (.error e, q) => do
    let _ ← rememberPosition p
    return (.error e, q)
  | (.ok a, q) => do
    let position ← rememberPosition p
    let _ ← getPosition q position
    return (.ok a, q)

variable (m : Memory)

def parseInteger (p : Parser) : Asserting (ParsedElementRef × Parser) := remembering p (p.parseInteger m)

def parseString (p : Parser) : Asserting (ParsedElementRef × Parser) := do
  -- `parse_string_length` remembers the same position, and gets it at the body.
  let _ ← remembering p (p.parseStringLength m)
  remembering p (p.parseString m)

mutual
def parseElement : Nat → ElementId → Parser → Asserting (ParsedElementRef × Parser)
  | 0, _, _ => .mk none
  | fuel + 1, parentId, p =>
    if p.end_ ≤ p.current then pure (p.makeError parentId .unexpectedEnd, p)
    else if m p.current = kIntegerStart then parseInteger m p
    else if m p.current = kListStart then parseList fuel p
    else if m p.current = kDictionaryStart then parseDictionary fuel p
    else parseString m p

def parseList : Nat → Parser → Asserting (ParsedElementRef × Parser)
  | 0, _ => .mk none
  | fuel + 1, p => do
    let position ← rememberPosition p
    match p.consume m kListStart with
    | none => return (p.makeError .string .missingListStart, p)
    | some q => listLoop fuel position [] q

/-- The loop of `parse_list` that was entered at `position`. -/
def listLoop : Nat → UInt64 → ListRef → Parser → Asserting (ParsedElementRef × Parser)
  | 0, _, _, _ => .mk none
  | fuel + 1, position, builder, p =>
    if p.hasData && m p.current != kElementEnd then do
      match ← parseElement fuel .list p with
      | (.error e, p) => return (.error e, p)
      | (.ok element, p) => listLoop fuel position (builder ++ [element]) p
    else match p.consume m kElementEnd with
      | none => pure (p.makeError .string .missingListEnd, p)
      | some p => do return (.ok (.list builder (← getPosition p position)), p)

def parseDictionary : Nat → Parser → Asserting (ParsedElementRef × Parser)
  | 0, _ => .mk none
  | fuel + 1, p => do
    let position ← rememberPosition p
    match p.consume m kDictionaryStart with
    | none => return (p.makeError .dictionary .missingDictionaryStart, p)
    | some q => dictionaryLoop fuel position [] q

/-- The loop of `parse_dictionary` that was entered at `position`. -/
def dictionaryLoop : Nat → UInt64 → DictionaryRef → Parser → Asserting (ParsedElementRef × Parser)
  | 0, _, _, _ => .mk none
  | fuel + 1, position, builder, p =>
    if p.hasData && m p.current != kElementEnd then do
      match ← parseElement fuel .dictionary p with
      | (.error e, p) => return (.error e, p)
      | (.ok key, p) =>
        match key.asString with
        | none => return (p.makeError .dictionary .nonStringAsDictionaryKey, p)
        | some key =>
          match ← parseElement fuel .dictionary p with
          | (.error e, p) => return (.error e, p)
          | (.ok value, p) => dictionaryLoop fuel position (builder ++ [(key, value)]) p
    else match p.consume m kElementEnd with
      | none => pure (p.makeError .dictionary .missingDictionaryEnd, p)
      | some p => do return (.ok (.dictionary builder (← getPosition p position)), p)
end

variable (max : MaxSize)

def parseTorrentFileContent (fuel : Nat) (content : Region) : Asserting (Except FileError TorrentFileInfo) := do
  let (parsed, p) ← parseDictionary m fuel (.make content)
  match ← (liftM (Parsed.take ElementRef.asDictionary (parsed, p)) : Asserting _) with
  | (.error e, _) => return .error (.parse e)
  | (.ok data, _) => return parseTorrentData m max data

end Asserting

/-- `ParseTorrentFileContent` in builds with and without `NDEBUG`. -/
def parseTorrentFileContentIn (m : Memory) (max : MaxSize) (ndebug : Bool) (fuel : Nat) (content : Region) :
    Asserting (Except FileError TorrentFileInfo) :=
  if ndebug then liftM (parseTorrentFileContent m max fuel content) else Asserting.parseTorrentFileContent m max fuel content

end BittorrentClient
