import BittorrentClient.Lib.FlatMemory

/-! The parsed elements of a bencoded text (be_element_ref.h, be_errors.h). An element holds views of the
    text it was parsed from and the range of offsets it was parsed at. -/

namespace BittorrentClient
open FlatMemory

/-- `std::string_view`: an address and a size, with no promise about what lies there. -/
structure StringView where
  data : UInt64
  size : UInt64
  deriving DecidableEq, Repr

abbrev IntegerRef := StringView
abbrev StringRef := StringView

structure ElementPosition where
  start : UInt64 := 0
  end_ : UInt64 := 0
  deriving DecidableEq, Repr

inductive ElementId where
  | none | integer | string | list | dictionary
  deriving DecidableEq, Repr

/-- `ElementRef` with its `StorageRef` variant: one constructor for each alternative. -/
inductive ElementRef where
  | integer (number : IntegerRef) (position : ElementPosition)
  | string (str : StringRef) (position : ElementPosition)
  | list (elements : List ElementRef) (position : ElementPosition)
  | dictionary (entries : List (StringRef × ElementRef)) (position : ElementPosition)
  deriving Repr

abbrev ListRef := List ElementRef
abbrev DictionaryRef := List (StringRef × ElementRef)

namespace ElementRef

def position : ElementRef → ElementPosition
  | integer _ p | string _ p | list _ p | dictionary _ p => p

def asString : ElementRef → Option StringRef
  | string s _ => some s
  | _ => none

def asInteger : ElementRef → Option IntegerRef
  | integer n _ => some n
  | _ => none

def asList : ElementRef → Option ListRef
  | list es _ => some es
  | _ => none

def asDictionary : ElementRef → Option DictionaryRef
  | dictionary es _ => some es
  | _ => none

end ElementRef

inductive ParseErrorc where
  -- BE format parsing errors.
  | unexpectedEnd | unexpectedStringLength | badInteger | badStringLength | stringOutOfBound
  | nonStringAsDictionaryKey | missingListStart | missingListEnd | missingDictionaryStart
  | missingDictionaryEnd | missingIntegerStart | missingStringStart
  | notString | notInteger | notDictionary | notList | invalidInteger
  -- .torrent file parsing errors.
  | invalidInvariant | emptyAnnounce | invalidInfoPiecesLength20 | ambiguousMultiOrSingleTorrent
  | emptyMultiFileName | missingMultiFileProperty | emptyMultiFile | missingInfoProperty
  -- Tracker response parsing errors.
  | implInvalidInvariant | invalidPeersBlobLength | missingRequiredProperty
  deriving DecidableEq, Repr

structure ParseErrorInfo where
  ec : ParseErrorc
  position : UInt64
  element : ElementId
  deriving DecidableEq, Repr

/-! ### Views and content -/

/-- The characters of a view. -/
def StringView.read (m : Memory) (v : StringView) : List UInt8 := FlatMemory.read m v.data v.size.toNat

/-- `operator==` of a view and a text: the sizes first, then the characters. -/
def StringView.equals (m : Memory) (v : StringView) (text : List UInt8) : Bool :=
  v.size.toNat == text.length && v.read m == text

/-- The view lies wholly inside the region. -/
def StringView.Inside (v : StringView) (r : Region) : Prop :=
  r.data.toNat ≤ v.data.toNat ∧ v.data.toNat + v.size.toNat ≤ r.data.toNat + r.size.toNat

mutual
/-- `operator==`: the contents are compared, not the positions. -/
def ElementRef.equals (m : Memory) : ElementRef → ElementRef → Bool
  | .integer n _, .integer n' _ => n.equals m (n'.read m)
  | .string s _, .string s' _ => s.equals m (s'.read m)
  | .list es _, .list es' _ => listEquals m es es'
  | .dictionary es _, .dictionary es' _ => dictionaryEquals m es es'
  | _, _ => false

def listEquals (m : Memory) : ListRef → ListRef → Bool
  | [], [] => true
  | e :: es, e' :: es' => e.equals m e' && listEquals m es es'
  | _, _ => false

def dictionaryEquals (m : Memory) : DictionaryRef → DictionaryRef → Bool
  | [], [] => true
  | (k, e) :: es, (k', e') :: es' => k.equals m (k'.read m) && e.equals m e' && dictionaryEquals m es es'
  | _, _ => false
end

mutual
/-- The views reachable from an element: its number, its string, its keys, and those of its children. -/
def ElementRef.views : ElementRef → List StringView
  | .integer n _ => [n]
  | .string s _ => [s]
  | .list es _ => listViews es
  | .dictionary es _ => dictionaryViews es

def listViews : ListRef → List StringView
  | [] => []
  | e :: es => e.views ++ listViews es

def dictionaryViews : DictionaryRef → List StringView
  | [] => []
  | (k, e) :: es => k :: e.views ++ dictionaryViews es
end

end BittorrentClient
