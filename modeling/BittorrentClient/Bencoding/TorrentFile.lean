import BittorrentClient.Bencoding.Parser

/-! The content of a .torrent file (be_torrent_file_parse.cpp, be_parse_utils.h, `AsStringView` of
    utils_read_file.h). Copies of views read the memory wherever they point; a copy that is larger than
    the container allows throws. -/

namespace BittorrentClient
open FlatMemory

structure Metainfo.File where
  length_bytes : UInt64 := 0
  path_utf8 : List UInt8 := []
  deriving DecidableEq, Repr

inductive LengthOrFiles where
  | monostate
  | length (bytes : UInt64)
  | files (files : List Metainfo.File)
  deriving DecidableEq, Repr

structure Metainfo.Info where
  suggested_name_utf8 : List UInt8 := []
  piece_length_bytes : UInt64 := 0
  pieces_SHA1 : List UInt8 := []
  length_or_files : LengthOrFiles := .monostate
  deriving DecidableEq, Repr

structure Multitracker where
  url_utf8 : List UInt8
  tier : Int32
  deriving DecidableEq, Repr

structure TorrentMetainfo where
  info : Metainfo.Info := {}
  tracker_url_utf8 : List UInt8 := []
  multi_trackers : List Multitracker := []
  deriving DecidableEq, Repr

structure TorrentFileInfo where
  metainfo : TorrentMetainfo
  info_position : ElementPosition
  deriving DecidableEq, Repr

/-- A failure: the error of the parser, an error code, or the exception `std::length_error`. -/
inductive FileError where
  | parse (error : ParseErrorInfo)
  | code (ec : ParseErrorc)
  | lengthError
  deriving DecidableEq, Repr

/-- `max_size()` of `std::string` and of `std::vector<std::uint8_t>`. -/
structure MaxSize where
  string : Nat
  vector : Nat

def kSHA1Length : Nat := 20

def elementRefAs {α : Type} (as : ElementRef → Option α) (ec : ParseErrorc) (e : ElementRef) : Except FileError α :=
  match as e with
  | some a => .ok a
  | none => .error (.code ec)

def elementRefAsString : ElementRef → Except FileError StringRef := elementRefAs ElementRef.asString .notString
def elementRefAsInteger : ElementRef → Except FileError IntegerRef := elementRefAs ElementRef.asInteger .notInteger
def elementRefAsList : ElementRef → Except FileError ListRef := elementRefAs ElementRef.asList .notList
def elementRefAsDictionary : ElementRef → Except FileError DictionaryRef :=
  elementRefAs ElementRef.asDictionary .notDictionary

section
variable (m : Memory)

def parseAsUint64 (n : StringView) : Except FileError UInt64 :=
  match parseLength (n.read m) with
  | some v => .ok v
  | none => .error (.code .invalidInteger)

structure KeyParser where
  key : List UInt8
  parse : TorrentMetainfo → ElementRef → Except FileError TorrentMetainfo
  parsed : Bool := false
  /-- The variable that `position_` points to, if it points to one. -/
  position : Option ElementPosition := none

/-- The first parser of the key that has not been used yet parses the value. -/
def invokeParserOptionalKey (metainfo : TorrentMetainfo) (key : StringRef) (value : ElementRef) :
    List KeyParser → Except FileError (TorrentMetainfo × List KeyParser)
  | [] => .ok (metainfo, [])
  | state :: parsers =>
    if state.parsed || !key.equals m state.key then
      (invokeParserOptionalKey metainfo key value parsers).map fun (metainfo, parsers) => (metainfo, state :: parsers)
    else
      (state.parse metainfo value).map fun metainfo =>
        (metainfo, { state with parsed := true, position := state.position.map fun _ => value.position } :: parsers)

/-- The loops over the entries of a dictionary. -/
def invokeParsers (metainfo : TorrentMetainfo) (parsers : List KeyParser) :
    DictionaryRef → Except FileError (TorrentMetainfo × List KeyParser)
  | [] => .ok (metainfo, parsers)
  | (name, element) :: data =>
    match invokeParserOptionalKey m metainfo name element parsers with
    | .error e => .error e
    | .ok (metainfo, parsers) => invokeParsers metainfo parsers data

variable (max : MaxSize)

/-- `std::string::assign`. -/
def assign (v : StringView) : Except FileError (List UInt8) :=
  if v.size.toNat ≤ max.string then .ok (v.read m) else .error .lengthError

def parseAnnounce (metainfo : TorrentMetainfo) (announce : ElementRef) : Except FileError TorrentMetainfo := do
  let str ← elementRefAsString announce
  if str.size ≠ 0 then
    return { metainfo with tracker_url_utf8 := ← assign m max str }
  throw (.code .emptyAnnounce)

/-- The inner loop of `ParseAnnounceList`, over the urls of tier `i`. -/
def announceTier (i : Nat) (metainfo : TorrentMetainfo) : ListRef → Except FileError TorrentMetainfo
  | [] => .ok metainfo
  | url :: tier =>
    match url.asString with
    | none => announceTier i metainfo tier
    | some urlStr =>
      if urlStr.size = 0 then announceTier i metainfo tier
      else do
        let tracker := { url_utf8 := ← assign m max urlStr, tier := Int32.ofNat i }
        announceTier i { metainfo with multi_trackers := metainfo.multi_trackers ++ [tracker] } tier

/-- The loop of `ParseAnnounceList` from tier `i` on. -/
def announceTiers (i : Nat) (metainfo : TorrentMetainfo) : ListRef → Except FileError TorrentMetainfo
  | [] => .ok metainfo
  | e :: list =>
    match e.asList with
    | none => announceTiers (i + 1) metainfo list
    | some tier => do
      let metainfo ← announceTier m max i metainfo tier
      announceTiers (i + 1) metainfo list

def parseAnnounceList (metainfo : TorrentMetainfo) (announceList : ElementRef) : Except FileError TorrentMetainfo := do
  let list ← elementRefAsList announceList
  announceTiers m max 0 metainfo list

def parseInfoName (metainfo : TorrentMetainfo) (name : ElementRef) : Except FileError TorrentMetainfo := do
  let str ← elementRefAsString name
  -- May be empty. It's just "suggested".
  if str.size ≠ 0 then
    return { metainfo with info.suggested_name_utf8 := ← assign m max str }
  return metainfo

def parseInfoPieceLength (metainfo : TorrentMetainfo) (pieceLength : ElementRef) :
    Except FileError TorrentMetainfo := do
  let n ← elementRefAsInteger pieceLength
  let lengthBytes ← parseAsUint64 m n
  return { metainfo with info.piece_length_bytes := lengthBytes }

def parseInfoPieces (metainfo : TorrentMetainfo) (pieces : ElementRef) : Except FileError TorrentMetainfo := do
  let hashes ← elementRefAsString pieces
  if hashes.size.toNat = 0 ∨ hashes.size.toNat % kSHA1Length ≠ 0 then
    throw (.code .invalidInfoPiecesLength20)
  if max.vector < hashes.size.toNat then
    throw .lengthError
  return { metainfo with info.pieces_SHA1 := hashes.read m }

def parseInfoLength (metainfo : TorrentMetainfo) (length : ElementRef) : Except FileError TorrentMetainfo := do
  -- Only 'length' or 'files' can exist, not both.
  if metainfo.info.length_or_files ≠ .monostate then
    throw (.code .ambiguousMultiOrSingleTorrent)
  let n ← elementRefAsInteger length
  let lengthBytes ← parseAsUint64 m n
  return { metainfo with info.length_or_files := .length lengthBytes }

/-- `std::string::append`. -/
def append (path part : List UInt8) : Except FileError (List UInt8) :=
  if path.length + part.length ≤ max.string then .ok (path ++ part) else .error .lengthError

/-- The appends of `JoinUTF8PartsToString`: a slash after each part but the last. -/
def joinParts (path : List UInt8) : List StringRef → Except FileError (List UInt8)
  | [] => .ok path
  | [part] => append max path (part.read m)
  | part :: parts => do
    let path ← append max path (part.read m)
    let path ← append max path [47]
    joinParts path parts

def joinUTF8PartsToString (parts : List StringRef) (totalLength : UInt64) : Except FileError (List UInt8) := do
  if parts = [] then
    return []
  let size := totalLength + UInt64.ofNat (parts.length - 1)
  if max.string < size.toNat then
    throw .lengthError
  joinParts m max [] parts

/-- The check of the parts of a path; it gives the parts as strings and their total length. -/
def pathParts : ListRef → Except FileError (List StringRef × UInt64)
  | [] => .ok ([], 0)
  | part :: parts => do
    let name ← elementRefAsString part
    if name.size = 0 then
      throw (.code .emptyMultiFileName)
    let (names, totalLength) ← pathParts parts
    return (name :: names, name.size + totalLength)

def parseInfoFilesFile (length path : ElementRef) : Except FileError Metainfo.File := do
  let n ← elementRefAsInteger length
  let parts ← elementRefAsList path
  let lengthBytes ← parseAsUint64 m n
  let (names, totalLength) ← pathParts parts
  return { length_bytes := lengthBytes, path_utf8 := ← joinUTF8PartsToString m max names totalLength }

/-- The `parse_file` of `ParseInfo_Files`: the first 'length' and the first 'path' count. -/
def parseFile (e : ElementRef) : Except FileError Metainfo.File := do
  let data ← elementRefAsDictionary e
  let first (key : List UInt8) : Option ElementRef := (data.find? fun entry => entry.1.equals m key).map Prod.snd
  match first (ascii "length"), first (ascii "path") with
  | some length, some path => parseInfoFilesFile m max length path
  | _, _ => throw (.code .missingMultiFileProperty)

def parseInfoFiles (metainfo : TorrentMetainfo) (files : ElementRef) : Except FileError TorrentMetainfo := do
  -- Only 'length' or 'files' can exist, not both.
  if metainfo.info.length_or_files ≠ .monostate then
    throw (.code .ambiguousMultiOrSingleTorrent)
  let list ← elementRefAsList files
  let files ← list.mapM (parseFile m max)
  if files = [] then
    throw (.code .emptyMultiFile)
  return { metainfo with info.length_or_files := .files files }

def infoParsers : List KeyParser := [
  { key := ascii "name", parse := parseInfoName m max },
  { key := ascii "piece length", parse := parseInfoPieceLength m },
  { key := ascii "pieces", parse := parseInfoPieces m max },
  { key := ascii "length", parse := parseInfoLength m },
  { key := ascii "files", parse := parseInfoFiles m max }]

def parseInfo (metainfo : TorrentMetainfo) (info : ElementRef) : Except FileError TorrentMetainfo := do
  let data ← elementRefAsDictionary info
  let (metainfo, _) ← invokeParsers m metainfo (infoParsers m max) data
  if metainfo.tracker_url_utf8.length > 0 ∧ metainfo.info.piece_length_bytes > 0
      -- If exists, guarantees to be divisible by 20.
      ∧ metainfo.info.pieces_SHA1.length > 0
      -- Either 'length' or 'files' should be in place.
      ∧ metainfo.info.length_or_files ≠ .monostate then
    return metainfo
  throw (.code .invalidInvariant)

def announceParser : KeyParser := { key := ascii "announce", parse := parseAnnounce m max, position := some {} }
def infoParser : KeyParser := { key := ascii "info", parse := parseInfo m max, position := some {} }
def announceListParser : KeyParser := { key := ascii "announce-list", parse := parseAnnounceList m max }

/-- `ParseTorrentFileContent` after `ParseDictionary`. -/
def parseTorrentData (data : DictionaryRef) : Except FileError TorrentFileInfo :=
  match invokeParsers m {} [announceParser m max, infoParser m max, announceListParser m max] data with
  | .error e => .error e
  | .ok (metainfo, parsers) =>
    match parsers.map KeyParser.position with
    | [some announcePosition, some infoPosition, none] =>
      if announcePosition.end_ = 0 ∨ infoPosition.end_ = 0 then .error (.code .missingInfoProperty)
      else .ok ⟨metainfo, infoPosition⟩
    | _ => .error (.code .missingInfoProperty)

def parseTorrentFileContent (fuel : Nat) (content : Region) : Option (Except FileError TorrentFileInfo) :=
  (parseDictionary m fuel content).map fun
    | (.error e, _) => .error (.parse e)
    | (.ok data, _) => parseTorrentData m max data

end

/-- `AsStringView` of the bytes `[start, end)` of a buffer, with its two asserts. -/
def asStringView (buffer : Region) (start end_ : UInt64) : Option StringView :=
  if start ≤ end_ ∧ end_ ≤ buffer.size then some ⟨buffer.data + start, end_ - start⟩ else none

end BittorrentClient
