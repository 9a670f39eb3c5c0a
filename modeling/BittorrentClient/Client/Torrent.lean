import BittorrentClient.Bencoding.Asserts

/-! The torrent that is downloaded (torrent_client.cpp) and the layout of its files (`FilesList` of main.cpp).
    An assertion that fails ends the program; it is modelled as an error. -/

namespace BittorrentClient

/-- The assertions of the client, and the use of a handle whose element is gone. -/
inductive Assertion where
  -- Not assertions: the access is outside what is allocated.
  | danglingHandle | copyOutside | readOutside
  -- be_element_ref_parse.cpp
  | parser (assertion : ParserAssertion)
  -- torrent_client.cpp
  | infoPosition | invalidTorrentMetainfo | piecesCountPositive | pieceSizePositive | sizeExceptLastPiece | lastPieceSize
  -- FilesList
  | filesOffsetEmpty | filesOffsetTotal | rangeEmpty | startInFile | endInList | endAfterStart | endInFile | rangeConsumed
  -- PiecesToDownload
  | totalSize | pieceWithZeroSize | downloadedMoreThanPiece | partPastPiece | pieceEnd
  -- TryDownloadPiecesFromPeer
  | mixedOrderOfPieces | unhandledMessage | downloadedPieceSize
  -- PhysicalFile and FilesOnDisk
  | createFile | writeFile | writtenPastEnd | pieceWithoutData | fileIndex | pieceOffset | emptyFilePiece
  deriving DecidableEq, Repr

abbrev Asserted := Except Assertion

def check (cond : Prop) [Decidable cond] (assertion : Assertion) : Asserted Unit :=
  if cond then .ok () else .error assertion

theorem check_ok {cond : Prop} [Decidable cond] {assertion : Assertion} {u : Unit} (h : check cond assertion = .ok u) :
    cond := by
  rw [check] at h
  split at h
  · assumption
  · cases h

theorem check_of {cond : Prop} [Decidable cond] (assertion : Assertion) (h : cond) : check cond assertion = .ok () :=
  if_pos h

/-! ### TorrentClient -/

/-- `sizeof(SHA1Bytes)`. -/
def sizeofSHA1Bytes : Nat := 20

/-- `Buffer<20, SHA1Bytes>`. -/
abbrev SHA1Bytes := Vector UInt8 sizeofSHA1Bytes

/-- `Buffer<20, PeerId>`. -/
abbrev PeerId := Vector UInt8 20

structure TorrentClient where
  metainfo : TorrentMetainfo
  info_hash : SHA1Bytes := Vector.replicate _ 0
  peer_id : PeerId := Vector.replicate _ 0

namespace TorrentClient
variable (client : TorrentClient)

def getPiecesCount : UInt32 := UInt32.ofNat (client.metainfo.info.pieces_SHA1.length / sizeofSHA1Bytes)

def getTotalSizeBytes : Asserted UInt64 :=
  match client.metainfo.info.length_or_files with
  | .length singleFile => .ok singleFile
  | .files multiFiles => .ok (multiFiles.foldl (fun total f => total + f.length_bytes) 0)
  | .monostate => .error .invalidTorrentMetainfo

def getPieceSizeBytes : UInt32 := client.metainfo.info.piece_length_bytes.toUInt32

/-- The checks of `TorrentClient::make`. -/
def validate : Asserted Unit := do
  let piecesCount := client.getPiecesCount
  let pieceSize := client.getPieceSizeBytes
  let totalSize ← client.getTotalSizeBytes
  check (piecesCount > 0) .piecesCountPositive
  check (pieceSize > 0) .pieceSizePositive
  let sizeExceptLastPiece := pieceSize.toUInt64 * (piecesCount - 1).toUInt64
  check (sizeExceptLastPiece < totalSize) .sizeExceptLastPiece
  let last := totalSize - sizeExceptLastPiece
  check (last ≤ pieceSize.toUInt64) .lastPieceSize

end TorrentClient

/-! ### FilesList -/

structure FileOffset where
  start : UInt64 := 0
  end_ : UInt64 := 0
  file_index : Nat := 0
  deriving DecidableEq, Repr

structure FilePiece where
  file_index : Nat
  file_name : List UInt8
  file_offset : UInt64
  bytes_count : UInt64
  piece_offset : UInt64
  file_size : UInt64
  deriving DecidableEq, Repr

structure FilesList where
  torrent : TorrentClient
  files_offset : List FileOffset

namespace FilesList

/-- The loop of `make` over the files from `index` on. -/
def fileOffsets (start : UInt64) (index : Nat) : List Metainfo.File → List FileOffset
  | [] => []
  | file :: files =>
    let end_ := start + file.length_bytes
    ⟨start, end_, index⟩ :: fileOffsets end_ (index + 1) files

/-- The list of offsets that `make` builds. -/
def filesOffset (torrent : TorrentClient) : Asserted (List FileOffset) :=
  match torrent.metainfo.info.length_or_files with
  | .length singleFile => .ok [⟨0, singleFile, 0⟩]
  | .files multiFiles => .ok (fileOffsets 0 0 multiFiles)
  | .monostate => .error .invalidTorrentMetainfo

def make (torrent : TorrentClient) : Asserted FilesList := do
  let offsets ← filesOffset torrent
  match offsets.getLast? with
  | none => .error .filesOffsetEmpty
  | some back => do
    check (back.end_ = (← torrent.getTotalSizeBytes)) .filesOffsetTotal
    return { torrent := torrent, files_offset := offsets }

/-- `std::lower_bound`: the first index in `[from, size)` whose element is not before the value, else the size. -/
def lowerBound (offsets : List FileOffset) (first : Nat) (before : FileOffset → Bool) : Nat :=
  first + (offsets.drop first).findIdx fun fo => !before fo

variable (list : FilesList)

/-- The piece of the file `fo` that overlaps the range, with `dataOffset` bytes of the range before it. -/
def filePiece (startBytes endBytes dataOffset : UInt64) (fo : FileOffset) : FilePiece :=
  let (fileName, fileSize) := match list.torrent.metainfo.info.length_or_files with
    | .files files => ((files.getD fo.file_index {}).path_utf8, (files.getD fo.file_index {}).length_bytes)
    -- We know we have a single file.
    | _ => (list.torrent.metainfo.info.suggested_name_utf8, (list.files_offset.headD {}).end_)
  let startOffset := max startBytes fo.start
  let endOffset := min fo.end_ endBytes
  { file_index := fo.file_index
    file_name := fileName
    file_offset := startOffset - fo.start
    bytes_count := endOffset - startOffset
    piece_offset := dataOffset
    file_size := fileSize }

/-- The loop over the files that overlap the range: the pieces it passes on, and the bytes it consumed. -/
def filePieces (startBytes endBytes dataOffset : UInt64) : List FileOffset → List FilePiece × UInt64
  | [] => ([], dataOffset)
  | fo :: offsets =>
    let piece := list.filePiece startBytes endBytes dataOffset fo
    let (pieces, dataOffset) := filePieces startBytes endBytes (dataOffset + piece.bytes_count) offsets
    (piece :: pieces, dataOffset)

/-- `iterate_files` over a range of bytes: the file pieces that are passed to `f`. -/
def iterateRange (startBytes endBytes : UInt64) : Asserted (List FilePiece) := do
  let offsets := list.files_offset
  check (endBytes > startBytes) .rangeEmpty
  check (offsets ≠ []) .filesOffsetEmpty
  let itStart := lowerBound offsets 0 fun lhs => lhs.start < startBytes
  -- File with start >= start_bytes. Must be the last one.
  let itStart := if itStart = offsets.length then offsets.length - 1 else itStart
  -- File that has start < start_bytes is the previous one.
  let itStart := if (offsets.getD itStart {}).start > startBytes then itStart - 1 else itStart
  check (startBytes ≥ (offsets.getD itStart {}).start ∧ startBytes < (offsets.getD itStart {}).end_) .startInFile
  let itEnd := lowerBound offsets itStart fun lhs => lhs.end_ < endBytes
  check (itEnd ≠ offsets.length) .endInList
  check (itEnd ≥ itStart) .endAfterStart
  check (endBytes > (offsets.getD itEnd {}).start ∧ endBytes ≤ (offsets.getD itEnd {}).end_) .endInFile
  let (pieces, dataOffset) := list.filePieces startBytes endBytes 0 ((offsets.take (itEnd + 1)).drop itStart)
  check (dataOffset = endBytes - startBytes) .rangeConsumed
  return pieces

/-- The range of bytes of a piece: the products are taken in 32 bits. -/
def pieceRange (pieceIndex : UInt32) : UInt64 × UInt64 :=
  let totalSize := (list.files_offset.getLastD {}).end_
  let start := (pieceIndex * list.torrent.getPieceSizeBytes).toUInt64
  let end_ := ((pieceIndex + 1) * list.torrent.getPieceSizeBytes).toUInt64
  (start, min end_ totalSize)

/-- `iterate_files` over a piece. -/
def iterateFiles (pieceIndex : UInt32) : Asserted (List FilePiece) := do
  check (list.files_offset ≠ []) .filesOffsetEmpty
  let (start, end_) := list.pieceRange pieceIndex
  list.iterateRange start end_

end FilesList

end BittorrentClient
