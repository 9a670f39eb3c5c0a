import BittorrentClient.Client.Pieces

/-! The files that pieces are written to (`PhysicalFile` and `FilesOnDisk` of main.cpp). -/

namespace BittorrentClient
open Memcpy

/-- A call for a file: `CreateFileA` with `SetFilePointerEx` and `SetEndOfFile`, `WriteFile` with `SetFilePointerEx`,
    `CloseHandle`. -/
inductive FileCall where
  | create (name : List UInt8) (size : UInt64)
  | write (offset : UInt64) (bytes : List UInt8)
  | close
  deriving DecidableEq, Repr

def FileCall.apply (content : List UInt8) : FileCall → List UInt8
  | .create _ size => List.replicate size.toNat 0
  | .write offset bytes => copy content offset.toNat bytes
  | .close => content

/-- The bytes of a file after the calls. -/
def fileContent (calls : List FileCall) : List UInt8 := calls.foldl FileCall.apply []

/-- The operating system: whether a call succeeds, after the calls that were made for each of the files. In a run each
    call is made after more calls than the one before, so that any answers are those of some system. -/
abbrev Win32 := List (List FileCall) → FileCall → Bool

/-- Every call succeeds. -/
def Win32.succeeding : Win32 := fun _ _ => true

structure PhysicalFile where
  /-- `file_` is not `INVALID_HANDLE_VALUE`. -/
  file : Bool := false
  written : UInt64 := 0
  /-- The calls for the file, in order. -/
  calls : List FileCall := []
  deriving DecidableEq, Repr

namespace PhysicalFile
variable (f : PhysicalFile)

def close : PhysicalFile := if f.file then { f with file := false, calls := f.calls ++ [.close] } else f

/-- With `CREATE_NEW` a file that exists is not opened. `INVALID_HANDLE_VALUE` passes the assertion about the handle,
    and fails that about `SetFilePointerEx`. -/
def tryCreate (answers : FileCall → Bool) (name : List UInt8) (finalSize : UInt64) : Asserted PhysicalFile :=
  if f.file then .ok f
  else do
    check (answers (.create name finalSize) = true) .createFile
    return { f with file := true, calls := f.calls ++ [.create name finalSize] }

/-- `data` is what lies behind the pointer. -/
def write (answers : FileCall → Bool) (data : List UInt8) (offset : UInt64) (size : UInt32) : Asserted PhysicalFile := do
  check (size.toNat ≤ data.length) .readOutside
  check (answers (.write offset (data.take size.toNat)) = true) .writeFile
  return { f with calls := f.calls ++ [.write offset (data.take size.toNat)], written := f.written + size.toUInt64 }

def tryFinalize (finalSize : UInt64) : Asserted PhysicalFile := do
  check (f.written ≤ finalSize) .writtenPastEnd
  return if f.written = finalSize then f.close else f

end PhysicalFile

structure FilesOnDisk where
  files : List PhysicalFile
  files_list : FilesList
  /-- What answers the calls for the files. -/
  system : Win32

namespace FilesOnDisk

def make (filesList : FilesList) (system : Win32 := .succeeding) : FilesOnDisk :=
  ⟨List.replicate filesList.files_offset.length {}, filesList, system⟩

/-- The assertions of `on_write_file_piece` about the piece that is passed on. -/
def checkFilePiece (filesCount dataSize : Nat) (piece : FilePiece) : Asserted Unit := do
  check (piece.file_index < filesCount) .fileIndex
  check (piece.piece_offset.toNat < dataSize) .pieceOffset
  check (piece.bytes_count > 0) .emptyFilePiece

/-- What the system answers when the file of the index has come to `f`. -/
def answers (system : Win32) (files : List PhysicalFile) (index : Nat) (f : PhysicalFile) : FileCall → Bool :=
  system ((files.set index f).map PhysicalFile.calls)

def onWriteFilePiece (system : Win32) (files : List PhysicalFile) (piece : FilePiece) (allData : List UInt8) :
    Asserted (List PhysicalFile) := do
  checkFilePiece files.length allData.length piece
  let answers := answers system files piece.file_index
  let f := files.getD piece.file_index {}
  let f ← f.tryCreate (answers f) piece.file_name piece.file_size
  let f ← f.write (answers f) (allData.drop piece.piece_offset.toNat) piece.file_offset piece.bytes_count.toUInt32
  return files.set piece.file_index (← f.tryFinalize piece.file_size)

/-- The calls of `on_write_file_piece` for the data of a piece. -/
def onWriteFilePieces (system : Win32) (files : List PhysicalFile) (allData : List UInt8) :
    List FilePiece → Asserted (List PhysicalFile)
  | [] => .ok files
  | piece :: pieces => do onWriteFilePieces system (← onWriteFilePiece system files piece allData) allData pieces

/-- The disk, and the piece with its data given up. -/
def writePiece (disk : FilesOnDisk) (piece : PieceState) : Asserted (FilesOnDisk × PieceState) := do
  check (piece.data.length > 0) .pieceWithoutData
  let pieces ← disk.files_list.iterateFiles piece.piece_index
  return ({ disk with files := ← onWriteFilePieces disk.system disk.files piece.data pieces }, { piece with data := [] })

/-- `write_piece` for one piece after the other. -/
def writePieces (disk : FilesOnDisk) : List PieceState → Asserted FilesOnDisk
  | [] => .ok disk
  | piece :: pieces => do writePieces (← disk.writePiece piece).1 pieces

def totalWritten (disk : FilesOnDisk) : UInt64 := disk.files.foldl (fun total f => total + f.written) 0

end FilesOnDisk

end BittorrentClient
