import BittorrentClient.Client.Disk
import BittorrentClient.Lib.Blocks
import BittorrentClient.Lib.Outcome

/-! The calls that a piece of a file makes. Where the system answers them, the file is created if it is not open, and
    written; where it does not, the program ends. -/

namespace BittorrentClient
open Blocks Outcome

/-- A piece of a file, and the data that it is cut out of. -/
abbrev Transfer := FilePiece × List UInt8

namespace Transfer

/-- The bytes of the file that are written. -/
def fileBlock (w : Transfer) : Block := ⟨w.1.file_offset.toNat, w.1.bytes_count.toNat⟩

def bytes (w : Transfer) : List UInt8 := (w.2.drop w.1.piece_offset.toNat).take w.1.bytes_count.toUInt32.toNat

def creation (w : Transfer) : FileCall := .create w.1.file_name w.1.file_size

def call (w : Transfer) : FileCall := .write w.1.file_offset w.bytes

end Transfer

namespace PhysicalFile
variable (f : PhysicalFile) (w : Transfer) {answers : FileCall → Bool} {f' : PhysicalFile}

/-- The file for the piece, created if it is not open. -/
def opened : PhysicalFile := if f.file then f else { f with file := true, calls := f.calls ++ [w.creation] }

def wrote : PhysicalFile :=
  { f with calls := f.calls ++ [w.call], written := f.written + w.1.bytes_count.toUInt32.toUInt64 }

/-- What `on_write_file_piece` makes of the file, where the system answers. -/
def writePiece : Asserted PhysicalFile := ((f.opened w).wrote w).tryFinalize w.1.file_size

theorem tryCreate_ok_iff : f.tryCreate answers w.1.file_name w.1.file_size = .ok f' ↔
    (f.file = false → answers w.creation = true) ∧ f' = f.opened w := by
  rw [tryCreate, opened]
  cases hfile : f.file with
  | true =>
    rw [if_pos rfl, if_pos rfl, Except.ok.injEq]
    exact ⟨fun h => ⟨fun hf => Bool.noConfusion hf, h.symm⟩, fun h => h.2.symm⟩
  | false =>
    rw [if_neg Bool.false_ne_true, if_neg Bool.false_ne_true]
    constructor
    · intro h
      obtain ⟨_, hanswer, h⟩ := bind_ok h
      cases h
      exact ⟨fun _ => check_ok hanswer, rfl⟩
    · rintro ⟨hanswer, rfl⟩
      have hanswer : answers (.create w.1.file_name w.1.file_size) = true := hanswer rfl
      rw [check_of _ hanswer]
      rfl

theorem write_ok_iff :
    f.write answers (w.2.drop w.1.piece_offset.toNat) w.1.file_offset w.1.bytes_count.toUInt32 = .ok f' ↔
      w.1.bytes_count.toUInt32.toNat ≤ (w.2.drop w.1.piece_offset.toNat).length ∧ answers w.call = true ∧
        f' = f.wrote w := by
  rw [write]
  constructor
  · intro h
    obtain ⟨_, hread, h⟩ := bind_ok h
    obtain ⟨_, hanswer, h⟩ := bind_ok h
    cases h
    exact ⟨check_ok hread, check_ok hanswer, rfl⟩
  · rintro ⟨hread, hanswer, rfl⟩
    have hanswer : answers (.write w.1.file_offset ((w.2.drop w.1.piece_offset.toNat).take
      w.1.bytes_count.toUInt32.toNat)) = true := hanswer
    rw [check_of _ hread, ok_bind, check_of _ hanswer]
    rfl

@[simp] theorem file_opened : (f.opened w).file = true := by
  rw [opened]
  split
  · assumption
  · rfl

@[simp] theorem written_opened : (f.opened w).written = f.written := by
  rw [opened]
  split <;> rfl

/-- Nothing but the file of the piece is created. -/
theorem create_mem_opened {name : List UInt8} {size : UInt64} (h : .create name size ∈ (f.opened w).calls) :
    .create name size ∈ f.calls ∨ f.file = false ∧ name = w.1.file_name := by
  rw [opened] at h
  split at h
  · exact .inl h
  · rename_i hfile
    rcases List.mem_append.mp h with h | h
    · exact .inl h
    · cases List.mem_singleton.mp h
      exact .inr ⟨Bool.eq_false_iff.mpr hfile, rfl⟩

theorem create_mem_writePiece {name : List UInt8} {size : UInt64} (hwrite : f.writePiece w = .ok f')
    (h : .create name size ∈ f'.calls) : .create name size ∈ (f.opened w).calls := by
  have hclosed : ∀ f : PhysicalFile, .create name size ∈ f.close.calls → .create name size ∈ f.calls := by
    intro f hf
    rw [PhysicalFile.close] at hf
    split at hf
    · simpa using hf
    · exact hf
  have hwrote : ∀ f : PhysicalFile, .create name size ∈ (f.wrote w).calls → .create name size ∈ f.calls := by
    intro f hf
    simpa [wrote, Transfer.call] using hf
  obtain ⟨_, -, hwrite⟩ := bind_ok hwrite
  cases hwrite
  split at h
  · exact hwrote _ (hclosed _ h)
  · exact hwrote _ h

end PhysicalFile

section
variable {system : Win32} {files files' : List PhysicalFile} {w : Transfer}

/-- The piece has bytes, which lie in its data, and the system answers the calls for its file. -/
structure Transfer.Passes (system : Win32) (files : List PhysicalFile) (w : Transfer) : Prop where
  checked : FilesOnDisk.checkFilePiece files.length w.2.length w.1 = .ok ()
  readable : w.1.bytes_count.toUInt32.toNat ≤ (w.2.drop w.1.piece_offset.toNat).length
  created : (files.getD w.1.file_index {}).file = false →
    FilesOnDisk.answers system files w.1.file_index (files.getD w.1.file_index {}) w.creation = true
  written : FilesOnDisk.answers system files w.1.file_index ((files.getD w.1.file_index {}).opened w) w.call = true

theorem onWriteFilePiece_ok_iff : FilesOnDisk.onWriteFilePiece system files w.1 w.2 = .ok files' ↔
    w.Passes system files ∧ ∃ f', (files.getD w.1.file_index {}).writePiece w = .ok f' ∧
      files' = files.set w.1.file_index f' := by
  constructor
  · intro h
    obtain ⟨_, hcheck, h⟩ := bind_ok h
    obtain ⟨opened, hcreate, h⟩ := bind_ok h
    obtain ⟨wrote, hwrite, h⟩ := bind_ok h
    obtain ⟨f', hfinalize, h⟩ := bind_ok h
    cases h
    obtain ⟨hcreated, rfl⟩ := (PhysicalFile.tryCreate_ok_iff _ w).mp hcreate
    obtain ⟨hreadable, hwritten, rfl⟩ := (PhysicalFile.write_ok_iff _ w).mp hwrite
    exact ⟨⟨hcheck, hreadable, hcreated, hwritten⟩, f', hfinalize, rfl⟩
  · rintro ⟨h, f', hwrite, rfl⟩
    have hcreate := (PhysicalFile.tryCreate_ok_iff _ w).mpr ⟨h.created, rfl⟩
    have hwritten := (PhysicalFile.write_ok_iff ((files.getD w.1.file_index {}).opened w) w).mpr
      ⟨h.readable, h.written, rfl⟩
    have hfinalize : (((files.getD w.1.file_index {}).opened w).wrote w).tryFinalize w.1.file_size = .ok f' := hwrite
    simp only [FilesOnDisk.onWriteFilePiece, h.checked, ok_bind, hcreate, hwritten, hfinalize]
    rfl

theorem checkFilePiece_ok {filesCount dataSize : Nat} {piece : FilePiece} :
    FilesOnDisk.checkFilePiece filesCount dataSize piece = .ok () ↔
      piece.file_index < filesCount ∧ piece.piece_offset.toNat < dataSize ∧ 0 < piece.bytes_count.toNat := by
  constructor
  · intro h
    obtain ⟨_, hindex, h⟩ := bind_ok h
    obtain ⟨_, hoffset, h⟩ := bind_ok h
    exact ⟨check_ok hindex, check_ok hoffset, UInt64.lt_iff_toNat_lt.mp (check_ok h)⟩
  · rintro ⟨hindex, hoffset, hcount⟩
    rw [FilesOnDisk.checkFilePiece, check_of _ hindex, ok_bind, check_of _ hoffset, ok_bind,
      check_of _ (show piece.bytes_count > 0 from UInt64.lt_iff_toNat_lt.mpr hcount)]

theorem onWriteFilePiece_ok (h : FilesOnDisk.onWriteFilePiece system files w.1 w.2 = .ok files') :
    0 < w.1.bytes_count.toNat ∧ ∃ f f', files[w.1.file_index]? = some f ∧ f.writePiece w = .ok f' ∧
      files' = files.set w.1.file_index f' := by
  obtain ⟨hpasses, f', hwrite, rfl⟩ := onWriteFilePiece_ok_iff.mp h
  obtain ⟨hindex, -, hpos⟩ := checkFilePiece_ok.mp hpasses.checked
  refine ⟨hpos, _, f', ?_, hwrite, rfl⟩
  rw [List.getElem?_eq_getElem hindex, List.getD_eq_getElem _ _ hindex]

end

end BittorrentClient
