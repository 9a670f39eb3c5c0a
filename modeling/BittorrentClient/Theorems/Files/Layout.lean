import BittorrentClient.Lib.Layout
import BittorrentClient.Lib.Words
import BittorrentClient.Lib.Outcome
import BittorrentClient.Client.Torrent

/-! The files of a torrent lie one after the other in its bytes, as long as their lengths together fit in a word. -/

namespace BittorrentClient
open Blocks Outcome Words

/-- The lengths of the files, of the only one or of the list. -/
def TorrentClient.fileLengths (client : TorrentClient) : List UInt64 :=
  match client.metainfo.info.length_or_files with
  | .monostate => []
  | .length singleFile => [singleFile]
  | .files multiFiles => multiFiles.map Metainfo.File.length_bytes

/-- The exact sum of the lengths. -/
def sumLengths (lengths : List UInt64) : Nat := (lengths.map UInt64.toNat).sum

/-- The offset at which a file starts. -/
def fileStart (lengths : List UInt64) (i : Nat) : Nat := sumLengths (lengths.take i)

/-- The bytes of the files. -/
def fileBlocks (lengths : List UInt64) : List Block := layOut 0 (lengths.map UInt64.toNat)

theorem laid_fileBlocks (lengths : List UInt64) : Laid 0 (fileBlocks lengths) (sumLengths lengths) :=
  Nat.zero_add (sumLengths lengths) ▸ laid_layOut 0 (lengths.map UInt64.toNat)

theorem getElem?_fileBlocks (lengths : List UInt64) (i : Nat) :
    (fileBlocks lengths)[i]? = lengths[i]?.map fun n => ⟨fileStart lengths i, n.toNat⟩ := by
  rw [fileBlocks, getElem?_layOut, List.getElem?_map, Option.map_map, ← List.map_take]
  simp only [Nat.zero_add, fileStart, sumLengths, Function.comp_def]

def FileOffset.block (fo : FileOffset) : Block := ⟨fo.start.toNat, fo.end_.toNat - fo.start.toNat⟩

/-- The offsets of the files are those of their bytes. -/
structure FilesList.Exact (list : FilesList) (lengths : List UInt64) : Prop where
  blocks : list.files_offset.map FileOffset.block = fileBlocks lengths
  le : ∀ fo ∈ list.files_offset, fo.start ≤ fo.end_
  index : ∀ i (fo : FileOffset), list.files_offset[i]? = some fo → fo.file_index = i
  size : ∀ (i : Nat) (fo : FileOffset) a b d, list.files_offset[i]? = some fo → some (list.filePiece a b d fo).file_size = lengths[i]?

theorem FileOffset.block_stop {fo : FileOffset} (h : fo.start ≤ fo.end_) : fo.block.stop = fo.end_.toNat :=
  Nat.add_sub_of_le (UInt64.le_iff_toNat_le.mp h)

/-! ### The offsets -/

theorem fileOffsets_exact {files : List Metainfo.File} {start : UInt64} {index : Nat}
    (h : start.toNat + sumLengths (files.map Metainfo.File.length_bytes) < 2 ^ 64) :
    (FilesList.fileOffsets start index files).map FileOffset.block =
        layOut start.toNat ((files.map Metainfo.File.length_bytes).map UInt64.toNat) ∧
      (∀ fo ∈ FilesList.fileOffsets start index files, fo.start ≤ fo.end_) ∧
      ∀ i (fo : FileOffset), (FilesList.fileOffsets start index files)[i]? = some fo → fo.file_index = index + i := by
  induction files generalizing start index with
  | nil => exact ⟨rfl, List.forall_mem_nil _, nofun⟩
  | cons file files ih =>
    rw [List.map_cons, sumLengths, List.map_cons, List.sum_cons, ← Nat.add_assoc] at h
    have hend : (start + file.length_bytes).toNat = start.toNat + file.length_bytes.toNat := by
      rw [UInt64.toNat_add]
      exact Nat.mod_eq_of_lt (by omega)
    obtain ⟨hblocks, hle, hindex⟩ := @ih (start + file.length_bytes) (index + 1) (by rw [hend]; exact h)
    refine ⟨?_, ?_, ?_⟩
    · rw [FilesList.fileOffsets, List.map_cons, hblocks, hend]
      simp only [FileOffset.block, hend, Nat.add_sub_cancel_left]
      rfl
    · refine List.forall_mem_cons.mpr ⟨?_, hle⟩
      rw [UInt64.le_iff_toNat_le, hend]
      exact Nat.le_add_right _ _
    · intro i fo hi
      cases i with
      | zero =>
        cases hi
        rfl
      | succ i =>
        rw [hindex i fo hi]
        omega

theorem length_fileOffsets (start : UInt64) (index : Nat) (files : List Metainfo.File) :
    (FilesList.fileOffsets start index files).length = files.length := by
  induction files generalizing start index with
  | nil => rfl
  | cons file files ih => exact congrArg (· + 1) (ih _ _)

theorem foldl_lengths {files : List Metainfo.File} {start : UInt64}
    (h : start.toNat + sumLengths (files.map Metainfo.File.length_bytes) < 2 ^ 64) :
    (files.foldl (fun total f => total + f.length_bytes) start).toNat =
      start.toNat + sumLengths (files.map Metainfo.File.length_bytes) := by
  induction files generalizing start with
  | nil => rfl
  | cons file files ih =>
    rw [List.map_cons, sumLengths, List.map_cons, List.sum_cons, ← Nat.add_assoc] at h ⊢
    have hend : (start + file.length_bytes).toNat = start.toNat + file.length_bytes.toNat := by
      rw [UInt64.toNat_add]
      exact Nat.mod_eq_of_lt (by omega)
    rw [List.foldl_cons, ih (by rw [hend]; exact h), hend]
    rfl

/-- The sum of the lengths that is computed is the exact one. -/
theorem toNat_getTotalSizeBytes {client : TorrentClient} {total : UInt64}
    (hsum : sumLengths client.fileLengths < 2 ^ 64) (h : client.getTotalSizeBytes = .ok total) :
    total.toNat = sumLengths client.fileLengths := by
  rw [TorrentClient.getTotalSizeBytes] at h
  rw [TorrentClient.fileLengths] at hsum ⊢
  split at h
  · rename_i heq
    cases h
    rw [heq]
    rfl
  · rename_i heq
    cases h
    simp only [heq] at hsum ⊢
    rw [foldl_lengths (by rw [UInt64.toNat_zero]; omega), UInt64.toNat_zero, Nat.zero_add]
  · cases h

theorem FilesList.make_eq {client : TorrentClient} {list : FilesList} :
    FilesList.make client = .ok list ↔ list.torrent = client ∧ FilesList.filesOffset client = .ok list.files_offset ∧
      ∃ back, list.files_offset.getLast? = some back ∧ client.getTotalSizeBytes = .ok back.end_ := by
  constructor
  · intro h
    obtain ⟨offsets, hoffsets, h⟩ := bind_ok h
    cases hlast : offsets.getLast? with
    | none =>
      rw [hlast] at h
      cases h
    | some back =>
      rw [hlast] at h
      obtain ⟨total, htotal, h⟩ := bind_ok h
      obtain ⟨_, hback, h⟩ := bind_ok h
      cases h
      exact ⟨rfl, hoffsets, back, hlast, by rw [htotal, check_ok hback]⟩
  · obtain ⟨torrent, offsets⟩ := list
    rintro ⟨rfl, hoffsets, back, hlast, htotal⟩
    simp only at hoffsets hlast htotal
    rw [FilesList.make, hoffsets, ok_bind, hlast]
    dsimp only
    rw [htotal, ok_bind, check_of _ rfl]
    rfl

/-- The list that `make` builds lays the files out one after the other. -/
theorem FilesList.make_exact {client : TorrentClient} {list : FilesList} (hsum : sumLengths client.fileLengths < 2 ^ 64)
    (h : FilesList.make client = .ok list) : list.Exact client.fileLengths := by
  obtain ⟨rfl, hoffsets, -⟩ := FilesList.make_eq.mp h
  rw [FilesList.filesOffset] at hoffsets
  rw [TorrentClient.fileLengths] at hsum ⊢
  split at hoffsets
  · rename_i singleFile heq
    have hlist : list.files_offset = [⟨0, singleFile, 0⟩] := (Except.ok.inj hoffsets).symm
    have hone : ∀ i (fo : FileOffset), list.files_offset[i]? = some fo → i = 0 ∧ fo = ⟨0, singleFile, 0⟩ := by
      intro i fo hi
      rw [hlist] at hi
      cases i with
      | zero => exact ⟨rfl, (Option.some.inj hi).symm⟩
      | succ i => cases hi
    simp only [heq]
    refine ⟨by rw [hlist]; rfl, ?_, ?_, ?_⟩
    · rw [hlist]
      exact List.forall_mem_singleton.mpr UInt64.zero_le
    · intro i fo hi
      obtain ⟨rfl, rfl⟩ := hone i fo hi
      rfl
    · intro i fo a b d hi
      obtain ⟨rfl, rfl⟩ := hone i fo hi
      simp only [FilesList.filePiece, heq, hlist]
      rfl
  · rename_i multiFiles heq
    simp only [heq] at hsum ⊢
    have hlist : list.files_offset = FilesList.fileOffsets 0 0 multiFiles := (Except.ok.inj hoffsets).symm
    have hstart : (0 : UInt64).toNat + sumLengths (multiFiles.map Metainfo.File.length_bytes) < 2 ^ 64 := by
      rwa [UInt64.toNat_zero, Nat.zero_add]
    obtain ⟨hblocks, hle, hindex⟩ := @fileOffsets_exact multiFiles 0 0 hstart
    rw [← hlist] at hblocks hle hindex
    have hfile : ∀ i (fo : FileOffset), list.files_offset[i]? = some fo → fo.file_index = i := fun i fo hi =>
      (hindex i fo hi).trans (Nat.zero_add i)
    refine ⟨hblocks, hle, hfile, ?_⟩
    intro i fo a b d hi
    have hlt : i < multiFiles.length := by
      have hlt := (List.getElem?_eq_some_iff.mp hi).1
      rwa [hlist, length_fileOffsets] at hlt
    simp only [FilesList.filePiece, heq, hfile i fo hi]
    rw [List.getD_eq_getElem _ _ hlt, List.getElem?_map, List.getElem?_eq_getElem hlt, Option.map_some]
  · cases hoffsets

end BittorrentClient
