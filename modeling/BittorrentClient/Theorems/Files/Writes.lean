import BittorrentClient.Theorems.Files.Calls
import BittorrentClient.Theorems.Files.Tiling

/-! What is written to one file: as long as its pieces do not overlap, it is created before the first of them, and
    closed as soon as it has all its bytes. -/

namespace BittorrentClient
open Blocks Memcpy Outcome Words

/-- The number of bytes that are written. -/
def transferred (ws : List Transfer) : Nat := total (ws.map Transfer.fileBlock)

theorem transferred_append (ws ws' : List Transfer) : transferred (ws ++ ws') = transferred ws + transferred ws' := by
  rw [transferred, List.map_append, total_append]
  rfl

/-- The calls for a file of the size: none, or its creation, the writes, and its closing once they fill it. -/
def fileCalls (name : List UInt8) (size : UInt64) (ws : List Transfer) : List FileCall :=
  if ws = [] then []
  else .create name size :: ws.map Transfer.call ++ if transferred ws = size.toNat then [.close] else []

/-- The file after the writes. -/
structure PhysicalFile.After (f : PhysicalFile) (size : UInt64) (ws : List Transfer) : Prop where
  written : f.written.toNat = transferred ws
  file : f.file = true ↔ ws ≠ [] ∧ transferred ws < size.toNat
  calls : ∃ name, f.calls = fileCalls name size ws

theorem PhysicalFile.after_nil (size : UInt64) : PhysicalFile.After {} size [] where
  written := rfl
  file := ⟨fun h => Bool.noConfusion h, fun h => absurd rfl h.1⟩
  calls := ⟨[], rfl⟩

/-- One more piece that fits. -/
theorem PhysicalFile.After.writePiece {f f' : PhysicalFile} {ws : List Transfer} {w : Transfer}
    (h : f.After w.1.file_size ws) (hpos : 0 < w.1.bytes_count.toNat) (hsmall : w.1.bytes_count.toNat < 2 ^ 32)
    (hfits : transferred (ws ++ [w]) ≤ w.1.file_size.toNat) (hwrite : f.writePiece w = .ok f') :
    f'.After w.1.file_size (ws ++ [w]) := by
  have hsum : transferred (ws ++ [w]) = transferred ws + w.1.bytes_count.toNat := transferred_append ws [w]
  have hcount : w.1.bytes_count.toUInt32.toUInt64.toNat = w.1.bytes_count.toNat := by
    rw [UInt32.toNat_toUInt64, UInt64.toNat_toUInt32]
    exact Nat.mod_eq_of_lt hsmall
  have hwritten : (f.written + w.1.bytes_count.toUInt32.toUInt64).toNat = transferred (ws ++ [w]) := by
    have hlt := w.1.file_size.toNat_lt
    rw [UInt64.toNat_add, hcount, h.written, Nat.mod_eq_of_lt (by omega), hsum]
  -- The file is open, with what was written before, when this piece is written.
  obtain ⟨name, hcalls⟩ : ∃ name, (f.opened w).calls = .create name w.1.file_size :: ws.map Transfer.call := by
    obtain ⟨name, hcalls⟩ := h.calls
    rw [fileCalls] at hcalls
    by_cases hws : ws = []
    · have hclosed : ¬f.file = true := fun hf => (h.file.mp hf).1 hws
      rw [if_pos hws] at hcalls
      refine ⟨w.1.file_name, ?_⟩
      rw [PhysicalFile.opened, if_neg hclosed, hcalls, hws]
      rfl
    · have hopen : f.file = true := h.file.mpr ⟨hws, by omega⟩
      rw [if_neg hws, if_neg (by omega), List.append_nil] at hcalls
      refine ⟨name, ?_⟩
      rw [PhysicalFile.opened, if_pos hopen, hcalls]
  have hopen : (f.opened w).file = true := f.file_opened w
  obtain ⟨_, -, hwrite⟩ := bind_ok hwrite
  cases hwrite
  rw [PhysicalFile.wrote, PhysicalFile.written_opened]
  dsimp only
  split
  · rename_i hfull
    have hfull : transferred (ws ++ [w]) = w.1.file_size.toNat := by rw [← hwritten, hfull]
    rw [PhysicalFile.close, if_pos hopen]
    refine ⟨hwritten, ?_, name, ?_⟩
    · exact ⟨fun hf => Bool.noConfusion hf, fun hf => absurd hfull (Nat.ne_of_lt hf.2)⟩
    · rw [fileCalls, if_neg (by simp), if_pos hfull, hcalls, List.map_append]
      rfl
  · rename_i hfull
    have hfull : transferred (ws ++ [w]) ≠ w.1.file_size.toNat := by
      rw [← hwritten]
      exact fun heq => hfull (UInt64.toNat_inj.mp heq)
    refine ⟨hwritten, ?_, name, ?_⟩
    · exact ⟨fun _ => ⟨by simp, Nat.lt_of_le_of_ne hfits hfull⟩, fun _ => hopen⟩
    · rw [fileCalls, if_neg (by simp), if_neg hfull, hcalls, List.map_append, List.append_nil]
      rfl

/-! ### Contents -/

theorem fileContent_fileCalls {name : List UInt8} {size : UInt64} {ws : List Transfer} (hne : ws ≠ []) :
    fileContent (fileCalls name size ws) =
      copyAll (List.replicate size.toNat 0) (ws.map fun w => (w.1.file_offset.toNat, w.bytes)) := by
  have hwrites : ∀ content, (ws.map Transfer.call).foldl FileCall.apply content =
      copyAll content (ws.map fun w => (w.1.file_offset.toNat, w.bytes)) := by
    intro content
    rw [copyAll, List.foldl_map, List.foldl_map]
    rfl
  rw [fileContent, fileCalls, if_neg hne, List.foldl_append, List.foldl_cons, hwrites]
  split <;> rfl

/-- A file whose writes are parts of `t` and cover it has the bytes of `t`. -/
theorem fileContent_eq {name t : List UInt8} {size : UInt64} {ws : List Transfer} (ht : t.length = size.toNat)
    (hpart : ∀ w ∈ ws, w.bytes.length = w.1.bytes_count.toNat ∧
      ∀ x < w.bytes.length, w.bytes[x]? = t[w.1.file_offset.toNat + x]?)
    (hcovers : Covers (ws.map Transfer.fileBlock) size.toNat) (hne : ws ≠ []) :
    fileContent (fileCalls name size ws) = t := by
  rw [fileContent_fileCalls hne]
  refine List.ext_getElem? ?_
  intro y
  rcases Nat.lt_or_ge y size.toNat with hy | hy
  · refine getElem?_copyAll (List.forall_mem_map.mpr fun w hw => (hpart w hw).2) ?_ (.inr ?_)
    · rw [List.length_replicate]
      exact hy
    · obtain ⟨block, hblock, hstart, hstop⟩ := hcovers y hy
      obtain ⟨w, hw, rfl⟩ := List.mem_map.mp hblock
      refine ⟨_, List.mem_map_of_mem hw, hstart, ?_⟩
      rw [(hpart w hw).1]
      exact hstop
  · rw [List.getElem?_eq_none (by rw [length_copyAll, List.length_replicate]; exact hy),
      List.getElem?_eq_none (by rw [ht]; exact hy)]

/-! ### Runs -/

/-- The transfers to the file `k`. -/
def transfersTo (ws : List Transfer) (k : Nat) : List Transfer := ws.filter fun w => w.1.file_index = k

theorem transfersTo_append (ws ws' : List Transfer) (k : Nat) :
    transfersTo (ws ++ ws') k = transfersTo ws k ++ transfersTo ws' k := List.filter_append ws ws'

/-- `on_write_file_piece` for one transfer after the other. -/
def writeTransfers (system : Win32) (files : List PhysicalFile) : List Transfer → Asserted (List PhysicalFile)
  | [] => .ok files
  | w :: ws => do writeTransfers system (← FilesOnDisk.onWriteFilePiece system files w.1 w.2) ws

theorem writeTransfers_append (system : Win32) (files : List PhysicalFile) (ws ws' : List Transfer) :
    writeTransfers system files (ws ++ ws') =
      (writeTransfers system files ws).bind fun files => writeTransfers system files ws' := by
  induction ws generalizing files with
  | nil => rfl
  | cons w ws ih =>
    rw [List.cons_append, writeTransfers, writeTransfers]
    cases FilesOnDisk.onWriteFilePiece system files w.1 w.2 with
    | error a => rfl
    | ok files => exact ih files

theorem onWriteFilePieces_eq (system : Win32) (files : List PhysicalFile) (data : List UInt8) (pieces : List FilePiece) :
    FilesOnDisk.onWriteFilePieces system files data pieces =
      writeTransfers system files (pieces.map fun piece => (piece, data)) := by
  induction pieces generalizing files with
  | nil => rfl
  | cons piece pieces ih =>
    rw [FilesOnDisk.onWriteFilePieces, List.map_cons, writeTransfers]
    simp only [ih]

/-- The files after the transfers. -/
structure FilesAfter (lengths : List UInt64) (files : List PhysicalFile) (ws : List Transfer) : Prop where
  length : files.length = lengths.length
  after : ∀ (k : Nat) n f, lengths[k]? = some n → files[k]? = some f → f.After n (transfersTo ws k)

section
variable {lengths : List UInt64} {system : Win32} {files files' : List PhysicalFile} {done ws : List Transfer}

theorem FilesAfter.step {w : Transfer} (h : FilesAfter lengths files done)
    (hsize : lengths[w.1.file_index]? = some w.1.file_size) (hsmall : w.1.bytes_count.toNat < 2 ^ 32)
    (hfits : transferred (transfersTo (done ++ [w]) w.1.file_index) ≤ w.1.file_size.toNat)
    (hwrite : FilesOnDisk.onWriteFilePiece system files w.1 w.2 = .ok files') : FilesAfter lengths files' (done ++ [w]) := by
  obtain ⟨hpos, f, f', hf, hf', rfl⟩ := onWriteFilePiece_ok hwrite
  have hto : transfersTo [w] w.1.file_index = [w] := by simp [transfersTo]
  have hafter := h.after _ _ _ hsize hf
  refine ⟨by rw [List.length_set, h.length], ?_⟩
  intro k n g hn hg
  rw [transfersTo_append] at hfits ⊢
  by_cases hk : w.1.file_index = k
  · subst hk
    cases hsize.symm.trans hn
    rw [List.getElem?_set_self (List.getElem?_eq_some_iff.mp hf).1] at hg
    cases hg
    rw [hto] at hfits ⊢
    exact hafter.writePiece hpos hsmall hfits hf'
  · have hother : transfersTo [w] k = [] := by simp [transfersTo, hk]
    rw [List.getElem?_set_ne hk] at hg
    rw [hother, List.append_nil]
    exact h.after k n g hn hg

/-- Transfers that fit into their files together leave the files as they describe them. -/
theorem FilesAfter.run (h : FilesAfter lengths files done)
    (hsize : ∀ w ∈ ws, lengths[w.1.file_index]? = some w.1.file_size)
    (hsmall : ∀ w ∈ ws, w.1.bytes_count.toNat < 2 ^ 32)
    (hfits : ∀ (k : Nat) n, lengths[k]? = some n → transferred (transfersTo (done ++ ws) k) ≤ n.toNat)
    (hrun : writeTransfers system files ws = .ok files') : FilesAfter lengths files' (done ++ ws) := by
  induction ws generalizing files done with
  | nil =>
    cases hrun
    rwa [List.append_nil]
  | cons w ws ih =>
    obtain ⟨hsize, hsizes⟩ := List.forall_mem_cons.mp hsize
    obtain ⟨hsmall, hsmalls⟩ := List.forall_mem_cons.mp hsmall
    obtain ⟨files₁, hstep, hrun⟩ := bind_ok hrun
    rw [List.append_cons] at hfits ⊢
    have hfirst := hfits _ _ hsize
    rw [transfersTo_append, transferred_append] at hfirst
    exact ih (h.step hsize hsmall (Nat.le_of_add_right_le hfirst) hstep) hsizes hsmalls hfits hrun

end

end BittorrentClient
