import BittorrentClient.Theorems.Files.Calls

/-! The names under which the files are created: each has the name that the torrent gives it. -/

namespace BittorrentClient
open Outcome

/-- The name of a file by its index. -/
def FilesList.fileName (list : FilesList) (k : Nat) : List UInt8 :=
  match list.torrent.metainfo.info.length_or_files with
  | .files files => (files.getD k {}).path_utf8
  | _ => list.torrent.metainfo.info.suggested_name_utf8

/-- A file that is created has its name. -/
def Named (list : FilesList) (files : List PhysicalFile) : Prop :=
  ∀ (k : Nat) f, files[k]? = some f → ∀ name size, .create name size ∈ f.calls → name = list.fileName k

section
variable {list : FilesList} {system : Win32} {files files' : List PhysicalFile} {pieces : List FilePiece} {piece : FilePiece}
  {data : List UInt8}

theorem named_filePieces {a b offset : UInt64} (offsets : List FileOffset) :
    ∀ piece ∈ (list.filePieces a b offset offsets).1, piece.file_name = list.fileName piece.file_index := by
  induction offsets generalizing offset with
  | nil => exact List.forall_mem_nil _
  | cons fo offsets ih =>
    rw [FilesList.filePieces]
    refine List.forall_mem_cons.mpr ⟨?_, ih⟩
    cases hcontent : list.torrent.metainfo.info.length_or_files <;>
      simp only [FilesList.filePiece, FilesList.fileName, hcontent]

theorem named_iterateFiles {i : UInt32} (h : list.iterateFiles i = .ok pieces) :
    ∀ piece ∈ pieces, piece.file_name = list.fileName piece.file_index := by
  obtain ⟨_, -, h⟩ := bind_ok h
  obtain ⟨_, -, h⟩ := bind_ok h
  obtain ⟨_, -, h⟩ := bind_ok h
  obtain ⟨_, -, h⟩ := bind_ok h
  obtain ⟨_, -, h⟩ := bind_ok h
  obtain ⟨_, -, h⟩ := bind_ok h
  obtain ⟨_, -, h⟩ := bind_ok h
  obtain ⟨_, -, h⟩ := bind_ok h
  cases h
  exact named_filePieces _

/-- The only file that is created for a piece of a file is that file. -/
theorem calls_onWriteFilePiece (h : FilesOnDisk.onWriteFilePiece system files piece data = .ok files') :
    ∃ f', files' = files.set piece.file_index f' ∧ ∀ name size, .create name size ∈ f'.calls →
      .create name size ∈ (files.getD piece.file_index {}).calls ∨
        (files.getD piece.file_index {}).file = false ∧ name = piece.file_name := by
  obtain ⟨-, f', hwrite, rfl⟩ := onWriteFilePiece_ok_iff (w := (piece, data)).mp h
  refine ⟨f', rfl, ?_⟩
  intro name size hmem
  exact PhysicalFile.create_mem_opened _ _ (PhysicalFile.create_mem_writePiece _ _ hwrite hmem)

theorem Named.onWriteFilePiece (hnamed : Named list files) (hpiece : piece.file_name = list.fileName piece.file_index)
    (h : FilesOnDisk.onWriteFilePiece system files piece data = .ok files') : Named list files' := by
  obtain ⟨f', rfl, hcalls⟩ := calls_onWriteFilePiece h
  intro k f hf name size hmem
  rw [List.getElem?_set] at hf
  split at hf
  · rename_i heq
    subst heq
    split at hf
    · rename_i hlt
      cases hf
      rcases hcalls name size hmem with hbefore | ⟨-, hname⟩
      · rw [List.getD_eq_getElem _ _ hlt] at hbefore
        exact hnamed _ _ (List.getElem?_eq_getElem hlt) name size hbefore
      · exact hname.trans hpiece
    · cases hf
  · exact hnamed k f hf name size hmem

theorem Named.onWriteFilePieces (hnamed : Named list files)
    (hpieces : ∀ piece ∈ pieces, piece.file_name = list.fileName piece.file_index)
    (h : FilesOnDisk.onWriteFilePieces system files data pieces = .ok files') : Named list files' := by
  induction pieces generalizing files with
  | nil =>
    cases h
    exact hnamed
  | cons piece pieces ih =>
    obtain ⟨hpiece, hpieces⟩ := List.forall_mem_cons.mp hpieces
    obtain ⟨files₁, hwrite, h⟩ := bind_ok h
    exact ih (hnamed.onWriteFilePiece hpiece hwrite) hpieces h

/-- Whatever pieces are written. -/
theorem named_writePieces {disk disk' : FilesOnDisk} {states : List PieceState} (hnamed : Named disk.files_list disk.files)
    (h : disk.writePieces states = .ok disk') : Named disk.files_list disk'.files := by
  induction states generalizing disk with
  | nil =>
    cases h
    exact hnamed
  | cons state states ih =>
    obtain ⟨⟨disk₁, state'⟩, hwrite, h⟩ := bind_ok h
    obtain ⟨_, -, hwrite⟩ := bind_ok hwrite
    obtain ⟨pieces, hpieces, hwrite⟩ := bind_ok hwrite
    obtain ⟨files, hfiles, hwrite⟩ := bind_ok hwrite
    cases hwrite
    exact @ih { disk with files := files } (hnamed.onWriteFilePieces (named_iterateFiles hpieces) hfiles) h

theorem named_make (list : FilesList) (system : Win32) : Named list (FilesOnDisk.make list system).files := by
  intro k f hf name size hmem
  rw [List.eq_of_mem_replicate (List.mem_of_getElem? hf)] at hmem
  cases hmem

end

end BittorrentClient
