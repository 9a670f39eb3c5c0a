import BittorrentClient.Theorems.Files.Names
import BittorrentClient.Theorems.Files.Writes

/-! Where the files can be created. A file is created once, when it is not there: the system serves a torrent if none of
    its files is there before, and then the client can create them as long as no two of them have names for one file. -/

namespace BittorrentClient
open Outcome

/-- The names of the files, of the only one or of the list. -/
def TorrentClient.fileNames (client : TorrentClient) : List (List UInt8) :=
  match client.metainfo.info.length_or_files with
  | .monostate => []
  | .length _ => [client.metainfo.info.suggested_name_utf8]
  | .files multiFiles => multiFiles.map Metainfo.File.path_utf8

/-- The calls create a file of the name. -/
def Creates (calls : List FileCall) (name : List UInt8) : Prop := ∃ size, .create name size ∈ calls

/-- A file of one of the names is created unless a file of that name, or of another name for the same file, was created
    before, and what is created can be written. The sizes and offsets are those that a signed word has. -/
structure Win32.Serves (system : Win32) (same : Setoid (List UInt8)) (names : List (List UInt8)) : Prop where
  create : ∀ calls, ∀ name ∈ names, ∀ size : UInt64, size.toNat < 2 ^ 63 →
    (system calls (.create name size) = true ↔ ∀ file ∈ calls, ∀ name', Creates file name' → ¬same.r name name')
  write : ∀ calls bytes, ∀ offset : UInt64, offset.toNat < 2 ^ 63 → system calls (.write offset bytes) = true

/-- No two files that have bytes have the same name, or names for the same file. -/
def NamesApart (same : Setoid (List UInt8)) (lengths : List UInt64) (names : List (List UInt8)) : Prop :=
  (lengths.zip names).Pairwise fun a b => a.1 ≠ 0 → b.1 ≠ 0 → ¬same.r a.2 b.2

section
variable {system : Win32} {same : Setoid (List UInt8)} {lengths : List UInt64} {names : List (List UInt8)}

theorem NamesApart.not_same (h : NamesApart same lengths names) {k k' : Nat} {n n' : UInt64} {name name' : List UInt8}
    (hn : lengths[k]? = some n) (hn' : lengths[k']? = some n') (hname : names[k]? = some name)
    (hname' : names[k']? = some name') (hne : n ≠ 0) (hne' : n' ≠ 0) (hk : k ≠ k') : ¬same.r name name' := by
  have hzip : (lengths.zip names)[k]? = some (n, name) := List.getElem?_zip_eq_some.mpr ⟨hn, hname⟩
  have hzip' : (lengths.zip names)[k']? = some (n', name') := List.getElem?_zip_eq_some.mpr ⟨hn', hname'⟩
  obtain ⟨hlt, hget⟩ := List.getElem?_eq_some_iff.mp hzip
  obtain ⟨hlt', hget'⟩ := List.getElem?_eq_some_iff.mp hzip'
  have hpairs := List.pairwise_iff_getElem.mp h
  rcases Nat.lt_or_gt_of_ne hk with hless | hless
  · have hapart := hpairs k k' hlt hlt' hless
    rw [hget, hget'] at hapart
    exact hapart hne hne'
  · have hapart := hpairs k' k hlt' hlt hless
    rw [hget, hget'] at hapart
    exact fun hsame => hapart hne' hne (same.symm hsame)

theorem fileNames_eq {list : FilesList} {k : Nat} {n : UInt64} (hn : list.torrent.fileLengths[k]? = some n) :
    list.torrent.fileNames[k]? = some (list.fileName k) := by
  rw [TorrentClient.fileLengths] at hn
  rw [TorrentClient.fileNames, FilesList.fileName]
  cases hcontent : list.torrent.metainfo.info.length_or_files with
  | monostate =>
    rw [hcontent] at hn
    cases hn
  | length singleFile =>
    rw [hcontent] at hn
    have hlt := (List.getElem?_eq_some_iff.mp hn).1
    rw [List.length_singleton, Nat.lt_one_iff] at hlt
    rw [hlt]
    rfl
  | files multiFiles =>
    rw [hcontent] at hn
    have hlt := (List.getElem?_eq_some_iff.mp hn).1
    rw [List.length_map] at hlt
    simp only [List.getElem?_map, List.getElem?_eq_getElem hlt, List.getD_eq_getElem _ _ hlt, Option.map_some]

/-- What is created for a file has its name. -/
theorem Named.of_creates {list : FilesList} {files : List PhysicalFile} (h : Named list files) {k : Nat} {f : PhysicalFile}
    (hf : files[k]? = some f) {name : List UInt8} (hname : Creates f.calls name) : name = list.fileName k := by
  obtain ⟨size, hname⟩ := hname
  exact h k f hf name size hname

theorem answers_getD (system : Win32) (files : List PhysicalFile) (k : Nat) :
    FilesOnDisk.answers system files k (files.getD k {}) = system (files.map PhysicalFile.calls) := by
  rw [FilesOnDisk.answers]
  congr 2
  rcases Nat.lt_or_ge k files.length with hk | hk
  · rw [List.getD_eq_getElem _ _ hk, List.set_getElem_self]
  · exact List.set_eq_of_length_le hk

/-- Different names are those of different files. -/
def exactNames : Setoid (List UInt8) := ⟨Eq, eq_equivalence⟩

/-- A system with an empty disk: a file is created unless it is there. -/
def Win32.emptyDisk : Win32
  | calls, .create name _ => calls.all fun file => file.all fun
    | .create name' _ => name ≠ name'
    | _ => true
  | _, _ => true

theorem Win32.emptyDisk_serves (names : List (List UInt8)) : Win32.emptyDisk.Serves exactNames names where
  create := by
    intro calls name hname size hsize
    rw [Win32.emptyDisk, List.all_eq_true]
    refine forall₂_congr ?_
    intro file hfile
    rw [List.all_eq_true]
    constructor
    · rintro hall name' ⟨size', hcreated⟩
      have hne : name ≠ name' := of_decide_eq_true (hall _ hcreated)
      exact hne
    · intro hnone call hcall
      cases call with
      | create name' size' =>
        have hne : name ≠ name' := hnone name' ⟨size', hcall⟩
        exact decide_eq_true hne
      | write offset bytes => rfl
      | close => rfl
  write := fun _ _ _ _ => rfl

/-! ### A run needs different names -/

/-- The files that were created have different names. -/
def CreatedApart (same : Setoid (List UInt8)) (files : List PhysicalFile) : Prop :=
  ∀ (k k' : Nat) f f', files[k]? = some f → files[k']? = some f' → k ≠ k' → ∀ name name', Creates f.calls name →
    Creates f'.calls name' → ¬same.r name name'

variable {files files' : List PhysicalFile} {done ws : List Transfer} {w : Transfer}

theorem CreatedApart.step (hserves : system.Serves same names) (h : CreatedApart same files) (hname : w.1.file_name ∈ names)
    (hsize : w.1.file_size.toNat < 2 ^ 63) (hwrite : FilesOnDisk.onWriteFilePiece system files w.1 w.2 = .ok files') :
    CreatedApart same files' := by
  obtain ⟨hpasses, f₁, hpiece, rfl⟩ := onWriteFilePiece_ok_iff.mp hwrite
  have hindex := (checkFilePiece_ok.mp hpasses.checked).1
  -- The file of the piece was created before, or it is created now, and no file of its name was.
  have hfile : ∀ (k : Nat) f, files[k]? = some f → w.1.file_index ≠ k → ∀ name name', Creates f₁.calls name →
      Creates f.calls name' → ¬same.r name name' := by
    rintro k f hf hk name name' ⟨size, hcreated⟩ hcreated'
    rcases PhysicalFile.create_mem_opened _ _ (PhysicalFile.create_mem_writePiece _ _ hpiece hcreated) with hbefore | hnew
    · rw [List.getD_eq_getElem _ _ hindex] at hbefore
      exact h _ k _ f (List.getElem?_eq_getElem hindex) hf hk name name' ⟨size, hbefore⟩ hcreated'
    · obtain ⟨hclosed, rfl⟩ := hnew
      have hanswer := hpasses.created hclosed
      rw [answers_getD] at hanswer
      exact (hserves.create _ _ hname _ hsize).mp hanswer _ (List.mem_map_of_mem (List.mem_of_getElem? hf)) name' hcreated'
  intro k k' f f' hf hf' hk name name' hcreated hcreated'
  rw [List.getElem?_set] at hf hf'
  by_cases hkw : w.1.file_index = k
  · rw [if_pos hkw, if_pos hindex] at hf
    cases hf
    rw [if_neg (hkw ▸ hk)] at hf'
    exact hfile k' f' hf' (hkw ▸ hk) name name' hcreated hcreated'
  · rw [if_neg hkw] at hf
    by_cases hkw' : w.1.file_index = k'
    · rw [if_pos hkw', if_pos hindex] at hf'
      cases hf'
      exact fun hsame => hfile k f hf hkw name' name hcreated' hcreated (same.symm hsame)
    · rw [if_neg hkw'] at hf'
      exact h k k' f f' hf hf' hk name name' hcreated hcreated'

theorem CreatedApart.run (hserves : system.Serves same names) (h : CreatedApart same files)
    (hname : ∀ w ∈ ws, w.1.file_name ∈ names) (hsize : ∀ w ∈ ws, w.1.file_size.toNat < 2 ^ 63)
    (hrun : writeTransfers system files ws = .ok files') : CreatedApart same files' := by
  induction ws generalizing files with
  | nil =>
    cases hrun
    exact h
  | cons w ws ih =>
    obtain ⟨hname, hnames⟩ := List.forall_mem_cons.mp hname
    obtain ⟨hsize, hsizes⟩ := List.forall_mem_cons.mp hsize
    obtain ⟨files₁, hwrite, hrun⟩ := bind_ok hrun
    exact ih (h.step hserves hname hsize hwrite) hnames hsizes hrun

theorem createdApart_make (list : FilesList) (system : Win32) : CreatedApart same (FilesOnDisk.make list system).files := by
  rintro k k' f f' hf - - name name' ⟨size, hcreated⟩
  rw [List.eq_of_mem_replicate (List.mem_of_getElem? hf)] at hcreated
  cases hcreated

end

end BittorrentClient
