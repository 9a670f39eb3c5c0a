import BittorrentClient.Theorems.Files.Disk

/-! What the files have of a torrent of which distinct pieces are written, some of them or all. -/

namespace BittorrentClient
open Blocks FlatMemory Outcome Words

/-- The writes to a file that should have the bytes: each writes some of them where they belong, and none is written
    twice. -/
structure TrueWrites (bytes : List UInt8) (writes : List (UInt64 × List UInt8)) : Prop where
  some : ∀ w ∈ writes, w.2 ≠ []
  inside : ∀ w ∈ writes, w.1.toNat + w.2.length ≤ bytes.length
  same : ∀ w ∈ writes, w.2 = (bytes.drop w.1.toNat).take w.2.length
  once : (writes.map fun w => Block.mk w.1.toNat w.2.length).Pairwise Block.Apart

section
variable {client : TorrentClient} {list : FilesList} {p : PiecesToDownload} {order : List UInt32}
  {states : UInt32 → PieceState} {system : Win32} {disk : FilesOnDisk} {k : Nat} {n : UInt64}

/-- While distinct pieces are written, every file is created once, before the first write, and closed once, after the
    one that completes it, and has only bytes of the torrent. -/
theorem trueWrites_of_run (h : Distinct client list p order)
    (hdata : ∀ i < p.pieces_count, (states i).data.length = (list.rangeBlock i).length)
    (hlength : (concatenation states p.pieces_count).length = sumLengths client.fileLengths)
    (hrun : writeTransfers system (FilesOnDisk.make list system).files (transfers list states order) = .ok disk.files)
    {f : PhysicalFile} (hn : client.fileLengths[k]? = some n) (hf : disk.files[k]? = some f) :
    ∃ name writes, f.calls = callsFor name n writes ∧
      (writes.map fun w => w.2.length).sum = transferred (transfersTo (transfers list states order) k) ∧
      TrueWrites (((concatenation states p.pieces_count).drop (fileStart client.fileLengths k)).take n.toNat) writes := by
  obtain ⟨name, hcalls⟩ := ((h.filesAfter hrun).after k n f hn hf).calls
  have hmem : ∀ w ∈ transfersTo (transfers list states order) k, w ∈ transfers list states order :=
    fun w hw => (List.mem_filter.mp hw).1
  have hindex : ∀ w ∈ transfersTo (transfers list states order) k, w.1.file_index = k :=
    fun w hw => of_decide_eq_true (List.mem_filter.mp hw).2
  have hcount : ∀ w ∈ transfersTo (transfers list states order) k, w.bytes.length = w.1.bytes_count.toNat :=
    fun w hw => length_bytes_transfer h hdata (hmem w hw)
  have hinside : ∀ w ∈ transfersTo (transfers list states order) k,
      w.1.file_offset.toNat + w.bytes.length ≤ n.toNat := by
    intro w hw
    obtain ⟨hsize, hle⟩ := h.size (hmem w hw)
    rw [hindex w hw] at hsize
    cases hn.symm.trans hsize
    rw [hcount w hw]
    exact hle
  have hblock : (fileBlocks client.fileLengths)[k]? = some ⟨fileStart client.fileLengths k, n.toNat⟩ := by
    rw [getElem?_fileBlocks, hn]
    rfl
  have hstop : fileStart client.fileLengths k + n.toNat ≤ sumLengths client.fileLengths :=
    (laid_fileBlocks client.fileLengths).stop_le hblock
  have hslice : (((concatenation states p.pieces_count).drop (fileStart client.fileLengths k)).take n.toNat).length =
      n.toNat := by
    rw [List.length_take, List.length_drop, hlength]
    omega
  obtain ⟨heq, hsum⟩ := @fileCalls_eq name n _ hcount
  refine ⟨name, _, hcalls.trans heq, hsum, ?_, ?_, ?_, ?_⟩
  · refine List.forall_mem_map.mpr ?_
    intro w hw hnil
    have hpos := writeTransfers_pos hrun w (hmem w hw)
    rw [← hcount w hw, show w.bytes = [] from hnil] at hpos
    exact Nat.lt_irrefl 0 hpos
  · rw [hslice]
    exact List.forall_mem_map.mpr hinside
  · refine List.forall_mem_map.mpr ?_
    intro w hw
    have hle := hinside w hw
    refine List.ext_getElem? ?_
    intro x
    dsimp only
    rcases Nat.lt_or_ge x w.bytes.length with hx | hx
    · rw [getElem?_bytes_transfer h hdata (hmem w hw) hx, hindex w hw, List.getElem?_take_of_lt hx, List.getElem?_drop,
        List.getElem?_take_of_lt (by omega), List.getElem?_drop, Nat.add_assoc]
    · rw [List.getElem?_eq_none hx, List.getElem?_eq_none (Nat.le_trans (List.length_take_le _ _) hx)]
  · have hblocks : (transfersTo (transfers list states order) k).map
        ((fun w => Block.mk w.1.toNat w.2.length) ∘ fun w => (w.1.file_offset, w.bytes)) =
          (transfersTo (transfers list states order) k).map Transfer.fileBlock :=
      List.map_congr_left fun w hw => congrArg (Block.mk w.1.file_offset.toNat) (hcount w hw)
    rw [List.map_map, hblocks]
    exact h.fileBlocks_apart k

/-! ### All pieces -/

theorem transferred_all (h : Distinct client list p order) {total : Nat} (hlaid : Laid 0 (list.rangeBlocks p.pieces_count) total)
    (horder : order.Perm ((List.range p.pieces_count.toNat).map UInt32.ofNat)) :
    transferred (transfers list states order) = total := by
  have hblocks := horder.map list.rangeBlock
  rw [List.map_map] at hblocks
  rw [h.transferred_eq, total_perm hblocks, ← hlaid.total_eq, Nat.zero_add]
  rfl

/-- A run that writes every piece writes as many bytes as the pieces have, or the files. -/
theorem toNat_totalWritten_all (hsum : sumLengths client.fileLengths < 2 ^ 64) (hlist : FilesList.make client = .ok list)
    (hp : PiecesToDownload.initial client = .ok p) (hindex : ∀ i, (states i).piece_index = i)
    (horder : order.Perm ((List.range p.pieces_count.toNat).map UInt32.ofNat))
    (hrun : (FilesOnDisk.make list system).writePieces (order.map states) = .ok disk) :
    disk.totalWritten.toNat = min (p.pieces_count.toNat * p.piece_size.toNat) p.total_size.toNat := by
  obtain ⟨hpasses, hrun⟩ := writePieces_ok hindex hrun
  obtain ⟨hdistinct, -, hlaid⟩ := distinct_of_run hsum hlist hp horder hpasses
  rw [(hdistinct.toNat_totalWritten hrun).1, transferred_all hdistinct hlaid horder]

/-- A file that is complete: it was created and closed once, and has the bytes. -/
def PhysicalFile.Whole (f : PhysicalFile) (n : UInt64) (bytes : List UInt8) : Prop :=
  fileContent f.calls = bytes ∧ ∃ name writes, f.calls = callsFor name n writes ∧
    (writes.map fun w => w.2.length).sum = n.toNat ∧ TrueWrites bytes writes

/-- A run that writes every piece of its size completes every file, where the torrent ends inside its last piece. -/
theorem whole_of_run (hsum : sumLengths client.fileLengths < 2 ^ 64) (hmake : FilesList.make client = .ok list)
    (hp : PiecesToDownload.initial client = .ok p) (hindex : ∀ i, (states i).piece_index = i)
    (hdata : ∀ i < p.pieces_count, ∃ n, p.getPieceSize i = .ok n ∧ (states i).data.length = n.toNat)
    (horder : order.Perm ((List.range p.pieces_count.toNat).map UInt32.ofNat))
    (hrun : (FilesOnDisk.make list system).writePieces (order.map states) = .ok disk)
    (hle : p.total_size.toNat ≤ p.pieces_count.toNat * p.piece_size.toNat)
    (hn : client.fileLengths[k]? = some n) (hne : n ≠ 0) : ∃ f, disk.files[k]? = some f ∧
      f.Whole n (((concatenation states p.pieces_count).drop (fileStart client.fileLengths k)).take n.toNat) := by
  obtain ⟨hpasses, hrun⟩ := writePieces_ok hindex hrun
  obtain ⟨hdistinct, hsmall, hlaid⟩ := distinct_of_run hsum hmake hp horder hpasses
  have htotal : p.total_size.toNat = sumLengths client.fileLengths := toNat_getTotalSizeBytes hsum (initial_eq hp).2
  rw [Nat.min_eq_right hle] at hlaid
  have hdata : ∀ i < p.pieces_count, (states i).data.length = (list.rangeBlock i).length := by
    intro i hi
    obtain ⟨n, hn, hlength⟩ := hdata i hi
    rw [hlength]
    exact length_data hmake hp hsmall hle (fun i hi => ⟨_, hpasses i ((mem_order horder).mpr hi)⟩) hi hn
  have hlength : (concatenation states p.pieces_count).length = sumLengths client.fileLengths := by
    rw [← htotal, ← Nat.zero_add (concatenation states p.pieces_count).length]
    exact hlaid.length_flatten (map_length_data hdata)
  have htransferred : transferred (transfers list states order) = sumLengths client.fileLengths :=
    (transferred_all hdistinct hlaid horder).trans htotal
  have hfull := transferred_full hdistinct htransferred hn
  have hafter := hdistinct.filesAfter hrun
  have hk : k < disk.files.length := hafter.length ▸ (List.getElem?_eq_some_iff.mp hn).1
  have hf := List.getElem?_eq_getElem hk
  obtain ⟨name, hcalls⟩ := (hafter.after k n _ hn hf).calls
  have hcontent := content_of_full hdistinct hdata hlength hn hne hfull name
  obtain ⟨name, writes, hwritten, htotal, htrue⟩ := trueWrites_of_run hdistinct hdata hlength hrun hn hf
  exact ⟨_, hf, by rw [hcalls]; exact hcontent, name, writes, hwritten, htotal.trans hfull, htrue⟩

end

end BittorrentClient
