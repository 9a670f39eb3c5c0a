import BittorrentClient.Theorems.Files.Writes
import BittorrentClient.Theorems.Geometry
import BittorrentClient.Theorems.Make
import Mathlib.Algebra.BigOperators.Fin
import Mathlib.Algebra.Order.BigOperators.Group.Finset

/-! The pieces of a torrent on disk. A run that writes every piece once, in any order and without a failed assertion,
    leaves the files as the torrent has them exactly when the torrent ends inside its last piece. -/

namespace BittorrentClient
open Blocks Memcpy Outcome Words FlatMemory

/-! ### Transfers -/

/-- The file pieces that a piece is cut into. -/
def piecesOf (list : FilesList) (i : UInt32) : List FilePiece := (list.iterateFiles i).toOption.getD []

/-- The transfers of the pieces, one after the other. -/
def transfers (list : FilesList) (states : UInt32 → PieceState) (order : List UInt32) : List Transfer :=
  order.flatMap fun i => (piecesOf list i).map fun piece => (piece, (states i).data)

/-- The run of the pieces is the run of their transfers. -/
theorem writePieces_ok {states : UInt32 → PieceState} (hindex : ∀ i, (states i).piece_index = i) {order : List UInt32}
    {disk disk' : FilesOnDisk} (h : disk.writePieces (order.map states) = .ok disk') :
    (∀ i ∈ order, disk.files_list.iterateFiles i = .ok (piecesOf disk.files_list i)) ∧
      writeTransfers disk.system disk.files (transfers disk.files_list states order) = .ok disk'.files := by
  induction order generalizing disk with
  | nil =>
    cases h
    exact ⟨nofun, rfl⟩
  | cons i order ih =>
    obtain ⟨⟨disk₁, state⟩, hwrite, h⟩ := bind_ok h
    obtain ⟨_, -, hwrite⟩ := bind_ok hwrite
    obtain ⟨pieces, hpieces, hwrite⟩ := bind_ok hwrite
    obtain ⟨files, hfiles, hwrite⟩ := bind_ok hwrite
    cases hwrite
    rw [hindex] at hpieces
    have hpiecesOf : piecesOf disk.files_list i = pieces := by
      rw [piecesOf, hpieces]
      rfl
    obtain ⟨hrest, hrun⟩ := ih h
    refine ⟨List.forall_mem_cons.mpr ⟨by rw [hpiecesOf, hpieces], hrest⟩, ?_⟩
    rw [transfers, List.flatMap_cons, ← transfers, writeTransfers_append, hpiecesOf, ← onWriteFilePieces_eq, hfiles]
    exact hrun

section
variable {client : TorrentClient} {list : FilesList} {p : PiecesToDownload}

theorem iterateFiles_ok {i : UInt32} {pieces : List FilePiece} (h : list.iterateFiles i = .ok pieces) :
    list.iterateRange (list.pieceRange i).1 (list.pieceRange i).2 = .ok pieces := by
  obtain ⟨_, -, h⟩ := bind_ok h
  exact h

/-- Where no piece trips the assertion about its range, no range has wrapped, and the ranges follow each other. -/
theorem laid_rangeBlocks (hlist : FilesList.make client = .ok list) (hp : PiecesToDownload.initial client = .ok p)
    (hlt : ∀ i < p.pieces_count, (list.pieceRange i).1 < (list.pieceRange i).2) {k : Nat} (hk : k ≤ p.pieces_count.toNat) :
    k * p.piece_size.toNat < 2 ^ 32 ∧ Laid 0 ((List.range k).map fun i => list.rangeBlock (UInt32.ofNat i))
      (min (k * p.piece_size.toNat) p.total_size.toNat) := by
  induction k with
  | zero =>
    rw [Nat.zero_mul, Nat.zero_min]
    exact ⟨by decide, rfl⟩
  | succ k ih =>
    obtain ⟨hsmall, hlaid⟩ := ih (Nat.le_of_succ_le hk)
    have hindex : (UInt32.ofNat k).toNat = k := UInt32.toNat_ofNat_of_lt (Nat.lt_trans hk p.pieces_count.toNat_lt)
    have hi : UInt32.ofNat k < p.pieces_count := UInt32.lt_iff_toNat_lt.mpr (by rw [hindex]; exact hk)
    obtain ⟨hstart, hend⟩ := pieceRange_toNat hlist hp hi
    have hlt := UInt64.lt_iff_toNat_lt.mp (hlt _ hi)
    rw [hindex, Nat.mod_eq_of_lt hsmall] at hstart
    rw [hindex] at hend
    have hsize := p.piece_size.toNat_lt
    have hsucc : (k + 1) * p.piece_size.toNat = k * p.piece_size.toNat + p.piece_size.toNat := Nat.succ_mul _ _
    -- An end that has wrapped lies before the start.
    have hwhole : (k + 1) * p.piece_size.toNat < 2 ^ 32 := by omega
    rw [Nat.mod_eq_of_lt hwhole] at hend
    refine ⟨hwhole, ?_⟩
    rw [List.range_succ, List.map_append]
    refine Laid.append_iff.mpr ⟨_, hlaid, ?_, ?_⟩
    · show (list.pieceRange (UInt32.ofNat k)).1.toNat = _
      omega
    · show (list.pieceRange (UInt32.ofNat k)).1.toNat +
        ((list.pieceRange (UInt32.ofNat k)).2.toNat - (list.pieceRange (UInt32.ofNat k)).1.toNat) = _
      omega

end

/-! ### The transfers of distinct pieces -/

/-- The bytes of the torrent that are written. -/
def Transfer.torrentBlock (lengths : List UInt64) (w : Transfer) : Block :=
  ⟨fileStart lengths w.1.file_index + w.1.file_offset.toNat, w.1.bytes_count.toNat⟩

/-- Distinct pieces that pass the assertions about their ranges, and these follow each other. -/
structure Distinct (client : TorrentClient) (list : FilesList) (p : PiecesToDownload) (order : List UInt32) : Prop where
  sum : sumLengths client.fileLengths < 2 ^ 64
  make : FilesList.make client = .ok list
  initial : PiecesToDownload.initial client = .ok p
  nodup : order.Nodup
  lt : ∀ i ∈ order, i < p.pieces_count
  passes : ∀ i ∈ order, list.iterateFiles i = .ok (piecesOf list i)
  laid : ∃ e, Laid 0 (list.rangeBlocks p.pieces_count) e

section
variable {client : TorrentClient} {list : FilesList} {p : PiecesToDownload} {order : List UInt32}
  {states : UInt32 → PieceState}

theorem mem_transfers {w : Transfer} (h : w ∈ transfers list states order) :
    ∃ i ∈ order, w.1 ∈ piecesOf list i ∧ w.2 = (states i).data := by
  obtain ⟨i, hi, hw⟩ := List.mem_flatMap.mp h
  obtain ⟨piece, hpiece, rfl⟩ := List.mem_map.mp hw
  exact ⟨i, hi, hpiece, rfl⟩

theorem getElem?_rangeBlocks {i : UInt32} (hi : i < p.pieces_count) :
    (list.rangeBlocks p.pieces_count)[i.toNat]? = some (list.rangeBlock i) := by
  rw [FilesList.rangeBlocks, List.getElem?_map, List.getElem?_range (UInt32.lt_iff_toNat_lt.mp hi)]
  simp only [Option.map_some, UInt32.ofNat_toNat]

namespace Distinct
variable (h : Distinct client list p order)
include h

theorem tiling {i : UInt32} (hi : i ∈ order) :
    FileTiling client.fileLengths (list.pieceRange i).1 (list.pieceRange i).2 (piecesOf list i) :=
  (FilesList.make_exact h.sum h.make).fileTiling (iterateFiles_ok (h.passes i hi))

/-- The bytes of a transfer are those of its piece. -/
theorem torrentBlock_eq {i : UInt32} (hi : i ∈ order) {piece : FilePiece} (hpiece : piece ∈ piecesOf list i)
    (data : List UInt8) : Transfer.torrentBlock client.fileLengths (piece, data) =
      ⟨(list.rangeBlock i).start + piece.piece_offset.toNat, piece.bytes_count.toNat⟩ ∧
      piece.piece_offset.toNat + piece.bytes_count.toNat ≤ (list.rangeBlock i).length := by
  have htiling := h.tiling hi
  refine ⟨congrArg (Block.mk · _) (htiling.placed piece hpiece), ?_⟩
  obtain ⟨n, hn⟩ := List.mem_iff_getElem?.mp (List.mem_map_of_mem (f := FilePiece.block) hpiece)
  exact htiling.laid.stop_le hn

theorem mem_rangeBlock {i : UInt32} (hi : i ∈ order) {w : Transfer} (hw : w.1 ∈ piecesOf list i) {x : Nat}
    (hx : x ∈ w.torrentBlock client.fileLengths) : x ∈ list.rangeBlock i := by
  obtain ⟨hblock, hle⟩ := h.torrentBlock_eq hi hw w.2
  rw [show w = (w.1, w.2) from rfl, hblock, Block.mem_iff] at hx
  rw [Block.mem_iff]
  simp only [Block.stop] at hx ⊢
  omega

/-- The bytes of the torrent are written at most once. -/
theorem apart : ((transfers list states order).map (Transfer.torrentBlock client.fileLengths)).Pairwise Block.Apart := by
  rw [List.pairwise_map, transfers, List.pairwise_flatMap]
  refine ⟨?_, ?_⟩
  · intro i hi
    have hdisjoint := (h.tiling hi).disjoint
    rw [List.pairwise_map] at hdisjoint ⊢
    refine hdisjoint.imp_of_mem ?_
    intro piece piece' hpiece hpiece' hapart x hx hx'
    rw [(h.torrentBlock_eq hi hpiece _).1, Block.mem_iff] at hx
    rw [(h.torrentBlock_eq hi hpiece' _).1, Block.mem_iff] at hx'
    refine hapart (x - (list.rangeBlock i).start) ?_ ?_ <;> rw [Block.mem_iff] <;>
      simp only [FilePiece.block, Block.stop] at hx hx' ⊢ <;> omega
  · refine h.nodup.imp_of_mem ?_
    intro i j hi hj hne w hw w' hw' x hx hx'
    obtain ⟨piece, hpiece, rfl⟩ := List.mem_map.mp hw
    obtain ⟨piece', hpiece', rfl⟩ := List.mem_map.mp hw'
    obtain ⟨e, hlaid⟩ := h.laid
    have heq := hlaid.index_unique (getElem?_rangeBlocks (h.lt i hi)) (getElem?_rangeBlocks (h.lt j hj))
      (h.mem_rangeBlock hi hpiece hx) (h.mem_rangeBlock hj hpiece' hx')
    exact hne (UInt32.toNat_inj.mp heq)

theorem size {w : Transfer} (hw : w ∈ transfers list states order) :
    client.fileLengths[w.1.file_index]? = some w.1.file_size ∧
      w.1.file_offset.toNat + w.1.bytes_count.toNat ≤ w.1.file_size.toNat := by
  obtain ⟨i, hi, hpiece, -⟩ := mem_transfers hw
  exact (h.tiling hi).inside _ hpiece

theorem small {w : Transfer} (hw : w ∈ transfers list states order) : w.1.bytes_count.toNat < 2 ^ 32 := by
  obtain ⟨i, hi, hpiece, -⟩ := mem_transfers hw
  have hle := (h.torrentBlock_eq hi hpiece w.2).2
  have hend := (pieceRange_toNat h.make h.initial (h.lt i hi)).2
  have hmod := Nat.mod_lt ((i.toNat + 1) * p.piece_size.toNat) (show 0 < 2 ^ 32 by decide)
  simp only [FilesList.rangeBlock] at hle
  omega

/-- The bytes of a file are written at most once. -/
theorem fileBlocks_apart (k : Nat) : ((transfersTo (transfers list states order) k).map Transfer.fileBlock).Pairwise
    Block.Apart := by
  have hapart : ((transfers list states order).map (Transfer.torrentBlock client.fileLengths)).Pairwise Block.Apart :=
    h.apart
  rw [List.pairwise_map] at hapart ⊢
  refine (hapart.filter _).imp_of_mem ?_
  intro w w' hw hw' hapart x hx hx'
  have hk : w.1.file_index = k := of_decide_eq_true (List.mem_filter.mp hw).2
  have hk' : w'.1.file_index = k := of_decide_eq_true (List.mem_filter.mp hw').2
  rw [Block.mem_iff] at hx hx'
  refine hapart (fileStart client.fileLengths k + x) ?_ ?_ <;> rw [Block.mem_iff] <;>
    simp only [Transfer.fileBlock, Transfer.torrentBlock, Block.stop, hk, hk'] at hx hx' ⊢ <;> omega

theorem fileBlocks_inside {k : Nat} {n : UInt64} (hn : client.fileLengths[k]? = some n) :
    ∀ block ∈ (transfersTo (transfers list states order) k).map Transfer.fileBlock, block.stop ≤ n.toNat := by
  refine List.forall_mem_map.mpr ?_
  intro w hw
  obtain ⟨hw, hk⟩ := List.mem_filter.mp hw
  obtain ⟨hsize, hle⟩ := h.size hw
  rw [of_decide_eq_true hk] at hsize
  cases hn.symm.trans hsize
  exact hle

theorem fits {k : Nat} {n : UInt64} (hn : client.fileLengths[k]? = some n) :
    transferred (transfersTo (transfers list states order) k) ≤ n.toNat :=
  total_le (h.fileBlocks_apart k) (h.fileBlocks_inside hn)

/-- The files after the pieces are written. -/
theorem filesAfter {system : Win32} {files : List PhysicalFile}
    (hrun : writeTransfers system (FilesOnDisk.make list system).files (transfers list states order) = .ok files) :
    FilesAfter client.fileLengths files (transfers list states order) := by
  have hexact := FilesList.make_exact h.sum h.make
  have hlength := congrArg List.length hexact.blocks
  rw [List.length_map, fileBlocks, length_layOut, List.length_map] at hlength
  have hinitial : FilesAfter client.fileLengths (FilesOnDisk.make list system).files [] := by
    refine ⟨by rw [FilesOnDisk.make, List.length_replicate, hlength], ?_⟩
    intro k n f hn hf
    obtain rfl := List.eq_of_mem_replicate (List.mem_of_getElem? hf)
    exact PhysicalFile.after_nil n
  exact hinitial.run (fun w hw => (h.size hw).1) (fun w hw => h.small hw) (fun k n hn => h.fits hn) hrun

end Distinct

/-! ### Totals -/

theorem sum_map_eq {α : Type} (xs : List α) (f : α → Nat) (d : α) :
    (xs.map f).sum = ∑ k ∈ Finset.range xs.length, f (xs.getD k d) := by
  rw [← Fin.sum_univ_fun_getElem, Finset.sum_range]
  refine Finset.sum_congr rfl ?_
  intro k _
  rw [List.getD_eq_getElem _ _ k.isLt]

/-- Each transfer is to one file. -/
theorem sum_transferred {m : Nat} {ws : List Transfer} (h : ∀ w ∈ ws, w.1.file_index < m) :
    ∑ k ∈ Finset.range m, transferred (transfersTo ws k) = transferred ws := by
  induction ws with
  | nil => exact Finset.sum_const_zero
  | cons w ws ih =>
    obtain ⟨hw, hws⟩ := List.forall_mem_cons.mp h
    have hcons : ∀ k, transferred (transfersTo (w :: ws) k) =
        (if w.1.file_index = k then w.fileBlock.length else 0) + transferred (transfersTo ws k) := by
      intro k
      rw [transfersTo, List.filter_cons]
      by_cases hk : w.1.file_index = k
      · rw [if_pos (decide_eq_true hk), if_pos hk]
        rfl
      · rw [if_neg (by simpa using hk), if_neg hk, Nat.zero_add]
        rfl
    simp only [hcons]
    rw [Finset.sum_add_distrib, ih hws, Finset.sum_ite_eq, if_pos (Finset.mem_range.mpr hw)]
    rfl

theorem foldl_written {files : List PhysicalFile} {start : UInt64}
    (h : start.toNat + (files.map fun f => f.written.toNat).sum < 2 ^ 64) :
    (files.foldl (fun total f => total + f.written) start).toNat =
      start.toNat + (files.map fun f => f.written.toNat).sum := by
  induction files generalizing start with
  | nil => rfl
  | cons f files ih =>
    rw [List.map_cons, List.sum_cons, ← Nat.add_assoc] at h ⊢
    have hstart : (start + f.written).toNat = start.toNat + f.written.toNat := by
      rw [UInt64.toNat_add]
      exact Nat.mod_eq_of_lt (by omega)
    rw [List.foldl_cons, ih (by rw [hstart]; exact h), hstart]

/-- What is counted as written is what was transferred. -/
theorem FilesAfter.sum_written {lengths : List UInt64} {files : List PhysicalFile} {ws : List Transfer}
    (h : FilesAfter lengths files ws) (hsize : ∀ w ∈ ws, lengths[w.1.file_index]? = some w.1.file_size) :
    (files.map fun f => f.written.toNat).sum = transferred ws := by
  rw [sum_map_eq files _ {}, h.length, ← sum_transferred fun w hw => (List.getElem?_eq_some_iff.mp (hsize w hw)).1]
  refine Finset.sum_congr rfl ?_
  intro k hk
  have hk := Finset.mem_range.mp hk
  have hf : files[k]? = some (files.getD k {}) := by
    rw [List.getElem?_eq_getElem (h.length ▸ hk), List.getD_eq_getElem _ _ (h.length ▸ hk)]
  exact (h.after k _ _ (List.getElem?_eq_getElem hk) hf).written

namespace Distinct
variable (h : Distinct client list p order)
include h

theorem transferred_eq : transferred (transfers list states order) = total (order.map list.rangeBlock) := by
  have hpieces : ∀ i ∈ order, transferred ((piecesOf list i).map fun piece => (piece, (states i).data)) =
      (list.rangeBlock i).length := by
    intro i hi
    have htotal := (h.tiling hi).laid.total_eq
    rw [Nat.zero_add] at htotal
    rw [FilesList.rangeBlock, ← htotal, transferred, total, total, List.map_map, List.map_map, List.map_map]
    rfl
  clear h
  induction order with
  | nil => rfl
  | cons i order ih =>
    obtain ⟨hi, hrest⟩ := List.forall_mem_cons.mp hpieces
    rw [transfers, List.flatMap_cons, ← transfers, transferred_append, hi, ih hrest]
    rfl

theorem toNat_totalWritten {system : Win32} {disk : FilesOnDisk}
    (hrun : writeTransfers system (FilesOnDisk.make list system).files (transfers list states order) = .ok disk.files) :
    disk.totalWritten.toNat = transferred (transfers list states order) ∧
      transferred (transfers list states order) ≤ sumLengths client.fileLengths := by
  have hafter := h.filesAfter hrun
  have hsize : ∀ w ∈ transfers list states order, client.fileLengths[w.1.file_index]? = some w.1.file_size :=
    fun w hw => (h.size hw).1
  have hle : transferred (transfers list states order) ≤ sumLengths client.fileLengths := by
    rw [← sum_transferred fun w hw => (List.getElem?_eq_some_iff.mp (hsize w hw)).1, sumLengths,
      sum_map_eq client.fileLengths _ 0]
    refine Finset.sum_le_sum ?_
    intro k hk
    have hk := Finset.mem_range.mp hk
    refine h.fits ?_
    rw [List.getElem?_eq_getElem hk, List.getD_eq_getElem _ _ hk]
  have hsum := h.sum
  have hwritten := hafter.sum_written hsize
  refine ⟨?_, hle⟩
  rw [FilesOnDisk.totalWritten, foldl_written (by rw [hwritten, UInt64.toNat_zero]; omega), hwritten, UInt64.toNat_zero,
    Nat.zero_add]

end Distinct

/-! ### Runs over all pieces -/

theorem writeTransfers_pos {system : Win32} {files files' : List PhysicalFile} {ws : List Transfer}
    (h : writeTransfers system files ws = .ok files') : ∀ w ∈ ws, 0 < w.1.bytes_count.toNat := by
  induction ws generalizing files with
  | nil => exact nofun
  | cons w ws ih =>
    obtain ⟨files₁, hstep, h⟩ := bind_ok h
    exact List.forall_mem_cons.mpr ⟨(onWriteFilePiece_ok hstep).1, ih h⟩

theorem mem_order (horder : order.Perm ((List.range p.pieces_count.toNat).map UInt32.ofNat)) {i : UInt32} :
    i ∈ order ↔ i < p.pieces_count := by
  rw [horder.mem_iff, List.mem_map]
  constructor
  · rintro ⟨k, hk, rfl⟩
    have hk := List.mem_range.mp hk
    rw [UInt32.lt_iff_toNat_lt, UInt32.toNat_ofNat_of_lt' (Nat.lt_trans hk p.pieces_count.toNat_lt)]
    exact hk
  · intro hi
    exact ⟨i.toNat, List.mem_range.mpr (UInt32.lt_iff_toNat_lt.mp hi), UInt32.ofNat_toNat⟩

theorem nodup_indices (count : UInt32) : ((List.range count.toNat).map UInt32.ofNat).Nodup := by
  refine List.Nodup.map_on ?_ List.nodup_range
  intro i hi j hj heq
  have hi := Nat.lt_trans (List.mem_range.mp hi) count.toNat_lt
  have hj := Nat.lt_trans (List.mem_range.mp hj) count.toNat_lt
  rw [← UInt32.toNat_inj, UInt32.toNat_ofNat_of_lt' hi, UInt32.toNat_ofNat_of_lt' hj] at heq
  exact heq

/-- A run over all pieces is over distinct pieces, whose ranges follow each other. -/
theorem distinct_of_run (hsum : sumLengths client.fileLengths < 2 ^ 64) (hmake : FilesList.make client = .ok list)
    (hp : PiecesToDownload.initial client = .ok p)
    (horder : order.Perm ((List.range p.pieces_count.toNat).map UInt32.ofNat))
    (hpasses : ∀ i ∈ order, list.iterateFiles i = .ok (piecesOf list i)) :
    Distinct client list p order ∧ p.pieces_count.toNat * p.piece_size.toNat < 2 ^ 32 ∧
      Laid 0 (list.rangeBlocks p.pieces_count) (min (p.pieces_count.toNat * p.piece_size.toNat) p.total_size.toNat) := by
  have hlt : ∀ i < p.pieces_count, (list.pieceRange i).1 < (list.pieceRange i).2 := fun i hi =>
    (FilesList.iterateRange_ok (iterateFiles_ok (hpasses i ((mem_order horder).mpr hi)))).1
  obtain ⟨hsmall, hlaid⟩ := laid_rangeBlocks hmake hp hlt (Nat.le_refl _)
  refine ⟨⟨hsum, hmake, hp, ?_, fun i hi => (mem_order horder).mp hi, hpasses, _, hlaid⟩, hsmall, hlaid⟩
  exact horder.nodup_iff.mpr (nodup_indices p.pieces_count)

end

/-- The calls for a file of the size, when it is written piece by piece: it is created before the first write, and
    closed after the one that completes it. -/
def callsFor (name : List UInt8) (size : UInt64) (writes : List (UInt64 × List UInt8)) : List FileCall :=
  if writes = [] then []
  else .create name size :: writes.map (fun w => .write w.1 w.2) ++
    if (writes.map fun w => w.2.length).sum = size.toNat then [.close] else []

/-- The pieces in the order of their indices. -/
def concatenation (states : UInt32 → PieceState) (count : UInt32) : List UInt8 :=
  ((List.range count.toNat).map fun i => (states (UInt32.ofNat i)).data).flatten

/-- The disk after the pieces were written in the order: every file that is not empty has its slice of the torrent, is
    complete, and was created once and closed once, by the write that completed it; at no time before was a file
    written in another way. -/
structure DiskWritten (lengths : List UInt64) (list : FilesList) (count : UInt32) (states : UInt32 → PieceState)
    (order : List UInt32) (disk : FilesOnDisk) : Prop where
  content : ∀ (k : Nat) n, lengths[k]? = some n → n ≠ 0 → ∃ f, disk.files[k]? = some f ∧
    fileContent f.calls = ((concatenation states count).drop (fileStart lengths k)).take n.toNat
  complete : ∀ (k : Nat) n, lengths[k]? = some n → n ≠ 0 → ∃ f name writes, disk.files[k]? = some f ∧
    f.calls = callsFor name n writes ∧ (writes.map fun w => w.2.length).sum = n.toNat
  underway : ∀ done disk', done <+: order → (FilesOnDisk.make list).writePieces (done.map states) = .ok disk' →
    ∀ (k : Nat) n f, lengths[k]? = some n → disk'.files[k]? = some f → ∃ name writes, f.calls = callsFor name n writes ∧
      (∀ w ∈ writes, w.2 ≠ []) ∧ (writes.map fun w => w.2.length).sum ≤ n.toNat
  total : disk.totalWritten.toNat = sumLengths lengths

section
variable {client : TorrentClient} {list : FilesList} {p : PiecesToDownload} {order : List UInt32}
  {states : UInt32 → PieceState} {disk : FilesOnDisk}

/-- When every piece has as many bytes as its range, every transfer has as many as it counts. -/
theorem length_bytes_transfer (h : Distinct client list p order)
    (hdata : ∀ i < p.pieces_count, (states i).data.length = (list.rangeBlock i).length) {w : Transfer}
    (hw : w ∈ transfers list states order) : w.bytes.length = w.1.bytes_count.toNat := by
  have hsmall := h.small hw
  obtain ⟨i, hi, hpiece, hw⟩ := mem_transfers hw
  have hle := (h.torrentBlock_eq hi hpiece w.2).2
  have hcount : w.1.bytes_count.toUInt32.toNat = w.1.bytes_count.toNat := by
    rw [UInt64.toNat_toUInt32]
    exact Nat.mod_eq_of_lt hsmall
  rw [Transfer.bytes, List.length_take, List.length_drop, hw, hdata i (h.lt i hi), hcount]
  omega

theorem fileCalls_eq {name : List UInt8} {size : UInt64} {ws : List Transfer}
    (h : ∀ w ∈ ws, w.bytes.length = w.1.bytes_count.toNat) :
    fileCalls name size ws = callsFor name size (ws.map fun w => (w.1.file_offset, w.bytes)) ∧
      ((ws.map fun w => (w.1.file_offset, w.bytes)).map fun w => w.2.length).sum = transferred ws := by
  have hsum : ((ws.map fun w => (w.1.file_offset, w.bytes)).map fun w => w.2.length).sum = transferred ws := by
    rw [transferred, total, List.map_map, List.map_map]
    exact congrArg List.sum (List.map_congr_left h)
  refine ⟨?_, hsum⟩
  rw [callsFor, hsum, fileCalls, List.map_map]
  simp only [List.map_eq_nil_iff]
  rfl

theorem map_length_data (hdata : ∀ i < p.pieces_count, (states i).data.length = (list.rangeBlock i).length) :
    ((List.range p.pieces_count.toNat).map fun i => (states (UInt32.ofNat i)).data).map List.length =
      (list.rangeBlocks p.pieces_count).map Block.length := by
  rw [FilesList.rangeBlocks, List.map_map, List.map_map]
  refine List.map_congr_left ?_
  intro k hk
  have hk := List.mem_range.mp hk
  refine hdata _ (UInt32.lt_iff_toNat_lt.mpr ?_)
  rwa [UInt32.toNat_ofNat_of_lt' (Nat.lt_trans hk p.pieces_count.toNat_lt)]

/-- What a transfer writes is what the torrent has there. -/
theorem getElem?_bytes_transfer (h : Distinct client list p order)
    (hdata : ∀ i < p.pieces_count, (states i).data.length = (list.rangeBlock i).length) {w : Transfer}
    (hw : w ∈ transfers list states order) {x : Nat} (hx : x < w.bytes.length) : w.bytes[x]? =
      (concatenation states p.pieces_count)[fileStart client.fileLengths w.1.file_index + w.1.file_offset.toNat + x]? := by
  have hlength := length_bytes_transfer h hdata hw
  obtain ⟨i, hi, hpiece, hw⟩ := mem_transfers hw
  have hlt := h.lt i hi
  obtain ⟨hblock, hle⟩ := h.torrentBlock_eq hi hpiece w.2
  obtain ⟨e, hlaid⟩ := h.laid
  have hstart : fileStart client.fileLengths w.1.file_index + w.1.file_offset.toNat =
      (list.rangeBlock i).start + w.1.piece_offset.toNat := congrArg Block.start hblock
  have hpart : ((List.range p.pieces_count.toNat).map fun i => (states (UInt32.ofNat i)).data)[i.toNat]? =
      some (states i).data := by
    rw [List.getElem?_map, List.getElem?_range (UInt32.lt_iff_toNat_lt.mp hlt)]
    simp only [Option.map_some, UInt32.ofNat_toNat]
  have hin : w.1.piece_offset.toNat + x < (states i).data.length := by
    rw [hdata i hlt]
    omega
  have hget := hlaid.getElem?_flatten (map_length_data hdata) (getElem?_rangeBlocks hlt) hpart hin
  rw [Nat.sub_zero, ← Nat.add_assoc] at hget
  rw [hstart, concatenation, hget, Transfer.bytes, hw]
  rw [Transfer.bytes, List.length_take] at hx
  rw [List.getElem?_take_of_lt (by omega), List.getElem?_drop]

/-- The files while distinct pieces are written. -/
theorem underway_of_run {system : Win32} (h : Distinct client list p order)
    (hdata : ∀ i < p.pieces_count, (states i).data.length = (list.rangeBlock i).length)
    (hrun : writeTransfers system (FilesOnDisk.make list system).files (transfers list states order) = .ok disk.files) {k : Nat}
    {n : UInt64} {f : PhysicalFile} (hn : client.fileLengths[k]? = some n) (hf : disk.files[k]? = some f) :
    ∃ name writes, f.calls = callsFor name n writes ∧ (∀ w ∈ writes, w.2 ≠ []) ∧
      (writes.map fun w => w.2.length).sum ≤ n.toNat := by
  obtain ⟨name, hcalls⟩ := ((h.filesAfter hrun).after k n f hn hf).calls
  have hmem : ∀ w ∈ transfersTo (transfers list states order) k, w ∈ transfers list states order :=
    fun w hw => (List.mem_filter.mp hw).1
  obtain ⟨heq, hsum⟩ := @fileCalls_eq name n _ fun w hw => length_bytes_transfer h hdata (hmem w hw)
  refine ⟨name, _, hcalls.trans heq, List.forall_mem_map.mpr ?_, Nat.le_trans (Nat.le_of_eq hsum) (h.fits hn)⟩
  intro w hw hnil
  have hlength := length_bytes_transfer h hdata (hmem w hw)
  have hpos := writeTransfers_pos hrun w (hmem w hw)
  rw [show w.bytes = [] from hnil, List.length_nil] at hlength
  omega

/-- Pieces that together have as many bytes as the files fill every file. -/
theorem transferred_full (h : Distinct client list p order)
    (htotal : transferred (transfers list states order) = sumLengths client.fileLengths) {k : Nat} {n : UInt64}
    (hn : client.fileLengths[k]? = some n) : transferred (transfersTo (transfers list states order) k) = n.toNat := by
  have hk := (List.getElem?_eq_some_iff.mp hn).1
  have hlengths : ∀ j ∈ Finset.range client.fileLengths.length,
      transferred (transfersTo (transfers list states order) j) ≤ (client.fileLengths.getD j 0).toNat := by
    intro j hj
    have hj := Finset.mem_range.mp hj
    refine h.fits ?_
    rw [List.getElem?_eq_getElem hj, List.getD_eq_getElem _ _ hj]
  rw [← sum_transferred fun w hw => (List.getElem?_eq_some_iff.mp (h.size hw).1).1, sumLengths,
    sum_map_eq client.fileLengths _ 0] at htotal
  have hfull := (Finset.sum_eq_sum_iff_of_le hlengths).mp htotal k (Finset.mem_range.mpr hk)
  rw [hfull, List.getD_eq_getElem?_getD, hn]
  rfl

/-- A file that is full has its slice of the pieces. -/
theorem content_of_full (h : Distinct client list p order)
    (hdata : ∀ i < p.pieces_count, (states i).data.length = (list.rangeBlock i).length)
    (hlength : (concatenation states p.pieces_count).length = sumLengths client.fileLengths) {k : Nat} {n : UInt64}
    (hn : client.fileLengths[k]? = some n) (hne : n ≠ 0)
    (hfull : transferred (transfersTo (transfers list states order) k) = n.toNat) (name : List UInt8) :
    fileContent (fileCalls name n (transfersTo (transfers list states order) k)) =
      ((concatenation states p.pieces_count).drop (fileStart client.fileLengths k)).take n.toNat := by
  have hpos : 0 < n.toNat := Nat.pos_of_ne_zero fun hzero => hne (UInt64.toNat_inj.mp hzero)
  have hblock : (fileBlocks client.fileLengths)[k]? = some ⟨fileStart client.fileLengths k, n.toNat⟩ := by
    rw [getElem?_fileBlocks, hn]
    rfl
  have hstop : fileStart client.fileLengths k + n.toNat ≤ sumLengths client.fileLengths :=
    (laid_fileBlocks client.fileLengths).stop_le hblock
  refine fileContent_eq ?_ ?_ ?_ ?_
  · rw [List.length_take, List.length_drop, hlength]
    omega
  · intro w hw
    obtain ⟨hmem, hk⟩ := List.mem_filter.mp hw
    have hcount := length_bytes_transfer h hdata hmem
    refine ⟨hcount, ?_⟩
    intro x hx
    obtain ⟨hsize, hle⟩ := h.size hmem
    have hget := getElem?_bytes_transfer h hdata hmem hx
    rw [of_decide_eq_true hk] at hsize hget
    cases hn.symm.trans hsize
    rw [hget, List.getElem?_take_of_lt (by omega), List.getElem?_drop, Nat.add_assoc]
  · exact covers_of_total (h.fileBlocks_apart k) (h.fileBlocks_inside hn) hfull
  · intro hnil
    rw [hnil] at hfull
    exact absurd hfull.symm (Nat.ne_of_gt hpos)

/-- When the torrent ends inside its last piece, the data of a piece have as many bytes as its range. -/
theorem length_data (hmake : FilesList.make client = .ok list) (hp : PiecesToDownload.initial client = .ok p)
    (hsmall : p.pieces_count.toNat * p.piece_size.toNat < 2 ^ 32)
    (hle : p.total_size.toNat ≤ p.pieces_count.toNat * p.piece_size.toNat)
    (hpasses : ∀ i < p.pieces_count, ∃ pieces, list.iterateFiles i = .ok pieces) {i : UInt32} (hi : i < p.pieces_count)
    {n : UInt32} (hn : p.getPieceSize i = .ok n) : n.toNat = (list.rangeBlock i).length := by
  have hcount := Nat.zero_lt_of_lt (UInt32.lt_iff_toNat_lt.mp hi)
  have hlast : (p.pieces_count - 1).toNat = p.pieces_count.toNat - 1 := toNat_pred hcount
  have hlt : p.pieces_count - 1 < p.pieces_count := UInt32.lt_iff_toNat_lt.mpr (by omega)
  have hvalid : p.geometry.Valid := by
    obtain ⟨pieces, hpieces⟩ := hpasses _ hlt
    have hrange := UInt64.lt_iff_toNat_lt.mp (FilesList.iterateRange_ok (iterateFiles_ok hpieces)).1
    obtain ⟨hstart, hend⟩ := pieceRange_toNat hmake hp hlt
    have hmul : (p.pieces_count.toNat - 1) * p.piece_size.toNat ≤ p.pieces_count.toNat * p.piece_size.toNat :=
      Nat.mul_le_mul_right _ (Nat.sub_le _ _)
    rw [hlast, Nat.mod_eq_of_lt (by omega)] at hstart
    refine ⟨?_, hle⟩
    simp only [PiecesToDownload.geometry]
    omega
  obtain ⟨n', hn', hlength⟩ := getPieceSize_eq hvalid hi
  cases hn.symm.trans hn'
  obtain ⟨hstart, hend⟩ := rangeBlock_eq hmake hp hvalid hsmall hi
  rw [hlength, FilesList.rangeBlock, hstart, hend, Block.stop]
  exact (Nat.add_sub_cancel_left _ _).symm

/-- A run that writes every piece once leaves the files as the torrent has them exactly when the torrent ends inside
    its last piece. -/
theorem diskWritten_iff (hsum : sumLengths client.fileLengths < 2 ^ 64) (hmake : FilesList.make client = .ok list)
    (hp : PiecesToDownload.initial client = .ok p) (hindex : ∀ i, (states i).piece_index = i)
    (hdata : ∀ i < p.pieces_count, ∃ n, p.getPieceSize i = .ok n ∧ (states i).data.length = n.toNat)
    (horder : order.Perm ((List.range p.pieces_count.toNat).map UInt32.ofNat))
    (hrun : (FilesOnDisk.make list).writePieces (order.map states) = .ok disk) :
    DiskWritten client.fileLengths list p.pieces_count states order disk ↔
      p.total_size.toNat ≤ p.pieces_count.toNat * p.piece_size.toNat := by
  obtain ⟨hpasses, hrun⟩ := writePieces_ok hindex hrun
  obtain ⟨hdistinct, hsmall, hlaid⟩ := distinct_of_run hsum hmake hp horder hpasses
  have htotal : p.total_size.toNat = sumLengths client.fileLengths := toNat_getTotalSizeBytes hsum (initial_eq hp).2
  have htransferred : transferred (transfers list states order) =
      min (p.pieces_count.toNat * p.piece_size.toNat) p.total_size.toNat := by
    have hblocks := horder.map list.rangeBlock
    rw [List.map_map] at hblocks
    rw [hdistinct.transferred_eq, total_perm hblocks, ← hlaid.total_eq, Nat.zero_add]
    rfl
  constructor
  · intro h
    have hwritten := (hdistinct.toNat_totalWritten hrun).1
    rw [h.total, htransferred, ← htotal] at hwritten
    omega
  · intro hle
    have hdata : ∀ i < p.pieces_count, (states i).data.length = (list.rangeBlock i).length := by
      intro i hi
      obtain ⟨n, hn, hlength⟩ := hdata i hi
      rw [hlength]
      exact length_data hmake hp hsmall hle (fun i hi => ⟨_, hpasses i ((mem_order horder).mpr hi)⟩) hi hn
    have hfull : transferred (transfers list states order) = sumLengths client.fileLengths := by
      rw [htransferred, htotal]
      omega
    have hlength : (concatenation states p.pieces_count).length = sumLengths client.fileLengths := by
      rw [← htotal, ← Nat.zero_add (concatenation states p.pieces_count).length]
      exact (hlaid.length_flatten (map_length_data hdata)).trans (Nat.min_eq_right hle)
    have hfile : ∀ (k : Nat) n, client.fileLengths[k]? = some n → ∃ f, disk.files[k]? = some f ∧
        f.After n (transfersTo (transfers list states order) k) := by
      intro k n hn
      have hafter := hdistinct.filesAfter hrun
      have hk : k < disk.files.length := hafter.length ▸ (List.getElem?_eq_some_iff.mp hn).1
      exact ⟨_, List.getElem?_eq_getElem hk, hafter.after k n _ hn (List.getElem?_eq_getElem hk)⟩
    refine ⟨?_, ?_, ?_, ?_⟩
    · intro k n hn hne
      obtain ⟨f, hf, hafter⟩ := hfile k n hn
      obtain ⟨name, hcalls⟩ := hafter.calls
      refine ⟨f, hf, ?_⟩
      rw [hcalls]
      exact content_of_full hdistinct hdata hlength hn hne (transferred_full hdistinct hfull hn) name
    · intro k n hn hne
      obtain ⟨f, hf, hafter⟩ := hfile k n hn
      obtain ⟨name, hcalls⟩ := hafter.calls
      have hbytes : ∀ w ∈ transfersTo (transfers list states order) k, w.bytes.length = w.1.bytes_count.toNat :=
        fun w hw => length_bytes_transfer hdistinct hdata (List.mem_filter.mp hw).1
      obtain ⟨heq, hwrites⟩ := @fileCalls_eq name n _ hbytes
      exact ⟨f, name, _, hf, hcalls.trans heq, hwrites.trans (transferred_full hdistinct hfull hn)⟩
    · intro done disk' hdone hrun' k n f hn hf
      obtain ⟨hpasses', hrun'⟩ := writePieces_ok hindex hrun'
      have hsub : ∀ i ∈ done, i ∈ order := fun i hi => hdone.subset hi
      have hdone : Distinct client list p done :=
        ⟨hsum, hmake, hp, hdistinct.nodup.sublist hdone.sublist, fun i hi => hdistinct.lt i (hsub i hi), hpasses',
          hdistinct.laid⟩
      exact underway_of_run hdone hdata hrun' hn hf
    · rw [(hdistinct.toNat_totalWritten hrun).1, hfull]

end

theorem eq_zero_or_one {i : UInt32} (hi : i < 2) : i = 0 ∨ i = 1 := by
  rw [UInt32.lt_iff_toNat_lt] at hi
  rw [← UInt32.toNat_inj, ← UInt32.toNat_inj]
  simp only [UInt32.reduceToNat] at hi ⊢
  omega

/-- Two files in two pieces. -/
def twoFiles : TorrentClient where
  metainfo := { info := { piece_length_bytes := 3
                          pieces_SHA1 := List.replicate 40 0
                          length_or_files := .files [⟨2, ascii "x"⟩, ⟨3, ascii "y"⟩] } }

/-- The pieces of two files, with the second one first. -/
def twoStates (i : UInt32) : PieceState := { piece_index := i, data := if i = 0 then [1, 2, 3] else [4, 5] }

theorem diskWritten_twoFiles : ∃ disk, (FilesOnDisk.make ⟨twoFiles, [⟨0, 2, 0⟩, ⟨2, 5, 1⟩]⟩).writePieces
    ([1, 0].map twoStates) = .ok disk ∧
      DiskWritten [2, 3] ⟨twoFiles, [⟨0, 2, 0⟩, ⟨2, 5, 1⟩]⟩ 2 twoStates [1, 0] disk := by
  have hdata : ∀ i < (2 : UInt32), ∃ n,
      PiecesToDownload.getPieceSize { pieces_count := 2, piece_size := 3, total_size := 5 } i = .ok n ∧
        (twoStates i).data.length = n.toNat := by
    intro i hi
    rcases eq_zero_or_one hi with rfl | rfl <;> exact ⟨_, rfl, rfl⟩
  refine ⟨⟨[⟨false, 2, [.create (ascii "x") 2, .write 0 [1, 2], .close]⟩,
    ⟨false, 3, [.create (ascii "y") 3, .write 1 [4, 5], .write 0 [3], .close]⟩], _, _⟩, rfl, ?_⟩
  have hmake : FilesList.make twoFiles = .ok ⟨twoFiles, [⟨0, 2, 0⟩, ⟨2, 5, 1⟩]⟩ := rfl
  exact (diskWritten_iff (by decide) hmake rfl (fun _ => rfl) hdata (by decide) rfl).mpr (by decide)

/-- The client that is made of ten bytes in two pieces of four bytes, where assertions are compiled out. -/
def tenBytesClient : TorrentClient where
  metainfo := tenBytesInEightInfo.metainfo

/-- The pieces of ten bytes, of the sizes that the client computes. -/
def tenBytesStates (i : UInt32) : PieceState := { piece_index := i, data := List.replicate (if i = 0 then 4 else 6) 1 }

theorem tenBytesClient_made : TorrentClient.make (fun _ => Vector.replicate _ 0) (place 4096 tenBytesInEight)
    ⟨2 ^ 62, 2 ^ 62⟩ true (Vector.replicate _ 0) 40 (some (.of 4096 tenBytesInEight (by decide +kernel))) =
      some (.success tenBytesClient) := by
  rw [TorrentClient.make, release_of_parsed tenBytesInEight_accepted, Option.map_some]
  simp only [TorrentClient.fromTorrent, Ending.asserting, if_pos, getSHA1, ite_self]
  rfl

/-- The client is handed out without a check, no assertion fails, and the last two bytes of the file are missing. -/
theorem not_diskWritten_tenBytesInEight : ∃ client list p disk,
    TorrentClient.make (fun _ => Vector.replicate _ 0) (place 4096 tenBytesInEight) ⟨2 ^ 62, 2 ^ 62⟩ true
      (Vector.replicate _ 0) 40 (some (.of 4096 tenBytesInEight (by decide +kernel))) = some (.success client) ∧
    FilesList.make client = .ok list ∧ PiecesToDownload.initial client = .ok p ∧
    (∀ i < p.pieces_count, ∃ n, p.getPieceSize i = .ok n ∧ (tenBytesStates i).data.length = n.toNat) ∧
    [0, 1].Perm ((List.range p.pieces_count.toNat).map UInt32.ofNat) ∧
    (FilesOnDisk.make list).writePieces ([0, 1].map tenBytesStates) = .ok disk ∧
    ¬DiskWritten client.fileLengths list p.pieces_count tenBytesStates [0, 1] disk := by
  have hcount : tenBytesClient.getPiecesCount = 2 := by decide
  refine ⟨tenBytesClient, ⟨tenBytesClient, [⟨0, 10, 0⟩]⟩, { pieces_count := 2, piece_size := 4, total_size := 10 },
    ⟨[⟨true, 8, [.create [] 10, .write 0 [1, 1, 1, 1], .write 4 [1, 1, 1, 1]]⟩], _, _⟩, tenBytesClient_made, rfl, ?_, ?_, ?_,
    rfl, ?_⟩
  · rw [PiecesToDownload.initial, hcount]
    rfl
  · intro i hi
    rcases eq_zero_or_one hi with rfl | rfl <;> exact ⟨_, rfl, rfl⟩
  · decide
  · intro h
    exact absurd h.total (by decide)

end BittorrentClient
