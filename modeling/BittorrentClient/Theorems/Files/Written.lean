import BittorrentClient.Theorems.Files.Whole
import BittorrentClient.Theorems.Files.System
import BittorrentClient.Theorems.Files.Writable

/-! When all pieces can be written. The assertions on the way to the files hold for distinct pieces in any order as long
    as the pieces end below 4 GiB and no empty file lies before the end of the torrent, and fail otherwise. -/

namespace BittorrentClient
open Blocks FlatMemory Outcome Words

/-! ### Files -/

section
variable {list : FilesList} {lengths : List UInt64} {system : Win32} {same : Setoid (List UInt8)}
  {files : List PhysicalFile} {done ws : List Transfer} {w : Transfer} {f : PhysicalFile}

/-- The assertion about what is written holds of a piece that fits. -/
theorem PhysicalFile.After.writePiece_total (h : f.After w.1.file_size done) (hsmall : w.1.bytes_count.toNat < 2 ^ 32)
    (hfits : transferred (done ++ [w]) ≤ w.1.file_size.toNat) : ∃ f', f.writePiece w = .ok f' := by
  have hsum : transferred (done ++ [w]) = transferred done + w.1.bytes_count.toNat := transferred_append done [w]
  have hcount : w.1.bytes_count.toUInt32.toUInt64.toNat = w.1.bytes_count.toNat := by
    rw [UInt32.toNat_toUInt64, UInt64.toNat_toUInt32]
    exact Nat.mod_eq_of_lt hsmall
  have hle : f.written + w.1.bytes_count.toUInt32.toUInt64 ≤ w.1.file_size := by
    have hlt := w.1.file_size.toNat_lt
    rw [UInt64.le_iff_toNat_le, UInt64.toNat_add, hcount, h.written, Nat.mod_eq_of_lt (by omega)]
    omega
  rw [PhysicalFile.writePiece, PhysicalFile.tryFinalize, PhysicalFile.wrote, PhysicalFile.written_opened, check_of _ hle]
  exact ⟨_, rfl⟩

/-- The transfer goes to a file of the torrent and has bytes, which lie in the data and in the file. -/
structure Transfer.Sound (list : FilesList) (w : Transfer) : Prop where
  size : list.torrent.fileLengths[w.1.file_index]? = some w.1.file_size
  name : w.1.file_name = list.fileName w.1.file_index
  small : w.1.bytes_count.toNat < 2 ^ 32
  pos : 0 < w.1.bytes_count.toNat
  readable : w.1.piece_offset.toNat + w.1.bytes_count.toNat ≤ w.2.length
  inside : w.1.file_offset.toNat + w.1.bytes_count.toNat ≤ w.1.file_size.toNat
  signed : w.1.file_size.toNat < 2 ^ 63

theorem Transfer.Sound.size_ne_zero (h : w.Sound list) : w.1.file_size ≠ 0 := by
  intro hzero
  have hpos := h.pos
  have hle := h.inside
  rw [hzero, UInt64.toNat_zero] at hle
  omega

/-- Where a file has no transfer yet, no other file of its name was created. -/
theorem FilesAfter.not_same (h : FilesAfter list.torrent.fileLengths files done) (hnamed : Named list files)
    (hdone : ∀ w ∈ done, w.Sound list) (hapart : NamesApart same list.torrent.fileLengths list.torrent.fileNames)
    (hsound : w.Sound list) (hnew : transfersTo done w.1.file_index = []) {k : Nat} (hf : files[k]? = some f)
    {name : List UInt8} (hname : Creates f.calls name) : ¬same.r w.1.file_name name := by
  have hk : k < list.torrent.fileLengths.length := h.length ▸ (List.getElem?_eq_some_iff.mp hf).1
  have hwritten : transfersTo done k ≠ [] := by
    obtain ⟨size, hname⟩ := hname
    obtain ⟨name', hcalls⟩ := (h.after k _ f (List.getElem?_eq_getElem hk) hf).calls
    intro hnil
    rw [hcalls, hnil, fileCalls, if_pos rfl] at hname
    cases hname
  obtain ⟨w', hw'⟩ := List.exists_mem_of_ne_nil _ hwritten
  obtain ⟨hmem, hindex⟩ := List.mem_filter.mp hw'
  have hindex : w'.1.file_index = k := of_decide_eq_true hindex
  have hsound' := hdone w' hmem
  have hne : w.1.file_index ≠ w'.1.file_index := by
    rintro heq
    rw [heq, hindex] at hnew
    exact hwritten hnew
  rw [hsound.name, hnamed.of_creates hf hname, ← hindex]
  exact hapart.not_same hsound.size hsound'.size (fileNames_eq hsound.size) (fileNames_eq hsound'.size)
    hsound.size_ne_zero hsound'.size_ne_zero hne

theorem FilesAfter.onWriteFilePiece_total (h : FilesAfter list.torrent.fileLengths files done) (hnamed : Named list files)
    (hserves : system.Serves same list.torrent.fileNames)
    (hapart : NamesApart same list.torrent.fileLengths list.torrent.fileNames) (hdone : ∀ w ∈ done, w.Sound list)
    (hsound : w.Sound list) (hfits : transferred (transfersTo (done ++ [w]) w.1.file_index) ≤ w.1.file_size.toNat) :
    ∃ files', FilesOnDisk.onWriteFilePiece system files w.1 w.2 = .ok files' := by
  have hindex : w.1.file_index < files.length := h.length ▸ (List.getElem?_eq_some_iff.mp hsound.size).1
  have hto : transfersTo [w] w.1.file_index = [w] := by simp [transfersTo]
  rw [transfersTo_append, hto] at hfits
  have hsum : transferred (transfersTo done w.1.file_index ++ [w]) = _ := transferred_append _ [w]
  have hone : transferred [w] = w.1.bytes_count.toNat := rfl
  have hpos := hsound.pos
  have hreadable := hsound.readable
  have hafter := h.after _ _ _ hsound.size (List.getElem?_eq_getElem hindex)
  obtain ⟨f', hf'⟩ := hafter.writePiece_total hsound.small hfits
  rw [← List.getD_eq_getElem _ {} hindex] at hafter hf'
  have hcount : w.1.bytes_count.toUInt32.toNat = w.1.bytes_count.toNat := by
    rw [UInt64.toNat_toUInt32]
    exact Nat.mod_eq_of_lt hsound.small
  refine ⟨_, onWriteFilePiece_ok_iff.mpr ⟨⟨?_, ?_, ?_, ?_⟩, f', hf', rfl⟩⟩
  · exact checkFilePiece_ok.mpr ⟨hindex, by omega, hpos⟩
  · rw [hcount, List.length_drop]
    omega
  · intro hclosed
    have hnew : transfersTo done w.1.file_index = [] := by
      by_contra hne
      exact Bool.false_ne_true (hclosed.symm.trans (hafter.file.mpr ⟨hne, by omega⟩))
    rw [answers_getD]
    refine (hserves.create _ _ ?_ _ hsound.signed).mpr (List.forall_mem_map.mpr ?_)
    · rw [hsound.name]
      exact List.mem_of_getElem? (fileNames_eq hsound.size)
    · intro f hf name hname
      obtain ⟨k, hk⟩ := List.mem_iff_getElem?.mp hf
      exact h.not_same hnamed hdone hapart hsound hnew hk hname
  · have hinside := hsound.inside
    have hsigned := hsound.signed
    exact hserves.write _ _ _ (by omega)

/-- Sound transfers that fit into their files together pass the assertions, one after the other. -/
theorem FilesAfter.writeTransfers_total (h : FilesAfter list.torrent.fileLengths files done) (hnamed : Named list files)
    (hserves : system.Serves same list.torrent.fileNames)
    (hapart : NamesApart same list.torrent.fileLengths list.torrent.fileNames) (hsound : ∀ w ∈ done ++ ws, w.Sound list)
    (hfits : ∀ (k : Nat) n, list.torrent.fileLengths[k]? = some n → transferred (transfersTo (done ++ ws) k) ≤ n.toNat) :
    ∃ files', writeTransfers system files ws = .ok files' := by
  induction ws generalizing files done with
  | nil => exact ⟨files, rfl⟩
  | cons w ws ih =>
    have hw := hsound w (List.mem_append_right done List.mem_cons_self)
    have hdone : ∀ w ∈ done, w.Sound list := fun w hw => hsound w (List.mem_append_left _ hw)
    rw [List.append_cons] at hfits hsound
    have hfirst := hfits _ _ hw.size
    rw [transfersTo_append, transferred_append] at hfirst
    have hfirst := Nat.le_of_add_right_le hfirst
    obtain ⟨files₁, hstep⟩ := h.onWriteFilePiece_total hnamed hserves hapart hdone hw hfirst
    obtain ⟨files', hrest⟩ :=
      ih (h.step hw.size hw.small hfirst hstep) (hnamed.onWriteFilePiece hw.name hstep) hsound hfits
    refine ⟨files', ?_⟩
    rw [writeTransfers, hstep]
    exact hrest

end

/-! ### Ranges -/

/-- No empty file lies before the end of the files. -/
def NoEmptyInside (lengths : List UInt64) : Prop :=
  ∀ k, lengths[k]? = some 0 → sumLengths lengths ≤ fileStart lengths k

namespace FilesList
variable {list : FilesList} {lengths : List UInt64} {a b : UInt64}

/-- Where no file is empty before the end, every range is cut into file pieces that have bytes. -/
theorem Exact.passes (hexact : list.Exact lengths) (hempty : NoEmptyInside lengths) (hab : a < b)
    (hb : b.toNat ≤ sumLengths lengths) : ∃ pieces, list.iterateRange a b = .ok pieces ∧
      ∀ piece ∈ pieces, FilesOnDisk.checkFilePiece list.files_offset.length (b - a).toNat piece = .ok () := by
  have hnonempty : ∀ fo ∈ list.files_offset, fo.start < b → fo.start < fo.end_ := by
    intro fo hfo hfb
    obtain ⟨k, hk⟩ := List.mem_iff_getElem?.mp hfo
    obtain ⟨hstart, hzero⟩ := hexact.empty_iff hk
    refine UInt64.lt_of_le_of_ne (hexact.le fo hfo) ?_
    intro heq
    have hle := hempty k (hzero.mpr heq.symm)
    rw [hstart] at hle
    exact Nat.lt_irrefl _ (Nat.lt_of_lt_of_le (UInt64.lt_iff_toNat_lt.mp hfb) (Nat.le_trans hb hle))
  obtain ⟨i, j, hlocated, hpieces⟩ := hexact.iterateRange_total hab hb (by
    rintro fo hfo rfl
    exact hnonempty fo hfo hab)
  refine ⟨_, hpieces, List.forall_mem_map.mpr ?_⟩
  intro fo hfo
  have hfb := hlocated.start_lt hexact hfo
  rw [hlocated.checkFilePiece_iff hexact hab hfo]
  obtain ⟨k, -, -, hk⟩ := mem_filesBetween hfo
  have hlt := hnonempty fo (List.mem_of_getElem? hk) hfb
  rcases hlocated.start_or hexact hfo with ⟨-, hax⟩ | hax
  · exact ⟨hax, hfb, hlt⟩
  · exact ⟨UInt64.lt_trans hax hlt, hfb, hlt⟩

/-- A range in which an empty file starts has a file piece without bytes. -/
theorem Exact.empty_piece (hexact : list.Exact lengths) {pieces : List FilePiece} (h : list.iterateRange a b = .ok pieces)
    {k : Nat} (hk : lengths[k]? = some 0) (hak : a.toNat ≤ fileStart lengths k) (hkb : fileStart lengths k < b.toNat) :
    ∃ piece ∈ pieces, piece.bytes_count.toNat = 0 := by
  obtain ⟨hab, i, j, hlocated, hpieces⟩ := iterateRange_ok h
  rw [hlocated.filePieces hexact hab, Prod.mk.injEq] at hpieces
  have hlength := congrArg List.length hexact.blocks
  rw [List.length_map, fileBlocks, length_layOut, List.length_map] at hlength
  have hfo := getElem?_of_getD (hlength ▸ (List.getElem?_eq_some_iff.mp hk).1)
  generalize list.files_offset.getD k {} = fo at hfo
  obtain ⟨hstart, hzero⟩ := hexact.empty_iff hfo
  rw [hstart] at hak hkb
  have hmem := hlocated.mem_of_start hexact hfo (UInt64.le_iff_toNat_le.mpr hak) (UInt64.lt_iff_toNat_lt.mpr hkb)
  refine ⟨list.clipPiece a b fo, hpieces.1 ▸ List.mem_map_of_mem hmem, ?_⟩
  have hcount : (list.clipPiece a b fo).bytes_count.toNat = min fo.block.stop b.toNat - max a.toNat fo.start.toNat :=
    congrArg Block.length (hlocated.clipPiece_block hexact (UInt64.le_of_lt hab) hmem).1
  rw [hcount, FileOffset.block_stop (hexact.le fo (List.mem_of_getElem? hfo)), hzero.mp hk]
  omega

end FilesList

/-! ### Pieces -/

section
variable {client : TorrentClient} {list : FilesList} {p : PiecesToDownload} {order : List UInt32}
  {states : UInt32 → PieceState} {system : Win32} {same : Setoid (List UInt8)}

/-- Below 4 GiB, and where no file is empty before the end, the file pieces of every piece can be written. -/
theorem iterateFiles_total (hsum : sumLengths client.fileLengths < 2 ^ 64) (hmake : FilesList.make client = .ok list)
    (hp : PiecesToDownload.initial client = .ok p) (hvalid : p.geometry.Valid)
    (hsmall : p.pieces_count.toNat * p.piece_size.toNat < 2 ^ 32) (hempty : NoEmptyInside client.fileLengths)
    {i : UInt32} (hi : i < p.pieces_count) : list.iterateFiles i = .ok (piecesOf list i) ∧
      ∀ piece ∈ piecesOf list i,
        FilesOnDisk.checkFilePiece list.files_offset.length (list.rangeBlock i).length piece = .ok () := by
  obtain ⟨hstart, hend⟩ := rangeBlock_eq hmake hp hvalid hsmall hi
  have hpos := (p.geometry.chunking hvalid).length_pos (UInt32.lt_iff_toNat_lt.mp hi)
  have hstop : (p.geometry.piece i).stop ≤ p.total_size.toNat := by
    rw [show (p.geometry.piece i).stop = _ from (p.geometry.chunking hvalid).stop_eq (UInt32.lt_iff_toNat_lt.mp hi)]
    exact Nat.min_le_right _ _
  have hlt : (list.pieceRange i).1 < (list.pieceRange i).2 := by
    rw [UInt64.lt_iff_toNat_lt, hstart, hend]
    exact Nat.lt_add_of_pos_right hpos
  have htotal : p.total_size.toNat = sumLengths client.fileLengths := toNat_getTotalSizeBytes hsum (initial_eq hp).2
  obtain ⟨pieces, hpieces, hchecks⟩ := (FilesList.make_exact hsum hmake).passes hempty hlt (by rw [hend, ← htotal]; exact hstop)
  have hiterate : list.iterateFiles i = .ok pieces := by
    rw [FilesList.iterateFiles, check_of _ (FilesList.make_ok hmake).2.1]
    exact hpieces
  have hpiecesOf : piecesOf list i = pieces := by
    rw [piecesOf, hiterate]
    rfl
  refine ⟨by rw [hpiecesOf, hiterate], ?_⟩
  rw [hpiecesOf]
  rw [UInt64.toNat_sub_of_le _ _ (UInt64.le_of_lt hlt)] at hchecks
  exact hchecks

theorem length_rangeBlock (hmake : FilesList.make client = .ok list) (hp : PiecesToDownload.initial client = .ok p)
    (hvalid : p.geometry.Valid) (hsmall : p.pieces_count.toNat * p.piece_size.toNat < 2 ^ 32) {i : UInt32}
    (hi : i < p.pieces_count) : (list.rangeBlock i).length = (p.geometry.piece i).length := by
  obtain ⟨hstart, hend⟩ := rangeBlock_eq hmake hp hvalid hsmall hi
  rw [FilesList.rangeBlock, hstart, hend, Block.stop, Nat.add_sub_cancel_left]

/-- Pieces whose transfers pass are written. -/
theorem writePieces_of_transfers (hindex : ∀ i, (states i).piece_index = i) {disk : FilesOnDisk}
    {files : List PhysicalFile} (hdata : ∀ i ∈ order, (states i).data ≠ [])
    (hpasses : ∀ i ∈ order, disk.files_list.iterateFiles i = .ok (piecesOf disk.files_list i))
    (hrun : writeTransfers disk.system disk.files (transfers disk.files_list states order) = .ok files) :
    ∃ disk', disk.writePieces (order.map states) = .ok disk' := by
  induction order generalizing disk with
  | nil => exact ⟨disk, rfl⟩
  | cons i order ih =>
    obtain ⟨hpass, hpasses⟩ := List.forall_mem_cons.mp hpasses
    obtain ⟨hfirst, hdata⟩ := List.forall_mem_cons.mp hdata
    rw [transfers, List.flatMap_cons, ← transfers, writeTransfers_append, ← onWriteFilePieces_eq] at hrun
    obtain ⟨files₁, hfiles, hrun⟩ := bind_ok hrun
    obtain ⟨state, hwrite⟩ : ∃ state, disk.writePiece (states i) = .ok ({ disk with files := files₁ }, state) := by
      rw [FilesOnDisk.writePiece, check_of _ (List.length_pos_of_ne_nil hfirst), ok_bind, hindex, hpass, ok_bind, hfiles]
      exact ⟨_, rfl⟩
    obtain ⟨disk', hdisk'⟩ := @ih { disk with files := files₁ } hdata hpasses hrun
    refine ⟨disk', ?_⟩
    rw [List.map_cons, FilesOnDisk.writePieces, hwrite]
    exact hdisk'

/-- The pieces of a torrent that can be written. -/
theorem distinct_of_small (hsum : sumLengths client.fileLengths < 2 ^ 64) (hmake : FilesList.make client = .ok list)
    (hp : PiecesToDownload.initial client = .ok p) (hvalid : p.geometry.Valid)
    (hsmall : p.pieces_count.toNat * p.piece_size.toNat < 2 ^ 32) (hempty : NoEmptyInside client.fileLengths)
    (hnodup : order.Nodup) (horder : ∀ i ∈ order, i < p.pieces_count) : Distinct client list p order := by
  have hiterate : ∀ i < p.pieces_count, list.iterateFiles i = .ok (piecesOf list i) := fun i hi =>
    (iterateFiles_total hsum hmake hp hvalid hsmall hempty hi).1
  have hlt : ∀ i < p.pieces_count, (list.pieceRange i).1 < (list.pieceRange i).2 := fun i hi =>
    (FilesList.iterateRange_ok (iterateFiles_ok (hiterate i hi))).1
  exact ⟨hsum, hmake, hp, hnodup, horder, fun i hi => hiterate i (horder i hi), _,
    (laid_rangeBlocks hmake hp hlt (Nat.le_refl _)).2⟩

/-- No file is larger than the pieces together. -/
theorem size_signed (hsum : sumLengths client.fileLengths < 2 ^ 64) (hp : PiecesToDownload.initial client = .ok p)
    (hvalid : p.geometry.Valid) (hsmall : p.pieces_count.toNat * p.piece_size.toNat < 2 ^ 32) {k : Nat} {n : UInt64}
    (hn : client.fileLengths[k]? = some n) : n.toNat < 2 ^ 63 := by
  have hblock : (fileBlocks client.fileLengths)[k]? = some ⟨fileStart client.fileLengths k, n.toNat⟩ := by
    rw [getElem?_fileBlocks, hn]
    rfl
  have hstop : fileStart client.fileLengths k + n.toNat ≤ sumLengths client.fileLengths :=
    (laid_fileBlocks client.fileLengths).stop_le hblock
  have htotal : p.total_size.toNat = sumLengths client.fileLengths := toNat_getTotalSizeBytes hsum (initial_eq hp).2
  have hle : p.total_size.toNat ≤ p.pieces_count.toNat * p.piece_size.toNat := hvalid.total_le
  omega

/-- Distinct pieces of the right sizes are written in any order, where the files can be created. -/
theorem writePieces_total (hsum : sumLengths client.fileLengths < 2 ^ 64) (hmake : FilesList.make client = .ok list)
    (hp : PiecesToDownload.initial client = .ok p) (hvalid : p.geometry.Valid)
    (hsmall : p.pieces_count.toNat * p.piece_size.toNat < 2 ^ 32) (hempty : NoEmptyInside client.fileLengths)
    (hserves : system.Serves same client.fileNames) (hapart : NamesApart same client.fileLengths client.fileNames)
    (hindex : ∀ i, (states i).piece_index = i) (hnodup : order.Nodup) (horder : ∀ i ∈ order, i < p.pieces_count)
    (hdata : ∀ i ∈ order, (states i).data.length = (p.geometry.piece i).length) :
    ∃ disk, (FilesOnDisk.make list system).writePieces (order.map states) = .ok disk := by
  have hdistinct := distinct_of_small hsum hmake hp hvalid hsmall hempty hnodup horder
  have hlength : ∀ i ∈ order, (states i).data.length = (list.rangeBlock i).length := by
    intro i hi
    rw [hdata i hi, length_rangeBlock hmake hp hvalid hsmall (horder i hi)]
  obtain rfl := (FilesList.make_ok hmake).1
  have hsound : ∀ w ∈ transfers list states order, w.Sound list := by
    intro w hw
    obtain ⟨i, hi, hpiece, hdata⟩ := mem_transfers hw
    have hcheck := (iterateFiles_total hsum hmake hp hvalid hsmall hempty (horder i hi)).2 _ hpiece
    obtain ⟨-, -, hpos⟩ := checkFilePiece_ok.mp hcheck
    have hreadable := (hdistinct.torrentBlock_eq hi hpiece w.2).2
    rw [← hlength i hi, ← hdata] at hreadable
    obtain ⟨hsize, hinside⟩ := hdistinct.size hw
    exact ⟨hsize, named_iterateFiles (hdistinct.passes i hi) _ hpiece, hdistinct.small hw, hpos, hreadable, hinside,
      size_signed hsum hp hvalid hsmall hsize⟩
  have hnone : Distinct list.torrent list p [] :=
    ⟨hsum, hmake, hp, List.nodup_nil, List.forall_mem_nil _, List.forall_mem_nil _, hdistinct.laid⟩
  have hinitial : FilesAfter list.torrent.fileLengths (FilesOnDisk.make list system).files [] :=
    @Distinct.filesAfter list.torrent list p [] states hnone system _ rfl
  obtain ⟨files, hfiles⟩ :=
    hinitial.writeTransfers_total (named_make list system) hserves hapart hsound fun k n hn => hdistinct.fits hn
  refine writePieces_of_transfers hindex ?_ hdistinct.passes hfiles
  intro i hi hnil
  have hpos := (p.geometry.chunking hvalid).length_pos (UInt32.lt_iff_toNat_lt.mp (horder i hi))
  have hzero := hdata i hi
  rw [hnil, List.length_nil] at hzero
  exact absurd (show 0 < (p.geometry.piece i).length from hpos) (by omega)

/-- A run over all pieces writes no empty file piece, so that no empty file starts before the end. -/
theorem noEmptyInside_of_run (hsum : sumLengths client.fileLengths < 2 ^ 64) (hmake : FilesList.make client = .ok list)
    (hp : PiecesToDownload.initial client = .ok p) (hvalid : p.geometry.Valid)
    (horder : order.Perm ((List.range p.pieces_count.toNat).map UInt32.ofNat)) {files : List PhysicalFile}
    (hpasses : ∀ i ∈ order, list.iterateFiles i = .ok (piecesOf list i))
    (hrun : writeTransfers system (FilesOnDisk.make list system).files (transfers list states order) = .ok files) :
    NoEmptyInside client.fileLengths := by
  obtain ⟨-, -, hlaid⟩ := distinct_of_run hsum hmake hp horder hpasses
  have htotal : p.total_size.toNat = sumLengths client.fileLengths := toNat_getTotalSizeBytes hsum (initial_eq hp).2
  have hle : p.total_size.toNat ≤ p.pieces_count.toNat * p.piece_size.toNat := hvalid.total_le
  rw [Nat.min_eq_right hle, htotal] at hlaid
  intro k hk
  refine Nat.le_of_not_lt ?_
  intro hlt
  -- The offset of the empty file lies in some piece.
  obtain ⟨block, hblock, hmem⟩ := (hlaid.mem_iff (fileStart client.fileLengths k)).mpr ⟨Nat.zero_le _, hlt⟩
  obtain ⟨m, hm, rfl⟩ := List.mem_map.mp hblock
  have hi : UInt32.ofNat m ∈ order := horder.mem_iff.mpr (List.mem_map_of_mem hm)
  have hrange := iterateFiles_ok (hpasses _ hi)
  have hlt := UInt64.lt_iff_toNat_lt.mp (FilesList.iterateRange_ok hrange).1
  rw [Block.mem_iff, FilesList.rangeBlock, Block.stop, Nat.add_sub_of_le (Nat.le_of_lt hlt)] at hmem
  obtain ⟨piece, hpiece, hzero⟩ := (FilesList.make_exact hsum hmake).empty_piece hrange hk hmem.1 hmem.2
  have htransfer : (piece, (states (UInt32.ofNat m)).data) ∈ transfers list states order :=
    List.mem_flatMap.mpr ⟨_, hi, List.mem_map_of_mem hpiece⟩
  exact absurd (writeTransfers_pos hrun _ htransfer) (Nat.not_lt.mpr (Nat.le_of_eq hzero))

/-- A run over all pieces creates every file that has bytes, so that no two of them have names for one file. -/
theorem namesApart_of_run (hsum : sumLengths client.fileLengths < 2 ^ 64) (hmake : FilesList.make client = .ok list)
    (hp : PiecesToDownload.initial client = .ok p) (hvalid : p.geometry.Valid)
    (hserves : system.Serves same client.fileNames)
    (horder : order.Perm ((List.range p.pieces_count.toNat).map UInt32.ofNat)) {disk : FilesOnDisk}
    (hindex : ∀ i, (states i).piece_index = i)
    (hrun : (FilesOnDisk.make list system).writePieces (order.map states) = .ok disk) :
    NamesApart same client.fileLengths client.fileNames := by
  have hnamed : Named list disk.files := named_writePieces (named_make list system) hrun
  obtain ⟨hpasses, hrun⟩ := writePieces_ok hindex hrun
  obtain ⟨hdistinct, hsmall, hlaid⟩ := distinct_of_run hsum hmake hp horder hpasses
  have htotal : p.total_size.toNat = sumLengths client.fileLengths := toNat_getTotalSizeBytes hsum (initial_eq hp).2
  have hle : p.total_size.toNat ≤ p.pieces_count.toNat * p.piece_size.toNat := hvalid.total_le
  rw [Nat.min_eq_right hle, htotal] at hlaid
  have hafter := hdistinct.filesAfter hrun
  obtain rfl := (FilesList.make_ok hmake).1
  have hapart : CreatedApart same disk.files := by
    refine (createdApart_make list system).run hserves ?_ ?_ hrun
    · intro w hw
      obtain ⟨i, hi, hpiece, -⟩ := mem_transfers hw
      rw [named_iterateFiles (hpasses i hi) _ hpiece]
      exact List.mem_of_getElem? (fileNames_eq (hdistinct.size hw).1)
    · intro w hw
      exact size_signed hsum hp hvalid hsmall (hdistinct.size hw).1
  have hcreated : ∀ (k : Nat) n, list.torrent.fileLengths[k]? = some n → n ≠ 0 →
      ∃ f, disk.files[k]? = some f ∧ Creates f.calls (list.fileName k) := by
    intro k n hn hne
    have hk : k < disk.files.length := hafter.length ▸ (List.getElem?_eq_some_iff.mp hn).1
    have hf := List.getElem?_eq_getElem hk
    obtain ⟨name, hcalls⟩ := (hafter.after k n _ hn hf).calls
    have hfull : transferred (transfersTo (transfers list states order) k) = n.toNat :=
      transferred_full hdistinct (transferred_all hdistinct hlaid horder) hn
    have hwritten : transfersTo (transfers list states order) k ≠ [] := by
      intro hnil
      rw [hnil] at hfull
      exact hne (UInt64.toNat_inj.mp hfull.symm)
    rw [fileCalls, if_neg hwritten] at hcalls
    have hcreate : Creates disk.files[k].calls name := ⟨n, hcalls ▸ List.mem_cons_self⟩
    refine ⟨_, hf, ?_⟩
    rw [← hnamed.of_creates hf hcreate]
    exact hcreate
  refine List.pairwise_iff_getElem.mpr ?_
  intro k k' hlt hlt' hless hne hne'
  obtain ⟨hn, hname⟩ := List.getElem?_zip_eq_some.mp (List.getElem?_eq_getElem hlt)
  obtain ⟨hn', hname'⟩ := List.getElem?_zip_eq_some.mp (List.getElem?_eq_getElem hlt')
  obtain ⟨f, hf, hcreate⟩ := hcreated k _ hn hne
  obtain ⟨f', hf', hcreate'⟩ := hcreated k' _ hn' hne'
  have heq := (fileNames_eq hn).symm.trans hname
  have heq' := (fileNames_eq hn').symm.trans hname'
  rw [← Option.some.inj heq, ← Option.some.inj heq']
  exact hapart k k' f f' hf hf' (Nat.ne_of_lt hless) _ _ hcreate hcreate'

/-- Every piece of a torrent can be written, in the order, exactly when the whole pieces end below 4 GiB, no empty
    file lies before the end, and no two files that have bytes have names for one file. -/
theorem writePieces_ok_iff (hsum : sumLengths client.fileLengths < 2 ^ 64) (hmake : FilesList.make client = .ok list)
    (hp : PiecesToDownload.initial client = .ok p) (hvalid : p.geometry.Valid)
    (hindex : ∀ i, (states i).piece_index = i)
    (hdata : ∀ i < p.pieces_count, ∃ n, p.getPieceSize i = .ok n ∧ (states i).data.length = n.toNat)
    (horder : order.Perm ((List.range p.pieces_count.toNat).map UInt32.ofNat))
    (hserves : system.Serves same client.fileNames) :
    (∃ disk, (FilesOnDisk.make list system).writePieces (order.map states) = .ok disk) ↔
      p.pieces_count.toNat * p.piece_size.toNat < 2 ^ 32 ∧ NoEmptyInside client.fileLengths ∧
        NamesApart same client.fileLengths client.fileNames := by
  constructor
  · rintro ⟨disk, hrun⟩
    have hapart := namesApart_of_run hsum hmake hp hvalid hserves horder hindex hrun
    obtain ⟨hpasses, hrun⟩ := writePieces_ok hindex hrun
    exact ⟨(distinct_of_run hsum hmake hp horder hpasses).2.1,
      noEmptyInside_of_run hsum hmake hp hvalid horder hpasses hrun, hapart⟩
  · rintro ⟨hsmall, hempty, hapart⟩
    refine writePieces_total hsum hmake hp hvalid hsmall hempty hserves hapart hindex (horder.nodup_iff.mpr (nodup_indices _))
      (fun i hi => (mem_order horder).mp hi) ?_
    intro i hi
    have hlt := (mem_order horder).mp hi
    obtain ⟨n, hn, hlength⟩ := hdata i hlt
    obtain ⟨n', hn', hpiece⟩ := getPieceSize_eq hvalid hlt
    cases hn.symm.trans hn'
    rw [hlength, hpiece]

end

theorem noEmptyInside_iff {lengths : List UInt64} : NoEmptyInside lengths ↔
    ∀ k < lengths.length, lengths[k]? = some 0 → sumLengths lengths ≤ fileStart lengths k :=
  ⟨fun h k _ hk => h k hk, fun h k hk => h k (List.getElem?_eq_some_iff.mp hk).1 hk⟩

/-- Of two files, the pieces can be written with the second one first. -/
theorem writePieces_ok_twoFiles : ∃ disk, (FilesOnDisk.make ⟨twoFiles, [⟨0, 2, 0⟩, ⟨2, 5, 1⟩]⟩ .emptyDisk).writePieces
    ([1, 0].map twoStates) = .ok disk := by
  have hmake : FilesList.make twoFiles = .ok ⟨twoFiles, [⟨0, 2, 0⟩, ⟨2, 5, 1⟩]⟩ := rfl
  have hp : PiecesToDownload.initial twoFiles = .ok { pieces_count := 2, piece_size := 3, total_size := 5 } := rfl
  have hdata : ∀ i < (2 : UInt32), ∃ n,
      PiecesToDownload.getPieceSize { pieces_count := 2, piece_size := 3, total_size := 5 } i = .ok n ∧
        (twoStates i).data.length = n.toNat := by
    intro i hi
    rcases eq_zero_or_one hi with rfl | rfl <;> exact ⟨_, rfl, rfl⟩
  refine (writePieces_ok_iff (by decide) hmake hp ⟨by decide, by decide⟩ (fun _ => rfl) hdata (by decide)
    (Win32.emptyDisk_serves _)).mpr ⟨by decide, noEmptyInside_iff.mpr ?_, ?_⟩
  · decide
  · have hnames : ([2, 3].zip [ascii "x", ascii "y"]).Pairwise fun a b : UInt64 × List UInt8 =>
        a.1 ≠ 0 → b.1 ≠ 0 → ¬a.2 = b.2 := by decide
    exact hnames

end BittorrentClient
