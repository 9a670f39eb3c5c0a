import BittorrentClient.Theorems.Files.Tiling
import BittorrentClient.Theorems.Files.Calls

/-! The ranges that can be written to disk: an empty file that starts in the range trips an assertion. -/

namespace BittorrentClient
open Blocks Outcome Words FlatMemory

/-- No assertion fails when the range is written: neither of `FilesList::make`, nor of `iterate_files`, nor of
    `on_write_file_piece` for the pieces that it is passed. -/
def Writable (client : TorrentClient) (a b : UInt64) : Prop :=
  ∃ list pieces, FilesList.make client = .ok list ∧ list.iterateRange a b = .ok pieces ∧
    ∀ piece ∈ pieces, FilesOnDisk.checkFilePiece list.files_offset.length (b - a).toNat piece = .ok ()

/-- The last offset is the sum that is computed, with the same wraps. -/
theorem getLast?_fileOffsets {files : List Metainfo.File} (hne : files ≠ []) (start : UInt64) (index : Nat) :
    ∃ back, (FilesList.fileOffsets start index files).getLast? = some back ∧
      back.end_ = files.foldl (fun total f => total + f.length_bytes) start := by
  induction files generalizing start index with
  | nil => exact absurd rfl hne
  | cons file files ih =>
    cases files with
    | nil => exact ⟨_, rfl, rfl⟩
    | cons next files =>
      obtain ⟨back, hback, hend⟩ := ih (List.cons_ne_nil _ _) (start + file.length_bytes) (index + 1)
      refine ⟨back, ?_, hend⟩
      rw [FilesList.fileOffsets, List.getLast?_cons, hback]
      rfl

/-- `FilesList::make` takes every list of files. -/
theorem make_of_files {client : TorrentClient} {files : List Metainfo.File}
    (hfiles : client.metainfo.info.length_or_files = .files files) (hne : files ≠ []) :
    FilesList.make client = .ok ⟨client, FilesList.fileOffsets 0 0 files⟩ := by
  obtain ⟨back, hback, hend⟩ := getLast?_fileOffsets hne 0 0
  refine FilesList.make_eq.mpr ⟨rfl, ?_, back, hback, ?_⟩
  · rw [FilesList.filesOffset, hfiles]
  · rw [TorrentClient.getTotalSizeBytes, hfiles, hend]

namespace FilesList
variable {list : FilesList} {lengths : List UInt64} {a b : UInt64} {i j : Nat}

/-- An empty file has no bytes at its offset. -/
theorem Exact.empty_iff (hexact : list.Exact lengths) {k : Nat} {fo : FileOffset}
    (hk : list.files_offset[k]? = some fo) :
    fileStart lengths k = fo.start.toNat ∧ (lengths[k]? = some 0 ↔ fo.end_ = fo.start) := by
  have hblock : (fileBlocks lengths)[k]? = some fo.block := by
    rw [← hexact.blocks, List.getElem?_map, hk]
    rfl
  rw [getElem?_fileBlocks, Option.map_eq_some_iff] at hblock
  obtain ⟨n, hn, hblock⟩ := hblock
  have hle := UInt64.le_iff_toNat_le.mp (hexact.le fo (List.mem_of_getElem? hk))
  have hstart : fileStart lengths k = fo.start.toNat := congrArg Block.start hblock
  have hlength : n.toNat = fo.end_.toNat - fo.start.toNat := congrArg Block.length hblock
  refine ⟨hstart, ?_⟩
  rw [hn, Option.some_inj, ← UInt64.toNat_inj, ← UInt64.toNat_inj, hlength, UInt64.toNat_zero]
  omega

/-- The piece of a file has bytes when the file has. -/
theorem Located.checkFilePiece_iff (h : list.Located a b i j) (hexact : list.Exact lengths) (hab : a < b)
    {fo : FileOffset} (hfo : fo ∈ list.filesBetween i j) :
    FilesOnDisk.checkFilePiece list.files_offset.length (b - a).toNat (list.clipPiece a b fo) = .ok () ↔
      a < fo.end_ ∧ fo.start < b ∧ fo.start < fo.end_ := by
  obtain ⟨k, -, -, hk⟩ := mem_filesBetween hfo
  have hindex : fo.file_index < list.files_offset.length := by
    rw [hexact.index k fo hk]
    exact (List.getElem?_eq_some_iff.mp hk).1
  obtain ⟨hle, -, -⟩ := h.meets hexact fo hfo
  have hblock := (h.clipPiece_block hexact (UInt64.le_of_lt hab) hfo).1
  have hoffset : (list.clipPiece a b fo).piece_offset.toNat = max a.toNat fo.start.toNat - a.toNat :=
    congrArg Block.start hblock
  have hcount : (list.clipPiece a b fo).bytes_count.toNat = min fo.block.stop b.toNat - max a.toNat fo.start.toNat :=
    congrArg Block.length hblock
  have hindex : (list.clipPiece a b fo).file_index < list.files_offset.length := hindex
  rw [checkFilePiece_ok, hoffset, hcount, FileOffset.block_stop hle, UInt64.toNat_sub_of_le _ _ (UInt64.le_of_lt hab)]
  simp only [UInt64.lt_iff_toNat_lt] at *
  omega

/-- A file that starts in the range is between those where the range starts and ends. -/
theorem Located.mem_of_start (h : list.Located a b i j) (hexact : list.Exact lengths) {k : Nat} {fo : FileOffset}
    (hfo : list.files_offset[k]? = some fo) (hak : a ≤ fo.start) (hkb : fo.start < b) : fo ∈ list.filesBetween i j := by
  have hik : i ≤ k := by
    refine Nat.le_of_not_lt ?_
    intro hki
    exact UInt64.not_lt.mpr hak (h.before k hki fo hfo)
  have hkj : k ≤ j := by
    refine Nat.le_of_not_lt ?_
    intro hjk
    obtain ⟨y, hy, -, hby⟩ := h.stop
    exact UInt64.not_lt.mpr (UInt64.le_trans hby (hexact.end_le_start hy hfo hjk)) hkb
  refine List.mem_of_getElem? (i := k - i) ?_
  rw [getElem?_filesBetween, if_pos (by omega), Nat.add_sub_cancel' hik]
  exact hfo

/-- A file between those where the range starts and ends starts before the end of the range. -/
theorem Located.start_lt (h : list.Located a b i j) (hexact : list.Exact lengths) {fo : FileOffset}
    (hfo : fo ∈ list.filesBetween i j) : fo.start < b := by
  obtain ⟨k, -, hkj, hk⟩ := mem_filesBetween hfo
  obtain ⟨y, hy, hyb, -⟩ := h.stop
  rcases Nat.lt_or_eq_of_le hkj with hlt | rfl
  · have hle := UInt64.le_trans (hexact.le fo (List.mem_of_getElem? hk)) (hexact.end_le_start hk hy hlt)
    exact UInt64.lt_of_le_of_lt hle hyb
  · cases hy.symm.trans hk
    exact hyb

/-- It is the file where the range starts, or it starts in the range. -/
theorem Located.start_or (h : list.Located a b i j) (hexact : list.Exact lengths) {fo : FileOffset}
    (hfo : fo ∈ list.filesBetween i j) : (fo.start ≤ a ∧ a < fo.end_) ∨ a < fo.start := by
  obtain ⟨k, hik, -, hk⟩ := mem_filesBetween hfo
  obtain ⟨x, hx, hxa, hax⟩ := h.start
  rcases Nat.lt_or_eq_of_le hik with hlt | rfl
  · exact .inr (UInt64.lt_of_lt_of_le hax (hexact.end_le_start hx hk hlt))
  · cases hx.symm.trans hk
    exact .inl ⟨hxa, hax⟩

end FilesList

/-- A range can be written exactly when no empty file starts in it. -/
theorem writable_iff {client : TorrentClient} {files : List Metainfo.File} {a b : UInt64}
    (hfiles : client.metainfo.info.length_or_files = .files files) (hne : files ≠ [])
    (hsum : sumLengths client.fileLengths < 2 ^ 64) (hab : a < b) (hb : b.toNat ≤ sumLengths client.fileLengths) :
    Writable client a b ↔ ∀ k, client.fileLengths[k]? = some 0 →
      ¬(a.toNat ≤ fileStart client.fileLengths k ∧ fileStart client.fileLengths k < b.toNat) := by
  have hmake := make_of_files hfiles hne
  have hexact := FilesList.make_exact hsum hmake
  generalize FilesList.mk client (FilesList.fileOffsets 0 0 files) = list at hmake hexact
  constructor
  · rintro ⟨list', pieces, hmake', hpieces, hchecks⟩ k hk ⟨hak, hkb⟩
    cases hmake.symm.trans hmake'
    obtain ⟨-, i, j, hlocated, hpieces⟩ := FilesList.iterateRange_ok hpieces
    rw [hlocated.filePieces hexact hab, Prod.mk.injEq] at hpieces
    rw [← hpieces.1] at hchecks
    have hlength := congrArg List.length hexact.blocks
    rw [List.length_map, fileBlocks, length_layOut, List.length_map] at hlength
    have hlt : k < list.files_offset.length := hlength ▸ (List.getElem?_eq_some_iff.mp hk).1
    have hfo := FilesList.getElem?_of_getD hlt
    generalize list.files_offset.getD k {} = fo at hfo
    obtain ⟨hstart, hempty⟩ := hexact.empty_iff hfo
    rw [hstart, ← UInt64.le_iff_toNat_le] at hak
    rw [hstart, ← UInt64.lt_iff_toNat_lt] at hkb
    have hmem := hlocated.mem_of_start hexact hfo hak hkb
    have hcheck := hchecks _ (List.mem_map_of_mem hmem)
    obtain ⟨-, -, hlt⟩ := (hlocated.checkFilePiece_iff hexact hab hmem).mp hcheck
    rw [hempty.mp hk] at hlt
    exact UInt64.lt_irrefl _ hlt
  · intro h
    have hnonempty : ∀ fo ∈ list.files_offset, a ≤ fo.start → fo.start < b → fo.start < fo.end_ := by
      intro fo hfo hak hkb
      obtain ⟨k, hk⟩ := List.mem_iff_getElem?.mp hfo
      obtain ⟨hstart, hempty⟩ := hexact.empty_iff hk
      refine UInt64.lt_of_le_of_ne (hexact.le fo hfo) ?_
      intro heq
      refine h k (hempty.mpr heq.symm) ?_
      rw [hstart]
      exact ⟨UInt64.le_iff_toNat_le.mp hak, UInt64.lt_iff_toNat_lt.mp hkb⟩
    obtain ⟨i, j, hlocated, hpieces⟩ := hexact.iterateRange_total hab hb (by
      intro fo hfo hstart
      have hlt := hnonempty fo hfo (UInt64.le_of_eq hstart.symm) (hstart ▸ hab)
      rwa [hstart] at hlt)
    refine ⟨list, _, hmake, hpieces, List.forall_mem_map.mpr ?_⟩
    intro fo hfo
    rw [hlocated.checkFilePiece_iff hexact hab hfo]
    have hkb := hlocated.start_lt hexact hfo
    rcases hlocated.start_or hexact hfo with ⟨hxa, hax⟩ | hak
    · exact ⟨hax, hkb, UInt64.lt_of_le_of_lt hxa hax⟩
    · obtain ⟨k, -, -, hk⟩ := FilesList.mem_filesBetween hfo
      have hlt := hnonempty fo (List.mem_of_getElem? hk) (UInt64.le_of_lt hak) hkb
      exact ⟨UInt64.lt_trans hak hlt, hkb, hlt⟩

theorem writable_manyFiles : Writable (manyFiles [0, 3, 0, 5]) 1 3 := by
  refine (writable_iff rfl (by decide) (by decide) (by decide) (by decide)).mpr ?_
  intro k hk
  have hlt := (List.getElem?_eq_some_iff.mp hk).1
  revert hk
  revert k
  decide

/-- A .torrent file with an empty file before a file of one byte. -/
def emptyFirst : List UInt8 := ascii ("d8:announce1:u4:infod5:filesld6:lengthi0e4:pathl1:xeed6:lengthi1e4:pathl1:yeee" ++
  "12:piece lengthi1e6:pieces20:aaaaaaaaaaaaaaaaaaaaee")

def emptyFirstInfo : TorrentFileInfo where
  metainfo := { tracker_url_utf8 := ascii "u", info.piece_length_bytes := 1, info.pieces_SHA1 := ascii "aaaaaaaaaaaaaaaaaaaa"
                info.length_or_files := .files [⟨0, ascii "x"⟩, ⟨1, ascii "y"⟩] }
  info_position := ⟨20, 128⟩

theorem emptyFirst_accepted : parseTorrentFileContent (place 4096 emptyFirst) ⟨2 ^ 62, 2 ^ 62⟩ 40
    (.of 4096 emptyFirst (by decide +kernel)) = some (.ok emptyFirstInfo) := by decide +kernel

/-- The parser accepts an empty file, and the first byte of the torrent cannot be written: it starts where the
    empty file does. -/
theorem not_writable_emptyFirst : ∃ info, parseTorrentFileContent (place 4096 emptyFirst) ⟨2 ^ 62, 2 ^ 62⟩ 40
    (.of 4096 emptyFirst (by decide +kernel)) = some (.ok info) ∧
      TorrentClient.fileLengths { metainfo := info.metainfo } = [0, 1] ∧ ¬Writable { metainfo := info.metainfo } 0 1 := by
  refine ⟨emptyFirstInfo, emptyFirst_accepted, rfl, ?_⟩
  rintro ⟨list, pieces, hmake, hpieces, -⟩
  cases hmake
  have herror : FilesList.iterateRange ⟨{ metainfo := emptyFirstInfo.metainfo }, [⟨0, 0, 0⟩, ⟨0, 1, 1⟩]⟩ 0 1 =
      .error .startInFile := by decide
  exact nomatch herror.symm.trans hpieces

end BittorrentClient
