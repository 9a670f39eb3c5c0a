import BittorrentClient.Theorems.Files.Ranges

/-! A range of the bytes of a torrent goes to the files that hold it: the pieces that `iterate_files` passes on tile
    the range, and each of its bytes has one file and one offset to go to. -/

namespace BittorrentClient
open Blocks Outcome Words

/-- The part of the range that goes to the file. -/
def FilePiece.block (piece : FilePiece) : Block := ⟨piece.piece_offset.toNat, piece.bytes_count.toNat⟩

/-- The piece takes the byte at offset `x` of the range to offset `y` of the file `i`. -/
def FilePiece.Puts (piece : FilePiece) (x i y : Nat) : Prop :=
  piece.file_index = i ∧ x ∈ piece.block ∧ y = piece.file_offset.toNat + (x - piece.piece_offset.toNat)

/-- The file `i` has the byte `x` of the torrent at offset `y`. -/
def Holds (lengths : List UInt64) (x i y : Nat) : Prop :=
  ∃ n, lengths[i]? = some n ∧ y < n.toNat ∧ x = fileStart lengths i + y

/-- The pieces take each byte of the range to the file and the offset that hold it. -/
structure FileTiling (lengths : List UInt64) (a b : UInt64) (pieces : List FilePiece) : Prop where
  files : ∃ first, first + pieces.length ≤ lengths.length ∧
    pieces.map FilePiece.file_index = List.range' first pieces.length
  inside : ∀ piece ∈ pieces, lengths[piece.file_index]? = some piece.file_size ∧
    piece.file_offset.toNat + piece.bytes_count.toNat ≤ piece.file_size.toNat
  placed : ∀ piece ∈ pieces, fileStart lengths piece.file_index + piece.file_offset.toNat =
    a.toNat + piece.piece_offset.toNat
  laid : Laid 0 (pieces.map FilePiece.block) (b.toNat - a.toNat)
  disjoint : (pieces.map FilePiece.block).Pairwise Block.Apart
  covers : Covers (pieces.map FilePiece.block) (b.toNat - a.toNat)
  held : ∀ x, a.toNat ≤ x → x < b.toNat → ∃! dest : Nat × Nat, Holds lengths x dest.1 dest.2
  sent : ∀ x, a.toNat ≤ x → x < b.toNat → ∀ i y,
    (∃ piece ∈ pieces, piece.Puts (x - a.toNat) i y) ↔ Holds lengths x i y

section
variable {lengths : List UInt64} {x i y : Nat}

theorem holds_iff : Holds lengths x i y ↔
    ∃ block, (fileBlocks lengths)[i]? = some block ∧ x ∈ block ∧ y = x - block.start := by
  simp only [Holds, getElem?_fileBlocks, Option.map_eq_some_iff]
  constructor
  · rintro ⟨n, hn, hy, rfl⟩
    exact ⟨_, ⟨n, hn, rfl⟩, ⟨Nat.le_add_right _ _, Nat.add_lt_add_left hy _⟩, (Nat.add_sub_cancel_left _ _).symm⟩
  · rintro ⟨block, ⟨n, hn, rfl⟩, ⟨hstart, hstop⟩, rfl⟩
    simp only [Block.stop] at hstart hstop
    refine ⟨n, hn, ?_, ?_⟩
    · dsimp only
      omega
    · dsimp only
      omega

/-- A byte is in one file only. -/
theorem Holds.unique {i' y' : Nat} (h : Holds lengths x i y) (h' : Holds lengths x i' y') : i = i' ∧ y = y' := by
  obtain ⟨block, hi, hx, rfl⟩ := holds_iff.mp h
  obtain ⟨block', hi', hx', rfl⟩ := holds_iff.mp h'
  obtain rfl := (laid_fileBlocks lengths).index_unique hi hi' hx hx'
  cases hi.symm.trans hi'
  exact ⟨rfl, rfl⟩

theorem exists_holds (hx : x < sumLengths lengths) : ∃ i y, Holds lengths x i y := by
  obtain ⟨block, hblock, hmem⟩ := ((laid_fileBlocks lengths).mem_iff x).mpr ⟨Nat.zero_le x, hx⟩
  obtain ⟨i, hi⟩ := List.mem_iff_getElem?.mp hblock
  exact ⟨i, _, holds_iff.mpr ⟨block, hi, hmem, rfl⟩⟩

end

namespace FilesList

section
variable {list : FilesList} {lengths : List UInt64} {a b : UInt64} {i j : Nat}

theorem Located.length_files (h : list.Located a b i j) : (list.filesBetween i j).length = j + 1 - i := by
  obtain ⟨y, hy, -⟩ := h.stop
  have hlt := (List.getElem?_eq_some_iff.mp hy).1
  rw [filesBetween, List.length_drop, List.length_take]
  omega

/-- The piece of a file between those where the range starts and ends. -/
theorem Located.clipPiece_block (h : list.Located a b i j) (hexact : list.Exact lengths) (hab : a ≤ b) {fo : FileOffset}
    (hfo : fo ∈ list.filesBetween i j) :
    (list.clipPiece a b fo).block = (fo.block.clip a.toNat b.toNat).since a.toNat ∧
      fo.start.toNat + (list.clipPiece a b fo).file_offset.toNat = a.toNat + (list.clipPiece a b fo).piece_offset.toNat ∧
      (list.clipPiece a b fo).file_offset.toNat + (list.clipPiece a b fo).bytes_count.toNat ≤ fo.block.length := by
  obtain ⟨hle, ha, hb⟩ := h.meets hexact fo hfo
  have hmax : a ≤ max a fo.start := by
    rw [UInt64.le_iff_toNat_le, toNat_max64]
    exact Nat.le_max_left _ _
  have hoffset : (list.clipPiece a b fo).piece_offset.toNat = max a.toNat fo.start.toNat - a.toNat := by
    rw [← toNat_max64, ← UInt64.toNat_sub_of_le _ _ hmax]
    rfl
  obtain ⟨hstart, hcount⟩ := @filePiece_toNat list a b (max a fo.start - a) fo hle hab ha hb
  have hstop := FileOffset.block_stop hle
  rw [← clipPiece] at hstart hcount
  simp only [Block.clip, hstop] at hstart hcount
  have hblock : fo.block.start = fo.start.toNat := rfl
  rw [hblock] at hstart hcount
  refine ⟨?_, ?_, ?_⟩
  · rw [FilePiece.block, hoffset, hcount]
    simp only [Block.since, Block.clip, hstop]
    rfl
  · rw [hoffset]
    omega
  · rw [UInt64.le_iff_toNat_le] at hle ha hb
    simp only [FileOffset.block]
    omega

theorem Located.laid_pieces (h : list.Located a b i j) (hexact : list.Exact lengths) (hab : a < b) :
    Laid 0 (((list.filesBetween i j).map (list.clipPiece a b)).map FilePiece.block) (b.toNat - a.toNat) := by
  obtain ⟨s, e, hlaid, hs, he⟩ := h.laid hexact
  have hle := UInt64.le_of_lt hab
  have hmeets := h.meets hexact
  have hclip := hlaid.clip (a := a.toNat) (b := b.toNat) (by simpa using h.files_ne_nil) (UInt64.le_iff_toNat_le.mp hle)
    (List.forall_mem_map.mpr fun fo hfo => by
      rw [FileOffset.block_stop (hmeets fo hfo).1]
      exact UInt64.le_iff_toNat_le.mp (hmeets fo hfo).2.1)
    (List.forall_mem_map.mpr fun fo hfo => UInt64.le_iff_toNat_le.mp (hmeets fo hfo).2.2)
  rw [Nat.max_eq_left hs, Nat.min_eq_right he] at hclip
  have hsince := hclip.since (Nat.le_refl a.toNat)
  rw [Nat.sub_self, List.map_map, List.map_map] at hsince
  rw [List.map_map]
  refine (List.map_congr_left ?_) ▸ hsince
  intro fo hfo
  exact ((h.clipPiece_block hexact hle hfo).1).symm

/-- The piece at a position is that of the file at the same distance from the first. -/
theorem getElem?_pieces {n : Nat} {piece : FilePiece} (hexact : list.Exact lengths)
    (hn : ((list.filesBetween i j).map (list.clipPiece a b))[n]? = some piece) :
    ∃ fo ∈ list.filesBetween i j, piece = list.clipPiece a b fo ∧ piece.file_index = i + n ∧
      lengths[i + n]? = some piece.file_size ∧ (fileBlocks lengths)[i + n]? = some fo.block := by
  rw [List.getElem?_map, Option.map_eq_some_iff] at hn
  obtain ⟨fo, hfo, rfl⟩ := hn
  refine ⟨fo, List.mem_of_getElem? hfo, rfl, ?_⟩
  rw [getElem?_filesBetween] at hfo
  split at hfo
  · refine ⟨hexact.index _ _ hfo, (hexact.size _ _ _ _ _ hfo).symm, ?_⟩
    rw [← hexact.blocks, List.getElem?_map, hfo]
    rfl
  · cases hfo

theorem Located.tiling (h : list.Located a b i j) (hexact : list.Exact lengths) (hab : a < b) :
    FileTiling lengths a b ((list.filesBetween i j).map (list.clipPiece a b)) := by
  have hle := UInt64.le_of_lt hab
  have hlaid := h.laid_pieces hexact hab
  have hcovers : Covers (((list.filesBetween i j).map (list.clipPiece a b)).map FilePiece.block) (b.toNat - a.toNat) :=
    fun x hx => (hlaid.mem_iff x).mpr ⟨Nat.zero_le x, hx⟩
  have hpiece : ∀ piece ∈ (list.filesBetween i j).map (list.clipPiece a b), lengths[piece.file_index]? = some piece.file_size ∧
      piece.file_offset.toNat + piece.bytes_count.toNat ≤ piece.file_size.toNat ∧
      fileStart lengths piece.file_index + piece.file_offset.toNat = a.toNat + piece.piece_offset.toNat := by
    intro piece hpiece
    obtain ⟨n, hn⟩ := List.mem_iff_getElem?.mp hpiece
    obtain ⟨fo, hfo, rfl, hindex, hsize, hblock⟩ := getElem?_pieces hexact hn
    obtain ⟨-, hplaced, hinside⟩ := h.clipPiece_block hexact hle hfo
    rw [getElem?_fileBlocks, hsize, Option.map_some, Option.some_inj] at hblock
    rw [hindex]
    rw [← hblock] at hinside
    refine ⟨hsize, hinside, ?_⟩
    rw [← hplaced]
    exact congrArg (· + _) (congrArg Block.start hblock)
  have htotal : b.toNat ≤ sumLengths lengths := by
    obtain ⟨y, hy, -, hby⟩ := h.stop
    have hstop := hexact.laid.stop_le (n := j) (by rw [List.getElem?_map, hy]; rfl)
    rw [FileOffset.block_stop (hexact.le y (List.mem_of_getElem? hy))] at hstop
    exact Nat.le_trans (UInt64.le_iff_toNat_le.mp hby) hstop
  have hsent : ∀ x k y, (∃ piece ∈ (list.filesBetween i j).map (list.clipPiece a b), piece.Puts (x - a.toNat) k y) →
      a.toNat ≤ x → Holds lengths x k y := by
    rintro x k y ⟨piece, hmem, rfl, ⟨hstart, hstop⟩, rfl⟩ hx
    obtain ⟨hsize, hinside, hplaced⟩ := hpiece piece hmem
    simp only [FilePiece.block, Block.stop] at hstart hstop
    exact ⟨piece.file_size, hsize, by omega, by omega⟩
  refine ⟨⟨i, ?_, ?_⟩, fun piece hmem => ⟨(hpiece piece hmem).1, (hpiece piece hmem).2.1⟩,
    fun piece hmem => (hpiece piece hmem).2.2, hlaid, hlaid.pairwise_apart, hcovers, ?_, ?_⟩
  · obtain ⟨y, hy, -⟩ := h.stop
    have hlt := (List.getElem?_eq_some_iff.mp hy).1
    have hlength := congrArg List.length hexact.blocks
    rw [List.length_map, fileBlocks, length_layOut, List.length_map] at hlength
    have := h.le
    rw [List.length_map, h.length_files]
    omega
  · refine List.ext_getElem? ?_
    intro n
    rw [List.getElem?_map]
    cases hn : ((list.filesBetween i j).map (list.clipPiece a b))[n]? with
    | none => simpa using hn
    | some piece =>
      obtain ⟨fo, -, -, hindex, -⟩ := getElem?_pieces hexact hn
      have hlt := (List.getElem?_eq_some_iff.mp hn).1
      rw [Option.map_some, hindex, List.getElem?_range' hlt, Nat.one_mul]
  · intro x hax hxb
    obtain ⟨k, y, hk⟩ := exists_holds (Nat.lt_of_lt_of_le hxb htotal)
    exact ⟨(k, y), hk, fun dest hdest => Prod.ext (hdest.unique hk).1 (hdest.unique hk).2⟩
  · intro x hax hxb k y
    refine ⟨fun hputs => hsent x k y hputs hax, ?_⟩
    intro hk
    obtain ⟨block, hblock, hx⟩ := hcovers (x - a.toNat) (by omega)
    obtain ⟨piece, hmem, rfl⟩ := List.mem_map.mp hblock
    have hputs : piece.Puts (x - a.toNat) piece.file_index
      (piece.file_offset.toNat + (x - a.toNat - piece.piece_offset.toNat)) := ⟨rfl, hx, rfl⟩
    obtain ⟨rfl, rfl⟩ := (hsent x _ _ ⟨piece, hmem, hputs⟩ hax).unique hk
    exact ⟨piece, hmem, hputs⟩

end

theorem Exact.fileTiling {list : FilesList} {lengths : List UInt64} {a b : UInt64} {pieces : List FilePiece}
    (hexact : list.Exact lengths) (h : list.iterateRange a b = .ok pieces) : FileTiling lengths a b pieces := by
  obtain ⟨hab, i, j, hlocated, hpieces⟩ := iterateRange_ok h
  have htiling := hlocated.tiling hexact hab
  rw [hlocated.filePieces hexact hab, Prod.mk.injEq] at hpieces
  rwa [hpieces.1] at htiling

end FilesList

/-- Wherever no assertion of `iterate_files` fails, it takes each byte of the range to its file and its offset in it. -/
theorem iterateRange_tiles {client : TorrentClient} {list : FilesList} {a b : UInt64} {pieces : List FilePiece}
    (hsum : sumLengths client.fileLengths < 2 ^ 64) (hmake : FilesList.make client = .ok list)
    (h : list.iterateRange a b = .ok pieces) : FileTiling client.fileLengths a b pieces :=
  (FilesList.make_exact hsum hmake).fileTiling h

/-- A torrent of files of the given lengths. -/
def manyFiles (lengths : List UInt64) : TorrentClient where
  metainfo := { info.length_or_files := .files (lengths.map fun n => ⟨n, []⟩) }

theorem iterateRange_tiles_manyFiles :
    FileTiling [3, 0, 5] 2 6 [⟨0, [], 2, 1, 0, 3⟩, ⟨1, [], 0, 0, 1, 0⟩, ⟨2, [], 0, 3, 1, 5⟩] := by
  have hmake : FilesList.make (manyFiles [3, 0, 5]) =
      .ok ⟨manyFiles [3, 0, 5], [⟨0, 3, 0⟩, ⟨3, 3, 1⟩, ⟨3, 8, 2⟩]⟩ := rfl
  exact iterateRange_tiles (by decide) hmake rfl

end BittorrentClient
