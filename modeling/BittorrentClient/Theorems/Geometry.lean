import BittorrentClient.Lib.Blocks
import BittorrentClient.Lib.Words
import BittorrentClient.Theorems.Pieces

/-! The geometry of a torrent: its pieces are the chunks of its bytes. The size of a piece is computed with a
    product that wraps, and still it is exact; the range of its bytes wraps from 4 GiB on. -/

namespace BittorrentClient
open Blocks Outcome Words

structure Geometry where
  pieces_count : UInt32
  piece_size : UInt32
  total_size : UInt64
  deriving DecidableEq, Repr

namespace Geometry
variable (g : Geometry)

/-- What `TorrentClient::make` checks, in exact arithmetic. -/
structure Valid : Prop where
  lt_total : (g.pieces_count.toNat - 1) * g.piece_size.toNat < g.total_size.toNat
  total_le : g.total_size.toNat ≤ g.pieces_count.toNat * g.piece_size.toNat

def chunking (h : g.Valid) : Chunking where
  count := g.pieces_count.toNat
  size := g.piece_size.toNat
  total := g.total_size.toNat
  lt_total := h.lt_total
  total_le := h.total_le

/-- The bytes of a piece. -/
def piece (i : UInt32) : Block :=
  ⟨i.toNat * g.piece_size.toNat, min g.piece_size.toNat (g.total_size.toNat - i.toNat * g.piece_size.toNat)⟩

end Geometry

def PiecesToDownload.geometry (p : PiecesToDownload) : Geometry := ⟨p.pieces_count, p.piece_size, p.total_size⟩

/-! ### The checks of the torrent -/

/-- The pieces that `main` sets up for a torrent that passed the checks have a valid geometry. -/
theorem valid_of_validate {client : TorrentClient} (h : client.validate = .ok ()) :
    ∃ p, PiecesToDownload.initial client = .ok p ∧ p.geometry.Valid ∧ client.getTotalSizeBytes = .ok p.total_size := by
  obtain ⟨total, htotal, h⟩ := bind_ok h
  obtain ⟨_, hcount, h⟩ := bind_ok h
  obtain ⟨_, hsize, h⟩ := bind_ok h
  obtain ⟨_, hlt, h⟩ := bind_ok h
  have hcount : 0 < client.getPiecesCount.toNat := UInt32.lt_iff_toNat_lt.mp (check_ok hcount)
  have hproduct : (client.getPieceSizeBytes.toUInt64 * (client.getPiecesCount - 1).toUInt64).toNat =
      (client.getPiecesCount.toNat - 1) * client.getPieceSizeBytes.toNat := by
    rw [toNat_mul_toUInt64, toNat_pred hcount, Nat.mul_comm]
  have hlt := UInt64.lt_iff_toNat_lt.mp (check_ok hlt)
  have hlast := UInt64.le_iff_toNat_le.mp (check_ok h)
  rw [UInt64.toNat_sub_of_le _ _ (UInt64.le_iff_toNat_le.mpr (Nat.le_of_lt hlt)), hproduct,
    UInt32.toNat_toUInt64] at hlast
  rw [hproduct] at hlt
  have hwhole : client.getPiecesCount.toNat * client.getPieceSizeBytes.toNat =
      (client.getPiecesCount.toNat - 1) * client.getPieceSizeBytes.toNat + client.getPieceSizeBytes.toNat := by
    rw [← Nat.succ_mul, Nat.succ_eq_add_one, Nat.sub_add_cancel hcount]
  have hinitial : PiecesToDownload.initial client = .ok
      { pieces_count := client.getPiecesCount, piece_size := client.getPieceSizeBytes, total_size := total } := by
    rw [PiecesToDownload.initial, htotal]
    rfl
  exact ⟨_, hinitial, ⟨hlt, Nat.le_trans (Nat.sub_le_iff_le_add'.mp hlast) (Nat.le_of_eq hwhole.symm)⟩, htotal⟩

/-! ### The size of a piece -/

/-- The wrapped product differs from the exact one by a multiple of 2^32, which the last conversion drops. -/
theorem getPieceSize_eq {p : PiecesToDownload} (h : p.geometry.Valid) {i : UInt32} (hi : i < p.pieces_count) :
    ∃ n, p.getPieceSize i = .ok n ∧ n.toNat = (p.geometry.piece i).length := by
  let c := p.geometry.chunking h
  have hi := UInt32.lt_iff_toNat_lt.mp hi
  have hcount : 0 < p.pieces_count.toNat := Nat.zero_lt_of_lt hi
  have hpred := toNat_pred hcount
  rw [PiecesToDownload.getPieceSize]
  by_cases hlast : i.toNat + 1 < p.pieces_count.toNat
  · rw [if_pos (UInt32.lt_iff_toNat_lt.mpr (by omega))]
    exact ⟨_, rfl, (c.length_of_lt hlast).symm⟩
  · rw [if_neg (by rw [UInt32.lt_iff_toNat_lt]; omega)]
    have hindex : i.toNat = p.pieces_count.toNat - 1 := by omega
    have hlength : (p.geometry.piece i).length =
        p.total_size.toNat - (p.pieces_count.toNat - 1) * p.piece_size.toNat := by
      have := c.length_last
      rw [← show i.toNat = c.count - 1 from hindex] at this
      rw [← hindex]
      exact this
    have hlt := h.lt_total
    have hle := c.total_le_last
    have hsize : (p.piece_size * (p.pieces_count - 1)).toUInt64.toNat =
        (p.pieces_count.toNat - 1) * p.piece_size.toNat % 2 ^ 32 := by
      rw [UInt32.toNat_toUInt64, UInt32.toNat_mul, hpred, Nat.mul_comm]
    have hsmall := p.piece_size.toNat_lt
    simp only [PiecesToDownload.geometry, Geometry.chunking, c] at hlt hle
    have hpos : (p.piece_size * (p.pieces_count - 1)).toUInt64 < p.total_size := by
      rw [UInt64.lt_iff_toNat_lt, hsize]
      omega
    refine ⟨_, by dsimp only; rw [check_of _ hpos]; rfl, ?_⟩
    rw [UInt64.toNat_toUInt32, UInt64.toNat_sub_of_le _ _ (UInt64.le_of_lt hpos), hsize, hlength]
    omega

/-- From the last piece on, every index gets the size of the last piece. -/
theorem getPieceSize_of_le {p : PiecesToDownload} {i : UInt32} (h : p.pieces_count - 1 ≤ i) :
    p.getPieceSize i = p.getPieceSize (p.pieces_count - 1) := by
  have hi : ¬i < p.pieces_count - 1 := by
    rw [UInt32.lt_iff_toNat_lt]
    exact Nat.not_lt.mpr (UInt32.le_iff_toNat_le.mp h)
  have hlast : ¬p.pieces_count - 1 < p.pieces_count - 1 := by
    rw [UInt32.lt_iff_toNat_lt]
    exact Nat.lt_irrefl _
  rw [PiecesToDownload.getPieceSize, PiecesToDownload.getPieceSize, if_neg hi, if_neg hlast]

/-- The size of a piece as a number; a size that is not computed counts as zero. -/
def PiecesToDownload.pieceBytes (p : PiecesToDownload) (i : UInt32) : Nat :=
  match p.getPieceSize i with
  | .ok n => n.toNat
  | .error _ => 0

/-- The sizes of the pieces: all but the last are whole, the last has what is left, and together they have
    all bytes. -/
structure SizesExact (p : PiecesToDownload) : Prop where
  never_fails : ∀ i, ∃ n, p.getPieceSize i = .ok n ∧ 1 ≤ n ∧ n ≤ p.piece_size
  whole : ∀ i < p.pieces_count - 1, p.getPieceSize i = .ok p.piece_size
  last : ∃ n, p.getPieceSize (p.pieces_count - 1) = .ok n ∧
    n.toNat = p.total_size.toNat - (p.pieces_count.toNat - 1) * p.piece_size.toNat
  sum : ((List.range p.pieces_count.toNat).map fun i => p.pieceBytes (UInt32.ofNat i)).sum = p.total_size.toNat

/-- A piece of a torrent has at least one byte and at most a whole piece. -/
theorem getPieceSize_bounds {p : PiecesToDownload} (h : p.geometry.Valid) (i : UInt32) :
    ∃ n, p.getPieceSize i = .ok n ∧ 1 ≤ n ∧ n ≤ p.piece_size := by
  let c := p.geometry.chunking h
  have hcount : 0 < p.pieces_count.toNat := c.count_pos
  have hpred := toNat_pred hcount
  have hbelow : ∀ j < p.pieces_count, ∃ n, p.getPieceSize j = .ok n ∧ 1 ≤ n ∧ n ≤ p.piece_size := by
    intro j hj
    obtain ⟨n, hn, hlength⟩ := getPieceSize_eq h hj
    have hpos : 0 < (p.geometry.piece j).length := c.length_pos (UInt32.lt_iff_toNat_lt.mp hj)
    have hle : (p.geometry.piece j).length ≤ p.piece_size.toNat := Nat.min_le_left _ _
    refine ⟨n, hn, ?_, ?_⟩
    · rw [UInt32.le_iff_toNat_le, hlength]
      exact hpos
    · rw [UInt32.le_iff_toNat_le, hlength]
      exact hle
  by_cases hi : i < p.pieces_count
  · exact hbelow i hi
  · have hle : p.pieces_count - 1 ≤ i := by
      rw [UInt32.lt_iff_toNat_lt] at hi
      rw [UInt32.le_iff_toNat_le, hpred]
      omega
    rw [getPieceSize_of_le hle]
    exact hbelow _ (UInt32.lt_iff_toNat_lt.mpr (by omega))

/-- The sizes of the pieces add up to the size of the torrent. -/
theorem sum_pieceBytes {p : PiecesToDownload} (h : p.geometry.Valid) :
    ((List.range p.pieces_count.toNat).map fun i => p.pieceBytes (UInt32.ofNat i)).sum = p.total_size.toNat := by
  let c := p.geometry.chunking h
  have htotal := c.tiles.total_eq
  rw [Nat.zero_add, total, List.map_map] at htotal
  refine Eq.trans ?_ htotal
  refine congrArg List.sum (List.map_congr_left ?_)
  intro k hk
  have hk := List.mem_range.mp hk
  have hindex : (UInt32.ofNat k).toNat = k := UInt32.toNat_ofNat_of_lt (Nat.lt_trans hk p.pieces_count.toNat_lt)
  obtain ⟨n, hn, hlength⟩ := getPieceSize_eq h (i := UInt32.ofNat k) (UInt32.lt_iff_toNat_lt.mpr (by rw [hindex]; exact hk))
  rw [PiecesToDownload.pieceBytes, hn]
  refine hlength.trans ?_
  rw [Geometry.piece, hindex]
  rfl

/-- However large the torrent is, the product that wraps gives the exact sizes. -/
theorem sizesExact {p : PiecesToDownload}
    (hlt : (p.pieces_count.toNat - 1) * p.piece_size.toNat < p.total_size.toNat)
    (hle : p.total_size.toNat ≤ p.pieces_count.toNat * p.piece_size.toNat) : SizesExact p := by
  have h : p.geometry.Valid := ⟨hlt, hle⟩
  let c := p.geometry.chunking h
  have hcount : 0 < p.pieces_count.toNat := c.count_pos
  have hpred := toNat_pred hcount
  refine ⟨getPieceSize_bounds h, ?_, ?_, sum_pieceBytes h⟩
  · intro i hi
    rw [PiecesToDownload.getPieceSize, if_pos hi]
  · obtain ⟨n, hn, hlength⟩ := getPieceSize_eq h (i := p.pieces_count - 1) (UInt32.lt_iff_toNat_lt.mpr (by omega))
    refine ⟨n, hn, ?_⟩
    have hlast : (p.geometry.piece (p.pieces_count - 1)).length = (c.chunk (c.count - 1)).length := by
      rw [Geometry.piece, hpred]
      rfl
    rw [hlength, hlast]
    exact c.length_last

/-- Three pieces of nearly 2 GiB each: the product is above 4 GiB and has wrapped. -/
theorem sizesExact_sixGiB : SizesExact { pieces_count := 3, piece_size := 0x80000000, total_size := 0x100000005 } :=
  sizesExact (by decide) (by decide)

/-! ### The bytes of a piece -/

theorem FilesList.make_ok {client : TorrentClient} {list : FilesList} (h : FilesList.make client = .ok list) :
    list.torrent = client ∧ list.files_offset ≠ [] ∧
      client.getTotalSizeBytes = .ok (list.files_offset.getLastD {}).end_ := by
  obtain ⟨offsets, -, h⟩ := bind_ok h
  cases hlast : offsets.getLast? with
  | none =>
    rw [hlast] at h
    cases h
  | some back =>
    rw [hlast] at h
    obtain ⟨total, htotal, h⟩ := bind_ok h
    obtain ⟨_, hback, h⟩ := bind_ok h
    cases h
    refine ⟨rfl, ?_, ?_⟩
    · rintro rfl
      cases hlast
    · rw [htotal, ← check_ok hback, List.getLastD_eq_getLast?, hlast]
      rfl

/-- The block of bytes that `iterate_files` takes for a piece. -/
def FilesList.rangeBlock (list : FilesList) (i : UInt32) : Block :=
  ⟨(list.pieceRange i).1.toNat, (list.pieceRange i).2.toNat - (list.pieceRange i).1.toNat⟩

/-- The blocks of all pieces, in order. -/
def FilesList.rangeBlocks (list : FilesList) (piecesCount : UInt32) : List Block :=
  (List.range piecesCount.toNat).map fun i => list.rangeBlock (UInt32.ofNat i)

/-- Every piece is mapped to its bytes, in exact arithmetic: the range that `iterate_files` takes starts at the
    offset of the piece and has the size of the piece, which is the size of the buffer that the first part
    allocates; the ranges do not overlap, and cover the torrent and nothing else. -/
structure PiecesMatch (list : FilesList) (p : PiecesToDownload) : Prop where
  range : ∀ i < p.pieces_count, ∃ n, p.getPieceSize i = .ok n ∧
    list.iterateFiles i = list.iterateRange (list.pieceRange i).1 (list.pieceRange i).2 ∧
    (list.pieceRange i).1.toNat = i.toNat * p.piece_size.toNat ∧
    (list.pieceRange i).2.toNat = i.toNat * p.piece_size.toNat + n.toNat
  buffer : ∀ (q q' : PiecesToDownload) piece state msg, q.geometry = p.geometry → q.pieces.get? piece = some state →
    state.piece_index < p.pieces_count → state.data = [] → q.onPiecePartReceive piece msg = .ok q' →
    ∃ state', q'.pieces.get? piece = some state' ∧ state'.data.length = (list.rangeBlock state.piece_index).length
  disjoint : (list.rangeBlocks p.pieces_count).Pairwise Block.Apart
  covers : ∀ x, (∃ block ∈ list.rangeBlocks p.pieces_count, x ∈ block) ↔ x < p.total_size.toNat

section
variable {client : TorrentClient} {list : FilesList} {p : PiecesToDownload}

theorem initial_eq (hp : PiecesToDownload.initial client = .ok p) :
    p.piece_size = client.getPieceSizeBytes ∧ client.getTotalSizeBytes = .ok p.total_size := by
  obtain ⟨total, htotal, hp⟩ := bind_ok hp
  cases hp
  exact ⟨rfl, htotal⟩

/-- The two ends of the range wrap at 4 GiB, the second before it is cut at the end of the torrent. -/
theorem pieceRange_toNat (hlist : FilesList.make client = .ok list) (hp : PiecesToDownload.initial client = .ok p)
    {i : UInt32} (hi : i < p.pieces_count) :
    (list.pieceRange i).1.toNat = i.toNat * p.piece_size.toNat % 2 ^ 32 ∧
      (list.pieceRange i).2.toNat = min ((i.toNat + 1) * p.piece_size.toNat % 2 ^ 32) p.total_size.toNat := by
  obtain ⟨htorrent, -, htotal⟩ := FilesList.make_ok hlist
  obtain ⟨hsize, htotal'⟩ := initial_eq hp
  have hend : (list.files_offset.getLastD {}).end_ = p.total_size := Except.ok.inj (htotal.symm.trans htotal')
  rw [FilesList.pieceRange, htorrent, hend, ← hsize]
  constructor
  · rw [UInt32.toNat_toUInt64, UInt32.toNat_mul]
  · rw [toNat_min64, UInt32.toNat_toUInt64, UInt32.toNat_mul, toNat_succ_of_lt hi]

theorem getPieceSize_congr {q : PiecesToDownload} (h : q.geometry = p.geometry) (i : UInt32) :
    q.getPieceSize i = p.getPieceSize i := by
  simp only [PiecesToDownload.geometry, Geometry.mk.injEq] at h
  simp only [PiecesToDownload.getPieceSize, h]

/-- Below 4 GiB the range of a piece is its bytes. -/
theorem rangeBlock_eq (hlist : FilesList.make client = .ok list) (hp : PiecesToDownload.initial client = .ok p)
    (hvalid : p.geometry.Valid) (hsmall : p.pieces_count.toNat * p.piece_size.toNat < 2 ^ 32) {i : UInt32}
    (hi : i < p.pieces_count) :
    (list.pieceRange i).1.toNat = (p.geometry.piece i).start ∧ (list.pieceRange i).2.toNat = (p.geometry.piece i).stop := by
  obtain ⟨hstart, hend⟩ := pieceRange_toNat hlist hp hi
  have hi := UInt32.lt_iff_toNat_lt.mp hi
  have hstop := (p.geometry.chunking hvalid).stop_eq hi
  have hsucc : (i.toNat + 1) * p.piece_size.toNat ≤ p.pieces_count.toNat * p.piece_size.toNat := Nat.mul_le_mul_right _ hi
  have hle : i.toNat * p.piece_size.toNat ≤ (i.toNat + 1) * p.piece_size.toNat := Nat.mul_le_mul_right _ (Nat.le_succ _)
  rw [hstart, hend, Nat.mod_eq_of_lt (by omega), Nat.mod_eq_of_lt (by omega)]
  exact ⟨rfl, hstop.symm⟩

/-- Below 4 GiB the ranges of the pieces tile the torrent. -/
theorem rangeBlocks_tiles (hlist : FilesList.make client = .ok list) (hp : PiecesToDownload.initial client = .ok p)
    (hvalid : p.geometry.Valid) (hsmall : p.pieces_count.toNat * p.piece_size.toNat < 2 ^ 32) :
    Tiles 0 (list.rangeBlocks p.pieces_count) p.total_size.toNat := by
  have htiles := (p.geometry.chunking hvalid).tiles
  refine (congrArg (fun bs => Tiles 0 bs p.total_size.toNat) (List.map_congr_left ?_)).mpr htiles
  intro k hk
  have hk := List.mem_range.mp hk
  have hlt : k < UInt32.size := Nat.lt_trans hk p.pieces_count.toNat_lt
  have hindex : (UInt32.ofNat k).toNat = k := UInt32.toNat_ofNat_of_lt hlt
  have hi : UInt32.ofNat k < p.pieces_count := UInt32.lt_iff_toNat_lt.mpr (by rw [hindex]; exact hk)
  obtain ⟨hstart, hend⟩ := rangeBlock_eq hlist hp hvalid hsmall hi
  have hpiece : (p.geometry.chunking hvalid).chunk k = p.geometry.piece (UInt32.ofNat k) := by
    rw [Geometry.piece, hindex]
    rfl
  rw [hpiece, FilesList.rangeBlock, hstart, hend, Block.stop, Nat.add_sub_cancel_left]

theorem piecesMatch_of_small (hlist : FilesList.make client = .ok list) (hp : PiecesToDownload.initial client = .ok p)
    (hvalid : p.geometry.Valid) (hsmall : p.pieces_count.toNat * p.piece_size.toNat < 2 ^ 32) : PiecesMatch list p where
  range i hi := by
    obtain ⟨n, hn, hlength⟩ := getPieceSize_eq hvalid hi
    obtain ⟨hstart, hend⟩ := rangeBlock_eq hlist hp hvalid hsmall hi
    obtain ⟨-, hoffsets, -⟩ := FilesList.make_ok hlist
    refine ⟨n, hn, ?_, hstart, ?_⟩
    · rw [FilesList.iterateFiles, check_of _ hoffsets]
      rfl
    · rw [hend, hlength]
      rfl
  buffer q q' piece state msg hq hstate hi hempty hreceive := by
    obtain ⟨state₀, n, hstate₀, hn, -, -, rfl⟩ := PiecesToDownload.onPiecePartReceive_ok.mp hreceive
    cases Option.some.inj (hstate.symm.trans hstate₀)
    obtain ⟨n', hn', hlength⟩ := getPieceSize_eq hvalid hi
    rw [getPieceSize_congr hq, hn'] at hn
    cases hn
    obtain ⟨hstart, hend⟩ := rangeBlock_eq hlist hp hvalid hsmall hi
    refine ⟨_, PiecesToDownload.get?_changed hstate, ?_⟩
    rw [PieceState.receive, PieceState.buffer, hempty, Memcpy.length_copy, List.isEmpty_nil, if_pos rfl, List.length_replicate, hlength]
    simp only [FilesList.rangeBlock, hstart, hend, Block.stop]
    omega
  disjoint := (rangeBlocks_tiles hlist hp hvalid hsmall).pairwise
  covers x := ((rangeBlocks_tiles hlist hp hvalid hsmall).mem_iff x).trans (and_iff_right (Nat.zero_le x))

/-- The pieces of a torrent are mapped to their bytes exactly when the whole pieces end below 4 GiB: otherwise
    the end of the last one has wrapped, and lies before its start. -/
theorem piecesMatch_iff (hmake : client.validate = .ok ()) (hlist : FilesList.make client = .ok list)
    (hp : PiecesToDownload.initial client = .ok p) :
    PiecesMatch list p ↔ p.pieces_count.toNat * p.piece_size.toNat < 2 ^ 32 := by
  obtain ⟨p', hp', hvalid, -⟩ := valid_of_validate hmake
  cases hp.symm.trans hp'
  refine ⟨?_, piecesMatch_of_small hlist hp hvalid⟩
  intro h
  -- The last piece: its end is cut at the end of the torrent, unless it has wrapped.
  let c := p.geometry.chunking hvalid
  have hcount : 0 < p.pieces_count.toNat := c.count_pos
  have hlast : (p.pieces_count - 1).toNat = p.pieces_count.toNat - 1 := toNat_pred hcount
  have hi : p.pieces_count - 1 < p.pieces_count := UInt32.lt_iff_toNat_lt.mpr (by omega)
  obtain ⟨n, hn, -, -, hend⟩ := h.range _ hi
  obtain ⟨n', hn', hlength⟩ := getPieceSize_eq hvalid hi
  cases hn.symm.trans hn'
  have hwrapped := (pieceRange_toNat hlist hp hi).2
  rw [hend, hlast, Nat.sub_add_cancel hcount] at hwrapped
  have hpos : 0 < n.toNat := by
    rw [hlength]
    exact (hlast ▸ c.length_pos (Nat.sub_lt hcount Nat.one_pos) : 0 < (c.chunk (p.pieces_count - 1).toNat).length)
  have hwhole : p.pieces_count.toNat * p.piece_size.toNat =
      (p.pieces_count.toNat - 1) * p.piece_size.toNat + p.piece_size.toNat := by
    rw [← Nat.succ_mul, Nat.succ_eq_add_one, Nat.sub_add_cancel hcount]
  have hsize := p.piece_size.toNat_lt
  omega

end

/-- A single file in three pieces. -/
def singleFile (pieceSize totalSize : UInt64) : TorrentClient where
  metainfo := { info := { piece_length_bytes := pieceSize
                          pieces_SHA1 := List.replicate 60 0
                          length_or_files := .length totalSize } }

theorem piecesMatch_tenBytes : PiecesMatch ⟨singleFile 4 10, [⟨0, 10, 0⟩]⟩
    { pieces_count := 3, piece_size := 4, total_size := 10 } := by
  have hmake : (singleFile 4 10).validate = .ok () := rfl
  exact (piecesMatch_iff hmake rfl rfl).mpr (by decide)

/-- Three pieces of 2 GiB: the end of the second one is 4 GiB, which wraps to zero. -/
theorem not_piecesMatch_sixGiB : ∃ list p, (singleFile 0x80000000 0x180000000).validate = .ok () ∧
    FilesList.make (singleFile 0x80000000 0x180000000) = .ok list ∧
    PiecesToDownload.initial (singleFile 0x80000000 0x180000000) = .ok p ∧ ¬PiecesMatch list p := by
  refine ⟨⟨singleFile 0x80000000 0x180000000, [⟨0, 0x180000000, 0⟩]⟩,
    { pieces_count := 3, piece_size := 0x80000000, total_size := 0x180000000 }, rfl, rfl, rfl, ?_⟩
  intro h
  obtain ⟨n, -, -, -, hend⟩ := h.range 1 (by decide)
  have hzero : (FilesList.pieceRange ⟨singleFile 0x80000000 0x180000000, [⟨0, 0x180000000, 0⟩]⟩ 1).2.toNat = 0 := by
    decide
  rw [hzero] at hend
  exact absurd hend (by simp only [UInt32.reduceToNat]; omega)

end BittorrentClient
