import BittorrentClient.Theorems.Swarm.Accounted

/-! The progress of a piece whose requests are answered with the bytes of the torrent: the requests tile what is
    requested, the answers are counted, and what was written is true. -/

namespace BittorrentClient
open Blocks Memcpy PiecesToDownload Words

/-! ### Content -/

/-- The bytes of a torrent with a valid geometry. -/
structure TorrentContent (g : Geometry) where
  valid : g.Valid
  bytes : List UInt8
  length_bytes : bytes.length = g.total_size.toNat

def MessageRequest.block (r : MessageRequest) : Block := ⟨r.offset.toNat, r.length.toNat⟩

namespace TorrentContent
variable {g : Geometry} (c : TorrentContent g)

/-- The true bytes of a piece. -/
def piece (i : UInt32) : List UInt8 := (c.bytes.drop (g.piece i).start).take (g.piece i).length

/-- The true bytes of the block that is requested. -/
def block (r : MessageRequest) : List UInt8 :=
  (c.bytes.drop ((g.piece r.piece_index).start + r.offset.toNat)).take r.length.toNat

variable {c} {i : UInt32} {r : MessageRequest}

theorem stop_le (hi : i < g.pieces_count) : (g.piece i).start + (g.piece i).length ≤ c.bytes.length := by
  rw [c.length_bytes]
  have hstop := (g.chunking c.valid).stop_eq (UInt32.lt_iff_toNat_lt.mp hi)
  exact Nat.le_trans (Nat.le_of_eq hstop) (Nat.min_le_right _ _)

theorem length_piece (hi : i < g.pieces_count) : (c.piece i).length = (g.piece i).length := by
  have := c.stop_le hi
  rw [piece, List.length_take, List.length_drop]
  omega

theorem getElem?_piece {x : Nat} (hx : x < (g.piece i).length) :
    (c.piece i)[x]? = c.bytes[(g.piece i).start + x]? := by
  rw [piece, List.getElem?_take_of_lt hx, List.getElem?_drop]

theorem length_block (hi : r.piece_index < g.pieces_count) (h : r.block.stop ≤ (g.piece r.piece_index).length) :
    (c.block r).length = r.length.toNat := by
  have := c.stop_le hi
  have : r.offset.toNat + r.length.toNat ≤ (g.piece r.piece_index).length := h
  rw [block, List.length_take, List.length_drop]
  omega

/-- A byte of the block is the byte of the piece at its offset. -/
theorem getElem?_block {x : Nat} (hx : x ∈ r.block) (h : r.block.stop ≤ (g.piece r.piece_index).length) :
    (c.block r)[x - r.offset.toNat]? = (c.piece r.piece_index)[x]? := by
  have hstart : r.offset.toNat ≤ x := hx.1
  have hstop : x < r.offset.toNat + r.length.toNat := hx.2
  rw [getElem?_piece (Nat.lt_of_lt_of_le hx.2 h), block, List.getElem?_take_of_lt (by omega), List.getElem?_drop]
  congr 1
  omega

end TorrentContent

/-- The message answers the request with the true bytes of its block. -/
structure Serves {g : Geometry} (c : TorrentContent g) (r : MessageRequest) (m : MessagePiece) : Prop where
  piece_index : m.piece_index = r.piece_index
  piece_begin : m.piece_begin = r.offset
  bytes : m.bytes = c.block r

theorem MessagePiece.toNat_size {m : MessagePiece} (h : m.bytes.length < 2 ^ 32) : m.size.toNat = m.bytes.length := by
  rw [MessagePiece.bytes, List.length_drop] at h ⊢
  rw [MessagePiece.size, UInt32.toNat_ofNat']
  exact Nat.mod_eq_of_lt h

/-! ### Progress -/

/-- The bytes of the answered blocks are in the buffer, which is allocated with the first of them. -/
def Written {g : Geometry} (c : TorrentContent g) (state : PieceState) (n : UInt32) (done : List MessageRequest) : Prop :=
  state.data = [] ∧ done = [] ∨ state.data.length = n.toNat ∧
    ∀ r ∈ done, ∀ x ∈ r.block, state.data[x]? = (c.piece state.piece_index)[x]?

/-- A piece of `n` bytes of which the blocks `sent` were requested, which are not yet answered for those in `out`. -/
structure Progress {g : Geometry} (c : TorrentContent g) (state : PieceState) (requested : Nat) (n : UInt32)
    (sent out : List MessageRequest) : Prop where
  index_lt : state.piece_index < g.pieces_count
  size : n.toNat = (g.piece state.piece_index).length
  index : ∀ r ∈ sent, r.piece_index = state.piece_index
  length_le : ∀ r ∈ sent, r.length.toNat ≤ 16384
  tiles : Tiles 0 (sent.map MessageRequest.block) requested
  requested_le : requested ≤ n.toNat
  answered : ∃ done, sent.Perm (out ++ done) ∧ state.downloaded.toNat = total (done.map MessageRequest.block) ∧
    Written c state n done

namespace Progress
variable {g : Geometry} {c : TorrentContent g} {state : PieceState} {requested : Nat} {n : UInt32}
  {sent out : List MessageRequest} {r : MessageRequest} {m : MessagePiece}

theorem nil {i : UInt32} (hi : i < g.pieces_count) (hn : n.toNat = (g.piece i).length) :
    Progress c { piece_index := i } 0 n [] [] where
  index_lt := hi
  size := hn
  index := List.forall_mem_nil _
  length_le := List.forall_mem_nil _
  tiles := Tiles.nil
  requested_le := Nat.zero_le _
  answered := ⟨[], List.Perm.refl _, rfl, .inl ⟨rfl, rfl⟩⟩

theorem request (h : Progress c state state.requested.toNat n sent out) (hmore : state.requested < n) :
    Progress c state (state.requested.toNat + (Session.nextRequest state n).length.toNat) n
      (sent ++ [Session.nextRequest state n]) (out ++ [Session.nextRequest state n]) := by
  obtain ⟨hpos, hmax, hle⟩ := nextRequest_length hmore
  obtain ⟨done, hperm, hrest⟩ := h.answered
  refine ⟨h.index_lt, h.size, ?_, ?_, ?_, hle, done, ?_, hrest⟩
  · exact List.forall_mem_append.mpr ⟨h.index, List.forall_mem_singleton.mpr rfl⟩
  · exact List.forall_mem_append.mpr ⟨h.length_le, List.forall_mem_singleton.mpr hmax⟩
  · rw [List.map_append, List.map_singleton]
    exact h.tiles.snoc hpos
  · rw [List.append_assoc]
    refine (hperm.append_right _).trans ?_
    rw [List.append_assoc]
    exact List.perm_append_comm.append_left out

/-- What is requested is noted in the state when the request is written. -/
theorem requestSent (h : Progress c state requested n sent out) (k : UInt32) :
    Progress c { state with requested := k } requested n sent out :=
  ⟨h.index_lt, h.size, h.index, h.length_le, h.tiles, h.requested_le, h.answered⟩

/-- The count never passes what is requested. -/
theorem downloaded_le (h : Progress c state requested n sent out) : state.downloaded.toNat ≤ n.toNat := by
  obtain ⟨done, hperm, hdownloaded, -⟩ := h.answered
  have htotal := total_perm (hperm.map MessageRequest.block)
  have htiles := h.tiles.total_eq
  have := h.requested_le
  rw [List.map_append, total_append] at htotal
  omega

theorem block_le (h : Progress c state requested n sent out) (hr : r ∈ sent) :
    r.block.stop ≤ (g.piece r.piece_index).length ∧ 0 < r.length.toNat := by
  rw [h.index r hr, ← h.size]
  exact ⟨Nat.le_trans (h.tiles.stop_le _ (List.mem_map_of_mem hr)) h.requested_le,
    h.tiles.length_pos _ (List.mem_map_of_mem hr)⟩

theorem mem_sent (h : Progress c state requested n sent out) (hr : r ∈ out) : r ∈ sent := by
  obtain ⟨done, hperm, -⟩ := h.answered
  exact hperm.mem_iff.mpr (List.mem_append_left _ hr)

/-- The size of an answer is what was asked for. -/
theorem size_eq (h : Progress c state requested n sent out) (hr : r ∈ out) (hm : Serves c r m) :
    m.size.toNat = r.length.toNat := by
  have hlt : r.piece_index < g.pieces_count := h.index r (h.mem_sent hr) ▸ h.index_lt
  have hlength := c.length_block hlt (h.block_le (h.mem_sent hr)).1
  rw [MessagePiece.toNat_size] <;> rw [hm.bytes, hlength]
  exact r.length.toNat_lt

/-- With one more answer the count is still no more than what is requested. -/
theorem downloaded_add_le (h : Progress c state requested n sent out) (hr : r ∈ out) :
    state.downloaded.toNat + r.length.toNat ≤ n.toNat := by
  obtain ⟨done, hperm, hdownloaded, -⟩ := h.answered
  have htotal := total_perm ((hperm.trans ((List.perm_cons_erase hr).append_right done)).map MessageRequest.block)
  have htiles := h.tiles.total_eq
  have := h.requested_le
  rw [List.cons_append, List.map_cons, total_cons, List.map_append, total_append] at htotal
  have : r.block.length = r.length.toNat := rfl
  omega

/-- An answer lies inside the piece. -/
theorem stop_le (h : Progress c state requested n sent out) (hr : r ∈ out) (hm : Serves c r m) :
    m.piece_begin.toNat + m.size.toNat ≤ n.toNat := by
  have hstop := (h.block_le (h.mem_sent hr)).1
  rw [h.index r (h.mem_sent hr), ← h.size] at hstop
  rw [hm.piece_begin, h.size_eq hr hm]
  exact hstop

/-- An answer passes the checks. -/
theorem partFits (h : Progress c state requested n sent out) (hr : r ∈ out) (hm : Serves c r m) : PartFits n m state := by
  have hsize := h.size_eq hr hm
  have hpos := (h.block_le (h.mem_sent hr)).2
  have hadd : state.downloaded.toNat + m.size.toNat ≤ n.toNat := hsize ▸ h.downloaded_add_le hr
  have hstop := h.stop_le hr hm
  refine ⟨UInt32.lt_iff_toNat_lt.mpr ?_, UInt32.le_iff_toNat_le.mpr ?_, UInt32.le_iff_toNat_le.mpr ?_⟩
  · rw [hsize]
    exact hpos
  · rw [toNat_add_of_le hadd]
    exact hadd
  · rw [toNat_add_of_le hstop]
    exact hstop

/-- An answer is copied into the buffer of the piece. -/
theorem copyFits (h : Progress c state requested n sent out) (hr : r ∈ out) (hm : Serves c r m) : CopyFits n m state := by
  obtain ⟨done, -, -, hwritten⟩ := h.answered
  rw [CopyFits, PieceState.length_buffer (hwritten.imp And.left And.left)]
  exact h.stop_le hr hm

/-- The block is written to a buffer of the size of the piece, which has the bytes of the earlier answers. -/
theorem receive_data (h : Progress c state requested n sent out) (hr : r ∈ out) (hm : Serves c r m)
    {done : List MessageRequest} (hwritten : Written c state n done) :
    ∃ buffer, (state.receive n m).data = copy buffer r.offset.toNat (c.block r) ∧ buffer.length = n.toNat ∧
      ∀ r ∈ done, ∀ x ∈ r.block, buffer[x]? = (c.piece state.piece_index)[x]? := by
  have hindex := h.index r (h.mem_sent hr)
  have hbytes : m.bytes.take m.size.toNat = c.block r := by
    rw [hm.bytes, h.size_eq hr hm, ← c.length_block (hindex ▸ h.index_lt) (h.block_le (h.mem_sent hr)).1, List.take_length]
  rcases hwritten with ⟨hempty, hnone⟩ | ⟨hlength, hearlier⟩
  · refine ⟨List.replicate n.toNat 0, ?_, List.length_replicate, hnone ▸ List.forall_mem_nil _⟩
    rw [PieceState.receive, PieceState.buffer, hempty, hbytes, hm.piece_begin]
    rfl
  · refine ⟨state.data, ?_, hlength, hearlier⟩
    have hne : state.data.isEmpty = false := by
      have hpos := (h.block_le (h.mem_sent hr)).2
      have hadd := h.downloaded_add_le hr
      cases hdata : state.data with
      | nil =>
        rw [hdata, List.length_nil] at hlength
        omega
      | cons => rfl
    rw [PieceState.receive, PieceState.buffer, hne, hbytes, hm.piece_begin]
    rfl

/-- An answer writes the true bytes of its block and leaves the others. -/
theorem written (h : Progress c state requested n sent out) (hr : r ∈ out) (hm : Serves c r m)
    {done : List MessageRequest} (hwritten : Written c state n done) : Written c (state.receive n m) n (r :: done) := by
  obtain ⟨buffer, hbuffer, hlength, hearlier⟩ := h.receive_data hr hm hwritten
  have hindex := h.index r (h.mem_sent hr)
  have hstop := (h.block_le (h.mem_sent hr)).1
  have hblock : (c.block r).length = r.length.toNat := c.length_block (hindex ▸ h.index_lt) hstop
  refine .inr ⟨by rw [hbuffer, length_copy, hlength], ?_⟩
  intro r' hr' x hx
  rw [hbuffer, show (state.receive n m).piece_index = state.piece_index from rfl]
  by_cases hin : x ∈ r.block
  · have hstart : r.offset.toNat ≤ x := hin.1
    have hxn : x < buffer.length := by
      rw [hlength, h.size, ← hindex]
      exact Nat.lt_of_lt_of_le hin.2 hstop
    rw [getElem?_copy_in hstart (by rw [hblock]; exact hin.2) hxn, c.getElem?_block hin hstop, hindex]
  · have hout : x < r.offset.toNat ∨ r.offset.toNat + (c.block r).length ≤ x := by
      rw [hblock]
      by_contra hcontra
      simp only [not_or, Nat.not_lt, Nat.not_le] at hcontra
      exact hin hcontra
    rw [getElem?_copy_out hout]
    rcases List.mem_cons.mp hr' with rfl | hr'
    · exact absurd hx hin
    · exact hearlier r' hr' x hx

theorem receive (h : Progress c state requested n sent out) (hr : r ∈ out) (hm : Serves c r m) :
    Progress c (state.receive n m) requested n sent (out.erase r) := by
  obtain ⟨done, hperm, hdownloaded, hwritten⟩ := h.answered
  refine ⟨h.index_lt, h.size, h.index, h.length_le, h.tiles, h.requested_le, r :: done, ?_, ?_, h.written hr hm hwritten⟩
  · exact hperm.trans (((List.perm_cons_erase hr).append_right done).trans List.perm_middle.symm)
  · have hsize := h.size_eq hr hm
    have hadd : state.downloaded.toNat + m.size.toNat ≤ n.toNat := hsize ▸ h.downloaded_add_le hr
    rw [List.map_cons, total_cons, ← hdownloaded, PieceState.receive, toNat_add_of_le hadd, hsize]
    exact Nat.add_comm _ _

/-- A piece whose count is full has all its requests answered, and its bytes are the true ones. -/
theorem full (h : Progress c state requested n sent out) (hfull : state.downloaded = n) :
    out = [] ∧ state.data = c.piece state.piece_index := by
  obtain ⟨done, hperm, hdownloaded, hwritten⟩ := h.answered
  have htotal := total_perm (hperm.map MessageRequest.block)
  have htiles := h.tiles.total_eq
  have hle := h.requested_le
  rw [List.map_append, total_append] at htotal
  rw [hfull] at hdownloaded
  have hout : out = [] := by
    cases out with
    | nil => rfl
    | cons r out =>
      have hpos := (h.block_le (h.mem_sent (List.mem_cons_self ..))).2
      rw [List.map_cons, total_cons] at htotal
      have : r.block.length = r.length.toNat := rfl
      omega
  subst hout
  have hrequested : requested = n.toNat := by
    rw [List.map_nil, total_nil] at htotal
    omega
  have hlength := c.length_piece h.index_lt
  have hpos : 0 < n.toNat := by
    rw [h.size]
    exact (g.chunking c.valid).length_pos (UInt32.lt_iff_toNat_lt.mp h.index_lt)
  refine ⟨rfl, List.ext_getElem? ?_⟩
  intro x
  rcases hwritten with ⟨-, rfl⟩ | ⟨hdata, htrue⟩
  · rw [List.map_nil, total_nil] at hdownloaded
    omega
  · rcases Nat.lt_or_ge x n.toNat with hx | hx
    · -- The answered requests are all requests, which tile the piece.
      obtain ⟨block, hblock, hxb⟩ := (h.tiles.mem_iff x).mpr ⟨Nat.zero_le x, hrequested ▸ hx⟩
      obtain ⟨r, hr, rfl⟩ := List.mem_map.mp hblock
      exact htrue r (hperm.mem_iff.mp hr) x hxb
    · rw [List.getElem?_eq_none (hdata ▸ hx), List.getElem?_eq_none (by rw [hlength, ← h.size]; exact hx)]

end Progress

end BittorrentClient
