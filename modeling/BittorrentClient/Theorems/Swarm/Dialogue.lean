import BittorrentClient.Lib.Blocks
import BittorrentClient.Theorems.Bitfield
import BittorrentClient.Theorems.Swarm.Ledger
import BittorrentClient.Theorems.Swarm.Progress

/-! What a session says to its peer, whatever the peer does: for one piece after the other the requests for its blocks,
    in order, and a Have when it is downloaded. -/

namespace BittorrentClient
open Blocks ByteOrder PiecesToDownload Words

/-! ### The messages -/

/-- The bytes of a message; they are the same on every machine. -/
def Outgoing.wire (m : Outgoing) : List UInt8 := toBig 4 m.kSize.toNat ++ m.body .big

/-- What is asked for a piece of `n` bytes: its blocks from the first on, one after the other, each as long as a block may
    be and as the piece has left. -/
structure Asked (i n : UInt32) (requested : Nat) (requests : List MessageRequest) : Prop where
  index : ∀ r ∈ requests, r.piece_index = i
  length : ∀ r ∈ requests, r.length.toNat = min kMaxBlock.toNat (n.toNat - r.offset.toNat)
  tiles : Tiles 0 (requests.map MessageRequest.block) requested
  le : requested ≤ n.toNat

theorem Asked.nil (i n : UInt32) : Asked i n 0 [] where
  index := List.forall_mem_nil _
  length := List.forall_mem_nil _
  tiles := Tiles.nil
  le := Nat.zero_le _

theorem Asked.next {state : PieceState} {n : UInt32} {requests : List MessageRequest}
    (h : Asked state.piece_index n state.requested.toNat requests) (hmore : state.requested < n) :
    Asked state.piece_index n (state.requested.toNat + (Session.nextRequest state n).length.toNat)
      (requests ++ [Session.nextRequest state n]) := by
  obtain ⟨hpos, -, hle⟩ := nextRequest_length hmore
  refine ⟨?_, ?_, ?_, hle⟩
  · exact List.forall_mem_append.mpr ⟨h.index, List.forall_mem_singleton.mpr rfl⟩
  · exact List.forall_mem_append.mpr ⟨h.length, List.forall_mem_singleton.mpr (toNat_nextRequest_length hmore)⟩
  · rw [List.map_append, List.map_singleton]
    exact h.tiles.snoc hpos

/-- The requests for a piece that the peer has announced. -/
def Asks (p : PiecesToDownload) (bitfield : MessageBitfield) (i : UInt32) (requests : List MessageRequest) : Prop :=
  bitfield.hasPiece i.toNat = true ∧ ∃ n requested, p.getPieceSize i = .ok n ∧ Asked i n requested requests

/-- A piece that a session has downloaded. -/
structure Fetched where
  index : UInt32
  requests : List MessageRequest

/-- The pieces that were downloaded are different ones; the peer had announced each. -/
structure Fetches (p : PiecesToDownload) (bitfield : MessageBitfield) (fetched : List Fetched) : Prop where
  asks : ∀ f ∈ fetched, Asks p bitfield f.index f.requests
  completed : ∀ f ∈ fetched, f.index.toNat ∈ p.completed
  nodup : (fetched.map Fetched.index).Nodup

/-! ### The announcements -/

/-- A Have adds a piece to those that are announced, and takes none away. -/
theorem hasPiece_setPiece (m : MessageBitfield) (i : UInt32) (j : Nat) :
    (m.hasPiece j = true → (m.setPiece i.toNat).2.hasPiece j = true) ∧
      ((m.setPiece i.toNat).2.hasPiece j = true → m.hasPiece j = true ∨ j = i.toNat) := by
  obtain ⟨data⟩ := m
  cases data with
  | nil => exact ⟨id, .inl⟩
  | cons b body =>
    have hset := MessageBitfield.setPieceChecked_eq (List.cons_ne_nil b body) i.toUInt64
    rw [UInt32.toNat_toUInt64] at hset
    rcases Nat.lt_or_ge i.toNat (8 * body.length) with hlt | hle
    · rw [MessageBitfield.setPieceChecked_of_lt (by rwa [UInt32.toNat_toUInt64]), UInt32.toNat_toUInt64] at hset
      rw [← Except.ok.inj hset]
      simp only [MessageBitfield.hasPiece_eq, BitArray.get_set hlt, Bool.or_eq_true, decide_eq_true_eq]
      exact ⟨.inr, Or.symm⟩
    · rw [MessageBitfield.setPieceChecked_of_le (by rwa [UInt32.toNat_toUInt64])] at hset
      rw [← Except.ok.inj hset]
      exact ⟨id, .inl⟩

/-! ### Sessions -/

/-- The piece that a session holds, and the requests for it. -/
structure HoldsPiece (p : PiecesToDownload) (bitfield : MessageBitfield) (piece : Handle) (n : UInt32) (state : PieceState)
    (requests : List MessageRequest) : Prop where
  get? : p.pieces.get? piece = some state
  has : bitfield.hasPiece state.piece_index.toNat = true
  size : p.getPieceSize state.piece_index = .ok n
  asked : Asked state.piece_index n state.requested.toNat requests

section
variable {p p' : PiecesToDownload} {s s' : Session} {event : Event} {fetched : List Fetched}
  {requests : List MessageRequest} {bitfield bitfield' : MessageBitfield} {i : UInt32}

theorem completed_mono (hgrows : p.new_pieces <+: p'.new_pieces) {k : Nat} (h : k ∈ p.completed) : k ∈ p'.completed :=
  (hgrows.map fun state : PieceState => state.piece_index.toNat).subset h

/-- What is known of the messages goes on to hold: sizes stay, and a peer takes back no piece that it announced. -/
theorem Asks.mono (hgeometry : p'.geometry = p.geometry)
    (hhas : ∀ k, bitfield.hasPiece k = true → bitfield'.hasPiece k = true) (h : Asks p bitfield i requests) :
    Asks p' bitfield' i requests := by
  obtain ⟨hpiece, n, requested, hn, hasked⟩ := h
  exact ⟨hhas _ hpiece, n, requested, (getPieceSize_congr hgeometry _).trans hn, hasked⟩

theorem Fetches.mono (hgeometry : p'.geometry = p.geometry) (hgrows : p.new_pieces <+: p'.new_pieces)
    (hhas : ∀ k, bitfield.hasPiece k = true → bitfield'.hasPiece k = true) (h : Fetches p bitfield fetched) :
    Fetches p' bitfield' fetched where
  asks f hf := (h.asks f hf).mono hgeometry hhas
  completed f hf := completed_mono hgrows (h.completed f hf)
  nodup := h.nodup

theorem Fetches.snoc (h : Fetches p bitfield fetched) (hasks : Asks p bitfield i requests) (hi : i.toNat ∈ p.completed)
    (hnew : i ∉ fetched.map Fetched.index) : Fetches p bitfield (fetched ++ [⟨i, requests⟩]) := by
  refine ⟨?_, ?_, ?_⟩
  · exact List.forall_mem_append.mpr ⟨h.asks, List.forall_mem_singleton.mpr hasks⟩
  · exact List.forall_mem_append.mpr ⟨h.completed, List.forall_mem_singleton.mpr hi⟩
  · rw [List.map_append, List.map_singleton]
    refine List.nodup_append.mpr ⟨h.nodup, List.nodup_singleton _, ?_⟩
    intro j hj k hk heq
    rw [heq, List.mem_singleton.mp hk] at hj
    exact hnew hj

theorem HoldsPiece.asks {piece : Handle} {n : UInt32} {state : PieceState} (h : HoldsPiece p bitfield piece n state requests) :
    Asks p bitfield state.piece_index requests :=
  ⟨h.has, n, _, h.size, h.asked⟩

theorem HoldsPiece.next {piece : Handle} {n : UInt32} {state : PieceState} (h : HoldsPiece p bitfield piece n state requests)
    (hmore : state.requested < n) : Asks p bitfield state.piece_index (requests ++ [Session.nextRequest state n]) :=
  ⟨h.has, n, _, h.size, h.asked.next hmore⟩

theorem Notice.hasPiece {peer peer' : TorrentPeer} {m : AnyMessage} (h : Notice peer m peer') (k : Nat)
    (hk : peer.bitfield.hasPiece k = true) : peer'.bitfield.hasPiece k = true := by
  cases h with
  | have_ => exact (hasPiece_setPiece _ _ k).1 hk
  | keepAlive | choke | unchoke => exact hk

theorem Took.hasPiece (h : Took p s event p' s') (k : Nat) (hk : s.peer.bitfield.hasPiece k = true) :
    s'.peer.bitfield.hasPiece k = true := by
  cases h with
  | notice h => exact h.hasPiece k hk
  | _ => exact hk

end

end BittorrentClient
