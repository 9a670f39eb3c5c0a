import BittorrentClient.Theorems.Swarm.Coverage

/-! Where the parts that are received are written. The assertions add words of the peer to words of the client; what
    passes them lies inside the buffer of the piece unless a sum has wrapped. -/

namespace BittorrentClient
open Blocks Interleaving Memcpy PiecesToDownload Words

/-- The buffers that are allocated have the sizes of their pieces. -/
def Buffered (p : PiecesToDownload) : Prop := ∀ piece state, p.pieces.get? piece = some state →
  state.data = [] ∨ ∃ n, p.getPieceSize state.piece_index = .ok n ∧ state.data.length = n.toNat

section
variable {p p' : PiecesToDownload} {s s' : Session} {event : Event} {piece : Handle} {state : PieceState} {n : UInt32}
  {m : MessagePiece}

/-- The buffer that a part is written into has the size of the piece. -/
theorem Buffered.length_buffer (h : Buffered p) (hstate : p.pieces.get? piece = some state)
    (hn : p.getPieceSize state.piece_index = .ok n) : (state.buffer n).length = n.toNat := by
  refine PieceState.length_buffer ?_
  rcases h piece state hstate with hempty | ⟨n', hn', hlength⟩
  · exact .inl hempty
  · cases hn.symm.trans hn'
    exact .inr hlength

theorem Buffered.length_receive (h : Buffered p) (hstate : p.pieces.get? piece = some state)
    (hn : p.getPieceSize state.piece_index = .ok n) : (state.receive n m).data.length = n.toNat := by
  rw [PieceState.receive, length_copy, h.length_buffer hstate hn]

/-- What is copied into the buffer ends inside the piece. -/
theorem Buffered.copyFits_iff (h : Buffered p) (hstate : p.pieces.get? piece = some state)
    (hn : p.getPieceSize state.piece_index = .ok n) : CopyFits n m state ↔ m.block.stop ≤ n.toNat := by
  rw [CopyFits, h.length_buffer hstate hn]
  exact Iff.rfl

theorem Buffered.changed (h : Buffered p) {f : PieceState → PieceState}
    (hf : ∀ state, p.pieces.get? piece = some state → (f state).data = [] ∨
      ∃ n, p.getPieceSize (f state).piece_index = .ok n ∧ (f state).data.length = n.toNat) :
    Buffered (p.changed piece f) := by
  intro x state hstate
  rw [PiecesToDownload.changed, StableList.get?_modify] at hstate
  split at hstate
  · rename_i hx
    obtain ⟨state₀, hstate₀, rfl⟩ := Option.map_eq_some_iff.mp hstate
    exact hf state₀ (hx ▸ hstate₀)
  · exact h x state hstate

/-- A step allocates buffers of the right size, and keeps or drops those that are there. -/
theorem Took.buffered (h : Took p s event p' s') (hbuffered : Buffered p) : Buffered p' := by
  cases h with
  | exhausted h =>
    cases h
    exact hbuffered
  | popped h =>
    cases h with
    | start =>
      intro x state hstate
      rw [started, StableList.get?_emplaceBack] at hstate
      split at hstate
      · cases hstate
        exact .inl rfl
      · exact hbuffered x state hstate
    | retry => exact hbuffered
  | lacks | requestFailed | readFailed => exact hbuffered.changed (f := PieceState.reset) fun _ _ => .inl rfl
  | requested => exact hbuffered.changed fun state hstate => hbuffered _ state hstate
  | part hstate _ hsize =>
    exact hbuffered.changed fun _ _ => .inr ⟨_, hsize, hbuffered.length_receive hstate hsize⟩
  | deliver =>
    intro x state hstate
    rw [delivered, StableList.get?_erase] at hstate
    split at hstate
    · cases hstate
    · exact hbuffered x state hstate
  | begin | request | wait | notice | haveSent | haveFailed => exact hbuffered

end

theorem swarm_buffered {g : Geometry} {w : World PiecesToDownload Session} (h : Reachable swarm g.pieces w) :
    Buffered w.shared := by
  refine h.invariant (I := fun w => Buffered w.shared) nofun ?_
  intro v v' _ hv hstep
  cases hstep with
  | join => exact hv
  | act hact =>
    obtain ⟨event, hact⟩ := hact
    exact (step_ok hact).buffered hv

/-- A part that passes the assertions is written, inside the buffer, which has the size of the piece, and is counted
    exactly. -/
def WritesInside (p : PiecesToDownload) (piece : Handle) (m : MessagePiece) : Prop :=
  ∀ state n, p.pieces.get? piece = some state → p.getPieceSize state.piece_index = .ok n → PartFits n m state →
    ∃ p' state', p.onPiecePartReceive piece m = .ok p' ∧ p'.pieces.get? piece = some state' ∧
      state'.data.length = n.toNat ∧ m.block.stop ≤ n.toNat ∧
      state'.downloaded.toNat = state.downloaded.toNat + m.size.toNat ∧ state'.downloaded.toNat ≤ n.toNat

/-- In every reachable state, every part is written inside its piece exactly when no sum wraps that passes the
    assertions. -/
theorem writesInside_iff {g : Geometry} {w : World PiecesToDownload Session} (h : Reachable swarm g.pieces w)
    (piece : Handle) (m : MessagePiece) : WritesInside w.shared piece m ↔
      ∀ state n, w.shared.pieces.get? piece = some state → w.shared.getPieceSize state.piece_index = .ok n →
        PartFits n m state → m.piece_begin.toNat + m.size.toNat < 2 ^ 32 ∧ state.downloaded.toNat + m.size.toNat < 2 ^ 32 := by
  constructor
  · intro hinside state n hstate hn hfits
    obtain ⟨p', state', -, -, -, hblock, hcount, hle⟩ := hinside state n hstate hn hfits
    have hsmall := n.toNat_lt
    refine ⟨Nat.lt_of_le_of_lt hblock hsmall, ?_⟩
    rw [← hcount]
    exact Nat.lt_of_le_of_lt hle hsmall
  · intro hsmall state n hstate hn hfits
    obtain ⟨hbegin, hdownloaded⟩ := hsmall state n hstate hn hfits
    have hpart := UInt32.le_iff_toNat_le.mp hfits.part
    have hcount := UInt32.le_iff_toNat_le.mp hfits.downloaded
    rw [UInt32.toNat_add, Nat.mod_eq_of_lt hbegin] at hpart
    have hsum : (state.downloaded + m.size).toNat = state.downloaded.toNat + m.size.toNat := by
      rw [UInt32.toNat_add]
      exact Nat.mod_eq_of_lt hdownloaded
    have hbuffered := swarm_buffered h
    have hcopy := (hbuffered.copyFits_iff hstate hn).mpr hpart
    exact ⟨_, _, onPiecePartReceive_ok.mpr ⟨state, n, hstate, hn, hfits, hcopy, rfl⟩, get?_changed hstate,
      hbuffered.length_receive hstate hn, hpart, hsum, hcount⟩

/-- A session that waits for its piece of two bytes. -/
def waiting : Session := ⟨{ bitfield := ⟨[5, 0x80]⟩ }, .readMessage 0 2 0⟩

theorem waiting_reachable : Reachable swarm (Geometry.pieces ⟨1, 2, 2⟩) ⟨(Geometry.pieces ⟨1, 2, 2⟩).started, [waiting]⟩ := by
  have hjoin : Reachable swarm (Geometry.pieces ⟨1, 2, 2⟩) ⟨_, [Session.start ⟨[5, 0x80]⟩]⟩ := .join ⟨_, rfl⟩
  have hpopped : Reachable swarm (Geometry.pieces ⟨1, 2, 2⟩)
      ⟨(Geometry.pieces ⟨1, 2, 2⟩).started, [⟨{ bitfield := ⟨[5, 0x80]⟩ }, .popped 0⟩]⟩ := hjoin.act ⟨.run, rfl⟩
  have hbegun : Reachable swarm (Geometry.pieces ⟨1, 2, 2⟩)
      ⟨(Geometry.pieces ⟨1, 2, 2⟩).started, [⟨{ bitfield := ⟨[5, 0x80]⟩ }, .loop 0 2 0⟩]⟩ := hpopped.act ⟨.run, rfl⟩
  exact hbegun.act ⟨.run, rfl⟩

theorem writesInside_waiting : WritesInside (Geometry.pieces ⟨1, 2, 2⟩).started 0
    ⟨[PeerMessageId.piece, 0, 0, 0, 0, 0, 0, 0, 0, 1, 2], 9, 0, 0⟩ := by
  refine (writesInside_iff waiting_reachable 0 _).mpr ?_
  intro state n hstate hn _
  cases hstate
  cases hn
  decide

/-- A part that starts at the end of the words: the sum of its begin and its size is one. -/
theorem not_writesInside_wrapped : ∃ w m, Reachable swarm (Geometry.pieces ⟨1, 2, 2⟩) w ∧ 0 ∈ heldBy w.parties ∧
    MessagePiece.parseNetwork .little [PeerMessageId.piece, 0, 0, 0, 0, 0xff, 0xff, 0xff, 0xff, 1, 2] = .ok m ∧
    ¬WritesInside w.shared 0 m := by
  refine ⟨_, ⟨[PeerMessageId.piece, 0, 0, 0, 0, 0xff, 0xff, 0xff, 0xff, 1, 2], 9, 0, 0xffffffff⟩, waiting_reachable,
    List.mem_singleton_self _, rfl, ?_⟩
  intro h
  obtain ⟨p', state', -, -, -, hblock, -⟩ := h _ 2 rfl rfl ⟨by decide, by decide, by decide⟩
  exact absurd hblock (by decide)

/-- Such a part is copied past the buffer. -/
example : (Geometry.pieces ⟨1, 2, 2⟩).started.onPiecePartReceive 0
    ⟨[PeerMessageId.piece, 0, 0, 0, 0, 0xff, 0xff, 0xff, 0xff, 1, 2], 9, 0, 0xffffffff⟩ = .error .copyOutside := rfl

end BittorrentClient
