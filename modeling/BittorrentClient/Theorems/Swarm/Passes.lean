import BittorrentClient.Lib.Loops
import BittorrentClient.Theorems.Swarm.Ledger

/-! The passes of the outer loop that put their piece back. None of them waits for the peer, so that no other session
    gets a turn in between; a peer without useful pieces must not make them go on for ever. -/

namespace BittorrentClient
open Loops Outcome PiecesToDownload Words

/-! ### One pass -/

/-- The coroutine awaits an operation of the socket. -/
def Session.Awaits (s : Session) : Prop :=
  match s.coroutine with
  | .sendRequest _ _ _ _ | .readMessage _ _ _ | .sendHave _ => True
  | .pop | .popped _ | .loop _ _ _ | .returned => False

/-- A pass in which the peer does not have the piece: the loop is back at its head. -/
def Continues (peer : TorrentPeer) (p p' : PiecesToDownload) : Prop :=
  ∃ piece q, Session.step p ⟨peer, .pop⟩ .run = some (.ok (q, ⟨peer, .popped piece⟩)) ∧
    Session.step q ⟨peer, .popped piece⟩ .run = some (.ok (p', ⟨peer, .pop⟩))

/-- A pass in which the peer has the piece: its download is begun, and the next that it comes to is an operation of the
    socket, unless an assertion about the sizes fails. -/
def Starts (peer : TorrentPeer) (p : PiecesToDownload) : Prop :=
  ∃ piece q state, Session.step p ⟨peer, .pop⟩ .run = some (.ok (q, ⟨peer, .popped piece⟩)) ∧
    q.pieces.get? piece = some state ∧ peer.bitfield.hasPiece state.piece_index.toNat = true ∧
    Session.step q ⟨peer, .popped piece⟩ .run =
      some ((q.getPieceSize state.piece_index).map fun n => (q, ⟨peer, .loop piece n 0⟩)) ∧
    ∀ n, state.downloaded ≤ n → ∃ q' s', Session.step q ⟨peer, .loop piece n 0⟩ .run = some (.ok (q', s')) ∧ s'.Awaits

/-- A pass in which there is no piece for the peer: the connection ends. -/
def Stops (peer : TorrentPeer) (p : PiecesToDownload) : Prop :=
  Session.step p ⟨peer, .pop⟩ .run = some (.ok (p, ⟨peer, .returned⟩))

/-- The handles that are queued for a retry can be dereferenced. -/
def RetryLive (p : PiecesToDownload) : Prop := ∀ piece ∈ p.to_retry, ∃ state, p.pieces.get? piece = some state

theorem Ledger.retryLive {p : PiecesToDownload} {held : List Handle} (h : Ledger p held) : RetryLive p :=
  fun _ hpiece => h.get? (List.mem_append_right held hpiece)

section
variable {p p' : PiecesToDownload} {peer : TorrentPeer} {piece : Handle} {state : PieceState}

theorem get?_started (p : PiecesToDownload) :
    p.started.pieces.get? p.pieces.next = some { piece_index := p.next_piece_index } := by
  rw [started, StableList.get?_emplaceBack, if_pos rfl]

/-- Only a piece that no peer was asked for yet is put back: one that is tried again is known to be there. -/
theorem continues_cases (h : Continues peer p p') : p.next_piece_index < p.pieces_count ∧
    peer.bitfield.hasPiece p.next_piece_index.toNat = false ∧ p' = p.started.retried p.pieces.next := by
  obtain ⟨piece, q, hpop, hpopped⟩ := h
  cases step_ok hpopped with
  | lacks hstate hlacks =>
    cases step_ok hpop with
    | popped hpopped =>
      cases hpopped with
      | start hnext =>
        cases (get?_started p).symm.trans hstate
        exact ⟨hnext, hlacks, rfl⟩
      | retry hnext hmem hstate' hhas =>
        cases hstate'.symm.trans hstate
        exact absurd (hhas.symm.trans hlacks) Bool.noConfusion

/-- What a pass uses up. -/
def PiecesToDownload.unstarted (p : PiecesToDownload) : Nat := p.pieces_count.toNat - p.next_piece_index.toNat

theorem Continues.unstarted_lt (h : Continues peer p p') : unstarted p' < unstarted p := by
  obtain ⟨hnext, -, rfl⟩ := continues_cases h
  have hsucc := toNat_succ_of_lt hnext
  have hlt := UInt32.lt_iff_toNat_lt.mp hnext
  show p.pieces_count.toNat - (p.next_piece_index + 1).toNat < p.pieces_count.toNat - p.next_piece_index.toNat
  omega

theorem Continues.retryLive (h : Continues peer p p') (hlive : RetryLive p) : RetryLive p' := by
  obtain ⟨hnext, -, rfl⟩ := continues_cases h
  have hstarted : ∀ x ∈ p.to_retry ++ [p.pieces.next], ∃ state, p.started.pieces.get? x = some state := by
    intro x hx
    by_cases hx' : x = p.pieces.next
    · exact ⟨_, hx' ▸ get?_started p⟩
    · obtain ⟨state, hstate⟩ := hlive x ((List.mem_append.mp hx).resolve_right (mt List.mem_singleton.mp hx'))
      refine ⟨state, ?_⟩
      rw [started, StableList.get?_emplaceBack, if_neg hx', hstate]
  intro x hx
  obtain ⟨state, hstate⟩ := hstarted x hx
  rw [retried, StableList.get?_modify, hstate]
  split
  · exact ⟨_, rfl⟩
  · exact ⟨_, rfl⟩

theorem loop_awaits {n : UInt32} {b : Int} (hstate : p.pieces.get? piece = some state) (hle : state.downloaded ≤ n) :
    ∃ p' s', Session.step p ⟨peer, .loop piece n b⟩ .run = some (.ok (p', s')) ∧ s'.Awaits := by
  have hloop : ∃ r, Session.runLoop p ⟨peer, .loop piece n b⟩ piece n b = .ok r := runLoop_total hstate hle
  obtain ⟨⟨p', s'⟩, hloop⟩ := hloop
  refine ⟨p', s', congrArg some hloop, ?_⟩
  cases runLoop_ok hloop <;> trivial

/-- A pass that does not go back to the head begins a download, or ends the connection. -/
theorem starts_or_stops (hlive : RetryLive p) (hlast : ¬∃ p', Continues peer p p') : Starts peer p ∨ Stops peer p := by
  obtain ⟨⟨r, q⟩, hpop⟩ := popPieceToDownload_total peer.bitfield hlive
  have hpopped := popPieceToDownload_ok hpop
  cases r with
  | none =>
    cases hpopped
    refine .inr (congrArg some ?_)
    rw [Session.runPop, hpop, ok_bind]
    rfl
  | some piece =>
    have hstep : Session.step p ⟨peer, .pop⟩ .run = some (.ok (q, ⟨peer, .popped piece⟩)) := by
      refine congrArg some ?_
      rw [Session.runPop, hpop, ok_bind]
      rfl
    have hget : ∃ state, q.pieces.get? piece = some state := by
      cases hpopped with
      | start => exact ⟨_, get?_started p⟩
      | retry _ _ hstate => exact ⟨_, hstate⟩
    obtain ⟨state, hstate⟩ := hget
    cases hhas : peer.bitfield.hasPiece state.piece_index.toNat with
    | false =>
      refine absurd ⟨q.retried piece, piece, q, hstep, congrArg some ?_⟩ hlast
      rw [Session.runPopped, deref_ok.mpr hstate, ok_bind, hhas, pushPieceToRetry_ok.mpr ⟨⟨state, hstate⟩, rfl⟩]
      rfl
    | true =>
      refine .inl ⟨piece, q, state, hstep, hstate, hhas, congrArg some ?_, fun n hle => loop_awaits hstate hle⟩
      rw [Session.runPopped, deref_ok.mpr hstate, ok_bind, hhas]
      cases q.getPieceSize state.piece_index <;> rfl

theorem Stops.exhausted (h : Stops peer p) : ¬p.next_piece_index < p.pieces_count ∧
    ∀ x ∈ p.to_retry, ∃ state, p.pieces.get? x = some state ∧
      peer.bitfield.hasPiece state.piece_index.toNat = false := by
  cases step_ok h with
  | exhausted hpopped =>
    cases hpopped with
    | none hnext hlacks => exact ⟨hnext, hlacks⟩

end

/-! ### All passes -/

/-- The passes of a peer over the pieces: there are no more of those that put their piece back than there are pieces
    that were not started, after the last of them a download begins or the connection ends, and it ends only when
    every piece was started and the peer has none of those to retry. -/
structure CannotSpin (peer : TorrentPeer) (p : PiecesToDownload) : Prop where
  bounded : ∀ n p', Passes (Continues peer) n p p' → n ≤ p.pieces_count.toNat - p.next_piece_index.toNat
  ends : ∃ n p', Passes (Continues peer) n p p' ∧ (Starts peer p' ∨ Stops peer p')
  only : ∀ n p', Passes (Continues peer) n p p' → Stops peer p' → ¬p'.next_piece_index < p'.pieces_count ∧
    ∀ x ∈ p'.to_retry, ∃ state, p'.pieces.get? x = some state ∧
      peer.bitfield.hasPiece state.piece_index.toNat = false

theorem cannotSpin (peer : TorrentPeer) (p : PiecesToDownload) (h : RetryLive p) : CannotSpin peer p where
  bounded _ _ hpasses := hpasses.le_rank unstarted fun _ _ hagain => hagain.unstarted_lt
  ends := by
    have hrank : ∀ q q', Continues peer q q' → unstarted q' < unstarted q := fun _ _ hagain => hagain.unstarted_lt
    obtain ⟨n, p', hpasses, hlast⟩ := Passes.exists_last unstarted hrank p
    have hlive : RetryLive p' := hpasses.invariant h fun _ _ hlive hagain => hagain.retryLive hlive
    exact ⟨n, p', hpasses, starts_or_stops hlive hlast⟩
  only _ _ _ hstops := hstops.exhausted

/-- The peer has neither of two pieces: both are tried, and the connection ends. -/
theorem cannotSpin_twoPieces : RetryLive (Geometry.pieces ⟨2, 4, 7⟩) ∧
    CannotSpin { bitfield := ⟨[5, 0]⟩ } (Geometry.pieces ⟨2, 4, 7⟩) ∧
    ∃ p, Passes (Continues { bitfield := ⟨[5, 0]⟩ }) 2 (Geometry.pieces ⟨2, 4, 7⟩) p ∧
      Stops { bitfield := ⟨[5, 0]⟩ } p := by
  have hlive : RetryLive (Geometry.pieces ⟨2, 4, 7⟩) := (Ledger.pieces _).retryLive
  refine ⟨hlive, cannotSpin _ _ hlive, _, .head ⟨0, _, rfl, rfl⟩ (.head ⟨1, _, rfl, rfl⟩ (.refl _)), rfl⟩

end BittorrentClient
