import BittorrentClient.Client.Pieces
import BittorrentClient.Lib.Outcome

/-! What each operation on the pieces does when no assertion fails, and when none does. -/

namespace BittorrentClient
open Memcpy Outcome

/-- A piece that is downloaded again. -/
def PieceState.reset (state : PieceState) : PieceState := { state with downloaded := 0, requested := 0, data := [] }

/-- The state of a piece after a part of it was written. -/
def PieceState.receive (pieceSize : UInt32) (msg : MessagePiece) (state : PieceState) : PieceState :=
  { state with
    downloaded := state.downloaded + msg.size
    data := copy (state.buffer pieceSize) msg.piece_begin.toNat (msg.bytes.take msg.size.toNat) }

theorem PieceState.length_buffer {state : PieceState} {n : UInt32} (h : state.data = [] ∨ state.data.length = n.toNat) :
    (state.buffer n).length = n.toNat := by
  rw [buffer]
  rcases h with h | h
  · rw [h, List.isEmpty_nil, if_pos rfl, List.length_replicate]
  · split
    · rw [List.length_replicate]
    · exact h

/-- What is checked before a part is written; the sums wrap. -/
structure PartFits (pieceSize : UInt32) (msg : MessagePiece) (state : PieceState) : Prop where
  size_pos : msg.size > 0
  downloaded : state.downloaded + msg.size ≤ pieceSize
  part : msg.piece_begin + msg.size ≤ pieceSize

/-- The part is copied into the buffer, and not past it. -/
abbrev CopyFits (pieceSize : UInt32) (msg : MessagePiece) (state : PieceState) : Prop :=
  msg.piece_begin.toNat + msg.size.toNat ≤ (state.buffer pieceSize).length

namespace PiecesToDownload

/-! ### Effects -/

section
variable (p : PiecesToDownload) (piece : Handle)

/-- The pieces after the next one is started. -/
def started : PiecesToDownload :=
  { p with pieces := p.pieces.emplaceBack { piece_index := p.next_piece_index }
           next_piece_index := p.next_piece_index + 1 }

/-- The pieces after one to retry is handed out. -/
def unqueued : PiecesToDownload := { p with to_retry := p.to_retry.erase piece }

/-- The pieces after one is put back. -/
def retried : PiecesToDownload :=
  { p with pieces := p.pieces.modify piece PieceState.reset, to_retry := p.to_retry ++ [piece] }

/-- The pieces after the state of one is changed in place. -/
def changed (f : PieceState → PieceState) : PiecesToDownload := { p with pieces := p.pieces.modify piece f }

/-- The pieces after one is delivered. -/
def delivered (state : PieceState) : PiecesToDownload :=
  { p with downloaded_pieces_count := p.downloaded_pieces_count + 1
           new_pieces := p.new_pieces ++ [state]
           pieces := p.pieces.erase piece }

end

section
variable {p p' : PiecesToDownload} {piece : Handle}

theorem get?_changed {f : PieceState → PieceState} {state : PieceState} (h : p.pieces.get? piece = some state) :
    (p.changed piece f).pieces.get? piece = some (f state) := by
  rw [changed, StableList.get?_modify, if_pos rfl, h, Option.map_some]

theorem deref_ok {state : PieceState} : p.deref piece = .ok state ↔ p.pieces.get? piece = some state := by
  rw [deref]
  cases p.pieces.get? piece with
  | none => exact ⟨nofun, nofun⟩
  | some s => exact ⟨fun h => congrArg some (Except.ok.inj h), fun h => congrArg Except.ok (Option.some.inj h)⟩

/-! ### Handing out -/

theorem findRetry_ok {havePieces : MessageBitfield} {hs : List Handle} {r : Option Handle}
    (h : p.findRetry havePieces hs = .ok r) :
    (∀ x, r = some x → x ∈ hs ∧ ∃ state, p.pieces.get? x = some state ∧ havePieces.hasPiece state.piece_index.toNat = true) ∧
      (r = none → ∀ x ∈ hs, ∃ state, p.pieces.get? x = some state ∧
        havePieces.hasPiece state.piece_index.toNat = false) := by
  induction hs with
  | nil =>
    cases h
    exact ⟨nofun, fun _ => List.forall_mem_nil _⟩
  | cons head hs ih =>
    obtain ⟨state, hstate, h⟩ := bind_ok h
    have hstate := deref_ok.mp hstate
    cases hhas : havePieces.hasPiece state.piece_index.toNat with
    | true =>
      rw [if_pos hhas] at h
      cases h
      exact ⟨fun x hx => Option.some.inj hx ▸ ⟨List.mem_cons_self, state, hstate, hhas⟩, nofun⟩
    | false =>
      rw [if_neg (Bool.eq_false_iff.mp hhas)] at h
      obtain ⟨hsome, hnone⟩ := ih h
      exact ⟨fun x hx => ⟨List.mem_cons_of_mem _ (hsome x hx).1, (hsome x hx).2⟩,
        fun hr => List.forall_mem_cons.mpr ⟨⟨state, hstate, hhas⟩, hnone hr⟩⟩

/-- The loop needs the retried pieces to be there, and no more. -/
theorem findRetry_total {havePieces : MessageBitfield} {hs : List Handle}
    (h : ∀ x ∈ hs, ∃ state, p.pieces.get? x = some state) : ∃ r, p.findRetry havePieces hs = .ok r := by
  induction hs with
  | nil => exact ⟨none, rfl⟩
  | cons head hs ih =>
    obtain ⟨⟨state, hstate⟩, hrest⟩ := List.forall_mem_cons.mp h
    rw [findRetry, deref_ok.mpr hstate, ok_bind]
    split
    · exact ⟨_, rfl⟩
    · exact ih hrest

/-- A piece is the next one, or one to retry; or there is none. -/
inductive Popped (p : PiecesToDownload) (havePieces : MessageBitfield) : Option Handle → PiecesToDownload → Prop where
  | start (h : p.next_piece_index < p.pieces_count) : Popped p havePieces (some p.pieces.next) p.started
  | retry {piece state} (h : ¬p.next_piece_index < p.pieces_count) (hmem : piece ∈ p.to_retry)
      (hstate : p.pieces.get? piece = some state) (hhas : havePieces.hasPiece state.piece_index.toNat = true) :
      Popped p havePieces (some piece) (p.unqueued piece)
  | none (h : ¬p.next_piece_index < p.pieces_count)
      (hlacks : ∀ x ∈ p.to_retry, ∃ state, p.pieces.get? x = some state ∧
        havePieces.hasPiece state.piece_index.toNat = false) : Popped p havePieces none p

theorem popPieceToDownload_ok {havePieces : MessageBitfield} {r : Option Handle}
    (h : p.popPieceToDownload havePieces = .ok (r, p')) : Popped p havePieces r p' := by
  rw [popPieceToDownload] at h
  by_cases hnext : p.next_piece_index < p.pieces_count
  · rw [if_pos hnext] at h
    cases h
    exact .start hnext
  · rw [if_neg hnext] at h
    obtain ⟨found, hfound, h⟩ := bind_ok h
    obtain ⟨hsome, hnone⟩ := findRetry_ok hfound
    cases found with
    | none =>
      cases h
      exact .none hnext (hnone rfl)
    | some piece =>
      cases h
      obtain ⟨hmem, state, hstate, hhas⟩ := hsome piece rfl
      exact .retry hnext hmem hstate hhas

theorem popPieceToDownload_total (havePieces : MessageBitfield)
    (h : ∀ x ∈ p.to_retry, ∃ state, p.pieces.get? x = some state) : ∃ r, p.popPieceToDownload havePieces = .ok r := by
  rw [popPieceToDownload]
  split
  · exact ⟨_, rfl⟩
  · have hretry : ∃ found, p.findRetry havePieces p.to_retry = .ok found := findRetry_total h
    obtain ⟨found, hfound⟩ := hretry
    rw [hfound, ok_bind]
    cases found <;> exact ⟨_, rfl⟩

/-! ### Retrying -/

theorem pushPieceToRetry_ok :
    p.pushPieceToRetry piece = .ok p' ↔ (∃ state, p.pieces.get? piece = some state) ∧ p' = p.retried piece := by
  constructor
  · intro h
    obtain ⟨state, hstate, h⟩ := bind_ok h
    cases h
    exact ⟨⟨state, deref_ok.mp hstate⟩, rfl⟩
  · rintro ⟨⟨state, hstate⟩, rfl⟩
    rw [pushPieceToRetry, deref_ok.mpr hstate]
    rfl

/-! ### Receiving -/

theorem onPiecePartReceive_ok {msg : MessagePiece} : p.onPiecePartReceive piece msg = .ok p' ↔
    ∃ state pieceSize, p.pieces.get? piece = some state ∧ p.getPieceSize state.piece_index = .ok pieceSize ∧
      PartFits pieceSize msg state ∧ CopyFits pieceSize msg state ∧
        p' = p.changed piece fun _ => state.receive pieceSize msg := by
  constructor
  · intro h
    obtain ⟨state, hstate, h⟩ := bind_ok h
    obtain ⟨pieceSize, hsize, h⟩ := bind_ok h
    obtain ⟨_, hpos, h⟩ := bind_ok h
    obtain ⟨_, hdownloaded, h⟩ := bind_ok h
    obtain ⟨_, hpart, h⟩ := bind_ok h
    obtain ⟨_, hcopy, h⟩ := bind_ok h
    cases h
    exact ⟨state, pieceSize, deref_ok.mp hstate, hsize, ⟨check_ok hpos, check_ok hdownloaded, check_ok hpart⟩,
      check_ok hcopy, rfl⟩
  · rintro ⟨state, pieceSize, hstate, hsize, ⟨hpos, hdownloaded, hpart⟩, hcopy, rfl⟩
    rw [onPiecePartReceive, deref_ok.mpr hstate, ok_bind, hsize, ok_bind]
    dsimp only
    rw [check_of _ hpos, ok_bind, check_of _ hdownloaded, ok_bind, check_of _ hpart, ok_bind,
      check_of _ hcopy]
    rfl

theorem onPieceDownloaded_ok : p.onPieceDownloaded piece = .ok p' ↔
    ∃ state, p.pieces.get? piece = some state ∧ p' = p.delivered piece state := by
  constructor
  · intro h
    obtain ⟨state, hstate, h⟩ := bind_ok h
    cases h
    exact ⟨state, deref_ok.mp hstate, rfl⟩
  · rintro ⟨state, hstate, rfl⟩
    rw [onPieceDownloaded, deref_ok.mpr hstate]
    rfl

end

end PiecesToDownload

end BittorrentClient
