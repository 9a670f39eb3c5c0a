import BittorrentClient.Theorems.Swarm.Steps

/-! Where the pieces are. Every handle is held by one session or queued for a retry, and every index that was
    started is behind one handle or was delivered once. Every step of a session keeps these books. -/

namespace BittorrentClient
open PiecesToDownload Words

namespace PiecesToDownload
variable (p : PiecesToDownload)

def indexOf (piece : Handle) : Option Nat := (p.pieces.get? piece).map fun state => state.piece_index.toNat

/-- The indices of the pieces behind the handles. -/
def indices (handles : List Handle) : List Nat := handles.filterMap p.indexOf

/-- The indices of the pieces that were delivered, one for each call of `on_new_piece`. -/
def completed : List Nat := p.new_pieces.map fun state => state.piece_index.toNat

end PiecesToDownload

/-- The pieces of a torrent as `main` sets them up. -/
def Geometry.pieces (g : Geometry) : PiecesToDownload :=
  { pieces_count := g.pieces_count, piece_size := g.piece_size, total_size := g.total_size }

theorem initial_pieces {client : TorrentClient} {p : PiecesToDownload} (h : PiecesToDownload.initial client = .ok p) :
    p = p.geometry.pieces := by
  obtain ⟨total, -, h⟩ := Outcome.bind_ok h
  cases h
  rfl

/-! ### The ledger -/

/-- The books of the pieces, with the handles that are held by the sessions. -/
structure Ledger (p : PiecesToDownload) (held : List Handle) : Prop where
  handles : (held ++ p.to_retry).Perm p.pieces.handles
  indices : (p.indices (held ++ p.to_retry) ++ p.completed).Perm (List.range p.next_piece_index.toNat)
  next_le : p.next_piece_index ≤ p.pieces_count
  downloaded : p.downloaded_pieces_count.toNat = p.completed.length
  retry : ∀ piece ∈ p.to_retry, ∃ state, p.pieces.get? piece = some state ∧ state = { piece_index := state.piece_index }

namespace Ledger
variable {p : PiecesToDownload} {held held' : List Handle} {piece : Handle} {state : PieceState}

theorem perm (h : Ledger p held) (hperm : held.Perm held') : Ledger p held' where
  handles := (hperm.symm.append_right _).trans h.handles
  indices := (((hperm.symm.append_right _).filterMap _).append_right _).trans h.indices
  next_le := h.next_le
  downloaded := h.downloaded
  retry := h.retry

theorem nodup (h : Ledger p held) : (held ++ p.to_retry).Nodup := h.handles.nodup_iff.mpr p.pieces.nodup

theorem get? (h : Ledger p held) {x : Handle} (hx : x ∈ held ++ p.to_retry) : ∃ state, p.pieces.get? x = some state :=
  StableList.mem_handles_iff.mp (h.handles.mem_iff.mp hx)

theorem index_lt (h : Ledger p held) {x : Handle} (hx : x ∈ held ++ p.to_retry) (hstate : p.pieces.get? x = some state) :
    state.piece_index < p.pieces_count := by
  have hindex : state.piece_index.toNat ∈ p.indices (held ++ p.to_retry) :=
    List.mem_filterMap.mpr ⟨x, hx, by rw [indexOf, hstate, Option.map_some]⟩
  have hlt := List.mem_range.mp (h.indices.subset (List.mem_append_left _ hindex))
  exact UInt32.lt_iff_toNat_lt.mpr (Nat.lt_of_lt_of_le hlt (UInt32.le_iff_toNat_le.mp h.next_le))

theorem ne_next (h : Ledger p held) {x : Handle} (hx : x ∈ held ++ p.to_retry) : x ≠ p.pieces.next :=
  Nat.ne_of_lt (StableList.lt_of_mem_handles (h.handles.mem_iff.mp hx))

theorem length_indices {hs : List Handle}
    (h : ∀ x ∈ hs, ∃ state, p.pieces.get? x = some state) : (p.indices hs).length = hs.length := by
  induction hs with
  | nil => rfl
  | cons x hs ih =>
    obtain ⟨⟨state, hstate⟩, hrest⟩ := List.forall_mem_cons.mp h
    have hcons : p.indices (x :: hs) = state.piece_index.toNat :: p.indices hs :=
      List.filterMap_cons_some (by rw [indexOf, hstate, Option.map_some])
    rw [hcons, List.length_cons, List.length_cons, ih hrest]

theorem indices_congr {p' : PiecesToDownload} {hs : List Handle} (h : ∀ x ∈ hs, p'.indexOf x = p.indexOf x) :
    p'.indices hs = p.indices hs :=
  List.filterMap_congr h

theorem pieces (g : Geometry) : Ledger g.pieces [] where
  handles := List.Perm.refl _
  indices := List.Perm.refl _
  next_le := UInt32.zero_le
  downloaded := rfl
  retry := List.forall_mem_nil _

/-- Changing a piece in place keeps the books, as long as it keeps its index. -/
theorem indexOf_changed {f : PieceState → PieceState} (hf : ∀ state, p.pieces.get? piece = some state →
    (f state).piece_index = state.piece_index) (x : Handle) : (p.changed piece f).indexOf x = p.indexOf x := by
  rw [indexOf, PiecesToDownload.changed, StableList.get?_modify, indexOf]
  split
  · rename_i hx
    subst hx
    cases hget : p.pieces.get? x with
    | none => rfl
    | some state => exact congrArg (fun i => some i.toNat) (hf state hget)
  · rfl

theorem started (h : Ledger p held) (hnext : p.next_piece_index < p.pieces_count) :
    Ledger p.started (p.pieces.next :: held) := by
  have hsucc := toNat_succ_of_lt hnext
  have hfirst : p.started.indexOf p.pieces.next = some p.next_piece_index.toNat := by
    rw [indexOf, PiecesToDownload.started, StableList.get?_emplaceBack, if_pos rfl]
    rfl
  have hrest : p.started.indices (held ++ p.to_retry) = p.indices (held ++ p.to_retry) :=
    indices_congr fun x hx => by
      rw [indexOf, PiecesToDownload.started, StableList.get?_emplaceBack, if_neg (h.ne_next hx), indexOf]
  refine ⟨?_, ?_, ?_, h.downloaded, ?_⟩
  · rw [PiecesToDownload.started, StableList.handles_emplaceBack]
    exact (h.handles.cons _).trans (List.perm_append_singleton _ _).symm
  · have hcons : p.started.indices (p.pieces.next :: held ++ p.started.to_retry) =
        p.next_piece_index.toNat :: p.indices (held ++ p.to_retry) := by
      rw [← hrest]
      exact List.filterMap_cons_some hfirst
    rw [hcons, show p.started.next_piece_index = p.next_piece_index + 1 from rfl, hsucc, List.range_succ]
    exact (h.indices.cons _).trans (List.perm_append_singleton _ _).symm
  · rw [UInt32.le_iff_toNat_le, show p.started.next_piece_index = p.next_piece_index + 1 from rfl, hsucc]
    exact UInt32.lt_iff_toNat_lt.mp hnext
  · intro x hx
    obtain ⟨state, hstate, hreset⟩ := h.retry x hx
    refine ⟨state, ?_, hreset⟩
    rw [PiecesToDownload.started, StableList.get?_emplaceBack, if_neg (h.ne_next (List.mem_append_right _ hx)), hstate]

theorem unqueued (h : Ledger p held) (hmem : piece ∈ p.to_retry) : Ledger (p.unqueued piece) (piece :: held) := by
  have hperm : (piece :: held ++ p.to_retry.erase piece).Perm (held ++ p.to_retry) :=
    List.perm_middle.symm.trans ((List.perm_cons_erase hmem).symm.append_left held)
  refine ⟨hperm.trans h.handles, ?_, h.next_le, h.downloaded, fun x hx => h.retry x (List.mem_of_mem_erase hx)⟩
  exact ((hperm.filterMap _).append_right _).trans h.indices

theorem changed (h : Ledger p (piece :: held)) {f : PieceState → PieceState}
    (hf : ∀ state, p.pieces.get? piece = some state → (f state).piece_index = state.piece_index) :
    Ledger (p.changed piece f) (piece :: held) := by
  refine ⟨?_, ?_, h.next_le, h.downloaded, ?_⟩
  · rw [PiecesToDownload.changed, StableList.handles_modify]
    exact h.handles
  · rw [show (p.changed piece f).to_retry = p.to_retry from rfl, indices_congr fun x _ => indexOf_changed hf x]
    exact h.indices
  · intro x hx
    obtain ⟨state, hstate, hreset⟩ := h.retry x hx
    have hne : x ≠ piece := fun heq =>
      (List.nodup_cons.mp h.nodup).1 (List.mem_append_right _ (heq ▸ hx))
    exact ⟨state, by rw [PiecesToDownload.changed, StableList.get?_modify, if_neg hne, hstate], hreset⟩

theorem retried (h : Ledger p (piece :: held)) : Ledger (p.retried piece) held := by
  have hchanged := h.changed (f := PieceState.reset) fun _ _ => rfl
  have hperm : (held ++ (p.to_retry ++ [piece])).Perm (piece :: held ++ p.to_retry) := by
    rw [← List.append_assoc]
    exact List.perm_append_singleton _ _
  refine ⟨hperm.trans hchanged.handles, ?_, h.next_le, h.downloaded, ?_⟩
  · exact ((hperm.filterMap _).append_right _).trans hchanged.indices
  · intro x hx
    rcases List.mem_append.mp hx with hx | hx
    · exact hchanged.retry x hx
    · obtain ⟨state, hstate⟩ := h.get? (List.mem_cons_self ..)
      refine ⟨state.reset, ?_, rfl⟩
      rw [PiecesToDownload.retried, StableList.get?_modify, if_pos (List.mem_singleton.mp hx), List.mem_singleton.mp hx,
        hstate, Option.map_some]

/-- The delivered piece moves from the handles to the completed indices. -/
theorem delivered (h : Ledger p (piece :: held)) (hstate : p.pieces.get? piece = some state) :
    Ledger (p.delivered piece state) held := by
  have hnotin := (List.nodup_cons.mp h.nodup).1
  have hget : ∀ x ∈ held ++ p.to_retry, (p.delivered piece state).pieces.get? x = p.pieces.get? x := fun x hx => by
    rw [PiecesToDownload.delivered, StableList.get?_erase, if_neg (ne_of_mem_of_not_mem hx hnotin)]
  have hrest : (p.delivered piece state).indices (held ++ p.to_retry) = p.indices (held ++ p.to_retry) :=
    indices_congr fun x hx => congrArg _ (hget x hx)
  have hcompleted : (p.delivered piece state).completed = p.completed ++ [state.piece_index.toNat] := by
    rw [completed, completed, PiecesToDownload.delivered, List.map_append, List.map_singleton]
  have hfirst : p.indices (piece :: held ++ p.to_retry) = state.piece_index.toNat :: p.indices (held ++ p.to_retry) :=
    List.filterMap_cons_some (by rw [indexOf, hstate, Option.map_some])
  have hindices := h.indices
  rw [hfirst] at hindices
  refine ⟨?_, ?_, h.next_le, ?_, ?_⟩
  · rw [PiecesToDownload.delivered, StableList.handles_erase]
    have := h.handles.erase piece
    rwa [List.cons_append, List.erase_cons_head] at this
  · rw [show (p.delivered piece state).to_retry = p.to_retry from rfl, hrest, hcompleted, ← List.append_assoc]
    exact (List.perm_append_singleton _ _).trans hindices
  · have hlength := hindices.length_eq
    rw [List.length_append, List.length_cons, List.length_range] at hlength
    have hnext := UInt32.le_iff_toNat_le.mp h.next_le
    have hdownloaded := h.downloaded
    have hlt : p.downloaded_pieces_count < p.pieces_count := UInt32.lt_iff_toNat_lt.mpr (by omega)
    rw [hcompleted, List.length_append, List.length_singleton, ← hdownloaded]
    exact toNat_succ_of_lt hlt
  · intro x hx
    obtain ⟨state', hstate', hreset⟩ := h.retry x hx
    exact ⟨state', (hget x (List.mem_append_right _ hx)).trans hstate', hreset⟩

end Ledger

/-- A step of a session keeps the books. -/
theorem Took.ledger {p p' : PiecesToDownload} {s s' : Session} {event : Event} {others : List Handle}
    (h : Took p s event p' s') (hledger : Ledger p (s.held ++ others)) : Ledger p' (s'.held ++ others) := by
  cases h with
  | exhausted h =>
    cases h
    exact hledger
  | popped h =>
    cases h with
    | start hnext => exact hledger.started hnext
    | retry _ hmem => exact hledger.unqueued hmem
  | lacks | requestFailed | readFailed => exact hledger.retried
  | begin | request | wait | notice | haveSent | haveFailed => exact hledger
  | deliver hstate => exact hledger.delivered hstate
  | requested => exact hledger.changed fun _ _ => rfl
  | part hstate =>
    refine hledger.changed ?_
    intro state' hstate'
    cases hstate.symm.trans hstate'
    rfl

/-- A piece that is handed out starts from nothing. -/
theorem Ledger.popped {p p' : PiecesToDownload} {held : List Handle} {havePieces : MessageBitfield} {piece : Handle}
    (h : Ledger p held) (hpopped : Popped p havePieces (some piece) p') :
    ∃ state, p'.pieces.get? piece = some state ∧ state = { piece_index := state.piece_index } := by
  cases hpopped with
  | start => exact ⟨_, by rw [PiecesToDownload.started, StableList.get?_emplaceBack, if_pos rfl], rfl⟩
  | retry _ hmem => exact h.retry piece hmem

end BittorrentClient
