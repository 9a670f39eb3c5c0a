import BittorrentClient.Theorems.Swarm.Ledger

/-! Runs of the swarm. The pieces are shared by any number of sessions that take turns, and after any run every
    piece is accounted for. -/

namespace BittorrentClient
open Interleaving PiecesToDownload

/-- Sessions with any peers: each may be at any time where its coroutine can be. -/
def swarm : Rules PiecesToDownload Session where
  joins s := ∃ bitfield, s = Session.start bitfield
  acts p s p' s' := ∃ event, s.step p event = some (.ok (p', s'))

/-- The handles that the sessions hold. -/
def heldBy (sessions : List Session) : List Handle := sessions.flatMap Session.held

theorem heldBy_perm (before : List Session) (s : Session) (after : List Session) :
    (heldBy (before ++ s :: after)).Perm (s.held ++ heldBy (before ++ after)) := by
  simp only [heldBy, List.flatMap_append, List.flatMap_cons]
  exact List.perm_append_comm_assoc _ _ _

theorem swarm_ledger {g : Geometry} {w : World PiecesToDownload Session} (h : Reachable swarm g.pieces w) :
    Ledger w.shared (heldBy w.parties) := by
  refine h.invariant (I := fun w => Ledger w.shared (heldBy w.parties)) (Ledger.pieces g) ?_
  intro v v' _ hv hstep
  cases hstep with
  | join hjoin =>
    obtain ⟨bitfield, rfl⟩ := hjoin
    refine hv.perm (List.Perm.of_eq ?_)
    simp only [heldBy, List.flatMap_append, List.flatMap_singleton]
    exact (List.append_nil _).symm
  | @act p p' before s s' after hact =>
    obtain ⟨event, hact⟩ := hact
    exact ((step_ok hact).ledger (hv.perm (heldBy_perm before s after))).perm (heldBy_perm before s' after).symm

theorem swarm_geometry {g : Geometry} {w : World PiecesToDownload Session} (h : Reachable swarm g.pieces w) :
    w.shared.geometry = g := by
  refine h.invariant (I := fun w => w.shared.geometry = g) rfl ?_
  intro v v' _ hv hstep
  cases hstep with
  | join => exact hv
  | act hact =>
    obtain ⟨event, hact⟩ := hact
    exact (step_ok hact).geometry.trans hv

/-- Rules for parties that are sessions and more: what they do to the sessions is what sessions do. -/
structure Extends {Party : Type} (R : Rules PiecesToDownload Party) (session : Party → Session) : Prop where
  joins : ∀ x, R.joins x → swarm.joins (session x)
  acts : ∀ p x p' x', R.acts p x p' x' →
    (∃ event, (session x).step p event = some (.ok (p', session x'))) ∨ (p' = p ∧ session x' = session x)

namespace Extends
variable {Party : Type} {R : Rules PiecesToDownload Party} {session : Party → Session} {g : Geometry}
  {w : World PiecesToDownload Party}

theorem reachable (hR : Extends R session) (h : Reachable R g.pieces w) :
    Reachable swarm g.pieces ⟨w.shared, w.parties.map session⟩ :=
  h.map session hR.joins hR.acts

/-- An invariant of the pieces and one of each party that reads only the geometry and the pieces that the
    party holds. -/
theorem each (hR : Extends R session) {I : PiecesToDownload → Prop} {L : PiecesToDownload → Party → Prop}
    (h : Reachable R g.pieces w) (hstart : I g.pieces) (hjoin : ∀ p x, R.joins x → L p x)
    (hown : ∀ p x p' x' others, Ledger p ((session x).held ++ others) → p.geometry = g → I p → L p x →
      R.acts p x p' x' → I p' ∧ L p' x')
    (hframe : ∀ p p' x, p'.geometry = p.geometry →
      (∀ piece ∈ (session x).held, p'.pieces.get? piece = p.pieces.get? piece) → L p x → L p' x) :
    I w.shared ∧ ∀ x ∈ w.parties, L w.shared x := by
  refine Reachable.each (G := fun v => Ledger v.shared (heldBy (v.parties.map session)) ∧ v.shared.geometry = g) h
    (fun v hv => ⟨swarm_ledger (hR.reachable hv), swarm_geometry (hR.reachable hv)⟩) hstart hjoin ?_
  intro p before x after p' x' ⟨hledger, hgeometry⟩ hI hL hact
  rw [List.map_append, List.map_cons] at hledger
  have hledger := hledger.perm (heldBy_perm _ _ _)
  obtain ⟨hI', hL'⟩ := hown p x p' x' _ hledger hgeometry hI hL hact
  refine ⟨hI', hL', ?_⟩
  intro y hy hLy
  rcases hR.acts p x p' x' hact with ⟨event, hstep⟩ | ⟨rfl, -⟩
  · have htook := step_ok hstep
    refine hframe p p' y htook.geometry ?_ hLy
    intro piece hpiece
    have hother : piece ∈ heldBy (before.map session ++ after.map session) := by
      rw [← List.map_append]
      exact List.mem_flatMap.mpr ⟨session y, List.mem_map_of_mem hy, hpiece⟩
    obtain ⟨state, hstate⟩ := hledger.get? (List.mem_append_left _ (List.mem_append_right _ hother))
    rw [hstate]
    refine htook.frame hstate ?_
    intro hheld
    exact (List.nodup_append.mp (List.nodup_append.mp hledger.nodup).1).2.2 piece hheld piece hother rfl
  · exact hLy

end Extends

/-! ### Every piece is accounted for -/

/-- No piece is lost or handed out twice. An index is not yet started, held by one session, to retry once or
    completed; the list has the pieces that are held or to retry, and those to retry start again. -/
structure Accounted (p : PiecesToDownload) (sessions : List Session) : Prop where
  once : ∀ i < p.pieces_count.toNat, (if p.next_piece_index.toNat ≤ i then 1 else 0) +
    (p.indices (heldBy sessions)).count i + (p.indices p.to_retry).count i + p.completed.count i = 1
  handles : (heldBy sessions ++ p.to_retry).Perm p.pieces.handles
  downloaded : p.downloaded_pieces_count.toNat = p.completed.length
  completed_lt : ∀ i ∈ p.completed, i < p.pieces_count.toNat
  retry : ∀ piece ∈ p.to_retry, ∃ state, p.pieces.get? piece = some state ∧
    state.downloaded = 0 ∧ state.requested = 0 ∧ state.data = []
  finished : p.downloaded_pieces_count = p.pieces_count → p.pieces.isEmpty = true ∧ p.to_retry = []

theorem Ledger.accounted {p : PiecesToDownload} {sessions : List Session} (h : Ledger p (heldBy sessions)) :
    Accounted p sessions := by
  have hnext := UInt32.le_iff_toNat_le.mp h.next_le
  refine ⟨?_, h.handles, h.downloaded, ?_, ?_, ?_⟩
  · intro i hi
    have hcount := h.indices.count_eq i
    rw [PiecesToDownload.indices, List.filterMap_append, List.count_append, List.count_append,
      List.nodup_range.count] at hcount
    simp only [List.mem_range] at hcount
    simp only [PiecesToDownload.indices]
    split <;> split at hcount <;> omega
  · intro i hi
    have hmem := h.indices.subset (List.mem_append_right _ hi)
    exact Nat.lt_of_lt_of_le (List.mem_range.mp hmem) hnext
  · intro piece hpiece
    obtain ⟨state, hstate, hreset⟩ := h.retry piece hpiece
    exact ⟨state, hstate, by rw [hreset], by rw [hreset], by rw [hreset]⟩
  · intro hdone
    -- All indices are completed, so none is behind a handle.
    have hlength := h.indices.length_eq
    rw [List.length_append, List.length_range, Ledger.length_indices fun x hx => h.get? hx, ← h.downloaded,
      hdone] at hlength
    have hnone : heldBy sessions ++ p.to_retry = [] := List.length_eq_zero_iff.mp (by omega)
    refine ⟨StableList.isEmpty_iff.mpr ?_, (List.append_eq_nil_iff.mp hnone).2⟩
    exact (hnone ▸ h.handles).nil_eq.symm

/-- In every reachable state, with any number of peers, every piece is accounted for. -/
theorem swarm_accounted (g : Geometry) (w : World PiecesToDownload Session) (h : Reachable swarm g.pieces w) :
    Accounted w.shared w.parties :=
  (swarm_ledger h).accounted

/-- One peer, and the first of two pieces is begun. -/
theorem swarm_accounted_begun :
    Accounted (Geometry.pieces ⟨2, 4, 7⟩).started [⟨{ bitfield := ⟨[5, 0xC0]⟩ }, .loop 0 4 0⟩] := by
  have hjoin : Reachable swarm (Geometry.pieces ⟨2, 4, 7⟩) ⟨_, [Session.start ⟨[5, 0xC0]⟩]⟩ := .join ⟨_, rfl⟩
  have hpopped : Reachable swarm (Geometry.pieces ⟨2, 4, 7⟩)
      ⟨(Geometry.pieces ⟨2, 4, 7⟩).started, [⟨{ bitfield := ⟨[5, 0xC0]⟩ }, .popped 0⟩]⟩ := hjoin.act ⟨.run, rfl⟩
  exact swarm_accounted _ _ (hpopped.act ⟨.run, rfl⟩)

end BittorrentClient
