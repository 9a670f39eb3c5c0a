import BittorrentClient.Theorems.Bytes
import BittorrentClient.Theorems.Program.Aborts
import BittorrentClient.Theorems.Tracker.Peers

/-! What the program reports: to the trackers at the beginning of a round, and to the user whenever a part of a piece has
    come. -/

namespace BittorrentClient
open Interleaving Outcome PiecesToDownload SortUnique Words

/-! ### The pieces that are counted -/

namespace Session

/-- The session has all bytes of its piece, and is to deliver it next. -/
def full (p : PiecesToDownload) (s : Session) : Bool :=
  match s.coroutine with
  | .loop piece n _ => (p.pieces.get? piece).any fun state => state.downloaded = n
  | _ => false

/-- The part that is read completes the piece. -/
def completes (p : PiecesToDownload) (s : Session) (event : Event) : Bool :=
  match s.coroutine, event with
  | .readMessage piece _ _, .received (.piece _) =>
    (p.pieces.get? piece).any fun state => state.downloaded.toNat = state.data.length
  | _, _ => false

end Session

section
variable {p p' : PiecesToDownload} {s s' : Session} {event : Event}

theorem full_congr (hget : ∀ piece ∈ s.held, p'.pieces.get? piece = p.pieces.get? piece) : s.full p' = s.full p := by
  obtain ⟨peer, coroutine⟩ := s
  cases coroutine with
  | loop piece => simp only [Session.full, hget piece (List.mem_singleton_self _)]
  | _ => rfl

theorem full_loop {peer : TorrentPeer} {piece : Handle} {n : UInt32} {b : Int} {state : PieceState}
    (hstate : p.pieces.get? piece = some state) :
    Session.full p ⟨peer, .loop piece n b⟩ = decide (state.downloaded = n) := by
  rw [Session.full]
  simp only [hstate, Option.any_some]

/-- A part that completes a piece makes it full, and a full piece is delivered: the full pieces and the delivered ones are
    those that were completed. -/
theorem full_step {others : List Handle} (hledger : Ledger p (s.held ++ others)) (hbuffered : Buffered p)
    (hvalid : p.geometry.Valid) (h : Took p s event p' s') (hfilling : Filling p s) :
    p'.new_pieces.length + (s'.full p').toNat =
      p.new_pieces.length + (s.full p).toNat + (s.completes p' event).toNat := by
  cases h with
  | exhausted h | popped h => cases h <;> rfl
  | lacks | haveSent | haveFailed | requestFailed | readFailed | requested => rfl
  | begin hstate _ hn =>
    obtain ⟨state, hstate', hnone⟩ := hfilling
    cases hstate.symm.trans hstate'
    have hi := hledger.index_lt (List.mem_append_left _ List.mem_cons_self) hstate
    rw [full_loop hstate, hnone, decide_eq_false (getPieceSize_ne_zero hvalid hi hn).symm]
    rfl
  | request hstate hmore | wait hstate hmore =>
    rw [full_loop hstate, decide_eq_false (UInt32.ne_of_lt hmore)]
    rfl
  | deliver hstate hfull =>
    rw [full_loop hstate, decide_eq_true hfull]
    exact List.length_append
  | notice h =>
    obtain ⟨state, hstate, -, hlt⟩ := hfilling
    rw [full_loop hstate, decide_eq_false (UInt32.ne_of_lt hlt)]
    cases h <;> rfl
  | @part _ _ state n _ _ m hstate _ hsize =>
    obtain ⟨state', hstate', hn, -⟩ := hfilling
    cases hstate.symm.trans hstate'
    cases hn.symm.trans hsize
    have hcompletes : ((state.receive n m).downloaded.toNat = (state.receive n m).data.length) =
        ((state.receive n m).downloaded = n) := by
      rw [hbuffered.length_receive hstate hn, UInt32.toNat_inj]
    rw [full_loop (get?_changed hstate)]
    simp only [Session.completes, get?_changed hstate, Option.any_some, hcompletes]
    rfl

/-! ### Of the program -/

variable {Url : Type} {endian : Endian} {client : TorrentClient} {urls : UrlParser Url} {system : Win32}
  {start : Downloads} {w : World Downloads PeerDownload} {x x' : PeerDownload} {netEvent : NetEvent}

theorem observe_before (debug : DebugObserver) (h : x.session = none) : debug.observe p x netEvent = debug := by
  obtain ⟨address, peerId, extensions, peer, point, written⟩ := x
  cases point with
  | download coroutine => cases h
  | _ => rfl

/-- Only the parts that complete a piece are counted. -/
theorem observe_completes (debug : DebugObserver) (hs : x.session = some s) (hevent : netEvent.event = some event) :
    (debug.observe p x netEvent).received_pieces =
      if s.completes p event then debug.received_pieces + 1 else debug.received_pieces := by
  obtain ⟨address, peerId, extensions, peer, point, written⟩ := x
  cases point with
  | download coroutine =>
    cases hs
    cases netEvent with
    | handshake => cases hevent
    | run | done | failed =>
      cases hevent
      cases coroutine <;> rfl
    | message m =>
      cases hevent
      cases coroutine with
      | readMessage piece =>
        cases m with
        | piece m =>
          cases hget : p.pieces.get? piece with
          | none => simp only [DebugObserver.observe, Session.completes, hget, Option.any_none, Bool.false_eq_true, if_false]
          | some state =>
            simp only [DebugObserver.observe, DebugObserver.onNewPartReceived, Session.completes, hget, Option.any_some,
              decide_eq_true_eq]
        | _ => rfl
      | _ => rfl
  | _ => cases hs

theorem observe_download (debug : DebugObserver) (hs : x.session = some s) (hevent : netEvent.event = some event)
    (h : debug.received_pieces.toNat + (s.completes p event).toNat < 2 ^ 32) :
    (debug.observe p x netEvent).received_pieces.toNat =
      debug.received_pieces.toNat + (s.completes p event).toNat := by
  rw [observe_completes debug hs hevent]
  cases hcompletes : s.completes p event with
  | false => rfl
  | true =>
    rw [hcompletes] at h
    exact (UInt32.toNat_add _ _).trans (Nat.mod_eq_of_lt h)

theorem observe_same (p : PiecesToDownload) (x : PeerDownload) (netEvent : NetEvent) (debug : DebugObserver) :
    (debug.observe p x netEvent).total = debug.total ∧
    (debug.observe p x netEvent).pieces_count = debug.pieces_count ∧
    (debug.observe p x netEvent).total_peers = debug.total_peers ∧
    (debug.observe p x netEvent).peers_count = debug.peers_count := by
  unfold DebugObserver.observe
  split
  · split <;> exact ⟨rfl, rfl, rfl, rfl⟩
  · exact ⟨rfl, rfl, rfl, rfl⟩

theorem countP_full_cons (s : Session) (sessions : List Session) :
    (s :: sessions).countP (Session.full p) = (s.full p).toNat + sessions.countP (Session.full p) := by
  cases h : s.full p with
  | false => rw [List.countP_cons_of_neg (by simp [h]), Bool.toNat_false, Nat.zero_add]
  | true => rw [List.countP_cons_of_pos h, Bool.toNat_true, Nat.add_comm]

/-- A full piece is held. -/
theorem countP_full_le (sessions : List Session) : sessions.countP (Session.full p) ≤ (heldBy sessions).length := by
  induction sessions with
  | nil => exact Nat.le_refl 0
  | cons s sessions ih =>
    have hone : (s.full p).toNat ≤ s.held.length := by
      obtain ⟨peer, coroutine⟩ := s
      cases coroutine with
      | loop => exact Bool.toNat_le _
      | _ => exact Nat.zero_le _
    rw [countP_full_cons, heldBy, List.flatMap_cons, List.length_append]
    exact Nat.add_le_add hone ih

/-- The delivered and the full pieces are among those that were started. -/
theorem Kept.counted_le (h : Kept start w) : w.shared.pieces.new_pieces.length +
    (sessions w.parties).countP (Session.full w.shared.pieces) ≤ w.shared.pieces.next_piece_index.toNat := by
  have hlength := h.ledger.indices.length_eq
  rw [List.length_append, Ledger.length_indices fun x hx => h.ledger.get? hx, List.length_append, completed,
    List.length_map, List.length_range] at hlength
  have hfull := countP_full_le (p := w.shared.pieces) (sessions w.parties)
  omega

/-- No piece is full when all connections have finished. -/
theorem countP_full_finished {p : PiecesToDownload} {parties : List PeerDownload} (h : ∀ x ∈ parties, x.finished) :
    (sessions parties).countP (Session.full p) = 0 := by
  refine List.countP_eq_zero.mpr ?_
  intro s hs
  obtain ⟨x, hx, hxs⟩ := List.mem_filterMap.mp hs
  have hheld := held_of_finished (h x hx) hxs
  obtain ⟨peer, coroutine⟩ := s
  cases coroutine with
  | loop => cases hheld
  | _ => simp [Session.full]

/-- What is counted as received are the pieces that were delivered and those that are full. -/
theorem program_count (hstart : Downloads.initial client system = .ok start) (hvalid : start.pieces.geometry.Valid)
    (h : Rounds.Reachable (program endian client urls) start w) : w.shared.debug.received_pieces.toNat =
      w.shared.pieces.new_pieces.length + (sessions w.parties).countP (Session.full w.shared.pieces) := by
  have hnone : start.debug.received_pieces = 0 ∧ start.pieces.new_pieces = [] := by
    obtain ⟨list, -, h⟩ := bind_ok hstart
    obtain ⟨p, hp, h⟩ := bind_ok h
    cases h
    rw [initial_pieces hp]
    exact ⟨rfl, rfl⟩
  refine h.invariant (I := fun w => w.shared.debug.received_pieces.toNat =
    w.shared.pieces.new_pieces.length + (sessions w.parties).countP (Session.full w.shared.pieces)) ?_ ?_
  · simp only [hnone.1, hnone.2]
    rfl
  · intro v v' hreach hv hstep
    have hkept := program_kept hstart hreach
    have hlt := (program_kept hstart (hreach.tail hstep)).counted_le
    have hnext := v'.shared.pieces.next_piece_index.toNat_lt
    have hfilling := program_filling hstart hreach
    cases hstep with
    | @begin d d' old new hold hbegins =>
      obtain ⟨-, response, -, hround⟩ := hbegins
      obtain ⟨addresses, -, -, rfl, rfl⟩ := Downloads.beginRound_ok hround
      have hnew : sessions (addresses.map fun address => ({ address := address } : PeerDownload)) = [] :=
        List.filterMap_eq_nil_iff.mpr (List.forall_mem_map.mpr fun address _ => rfl)
      dsimp only at hv ⊢
      rw [hnew, List.countP_nil, ← countP_full_finished hold]
      exact hv
    | @act d d' before x x' after hact =>
      obtain ⟨event, hact⟩ := hact
      obtain ⟨p, disk, hstep, -, rfl⟩ := Downloads.step_ok hact
      have hadvanced := PeerDownload.step_ok hstep
      have hledger := ledger_split hkept.ledger
      have hothers : ∀ y ∈ before ++ after, ∀ s, y.session = some s → s.full p = s.full d.pieces := by
        intro y hy s hs
        refine full_congr ?_
        intro piece hpiece
        refine hadvanced.frame hledger (List.mem_flatMap.mpr ⟨y, hy, ?_⟩)
        rw [PeerDownload.held, hs]
        exact hpiece
      have hsame : ∀ parties : List PeerDownload, (∀ y ∈ parties, y ∈ before ++ after) →
          (sessions parties).countP (Session.full p) = (sessions parties).countP (Session.full d.pieces) := by
        intro parties hparties
        refine List.countP_congr ?_
        intro s hs
        obtain ⟨y, hy, hys⟩ := List.mem_filterMap.mp hs
        rw [hothers y (hparties y hy) s hys]
      have hbefore := hsame before fun y hy => List.mem_append_left _ hy
      have hafter := hsame after fun y hy => List.mem_append_right _ hy
      dsimp only at hv hlt hnext ⊢
      rw [sessions, List.filterMap_append, List.countP_append] at hv hlt ⊢
      rw [sessions] at hbefore hafter
      cases hadvanced with
      | stage h =>
        have hx' : (List.filterMap PeerDownload.session (x' :: after)).countP (Session.full d.pieces) =
            (List.filterMap PeerDownload.session (x :: after)).countP (Session.full d.pieces) := by
          rw [List.filterMap_cons_none h.session_none, List.filterMap_cons]
          cases hs : x'.session with
          | none => rfl
          | some s =>
            have hpop := h.pop hs
            exact List.countP_cons_of_neg (by simp [Session.full, hpop])
        rw [observe_before _ h.session_none, hx', hv]
      | @download coroutine e _ s' _ hpoint hevent hstep hs' =>
        have hs : x.session = some ⟨x.peer, coroutine⟩ := by rw [PeerDownload.session, hpoint]
        obtain ⟨all, -, hreachable⟩ := program_swarm hstart hreach
        rw [PeerDownload.held, hs] at hledger
        dsimp only at hledger
        have hcount := full_step hledger (swarm_buffered hreachable) (hkept.geometry ▸ hvalid) (step_ok hstep)
          (hfilling x List.mem_append_cons_self _ hs)
        rw [List.filterMap_cons_some hs, countP_full_cons] at hv
        rw [List.filterMap_cons_some hs', countP_full_cons, hbefore, hafter] at hlt ⊢
        rw [observe_download _ hs hevent (by omega)]
        omega

/-! ### To the user -/

/-- What the user is told of the pieces. The count is of those that were delivered and of those that are full and
    delivered next; it is at most the number of pieces, agrees with the count of `main` between two rounds, and is the
    number of pieces at the end. -/
structure Reported (d : Downloads) (parties : List PeerDownload) : Prop where
  total : d.debug.total = d.pieces.total_size ∧ d.debug.pieces_count = d.pieces.pieces_count
  received : d.debug.received_pieces.toNat =
    d.pieces.downloaded_pieces_count.toNat + (sessions parties).countP (Session.full d.pieces)
  le : d.debug.received_pieces ≤ d.pieces.pieces_count
  between : (∀ x ∈ parties, x.finished) → d.debug.received_pieces = d.pieces.downloaded_pieces_count
  finished : ¬d.unfinished → d.debug.received_pieces = d.pieces.pieces_count

theorem program_total (hstart : Downloads.initial client system = .ok start)
    (h : Rounds.Reachable (program endian client urls) start w) :
    w.shared.debug.total = start.pieces.total_size ∧ w.shared.debug.pieces_count = start.pieces.pieces_count := by
  refine h.invariant (I := fun w => w.shared.debug.total = start.pieces.total_size ∧
    w.shared.debug.pieces_count = start.pieces.pieces_count) ?_ ?_
  · obtain ⟨list, -, h⟩ := bind_ok hstart
    obtain ⟨p, -, h⟩ := bind_ok h
    cases h
    exact ⟨rfl, rfl⟩
  · rintro v v' - ⟨htotal, hcount⟩ hstep
    cases hstep with
    | begin _ hbegins =>
      obtain ⟨-, response, -, hround⟩ := hbegins
      obtain ⟨addresses, -, -, rfl, rfl⟩ := Downloads.beginRound_ok hround
      exact ⟨htotal, hcount⟩
    | act hact =>
      obtain ⟨event, hact⟩ := hact
      obtain ⟨p, disk, -, -, rfl⟩ := Downloads.step_ok hact
      obtain ⟨htotal', hcount', -, -⟩ := observe_same p _ event _
      exact ⟨htotal'.trans htotal, hcount'.trans hcount⟩

theorem program_reported (hstart : Downloads.initial client system = .ok start) (hvalid : start.pieces.geometry.Valid)
    (h : Rounds.Reachable (program endian client urls) start w) : Reported w.shared w.parties := by
  have hkept := program_kept hstart h
  have hcount := program_count hstart hvalid h
  have hdownloaded := hkept.ledger.downloaded
  have hle := hkept.counted_le
  have hnext := UInt32.le_iff_toNat_le.mp hkept.ledger.next_le
  rw [completed, List.length_map] at hdownloaded
  rw [← hdownloaded] at hcount hle
  have hbound : w.shared.debug.received_pieces ≤ w.shared.pieces.pieces_count := by
    rw [UInt32.le_iff_toNat_le, hcount]
    exact Nat.le_trans hle hnext
  refine ⟨?_, hcount, hbound, ?_, ?_⟩
  · obtain ⟨htotal, hpieces⟩ := program_total hstart h
    exact ⟨htotal.trans (congrArg Geometry.total_size hkept.geometry).symm,
      hpieces.trans (congrArg Geometry.pieces_count hkept.geometry).symm⟩
  · intro hfinished
    rw [countP_full_finished hfinished] at hcount
    exact UInt32.toNat_inj.mp hcount
  · intro hdone
    obtain ⟨hall, -⟩ := hkept.ledger.complete hdone
    rw [UInt32.le_iff_toNat_le, ← hall] at hbound
    exact (UInt32.toNat_inj.mp (by omega)).trans hall

/-! ### To the trackers -/

end

/-- At the end of a download. -/
theorem program_reported_oneFile : ∃ w : World Downloads PeerDownload, ¬w.shared.unfinished ∧ Reported w.shared w.parties := by
  obtain ⟨w, h, hdone⟩ := oneFile_finishes
  exact ⟨_, hdone, program_reported oneStart_initial ⟨by decide, by decide⟩ (honest_program h)⟩

end BittorrentClient
