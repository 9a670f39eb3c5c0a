import BittorrentClient.Theorems.Program.Conduct
import BittorrentClient.Theorems.Swarm.Hostile

/-! What can end the program, whatever the peers do: messages that fail an assertion, and nothing else. -/

namespace BittorrentClient
open Interleaving Outcome PiecesToDownload Words

/-! ### What is known of the bytes of a piece -/

/-- What is known of the bytes of a piece that is held, by where the coroutine is: some are missing where more are asked
    for. -/
def Filling (p : PiecesToDownload) (s : Session) : Prop :=
  match s.coroutine with
  | .popped piece => ∃ state, p.pieces.get? piece = some state ∧ state.downloaded = 0
  | .loop piece n _ =>
    ∃ state, p.pieces.get? piece = some state ∧ p.getPieceSize state.piece_index = .ok n ∧ state.downloaded ≤ n
  | .sendRequest piece n _ _ | .readMessage piece n _ =>
    ∃ state, p.pieces.get? piece = some state ∧ p.getPieceSize state.piece_index = .ok n ∧ state.downloaded < n
  | .pop | .sendHave _ | .returned => True

/-- What is counted is in a buffer. -/
def Backed (p : PiecesToDownload) : Prop :=
  ∀ piece state, p.pieces.get? piece = some state → state.data = [] → state.downloaded = 0

section
variable {p p' : PiecesToDownload} {s s' : Session} {event : Event}

theorem filling_congr (hgeometry : p'.geometry = p.geometry)
    (hget : ∀ piece ∈ s.held, p'.pieces.get? piece = p.pieces.get? piece) (h : Filling p s) : Filling p' s := by
  obtain ⟨peer, coroutine⟩ := s
  cases coroutine with
  | pop | sendHave | returned => trivial
  | popped piece =>
    obtain ⟨state, hstate, hrest⟩ := h
    exact ⟨state, (hget piece (List.mem_singleton_self _)).trans hstate, hrest⟩
  | loop piece | sendRequest piece | readMessage piece =>
    obtain ⟨state, hstate, hn, hrest⟩ := h
    exact ⟨state, (hget piece (List.mem_singleton_self _)).trans hstate, (getPieceSize_congr hgeometry _).trans hn, hrest⟩

theorem filling_step {others : List Handle} (hledger : Ledger p (s.held ++ others)) (h : Took p s event p' s')
    (hfilling : Filling p s) : Filling p' s' := by
  cases h with
  | exhausted | lacks | deliver | haveSent | haveFailed | requestFailed | readFailed => trivial
  | popped h =>
    obtain ⟨state, hstate, hfresh⟩ := hledger.popped h
    exact ⟨state, hstate, by rw [hfresh]⟩
  | begin hstate _ hn =>
    obtain ⟨state, hstate', hnone⟩ := hfilling
    cases hstate.symm.trans hstate'
    exact ⟨_, hstate, hn, hnone ▸ UInt32.zero_le⟩
  | request hstate hmore | wait hstate hmore =>
    obtain ⟨state, hstate', hn, -⟩ := hfilling
    cases hstate.symm.trans hstate'
    exact ⟨_, hstate, hn, hmore⟩
  | notice h =>
    obtain ⟨state, hstate, hn, hlt⟩ := hfilling
    cases h <;> exact ⟨state, hstate, hn, UInt32.le_of_lt hlt⟩
  | requested hstate =>
    obtain ⟨state, hstate', hn, hlt⟩ := hfilling
    cases hstate.symm.trans hstate'
    exact ⟨_, get?_changed hstate, hn, hlt⟩
  | part hstate _ hsize h =>
    obtain ⟨state, hstate', hn, -⟩ := hfilling
    cases hstate.symm.trans hstate'
    cases hn.symm.trans hsize
    exact ⟨_, get?_changed hstate, hn, h.downloaded⟩

theorem Backed.changed {piece : Handle} (h : Backed p) {f : PieceState → PieceState}
    (hf : ∀ state, p.pieces.get? piece = some state → (f state).data = [] → (f state).downloaded = 0) :
    Backed (p.changed piece f) := by
  intro x state hstate
  rw [PiecesToDownload.changed, StableList.get?_modify] at hstate
  split at hstate
  · rename_i hx
    obtain ⟨state₀, hstate₀, rfl⟩ := Option.map_eq_some_iff.mp hstate
    exact hf state₀ (hx ▸ hstate₀)
  · exact h x state hstate

/-- No piece is empty. -/
theorem getPieceSize_ne_zero (hvalid : p.geometry.Valid) {i n : UInt32} (hi : i < p.pieces_count)
    (hn : p.getPieceSize i = .ok n) : n ≠ 0 := by
  obtain ⟨n', hn', hlength⟩ := getPieceSize_eq hvalid hi
  cases hn.symm.trans hn'
  rintro rfl
  exact Nat.ne_of_gt ((p.geometry.chunking hvalid).length_pos (UInt32.lt_iff_toNat_lt.mp hi)) hlength.symm

theorem backed_step {others : List Handle} (hledger : Ledger p (s.held ++ others)) (hbuffered : Buffered p)
    (hvalid : p.geometry.Valid) (h : Took p s event p' s') (hbacked : Backed p) : Backed p' := by
  cases h with
  | exhausted h =>
    cases h
    exact hbacked
  | popped h =>
    cases h with
    | start =>
      intro x state hstate
      rw [started, StableList.get?_emplaceBack] at hstate
      split at hstate
      · cases hstate
        exact fun _ => rfl
      · exact hbacked x state hstate
    | retry => exact hbacked
  | lacks | requestFailed | readFailed => exact hbacked.changed (f := PieceState.reset) fun _ _ _ => rfl
  | requested => exact hbacked.changed fun state hstate => hbacked _ state hstate
  | @part _ _ _ _ _ _ m hstate _ hsize =>
    refine hbacked.changed ?_
    intro _ _ hempty
    have hi := hledger.index_lt (List.mem_append_left _ List.mem_cons_self) hstate
    have hlength := hbuffered.length_receive (m := m) hstate hsize
    rw [hempty] at hlength
    exact absurd (UInt32.toNat_inj.mp hlength.symm) (getPieceSize_ne_zero hvalid hi hsize)
  | deliver =>
    intro x state hstate
    rw [delivered, StableList.get?_erase] at hstate
    split at hstate
    · cases hstate
    · exact hbacked x state hstate
  | begin | request | wait | notice | haveSent | haveFailed => exact hbacked

end

theorem swarm_backed {g : Geometry} (hvalid : g.Valid) {w : World PiecesToDownload Session} (h : Reachable swarm g.pieces w) :
    Backed w.shared := by
  refine h.invariant (I := fun w => Backed w.shared) ?_ ?_
  · rintro piece state ⟨⟩
  · intro v v' hreach hv hstep
    cases hstep with
    | join => exact hv
    | act hact =>
      obtain ⟨event, hact⟩ := hact
      have hledger := (swarm_ledger hreach).perm (heldBy_perm _ _ _)
      exact backed_step hledger (swarm_buffered hreach) (swarm_geometry hreach ▸ hvalid) (step_ok hact) hv

/-! ### What fails an assertion -/

/-- The messages that the visit does not handle. -/
def Unhandled : AnyMessage → Prop
  | .keepAlive | .choke | .unchoke | .have_ _ | .piece _ => False
  | _ => True

/-- The message fails this assertion, and none before it, where a piece is downloaded that has `n` bytes; the sums of
    the assertions are taken in 32 bits. What passes them may still be copied past the piece, which is a fault. -/
inductive Offence (n : UInt32) (state : PieceState) : AnyMessage → Assertion → Prop where
  | unhandled {m} (h : Unhandled m) : Offence n state m .unhandledMessage
  | otherPiece {m : MessagePiece} (h : m.piece_index ≠ state.piece_index) : Offence n state (.piece m) .mixedOrderOfPieces
  | noData {m : MessagePiece} (hindex : m.piece_index = state.piece_index) (h : ¬m.size > 0) :
      Offence n state (.piece m) .pieceWithZeroSize
  | tooMuch {m : MessagePiece} (hindex : m.piece_index = state.piece_index) (hpos : m.size > 0)
      (h : ¬state.downloaded + m.size ≤ n) : Offence n state (.piece m) .downloadedMoreThanPiece
  | pastEnd {m : MessagePiece} (hindex : m.piece_index = state.piece_index) (hpos : m.size > 0)
      (hroom : state.downloaded + m.size ≤ n) (h : ¬m.piece_begin + m.size ≤ n) : Offence n state (.piece m) .partPastPiece
  | wrapped {m : MessagePiece} (hindex : m.piece_index = state.piece_index) (hfits : PartFits n m state)
      (h : ¬m.piece_begin.toNat + m.size.toNat ≤ n.toNat) : Offence n state (.piece m) .copyOutside

section
variable {p : PiecesToDownload} {s : Session} {event : Event} {piece : Handle} {state : PieceState} {n : UInt32} {b : Int}
  {a : Assertion}

theorem check_of_not {cond : Prop} [Decidable cond] (assertion : Assertion) (h : ¬cond) :
    check cond assertion = .error assertion := if_neg h

theorem Offence.receive {m : MessagePiece} (hbuffered : Buffered p) (hstate : p.pieces.get? piece = some state)
    (hn : p.getPieceSize state.piece_index = .ok n) (hindex : m.piece_index = state.piece_index)
    (h : Offence n state (.piece m) a) : p.onPiecePartReceive piece m = .error a := by
  rw [onPiecePartReceive, deref_ok.mpr hstate, ok_bind, hn, ok_bind]
  dsimp only
  cases h with
  | unhandled h => exact h.elim
  | otherPiece h => exact absurd hindex h
  | noData _ h =>
    rw [check_of_not _ h]
    rfl
  | tooMuch _ hpos h =>
    rw [check_of _ hpos, ok_bind, check_of_not _ h]
    rfl
  | pastEnd _ hpos hroom h =>
    rw [check_of _ hpos, ok_bind, check_of _ hroom, ok_bind, check_of_not _ h]
    rfl
  | wrapped _ hfits h =>
    have hcopy : ¬CopyFits n m state := mt (hbuffered.copyFits_iff hstate hn).mp h
    rw [check_of _ hfits.size_pos, ok_bind, check_of _ hfits.downloaded, ok_bind, check_of _ hfits.part, ok_bind,
      check_of_not _ hcopy]
    rfl

theorem Offence.visit {m : AnyMessage} (hbuffered : Buffered p) (hstate : p.pieces.get? piece = some state)
    (hn : p.getPieceSize state.piece_index = .ok n) (h : Offence n state m a) : s.visit p piece n b m = .error a := by
  cases m with
  | keepAlive | choke | unchoke | have_ =>
    obtain ⟨h⟩ := h
    exact h.elim
  | monostate | interested | notInterested | bitfield | request | cancel | unknown =>
    cases h
    rfl
  | piece m =>
    rw [Session.visit, deref_ok.mpr hstate, ok_bind]
    by_cases hindex : m.piece_index = state.piece_index
    · rw [check_of _ hindex, ok_bind, h.receive hbuffered hstate hn hindex]
      rfl
    · rw [check_of_not _ hindex]
      cases h with
      | unhandled h => exact h.elim
      | otherPiece => rfl
      | noData hindex' | tooMuch hindex' | pastEnd hindex' | wrapped hindex' => exact absurd hindex' hindex

/-- What is not acceptable is an offence. -/
theorem acceptable_or_offence (m : AnyMessage) (hstate : p.pieces.get? piece = some state)
    (hn : p.getPieceSize state.piece_index = .ok n) : Acceptable p piece m ∨ ∃ a, Offence n state m a := by
  cases m with
  | keepAlive | choke | unchoke | have_ => exact .inl trivial
  | monostate | interested | notInterested | bitfield | request | cancel | unknown => exact .inr ⟨_, .unhandled trivial⟩
  | piece m =>
    by_cases hindex : m.piece_index = state.piece_index
    · by_cases hpos : m.size > 0
      · by_cases hroom : state.downloaded + m.size ≤ n
        · by_cases hpart : m.piece_begin + m.size ≤ n
          · by_cases hstop : m.piece_begin.toNat + m.size.toNat ≤ n.toNat
            · exact .inl ⟨state, n, hstate, hn, hindex, ⟨hpos, hroom, hpart⟩, hstop⟩
            · exact .inr ⟨_, .wrapped hindex ⟨hpos, hroom, hpart⟩ hstop⟩
          · exact .inr ⟨_, .pastEnd hindex hpos hroom hpart⟩
        · exact .inr ⟨_, .tooMuch hindex hpos hroom⟩
      · exact .inr ⟨_, .noData hindex hpos⟩
    · exact .inr ⟨_, .otherPiece hindex⟩

theorem visit_error_iff {m : AnyMessage} (hbuffered : Buffered p) (hstate : p.pieces.get? piece = some state)
    (hn : p.getPieceSize state.piece_index = .ok n) : s.visit p piece n b m = .error a ↔ Offence n state m a := by
  constructor
  · intro herror
    rcases acceptable_or_offence m hstate hn with haccepted | ⟨a', h⟩
    · obtain ⟨r, hr⟩ := (visit_ok_iff (s := s) hbuffered (n := n) (b := b)).mpr haccepted
      cases herror.symm.trans hr
    · have hvisit : s.visit p piece n b m = .error a' := h.visit hbuffered hstate hn
      cases herror.symm.trans hvisit
      exact h
  · intro h
    exact h.visit hbuffered hstate hn

/-- A session of the download ends the program with a message that offends, and not otherwise. -/
theorem session_error_iff {others : List Handle} (hledger : Ledger p (s.held ++ others)) (hvalid : p.geometry.Valid)
    (hbuffered : Buffered p) (hfilling : Filling p s) : s.step p event = some (.error a) ↔ ∃ piece n b m state,
      s.coroutine = .readMessage piece n b ∧ event = .received m ∧ p.pieces.get? piece = some state ∧
        Offence n state m a := by
  constructor
  · intro h
    have habsurd : ∀ {r : Asserted (PiecesToDownload × Session)}, s.step p event = some r → (∃ r', r = .ok r') → False := by
      rintro r hr ⟨r', rfl⟩
      cases h.symm.trans hr
    obtain ⟨peer, coroutine⟩ := s
    cases coroutine with
    | pop =>
      cases event with
      | run => exact (habsurd rfl (runPop_total hledger)).elim
      | sent | received | failed => cases h
    | popped piece =>
      obtain ⟨state, hstate, -⟩ := hfilling
      cases event with
      | run =>
        have hi := hledger.index_lt (List.mem_append_left _ List.mem_cons_self) hstate
        exact (habsurd rfl (runPopped_total hvalid hstate hi)).elim
      | sent | received | failed => cases h
    | loop piece n b =>
      obtain ⟨state, hstate, -, hle⟩ := hfilling
      cases event with
      | run => exact (habsurd rfl (runLoop_total hstate hle)).elim
      | sent | received | failed => cases h
    | sendRequest piece n b request =>
      obtain ⟨state, hstate, -⟩ := hfilling
      cases event with
      | sent =>
        refine (habsurd rfl ?_).elim
        rw [Session.requestSent, deref_ok.mpr hstate]
        exact ⟨_, rfl⟩
      | failed => exact (habsurd rfl (failHolding_total hstate)).elim
      | run | received => cases h
    | readMessage piece n b =>
      obtain ⟨state, hstate, hn, -⟩ := hfilling
      cases event with
      | received m => exact ⟨piece, n, b, m, state, rfl, rfl, hstate, (visit_error_iff hbuffered hstate hn).mp (Option.some.inj h)⟩
      | failed => exact (habsurd rfl (failHolding_total hstate)).elim
      | run | sent => cases h
    | sendHave | returned => cases event <;> cases h
  · rintro ⟨piece, n, b, m, state, hcoroutine, rfl, hstate, h⟩
    obtain ⟨peer, coroutine⟩ := s
    obtain rfl : coroutine = .readMessage piece n b := hcoroutine
    obtain ⟨state', hstate', hn, -⟩ := hfilling
    cases hstate.symm.trans hstate'
    exact congrArg some (h.visit hbuffered hstate hn)

end

/-! ### The program -/

section
variable {Url : Type} {endian : Endian} {client : TorrentClient} {urls : UrlParser Url} {system : Win32}
  {start : Downloads} {w : World Downloads PeerDownload} {p' : PiecesToDownload} {x x' : PeerDownload} {event : NetEvent}

theorem program_filling (hstart : Downloads.initial client system = .ok start)
    (h : Rounds.Reachable (program endian client urls) start w) :
    ∀ x ∈ w.parties, ∀ s, x.session = some s → Filling w.shared.pieces s := by
  refine h.each (G := fun v => Kept start v) (L := fun d x => ∀ s, x.session = some s → Filling d.pieces s)
    (fun v hv => program_kept hstart hv) ?_ ?_
  · rintro d d' new ⟨-, response, -, hround⟩
    obtain ⟨addresses, -, -, rfl, rfl⟩ := Downloads.beginRound_ok hround
    refine List.forall_mem_map.mpr ?_
    rintro address - s ⟨⟩
  · rintro d before x after d' x' hkept hfilling ⟨event, hact⟩
    obtain ⟨p, disk, hstep, -, rfl⟩ := Downloads.step_ok hact
    have hadvanced := PeerDownload.step_ok hstep
    have hledger := ledger_split hkept.ledger
    refine ⟨?_, ?_⟩
    · intro s hs
      cases hadvanced with
      | stage h =>
        obtain ⟨peer, coroutine⟩ := s
        obtain rfl : coroutine = .pop := h.pop hs
        trivial
      | download hpoint hevent hstep hs' =>
        cases hs.symm.trans hs'
        rw [PeerDownload.held, PeerDownload.session, hpoint] at hledger
        refine filling_step hledger (step_ok hstep) (hfilling _ ?_)
        rw [PeerDownload.session, hpoint]
    · intro y hy hfilling s hs
      refine filling_congr hadvanced.geometry ?_ (hfilling s hs)
      intro piece hpiece
      refine hadvanced.frame hledger ?_
      refine List.mem_flatMap.mpr ⟨y, hy, ?_⟩
      rw [PeerDownload.held, hs]
      exact hpiece

theorem Advanced.ledger {p : PiecesToDownload} {others : List Handle} (h : Advanced client p x event p' x')
    (hledger : Ledger p (x.held ++ others)) : ∃ held, Ledger p' held := by
  cases h with
  | stage => exact ⟨_, hledger⟩
  | download hpoint _ hstep =>
    rw [PeerDownload.held, PeerDownload.session, hpoint] at hledger
    exact ⟨_, (step_ok hstep).ledger hledger⟩

/-- A piece that is delivered next has its size, as those before it have. -/
theorem program_delivers (hstart : Downloads.initial client system = .ok start) (hvalid : start.pieces.geometry.Valid)
    (h : Rounds.Reachable (program endian client urls) start w) (hx : x ∈ w.parties)
    (hadvanced : Advanced client w.shared.pieces x event p' x') : ∀ state ∈ p'.new_pieces,
      ∃ n, p'.getPieceSize state.piece_index = .ok n ∧ state.data.length = n.toNat := by
  have hkept := program_kept hstart h
  have hbefore : ∀ state ∈ w.shared.pieces.new_pieces, ∃ n, p'.getPieceSize state.piece_index = .ok n ∧
      state.data.length = n.toNat := by
    intro state hstate
    obtain ⟨n, hn, hlength⟩ := program_sized hstart h state hstate
    exact ⟨n, (getPieceSize_congr hadvanced.geometry _).trans hn, hlength⟩
  obtain ⟨all, -, hreach⟩ := program_swarm hstart h
  have hgeometry := hadvanced.geometry
  cases hadvanced with
  | stage => exact hbefore
  | @download coroutine _ _ _ _ hpoint _ hstep =>
    rcases (step_ok hstep).new_pieces with hsame | ⟨piece, n, b, state, hcoroutine, hstate, hfull, hnew⟩
    · rw [hsame]
      exact hbefore
    · rw [hnew]
      refine List.forall_mem_append.mpr ⟨hbefore, List.forall_mem_singleton.mpr ?_⟩
      obtain rfl : coroutine = .loop piece n b := hcoroutine
      have hs : x.session = some ⟨x.peer, .loop piece n b⟩ := by rw [PeerDownload.session, hpoint]
      obtain ⟨state', hstate', hn, -⟩ := program_filling hstart h x hx _ hs
      cases hstate.symm.trans hstate'
      refine ⟨n, (getPieceSize_congr hgeometry _).trans hn, ?_⟩
      rcases swarm_buffered hreach piece state hstate with hempty | ⟨n', hn', hlength⟩
      · obtain ⟨others, hledger⟩ := ledger_of_member hkept.ledger hx
        rw [PeerDownload.held, hs] at hledger
        have hi := hledger.index_lt (List.mem_append_left _ (List.mem_append_left _ List.mem_cons_self)) hstate
        have hnone := swarm_backed hvalid hreach piece state hstate hempty
        exact absurd (hfull.symm.trans hnone) (getPieceSize_ne_zero (hkept.geometry ▸ hvalid) hi hn)
      · cases hn.symm.trans hn'
        exact hlength

/-- The message that the connection reads makes an assertion fail, or is copied past the piece. -/
inductive Offends (p : PiecesToDownload) (x : PeerDownload) : NetEvent → Abort → Prop where
  | message {piece n b m state a} (hpoint : x.point = .download (.readMessage piece n b))
      (hstate : p.pieces.get? piece = some state) (h : Offence n state m a) : Offends p x (.message m) (.assertion a)

theorem connection_error_iff (hstart : Downloads.initial client system = .ok start) (hvalid : start.pieces.geometry.Valid)
    (h : Rounds.Reachable (program endian client urls) start w) (hx : x ∈ w.parties) {e : Abort} :
    x.step endian client w.shared.pieces event = some (.error e) ↔ Offends w.shared.pieces x event e := by
  have hkept := program_kept hstart h
  have hvalid' : w.shared.pieces.geometry.Valid := hkept.geometry ▸ hvalid
  obtain ⟨others, hledger⟩ := ledger_of_member hkept.ledger hx
  obtain ⟨all, -, hreach⟩ := program_swarm hstart h
  have hiff : ∀ coroutine event' a, x.point = .download coroutine →
      (Session.step w.shared.pieces ⟨x.peer, coroutine⟩ event' = some (.error a) ↔ ∃ piece n b m state,
        coroutine = .readMessage piece n b ∧ event' = .received m ∧ w.shared.pieces.pieces.get? piece = some state ∧
          Offence n state m a) := by
    intro coroutine event' a hpoint
    have hs : x.session = some ⟨x.peer, coroutine⟩ := by rw [PeerDownload.session, hpoint]
    rw [PeerDownload.held, hs] at hledger
    exact session_error_iff hledger hvalid' (swarm_buffered hreach) (program_filling hstart h x hx _ hs)
  rw [PeerDownload.step_error_iff]
  constructor
  · rintro ⟨coroutine, event', a, hpoint, hevent, hstep, rfl⟩
    obtain ⟨piece, n, b, m, state, rfl, rfl, hstate, hoffence⟩ := (hiff _ _ _ hpoint).mp hstep
    obtain rfl : event = .message m := by
      cases event <;> cases hevent
      rfl
    exact .message hpoint hstate hoffence
  · rintro ⟨hpoint, hstate, hoffence⟩
    exact ⟨_, _, _, hpoint, rfl, (hiff _ _ _ hpoint).mpr ⟨_, _, _, _, _, rfl, rfl, hstate, hoffence⟩, rfl⟩

/-- Whatever the peers do, only a message that offends ends the program while a connection goes on. -/
theorem program_aborts_iff (hstart : Downloads.initial client system = .ok start) (hvalid : start.pieces.geometry.Valid)
    (hwritable : WritableTorrent system client start.pieces.geometry)
    (h : Rounds.Reachable (program endian client urls) start w) (hx : x ∈ w.parties) (event : NetEvent) (e : Abort) :
    w.shared.step endian client x event = some (.error e) ↔ Offends w.shared.pieces x event e := by
  rw [← connection_error_iff hstart hvalid h hx]
  constructor
  · intro herror
    obtain ⟨r, hconnection, hr⟩ := Option.map_eq_some_iff.mp herror
    cases r with
    | error e' =>
      cases hr
      exact hconnection
    | ok r =>
      obtain ⟨p', x'⟩ := r
      obtain ⟨list, hlist, hp, -⟩ := initial_ok hstart
      have hkept := program_kept hstart h
      have hadvanced := PeerDownload.step_ok hconnection
      obtain ⟨others, hledger⟩ := ledger_of_member hkept.ledger hx
      obtain ⟨held, hledger'⟩ := hadvanced.ledger hledger
      -- The pieces that are delivered, with those before them, can be written.
      obtain ⟨disk, hafter⟩ := hwritable.writes hlist hp rfl hvalid hledger' (hadvanced.geometry.trans hkept.geometry)
        (program_delivers hstart hvalid h hx hadvanced)
      rw [← List.prefix_iff_eq_append.mp hadvanced.delivered_grows, writePieces_append, program_written hstart hlist h,
        ok_bind] at hafter
      dsimp only at hr
      rw [hafter] at hr
      cases hr
  · intro hconnection
    rw [Downloads.step, hconnection]
    rfl

end

/-- A connection of some run awaits a message. -/
theorem oneFile_awaits : ∃ (w : World Downloads PeerDownload) (x : PeerDownload),
    Rounds.Reachable (program .little oneFile twoUrls) oneStart w ∧ x ∈ w.parties ∧ ∃ piece n b state,
      x.point = .download (.readMessage piece n b) ∧ w.shared.pieces.pieces.get? piece = some state := by
  have hnone : Rounds.Reachable (honestProgram .little oneFile twoUrls twoByteContent) oneStart ⟨oneStart, []⟩ :=
    Relation.ReflTransGen.refl
  have hunfinished : oneStart.unfinished := (by decide : (0 : UInt32) < 1)
  obtain ⟨d₁, x₁, after, hp₁, hat, -, hrun₁⟩ :=
    round_can_begin twoUrls_lawful oneFile_usable hunfinished (List.forall_mem_nil _)
  have h₁ : Rounds.Reachable (honestProgram .little oneFile twoUrls twoByteContent) oneStart ⟨d₁, [] ++ x₁ :: after⟩ :=
    hnone.run hrun₁
  obtain ⟨d₂, x₂, bitfield, hp₂, hfull, hx₂, hrun₂⟩ := can_begin_download oneStart_initial rfl oneFile_writable h₁ hat
  have h₂ := h₁.run hrun₂
  obtain ⟨d₃, x₃, p₃, s₃, hpop, hp₃, hx₃, hrun₃⟩ := session_goes_on oneStart_initial rfl oneFile_writable h₂ hx₂
    NetEvent.event_run .run rfl
  have h₃ := h₂.run hrun₃
  rw [hp₂, hp₁] at hpop
  cases hpop
  obtain ⟨d₄, x₄, p₄, s₄, hpopped, hp₄, hx₄, hrun₄⟩ := session_goes_on oneStart_initial rfl oneFile_writable h₃ hx₃
    NetEvent.event_run .run rfl
  have h₄ := h₃.run hrun₄
  rw [hp₃] at hpopped
  cases step_ok hpopped with
  | lacks hstate hlacks =>
    cases hstate
    exact absurd ((hfull 0 (by decide)).symm.trans hlacks) Bool.noConfusion
  | begin hstate _ hn =>
    cases hstate
    cases hn
    obtain ⟨d₅, x₅, p₅, s₅, hloop, hp₅, hx₅, hrun₅⟩ := session_goes_on oneStart_initial rfl oneFile_writable h₄ hx₄
      NetEvent.event_run .run rfl
    rw [hp₄] at hloop
    cases hloop
    refine ⟨_, x₅.download, honest_program (h₄.run hrun₅), List.mem_map_of_mem List.mem_append_cons_self, 0, 2, 0, _, ?_,
      congrArg (fun p : PiecesToDownload => p.pieces.get? 0) hp₅⟩
    obtain ⟨s, hs, hsame⟩ := Option.map_eq_some_iff.mp hx₅
    obtain rfl := congrArg Conversation.session hsame
    exact (PeerDownload.session_some hs).1

/-- A peer that says it is interested ends the program. -/
theorem program_aborts_interested : ∃ (w : World Downloads PeerDownload) (x : PeerDownload), x ∈ w.parties ∧
    Rounds.Reachable (program .little oneFile twoUrls) oneStart w ∧
      w.shared.step .little oneFile x (.message .interested) = some (.error (.assertion .unhandledMessage)) := by
  obtain ⟨w, x, h, hx, piece, n, b, state, hpoint, hstate⟩ := oneFile_awaits
  refine ⟨w, x, hx, h, ?_⟩
  exact (program_aborts_iff oneStart_initial ⟨by decide, by decide⟩ oneFile_writable h hx _ _).mpr
    (.message hpoint hstate (.unhandled trivial))

end BittorrentClient
