import BittorrentClient.Theorems.Swarm.Buffers
import BittorrentClient.Theorems.Swarm.Honest

/-! What the bytes of any peer can do to the client. Every message that the visit does not handle or accept aborts it
    for all peers; what cannot be read ends one connection. -/

namespace BittorrentClient
open Interleaving Outcome PiecesToDownload Words

/-- A session with the bytes that its peer will have sent. -/
structure Streamed where
  session : Session
  stream : List UInt8

/-- What may happen to the session next, and the bytes that are left: while it awaits a message, one is read from the
    stream, or the socket fails. -/
inductive Arrives (endian : Endian) : Streamed → Event → List UInt8 → Prop where
  | received {peer piece n b stream m rest} (h : readAnyMessage endian stream = (.ok m, rest)) :
      Arrives endian ⟨⟨peer, .readMessage piece n b⟩, stream⟩ (.received m) rest
  | unreadable {peer piece n b stream e rest} (h : readAnyMessage endian stream = (.error e, rest)) :
      Arrives endian ⟨⟨peer, .readMessage piece n b⟩, stream⟩ .failed rest
  | run {x} : Arrives endian x .run x.stream
  | sent {x} : Arrives endian x .sent x.stream
  | failed {x} : Arrives endian x .failed x.stream

/-- Sessions with any peers, which may send any bytes. -/
def streamed (endian : Endian) : Rules PiecesToDownload Streamed where
  joins x := ∃ bitfield, x.session = Session.start bitfield
  acts p x p' x' := ∃ event, Arrives endian x event x'.stream ∧ x.session.step p event = some (.ok (p', x'.session))

theorem streamed_extends {endian : Endian} : Extends (streamed endian) Streamed.session where
  joins _ h := h
  acts := by
    rintro p x p' x' ⟨event, -, hstep⟩
    exact .inl ⟨event, hstep⟩

/-- The visit handles the message, and the piece accepts it: a part passes the checks, whose sums wrap, and lies inside
    the piece. -/
def Acceptable (p : PiecesToDownload) (piece : Handle) : AnyMessage → Prop
  | .keepAlive | .choke | .unchoke | .have_ _ => True
  | .piece m => ∃ state n, p.pieces.get? piece = some state ∧ p.getPieceSize state.piece_index = .ok n ∧
    m.piece_index = state.piece_index ∧ PartFits n m state ∧ m.piece_begin.toNat + m.size.toNat ≤ n.toNat
  | _ => False

/-- Whatever happens next to the session, no assertion fails; what it cannot read, handle or accept ends it, and puts
    the piece that it holds back. -/
def Survives (endian : Endian) (p : PiecesToDownload) (x : Streamed) : Prop :=
  ∀ event rest r, Arrives endian x event rest → x.session.step p event = some r → ∃ p' s', r = .ok (p', s') ∧
    ∀ piece n b, x.session.coroutine = .readMessage piece n b →
      (event = .failed ∨ ∃ m, event = .received m ∧ ¬Acceptable p piece m) → s'.coroutine = .returned ∧ p' = p.retried piece

/-- The next message that the session reads, if it can be read, is handled and accepted; a piece that its peer has
    has a size. -/
def NextAccepted (endian : Endian) (p : PiecesToDownload) (x : Streamed) : Prop :=
  match x.session.coroutine with
  | .popped piece => ∀ state, p.pieces.get? piece = some state →
    x.session.peer.bitfield.hasPiece state.piece_index.toNat = true → ∃ n, p.getPieceSize state.piece_index = .ok n
  | .readMessage piece _ _ => ∀ m rest, readAnyMessage endian x.stream = (.ok m, rest) → Acceptable p piece m
  | .pop | .loop _ _ _ | .sendRequest _ _ _ _ | .sendHave _ | .returned => True

/-- What a session knows of the piece that it holds. -/
def Sized (p : PiecesToDownload) (x : Streamed) : Prop :=
  match x.session.coroutine with
  | .popped piece => ∃ state, p.pieces.get? piece = some state ∧ state.downloaded = 0
  | .loop piece n _ | .sendRequest piece n _ _ | .readMessage piece n _ =>
    ∃ state, p.pieces.get? piece = some state ∧ p.getPieceSize state.piece_index = .ok n ∧ state.downloaded ≤ n
  | .pop | .sendHave _ | .returned => True

section
variable {endian : Endian} {p p' : PiecesToDownload} {s s' : Session} {event : Event} {stream stream' : List UInt8}

theorem sized_congr {x : Streamed} (hgeometry : p'.geometry = p.geometry)
    (hget : ∀ piece ∈ x.session.held, p'.pieces.get? piece = p.pieces.get? piece) (h : Sized p x) : Sized p' x := by
  obtain ⟨⟨peer, coroutine⟩, stream⟩ := x
  cases coroutine with
  | pop | sendHave | returned => trivial
  | popped piece =>
    obtain ⟨state, hstate, hrest⟩ := h
    exact ⟨state, (hget piece (List.mem_singleton_self _)).trans hstate, hrest⟩
  | loop piece | sendRequest piece | readMessage piece =>
    obtain ⟨state, hstate, hn, hle⟩ := h
    exact ⟨state, (hget piece (List.mem_singleton_self _)).trans hstate, (getPieceSize_congr hgeometry _).trans hn, hle⟩

/-- The count of a piece stays at most its size, as the assertion about the sum has it. -/
theorem sized_step {others : List Handle} (hledger : Ledger p (s.held ++ others)) (h : Took p s event p' s')
    (hsized : Sized p ⟨s, stream⟩) : Sized p' ⟨s', stream'⟩ := by
  cases h with
  | exhausted | lacks | deliver | haveSent | haveFailed | requestFailed | readFailed => trivial
  | popped h =>
    obtain ⟨state, hstate, hfresh⟩ := hledger.popped h
    exact ⟨state, hstate, by rw [hfresh]⟩
  | begin hstate _ hn =>
    obtain ⟨state, hstate', hdownloaded⟩ := hsized
    cases hstate.symm.trans hstate'
    exact ⟨_, hstate, hn, hdownloaded ▸ UInt32.zero_le⟩
  | request | wait => exact hsized
  | notice h => cases h <;> exact hsized
  | requested =>
    obtain ⟨state, hstate, hn, hle⟩ := hsized
    exact ⟨_, get?_changed hstate, hn, hle⟩
  | part hstate _ hsize h =>
    obtain ⟨state, hstate', hn, -⟩ := hsized
    cases hstate.symm.trans hstate'
    cases hn.symm.trans hsize
    exact ⟨_, get?_changed hstate, hn, h.downloaded⟩

/-- A message that is not acceptable aborts the client, and no other does. -/
theorem visit_ok_iff (hbuffered : Buffered p) {piece : Handle} {n : UInt32} {b : Int} {m : AnyMessage} :
    (∃ r, s.visit p piece n b m = .ok r) ↔ Acceptable p piece m := by
  constructor
  · rintro ⟨r, hr⟩
    cases m with
    | keepAlive | choke | unchoke | have_ => trivial
    | piece m =>
      obtain ⟨state, hstate, hr⟩ := bind_ok hr
      obtain ⟨_, hindex, hr⟩ := bind_ok hr
      obtain ⟨q, hreceive, hr⟩ := bind_ok hr
      obtain ⟨state', n', hstate', hn', hfits, hcopy, -⟩ := onPiecePartReceive_ok.mp hreceive
      cases (deref_ok.mp hstate).symm.trans hstate'
      exact ⟨state, n', hstate', hn', check_ok hindex, hfits, (hbuffered.copyFits_iff hstate' hn').mp hcopy⟩
    | monostate | interested | notInterested | bitfield | request | cancel | unknown => cases hr
  · intro h
    cases m with
    | keepAlive | choke | unchoke | have_ => exact ⟨_, rfl⟩
    | piece m =>
      obtain ⟨state, n', hstate, hn', hindex, hfits, hstop⟩ := h
      exact visit_part_total hstate hn' hindex hfits ((hbuffered.copyFits_iff hstate hn').mpr hstop)
    | monostate | interested | notInterested | bitfield | request | cancel | unknown => exact h.elim

theorem runPopped_ok_iff {piece : Handle} {state : PieceState} (hstate : p.pieces.get? piece = some state) :
    (∃ r, s.runPopped p piece = .ok r) ↔
      (s.peer.bitfield.hasPiece state.piece_index.toNat = true → ∃ n, p.getPieceSize state.piece_index = .ok n) := by
  rw [Session.runPopped, deref_ok.mpr hstate, ok_bind]
  cases s.peer.bitfield.hasPiece state.piece_index.toNat with
  | false =>
    refine ⟨fun _ h => absurd h (by decide), fun _ => ?_⟩
    rw [pushPieceToRetry_ok.mpr ⟨⟨state, hstate⟩, rfl⟩]
    exact ⟨_, rfl⟩
  | true =>
    constructor
    · rintro ⟨r, hr⟩ -
      obtain ⟨n, hn, -⟩ := bind_ok hr
      exact ⟨n, hn⟩
    · intro h
      obtain ⟨n, hn⟩ := h rfl
      rw [hn]
      exact ⟨_, rfl⟩

theorem survives_of_ok {x : Streamed} (h : ∀ event rest r, Arrives endian x event rest → x.session.step p event = some r →
      ∃ r', r = .ok r') (hread : ∀ piece n b, x.session.coroutine ≠ .readMessage piece n b) : Survives endian p x := by
  intro event rest r harrives hstep
  obtain ⟨⟨p', s'⟩, rfl⟩ := h event rest r harrives hstep
  exact ⟨p', s', rfl, fun piece n b hcoroutine => absurd hcoroutine (hread piece n b)⟩

/-- A session that awaits a message survives where the one that it reads is handled and accepted. -/
theorem survives_readMessage_iff (hbuffered : Buffered p) {peer : TorrentPeer} {piece : Handle} {n : UInt32} {b : Int} {state : PieceState}
    (hstate : p.pieces.get? piece = some state) : Survives endian p ⟨⟨peer, .readMessage piece n b⟩, stream⟩ ↔
      ∀ m rest, readAnyMessage endian stream = (.ok m, rest) → Acceptable p piece m := by
  constructor
  · intro h m rest hread
    obtain ⟨p', s', hok, -⟩ := h _ _ _ (.received hread) rfl
    exact (visit_ok_iff hbuffered).mp ⟨_, hok⟩
  · intro h event rest r harrives hstep
    cases event with
    | received m =>
      cases hstep
      cases harrives with
      | received hread =>
        have haccepted := h m rest hread
        obtain ⟨⟨p', s'⟩, hok⟩ := (visit_ok_iff hbuffered).mpr haccepted
        refine ⟨p', s', hok, ?_⟩
        rintro piece' n' b' hcoroutine (hfailed | ⟨m', hm', hnot⟩)
        · cases hfailed
        · cases hcoroutine
          cases hm'
          exact absurd haccepted hnot
    | failed =>
      cases hstep
      obtain ⟨⟨p', s'⟩, hok⟩ := failHolding_total hstate
      obtain ⟨-, rfl, rfl⟩ := failHolding_ok hok
      refine ⟨_, _, hok, ?_⟩
      rintro piece' n' b' hcoroutine -
      cases hcoroutine
      exact ⟨rfl, rfl⟩
    | run | sent => cases hstep

/-- A session survives what happens next exactly when the next message that it can read is handled and accepted. -/
theorem survives_iff {x : Streamed} {others : List Handle} (hledger : Ledger p (x.session.held ++ others))
    (hbuffered : Buffered p) (hsized : Sized p x) : Survives endian p x ↔ NextAccepted endian p x := by
  obtain ⟨⟨peer, coroutine⟩, stream⟩ := x
  cases coroutine with
  | pop =>
    refine iff_of_true (survives_of_ok ?_ (by simp)) trivial
    intro event rest r _ hstep
    cases event with
    | run =>
      cases hstep
      exact runPop_total hledger
    | sent | received | failed => cases hstep
  | popped piece =>
    obtain ⟨state, hstate, -⟩ := hsized
    constructor
    · intro h state' hstate' hhas
      cases hstate.symm.trans hstate'
      obtain ⟨p', s', hok, -⟩ := h .run _ _ .run rfl
      exact (runPopped_ok_iff hstate).mp ⟨_, hok⟩ hhas
    · intro h
      refine survives_of_ok ?_ (by simp)
      intro event rest r _ hstep
      cases event with
      | run =>
        cases hstep
        exact (runPopped_ok_iff hstate).mpr (h state hstate)
      | sent | received | failed => cases hstep
  | loop piece n b =>
    obtain ⟨state, hstate, -, hle⟩ := hsized
    refine iff_of_true (survives_of_ok ?_ (by simp)) trivial
    intro event rest r _ hstep
    cases event with
    | run =>
      cases hstep
      exact runLoop_total hstate hle
    | sent | received | failed => cases hstep
  | sendRequest piece n b request =>
    obtain ⟨state, hstate, -⟩ := hsized
    refine iff_of_true (survives_of_ok ?_ (by simp)) trivial
    intro event rest r _ hstep
    cases event with
    | sent =>
      cases hstep
      rw [Session.requestSent, deref_ok.mpr hstate]
      exact ⟨_, rfl⟩
    | failed =>
      cases hstep
      exact failHolding_total hstate
    | run | received => cases hstep
  | readMessage piece n b =>
    obtain ⟨state, hstate, -⟩ := hsized
    exact survives_readMessage_iff hbuffered hstate
  | sendHave m =>
    refine iff_of_true (survives_of_ok ?_ (by simp)) trivial
    intro event rest r _ hstep
    cases event with
    | sent | failed =>
      cases hstep
      exact ⟨_, rfl⟩
    | run | received => cases hstep
  | returned =>
    refine iff_of_true (survives_of_ok ?_ (by simp)) trivial
    intro event rest r _ hstep
    cases event <;> cases hstep

end

/-- In every reachable state, with any number of peers that send any bytes, the sessions survive what happens next
    exactly when every message that is read next is handled and accepted. -/
theorem streamed_survives_iff {endian : Endian} {g : Geometry} {w : World PiecesToDownload Streamed}
    (h : Reachable (streamed endian) g.pieces w) :
    (∀ x ∈ w.parties, Survives endian w.shared x) ↔ ∀ x ∈ w.parties, NextAccepted endian w.shared x := by
  have hsized : True ∧ ∀ x ∈ w.parties, Sized w.shared x := by
    refine streamed_extends.each (I := fun _ => True) h trivial ?_ ?_ fun p p' x => sized_congr
    · rintro p ⟨s, stream⟩ ⟨bitfield, rfl⟩
      trivial
    · rintro p ⟨s, stream⟩ p' ⟨s', stream'⟩ others hledger - - hsized ⟨event, -, hstep⟩
      exact ⟨trivial, sized_step hledger (step_ok hstep) hsized⟩
  have hiff : ∀ x ∈ w.parties, Survives endian w.shared x ↔ NextAccepted endian w.shared x := by
    intro x hx
    obtain ⟨before, after, hsplit⟩ := List.append_of_mem hx
    have hreach := streamed_extends.reachable h
    have hledger := swarm_ledger hreach
    simp only [hsplit, List.map_append, List.map_cons] at hledger
    exact survives_iff (hledger.perm (heldBy_perm _ _ _)) (swarm_buffered hreach) (hsized.2 x hx)
  exact forall₂_congr hiff

theorem streamed_waiting_reachable (endian : Endian) (stream : List UInt8) :
    Reachable (streamed endian) (Geometry.pieces ⟨1, 2, 2⟩) ⟨(Geometry.pieces ⟨1, 2, 2⟩).started, [⟨waiting, stream⟩]⟩ := by
  have hpop : (Session.start ⟨[5, 0x80]⟩).step (Geometry.pieces ⟨1, 2, 2⟩) .run =
      some (.ok ((Geometry.pieces ⟨1, 2, 2⟩).started, ⟨{ bitfield := ⟨[5, 0x80]⟩ }, .popped 0⟩)) := rfl
  have hpopped : Session.step (Geometry.pieces ⟨1, 2, 2⟩).started ⟨{ bitfield := ⟨[5, 0x80]⟩ }, .popped 0⟩ .run =
      some (.ok ((Geometry.pieces ⟨1, 2, 2⟩).started, ⟨{ bitfield := ⟨[5, 0x80]⟩ }, .loop 0 2 0⟩)) := rfl
  have hloop : Session.step (Geometry.pieces ⟨1, 2, 2⟩).started ⟨{ bitfield := ⟨[5, 0x80]⟩ }, .loop 0 2 0⟩ .run =
      some (.ok ((Geometry.pieces ⟨1, 2, 2⟩).started, waiting)) := rfl
  have hjoin : Reachable (streamed endian) (Geometry.pieces ⟨1, 2, 2⟩) ⟨_, [⟨.start ⟨[5, 0x80]⟩, stream⟩]⟩ :=
    .join ⟨_, rfl⟩
  have htaken : Reachable (streamed endian) (Geometry.pieces ⟨1, 2, 2⟩)
      ⟨_, [⟨⟨{ bitfield := ⟨[5, 0x80]⟩ }, .popped 0⟩, stream⟩]⟩ := hjoin.act ⟨.run, .run, hpop⟩
  have hbegun : Reachable (streamed endian) (Geometry.pieces ⟨1, 2, 2⟩)
      ⟨_, [⟨⟨{ bitfield := ⟨[5, 0x80]⟩ }, .loop 0 2 0⟩, stream⟩]⟩ := htaken.act ⟨.run, .run, hpopped⟩
  exact hbegun.act ⟨.run, .run, hloop⟩

/-- A peer whose stream ends in the middle of a message ends its own session. -/
theorem streamed_survives_cut :
    Survives .little (Geometry.pieces ⟨1, 2, 2⟩).started ⟨waiting, [0, 0, 0, 5, 4, 0]⟩ := by
  refine (streamed_survives_iff (streamed_waiting_reachable .little [0, 0, 0, 5, 4, 0])).mpr ?_ _
    (List.mem_singleton_self _)
  refine List.forall_mem_singleton.mpr ?_
  intro m rest hread
  exact nomatch hread

/-- An Interested message, which a peer may send at any time. -/
theorem not_survives_interested : ∃ w, Reachable (streamed .little) (Geometry.pieces ⟨1, 2, 2⟩) w ∧
    ∃ x ∈ w.parties, x.stream = [0, 0, 0, 1, PeerMessageId.interested] ∧ ¬Survives .little w.shared x := by
  refine ⟨_, streamed_waiting_reachable .little [0, 0, 0, 1, PeerMessageId.interested], _, List.mem_singleton_self _, rfl, ?_⟩
  intro h
  have hread : readAnyMessage .little [0, 0, 0, 1, PeerMessageId.interested] = (.ok .interested, []) := by decide
  obtain ⟨p', s', hok, -⟩ := h _ _ _ (.received hread) rfl
  cases hok

end BittorrentClient
