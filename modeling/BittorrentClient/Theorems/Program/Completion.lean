import BittorrentClient.Theorems.Frames
import BittorrentClient.Theorems.Program.Honest
import BittorrentClient.Theorems.Swarm.Passes
import BittorrentClient.Theorems.Tracker.Peers
import BittorrentClient.Theorems.Tracker.Requests

/-! No run with honest peers is a dead end. Whatever happened before, the connections of the round can end, and a round
    in which one peer has every piece and answers completes the download. -/

namespace BittorrentClient
open Blocks Interleaving Outcome PiecesToDownload Words

section
variable {Url : Type} {endian : Endian} {client : TorrentClient} {urls : UrlParser Url} {system : Win32} {g : Geometry}
  {c : TorrentContent g} {start d : Downloads} {x : HonestDownload} {before after : List HonestDownload}
  {event : NetEvent} {out sent : List MessageRequest}

/-! ### Single steps -/

theorem PeerDownload.step_eq (x : PeerDownload) (p : PiecesToDownload) (event : NetEvent) : ∃ written,
    x.step endian client p event = PeerDownload.resume client p { x with written := x.written ++ written } event := by
  obtain ⟨written, hwrite⟩ := @PeerDownload.write_total endian client x event
  exact ⟨written, by rw [PeerDownload.step, hwrite]⟩

theorem PeerDownload.step_of_session {x : PeerDownload} {p : PiecesToDownload} {s : Session} {e : Event}
    {r : Asserted (PiecesToDownload × Session)} (hs : x.session = some s) (he : event.event = some e)
    (hstep : s.step p e = some r) : ∃ r', x.step endian client p event = some r' ∧
      ∀ p' y, r' = .ok (p', y) → ∃ s', r = .ok (p', s') ∧ y.session = some s' := by
  obtain ⟨written, hwritten⟩ := @PeerDownload.step_eq endian client x p event
  obtain ⟨address, peerId, extensions, peer, point, earlier⟩ := x
  cases point with
  | download coroutine =>
    cases hs
    have hresume : PeerDownload.resume client p
        ⟨address, peerId, extensions, peer, .download coroutine, earlier ++ written⟩ event =
          event.event.bind (PeerDownload.downloadStep p
            ⟨address, peerId, extensions, peer, .download coroutine, earlier ++ written⟩ coroutine) := by
      cases event <;> rfl
    rw [hwritten, hresume, he, Option.bind_some, PeerDownload.downloadStep, hstep, Option.map_some]
    refine ⟨_, rfl, ?_⟩
    intro p' y hr
    cases r with
    | error e => cases hr
    | ok a =>
      cases hr
      exact ⟨_, rfl, rfl⟩
  | connect | writeHandshake | readHandshake | readBitfield | sendUnchoke | sendInterested | returned => cases hs

variable (hstart : Downloads.initial client system = .ok start) (hg : start.pieces.geometry = g)
  (hwritable : WritableTorrent system client g)
include hstart hg hwritable

/-- What an honest peer lets happen happens, and the program goes on. -/
theorem honest_goes_on
    (h : Rounds.Reachable (honestProgram endian client urls c) start ⟨d, before ++ x :: after⟩)
    (hpermits : x.Permits c event out) (hsome : (x.download.step endian client d.pieces event).isSome) :
    ∃ d' y, Advanced client d.pieces x.download event d'.pieces y ∧
      x.download.step endian client d.pieces event = some (.ok (d'.pieces, y)) ∧
      Rounds.Run (honestProgram endian client urls c) ⟨d, before ++ x :: after⟩ ⟨d', before ++ x.after y out :: after⟩ := by
  have hmem : x ∈ before ++ x :: after := List.mem_append_cons_self
  obtain ⟨r, hstep⟩ : ∃ r, d.step endian client x.download event = some r := by
    obtain ⟨r, hr⟩ := Option.isSome_iff_exists.mp hsome
    exact ⟨_, Option.map_eq_some_iff.mpr ⟨r, hr, rfl⟩⟩
  obtain ⟨⟨d', y⟩, rfl⟩ := honest_steps_total hstart hg hwritable h hmem hpermits hstep
  obtain ⟨p, disk, hconnection, -, hd'⟩ := Downloads.step_ok hstep
  have hpieces : d'.pieces = p := by rw [hd']
  refine ⟨d', y, hpieces ▸ PeerDownload.step_ok hconnection, hpieces ▸ hconnection, Relation.ReflTransGen.single (.act ?_)⟩
  refine ⟨event, out, hpermits, ?_, ?_⟩
  · rw [HonestDownload.after_download]
    exact hstep
  · rw [HonestDownload.after_download]

/-- A step before the download. -/
theorem stage_goes_on
    (h : Rounds.Reachable (honestProgram endian client urls c) start ⟨d, before ++ x :: after⟩)
    (hnone : x.download.session = none) (hsome : (x.download.step endian client d.pieces event).isSome) :
    ∃ d' y, d'.pieces = d.pieces ∧ Stage client x.download.point x.download.peer event y.point y.peer ∧
      Rounds.Run (honestProgram endian client urls c) ⟨d, before ++ x :: after⟩
        ⟨d', before ++ x.after y x.unanswered :: after⟩ := by
  have hpermits : x.Permits c event x.unanswered := by rw [HonestDownload.Permits, hnone]
  obtain ⟨d', y, hadvanced, -, hrun⟩ := honest_goes_on hstart hg hwritable h hpermits hsome
  generalize hp : d'.pieces = p at hadvanced
  cases hadvanced with
  | stage hstage => exact ⟨d', y, hp, hstage, hrun⟩
  | download hpoint =>
    rw [PeerDownload.session, hpoint] at hnone
    cases hnone

/-- A step of the download. -/
theorem session_goes_on
    (h : Rounds.Reachable (honestProgram endian client urls c) start ⟨d, before ++ x :: after⟩) {q : Conversation} {e : Event}
    (hq : x.conversation = some q) (he : event.event = some e) (hpermitted : Permitted c q.unanswered e out)
    (hsome : (q.session.step d.pieces e).isSome) :
    ∃ d' x' p' s', q.session.step d.pieces e = some (.ok (p', s')) ∧ d'.pieces = p' ∧
      x'.conversation = some ⟨s', s'.coroutine.sent q.sent, s'.coroutine.unanswered out⟩ ∧
      Rounds.Run (honestProgram endian client urls c) ⟨d, before ++ x :: after⟩ ⟨d', before ++ x' :: after⟩ := by
  obtain ⟨s, hs, rfl⟩ := Option.map_eq_some_iff.mp hq
  have hpermits : x.Permits c event out := by
    rw [HonestDownload.Permits, hs]
    exact ⟨e, he, hpermitted⟩
  obtain ⟨r, hr⟩ := Option.isSome_iff_exists.mp hsome
  obtain ⟨r', hr', hok⟩ := @PeerDownload.step_of_session endian client event x.download d.pieces s e r hs he hr
  obtain ⟨d', y, -, hstep, hrun⟩ := honest_goes_on hstart hg hwritable h hpermits (Option.isSome_of_eq_some hr')
  obtain ⟨s', rfl, hs'⟩ := hok _ _ (Option.some.inj (hr'.symm.trans hstep))
  refine ⟨d', x.after y out, _, s', hr, rfl, ?_, hrun⟩
  rw [HonestDownload.after_some hs', HonestDownload.conversation, hs']
  rfl

omit hstart hg hwritable

/-! ### Every connection can end -/

/-- The connection between the others can end, while they wait. -/
def CanEnd {Url : Type} (endian : Endian) (client : TorrentClient) (urls : UrlParser Url) {g : Geometry}
    (c : TorrentContent g) (before after : List HonestDownload) (d : Downloads) (x : HonestDownload) : Prop :=
  ∃ d' x', x'.download.finished ∧
    Rounds.Run (honestProgram endian client urls c) ⟨d, before ++ x :: after⟩ ⟨d', before ++ x' :: after⟩

theorem CanEnd.of_run {d' : Downloads} {x' : HonestDownload}
    (hrun : Rounds.Run (honestProgram endian client urls c) ⟨d, before ++ x :: after⟩ ⟨d', before ++ x' :: after⟩)
    (h : CanEnd endian client urls c before after d' x') : CanEnd endian client urls c before after d x := by
  obtain ⟨d'', x'', hfinished, hrest⟩ := h
  exact ⟨d'', x'', hfinished, hrun.trans hrest⟩

theorem finished_of_returned {peer : TorrentPeer} (h : x.conversation = some ⟨⟨peer, .returned⟩, sent, out⟩) :
    x.download.finished := by
  obtain ⟨s, hs, heq⟩ := Option.map_eq_some_iff.mp h
  cases heq
  rw [PeerDownload.session] at hs
  split at hs
  · rename_i coroutine hpoint
    cases hs
    exact .inr hpoint
  · cases hs

include hstart hg hwritable

/-- What is awaited may fail, and the connection ends. -/
theorem awaits_canEnd {s : Session}
    (h : Rounds.Reachable (honestProgram endian client urls c) start ⟨d, before ++ x :: after⟩)
    (hx : x.conversation = some ⟨s, sent, out⟩) (hawaits : s.Awaits) : CanEnd endian client urls c before after d x := by
  obtain ⟨peer, coroutine⟩ := s
  have hsome : (Session.step d.pieces ⟨peer, coroutine⟩ .failed).isSome := by
    cases coroutine with
    | sendRequest | readMessage | sendHave => rfl
    | pop | popped | loop | returned => cases hawaits
  obtain ⟨d', x', p', s', hstep, -, hx', hrun⟩ := session_goes_on hstart hg hwritable h hx (NetEvent.event_failed 0) .failed
    hsome
  refine ⟨d', x', ?_, hrun⟩
  cases step_ok hstep <;> exact finished_of_returned hx'

theorem loop_canEnd {peer : TorrentPeer} {piece : Handle} {n : UInt32} {b : Int}
    (h : Rounds.Reachable (honestProgram endian client urls c) start ⟨d, before ++ x :: after⟩)
    (hx : x.conversation = some ⟨⟨peer, .loop piece n b⟩, sent, out⟩) :
    CanEnd endian client urls c before after d x := by
  obtain ⟨d', x', p', s', hstep, -, hx', hrun⟩ := session_goes_on hstart hg hwritable h hx NetEvent.event_run .run rfl
  refine CanEnd.of_run hrun (awaits_canEnd hstart hg hwritable (h.run hrun) hx' ?_)
  cases step_ok hstep <;> trivial

/-- The passes over pieces that the peer does not have come to an end. -/
theorem pop_canEnd {peer : TorrentPeer}
    (h : Rounds.Reachable (honestProgram endian client urls c) start ⟨d, before ++ x :: after⟩)
    (hx : x.conversation = some ⟨⟨peer, .pop⟩, sent, out⟩) : CanEnd endian client urls c before after d x := by
  induction hn : unstarted d.pieces using Nat.strong_induction_on generalizing d x sent out with
  | h n ih =>
    obtain ⟨d₁, x₁, p₁, s₁, hpop, hp₁, hx₁, hrun₁⟩ := session_goes_on hstart hg hwritable h hx NetEvent.event_run .run rfl
    have hreach₁ := h.run hrun₁
    refine CanEnd.of_run hrun₁ ?_
    cases step_ok hpop with
    | exhausted => exact ⟨d₁, x₁, finished_of_returned hx₁, Relation.ReflTransGen.refl⟩
    | @popped _ piece _ _ =>
      subst hp₁
      obtain ⟨d₂, x₂, p₂, s₂, hpopped, hp₂, hx₂, hrun₂⟩ := session_goes_on hstart hg hwritable hreach₁ hx₁ NetEvent.event_run
        .run rfl
      refine CanEnd.of_run hrun₂ ?_
      cases step_ok hpopped with
      | lacks =>
        have hagain : Continues peer d.pieces d₂.pieces := ⟨piece, d₁.pieces, hpop, hp₂ ▸ hpopped⟩
        exact ih _ (hn ▸ hagain.unstarted_lt) (hreach₁.run hrun₂) hx₂ rfl
      | begin => exact loop_canEnd hstart hg hwritable (hreach₁.run hrun₂) hx₂

theorem conversation_canEnd {s : Session}
    (h : Rounds.Reachable (honestProgram endian client urls c) start ⟨d, before ++ x :: after⟩)
    (hx : x.conversation = some ⟨s, sent, out⟩) : CanEnd endian client urls c before after d x := by
  obtain ⟨peer, coroutine⟩ := s
  cases coroutine with
  | pop => exact pop_canEnd hstart hg hwritable h hx
  | popped piece =>
    obtain ⟨d', x', p', s', hstep, -, hx', hrun⟩ := session_goes_on hstart hg hwritable h hx NetEvent.event_run .run rfl
    refine CanEnd.of_run hrun ?_
    cases step_ok hstep with
    | lacks => exact pop_canEnd hstart hg hwritable (h.run hrun) hx'
    | begin => exact loop_canEnd hstart hg hwritable (h.run hrun) hx'
  | loop => exact loop_canEnd hstart hg hwritable h hx
  | sendRequest | readMessage | sendHave => exact awaits_canEnd hstart hg hwritable h hx trivial
  | returned => exact ⟨d, x, finished_of_returned hx, Relation.ReflTransGen.refl⟩

omit hstart hg hwritable

/-! ### Before the download -/

theorem Stage.unique {point point₁ point₂ : Point} {peer peer₁ peer₂ : TorrentPeer}
    (h₁ : Stage client point peer event point₁ peer₁) (h₂ : Stage client point peer event point₂ peer₂) :
    point₁ = point₂ ∧ peer₁ = peer₂ := by
  cases h₁ with
  | accepted h =>
    cases h₂ with
    | accepted => exact ⟨rfl, rfl⟩
    | refused h' => cases h.symm.trans h'
  | refused h =>
    cases h₂ with
    | accepted h' => cases h.symm.trans h'
    | refused => exact ⟨rfl, rfl⟩
  | bitfield =>
    cases h₂ with
    | bitfield => exact ⟨rfl, rfl⟩
    | other h => exact absurd rfl (h _)
  | other h =>
    cases h₂ with
    | bitfield => exact absurd rfl (h _)
    | other => exact ⟨rfl, rfl⟩
  | connected | handshakeSent | unchokeSent | interestedSent | failed =>
    cases h₂
    exact ⟨rfl, rfl⟩

theorem Stage.isSome {x : PeerDownload} {p : PiecesToDownload} {point : Point} {peer : TorrentPeer}
    (h : Stage client x.point x.peer event point peer) : (x.step endian client p event).isSome := by
  obtain ⟨written, hwritten⟩ := @PeerDownload.step_eq endian client x p event
  rw [hwritten]
  obtain ⟨address, peerId, extensions, before, at_, earlier⟩ := x
  cases h with
  | failed hdownload hreturned =>
    cases at_ with
    | download coroutine => exact absurd rfl (hdownload coroutine)
    | returned => exact absurd rfl hreturned
    | connect | writeHandshake | readHandshake | readBitfield | sendUnchoke | sendInterested => rfl
  | _ => rfl

/-- Where a connection is that has asked for nothing. -/
structure HonestDownload.At (x : HonestDownload) (point : Point) (peer : TorrentPeer) : Prop where
  point : x.download.point = point
  peer : x.download.peer = peer
  sent : x.sent = []
  unanswered : x.unanswered = []

include hstart hg hwritable

theorem stage_at {point point' : Point} {peer peer' : TorrentPeer}
    (h : Rounds.Reachable (honestProgram endian client urls c) start ⟨d, before ++ x :: after⟩) (hat : x.At point peer)
    (hstage : Stage client point peer event point' peer') : ∃ d' x', d'.pieces = d.pieces ∧ x'.At point' peer' ∧
      Rounds.Run (honestProgram endian client urls c) ⟨d, before ++ x :: after⟩ ⟨d', before ++ x' :: after⟩ := by
  obtain ⟨rfl, rfl, hsent, hunanswered⟩ := hat
  obtain ⟨d', y, hpieces, hstage', hrun⟩ := stage_goes_on hstart hg hwritable h hstage.session_none hstage.isSome
  obtain ⟨rfl, rfl⟩ := hstage.unique hstage'
  refine ⟨d', x.after y x.unanswered, hpieces, ?_, hrun⟩
  have hdownload : (x.after y x.unanswered).download = y := HonestDownload.after_download y
  have hasked : (x.after y x.unanswered).sent = x.sent ∧ (x.after y x.unanswered).unanswered = x.unanswered := by
    cases hs : y.session with
    | none =>
      rw [HonestDownload.after_none hs]
      exact ⟨rfl, rfl⟩
    | some s =>
      rw [HonestDownload.after_some hs, hstage.pop hs]
      exact ⟨rfl, rfl⟩
  exact ⟨by rw [hdownload], by rw [hdownload], hasked.1.trans hsent, hasked.2.trans hunanswered⟩

/-- Every connection can end. -/
theorem party_canEnd (h : Rounds.Reachable (honestProgram endian client urls c) start ⟨d, before ++ x :: after⟩) :
    CanEnd endian client urls c before after d x := by
  cases hs : x.download.session with
  | some s => exact conversation_canEnd hstart hg hwritable h (by rw [HonestDownload.conversation, hs]; rfl)
  | none =>
    by_cases hreturned : x.download.point = .returned
    · exact ⟨d, x, .inl hreturned, Relation.ReflTransGen.refl⟩
    · have hdownload : ∀ coroutine, x.download.point ≠ .download coroutine := by
        intro coroutine hpoint
        rw [PeerDownload.session, hpoint] at hs
        cases hs
      have hfailed : Stage client x.download.point x.download.peer (.failed 0) .returned x.download.peer :=
        .failed hdownload hreturned
      obtain ⟨d', y, -, hstage, hrun⟩ := stage_goes_on hstart hg hwritable h hs hfailed.isSome
      refine ⟨d', _, .inl ?_, hrun⟩
      rw [HonestDownload.after_download]
      exact (hstage.unique hfailed).1

/-- Every round can end. -/
theorem drained {done rest : List HonestDownload}
    (h : Rounds.Reachable (honestProgram endian client urls c) start ⟨d, done ++ rest⟩)
    (hdone : ∀ x ∈ done, x.download.finished) : ∃ d' parties, (∀ x ∈ parties, x.download.finished) ∧
      Rounds.Run (honestProgram endian client urls c) ⟨d, done ++ rest⟩ ⟨d', parties⟩ := by
  induction rest generalizing d done with
  | nil =>
    rw [List.append_nil] at h ⊢
    exact ⟨d, done, hdone, Relation.ReflTransGen.refl⟩
  | cons x rest ih =>
    obtain ⟨d₁, x₁, hfinished, hrun₁⟩ := party_canEnd hstart hg hwritable h
    have hreach₁ := h.run hrun₁
    have hassoc : done ++ x₁ :: rest = done ++ [x₁] ++ rest := List.append_cons ..
    rw [hassoc] at hrun₁ hreach₁
    obtain ⟨d₂, parties, hparties, hrun₂⟩ := ih hreach₁
      (List.forall_mem_append.mpr ⟨hdone, List.forall_mem_singleton.mpr hfinished⟩)
    exact ⟨d₂, parties, hparties, hrun₁.trans hrun₂⟩

/-! ### A peer that has every piece -/

omit hwritable in
theorem honest_tracked {parties : List HonestDownload} {q : Conversation}
    (h : Rounds.Reachable (honestProgram endian client urls c) start ⟨d, parties⟩) (hx : x ∈ parties)
    (hq : x.conversation = some q) : Tracks c d.pieces q := by
  obtain ⟨all, hmem, hreach⟩ := honest_member hstart hg h hx hq
  exact (honest_tracks hreach).2 q hmem

omit hstart hg hwritable

theorem completed_delivered (p : PiecesToDownload) (piece : Handle) (state : PieceState) :
    (p.delivered piece state).completed = p.completed ++ [state.piece_index.toNat] := by
  rw [completed, completed, PiecesToDownload.delivered, List.map_append, List.map_singleton]

theorem PiecesToDownload.Popped.completed {p p' : PiecesToDownload} {bitfield : MessageBitfield} {r : Option Handle}
    (h : Popped p bitfield r p') : p'.completed = p.completed := by
  cases h <;> rfl

/-- The message that answers a request. -/
def TorrentContent.answer (c : TorrentContent g) (endian : Endian) (r : MessageRequest) : MessagePiece where
  payload := PeerMessageId.piece :: endian.bytes (endian.nativeToBig r.piece_index) ++
    endian.bytes (endian.nativeToBig r.offset) ++ c.block r
  data_offset := 9
  piece_index := r.piece_index
  piece_begin := r.offset

theorem serves_answer (endian : Endian) (r : MessageRequest) : Serves c r (c.answer endian r) := by
  refine ⟨rfl, rfl, ?_⟩
  have hlength : (PeerMessageId.piece :: endian.bytes (endian.nativeToBig r.piece_index) ++
      endian.bytes (endian.nativeToBig r.offset)).length = 9 := by
    rw [List.length_append, List.length_cons, Endian.length_bytes, Endian.length_bytes]
  exact List.drop_left' hlength

/-- When every request is answered, as much is downloaded as was requested. -/
theorem Progress.downloaded_eq {state : PieceState} {requested : Nat} {n : UInt32}
    (h : Progress c state requested n sent []) : state.downloaded.toNat = requested := by
  obtain ⟨done, hperm, hdownloaded, -⟩ := h.answered
  have htotal := h.tiles.total_eq
  rw [total_perm (hperm.map MessageRequest.block), Nat.zero_add] at htotal
  exact hdownloaded.trans htotal

include hstart hg hwritable

/-- A peer that has unchoked and answers every request delivers the piece. -/
theorem unchoked_delivers {peer : TorrentPeer} {piece : Handle} {n : UInt32} {b : Int} {state : PieceState}
    (h : Rounds.Reachable (honestProgram endian client urls c) start ⟨d, before ++ x :: after⟩)
    (hx : x.conversation = some ⟨⟨peer, .loop piece n b⟩, sent, []⟩) (hunchoked : peer.unchocked = true)
    (hstate : d.pieces.pieces.get? piece = some state) : ∃ d' x' m sent',
      x'.conversation = some ⟨⟨peer, .sendHave m⟩, sent', []⟩ ∧
      d'.pieces.completed.length = d.pieces.completed.length + 1 ∧
      Rounds.Run (honestProgram endian client urls c) ⟨d, before ++ x :: after⟩ ⟨d', before ++ x' :: after⟩ := by
  induction hleft : n.toNat - state.requested.toNat using Nat.strong_induction_on generalizing d x b state sent with
  | h left ih =>
    have htracks := honest_tracked hstart hg h List.mem_append_cons_self hx
    obtain ⟨state', hstate', hn, hbacklog, hprogress⟩ := htracks
    cases hstate.symm.trans hstate'
    have hdownloaded := hprogress.downloaded_eq
    obtain ⟨d₁, x₁, p₁, s₁, hloop, hp₁, hx₁, hrun₁⟩ := session_goes_on hstart hg hwritable h hx NetEvent.event_run .run rfl
    have hreach₁ := h.run hrun₁
    cases step_ok hloop with
    | wait hstate₁ hmore hfull =>
      cases hstate.symm.trans hstate₁
      refine absurd ⟨hunchoked, ?_, ?_⟩ hfull
      · have hzero : b = 0 := hbacklog.1
        rw [hzero]
        decide
      · rw [UInt32.lt_iff_toNat_lt] at hmore ⊢
        rwa [← hdownloaded]
    | deliver hstate₁ =>
      refine ⟨d₁, x₁, _, _, hx₁, ?_, hrun₁⟩
      rw [hp₁, completed_delivered, List.length_append, List.length_singleton]
    | request hstate₁ hmore hroom =>
      cases hstate.symm.trans hstate₁
      obtain ⟨d₂, x₂, p₂, s₂, hsend, hp₂, hx₂, hrun₂⟩ := session_goes_on hstart hg hwritable hreach₁ hx₁
        NetEvent.event_done .sent rfl
      have hreach₂ := hreach₁.run hrun₂
      cases step_ok hsend with
      | requested hstate₂ =>
        rw [hp₁] at hstate₂ hp₂
        cases hstate.symm.trans hstate₂
        have hin : Session.nextRequest state n ∈ [] ++ [Session.nextRequest state n] := List.mem_singleton_self _
        obtain ⟨d₃, x₃, p₃, s₃, hread, hp₃, hx₃, hrun₃⟩ := session_goes_on hstart hg hwritable hreach₂ hx₂
          (NetEvent.event_message (.piece (c.answer endian (Session.nextRequest state n))))
          (.answer hin (serves_answer endian _)) rfl
        have hreach₃ := hreach₂.run hrun₃
        cases step_ok hread with
        | notice hnotice => cases hnotice
        | @part _ _ state₃ _ _ size _ hstate₃ =>
          have hget : d₃.pieces.pieces.get? piece = some (state₃.receive size _) := hp₃ ▸ get?_changed hstate₃
          rw [hp₂] at hstate₃
          have hasked := Option.some.inj (hstate₃.symm.trans (get?_changed hstate))
          have hx₃ : x₃.conversation = some ⟨⟨peer, .loop piece n (b + 1 - 1)⟩, sent ++ [Session.nextRequest state n],
              [Session.nextRequest state n].erase (Session.nextRequest state n)⟩ := hx₃
          rw [List.erase_cons_head] at hx₃
          obtain ⟨hpos, -, hle⟩ := nextRequest_length hroom.2.2
          have hrequested : (state.requested + (Session.nextRequest state n).length).toNat =
              state.requested.toNat + (Session.nextRequest state n).length.toNat := toNat_add_of_le hle
          have hless : n.toNat - (state₃.receive size (c.answer endian (Session.nextRequest state n))).requested.toNat <
              left := by
            rw [PieceState.receive, hasked]
            dsimp only
            omega
          obtain ⟨d₄, x₄, m, sent', hx₄, hcompleted, hrun₄⟩ := ih _ hless hreach₃ hx₃ hget rfl
          refine ⟨d₄, x₄, m, sent', hx₄, ?_, hrun₁.trans (hrun₂.trans (hrun₃.trans hrun₄))⟩
          rw [hcompleted, hp₃, hp₂]
          rfl

/-- A peer that is asked for a piece can deliver it. -/
theorem loop_delivers {peer : TorrentPeer} {piece : Handle} {n : UInt32} {b : Int}
    (h : Rounds.Reachable (honestProgram endian client urls c) start ⟨d, before ++ x :: after⟩)
    (hx : x.conversation = some ⟨⟨peer, .loop piece n b⟩, sent, []⟩) : ∃ d' x' peer' m sent',
      x'.conversation = some ⟨⟨peer', .sendHave m⟩, sent', []⟩ ∧ peer'.bitfield = peer.bitfield ∧
      d'.pieces.completed.length = d.pieces.completed.length + 1 ∧
      Rounds.Run (honestProgram endian client urls c) ⟨d, before ++ x :: after⟩ ⟨d', before ++ x' :: after⟩ := by
  obtain ⟨state, hstate, -⟩ := honest_tracked hstart hg h List.mem_append_cons_self hx
  cases hunchoked : peer.unchocked with
  | true =>
    obtain ⟨d', x', m, sent', hx', hcompleted, hrun⟩ := unchoked_delivers hstart hg hwritable h hx hunchoked hstate
    exact ⟨d', x', peer, m, sent', hx', rfl, hcompleted, hrun⟩
  | false =>
    -- The peer unchokes first.
    obtain ⟨d₁, x₁, p₁, s₁, hloop, hp₁, hx₁, hrun₁⟩ := session_goes_on hstart hg hwritable h hx NetEvent.event_run .run rfl
    have hreach₁ := h.run hrun₁
    cases step_ok hloop with
    | request _ _ hroom => exact absurd (hunchoked.symm.trans hroom.1) Bool.noConfusion
    | deliver =>
      refine ⟨d₁, x₁, peer, _, _, hx₁, rfl, ?_, hrun₁⟩
      rw [hp₁, completed_delivered, List.length_append, List.length_singleton]
    | wait =>
      obtain ⟨d₂, x₂, p₂, s₂, hread, hp₂, hx₂, hrun₂⟩ := session_goes_on hstart hg hwritable hreach₁ hx₁
        (NetEvent.event_message .unchoke) .unchoke rfl
      cases step_ok hread with
      | notice hnotice =>
        cases hnotice
        rw [← hp₁, ← hp₂] at hstate
        obtain ⟨d₃, x₃, m, sent', hx₃, hcompleted, hrun₃⟩ := unchoked_delivers hstart hg hwritable (hreach₁.run hrun₂)
          hx₂ rfl hstate
        refine ⟨d₃, x₃, _, m, sent', hx₃, rfl, ?_, hrun₁.trans (hrun₂.trans hrun₃)⟩
        rw [hcompleted, hp₂, hp₁]

omit hg hwritable in
/-- The books, when only one connection downloads. -/
theorem ledger_alone {s : Session}
    (h : Rounds.Reachable (honestProgram endian client urls c) start ⟨d, before ++ x :: after⟩)
    (hx : x.conversation = some ⟨s, sent, out⟩) (hidle : ∀ y ∈ before ++ after, y.download.session = none) :
    Ledger d.pieces s.held := by
  obtain ⟨hledger, -⟩ := program_kept hstart (honest_program h)
  obtain ⟨hbefore, hafter⟩ := List.forall_mem_append.mp hidle
  obtain ⟨s', hs, heq⟩ := Option.map_eq_some_iff.mp hx
  cases heq
  have hnone : ∀ others : List HonestDownload, (∀ y ∈ others, y.download.session = none) →
      (others.map HonestDownload.download).filterMap PeerDownload.session = [] := fun others hothers =>
    List.filterMap_eq_nil_iff.mpr (List.forall_mem_map.mpr hothers)
  have hsessions : sessions ((before ++ x :: after).map HonestDownload.download) = [s] := by
    rw [sessions, List.map_append, List.map_cons, List.filterMap_append, List.filterMap_cons_some hs, hnone _ hbefore,
      hnone _ hafter]
    rfl
  have hheld : heldBy [s] = s.held := List.append_nil _
  rw [← hheld, ← hsessions]
  exact hledger

omit hstart hg hwritable in
/-- While the download is not finished, there is a piece for a peer that has all. -/
theorem not_exhausted {p p' : PiecesToDownload} {bitfield : MessageBitfield} (hledger : Ledger p [])
    (hunfinished : p.downloaded_pieces_count < p.pieces_count)
    (hfull : ∀ i < p.pieces_count.toNat, bitfield.hasPiece i = true) : ¬Popped p bitfield none p' := by
  rintro (_ | _ | ⟨hnext, hlacks⟩)
  have hretry : p.to_retry = [] := by
    refine List.eq_nil_iff_forall_not_mem.mpr ?_
    intro piece hpiece
    obtain ⟨state, hstate, hlack⟩ := hlacks piece hpiece
    have hhas := hfull _ (UInt32.lt_iff_toNat_lt.mp (hledger.index_lt hpiece hstate))
    exact absurd (hhas.symm.trans hlack) Bool.noConfusion
  have hindices := hledger.indices.length_eq
  rw [hretry, List.length_append, List.length_range, ← hledger.downloaded] at hindices
  rw [UInt32.lt_iff_toNat_lt] at hunfinished hnext
  have hnone : (p.indices ([] ++ [])).length = 0 := rfl
  omega

/-- A peer that has every piece can deliver one that is left. -/
theorem pop_delivers {peer : TorrentPeer}
    (h : Rounds.Reachable (honestProgram endian client urls c) start ⟨d, before ++ x :: after⟩)
    (hx : x.conversation = some ⟨⟨peer, .pop⟩, sent, []⟩) (hidle : ∀ y ∈ before ++ after, y.download.session = none)
    (hfull : ∀ i < g.pieces_count.toNat, peer.bitfield.hasPiece i = true) (hunfinished : d.unfinished) :
    ∃ d' x' peer' sent', x'.conversation = some ⟨⟨peer', .pop⟩, sent', []⟩ ∧ peer'.bitfield = peer.bitfield ∧
      d'.pieces.completed.length = d.pieces.completed.length + 1 ∧
      Rounds.Run (honestProgram endian client urls c) ⟨d, before ++ x :: after⟩ ⟨d', before ++ x' :: after⟩ := by
  have hgeometry : d.pieces.geometry = g := (program_kept hstart (honest_program h)).geometry.trans hg
  have hcount : d.pieces.pieces_count = g.pieces_count := congrArg Geometry.pieces_count hgeometry
  rw [← hcount] at hfull
  have hledger := ledger_alone hstart h hx hidle
  obtain ⟨d₁, x₁, p₁, s₁, hpop, hp₁, hx₁, hrun₁⟩ := session_goes_on hstart hg hwritable h hx NetEvent.event_run .run rfl
  have hreach₁ := h.run hrun₁
  cases step_ok hpop with
  | exhausted hpopped => exact absurd hpopped (not_exhausted hledger hunfinished hfull)
  | @popped _ piece _ hpopped =>
    subst hp₁
    have hledger₁ := ledger_alone hstart hreach₁ hx₁ hidle
    obtain ⟨d₂, x₂, p₂, s₂, hpopped₂, hp₂, hx₂, hrun₂⟩ := session_goes_on hstart hg hwritable hreach₁ hx₁
      NetEvent.event_run .run rfl
    have hreach₂ := hreach₁.run hrun₂
    cases step_ok hpopped₂ with
    | lacks hstate hlacks =>
      have hlt := hledger₁.index_lt (List.mem_cons_self ..) hstate
      have hsame : d₁.pieces.pieces_count = d.pieces.pieces_count := congrArg Geometry.pieces_count hpopped.geometry
      rw [hsame] at hlt
      exact absurd ((hfull _ (UInt32.lt_iff_toNat_lt.mp hlt)).symm.trans hlacks) Bool.noConfusion
    | begin =>
      obtain ⟨d₃, x₃, peer₃, m, sent₃, hx₃, hsame₃, hcompleted₃, hrun₃⟩ := loop_delivers hstart hg hwritable hreach₂ hx₂
      have hreach₃ := hreach₂.run hrun₃
      obtain ⟨d₄, x₄, p₄, s₄, hhave, hp₄, hx₄, hrun₄⟩ := session_goes_on hstart hg hwritable hreach₃ hx₃
        NetEvent.event_done .sent rfl
      cases step_ok hhave with
      | haveSent =>
        refine ⟨d₄, x₄, peer₃, _, hx₄, hsame₃, ?_, hrun₁.trans (hrun₂.trans (hrun₃.trans hrun₄))⟩
        rw [hp₄, hcompleted₃, hp₂, hpopped.completed]

/-- A peer that has every piece can deliver all that are left. -/
theorem all_delivered {peer : TorrentPeer}
    (h : Rounds.Reachable (honestProgram endian client urls c) start ⟨d, before ++ x :: after⟩)
    (hx : x.conversation = some ⟨⟨peer, .pop⟩, sent, []⟩) (hidle : ∀ y ∈ before ++ after, y.download.session = none)
    (hfull : ∀ i < g.pieces_count.toNat, peer.bitfield.hasPiece i = true) : ∃ d' x', ¬d'.unfinished ∧
      Rounds.Run (honestProgram endian client urls c) ⟨d, before ++ x :: after⟩ ⟨d', before ++ x' :: after⟩ := by
  induction hleft : g.pieces_count.toNat - d.pieces.completed.length using Nat.strong_induction_on
    generalizing d x peer sent with
  | h left ih =>
    by_cases hunfinished : d.unfinished
    · obtain ⟨d₁, x₁, peer₁, sent₁, hx₁, hsame, hcompleted, hrun₁⟩ := pop_delivers hstart hg hwritable h hx hidle hfull
        hunfinished
      have hgeometry : d.pieces.geometry = g := (program_kept hstart (honest_program h)).geometry.trans hg
      have hcount : d.pieces.pieces_count = g.pieces_count := congrArg Geometry.pieces_count hgeometry
      have hlt := UInt32.lt_iff_toNat_lt.mp hunfinished
      rw [(ledger_alone hstart h hx hidle).downloaded, hcount] at hlt
      obtain ⟨d₂, x₂, hfinished, hrun₂⟩ := ih _ (by omega) (h.run hrun₁) hx₁ (hsame ▸ hfull) rfl
      exact ⟨d₂, x₂, hfinished, hrun₁.trans hrun₂⟩
    · exact ⟨d, x, hunfinished, Relation.ReflTransGen.refl⟩

omit hstart hg hwritable

/-! ### A round with such a peer -/

/-- A bitfield with every piece. -/
theorem exists_full (count : Nat) : ∃ bitfield : MessageBitfield, ∀ i < count, bitfield.hasPiece i = true := by
  refine ⟨⟨PeerMessageId.bitfield :: List.replicate count 0xFF⟩, ?_⟩
  intro i hi
  have hbit : ∀ k < 8, (0xFF : UInt8).toNat.testBit (7 - k) = true := by decide
  have hget : (List.replicate count (0xFF : UInt8))[i / 8]? = some 0xFF := by
    rw [List.getElem?_replicate, if_pos (Nat.lt_of_le_of_lt (Nat.div_le_self i 8) hi)]
  rw [MessageBitfield.hasPiece_cons, hget]
  exact hbit _ (Nat.mod_lt i (by decide))

/-- A response that is accepted. -/
theorem exists_accepted (client : TorrentClient) :
    ∃ response m, MessageHandshake.accept response client.info_hash = .ok (.ok m) := by
  have hlength := MessageHandshake.length_layout (Vector.replicate _ 0) client.info_hash client.peer_id
  exact ⟨⟨(MessageHandshake.layout (Vector.replicate _ 0) client.info_hash client.peer_id).toArray, hlength⟩,
    MessageHandshake.ofLayout (Vector.replicate _ 0) client.info_hash client.peer_id,
    MessageHandshake.accept_iff.mpr ⟨_, client.peer_id, rfl, rfl⟩⟩

/-- Some tracker may answer with an address. -/
theorem trackers_can_answer (hurls : urls.Lawful) (husable : client.usableUrls urls ≠ []) (info : Tracker.RequestInfo) :
    ∃ addresses, addresses ≠ [] ∧ TrackersAnswer client urls info (.ok addresses) := by
  obtain ⟨requests, hrequests, request, hmem, url, hrequest⟩ := exists_request hurls husable info
  let answered : Tracker.Request → TrackerCall := fun request => ⟨request, .ok (.onSuccess { peers := [{}] })⟩
  have hreturned : Returned (requests.map answered) {} := by
    refine ⟨_, List.mem_map_of_mem hmem, ?_, _, rfl, List.mem_singleton_self _⟩
    show request ≠ .monostate
    cases hrequest <;> simp
  have hunion := peerUnion PeerAddress.linear_less.mergeSort (requests.map answered)
  obtain ⟨addresses, haddresses⟩ := hunion.succeeds.mpr ⟨_, hreturned⟩
  refine ⟨addresses, List.ne_nil_of_mem ((hunion.union _ haddresses _).mpr hreturned), _, _, ?_, haddresses⟩
  rw [hrequests, Except.map, List.map_map]
  exact congrArg Except.ok (List.map_id requests)

/-- A round may begin, with connections that have asked for nothing. -/
theorem round_can_begin {old : List HonestDownload} (hurls : urls.Lawful) (husable : client.usableUrls urls ≠ [])
    (hunfinished : d.unfinished) (hold : ∀ x ∈ old, x.download.finished) : ∃ d' x after, d'.pieces = d.pieces ∧
      x.At .connect { bitfield := {} } ∧ (∀ y ∈ after, y.download.session = none) ∧
      Rounds.Run (honestProgram endian client urls c) ⟨d, old⟩ ⟨d', x :: after⟩ := by
  obtain ⟨addresses, hne, hanswer⟩ := trackers_can_answer hurls husable d.request
  have hpos : addresses.length > 0 := List.length_pos_of_ne_nil hne
  obtain ⟨address, rest, rfl⟩ := List.exists_cons_of_ne_nil hne
  have hround : d.beginRound (.ok (address :: rest)) = .ok
      ({ d with debug := d.debug.onPeersListReceived (address :: rest), requests := d.requests ++ [d.request] },
        (address :: rest).map fun address => { address := address }) := by
    rw [Downloads.beginRound, MainAssertion.check, if_pos hpos]
    rfl
  refine ⟨{ d with debug := d.debug.onPeersListReceived (address :: rest), requests := d.requests ++ [d.request] },
    { download := { address := address } }, _, rfl, ⟨rfl, rfl, rfl, rfl⟩, ?_,
    Relation.ReflTransGen.single (.begin hold ⟨_, ⟨hunfinished, _, hanswer, hround⟩, rfl⟩)⟩
  exact List.forall_mem_map.mpr (List.forall_mem_map.mpr fun _ _ => rfl)

include hstart hg hwritable

/-- A connection can come to the download, of a peer with every piece. -/
theorem can_begin_download
    (h : Rounds.Reachable (honestProgram endian client urls c) start ⟨d, before ++ x :: after⟩)
    (hat : x.At .connect { bitfield := {} }) : ∃ d' x' bitfield, d'.pieces = d.pieces ∧
      (∀ i < g.pieces_count.toNat, bitfield.hasPiece i = true) ∧ x'.conversation = some ⟨⟨{ bitfield := bitfield }, .pop⟩, [], []⟩ ∧
      Rounds.Run (honestProgram endian client urls c) ⟨d, before ++ x :: after⟩ ⟨d', before ++ x' :: after⟩ := by
  obtain ⟨bitfield, hfull⟩ := exists_full g.pieces_count.toNat
  obtain ⟨response, m, haccept⟩ := exists_accepted client
  obtain ⟨d₁, x₁, hp₁, hat₁, hrun₁⟩ := stage_at hstart hg hwritable h hat .connected
  have h₁ := h.run hrun₁
  obtain ⟨d₂, x₂, hp₂, hat₂, hrun₂⟩ := stage_at hstart hg hwritable h₁ hat₁ .handshakeSent
  have h₂ := h₁.run hrun₂
  obtain ⟨d₃, x₃, hp₃, hat₃, hrun₃⟩ := stage_at hstart hg hwritable h₂ hat₂ (.accepted haccept)
  have h₃ := h₂.run hrun₃
  obtain ⟨d₄, x₄, hp₄, hat₄, hrun₄⟩ := stage_at hstart hg hwritable h₃ hat₃ (@Stage.bitfield client _ bitfield)
  have h₄ := h₃.run hrun₄
  obtain ⟨d₅, x₅, hp₅, hat₅, hrun₅⟩ := stage_at hstart hg hwritable h₄ hat₄ .unchokeSent
  have h₅ := h₄.run hrun₅
  obtain ⟨d₆, x₆, hp₆, hat₆, hrun₆⟩ := stage_at hstart hg hwritable h₅ hat₅ .interestedSent
  refine ⟨d₆, x₆, bitfield, ?_, hfull, ?_, hrun₁.trans (hrun₂.trans (hrun₃.trans (hrun₄.trans (hrun₅.trans hrun₆))))⟩
  · rw [hp₆, hp₅, hp₄, hp₃, hp₂, hp₁]
  · rw [HonestDownload.conversation, PeerDownload.session, hat₆.point, hat₆.peer, hat₆.sent, hat₆.unanswered]
    rfl

theorem all_canEnd {parties : List HonestDownload}
    (h : Rounds.Reachable (honestProgram endian client urls c) start ⟨d, parties⟩) : ∃ d' ended,
      (∀ x ∈ ended, x.download.finished) ∧
      Rounds.Run (honestProgram endian client urls c) ⟨d, parties⟩ ⟨d', ended⟩ := by
  have h : Rounds.Reachable (honestProgram endian client urls c) start ⟨d, [] ++ parties⟩ := h
  exact drained hstart hg hwritable h (List.forall_mem_nil _)

/-- From every state the download can be finished. -/
theorem can_finish (hurls : urls.Lawful) (husable : client.usableUrls urls ≠ []) {w : World Downloads HonestDownload}
    (h : Rounds.Reachable (honestProgram endian client urls c) start w) : ∃ w',
      Rounds.Run (honestProgram endian client urls c) w w' ∧ (∀ x ∈ w'.parties, x.download.finished) ∧
        ¬w'.shared.unfinished := by
  obtain ⟨d, parties⟩ := w
  obtain ⟨d₁, old, hold, hrun₁⟩ := all_canEnd hstart hg hwritable h
  have h₁ := h.run hrun₁
  by_cases hunfinished : d₁.unfinished
  · obtain ⟨d₂, x₂, after, -, hat, hidle, hrun₂⟩ := round_can_begin hurls husable hunfinished hold
    have h₂ : Rounds.Reachable (honestProgram endian client urls c) start ⟨d₂, [] ++ x₂ :: after⟩ := h₁.run hrun₂
    obtain ⟨d₃, x₃, bitfield, -, hfull, hx₃, hrun₃⟩ := can_begin_download hstart hg hwritable h₂ hat
    have h₃ := h₂.run hrun₃
    obtain ⟨d₄, x₄, hdone, hrun₄⟩ := all_delivered hstart hg hwritable h₃ hx₃ hidle hfull
    have h₄ := h₃.run hrun₄
    obtain ⟨d₅, ended, hended, hrun₅⟩ := all_canEnd hstart hg hwritable h₄
    refine ⟨⟨d₅, ended⟩, hrun₁.trans (hrun₂.trans (hrun₃.trans (hrun₄.trans hrun₅))), hended, ?_⟩
    exact finished_stays hstart (honest_program h₄) (honest_program_run hrun₅) hdone
  · exact ⟨⟨d₁, old⟩, hrun₁, hold, hunfinished⟩

end

end BittorrentClient
