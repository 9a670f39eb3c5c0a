import BittorrentClient.Theorems.Swarm.Progress

/-! Honest peers. A peer answers a request at most once, with the bytes of the torrent, in any order; it may choke,
    tell about itself and disconnect at any time. Then no assertion fails, and every piece that is delivered is the
    piece of the torrent. -/

namespace BittorrentClient
open Blocks Interleaving Outcome PiecesToDownload Words

section
variable {g : Geometry} {c : TorrentContent g}

/-! ### The peers -/

/-- What may happen to a connection with the unanswered requests `out`, and the requests that are unanswered then.
    An answer is on its way until it is read. -/
inductive Permitted (c : TorrentContent g) (out : List MessageRequest) : Event → List MessageRequest → Prop where
  | run : Permitted c out .run out
  | sent : Permitted c out .sent out
  | failed : Permitted c out .failed out
  | keepAlive : Permitted c out (.received .keepAlive) out
  | choke : Permitted c out (.received .choke) out
  | unchoke : Permitted c out (.received .unchoke) out
  | have_ (m) : Permitted c out (.received (.have_ m)) out
  | answer {r m} (hr : r ∈ out) (hm : Serves c r m) : Permitted c out (.received (.piece m)) (out.erase r)

/-- A session with the requests it sent for the piece it holds, and those that are not answered. -/
structure Conversation where
  session : Session
  sent : List MessageRequest := []
  unanswered : List MessageRequest := []

/-- The requests that were sent for the piece, after a step to the coroutine. -/
def Coroutine.sent (coroutine : Coroutine) (sent : List MessageRequest) : List MessageRequest :=
  match coroutine with
  | .popped _ => []
  | .sendRequest _ _ _ request => sent ++ [request]
  | _ => sent

def Coroutine.unanswered (coroutine : Coroutine) (out : List MessageRequest) : List MessageRequest :=
  match coroutine with
  | .sendRequest _ _ _ request => out ++ [request]
  | _ => out

def honest (c : TorrentContent g) : Rules PiecesToDownload Conversation where
  joins x := ∃ bitfield, x = { session := Session.start bitfield }
  acts p x p' x' := ∃ event out, Permitted c x.unanswered event out ∧
    x.session.step p event = some (.ok (p', x'.session)) ∧
    x'.sent = x'.session.coroutine.sent x.sent ∧ x'.unanswered = x'.session.coroutine.unanswered out

theorem honest_extends : Extends (honest c) Conversation.session where
  joins := by
    rintro x ⟨bitfield, rfl⟩
    exact ⟨bitfield, rfl⟩
  acts := by
    rintro p x p' x' ⟨event, out, -, hstep, -⟩
    exact .inl ⟨event, hstep⟩

/-! ### What a session knows -/

/-- The backlog counts the unanswered requests, of which there are never too many. -/
def InBacklog (b : Int) (out : List MessageRequest) : Prop := b = out.length ∧ b ≤ kMaxBacklog

theorem InBacklog.ask {b : Int} {out : List MessageRequest} (h : InBacklog b out) (hroom : b < kMaxBacklog)
    (r : MessageRequest) : InBacklog (b + 1) (out ++ [r]) := by
  refine ⟨?_, Int.add_one_le_of_lt hroom⟩
  rw [h.1, List.length_append, List.length_singleton, Int.natCast_succ]

theorem InBacklog.answer {b : Int} {out : List MessageRequest} (h : InBacklog b out) {r : MessageRequest} (hr : r ∈ out) :
    InBacklog (b - 1) (out.erase r) := by
  obtain ⟨hcount, hle⟩ := h
  have hpos := List.length_pos_of_mem hr
  have hlength := List.length_erase_of_mem hr
  refine ⟨?_, ?_⟩ <;> omega

def Tracks (c : TorrentContent g) (p : PiecesToDownload) (x : Conversation) : Prop :=
  match x.session.coroutine with
  | .pop | .sendHave _ => x.unanswered = []
  | .popped piece => x.unanswered = [] ∧ x.sent = [] ∧
    ∃ state, p.pieces.get? piece = some state ∧ state = { piece_index := state.piece_index }
  | .loop piece n b | .readMessage piece n b => ∃ state, p.pieces.get? piece = some state ∧
    p.getPieceSize state.piece_index = .ok n ∧ InBacklog b x.unanswered ∧
    Progress c state state.requested.toNat n x.sent x.unanswered
  | .sendRequest piece n b request => ∃ state, p.pieces.get? piece = some state ∧
    p.getPieceSize state.piece_index = .ok n ∧ InBacklog (b + 1) x.unanswered ∧
    Progress c state (state.requested.toNat + request.length.toNat) n x.sent x.unanswered
  | .returned => True

theorem tracks_congr {p p' : PiecesToDownload} {x : Conversation} (hgeometry : p'.geometry = p.geometry)
    (hget : ∀ piece ∈ x.session.held, p'.pieces.get? piece = p.pieces.get? piece) (h : Tracks c p x) : Tracks c p' x := by
  obtain ⟨⟨peer, coroutine⟩, sent, out⟩ := x
  cases coroutine with
  | pop | sendHave | returned => exact h
  | popped piece =>
    obtain ⟨hout, hsent, state, hstate, hfresh⟩ := h
    exact ⟨hout, hsent, state, (hget piece (List.mem_singleton_self _)).trans hstate, hfresh⟩
  | loop piece | readMessage piece | sendRequest piece =>
    obtain ⟨state, hstate, hn, hrest⟩ := h
    exact ⟨state, (hget piece (List.mem_singleton_self _)).trans hstate, (getPieceSize_congr hgeometry _).trans hn, hrest⟩

theorem tracks_step {p p' : PiecesToDownload} {s s' : Session} {event : Event} {sent out out' : List MessageRequest}
    {others : List Handle} (hledger : Ledger p (s.held ++ others)) (hgeometry : p.geometry = g)
    (h : Took p s event p' s') (hpermitted : Permitted c out event out') (htracks : Tracks c p ⟨s, sent, out⟩) :
    Tracks c p' ⟨s', s'.coroutine.sent sent, s'.coroutine.unanswered out'⟩ := by
  cases h with
  | exhausted | haveFailed | requestFailed | readFailed => trivial
  | popped h =>
    cases hpermitted
    exact ⟨htracks, rfl, hledger.popped h⟩
  | lacks =>
    cases hpermitted
    exact htracks.1
  | @begin _ _ state n hstate _ hn =>
    cases hpermitted
    obtain ⟨hout, hsent, state', hstate', hfresh⟩ := htracks
    cases hout
    cases hsent
    cases hstate.symm.trans hstate'
    have hlt := hledger.index_lt (List.mem_cons_self ..) hstate
    subst hgeometry
    obtain ⟨n', hn', hlength⟩ := getPieceSize_eq c.valid hlt
    cases hn.symm.trans hn'
    obtain ⟨i, rfl⟩ : ∃ i, state = { piece_index := i } := ⟨_, hfresh⟩
    exact ⟨_, hstate, hn, ⟨rfl, by decide⟩, Progress.nil hlt hlength⟩
  | @request _ _ state n _ hstate hmore hroom =>
    cases hpermitted
    obtain ⟨state', hstate', hn, hbacklog, hprogress⟩ := htracks
    cases hstate.symm.trans hstate'
    exact ⟨state, hstate, hn, hbacklog.ask hroom.2.1 _, hprogress.request hroom.2.2⟩
  | wait =>
    cases hpermitted
    exact htracks
  | deliver hstate hfull =>
    cases hpermitted
    obtain ⟨state, hstate', hn, hbacklog, hprogress⟩ := htracks
    cases hstate.symm.trans hstate'
    exact (hprogress.full hfull).1
  | @requested _ _ _ n _ request =>
    cases hpermitted
    obtain ⟨state, hstate, hn, hbacklog, hprogress⟩ := htracks
    refine ⟨_, get?_changed hstate, hn, hbacklog, ?_⟩
    rw [toNat_add_of_le hprogress.requested_le]
    exact hprogress.requestSent _
  | notice h => cases h <;> cases hpermitted <;> exact htracks
  | part hstate hindex hsize h =>
    cases hpermitted with
    | answer hr hm =>
      obtain ⟨state, hstate', hn, hbacklog, hprogress⟩ := htracks
      cases hstate.symm.trans hstate'
      cases hn.symm.trans hsize
      exact ⟨_, get?_changed hstate, hn, hbacklog.answer hr, hprogress.receive hr hm⟩
  | haveSent =>
    cases hpermitted
    exact htracks

/-! ### No assertion fails -/

theorem runPop_total {p : PiecesToDownload} {s : Session} {held : List Handle} (h : Ledger p held) :
    ∃ r, s.runPop p = .ok r := by
  obtain ⟨⟨piece, p'⟩, hpop⟩ := popPieceToDownload_total s.peer.bitfield fun x hx => h.get? (List.mem_append_right _ hx)
  rw [Session.runPop, hpop, ok_bind]
  cases piece <;> exact ⟨_, rfl⟩

theorem failHolding_total {p : PiecesToDownload} {s : Session} {piece : Handle} {state : PieceState}
    (h : p.pieces.get? piece = some state) : ∃ r, s.failHolding p piece = .ok r := by
  rw [Session.failHolding, pushPieceToRetry_ok.mpr ⟨⟨state, h⟩, rfl⟩]
  exact ⟨_, rfl⟩

theorem runPopped_total {p : PiecesToDownload} {s : Session} {piece : Handle} {state : PieceState}
    (hvalid : p.geometry.Valid) (h : p.pieces.get? piece = some state) (hi : state.piece_index < p.pieces_count) :
    ∃ r, s.runPopped p piece = .ok r := by
  obtain ⟨n, hn, -⟩ := getPieceSize_eq hvalid hi
  rw [Session.runPopped, deref_ok.mpr h, ok_bind, hn, pushPieceToRetry_ok.mpr ⟨⟨state, h⟩, rfl⟩]
  split <;> exact ⟨_, rfl⟩

theorem visit_part_total {p : PiecesToDownload} {s : Session} {piece : Handle} {state : PieceState} {n size : UInt32}
    {b : Int} {m : MessagePiece} (h : p.pieces.get? piece = some state)
    (hsize : p.getPieceSize state.piece_index = .ok size) (hindex : m.piece_index = state.piece_index)
    (hfits : PartFits size m state) (hcopy : CopyFits size m state) : ∃ r, s.visit p piece n b (.piece m) = .ok r := by
  rw [Session.visit, deref_ok.mpr h, ok_bind, check_of _ hindex, ok_bind,
    onPiecePartReceive_ok.mpr ⟨state, size, h, hsize, hfits, hcopy, rfl⟩]
  exact ⟨_, rfl⟩

/-- Whatever an honest peer lets happen, the client goes on. -/
theorem step_total {p : PiecesToDownload} {s : Session} {event : Event} {sent out out' : List MessageRequest}
    {others : List Handle} (hledger : Ledger p (s.held ++ others)) (hgeometry : p.geometry = g)
    (hpermitted : Permitted c out event out') (htracks : Tracks c p ⟨s, sent, out⟩)
    {r : Asserted (PiecesToDownload × Session)} (h : s.step p event = some r) : ∃ r', r = .ok r' := by
  subst hgeometry
  obtain ⟨peer, coroutine⟩ := s
  cases coroutine with
  | pop =>
    cases event with
    | run =>
      cases h
      exact runPop_total hledger
    | sent | received _ | failed => cases h
  | popped piece =>
    obtain ⟨-, -, state, hstate, -⟩ := htracks
    cases event with
    | run =>
      cases h
      exact runPopped_total c.valid hstate (hledger.index_lt (List.mem_cons_self ..) hstate)
    | sent | received _ | failed => cases h
  | loop piece n b =>
    obtain ⟨state, hstate, -, -, hprogress⟩ := htracks
    cases event with
    | run =>
      cases h
      exact runLoop_total hstate (UInt32.le_iff_toNat_le.mpr hprogress.downloaded_le)
    | sent | received _ | failed => cases h
  | sendRequest piece n b request =>
    obtain ⟨state, hstate, -⟩ := htracks
    cases event with
    | sent =>
      cases h
      rw [Session.requestSent, deref_ok.mpr hstate]
      exact ⟨_, rfl⟩
    | failed =>
      cases h
      exact failHolding_total hstate
    | run | received _ => cases h
  | readMessage piece n b =>
    obtain ⟨state, hstate, hn, -, hprogress⟩ := htracks
    cases event with
    | received m =>
      cases h
      cases hpermitted with
      | keepAlive | choke | unchoke | have_ => exact ⟨_, rfl⟩
      | answer hr hm =>
        have hindex := hm.piece_index.trans (hprogress.index _ (hprogress.mem_sent hr))
        exact visit_part_total hstate hn hindex (hprogress.partFits hr hm) (hprogress.copyFits hr hm)
    | failed =>
      cases h
      exact failHolding_total hstate
    | run | sent => cases h
  | sendHave m =>
    cases event with
    | sent | failed =>
      cases h
      exact ⟨_, rfl⟩
    | run | received _ => cases h
  | returned => cases event <;> cases h

/-! ### The download -/

/-- A piece as it should be delivered. -/
def TruePiece (c : TorrentContent g) (state : PieceState) : Prop :=
  state.piece_index < g.pieces_count ∧ state.data = c.piece state.piece_index

theorem delivered_step {p p' : PiecesToDownload} {s s' : Session} {event : Event} {sent out : List MessageRequest}
    (h : Took p s event p' s') (htracks : Tracks c p ⟨s, sent, out⟩) (htrue : ∀ state ∈ p.new_pieces, TruePiece c state) :
    ∀ state ∈ p'.new_pieces, TruePiece c state := by
  rcases h.new_pieces with hsame | ⟨piece, n, b, state, hloop, hstate, hfull, hnew⟩
  · rwa [hsame]
  · obtain ⟨peer, coroutine⟩ := s
    cases hloop
    obtain ⟨state', hstate', -, -, hprogress⟩ := htracks
    cases hstate.symm.trans hstate'
    rw [hnew]
    exact List.forall_mem_append.mpr
      ⟨htrue, List.forall_mem_singleton.mpr ⟨hprogress.index_lt, (hprogress.full hfull).2⟩⟩

/-- What holds of a download from honest peers. The requests for a piece that is held are blocks of 1 to 16384 bytes
    that follow each other from its start, with a bounded number unanswered; no assertion fails at the next
    step; and the pieces that were delivered have their sizes and their true bytes. -/
structure Faithful (c : TorrentContent g) (w : World PiecesToDownload Conversation) : Prop where
  requests : ∀ x ∈ w.parties, ∀ piece ∈ x.session.held, ∃ state n k, w.shared.pieces.get? piece = some state ∧
    w.shared.getPieceSize state.piece_index = .ok n ∧
    (∀ r ∈ x.sent, r.piece_index = state.piece_index ∧ 1 ≤ r.length.toNat ∧ r.length.toNat ≤ kMaxBlock.toNat) ∧
    Tiles 0 (x.sent.map MessageRequest.block) k ∧ k ≤ n.toNat ∧
    x.unanswered ⊆ x.sent ∧ (x.unanswered.length : Int) ≤ kMaxBacklog
  asserts : ∀ x ∈ w.parties, ∀ event out e, Permitted c x.unanswered event out →
    x.session.step w.shared event ≠ some (.error e)
  delivered : ∀ state ∈ w.shared.new_pieces, ∃ n, w.shared.getPieceSize state.piece_index = .ok n ∧
    state.data.length = n.toNat ∧ state.data = c.piece state.piece_index

theorem honest_tracks {w : World PiecesToDownload Conversation} (h : Reachable (honest c) g.pieces w) :
    (∀ state ∈ w.shared.new_pieces, TruePiece c state) ∧ ∀ x ∈ w.parties, Tracks c w.shared x := by
  refine honest_extends.each (I := fun p => ∀ state ∈ p.new_pieces, TruePiece c state) h (List.forall_mem_nil _) ?_ ?_
    fun p p' x => tracks_congr
  · rintro p x ⟨bitfield, rfl⟩
    rfl
  · rintro p ⟨s, sent, out⟩ p' ⟨s', sent', out'⟩ others hledger hgeometry htrue htracks
      ⟨event, left, hpermitted, hstep, hsent, hout⟩
    obtain rfl : sent' = s'.coroutine.sent sent := hsent
    obtain rfl : out' = s'.coroutine.unanswered left := hout
    exact ⟨delivered_step (step_ok hstep) htracks htrue,
      tracks_step hledger hgeometry (step_ok hstep) hpermitted htracks⟩

/-- A session and the handles of the others, in a reachable world. -/
theorem ledger_of_mem {w : World PiecesToDownload Conversation} (h : Reachable (honest c) g.pieces w) {x : Conversation}
    (hx : x ∈ w.parties) : ∃ others, Ledger w.shared (x.session.held ++ others) := by
  obtain ⟨before, after, hsplit⟩ := List.append_of_mem hx
  have hledger := swarm_ledger (honest_extends.reachable h)
  simp only [hsplit, List.map_append, List.map_cons] at hledger
  exact ⟨_, hledger.perm (heldBy_perm _ _ _)⟩

/-- The requests of a session, by where its coroutine is. -/
theorem requests_of_tracks {p : PiecesToDownload} {x : Conversation} {others : List Handle}
    (hledger : Ledger p (x.session.held ++ others)) (hgeometry : p.geometry = g) (htracks : Tracks c p x) {piece : Handle}
    (hpiece : piece ∈ x.session.held) : ∃ state n k, p.pieces.get? piece = some state ∧
      p.getPieceSize state.piece_index = .ok n ∧ (x.unanswered.length : Int) ≤ kMaxBacklog ∧
      Progress c state k n x.sent x.unanswered := by
  subst hgeometry
  obtain ⟨⟨peer, coroutine⟩, sent, out⟩ := x
  cases coroutine with
  | pop | sendHave | returned => exact absurd hpiece List.not_mem_nil
  | popped h =>
    cases List.mem_singleton.mp hpiece
    obtain ⟨hout, hsent, state, hstate, hfresh⟩ := htracks
    cases hout
    cases hsent
    have hlt := hledger.index_lt (List.mem_cons_self ..) hstate
    obtain ⟨n, hn, hlength⟩ := getPieceSize_eq c.valid hlt
    obtain ⟨i, rfl⟩ : ∃ i, state = { piece_index := i } := ⟨_, hfresh⟩
    exact ⟨_, n, 0, hstate, hn, (by decide : ((0 : Nat) : Int) ≤ kMaxBacklog), Progress.nil hlt hlength⟩
  | loop h | readMessage h | sendRequest h =>
    cases List.mem_singleton.mp hpiece
    obtain ⟨state, hstate, hn, ⟨hcount, hle⟩, hprogress⟩ := htracks
    exact ⟨state, _, _, hstate, hn, hcount ▸ hle, hprogress⟩

/-- With honest peers, in any number and any order, the download is faithful in every reachable state. -/
theorem honest_faithful (g : Geometry) (c : TorrentContent g) (w : World PiecesToDownload Conversation)
    (h : Reachable (honest c) g.pieces w) : Faithful c w := by
  have hgeometry : w.shared.geometry = g := swarm_geometry (honest_extends.reachable h)
  obtain ⟨htrue, htracks⟩ := honest_tracks h
  refine ⟨?_, ?_, ?_⟩
  · intro x hx piece hpiece
    obtain ⟨others, hledger⟩ := ledger_of_mem h hx
    obtain ⟨state, n, k, hstate, hn, hbacklog, hprogress⟩ := requests_of_tracks hledger hgeometry (htracks x hx) hpiece
    refine ⟨state, n, k, hstate, hn, ?_, hprogress.tiles, hprogress.requested_le,
      fun r hr => hprogress.mem_sent hr, hbacklog⟩
    intro r hr
    exact ⟨hprogress.index r hr, (hprogress.block_le hr).2, hprogress.length_le r hr⟩
  · intro x hx event out e hpermitted herror
    obtain ⟨others, hledger⟩ := ledger_of_mem h hx
    obtain ⟨r, hr⟩ := step_total hledger hgeometry hpermitted (htracks x hx) herror
    cases hr
  · intro state hstate
    obtain ⟨hlt, hdata⟩ := htrue state hstate
    subst hgeometry
    obtain ⟨n, hn, hlength⟩ := getPieceSize_eq c.valid hlt
    exact ⟨n, hn, by rw [hdata, c.length_piece hlt, hlength], hdata⟩

end

/-- A torrent of two bytes in one piece. -/
def twoByteContent : TorrentContent ⟨1, 2, 2⟩ where
  valid := ⟨by decide, by decide⟩
  bytes := [10, 20]
  length_bytes := rfl

/-- The piece is requested, answered and delivered. -/
theorem honest_faithful_delivered : ∃ p x, p.new_pieces = [⟨0, 2, 2, [10, 20]⟩] ∧ Faithful twoByteContent ⟨p, [x]⟩ := by
  have hjoin : Reachable (honest twoByteContent) (Geometry.pieces ⟨1, 2, 2⟩)
      ⟨_, [⟨⟨{ bitfield := ⟨[5, 0x80]⟩ }, .pop⟩, [], []⟩]⟩ := .join ⟨_, rfl⟩
  have hpopped : Reachable (honest twoByteContent) (Geometry.pieces ⟨1, 2, 2⟩)
      ⟨_, [⟨⟨{ bitfield := ⟨[5, 0x80]⟩ }, .popped 0⟩, [], []⟩]⟩ := hjoin.act ⟨.run, _, .run, rfl, rfl, rfl⟩
  have hbegun : Reachable (honest twoByteContent) (Geometry.pieces ⟨1, 2, 2⟩)
      ⟨_, [⟨⟨{ bitfield := ⟨[5, 0x80]⟩ }, .loop 0 2 0⟩, [], []⟩]⟩ := hpopped.act ⟨.run, _, .run, rfl, rfl, rfl⟩
  have hchoked : Reachable (honest twoByteContent) (Geometry.pieces ⟨1, 2, 2⟩)
      ⟨_, [⟨⟨{ bitfield := ⟨[5, 0x80]⟩ }, .readMessage 0 2 0⟩, [], []⟩]⟩ := hbegun.act ⟨.run, _, .run, rfl, rfl, rfl⟩
  have hunchoked : Reachable (honest twoByteContent) (Geometry.pieces ⟨1, 2, 2⟩)
      ⟨_, [⟨⟨⟨⟨[5, 0x80]⟩, true⟩, .loop 0 2 0⟩, [], []⟩]⟩ := hchoked.act ⟨_, _, .unchoke, rfl, rfl, rfl⟩
  have hrequest : Reachable (honest twoByteContent) (Geometry.pieces ⟨1, 2, 2⟩)
      ⟨_, [⟨⟨⟨⟨[5, 0x80]⟩, true⟩, .sendRequest 0 2 0 ⟨0, 0, 2⟩⟩, [⟨0, 0, 2⟩], [⟨0, 0, 2⟩]⟩]⟩ :=
    hunchoked.act ⟨.run, _, .run, rfl, rfl, rfl⟩
  have hsent : Reachable (honest twoByteContent) (Geometry.pieces ⟨1, 2, 2⟩)
      ⟨_, [⟨⟨⟨⟨[5, 0x80]⟩, true⟩, .readMessage 0 2 1⟩, [⟨0, 0, 2⟩], [⟨0, 0, 2⟩]⟩]⟩ :=
    hrequest.act ⟨.sent, _, .sent, rfl, rfl, rfl⟩
  have hanswer : Serves twoByteContent ⟨0, 0, 2⟩ ⟨[PeerMessageId.piece, 0, 0, 0, 0, 0, 0, 0, 0, 10, 20], 9, 0, 0⟩ :=
    ⟨rfl, rfl, rfl⟩
  have hanswered : Reachable (honest twoByteContent) (Geometry.pieces ⟨1, 2, 2⟩)
      ⟨_, [⟨⟨⟨⟨[5, 0x80]⟩, true⟩, .loop 0 2 0⟩, [⟨0, 0, 2⟩], []⟩]⟩ :=
    hsent.act ⟨_, _, .answer (List.mem_singleton_self _) hanswer, rfl, rfl, rfl⟩
  have hdelivered : Reachable (honest twoByteContent) (Geometry.pieces ⟨1, 2, 2⟩)
      ⟨_, [⟨⟨⟨⟨[5, 0x80]⟩, true⟩, .sendHave ⟨0⟩⟩, [⟨0, 0, 2⟩], []⟩]⟩ := hanswered.act ⟨.run, _, .run, rfl, rfl, rfl⟩
  exact ⟨_, _, rfl, honest_faithful _ _ _ hdelivered⟩

end BittorrentClient
