import BittorrentClient.Theorems.Swarm.Accounted

/-! Peers that choke. A peer that chokes forgets the requests it has not answered; the client still counts them
    as requested, and never asks for their bytes again. -/

namespace BittorrentClient
open Interleaving PiecesToDownload Words

/-! ### The peer -/

/-- The other end of a connection: the requests that are on their way to it, those it has taken and not yet
    answered, and the messages that are on their way to the client. -/
structure Remote where
  wire : List MessageRequest := []
  pending : List MessageRequest := []
  choking : Bool := true
  inbox : List AnyMessage := []

/-- The message has the block that was asked for. -/
structure Answers (request : MessageRequest) (m : MessagePiece) : Prop where
  piece_index : m.piece_index = request.piece_index
  piece_begin : m.piece_begin = request.offset
  size : m.size = request.length

/-- What a peer does. It may lose requests: a Choke discards those that are pending, and one that arrives while
    it chokes is ignored. -/
inductive Remote.Acts (loses : Bool) : Remote → Remote → Prop where
  | keepAlive {r} : Acts loses r { r with inbox := r.inbox ++ [.keepAlive] }
  | have_ {r} (m) : Acts loses r { r with inbox := r.inbox ++ [.have_ m] }
  | choke {r} (h : loses = true ∨ r.pending = []) :
      Acts loses r { r with choking := true, pending := [], inbox := r.inbox ++ [.choke] }
  | unchoke {r} : Acts loses r { r with choking := false, inbox := r.inbox ++ [.unchoke] }
  | takes {r request wire} (hwire : r.wire = request :: wire) (h : r.choking = false) :
      Acts loses r { r with wire := wire, pending := r.pending ++ [request] }
  | ignores {r request wire} (hwire : r.wire = request :: wire) (h : r.choking = true) (hloses : loses = true) :
      Acts loses r { r with wire := wire }
  | answers {r request m} (hmem : request ∈ r.pending) (h : Answers request m) :
      Acts loses r { r with pending := r.pending.erase request, inbox := r.inbox ++ [.piece m] }

/-- What a step of the coroutine, which leads to `c`, means for the other end. -/
inductive Exchange : Remote → Event → Coroutine → Remote → Prop where
  | reads {r m inbox c} (h : r.inbox = m :: inbox) : Exchange r (.received m) c { r with inbox := inbox }
  | writes {r piece n b request} :
      Exchange r .run (.sendRequest piece n b request) { r with wire := r.wire ++ [request] }
  | runs {r c} (h : ∀ piece n b request, c ≠ .sendRequest piece n b request) : Exchange r .run c r
  | sent {r c} : Exchange r .sent c r
  | failed {r c} : Exchange r .failed c r

structure Connection where
  session : Session
  remote : Remote := {}

/-- Sessions with the other ends of their connections, which may lose requests or not. -/
def connected (loses : Bool) : Rules PiecesToDownload Connection where
  joins x := ∃ bitfield, x = { session := Session.start bitfield }
  acts p x p' x' :=
    (∃ event, x.session.step p event = some (.ok (p', x'.session)) ∧
      Exchange x.remote event x'.session.coroutine x'.remote) ∨
    (p' = p ∧ x'.session = x.session ∧ Remote.Acts loses x.remote x'.remote)

theorem connected_extends {loses : Bool} : Extends (connected loses) Connection.session where
  joins := by
    rintro x ⟨bitfield, rfl⟩
    exact ⟨bitfield, rfl⟩
  acts := by
    rintro p x p' x' (⟨event, hstep, -⟩ | ⟨hp, hsession, -⟩)
    · exact .inl ⟨event, hstep⟩
    · exact .inr ⟨hp, hsession⟩

/-- A client that waits, unchoked, for the rest of a piece has a message or an answer to wait for. -/
def NeverStranded (w : World PiecesToDownload Connection) : Prop :=
  ∀ x ∈ w.parties, ∀ piece n b state, x.session.coroutine = .readMessage piece n b → x.session.peer.unchocked = true →
    w.shared.pieces.get? piece = some state → state.downloaded < n →
    x.remote.inbox ≠ [] ∨ x.remote.wire ≠ [] ∨ x.remote.pending ≠ []

/-! ### What the peer owes -/

def AnyMessage.partSize : AnyMessage → Option Nat
  | .piece m => some m.size.toNat
  | _ => none

/-- The sizes of the blocks that the client asked for and has not read. -/
def Remote.owed (r : Remote) : List Nat :=
  (r.wire ++ r.pending).map (fun request => request.length.toNat) ++ r.inbox.filterMap AnyMessage.partSize

theorem parts_append_none (inbox : List AnyMessage) {m : AnyMessage} (h : m.partSize = none) :
    (inbox ++ [m]).filterMap AnyMessage.partSize = inbox.filterMap AnyMessage.partSize := by
  rw [List.filterMap_append, List.filterMap_cons_none h, List.filterMap_nil, List.append_nil]

section
variable {r r' : Remote}

theorem owed_nil (h : r.inbox = []) (hwire : r.wire = []) (hpending : r.pending = []) : r.owed = [] := by
  rw [Remote.owed, h, hwire, hpending]
  rfl

/-- As long as it loses no request, a peer goes on owing what it owed. -/
theorem Remote.Acts.owed (h : Remote.Acts false r r') : r'.owed.Perm r.owed := by
  cases h with
  | keepAlive | have_ | unchoke =>
    simp only [Remote.owed]
    rw [parts_append_none _ rfl]
  | choke h =>
    rcases h with h | h
    · cases h
    · simp only [Remote.owed]
      rw [parts_append_none _ rfl, h]
  | @takes request wire hwire =>
    simp only [Remote.owed, hwire]
    refine List.Perm.append_right _ (List.Perm.map _ ?_)
    rw [← List.append_assoc]
    exact List.perm_append_singleton _ _
  | ignores _ _ hloses => cases hloses
  | @answers request m hmem h =>
    simp only [Remote.owed]
    have hpart : AnyMessage.partSize (.piece m) = some request.length.toNat := by rw [AnyMessage.partSize, h.size]
    have hpending := ((List.perm_cons_erase hmem).append_left r.wire).map fun request => request.length.toNat
    rw [List.filterMap_append, List.filterMap_cons_some hpart, List.filterMap_nil, ← List.append_assoc]
    refine (List.perm_append_singleton _ _).trans ?_
    rw [← List.cons_append]
    exact ((List.perm_middle.map _).symm.trans hpending.symm).append_right _

/-- A message that is read is paid when it is a part. -/
theorem owed_reads {m : AnyMessage} {inbox : List AnyMessage} (h : r.inbox = m :: inbox) :
    r.owed.Perm (m.partSize.toList ++ Remote.owed { r with inbox := inbox }) := by
  simp only [Remote.owed, h]
  cases hm : m.partSize with
  | none => rw [List.filterMap_cons_none hm, Option.toList_none, List.nil_append]
  | some k =>
    rw [List.filterMap_cons_some hm]
    exact List.perm_middle

theorem owed_writes (request : MessageRequest) :
    (Remote.owed { r with wire := r.wire ++ [request] }).Perm (request.length.toNat :: r.owed) := by
  simp only [Remote.owed]
  rw [← List.cons_append, ← List.map_cons (f := fun request : MessageRequest => request.length.toNat), List.append_assoc]
  exact (List.perm_middle.map _).append_right _

end

/-! ### The balance of a piece -/

/-- What is requested of a piece is downloaded or owed, and the backlog counts what is owed. -/
structure Balance (state : PieceState) (requested : Nat) (n : UInt32) (b : Int) (owed : List Nat) : Prop where
  requested_le : requested ≤ n.toNat
  sum : state.downloaded.toNat + owed.sum = requested
  count : b = owed.length
  pos : ∀ k ∈ owed, 0 < k

namespace Balance
variable {state : PieceState} {requested : Nat} {n : UInt32} {b : Int} {owed owed' : List Nat}

theorem perm (h : Balance state requested n b owed) (hperm : owed.Perm owed') : Balance state requested n b owed' where
  requested_le := h.requested_le
  sum := hperm.sum_eq ▸ h.sum
  count := hperm.length_eq ▸ h.count
  pos k hk := h.pos k (hperm.mem_iff.mpr hk)

theorem nil (i n : UInt32) : Balance { piece_index := i } 0 n 0 [] :=
  ⟨Nat.zero_le _, rfl, rfl, List.forall_mem_nil _⟩

theorem request (h : Balance state state.requested.toNat n b owed) (hmore : state.requested < n) :
    Balance state (state.requested.toNat + (Session.nextRequest state n).length.toNat) n (b + 1)
      ((Session.nextRequest state n).length.toNat :: owed) := by
  obtain ⟨hpos, -, hle⟩ := nextRequest_length hmore
  refine ⟨hle, ?_, ?_, List.forall_mem_cons.mpr ⟨hpos, h.pos⟩⟩
  · rw [List.sum_cons, ← h.sum]
    omega
  · rw [h.count, List.length_cons, Int.natCast_succ]

theorem receive {m : MessagePiece} (h : Balance state requested n b (m.size.toNat :: owed)) (size : UInt32) :
    Balance (state.receive size m) requested n (b - 1) owed := by
  obtain ⟨hle, hsum, hcount, hpos⟩ := h
  rw [List.sum_cons] at hsum
  refine ⟨hle, ?_, ?_, (List.forall_mem_cons.mp hpos).2⟩
  · have hadd : state.downloaded.toNat + m.size.toNat ≤ n.toNat := by omega
    rw [PieceState.receive, toNat_add_of_le hadd, Nat.add_assoc, hsum]
  · rw [hcount, List.length_cons, Int.natCast_succ, Int.add_sub_cancel]

/-- Nothing is owed for a piece that is downloaded. -/
theorem full (h : Balance state requested n b owed) (hfull : state.downloaded = n) : owed = [] := by
  obtain ⟨hle, hsum, -, hpos⟩ := h
  rw [hfull] at hsum
  cases owed with
  | nil => rfl
  | cons k owed =>
    have := (List.forall_mem_cons.mp hpos).1
    rw [List.sum_cons] at hsum
    omega

theorem owed_ne_nil (h : Balance state requested n b owed) (hmore : state.downloaded < n)
    (hrequested : n.toNat ≤ requested) : owed ≠ [] := by
  rintro rfl
  have hsum := h.sum
  have := UInt32.lt_iff_toNat_lt.mp hmore
  rw [List.sum_nil] at hsum
  omega

end Balance

/-- What a connection owes, where its coroutine is. A client that waits unchoked is owed something, or has
    requested the whole piece. -/
def Owes (p : PiecesToDownload) (x : Connection) : Prop :=
  match x.session.coroutine with
  | .pop | .sendHave _ => x.remote.owed = []
  | .popped piece => x.remote.owed = [] ∧
    ∃ state, p.pieces.get? piece = some state ∧ state = { piece_index := state.piece_index }
  | .loop piece n b =>
    ∃ state, p.pieces.get? piece = some state ∧ Balance state state.requested.toNat n b x.remote.owed
  | .sendRequest piece n b request => x.remote.owed ≠ [] ∧ ∃ state, p.pieces.get? piece = some state ∧
    Balance state (state.requested.toNat + request.length.toNat) n (b + 1) x.remote.owed
  | .readMessage piece n b => ∃ state, p.pieces.get? piece = some state ∧
    Balance state state.requested.toNat n b x.remote.owed ∧
    (x.session.peer.unchocked = true → x.remote.owed ≠ [] ∨ n.toNat ≤ state.requested.toNat)
  | .returned => True

theorem Owes.perm {p : PiecesToDownload} {s : Session} {r r' : Remote} (h : Owes p ⟨s, r⟩) (hperm : r.owed.Perm r'.owed) :
    Owes p ⟨s, r'⟩ := by
  have hnil : r.owed = [] → r'.owed = [] := fun h => List.perm_nil.mp (h ▸ hperm.symm)
  have hne : r.owed ≠ [] → r'.owed ≠ [] := fun h h' => h (List.perm_nil.mp (h' ▸ hperm))
  obtain ⟨peer, coroutine⟩ := s
  cases coroutine with
  | pop | sendHave => exact hnil h
  | popped => exact ⟨hnil h.1, h.2⟩
  | loop =>
    obtain ⟨state, hstate, hbalance⟩ := h
    exact ⟨state, hstate, hbalance.perm hperm⟩
  | sendRequest =>
    obtain ⟨howed, state, hstate, hbalance⟩ := h
    exact ⟨hne howed, state, hstate, hbalance.perm hperm⟩
  | readMessage =>
    obtain ⟨state, hstate, hbalance, hwait⟩ := h
    exact ⟨state, hstate, hbalance.perm hperm, fun hunchocked => (hwait hunchocked).imp_left hne⟩
  | returned => trivial

theorem owes_congr {p p' : PiecesToDownload} {x : Connection}
    (hget : ∀ piece ∈ x.session.held, p'.pieces.get? piece = p.pieces.get? piece) (h : Owes p x) : Owes p' x := by
  obtain ⟨⟨peer, coroutine⟩, remote⟩ := x
  cases coroutine with
  | pop | sendHave | returned => exact h
  | popped piece | sendRequest piece =>
    obtain ⟨howed, state, hstate, hrest⟩ := h
    exact ⟨howed, state, (hget piece (List.mem_singleton_self _)).trans hstate, hrest⟩
  | loop piece | readMessage piece =>
    obtain ⟨state, hstate, hrest⟩ := h
    exact ⟨state, (hget piece (List.mem_singleton_self _)).trans hstate, hrest⟩

theorem owes_step {p p' : PiecesToDownload} {s s' : Session} {event : Event} {r r' : Remote} {others : List Handle}
    (hledger : Ledger p (s.held ++ others)) (h : Took p s event p' s') (hexchange : Exchange r event s'.coroutine r')
    (howes : Owes p ⟨s, r⟩) : Owes p' ⟨s', r'⟩ := by
  cases h with
  | exhausted | haveFailed | requestFailed | readFailed => trivial
  | popped h =>
    cases hexchange
    exact ⟨howes, hledger.popped h⟩
  | lacks =>
    cases hexchange
    exact howes.1
  | begin hstate =>
    cases hexchange
    obtain ⟨howed, state, hstate', hfresh⟩ := howes
    refine ⟨state, hstate', ?_⟩
    rw [howed, hfresh]
    exact Balance.nil _ _
  | @request _ _ state n _ hstate hmore hroom =>
    obtain ⟨state', hstate', hbalance⟩ := howes
    cases hstate.symm.trans hstate'
    cases hexchange with
    | writes =>
      have howed := owed_writes (r := r) (Session.nextRequest state n)
      refine ⟨?_, state, hstate, (hbalance.request hroom.2.2).perm howed.symm⟩
      intro hnil
      exact List.cons_ne_nil _ _ (List.perm_nil.mp (hnil ▸ howed).symm)
    | runs h => exact absurd rfl (h _ _ _ _)
  | @wait _ _ state n _ hstate hmore hroom =>
    cases hexchange
    obtain ⟨state', hstate', hbalance⟩ := howes
    cases hstate.symm.trans hstate'
    refine ⟨state, hstate, hbalance, ?_⟩
    intro hunchocked
    by_cases hrequested : state.requested < n
    · -- The backlog is full.
      refine .inl fun hnil => hroom ⟨hunchocked, ?_, hrequested⟩
      rw [hbalance.count, hnil]
      decide
    · exact .inr (Nat.le_of_not_lt fun hlt => hrequested (UInt32.lt_iff_toNat_lt.mpr hlt))
  | deliver hstate hfull =>
    cases hexchange
    obtain ⟨state, hstate', hbalance⟩ := howes
    cases hstate.symm.trans hstate'
    exact hbalance.full hfull
  | @requested _ _ _ n _ request =>
    cases hexchange
    obtain ⟨howed, state, hstate, hbalance⟩ := howes
    refine ⟨_, get?_changed hstate, ?_, fun _ => .inl howed⟩
    rw [toNat_add_of_le hbalance.requested_le]
    exact ⟨hbalance.requested_le, hbalance.sum, hbalance.count, hbalance.pos⟩
  | notice h =>
    cases hexchange with
    | reads hinbox =>
      obtain ⟨state, hstate, hbalance, -⟩ := howes
      refine ⟨state, hstate, hbalance.perm ?_⟩
      cases h <;> exact owed_reads hinbox
  | part hstate hindex hsize h =>
    cases hexchange with
    | reads hinbox =>
      obtain ⟨state, hstate', hbalance, -⟩ := howes
      cases hstate.symm.trans hstate'
      exact ⟨_, get?_changed hstate, (hbalance.perm (owed_reads hinbox)).receive _⟩
  | haveSent =>
    cases hexchange
    exact howes

/-- With peers that lose no request, no client waits unchoked for the rest of a piece without a message or an
    answer to wait for. -/
theorem neverStranded_of_careful (g : Geometry) (w : World PiecesToDownload Connection)
    (h : Reachable (connected false) g.pieces w) : NeverStranded w := by
  have howes : True ∧ ∀ x ∈ w.parties, Owes w.shared x := by
    refine connected_extends.each (I := fun _ => True) h trivial ?_ ?_ fun p p' x _ => owes_congr
    · rintro p x ⟨bitfield, rfl⟩
      rfl
    · rintro p ⟨s, r⟩ p' ⟨s', r'⟩ others hledger - - howes (⟨event, hstep, hexchange⟩ | ⟨rfl, hsession, hacts⟩)
      · exact ⟨trivial, owes_step hledger (step_ok hstep) hexchange howes⟩
      · cases hsession
        exact ⟨trivial, howes.perm hacts.owed.symm⟩
  rintro ⟨⟨peer, coroutine⟩, r⟩ hx piece n b state hread hunchocked hstate hmore
  cases hread
  obtain ⟨state', hstate', hbalance, hwait⟩ := howes.2 _ hx
  cases hstate.symm.trans hstate'
  have howed : r.owed ≠ [] := (hwait hunchocked).elim id (hbalance.owed_ne_nil hmore)
  by_contra hnone
  simp only [not_or, not_not] at hnone
  exact howed (owed_nil hnone.1 hnone.2.1 hnone.2.2)

/-! ### A choke in the middle of a piece -/

/-- A session for a piece of two bytes, and the request for the piece. -/
def twoBytes (unchocked : Bool) (coroutine : Coroutine) : Session := ⟨⟨⟨[5, 0x80]⟩, unchocked⟩, coroutine⟩

def twoBytesRequest : MessageRequest := ⟨0, 0, 2⟩

def twoBytesRequested : PiecesToDownload :=
  (Geometry.pieces ⟨1, 2, 2⟩).started.changed 0 fun state => { state with requested := state.requested + 2 }

/-- The piece is requested, and the peer has the request. -/
theorem requested_reachable (loses : Bool) : Reachable (connected loses) (Geometry.pieces ⟨1, 2, 2⟩)
    ⟨twoBytesRequested, [⟨twoBytes true (.readMessage 0 2 1), { pending := [twoBytesRequest], choking := false }⟩]⟩ := by
  have hjoin : Reachable (connected loses) (Geometry.pieces ⟨1, 2, 2⟩) ⟨_, [⟨twoBytes false .pop, {}⟩]⟩ :=
    .join ⟨⟨[5, 0x80]⟩, rfl⟩
  have hunchoke : Reachable (connected loses) (Geometry.pieces ⟨1, 2, 2⟩)
      ⟨_, [⟨twoBytes false .pop, { choking := false, inbox := [.unchoke] }⟩]⟩ := hjoin.act (.inr ⟨rfl, rfl, .unchoke⟩)
  have hpopped : Reachable (connected loses) (Geometry.pieces ⟨1, 2, 2⟩)
      ⟨_, [⟨twoBytes false (.popped 0), { choking := false, inbox := [.unchoke] }⟩]⟩ :=
    hunchoke.act (.inl ⟨.run, rfl, .runs nofun⟩)
  have hbegun : Reachable (connected loses) (Geometry.pieces ⟨1, 2, 2⟩)
      ⟨_, [⟨twoBytes false (.loop 0 2 0), { choking := false, inbox := [.unchoke] }⟩]⟩ :=
    hpopped.act (.inl ⟨.run, rfl, .runs nofun⟩)
  have hchoked : Reachable (connected loses) (Geometry.pieces ⟨1, 2, 2⟩)
      ⟨_, [⟨twoBytes false (.readMessage 0 2 0), { choking := false, inbox := [.unchoke] }⟩]⟩ :=
    hbegun.act (.inl ⟨.run, rfl, .runs nofun⟩)
  have hunchoked : Reachable (connected loses) (Geometry.pieces ⟨1, 2, 2⟩)
      ⟨_, [⟨twoBytes true (.loop 0 2 0), { choking := false }⟩]⟩ :=
    hchoked.act (.inl ⟨.received .unchoke, rfl, .reads rfl⟩)
  have hrequest : Reachable (connected loses) (Geometry.pieces ⟨1, 2, 2⟩)
      ⟨_, [⟨twoBytes true (.sendRequest 0 2 0 twoBytesRequest), { wire := [twoBytesRequest], choking := false }⟩]⟩ :=
    hunchoked.act (.inl ⟨.run, rfl, .writes⟩)
  have hsent : Reachable (connected loses) (Geometry.pieces ⟨1, 2, 2⟩) ⟨twoBytesRequested,
      [⟨twoBytes true (.readMessage 0 2 1), { wire := [twoBytesRequest], choking := false }⟩]⟩ :=
    hrequest.act (.inl ⟨.sent, rfl, .sent⟩)
  exact hsent.act (.inr ⟨rfl, rfl, .takes rfl rfl⟩)

theorem neverStranded_requested : NeverStranded ⟨twoBytesRequested,
    [⟨twoBytes true (.readMessage 0 2 1), { pending := [twoBytesRequest], choking := false }⟩]⟩ :=
  neverStranded_of_careful _ _ (requested_reachable false)

/-- The peer chokes and unchokes: the request is lost, and the client, which has requested the whole piece, waits
    for ever. -/
theorem not_neverStranded_choked :
    ∃ w, Reachable (connected true) (Geometry.pieces ⟨1, 2, 2⟩) w ∧ ¬NeverStranded w := by
  have hchoke : Reachable (connected true) (Geometry.pieces ⟨1, 2, 2⟩) ⟨twoBytesRequested,
      [⟨twoBytes true (.readMessage 0 2 1), { inbox := [.choke] }⟩]⟩ :=
    (requested_reachable true).act (.inr ⟨rfl, rfl, .choke (.inl rfl)⟩)
  have hchoked : Reachable (connected true) (Geometry.pieces ⟨1, 2, 2⟩) ⟨twoBytesRequested,
      [⟨twoBytes false (.loop 0 2 1), {}⟩]⟩ := hchoke.act (.inl ⟨.received .choke, rfl, .reads rfl⟩)
  have hread : Reachable (connected true) (Geometry.pieces ⟨1, 2, 2⟩) ⟨twoBytesRequested,
      [⟨twoBytes false (.readMessage 0 2 1), {}⟩]⟩ := hchoked.act (.inl ⟨.run, rfl, .runs nofun⟩)
  have hunchoke : Reachable (connected true) (Geometry.pieces ⟨1, 2, 2⟩) ⟨twoBytesRequested,
      [⟨twoBytes false (.readMessage 0 2 1), { choking := false, inbox := [.unchoke] }⟩]⟩ :=
    hread.act (.inr ⟨rfl, rfl, .unchoke⟩)
  have hunchoked : Reachable (connected true) (Geometry.pieces ⟨1, 2, 2⟩) ⟨twoBytesRequested,
      [⟨twoBytes true (.loop 0 2 1), { choking := false }⟩]⟩ :=
    hunchoke.act (.inl ⟨.received .unchoke, rfl, .reads rfl⟩)
  have hwaits : Reachable (connected true) (Geometry.pieces ⟨1, 2, 2⟩) ⟨twoBytesRequested,
      [⟨twoBytes true (.readMessage 0 2 1), { choking := false }⟩]⟩ := hunchoked.act (.inl ⟨.run, rfl, .runs nofun⟩)
  refine ⟨_, hwaits, ?_⟩
  intro h
  rcases h _ (List.mem_singleton_self _) 0 2 1 _ rfl rfl rfl (by decide) with h | h | h <;> exact h rfl

end BittorrentClient
