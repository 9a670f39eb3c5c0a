import BittorrentClient.Theorems.Swarm.Accounted

/-! Which bytes of a piece were written when it is delivered. The client counts bytes: parts that stay inside
    the piece and do not overlap cover it when the count is full, parts that overlap may leave holes. -/

namespace BittorrentClient
open Blocks Interleaving PiecesToDownload Words

/-- The range of the piece that a part is written to. -/
def MessagePiece.block (m : MessagePiece) : Block := ⟨m.piece_begin.toNat, m.size.toNat⟩

/-- A session with the parts that were received for its piece since it was handed out. -/
structure Recorded where
  session : Session
  blocks : List Block := []

/-- The parts after an event; a piece that is handed out starts without any. -/
def record (s : Session) (event : Event) (blocks : List Block) : List Block :=
  match s.coroutine, event with
  | .pop, _ => []
  | .readMessage _ _ _, .received (.piece m) => blocks ++ [m.block]
  | _, _ => blocks

/-- Sessions with the parts they received, where `Admits` says which parts the peers may send. -/
def recorded (Admits : UInt32 → List Block → Block → Prop) : Rules PiecesToDownload Recorded where
  joins x := ∃ bitfield, x = { session := Session.start bitfield }
  acts p x p' x' := ∃ event, x.session.step p event = some (.ok (p', x'.session)) ∧
    x'.blocks = record x.session event x.blocks ∧
    ∀ piece n b m, x.session.coroutine = .readMessage piece n b → event = .received (.piece m) → Admits n x.blocks m.block

theorem recorded_extends {Admits : UInt32 → List Block → Block → Prop} : Extends (recorded Admits) Recorded.session where
  joins := by
    rintro x ⟨bitfield, rfl⟩
    exact ⟨bitfield, rfl⟩
  acts := by
    rintro p x p' x' ⟨event, hstep, -⟩
    exact .inl ⟨event, hstep⟩

/-- The session is about to call `on_piece_downloaded`. -/
def Delivers (p : PiecesToDownload) (s : Session) (state : PieceState) : Prop :=
  ∃ piece n b, s.coroutine = .loop piece n b ∧ p.pieces.get? piece = some state ∧ ¬state.downloaded < n

/-- Whenever a piece is delivered, every byte of it was in a part received since it was handed out. -/
def NoHoles (w : World PiecesToDownload Recorded) : Prop :=
  ∀ x ∈ w.parties, ∀ state, Delivers w.shared x.session state →
    ∃ n, w.shared.getPieceSize state.piece_index = .ok n ∧ Blocks.Covers x.blocks n.toNat

/-- A part that lies inside the piece, apart from those received before. -/
def Separate (n : UInt32) (blocks : List Block) (block : Block) : Prop :=
  block.stop ≤ n.toNat ∧ ∀ earlier ∈ blocks, Block.Apart earlier block

/-! ### Parts that do not overlap -/

/-- The count of a piece is exact: the parts lie inside it, apart from each other. -/
structure Counted (n : UInt32) (blocks : List Block) (state : PieceState) : Prop where
  inside : ∀ block ∈ blocks, block.stop ≤ n.toNat
  apart : blocks.Pairwise Block.Apart
  downloaded : state.downloaded.toNat = total blocks

namespace Counted
variable {n : UInt32} {blocks : List Block} {state : PieceState} {m : MessagePiece}

theorem nil (h : state.downloaded = 0) : Counted n [] state :=
  ⟨List.forall_mem_nil _, List.Pairwise.nil, by rw [h]; rfl⟩

/-- The sum does not wrap: the parts have no more bytes than the piece. -/
theorem receive (h : Counted n blocks state) (hm : Separate n blocks m.block) :
    Counted n (blocks ++ [m.block]) (state.receive n m) := by
  have hinside : ∀ block ∈ blocks ++ [m.block], block.stop ≤ n.toNat :=
    List.forall_mem_append.mpr ⟨h.inside, List.forall_mem_singleton.mpr hm.1⟩
  have hapart : (blocks ++ [m.block]).Pairwise Block.Apart :=
    List.pairwise_append.mpr ⟨h.apart, List.pairwise_singleton _ _, fun a ha b hb =>
      List.mem_singleton.mp hb ▸ hm.2 a ha⟩
  refine ⟨hinside, hapart, ?_⟩
  have hle := total_le hapart hinside
  rw [total_append, total_cons, total_nil, ← h.downloaded] at hle ⊢
  exact toNat_add_of_le hle

theorem covers (h : Counted n blocks state) (hfull : ¬state.downloaded < n) : Blocks.Covers blocks n.toNat := by
  have hfull := Nat.le_of_not_lt fun hlt => hfull (UInt32.lt_iff_toNat_lt.mpr hlt)
  have hle := total_le h.apart h.inside
  exact covers_of_total h.apart h.inside (Nat.le_antisymm hle (h.downloaded ▸ hfull))

end Counted

/-- What a session knows of the piece it holds. -/
def Counts (p : PiecesToDownload) (x : Recorded) : Prop :=
  match x.session.coroutine with
  | .popped piece => ∃ state, p.pieces.get? piece = some state ∧ state.downloaded = 0 ∧ x.blocks = []
  | .loop piece n _ | .sendRequest piece n _ _ | .readMessage piece n _ =>
    ∃ state, p.pieces.get? piece = some state ∧ p.getPieceSize state.piece_index = .ok n ∧ Counted n x.blocks state
  | .pop | .sendHave _ | .returned => True

theorem counts_congr {p p' : PiecesToDownload} {x : Recorded} (hgeometry : p'.geometry = p.geometry)
    (hget : ∀ piece ∈ x.session.held, p'.pieces.get? piece = p.pieces.get? piece) (h : Counts p x) : Counts p' x := by
  obtain ⟨⟨peer, coroutine⟩, blocks⟩ := x
  cases coroutine with
  | pop | sendHave | returned => trivial
  | popped piece =>
    obtain ⟨state, hstate, hrest⟩ := h
    exact ⟨state, (hget piece (List.mem_singleton_self _)).trans hstate, hrest⟩
  | loop piece | sendRequest piece | readMessage piece =>
    obtain ⟨state, hstate, hn, hcounted⟩ := h
    exact ⟨state, (hget piece (List.mem_singleton_self _)).trans hstate, (getPieceSize_congr hgeometry _).trans hn,
      hcounted⟩

theorem counts_step {p p' : PiecesToDownload} {s s' : Session} {event : Event} {blocks : List Block} {others : List Handle}
    (hledger : Ledger p (s.held ++ others)) (h : Took p s event p' s') (hcounts : Counts p ⟨s, blocks⟩)
    (hadmits : ∀ piece n b m, s.coroutine = .readMessage piece n b → event = .received (.piece m) →
      Separate n blocks m.block) : Counts p' ⟨s', record s event blocks⟩ := by
  cases h with
  | exhausted | lacks | deliver | haveSent | haveFailed | requestFailed | readFailed => trivial
  | popped h =>
    obtain ⟨state, hstate, hfresh⟩ := hledger.popped h
    exact ⟨state, hstate, by rw [hfresh], rfl⟩
  | begin hstate _ hn =>
    obtain ⟨state, hstate', hdownloaded, hnone⟩ := hcounts
    cases hstate.symm.trans hstate'
    cases hnone
    exact ⟨_, hstate, hn, Counted.nil hdownloaded⟩
  | request | wait => exact hcounts
  | notice h => cases h <;> exact hcounts
  | requested =>
    obtain ⟨state, hstate, hn, hcounted⟩ := hcounts
    exact ⟨_, get?_changed hstate, hn, hcounted.inside, hcounted.apart, hcounted.downloaded⟩
  | part hstate hindex hsize h =>
    obtain ⟨state, hstate', hn, hcounted⟩ := hcounts
    cases hstate.symm.trans hstate'
    cases hn.symm.trans hsize
    exact ⟨_, get?_changed hstate, hn, hcounted.receive (hadmits _ _ _ _ rfl rfl)⟩

/-- In every run whose parts lie inside their pieces and overlap no earlier ones, no piece is delivered with a hole. -/
theorem noHoles_of_separate (g : Geometry) (w : World PiecesToDownload Recorded)
    (h : Reachable (recorded Separate) g.pieces w) : NoHoles w := by
  have hcounts : True ∧ ∀ x ∈ w.parties, Counts w.shared x := by
    refine recorded_extends.each (I := fun _ => True) h trivial ?_ ?_ fun p p' x => counts_congr
    · rintro p x ⟨bitfield, rfl⟩
      trivial
    · rintro p ⟨s, blocks⟩ p' ⟨s', blocks'⟩ others hledger - - hcounts ⟨event, hstep, hblocks, hadmits⟩
      cases hblocks
      exact ⟨trivial, counts_step hledger (step_ok hstep) hcounts hadmits⟩
  rintro ⟨⟨peer, coroutine⟩, blocks⟩ hx state ⟨piece, n, b, hloop, hstate, hfull⟩
  cases hloop
  obtain ⟨state', hstate', hn, hcounted⟩ := hcounts.2 _ hx
  cases hstate.symm.trans hstate'
  exact ⟨n, hn, hcounted.covers hfull⟩

/-! ### Parts that do -/

/-- A part of the first piece as it is received: the id, the index, the offset, and the bytes. -/
def partAt (begin : UInt8) (bytes : List UInt8) : MessagePiece where
  payload := [PeerMessageId.piece, 0, 0, 0, 0, 0, 0, 0, begin] ++ bytes
  data_offset := 9
  piece_index := 0
  piece_begin := begin.toUInt32

theorem begun_reachable (Admits : UInt32 → List Block → Block → Prop) :
    Reachable (recorded Admits) (Geometry.pieces ⟨1, 2, 2⟩)
      ⟨(Geometry.pieces ⟨1, 2, 2⟩).started, [⟨⟨{ bitfield := ⟨[5, 0x80]⟩ }, .readMessage 0 2 0⟩, []⟩]⟩ := by
  have hjoin : Reachable (recorded Admits) (Geometry.pieces ⟨1, 2, 2⟩) ⟨_, [⟨Session.start ⟨[5, 0x80]⟩, []⟩]⟩ :=
    .join ⟨_, rfl⟩
  have hpopped : Reachable (recorded Admits) (Geometry.pieces ⟨1, 2, 2⟩)
      ⟨(Geometry.pieces ⟨1, 2, 2⟩).started, [⟨⟨{ bitfield := ⟨[5, 0x80]⟩ }, .popped 0⟩, []⟩]⟩ :=
    hjoin.act ⟨.run, rfl, rfl, nofun⟩
  have hbegun : Reachable (recorded Admits) (Geometry.pieces ⟨1, 2, 2⟩)
      ⟨(Geometry.pieces ⟨1, 2, 2⟩).started, [⟨⟨{ bitfield := ⟨[5, 0x80]⟩ }, .loop 0 2 0⟩, []⟩]⟩ :=
    hpopped.act ⟨.run, rfl, rfl, nofun⟩
  exact hbegun.act ⟨.run, rfl, rfl, nofun⟩

theorem noHoles_whole : NoHoles
    ⟨(Geometry.pieces ⟨1, 2, 2⟩).started.changed 0 fun _ => PieceState.receive 2 (partAt 0 [10, 20]) {},
      [⟨⟨{ bitfield := ⟨[5, 0x80]⟩ }, .loop 0 2 (-1)⟩, [⟨0, 2⟩]⟩]⟩ := by
  refine noHoles_of_separate _ _ ((begun_reachable Separate).act ⟨.received (.piece (partAt 0 [10, 20])), rfl, rfl, ?_⟩)
  intro piece n b m hread hpart
  cases hread
  cases hpart
  exact ⟨by decide, List.forall_mem_nil _⟩

/-- The first byte of a piece of two bytes is sent twice: the count is full, the second byte was never written. -/
theorem not_noHoles_repeated :
    ∃ w, Reachable (recorded fun _ _ _ => True) (Geometry.pieces ⟨1, 2, 2⟩) w ∧ ¬NoHoles w := by
  have hfirst : Reachable (recorded fun _ _ _ => True) (Geometry.pieces ⟨1, 2, 2⟩) ⟨_, [⟨⟨_, _⟩, _⟩]⟩ :=
    (begun_reachable _).act ⟨.received (.piece (partAt 0 [10])), rfl, rfl, fun _ _ _ _ _ _ => trivial⟩
  have hread : Reachable (recorded fun _ _ _ => True) (Geometry.pieces ⟨1, 2, 2⟩) ⟨_, [⟨⟨_, _⟩, _⟩]⟩ :=
    hfirst.act ⟨.run, rfl, rfl, nofun⟩
  have hsecond : Reachable (recorded fun _ _ _ => True) (Geometry.pieces ⟨1, 2, 2⟩) ⟨_, [⟨⟨_, _⟩, _⟩]⟩ :=
    hread.act ⟨.received (.piece (partAt 0 [10])), rfl, rfl, fun _ _ _ _ _ _ => trivial⟩
  refine ⟨_, hsecond, ?_⟩
  intro h
  obtain ⟨n, hn, hcovers⟩ := h _ (List.mem_singleton_self _) _ ⟨0, 2, -2, rfl, rfl, by decide⟩
  cases hn
  obtain ⟨block, hblock, hmem⟩ := hcovers 1 (by decide)
  have hsame : ∀ block ∈ [(⟨0, 1⟩ : Block), ⟨0, 1⟩], block = ⟨0, 1⟩ := by decide
  cases hsame block hblock
  exact absurd hmem.2 (Nat.lt_irrefl 1)

end BittorrentClient
