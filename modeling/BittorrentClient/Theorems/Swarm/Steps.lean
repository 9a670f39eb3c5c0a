import BittorrentClient.Client.Download
import BittorrentClient.Lib.Interleaving
import BittorrentClient.Theorems.Geometry

/-! What a step of a download does to the pieces and to the coroutine, and what it leaves alone. -/

namespace BittorrentClient
open Outcome PiecesToDownload Words

/-- The handles that a session holds: `retry` or the coroutine itself will give them back. -/
def Coroutine.held : Coroutine → List Handle
  | .popped piece | .loop piece _ _ | .sendRequest piece _ _ _ | .readMessage piece _ _ => [piece]
  | .pop | .sendHave _ | .returned => []

def Session.held (s : Session) : List Handle := s.coroutine.held

/-- A peer that has no piece of its own to send tells about itself. -/
inductive Notice : TorrentPeer → AnyMessage → TorrentPeer → Prop where
  | keepAlive {peer} : Notice peer .keepAlive peer
  | choke {peer} : Notice peer .choke { peer with unchocked := false }
  | unchoke {peer} : Notice peer .unchoke { peer with unchocked := true }
  | have_ {peer m} : Notice peer (.have_ m) { peer with bitfield := (peer.bitfield.setPiece m.piece_index.toNat).2 }

/-- The steps of a session, one constructor for each way through the code. -/
inductive Took (p : PiecesToDownload) : Session → Event → PiecesToDownload → Session → Prop where
  | exhausted {peer p'} (h : Popped p peer.bitfield none p') : Took p ⟨peer, .pop⟩ .run p' ⟨peer, .returned⟩
  | popped {peer piece p'} (h : Popped p peer.bitfield (some piece) p') :
      Took p ⟨peer, .pop⟩ .run p' ⟨peer, .popped piece⟩
  | lacks {peer : TorrentPeer} {piece state} (hstate : p.pieces.get? piece = some state)
      (h : peer.bitfield.hasPiece state.piece_index.toNat = false) :
      Took p ⟨peer, .popped piece⟩ .run (p.retried piece) ⟨peer, .pop⟩
  | begin {peer : TorrentPeer} {piece state n} (hstate : p.pieces.get? piece = some state)
      (h : peer.bitfield.hasPiece state.piece_index.toNat = true) (hn : p.getPieceSize state.piece_index = .ok n) :
      Took p ⟨peer, .popped piece⟩ .run p ⟨peer, .loop piece n 0⟩
  | request {peer piece state n b} (hstate : p.pieces.get? piece = some state) (hmore : state.downloaded < n)
      (h : peer.unchocked = true ∧ b < kMaxBacklog ∧ state.requested < n) :
      Took p ⟨peer, .loop piece n b⟩ .run p ⟨peer, .sendRequest piece n b (Session.nextRequest state n)⟩
  | wait {peer piece state n b} (hstate : p.pieces.get? piece = some state) (hmore : state.downloaded < n)
      (h : ¬(peer.unchocked = true ∧ b < kMaxBacklog ∧ state.requested < n)) :
      Took p ⟨peer, .loop piece n b⟩ .run p ⟨peer, .readMessage piece n b⟩
  | deliver {peer piece state n b} (hstate : p.pieces.get? piece = some state) (h : state.downloaded = n) :
      Took p ⟨peer, .loop piece n b⟩ .run (p.delivered piece state) ⟨peer, .sendHave ⟨state.piece_index⟩⟩
  | requested {peer piece state n b request} (hstate : p.pieces.get? piece = some state) :
      Took p ⟨peer, .sendRequest piece n b request⟩ .sent
        (p.changed piece fun state => { state with requested := state.requested + request.length })
        ⟨peer, .readMessage piece n (b + 1)⟩
  | notice {peer peer' piece n b m} (h : Notice peer m peer') :
      Took p ⟨peer, .readMessage piece n b⟩ (.received m) p ⟨peer', .loop piece n b⟩
  | part {peer piece state n b size m} (hstate : p.pieces.get? piece = some state)
      (hindex : m.piece_index = state.piece_index) (hsize : p.getPieceSize state.piece_index = .ok size)
      (h : PartFits size m state) (hcopy : CopyFits size m state) :
      Took p ⟨peer, .readMessage piece n b⟩ (.received (.piece m)) (p.changed piece fun _ => state.receive size m)
        ⟨peer, .loop piece n (b - 1)⟩
  | haveSent {peer m} : Took p ⟨peer, .sendHave m⟩ .sent p ⟨peer, .pop⟩
  | haveFailed {peer m} : Took p ⟨peer, .sendHave m⟩ .failed p ⟨peer, .returned⟩
  | requestFailed {peer piece state n b request} (hstate : p.pieces.get? piece = some state) :
      Took p ⟨peer, .sendRequest piece n b request⟩ .failed (p.retried piece) ⟨peer, .returned⟩
  | readFailed {peer piece state n b} (hstate : p.pieces.get? piece = some state) :
      Took p ⟨peer, .readMessage piece n b⟩ .failed (p.retried piece) ⟨peer, .returned⟩

section
variable {p p' : PiecesToDownload} {s s' : Session} {peer : TorrentPeer} {piece : Handle} {n : UInt32} {b : Int}

theorem runPop_ok (h : Session.runPop p ⟨peer, .pop⟩ = .ok (p', s')) : Took p ⟨peer, .pop⟩ .run p' s' := by
  obtain ⟨⟨r, q⟩, hpop, h⟩ := bind_ok h
  have hpopped := popPieceToDownload_ok hpop
  cases r with
  | none =>
    cases h
    exact .exhausted hpopped
  | some piece =>
    cases h
    exact .popped hpopped

theorem runPopped_ok (h : Session.runPopped p ⟨peer, .popped piece⟩ piece = .ok (p', s')) :
    Took p ⟨peer, .popped piece⟩ .run p' s' := by
  obtain ⟨state, hstate, h⟩ := bind_ok h
  have hstate := deref_ok.mp hstate
  cases hhas : peer.bitfield.hasPiece state.piece_index.toNat with
  | false =>
    rw [hhas] at h
    obtain ⟨q, hretry, h⟩ := bind_ok h
    obtain ⟨-, rfl⟩ := pushPieceToRetry_ok.mp hretry
    cases h
    exact .lacks hstate hhas
  | true =>
    rw [hhas] at h
    obtain ⟨n, hn, h⟩ := bind_ok h
    cases h
    exact .begin hstate hhas hn

theorem runLoop_ok (h : Session.runLoop p ⟨peer, .loop piece n b⟩ piece n b = .ok (p', s')) :
    Took p ⟨peer, .loop piece n b⟩ .run p' s' := by
  obtain ⟨state, hstate, h⟩ := bind_ok h
  have hstate := deref_ok.mp hstate
  by_cases hmore : state.downloaded < n
  · rw [if_pos hmore] at h
    by_cases hroom : peer.unchocked = true ∧ b < kMaxBacklog ∧ state.requested < n
    · rw [if_pos hroom] at h
      cases h
      exact .request hstate hmore hroom
    · rw [if_neg hroom] at h
      cases h
      exact .wait hstate hmore hroom
  · rw [if_neg hmore] at h
    obtain ⟨_, hdone, h⟩ := bind_ok h
    obtain ⟨q, hdelivered, h⟩ := bind_ok h
    obtain ⟨state', hstate', rfl⟩ := onPieceDownloaded_ok.mp hdelivered
    cases hstate.symm.trans hstate'
    cases h
    exact .deliver hstate (check_ok hdone)

/-- The assertion at the end of the loop holds of a piece that has not more than its size. -/
theorem runLoop_total {state : PieceState} (h : p.pieces.get? piece = some state) (hle : state.downloaded ≤ n) :
    ∃ r, s.runLoop p piece n b = .ok r := by
  rw [Session.runLoop, deref_ok.mpr h, ok_bind]
  by_cases hmore : state.downloaded < n
  · rw [if_pos hmore]
    split <;> exact ⟨_, rfl⟩
  · have hfull : state.downloaded = n := UInt32.le_antisymm hle (UInt32.not_lt.mp hmore)
    rw [if_neg hmore, check_of _ hfull, ok_bind, onPieceDownloaded_ok.mpr ⟨state, h, rfl⟩]
    exact ⟨_, rfl⟩

theorem visit_ok {m : AnyMessage} (h : Session.visit p ⟨peer, .readMessage piece n b⟩ piece n b m = .ok (p', s')) :
    Took p ⟨peer, .readMessage piece n b⟩ (.received m) p' s' := by
  cases m with
  | keepAlive =>
    cases h
    exact .notice .keepAlive
  | choke =>
    cases h
    exact .notice .choke
  | unchoke =>
    cases h
    exact .notice .unchoke
  | have_ m =>
    cases h
    exact .notice .have_
  | piece m =>
    obtain ⟨state, hstate, h⟩ := bind_ok h
    obtain ⟨_, hindex, h⟩ := bind_ok h
    obtain ⟨q, hreceive, h⟩ := bind_ok h
    obtain ⟨state', size, hstate', hsize, hfits, hcopy, rfl⟩ := onPiecePartReceive_ok.mp hreceive
    cases (deref_ok.mp hstate).symm.trans hstate'
    cases h
    exact .part hstate' (check_ok hindex) hsize hfits hcopy
  | monostate | interested | notInterested | bitfield _ | request _ | cancel | unknown => cases h

theorem failHolding_ok (h : Session.failHolding p s piece = .ok (p', s')) :
    (∃ state, p.pieces.get? piece = some state) ∧ p' = p.retried piece ∧ s' = ⟨s.peer, .returned⟩ := by
  obtain ⟨q, hretry, h⟩ := bind_ok h
  obtain ⟨hstate, rfl⟩ := pushPieceToRetry_ok.mp hretry
  cases h
  exact ⟨hstate, rfl, rfl⟩

/-- Everything a step can do. -/
theorem step_ok {event : Event} (h : s.step p event = some (.ok (p', s'))) : Took p s event p' s' := by
  obtain ⟨peer, coroutine⟩ := s
  cases coroutine with
  | pop =>
    cases event with
    | run => exact runPop_ok (Option.some.inj h)
    | sent | received _ | failed => cases h
  | popped piece =>
    cases event with
    | run => exact runPopped_ok (Option.some.inj h)
    | sent | received _ | failed => cases h
  | loop piece n b =>
    cases event with
    | run => exact runLoop_ok (Option.some.inj h)
    | sent | received _ | failed => cases h
  | sendRequest piece n b request =>
    cases event with
    | sent =>
      obtain ⟨state, hstate, h⟩ := bind_ok (Option.some.inj h)
      cases h
      exact .requested (deref_ok.mp hstate)
    | failed =>
      obtain ⟨⟨state, hstate⟩, rfl, rfl⟩ := failHolding_ok (Option.some.inj h)
      exact .requestFailed hstate
    | run | received _ => cases h
  | readMessage piece n b =>
    cases event with
    | received m => exact visit_ok (Option.some.inj h)
    | failed =>
      obtain ⟨⟨state, hstate⟩, rfl, rfl⟩ := failHolding_ok (Option.some.inj h)
      exact .readFailed hstate
    | run | sent => cases h
  | sendHave m =>
    cases event with
    | sent =>
      cases h
      exact .haveSent
    | failed =>
      cases h
      exact .haveFailed
    | run | received _ => cases h
  | returned => cases event <;> cases h

/-! ### What stays -/

theorem PiecesToDownload.Popped.geometry {havePieces : MessageBitfield} {r : Option Handle} (h : Popped p havePieces r p') :
    p'.geometry = p.geometry := by
  cases h <;> rfl

theorem Took.geometry {event : Event} (h : Took p s event p' s') : p'.geometry = p.geometry := by
  cases h with
  | exhausted h | popped h => exact h.geometry
  | _ => rfl

theorem PiecesToDownload.Popped.frame {havePieces : MessageBitfield} {r : Option Handle}
    (h : Popped p havePieces r p') {x : Handle} {state : PieceState} (hx : p.pieces.get? x = some state) :
    p'.pieces.get? x = some state := by
  cases h with
  | start h =>
    rw [started, StableList.get?_emplaceBack, if_neg, hx]
    rintro rfl
    rw [StableList.get?_next] at hx
    cases hx
  | retry | none => exact hx

/-- A step leaves alone every piece that the session does not hold. -/
theorem Took.frame {event : Event} (h : Took p s event p' s') {x : Handle} {state : PieceState}
    (hx : p.pieces.get? x = some state) (hheld : x ∉ s.held) : p'.pieces.get? x = some state := by
  have hother : ∀ piece, piece ∈ s.held → x ≠ piece := fun piece hpiece heq => hheld (heq ▸ hpiece)
  cases h with
  | exhausted h | popped h => exact h.frame hx
  | lacks | requestFailed | readFailed =>
    rw [retried, StableList.get?_modify, if_neg (hother _ (List.mem_singleton_self _)), hx]
  | requested | part => rw [changed, StableList.get?_modify, if_neg (hother _ (List.mem_singleton_self _)), hx]
  | deliver => rw [delivered, StableList.get?_erase, if_neg (hother _ (List.mem_singleton_self _)), hx]
  | begin | request | wait | notice | haveSent | haveFailed => exact hx

/-- `on_new_piece` is called for a piece whose count is full, and for no other. -/
theorem Took.new_pieces {event : Event} (h : Took p s event p' s') : p'.new_pieces = p.new_pieces ∨
    ∃ piece n b state, s.coroutine = .loop piece n b ∧ p.pieces.get? piece = some state ∧ state.downloaded = n ∧
      p'.new_pieces = p.new_pieces ++ [state] := by
  cases h with
  | exhausted h | popped h => cases h <;> exact .inl rfl
  | deliver hstate hfull => exact .inr ⟨_, _, _, _, rfl, hstate, hfull, rfl⟩
  | _ => exact .inl rfl

theorem Took.delivered_grows {event : Event} (h : Took p s event p' s') : p.new_pieces <+: p'.new_pieces := by
  rcases h.new_pieces with hsame | ⟨piece, n, b, state, -, -, -, hnew⟩
  · rw [hsame]
  · rw [hnew]
    exact List.prefix_append _ _

/-! ### Requests -/

theorem toNat_nextRequest_length {state : PieceState} (h : state.requested < n) :
    (Session.nextRequest state n).length.toNat = min 16384 (n.toNat - state.requested.toNat) := by
  have hle : state.requested ≤ n := UInt32.le_of_lt h
  rw [Session.nextRequest, toNat_min32, UInt32.toNat_sub_of_le _ _ hle]
  rfl

/-- A request asks for at least one byte, and for no more than a block and than the piece has left. -/
theorem nextRequest_length {state : PieceState} (h : state.requested < n) :
    0 < (Session.nextRequest state n).length.toNat ∧ (Session.nextRequest state n).length.toNat ≤ 16384 ∧
      state.requested.toNat + (Session.nextRequest state n).length.toNat ≤ n.toNat := by
  have hlt := UInt32.lt_iff_toNat_lt.mp h
  rw [toNat_nextRequest_length h]
  omega

end

end BittorrentClient
