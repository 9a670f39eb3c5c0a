import BittorrentClient.Client.Connection
import BittorrentClient.Theorems.Handshake
import BittorrentClient.Theorems.Messages
import BittorrentClient.Theorems.Swarm.Steps

/-! What a step of a connection does: it goes on with what comes before the download, or it is a step of the
    download. -/

namespace BittorrentClient
open Outcome

/-- The download of a connection, once it has begun. -/
def PeerDownload.session (x : PeerDownload) : Option Session :=
  match x.point with
  | .download coroutine => some ⟨x.peer, coroutine⟩
  | _ => none

theorem PeerDownload.session_some {x : PeerDownload} {s : Session} (h : x.session = some s) :
    x.point = .download s.coroutine ∧ x.peer = s.peer := by
  obtain ⟨address, peerId, extensions, peer, point, written⟩ := x
  cases point with
  | download coroutine =>
    cases h
    exact ⟨rfl, rfl⟩
  | _ => cases h

/-- The steps before the download, one constructor for each way through the code. -/
inductive Stage (client : TorrentClient) : Point → TorrentPeer → NetEvent → Point → TorrentPeer → Prop where
  | connected {peer} : Stage client .connect peer .done .writeHandshake peer
  | handshakeSent {peer} : Stage client .writeHandshake peer .done .readHandshake peer
  | accepted {peer response m} (h : MessageHandshake.accept response client.info_hash = .ok (.ok m)) :
      Stage client .readHandshake peer (.handshake response) .readBitfield peer
  | refused {peer response e} (h : MessageHandshake.accept response client.info_hash = .ok (.error e)) :
      Stage client .readHandshake peer (.handshake response) .returned peer
  | bitfield {peer bitfield} :
      Stage client .readBitfield peer (.message (.bitfield bitfield)) .sendUnchoke { peer with bitfield := bitfield }
  | other {peer m} (h : ∀ bitfield, m ≠ .bitfield bitfield) : Stage client .readBitfield peer (.message m) .returned peer
  | unchokeSent {peer} : Stage client .sendUnchoke peer .done .sendInterested peer
  | interestedSent {peer} : Stage client .sendInterested peer .done (.download .pop) peer
  | failed {peer point n} (hdownload : ∀ coroutine, point ≠ .download coroutine) (hreturned : point ≠ .returned) :
      Stage client point peer (.failed n) .returned peer

section
variable {client : TorrentClient} {point point' : Point} {peer peer' : TorrentPeer} {event : NetEvent}

theorem Stage.not_download (h : Stage client point peer event point' peer') (coroutine : Coroutine) :
    point ≠ .download coroutine := by
  cases h with
  | failed hdownload => exact hdownload coroutine
  | _ => simp

theorem Stage.session_none {x : PeerDownload} (h : Stage client x.point x.peer event point peer) : x.session = none := by
  cases hs : x.session with
  | none => rfl
  | some s => exact absurd (PeerDownload.session_some hs).1 (h.not_download _)

/-- The stages lead to the head of the download, and nowhere else into it. -/
theorem Stage.pop {x : PeerDownload} {s : Session} (h : Stage client point peer event x.point x.peer)
    (hs : x.session = some s) : s.coroutine = .pop := by
  obtain ⟨address, peerId, extensions, peer, point, written⟩ := x
  cases h with
  | interestedSent =>
    cases hs
    rfl
  | _ => cases hs

end

/-- What a step does to the pieces and to the connection. -/
inductive Advanced (client : TorrentClient) (p : PiecesToDownload) (x : PeerDownload) (event : NetEvent) :
    PiecesToDownload → PeerDownload → Prop where
  | stage {x'} (h : Stage client x.point x.peer event x'.point x'.peer) : Advanced client p x event p x'
  | download {coroutine e p' s x'} (hpoint : x.point = .download coroutine) (hevent : event.event = some e)
      (hstep : Session.step p ⟨x.peer, coroutine⟩ e = some (.ok (p', s)))
      (hx' : x'.session = some s) : Advanced client p x event p' x'

namespace PeerDownload
variable {endian : Endian} {client : TorrentClient} {p p' : PiecesToDownload} {x x' : PeerDownload} {event : NetEvent}

theorem downloadStep_ok {coroutine : Coroutine} {e : Event}
    (h : x.downloadStep p coroutine e = some (.ok (p', x'))) : ∃ s, Session.step p ⟨x.peer, coroutine⟩ e = some (.ok (p', s)) ∧
      x' = { x with peer := s.peer, point := .download s.coroutine } := by
  obtain ⟨r, hstep, h⟩ := Option.map_eq_some_iff.mp h
  cases r with
  | error e => cases h
  | ok r =>
    cases h
    exact ⟨_, hstep, rfl⟩

theorem resume_download {coroutine : Coroutine} (hpoint : x.point = .download coroutine) :
    x.resume client p event = event.event.bind (x.downloadStep p coroutine) := by
  obtain ⟨address, peerId, extensions, peer, point, written⟩ := x
  cases hpoint
  cases event <;> rfl

theorem resume_handshake {response : MessageHandshake.Buffer} (hpoint : x.point = .readHandshake) :
    x.resume client p (.handshake response) = some ((x.handshakeRead client response).map fun x => (p, x)) := by
  obtain ⟨address, peerId, extensions, peer, point, written⟩ := x
  cases hpoint
  rfl

theorem handshakeRead_ok {response : MessageHandshake.Buffer} (h : x.handshakeRead client response = .ok x') :
    (∃ m, MessageHandshake.accept response client.info_hash = .ok (.ok m) ∧
      x' = { x with peer_id := m.peer_id, extensions := m.reserved, point := .readBitfield }) ∨
    (∃ e, MessageHandshake.accept response client.info_hash = .ok (.error e) ∧ x' = { x with point := .returned }) := by
  rw [handshakeRead] at h
  cases haccept : MessageHandshake.accept response client.info_hash with
  | error fault =>
    rw [haccept] at h
    cases h
  | ok result =>
    rw [haccept] at h
    cases result with
    | error e =>
      cases h
      exact .inr ⟨e, rfl, rfl⟩
    | ok m =>
      cases h
      exact .inl ⟨m, rfl, rfl⟩

/-- Everything a step can do before bytes are written. -/
theorem resume_ok (h : x.resume client p event = some (.ok (p', x'))) : Advanced client p x event p' x' := by
  obtain ⟨address, peerId, extensions, peer, point, written⟩ := x
  cases point with
  | download coroutine =>
    rw [resume_download rfl] at h
    obtain ⟨e, hevent, h⟩ := Option.bind_eq_some_iff.mp h
    obtain ⟨s, hstep, rfl⟩ := downloadStep_ok h
    exact .download rfl hevent hstep rfl
  | connect =>
    cases event with
    | done =>
      cases h
      exact .stage .connected
    | failed n =>
      cases h
      exact .stage (.failed (by simp) (by simp))
    | run | handshake | message => cases h
  | writeHandshake =>
    cases event with
    | done =>
      cases h
      exact .stage .handshakeSent
    | failed n =>
      cases h
      exact .stage (.failed (by simp) (by simp))
    | run | handshake | message => cases h
  | readHandshake =>
    cases event with
    | handshake response =>
      rw [resume_handshake rfl] at h
      obtain ⟨y, hread, h⟩ := ok_of_map (Option.some.inj h)
      cases h
      rcases handshakeRead_ok hread with ⟨m, haccept, rfl⟩ | ⟨e, haccept, rfl⟩
      · exact .stage (.accepted haccept)
      · exact .stage (.refused haccept)
    | failed n =>
      cases h
      exact .stage (.failed (by simp) (by simp))
    | run | done | message => cases h
  | readBitfield =>
    cases event with
    | message m =>
      cases h
      cases m with
      | bitfield bitfield => exact .stage .bitfield
      | _ => exact .stage (.other (by simp))
    | failed n =>
      cases h
      exact .stage (.failed (by simp) (by simp))
    | run | done | handshake => cases h
  | sendUnchoke =>
    cases event with
    | done =>
      cases h
      exact .stage .unchokeSent
    | failed n =>
      cases h
      exact .stage (.failed (by simp) (by simp))
    | run | handshake | message => cases h
  | sendInterested =>
    cases event with
    | done =>
      cases h
      exact .stage .interestedSent
    | failed n =>
      cases h
      exact .stage (.failed (by simp) (by simp))
    | run | handshake | message => cases h
  | returned => cases event <;> cases h

/-- What a step leaves of a connection. Who the peer is is learnt from a handshake that is
    accepted, and from nothing else. -/
structure Keeps (client : TorrentClient) (x : PeerDownload) (event : NetEvent) (x' : PeerDownload) : Prop where
  address : x'.address = x.address
  ids : (x'.peer_id = x.peer_id ∧ x'.extensions = x.extensions ∧ x'.point ≠ .readBitfield) ∨
    ∃ response m, event = .handshake response ∧ MessageHandshake.accept response client.info_hash = .ok (.ok m) ∧
      x'.peer_id = m.peer_id ∧ x'.extensions = m.reserved

/-- The bytes that are written while the event happens come behind those that were written before. -/
theorem write_ok (h : x.write endian client event = .ok x') :
    x.buffer endian client = none ∧ x' = x ∨ ∃ buffer, x.buffer endian client = some (.ok buffer) ∧
      x' = { x with written := x.written ++ buffer.take (event.count buffer) } := by
  rw [write] at h
  cases hbuffer : x.buffer endian client with
  | none =>
    rw [hbuffer] at h
    cases h
    exact .inl ⟨rfl, rfl⟩
  | some buffer =>
    rw [hbuffer] at h
    cases buffer with
    | error e => cases h
    | ok buffer =>
      cases h
      exact .inr ⟨buffer, rfl, rfl⟩

theorem step_resume (h : x.step endian client p event = some (.ok (p', x'))) :
    ∃ y, x.write endian client event = .ok y ∧ y.resume client p event = some (.ok (p', x')) := by
  rw [step] at h
  cases hwrite : x.write endian client event with
  | error e =>
    rw [hwrite] at h
    cases h
  | ok y =>
    rw [hwrite] at h
    exact ⟨y, rfl, h⟩

/-- Everything a step can do. -/
theorem step_ok (h : x.step endian client p event = some (.ok (p', x'))) : Advanced client p x event p' x' := by
  obtain ⟨y, hwrite, h⟩ := step_resume h
  have hsame : y.point = x.point ∧ y.peer = x.peer := by
    rcases write_ok hwrite with ⟨-, rfl⟩ | ⟨buffer, -, rfl⟩ <;> exact ⟨rfl, rfl⟩
  cases resume_ok h with
  | stage h => exact .stage (hsame.1 ▸ hsame.2 ▸ h)
  | download hpoint hevent hstep hx' => exact .download (hsame.1 ▸ hpoint) hevent (hsame.2 ▸ hstep) hx'

/-! ### What can fail -/

/-- No writer fails: each has a buffer of the size of its message. -/
theorem buffer_ok {buffer : Except WriterAssertion (List UInt8)} (h : x.buffer endian client = some buffer) :
    ∃ bytes, buffer = .ok bytes := by
  obtain ⟨address, peerId, extensions, peer, point, written⟩ := x
  cases point with
  | writeHandshake =>
    cases h
    exact ⟨_, MessageHandshake.serializeDefault_eq _ _⟩
  | sendUnchoke =>
    cases h
    exact ⟨_, Outgoing.unchoke.serialize_eq⟩
  | sendInterested =>
    cases h
    exact ⟨_, Outgoing.interested.serialize_eq⟩
  | download coroutine =>
    cases coroutine with
    | sendRequest piece n b request =>
      cases h
      exact ⟨_, (Outgoing.request request).serialize_eq⟩
    | sendHave m =>
      cases h
      exact ⟨_, (Outgoing.have_ m).serialize_eq⟩
    | pop | popped | loop | readMessage | returned => cases h
  | connect | readHandshake | readBitfield | returned => cases h

theorem write_total (x : PeerDownload) (event : NetEvent) : ∃ written,
    x.write endian client event = .ok { x with written := x.written ++ written } := by
  rw [write]
  cases hbuffer : x.buffer endian client with
  | none => exact ⟨[], by rw [List.append_nil]⟩
  | some buffer =>
    obtain ⟨bytes, rfl⟩ := buffer_ok hbuffer
    exact ⟨_, rfl⟩

theorem handshakeRead_total (x : PeerDownload) (response : MessageHandshake.Buffer) :
    ∃ x', x.handshakeRead client response = .ok x' := by
  obtain ⟨result, hresult⟩ := MessageHandshake.accept_ne_fault response client.info_hash
  rw [handshakeRead, hresult]
  cases result <;> exact ⟨_, rfl⟩

/-- Only the download itself can end the program. -/
theorem step_error_iff {e : Abort} : x.step endian client p event = some (.error e) ↔ ∃ coroutine event' a,
    x.point = .download coroutine ∧ event.event = some event' ∧
      Session.step p ⟨x.peer, coroutine⟩ event' = some (.error a) ∧ e = .assertion a := by
  obtain ⟨written, hwrite⟩ := @write_total endian client x event
  rw [step, hwrite]
  constructor
  · intro h
    obtain ⟨address, peerId, extensions, peer, point, before⟩ := x
    cases point with
    | download coroutine =>
      obtain ⟨event', hevent, h⟩ := Option.bind_eq_some_iff.mp ((resume_download rfl).symm.trans h)
      obtain ⟨r, hstep, h⟩ := Option.map_eq_some_iff.mp h
      cases r with
      | ok => cases h
      | error a =>
        cases h
        exact ⟨coroutine, event', a, rfl, hevent, hstep, rfl⟩
    | readHandshake =>
      cases event with
      | handshake response =>
        obtain ⟨y, hy⟩ := @handshakeRead_total client
          ⟨address, peerId, extensions, peer, .readHandshake, before ++ written⟩ response
        dsimp only at h
        rw [resume_handshake rfl, hy] at h
        cases h
      | run | done | message | failed => cases h
    | connect | writeHandshake | readBitfield | sendUnchoke | sendInterested | returned => cases event <;> cases h
  · rintro ⟨coroutine, event', a, hpoint, hevent, hstep, rfl⟩
    have hresume : resume client p { x with written := x.written ++ written } event = _ := resume_download hpoint
    dsimp only
    rw [hresume, hevent, Option.bind_some, downloadStep, hstep]
    rfl

theorem step_total {r : Except Abort (PiecesToDownload × PeerDownload)} (h : x.step endian client p event = some r)
    (hdownload : ∀ s e r', x.session = some s → event.event = some e → s.step p e = some r' → ∃ a, r' = .ok a) :
    ∃ a, r = .ok a := by
  cases r with
  | ok a => exact ⟨a, rfl⟩
  | error e =>
    obtain ⟨coroutine, event', a, hpoint, hevent, hstep, -⟩ := step_error_iff.mp h
    obtain ⟨a', ha'⟩ := hdownload _ event' _ (by rw [session, hpoint]) hevent hstep
    cases ha'

end PeerDownload

end BittorrentClient
