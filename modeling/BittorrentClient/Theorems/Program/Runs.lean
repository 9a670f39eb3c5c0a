import BittorrentClient.Client.Main
import BittorrentClient.Lib.Rounds
import BittorrentClient.Theorems.Program.Connection
import BittorrentClient.Theorems.Swarm.Buffers

/-! Runs of the program. The rounds of `main` with their connections are runs of the swarm, and the files have what was
    delivered. -/

namespace BittorrentClient
open Interleaving Outcome PiecesToDownload SortUnique

/-! ### The program -/

/-- What the trackers of the client may answer. -/
def TrackersAnswer {Url : Type} (client : TorrentClient) (urls : UrlParser Url) (info : Tracker.RequestInfo)
    (response : Except RequestError (List PeerAddress)) : Prop :=
  ∃ (sort : Sorter PeerAddress.less) (calls : Except RequestError (List TrackerCall)),
    calls.map (List.map TrackerCall.request) = client.buildTrackerRequests urls info ∧
      requestTorrentPeers sort calls = response

/-- The loop of `main`, with any trackers and any peers: each connection may be at any time where its coroutine can
    be. -/
def program {Url : Type} (endian : Endian) (client : TorrentClient) (urls : UrlParser Url) :
    Rounds.Rules Downloads PeerDownload where
  begins d d' new := d.unfinished ∧
    ∃ response, TrackersAnswer client urls d.request response ∧ d.beginRound response = .ok (d', new)
  acts d x d' x' := ∃ event, d.step endian client x event = some (.ok (d', x'))
  finished := PeerDownload.finished

section
variable {Url : Type} {endian : Endian} {client : TorrentClient} {urls : UrlParser Url} {system : Win32}
  {d d' start : Downloads} {x x' : PeerDownload} {event : NetEvent} {w : World Downloads PeerDownload}

theorem Downloads.step_ok (h : d.step endian client x event = some (.ok (d', x'))) : ∃ p disk,
    x.step endian client d.pieces event = some (.ok (p, x')) ∧
      d.disk.writePieces (p.new_pieces.drop d.pieces.new_pieces.length) = .ok disk ∧
        d' = { d with pieces := p, disk := disk, debug := d.debug.observe p x event } := by
  obtain ⟨r, hstep, h⟩ := Option.map_eq_some_iff.mp h
  cases r with
  | error e => cases h
  | ok r =>
    obtain ⟨p, y⟩ := r
    cases hdisk : d.disk.writePieces (p.new_pieces.drop d.pieces.new_pieces.length) with
    | error e => simp only [hdisk, reduceCtorEq] at h
    | ok disk =>
      simp only [hdisk, Except.ok.injEq, Prod.mk.injEq] at h
      obtain ⟨rfl, rfl⟩ := h
      exact ⟨p, disk, hstep, hdisk, rfl⟩

theorem MainAssertion.check_ok {cond : Prop} [Decidable cond] {assertion : MainAssertion} {u : Unit}
    (h : MainAssertion.check cond assertion = .ok u) : cond := by
  rw [MainAssertion.check] at h
  split at h
  · assumption
  · cases h

theorem Downloads.beginRound_ok {response : Except RequestError (List PeerAddress)} {new : List PeerDownload}
    (h : d.beginRound response = .ok (d', new)) : ∃ addresses, response = .ok addresses ∧ addresses ≠ [] ∧
      new = addresses.map (fun address => { address := address }) ∧
        d' = { d with debug := d.debug.onPeersListReceived addresses, requests := d.requests ++ [d.request] } := by
  obtain ⟨_, hpeers, h⟩ := bind_ok h
  have hpeers := MainAssertion.check_ok hpeers
  cases h
  cases response with
  | error e => exact absurd hpeers (Nat.lt_irrefl 0)
  | ok addresses => exact ⟨addresses, rfl, List.ne_nil_of_length_pos hpeers, rfl, rfl⟩

/-! ### Runs of the swarm -/

/-- A peer is not taken to have unchoked before it is asked for pieces. -/
def PeerDownload.StartsChoked (x : PeerDownload) : Prop := x.session = none → x.peer.unchocked = false

theorem startsChoked_step {p p' : PiecesToDownload} (h : Advanced client p x event p' x') (hx : x.StartsChoked) :
    x'.StartsChoked := by
  cases h with
  | stage h =>
    obtain ⟨address, peerId, extensions, peer, point, written⟩ := x
    obtain ⟨address', peerId', extensions', peer', point', written'⟩ := x'
    intro _
    cases h with
    | failed hdownload =>
      refine hx ?_
      cases point with
      | download coroutine => exact absurd rfl (hdownload coroutine)
      | _ => rfl
    | _ => exact hx rfl
  | download _ _ _ hx' =>
    intro hnone
    cases hnone.symm.trans hx'

theorem program_refines : Rounds.Refines (program endian client urls) swarm Downloads.pieces PeerDownload.session
    PeerDownload.StartsChoked where
  begins := by
    rintro d d' new ⟨-, response, -, hround⟩
    obtain ⟨addresses, -, -, rfl, rfl⟩ := Downloads.beginRound_ok hround
    exact ⟨rfl, List.forall_mem_map.mpr fun address _ => ⟨fun _ => rfl, rfl⟩⟩
  keeps := by
    rintro d x d' x' ⟨event, hact⟩ hx
    obtain ⟨p, disk, hstep, -, rfl⟩ := Downloads.step_ok hact
    exact startsChoked_step (PeerDownload.step_ok hstep) hx
  acts := by
    rintro d x d' x' ⟨event, hact⟩ hx
    obtain ⟨p, disk, hstep, -, rfl⟩ := Downloads.step_ok hact
    cases PeerDownload.step_ok hstep with
    | download hpoint _ hstep hx' =>
      refine .inl ⟨_, _, ?_, hx', _, hstep⟩
      rw [PeerDownload.session, hpoint]
    | stage h =>
      obtain ⟨address, peerId, extensions, peer, point, written⟩ := x
      obtain ⟨address', peerId', extensions', peer', point', written'⟩ := x'
      cases h with
      | interestedSent =>
        obtain ⟨bitfield, unchocked⟩ := peer
        obtain rfl : unchocked = false := hx rfl
        exact .inr (.inl ⟨_, rfl, rfl, ⟨bitfield, rfl⟩, rfl⟩)
      | failed hdownload =>
        refine .inr (.inr ⟨?_, rfl⟩)
        cases point with
        | download coroutine => exact absurd rfl (hdownload coroutine)
        | _ => rfl
      | _ => exact .inr (.inr ⟨rfl, rfl⟩)

/-- The sessions of the connections of a round. -/
def sessions (parties : List PeerDownload) : List Session := parties.filterMap PeerDownload.session

theorem held_of_finished {s : Session} (h : x.finished) (hs : x.session = some s) : s.held = [] := by
  rw [PeerDownload.session] at hs
  rcases h with h | h
  · rw [h] at hs
    cases hs
  · rw [h] at hs
    cases hs
    rfl

/-- What was set up for the torrent. -/
theorem initial_ok (h : Downloads.initial client system = .ok start) : ∃ list, FilesList.make client = .ok list ∧
    PiecesToDownload.initial client = .ok start.pieces ∧ start.pieces = start.pieces.geometry.pieces ∧
      start.disk = FilesOnDisk.make list system := by
  obtain ⟨list, hlist, h⟩ := bind_ok h
  obtain ⟨p, hp, h⟩ := bind_ok h
  cases h
  exact ⟨list, hlist, hp, initial_pieces hp, rfl⟩

/-- In every state of the program the pieces are as in a state of the swarm, with the sessions of the round and others
    that hold nothing. -/
theorem program_swarm (hstart : Downloads.initial client system = .ok start)
    (h : Rounds.Reachable (program endian client urls) start w) : ∃ all, (heldBy all).Perm (heldBy (sessions w.parties)) ∧
      Reachable swarm start.pieces.geometry.pieces ⟨w.shared.pieces, all⟩ := by
  obtain ⟨past, all, hpast, hperm, hreach⟩ := program_refines.interleaved h
  obtain ⟨-, -, -, hpieces, -⟩ := initial_ok hstart
  rw [hpieces] at hreach
  refine ⟨all, ?_, hreach⟩
  have hnone : heldBy past = [] := by
    refine List.flatMap_eq_nil_iff.mpr ?_
    intro s hs
    obtain ⟨x, hfinished, hx⟩ := hpast s hs
    exact held_of_finished hfinished hx
  have hheld := hperm.flatMap_right Session.held
  rw [List.flatMap_append, show past.flatMap Session.held = [] from hnone] at hheld
  exact hheld

/-- What is known of the pieces in every state of the program. -/
structure Kept (start : Downloads) (w : World Downloads PeerDownload) : Prop where
  ledger : Ledger w.shared.pieces (heldBy (sessions w.parties))
  geometry : w.shared.pieces.geometry = start.pieces.geometry

theorem program_kept (hstart : Downloads.initial client system = .ok start)
    (h : Rounds.Reachable (program endian client urls) start w) : Kept start w := by
  obtain ⟨all, hheld, hreach⟩ := program_swarm hstart h
  exact ⟨(swarm_ledger hreach).perm hheld, swarm_geometry hreach⟩

end

end BittorrentClient
