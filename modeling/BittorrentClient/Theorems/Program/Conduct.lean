import BittorrentClient.Theorems.Program.Downloaded
import BittorrentClient.Theorems.Swarm.Dialogue

/-! How the program behaves to its peers, in every round and whatever they do: what it writes to a peer, and what it has
    heard from the peer before. -/

namespace BittorrentClient
open Interleaving Outcome PiecesToDownload

/-! ### What is written -/

namespace PeerDownload

/-- The handles that a connection holds. -/
def held (x : PeerDownload) : List Handle := (x.session.map Session.held).getD []

end PeerDownload

section
variable {endian : Endian} {client : TorrentClient} {p p' : PiecesToDownload} {x x' : PeerDownload} {event : NetEvent}
  {bytes : List UInt8}

/-- Whether the peer lets itself be asked, after what happened. -/
def NetEvent.told (unchocked : Bool) : NetEvent → Bool
  | .message .choke => false
  | .message .unchoke => true
  | _ => unchocked

variable {heard : List NetEvent}

end

section
variable {Url : Type} {endian : Endian} {client : TorrentClient} {urls : UrlParser Url} {system : Win32}
  {start : Downloads} {w : World Downloads Heard}

theorem heldBy_sessions (parties : List PeerDownload) : heldBy (sessions parties) = parties.flatMap PeerDownload.held := by
  induction parties with
  | nil => rfl
  | cons x parties ih =>
    rw [List.flatMap_cons, ← ih, PeerDownload.held, sessions, List.filterMap_cons]
    cases x.session <;> rfl

/-- What a connection holds, and the others, in the ledger of all. -/
theorem ledger_split {p : PiecesToDownload} {before after : List PeerDownload} {x : PeerDownload}
    (h : Ledger p (heldBy (sessions (before ++ x :: after)))) :
    Ledger p (x.held ++ (before ++ after).flatMap PeerDownload.held) := by
  rw [heldBy_sessions, List.flatMap_append, List.flatMap_cons] at h
  rw [List.flatMap_append]
  exact h.perm (List.perm_append_comm_assoc _ _ _)

theorem ledger_of_member {p : PiecesToDownload} {parties : List PeerDownload} {x : PeerDownload}
    (h : Ledger p (heldBy (sessions parties))) (hx : x ∈ parties) : ∃ others, Ledger p (x.held ++ others) := by
  obtain ⟨before, after, rfl⟩ := List.append_of_mem hx
  exact ⟨_, ledger_split h⟩

/-- A connection leaves alone what the others hold. -/
theorem Advanced.frame {p p' : PiecesToDownload} {x x' : PeerDownload} {event : NetEvent}
    (h : Advanced client p x event p' x') {others : List Handle} (hledger : Ledger p (x.held ++ others)) {piece : Handle}
    (hpiece : piece ∈ others) : p'.pieces.get? piece = p.pieces.get? piece := by
  cases h with
  | stage => rfl
  | download hpoint _ hstep =>
    obtain ⟨state, hstate⟩ := hledger.get? (List.mem_append_left _ (List.mem_append_right _ hpiece))
    rw [hstate]
    refine (step_ok hstep).frame hstate ?_
    intro hheld
    have hown : piece ∈ x.held := by
      rw [PeerDownload.held, PeerDownload.session, hpoint]
      exact hheld
    exact (List.nodup_append.mp (List.nodup_append.mp hledger.nodup).1).2.2 piece hown piece hpiece rfl

theorem Advanced.geometry {p p' : PiecesToDownload} {x x' : PeerDownload} {event : NetEvent}
    (h : Advanced client p x event p' x') : p'.geometry = p.geometry := by
  cases h with
  | stage => rfl
  | download _ _ hstep => exact (step_ok hstep).geometry

end

end BittorrentClient
