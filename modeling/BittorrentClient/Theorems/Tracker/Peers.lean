import BittorrentClient.Client.Peers
import BittorrentClient.Lib.Outcome

/-! The list of peers is the union of what the trackers returned, each address once. -/

namespace BittorrentClient
open SortUnique

/-! ### The comparisons -/

theorem PeerAddress.equal_iff (a b : PeerAddress) : a.equal b = true ↔ a = b := by
  cases a
  cases b
  simp [equal]

/-- The addresses compare as their words do, the first one before the second. -/
theorem PeerAddress.less_eq_false_iff {a b : PeerAddress} :
    less a b = false ↔ b.ipv4.toNat < a.ipv4.toNat ∨ (b.ipv4.toNat = a.ipv4.toNat ∧ b.port.toNat ≤ a.port.toNat) := by
  simp only [less, Bool.or_eq_false_iff, Bool.and_eq_false_iff, decide_eq_false_iff_not, Bool.not_eq_false',
    decide_eq_true_eq, UInt32.lt_iff_toNat_lt, UInt16.lt_iff_toNat_lt]
  omega

theorem PeerAddress.linear_less : Linear less where
  trans a b c := by
    simp only [less_eq_false_iff]
    omega
  total a b := by
    simp only [less_eq_false_iff]
    omega
  antisymm a b := by
    simp only [less_eq_false_iff]
    intro hba hab
    refine (equal_iff a b).mp ?_
    rw [equal, Bool.and_eq_true, beq_iff_eq, beq_iff_eq, ← UInt32.toNat_inj, ← UInt16.toNat_inj]
    omega

/-! ### The union -/

/-- The address is among those that some tracker returned in a successful response. -/
def Returned (calls : List TrackerCall) (peer : PeerAddress) : Prop :=
  ∃ call ∈ calls, call.request ≠ .monostate ∧ ∃ data, call.response = .ok (.onSuccess data) ∧ peer ∈ data.peers

theorem tryGetOnlyPeers_eq_ok_iff {response : TrackerResponse} {peers : List PeerAddress} :
    tryGetOnlyPeers response = .ok peers ↔ ∃ data, response = .onSuccess data ∧ data.peers = peers := by
  cases response with
  | monostate | onError => simp [tryGetOnlyPeers]
  | onSuccess data => simp [tryGetOnlyPeers]

/-- A tracker that is asked returns the peers of a successful response, and fails otherwise. -/
theorem TrackerCall.fetchOne_eq_ok_iff {call : TrackerCall} {peers : List PeerAddress} :
    call.fetchOne = .ok peers ↔
      call.request ≠ .monostate ∧ ∃ data, call.response = .ok (.onSuccess data) ∧ data.peers = peers := by
  obtain ⟨request, response⟩ := call
  have hasked : (response >>= tryGetOnlyPeers) = .ok peers ↔
      ∃ data, response = .ok (.onSuccess data) ∧ data.peers = peers := by
    cases response with
    | error e => simp [bind, Except.bind]
    | ok response => simp [Outcome.ok_bind, tryGetOnlyPeers_eq_ok_iff]
  cases request with
  | http | https | udp => simpa [fetchOne] using hasked
  | monostate => simp [fetchOne]

/-- What a call adds to the list. -/
def TrackerCall.peers (call : TrackerCall) : List PeerAddress := tryAddPeers [] call.fetchOne

theorem TrackerCall.mem_peers {call : TrackerCall} {peer : PeerAddress} :
    peer ∈ call.peers ↔
      call.request ≠ .monostate ∧ ∃ data, call.response = .ok (.onSuccess data) ∧ peer ∈ data.peers := by
  have hfetched : peer ∈ call.peers ↔ ∃ peers, call.fetchOne = .ok peers ∧ peer ∈ peers := by
    rw [peers]
    cases call.fetchOne with
    | error e => simp [tryAddPeers]
    | ok peers => simp [tryAddPeers]
  rw [hfetched]
  simp only [fetchOne_eq_ok_iff]
  constructor
  · rintro ⟨peers, ⟨hasked, data, hdata, rfl⟩, hpeer⟩
    exact ⟨hasked, data, hdata, hpeer⟩
  · rintro ⟨hasked, data, hdata, hpeer⟩
    exact ⟨data.peers, ⟨hasked, data, hdata, rfl⟩, hpeer⟩

theorem foldl_tryAddPeers (calls : List TrackerCall) (allPeers : List PeerAddress) :
    calls.foldl (fun allPeers call => tryAddPeers allPeers call.fetchOne) allPeers =
      allPeers ++ calls.flatMap TrackerCall.peers := by
  induction calls generalizing allPeers with
  | nil => simp
  | cons call calls ih =>
    have hcall : tryAddPeers allPeers call.fetchOne = allPeers ++ call.peers := by
      rw [TrackerCall.peers]
      cases call.fetchOne with
      | error e => simp [tryAddPeers]
      | ok peers => simp [tryAddPeers]
    rw [List.foldl_cons, ih, hcall, List.flatMap_cons, List.append_assoc]

theorem mem_flatMap_peers {calls : List TrackerCall} {peer : PeerAddress} :
    peer ∈ calls.flatMap TrackerCall.peers ↔ Returned calls peer := by
  rw [List.mem_flatMap, Returned]
  simp only [TrackerCall.mem_peers]

/-- The list is what is left of all peers together, unless nothing is. -/
theorem requestTorrentPeers_ok (sort : Sorter PeerAddress.less) (calls : List TrackerCall) :
    requestTorrentPeers sort (.ok calls) =
      if removeDuplicates sort (calls.flatMap TrackerCall.peers) = [] then .error .todo
      else .ok (removeDuplicates sort (calls.flatMap TrackerCall.peers)) := by
  show (if (removeDuplicates sort _).length > 0 then _ else _) = _
  rw [foldl_tryAddPeers, List.nil_append]
  by_cases hnil : removeDuplicates sort (calls.flatMap TrackerCall.peers) = []
  · rw [if_pos hnil, if_neg (by simp [hnil])]
    rfl
  · rw [if_neg hnil, if_pos (List.length_pos_iff.mpr hnil)]
    rfl

theorem mem_removeDuplicates {sort : Sorter PeerAddress.less} {calls : List TrackerCall} {peer : PeerAddress} :
    peer ∈ removeDuplicates sort (calls.flatMap TrackerCall.peers) ↔ Returned calls peer := by
  rw [removeDuplicates, PeerAddress.linear_less.mem_unique_run PeerAddress.equal_iff, mem_flatMap_peers]

/-- The list that is returned for the trackers: each address that one of them returned, once. -/
structure PeerUnion (calls : List TrackerCall) (result : Except RequestError (List PeerAddress)) : Prop where
  succeeds : (∃ peers, result = .ok peers) ↔ ∃ peer, Returned calls peer
  once : ∀ peers, result = .ok peers → peers.Nodup
  union : ∀ peers, result = .ok peers → ∀ peer, peer ∈ peers ↔ Returned calls peer

theorem peerUnion (sort : Sorter PeerAddress.less) (calls : List TrackerCall) :
    PeerUnion calls (requestTorrentPeers sort (.ok calls)) := by
  rw [requestTorrentPeers_ok]
  have hmem : ∀ {peer}, peer ∈ removeDuplicates sort (calls.flatMap TrackerCall.peers) ↔ Returned calls peer :=
    mem_removeDuplicates
  by_cases hnil : removeDuplicates sort (calls.flatMap TrackerCall.peers) = []
  · rw [if_pos hnil]
    refine ⟨⟨?_, ?_⟩, nofun, nofun⟩
    · rintro ⟨peers, h⟩
      cases h
    · rintro ⟨peer, h⟩
      rw [← hmem, hnil] at h
      cases h
  · rw [if_neg hnil]
    refine ⟨⟨?_, ?_⟩, ?_, ?_⟩
    · intro _
      obtain ⟨peer, hpeer⟩ := List.exists_mem_of_ne_nil _ hnil
      exact ⟨peer, hmem.mp hpeer⟩
    · intro _
      exact ⟨_, rfl⟩
    · rintro peers h
      cases h
      exact PeerAddress.linear_less.nodup_unique_run PeerAddress.equal_iff sort _
    · rintro peers h peer
      cases h
      exact hmem

theorem requestTorrentPeers_perm (sort sort' : Sorter PeerAddress.less) {calls calls' : List TrackerCall}
    (h : calls.Perm calls') : requestTorrentPeers sort (.ok calls) = requestTorrentPeers sort' (.ok calls') := by
  rw [requestTorrentPeers_ok, requestTorrentPeers_ok, removeDuplicates, removeDuplicates,
    PeerAddress.linear_less.run_eq sort sort' (h.flatMap_right TrackerCall.peers)]

/-- The list of peers is the union of what the trackers returned, and the same for all orders of the trackers. -/
theorem peers_merged (sort : Sorter PeerAddress.less) (calls : List TrackerCall) :
    PeerUnion calls (requestTorrentPeers sort (.ok calls)) ∧
      ∀ (sort' : Sorter PeerAddress.less) (calls' : List TrackerCall), calls'.Perm calls →
        requestTorrentPeers sort' (.ok calls') = requestTorrentPeers sort (.ok calls) := by
  refine ⟨peerUnion sort calls, ?_⟩
  intro sort' calls' h
  exact requestTorrentPeers_perm sort' sort h

/-- A tracker that answers, one that does not, and one that returns a peer of the first again. -/
def threeCalls : List TrackerCall := [
  ⟨.http {}, .ok (.onSuccess { peers := [⟨1, 6881⟩, ⟨2, 6881⟩] })⟩,
  ⟨.udp {}, .error .todo⟩,
  ⟨.https {}, .ok (.onSuccess { peers := [⟨2, 6881⟩, ⟨2, 80⟩] })⟩]

theorem peers_merged_threeCalls :
    PeerUnion threeCalls (requestTorrentPeers PeerAddress.linear_less.mergeSort (.ok threeCalls)) ∧
      requestTorrentPeers PeerAddress.linear_less.mergeSort (.ok threeCalls.reverse) =
        requestTorrentPeers PeerAddress.linear_less.mergeSort (.ok threeCalls) := by
  obtain ⟨hunion, hperm⟩ := peers_merged PeerAddress.linear_less.mergeSort threeCalls
  exact ⟨hunion, hperm _ _ (List.reverse_perm _)⟩

end BittorrentClient
