import BittorrentClient.Client.TrackerResponse
import BittorrentClient.Theorems.Tracker.Replies

/-! Compact peers: six bytes each, four of the address and two of the port. The loop over a view and the reader of a
    datagram find the same peers in the same bytes. -/

namespace BittorrentClient
open FlatMemory

/-- The bytes of an address in memory. -/
def PeerAddress.bytes (endian : Endian) (peer : PeerAddress) : List UInt8 :=
  endian.bytes peer.ipv4 ++ endian.bytes16 peer.port

section
variable (endian : Endian)

/-- The first `n` peers of a blob. -/
def compactPeers : Nat → List UInt8 → List PeerAddress
  | 0, _ => []
  | n + 1, blob => ⟨endian.ofBytes (blob.take 4), endian.ofBytes16 ((blob.drop 4).take 2)⟩ :: compactPeers n (blob.drop 6)

@[simp] theorem length_compactPeers (n : Nat) (blob : List UInt8) : (compactPeers endian n blob).length = n := by
  induction n generalizing blob with
  | zero => rfl
  | succ n ih => rw [compactPeers, List.length_cons, ih]

/-- The peers keep every byte of the blob. -/
theorem bytes_compactPeers {n : Nat} {blob : List UInt8} (h : blob.length = 6 * n) :
    ((compactPeers endian n blob).map (PeerAddress.bytes endian)).flatten = blob := by
  induction n generalizing blob with
  | zero => exact (List.length_eq_zero_iff.mp h).symm
  | succ n ih =>
    have haddress : (blob.take 4).length = 4 := by rw [List.length_take]; omega
    have hport : ((blob.drop 4).take 2).length = 2 := by rw [List.length_take, List.length_drop]; omega
    have hsplit : blob.take 4 ++ (blob.drop 4).take 2 ++ blob.drop 6 = blob := by
      have hdrop : (blob.drop 4).drop 2 = blob.drop 6 := List.drop_drop
      rw [List.append_assoc, ← hdrop, List.take_append_drop, List.take_append_drop]
    rw [compactPeers, List.map_cons, List.flatten_cons, ih (by rw [List.length_drop]; omega), PeerAddress.bytes,
      endian.bytes_ofBytes haddress, endian.bytes16_ofBytes16 hport, hsplit]

/-- Peers are read back from their bytes. -/
theorem compactPeers_bytes (peers : List PeerAddress) :
    compactPeers endian peers.length (peers.map (PeerAddress.bytes endian)).flatten = peers := by
  induction peers with
  | nil => rfl
  | cons peer peers ih =>
    have haddress : (endian.bytes peer.ipv4).length = 4 := endian.length_bytes peer.ipv4
    have hport : (endian.bytes16 peer.port).length = 2 := endian.length_bytes16 peer.port
    have hpeer : (PeerAddress.bytes endian peer).length = 6 := by
      rw [PeerAddress.bytes, List.length_append, haddress, hport]
    rw [List.map_cons, List.flatten_cons, List.length_cons, compactPeers, List.drop_left' hpeer, ih, PeerAddress.bytes,
      List.append_assoc, List.take_left' haddress, List.drop_left' haddress, List.take_left' hport, endian.ofBytes_bytes,
      endian.ofBytes16_bytes16]

theorem length_bytes_peers (peers : List PeerAddress) :
    (peers.map (PeerAddress.bytes endian)).flatten.length = 6 * peers.length := by
  induction peers with
  | nil => rfl
  | cons peer peers ih =>
    rw [List.map_cons, List.flatten_cons, List.length_append, ih, PeerAddress.bytes, List.length_append,
      endian.length_bytes, endian.length_bytes16, List.length_cons]
    omega

/-- The peers of a blob are the only ones with its bytes. -/
theorem bytes_peers_eq_iff {blob : List UInt8} (hmod : blob.length % 6 = 0) {peers : List PeerAddress} :
    (peers.map (PeerAddress.bytes endian)).flatten = blob ↔ peers = compactPeers endian (blob.length / 6) blob := by
  constructor
  · rintro rfl
    rw [length_bytes_peers, Nat.mul_div_cancel_left _ (by decide), compactPeers_bytes]
  · rintro rfl
    exact bytes_compactPeers endian (Nat.mul_div_cancel' (Nat.dvd_of_mod_eq_zero hmod)).symm

/-! ### Over HTTP -/

/-- The walk over whole addresses meets its end. -/
theorem TrackerResponse.readPackedPeers_eq (m : Memory) {n passes : Nat} (hn : 6 * n < 2 ^ 64) (hpasses : n < passes)
    (current : UInt64) : readPackedPeers m endian (current + UInt64.ofNat (6 * n)) current passes =
      .ok (compactPeers endian n (read m current (6 * n))) := by
  induction n generalizing passes current with
  | zero =>
    obtain ⟨passes, rfl⟩ := Nat.exists_eq_succ_of_ne_zero (Nat.ne_of_gt hpasses)
    rw [readPackedPeers, if_pos (by simp)]
    rfl
  | succ n ih =>
    obtain ⟨passes, rfl⟩ := Nat.exists_eq_succ_of_ne_zero (Nat.ne_of_gt (Nat.zero_lt_of_lt hpasses))
    have hmore : current ≠ current + UInt64.ofNat (6 * (n + 1)) := (add_ofNat_ne current (by omega) hn).symm
    have hnext : current + 4 + 2 = current + UInt64.ofNat 6 := by rw [UInt64.add_assoc]; rfl
    have hend : current + UInt64.ofNat (6 * (n + 1)) = current + 4 + 2 + UInt64.ofNat (6 * n) := by
      rw [hnext, ← add_ofNat_add]
      congr 2
      omega
    have hread : read m current (6 * (n + 1)) =
        read m current 4 ++ (read m (current + 4) 2 ++ read m (current + 4 + 2) (6 * n)) := by
      have h := read_add m current 4 (2 + 6 * n)
      rw [read_add m _ 2] at h
      rw [show 6 * (n + 1) = 4 + (2 + 6 * n) by omega]
      exact h
    have haddress : (read m current (6 * (n + 1))).take 4 = read m current 4 := by
      rw [hread, List.take_left' (length_read m current 4)]
    have hrest : (read m current (6 * (n + 1))).drop 4 = read m (current + 4) 2 ++ read m (current + 4 + 2) (6 * n) := by
      rw [hread, List.drop_left' (length_read m current 4)]
    have htail : (read m current (6 * (n + 1))).drop 6 = read m (current + 4 + 2) (6 * n) := by
      have hdrop : ((read m current (6 * (n + 1))).drop 4).drop 2 = (read m current (6 * (n + 1))).drop 6 := List.drop_drop
      rw [← hdrop, hrest, List.drop_left' (length_read m _ 2)]
    rw [readPackedPeers, if_neg hmore, hend, ih (by omega) (by omega), compactPeers, haddress, hrest, htail,
      List.take_left' (length_read m _ 2)]
    rfl

/-! ### Over UDP -/

/-- The reader over whole addresses reads them all. -/
theorem MessageUdpAnnounceResponse.readPeers_eq {n passes : Nat} (hpasses : n < passes) {data : List UInt8} {current : Nat}
    (h : data.length = current + 6 * n) :
    readPeers endian ⟨data, current, true⟩ passes = compactPeers endian n (data.drop current) := by
  induction n generalizing passes current with
  | zero =>
    obtain ⟨passes, rfl⟩ := Nat.exists_eq_succ_of_ne_zero (Nat.ne_of_gt hpasses)
    have hend : ¬((⟨data, current, true⟩ : BytesReader).valid = true ∧
        (⟨data, current, true⟩ : BytesReader).getRemaining ≠ some 0) := by
      simp [BytesReader.getRemaining, h]
    rw [readPeers, if_neg hend]
    rfl
  | succ n ih =>
    obtain ⟨passes, rfl⟩ := Nat.exists_eq_succ_of_ne_zero (Nat.ne_of_gt (Nat.zero_lt_of_lt hpasses))
    have hmore : (⟨data, current, true⟩ : BytesReader).valid = true ∧
        (⟨data, current, true⟩ : BytesReader).getRemaining ≠ some 0 := by
      refine ⟨rfl, ?_⟩
      simp only [BytesReader.getRemaining, ↓reduceIte, ne_eq, Option.some.injEq]
      omega
    have haddress : BytesReader.readData ⟨data, current, true⟩ 4 = _ := BytesReader.readData_of_le (by omega)
    have hport : BytesReader.readData ⟨data, current + 4, true⟩ 2 = _ := BytesReader.readData_of_le (by omega)
    rw [readPeers, if_pos hmore, haddress]
    simp only [hport]
    rw [ih (by omega) (by omega), compactPeers, List.drop_drop, List.drop_drop]

/-- The datagram of a header, whole addresses and whatever is behind them in the buffer. -/
theorem MessageUdpAnnounceResponse.parseNetwork_compact {header blob rest : List UInt8} {n : Nat}
    (hheader : header.length = kHeaderSize) (hn : 0 < n) (hblob : blob.length = 6 * n) :
    ∃ response, parseNetwork endian (header ++ blob ++ rest) (kHeaderSize + 6 * n) = .ok response ∧
      response.peers = compactPeers endian n blob := by
  have hle : kHeaderSize ≤ (header ++ blob ++ rest).length := by
    rw [List.length_append, List.length_append, hheader]
    omega
  obtain ⟨response, -, -, hpeers, hparse⟩ := exists_parseNetwork endian (kHeaderSize + 6 * n) hle
  have hbytes : ((header ++ blob ++ rest).drop kHeaderSize).take (kHeaderSize + 6 * n - kHeaderSize) = blob := by
    rw [Nat.add_sub_cancel_left, List.append_assoc, List.drop_left' hheader, List.take_left' hblob]
  have hmod : (kHeaderSize + 6 * n - kHeaderSize) % kAddressSize = 0 := by
    rw [Nat.add_sub_cancel_left]
    exact Nat.mul_mod_right 6 n
  have hne : blob ≠ [] := List.length_pos_iff.mp (by omega)
  refine ⟨response, ?_, ?_⟩
  · rw [hparse, if_neg (not_not_intro hmod)]
  · rw [hpeers, hbytes, BytesReader.make_of_ne_nil hne, readPeers_eq endian (n := n) (by omega) (by omega), List.drop_zero]

/-- A datagram whose addresses are not whole is rejected. -/
theorem MessageUdpAnnounceResponse.parseNetwork_torn {buffer : List UInt8} {read : Nat} (h : kHeaderSize ≤ buffer.length)
    (hmod : (read - kHeaderSize) % 6 ≠ 0) : parseNetwork endian buffer read = .error .todo := by
  obtain ⟨response, -, -, -, hparse⟩ := exists_parseNetwork endian read h
  exact hparse.trans (if_pos hmod)

end

end BittorrentClient
