import BittorrentClient.Client.Handshake
import BittorrentClient.Theorems.Bytes

/-! Which handshakes are accepted: the length of the second field is up to the first byte of the response, and the
    other fields lie behind it. -/

namespace BittorrentClient

/-- An array that is read has the slice of the buffer. -/
theorem BytesReader.exists_readArray {n : Nat} {buffer : List UInt8} {current : Nat}
    (h : current + n ≤ buffer.length) (data : Vector UInt8 n) :
    ∃ read : Vector UInt8 n, readArray ⟨buffer, current, true⟩ data = (read, ⟨buffer, current + n, true⟩) ∧
      read.toList = (buffer.drop current).take n := by
  have hlen : ((buffer.drop current).take n).length = n := by
    rw [List.length_take, List.length_drop]
    omega
  refine ⟨Vector.ofFn fun i => ((buffer.drop current).take n).getD i (data.get i), ?_, ?_⟩
  · rw [readArray, readData_of_le h]
    rfl
  · rw [Vector.toList_ofFn]
    refine List.ext_getElem ?_ ?_
    · rw [List.length_ofFn, hlen]
    · intro i hi hi'
      rw [List.getElem_ofFn, List.getD_eq_getElem _ _ hi']

namespace MessageHandshake
open BytesReader FlatMemory

/-- The calls of `ParseNetwork` for a first byte. -/
def fields (protocolLength : UInt8) : List Call :=
  [.readData 1, .consume protocolLength.toNat, .readData 8, .readData sizeofSHA1Bytes, .readData 20]

/-- The bytes of a handshake. -/
def layout (reserved : ExtensionsBuffer) (infoHash : SHA1Bytes) (peerId : PeerId) : List UInt8 :=
  [19] ++ (ascii "BitTorrent protocol" ++ (reserved.toList ++ (infoHash.toList ++ peerId.toList)))

/-- The message that is parsed from them. -/
def ofLayout (reserved : ExtensionsBuffer) (infoHash : SHA1Bytes) (peerId : PeerId) : MessageHandshake where
  protocol_length := 19
  pstr := some 1
  reserved := reserved
  info_hash := infoHash
  peer_id := peerId

section
variable {buffer : Buffer} {b : UInt8} {rest : List UInt8}

theorem length_buffer (buffer : Buffer) : buffer.toList.length = 68 := by
  rw [Vector.length_toList, kSize_eq]

theorem make_buffer (buffer : Buffer) : make buffer.toList = ⟨buffer.toList, 0, true⟩ := by
  refine make_of_ne_nil ?_
  rw [← List.length_pos_iff, length_buffer]
  decide

theorem readData_first (h : buffer.toList = b :: rest) :
    (make buffer.toList).readData 1 = (some [b], ⟨buffer.toList, 1, true⟩) := by
  have hsize : 0 + 1 ≤ buffer.toList.length := by
    rw [length_buffer]
    decide
  rw [make_buffer, readData_of_le hsize, h]
  rfl

theorem readFields_protocolLength (h : buffer.toList = b :: rest) : (readFields buffer).1.protocol_length = b := by
  rw [readFields, readData_first h]
  rfl

/-- The reader goes through the calls of the first byte. -/
theorem readFields_reader (h : buffer.toList = b :: rest) :
    (readFields buffer).2 = ((make buffer.toList).calls (fields b)).2 := by
  have hcalls : (readFields buffer).2 = ((make buffer.toList).calls (fields (readFields buffer).1.protocol_length)).2 :=
    rfl
  rw [hcalls, readFields_protocolLength h]

/-- The buffer is read to its end for one first byte only. -/
theorem finalize_readFields_iff (h : buffer.toList = b :: rest) : (readFields buffer).2.finalize = true ↔ b = 19 := by
  have htotal : total (fields b) = 1 + (b.toNat + (8 + (20 + (20 + 0)))) := rfl
  rw [readFields_reader h, make_buffer, finalize_calls_iff (Nat.zero_le _), htotal, length_buffer, ← UInt8.toNat_inj]
  show _ ↔ b.toNat = 19
  omega

theorem accept_of_ne (h : buffer.toList = b :: rest) (hb : b ≠ 19) (infoHash : SHA1Bytes) :
    accept buffer infoHash = .ok (.error .todo) := by
  have hparse : parseNetwork buffer = .error .todo := by
    rw [parseNetwork]
    exact if_neg (mt (finalize_readFields_iff h).mp hb)
  rw [accept, hparse]

/-- The variable-length read ends inside the buffer, whatever the first byte is. -/
theorem pstr_inside (h : buffer.toList = b :: rest) {offset : Nat} (hpstr : (readFields buffer).1.pstr = some offset) :
    offset + b.toNat ≤ buffer.toList.length := by
  have hconsume : (readFields buffer).1.pstr = (consume ⟨buffer.toList, 1, true⟩ b.toNat).1.or none := by
    rw [readFields, readData_first h]
    rfl
  rw [hconsume, Option.or_none] at hpstr
  rcases Nat.lt_or_ge (buffer.toList.length - 1) b.toNat with hlt | hle
  · rw [consume_eq, readData_of_lt hlt] at hpstr
    cases hpstr
  · have hsize : 1 + b.toNat ≤ buffer.toList.length := by
      rw [length_buffer] at hle ⊢
      omega
    rw [consume_eq, readData_of_le hsize] at hpstr
    cases hpstr
    exact hsize

/-- Behind a protocol of the right length the fields are where they should be. -/
theorem exists_readFields (h : buffer.toList = 19 :: rest) : ∃ reserved infoHash peerId,
    readFields buffer = (ofLayout reserved infoHash peerId, ⟨buffer.toList, 68, true⟩) ∧
      reserved.toList = (buffer.toList.drop 20).take 8 ∧ infoHash.toList = (buffer.toList.drop 28).take 20 ∧
      peerId.toList = (buffer.toList.drop 48).take 20 := by
  have hlen := length_buffer buffer
  have hconsume : consume ⟨buffer.toList, 1, true⟩ 19 = (some 1, ⟨buffer.toList, 20, true⟩) := by
    rw [consume_eq, readData_of_le (by omega)]
    rfl
  obtain ⟨reserved, hreserved, hreservedBytes⟩ : ∃ read, readArray ⟨buffer.toList, 20, true⟩ (Vector.replicate 8 0) =
      (read, ⟨buffer.toList, 28, true⟩) ∧ read.toList = (buffer.toList.drop 20).take 8 :=
    exists_readArray (by omega) _
  obtain ⟨infoHash, hinfoHash, hinfoHashBytes⟩ : ∃ read, readArray ⟨buffer.toList, 28, true⟩
      (Vector.replicate sizeofSHA1Bytes 0) = (read, ⟨buffer.toList, 48, true⟩) ∧
        read.toList = (buffer.toList.drop 28).take 20 :=
    exists_readArray (show 28 + 20 ≤ _ by omega) _
  obtain ⟨peerId, hpeerId, hpeerIdBytes⟩ : ∃ read, readArray ⟨buffer.toList, 48, true⟩ (Vector.replicate 20 0) =
      (read, ⟨buffer.toList, 68, true⟩) ∧ read.toList = (buffer.toList.drop 48).take 20 :=
    exists_readArray (by omega) _
  refine ⟨reserved, infoHash, peerId, ?_, hreservedBytes, hinfoHashBytes, hpeerIdBytes⟩
  have hprotocol : UInt8.toNat 19 = 19 := rfl
  simp only [readFields, readData_first h, Option.getD_some, List.headD_cons, hprotocol, hconsume, hreserved, hinfoHash,
    hpeerId]
  rfl

theorem drop_eq_append (l : List UInt8) (i n : Nat) : l.drop i = (l.drop i).take n ++ l.drop (i + n) := by
  rw [← List.drop_drop, List.take_append_drop]

/-- A buffer has the layout when each of its slices is the field that belongs there. -/
theorem toList_eq_layout_iff {reserved : ExtensionsBuffer} {infoHash : SHA1Bytes} {peerId : PeerId} :
    buffer.toList = layout reserved infoHash peerId ↔ buffer.toList.take 1 = [19] ∧
      (buffer.toList.drop 1).take 19 = ascii "BitTorrent protocol" ∧ (buffer.toList.drop 20).take 8 = reserved.toList ∧
      (buffer.toList.drop 28).take 20 = infoHash.toList ∧ (buffer.toList.drop 48).take 20 = peerId.toList := by
  have hlen := length_buffer buffer
  generalize buffer.toList = l at hlen
  have hslices : l = l.take 1 ++ ((l.drop 1).take 19 ++ ((l.drop 20).take 8 ++ ((l.drop 28).take 20 ++
      (l.drop 48).take 20))) := by
    have hend : (l.drop 48).take 20 = l.drop 48 := List.take_of_length_le (by rw [List.length_drop, hlen])
    rw [hend, ← drop_eq_append l 28 20, ← drop_eq_append l 20 8, ← drop_eq_append l 1 19, List.take_append_drop]
  constructor
  · intro h
    rw [hslices] at h
    have hlength (i n : Nat) : ((l.drop i).take n).length = min n (68 - i) := by
      rw [List.length_take, List.length_drop, hlen]
    obtain ⟨hfirst, h⟩ := List.append_inj h (by rw [List.length_take, hlen]; rfl)
    obtain ⟨hprotocol, h⟩ := List.append_inj h (hlength 1 19)
    obtain ⟨hreserved, h⟩ := List.append_inj h ((hlength 20 8).trans (Vector.length_toList).symm)
    obtain ⟨hinfoHash, hpeerId⟩ := List.append_inj h ((hlength 28 20).trans (Vector.length_toList).symm)
    exact ⟨hfirst, hprotocol, hreserved, hinfoHash, hpeerId⟩
  · rintro ⟨hfirst, hprotocol, hreserved, hinfoHash, hpeerId⟩
    rw [hslices, hfirst, hprotocol, hreserved, hinfoHash, hpeerId]
    rfl

theorem parseNetwork_of_read {m : MessageHandshake} (h : readFields buffer = (m, ⟨buffer.toList, 68, true⟩)) :
    parseNetwork buffer = .ok m := by
  have hend : finalize ⟨buffer.toList, 68, true⟩ = true := by
    rw [finalize, length_buffer]
    rfl
  rw [parseNetwork, h]
  exact if_pos hend

/-- The protocol is compared inside the buffer, and then the info hash. -/
theorem isValidHandshakeResponse_ofLayout (buffer : Buffer) (reserved : ExtensionsBuffer) (infoHash' : SHA1Bytes)
    (peerId : PeerId) (infoHash : SHA1Bytes) :
    isValidHandshakeResponse buffer (ofLayout reserved infoHash' peerId) infoHash =
      .ok ((buffer.toList.drop 1).take 19 == ascii "BitTorrent protocol" && infoHash' == infoHash) := by
  have hsame : sameBytes buffer.toList (some 1) kProtocol 19 =
      .ok ((buffer.toList.drop 1).take 19 == ascii "BitTorrent protocol") := by
    have hinside : 1 + 19 ≤ buffer.toList.length ∧ 19 ≤ kProtocol.length := by
      rw [length_buffer]
      decide
    exact if_pos hinside
  have hsize : (ofLayout reserved infoHash' peerId).protocol_length.toNat = sizeNoNull kProtocol := rfl
  rw [isValidHandshakeResponse, if_pos hsize]
  show (do if ← sameBytes buffer.toList (some 1) kProtocol 19 then return infoHash' == infoHash else return false) = _
  rw [hsame]
  cases (buffer.toList.drop 1).take 19 == ascii "BitTorrent protocol" <;> rfl

/-- Behind the right first byte, the protocol and the info hash decide. -/
theorem accept_of_first (h : buffer.toList = 19 :: rest) (infoHash : SHA1Bytes) : ∃ reserved infoHash' peerId,
    reserved.toList = (buffer.toList.drop 20).take 8 ∧ infoHash'.toList = (buffer.toList.drop 28).take 20 ∧
      peerId.toList = (buffer.toList.drop 48).take 20 ∧ accept buffer infoHash =
        .ok (if (buffer.toList.drop 1).take 19 == ascii "BitTorrent protocol" && infoHash' == infoHash then
          .ok (ofLayout reserved infoHash' peerId) else .error .todo) := by
  obtain ⟨reserved, infoHash', peerId, hread, hreserved, hinfoHash, hpeerId⟩ := exists_readFields h
  refine ⟨reserved, infoHash', peerId, hreserved, hinfoHash, hpeerId, ?_⟩
  rw [accept, parseNetwork_of_read hread]
  show (do if ← isValidHandshakeResponse buffer (ofLayout reserved infoHash' peerId) infoHash then _ else _) = _
  rw [isValidHandshakeResponse_ofLayout]
  cases (buffer.toList.drop 1).take 19 == ascii "BitTorrent protocol" && infoHash' == infoHash <;> rfl

end

theorem exists_toList_eq (buffer : Buffer) : ∃ b rest, buffer.toList = b :: rest := by
  refine List.exists_cons_of_ne_nil ?_
  rw [← List.length_pos_iff, length_buffer]
  decide

theorem accept_ne_fault (buffer : Buffer) (infoHash : SHA1Bytes) : ∃ result, accept buffer infoHash = .ok result := by
  obtain ⟨b, rest, hbuffer⟩ := exists_toList_eq buffer
  by_cases hb : b = 19
  · subst hb
    obtain ⟨reserved, infoHash', peerId, -, -, -, haccept⟩ := accept_of_first hbuffer infoHash
    exact ⟨_, haccept⟩
  · exact ⟨_, accept_of_ne hbuffer hb infoHash⟩

theorem accept_iff {buffer : Buffer} {infoHash : SHA1Bytes} {m : MessageHandshake} :
    accept buffer infoHash = .ok (.ok m) ↔
      ∃ reserved peerId, buffer.toList = layout reserved infoHash peerId ∧ m = ofLayout reserved infoHash peerId := by
  obtain ⟨b, rest, hbuffer⟩ := exists_toList_eq buffer
  by_cases hb : b = 19
  · subst hb
    obtain ⟨reserved, infoHash', peerId, hreserved, hinfoHash, hpeerId, haccept⟩ := accept_of_first hbuffer infoHash
    rw [haccept]
    constructor
    · intro h
      split at h
      · rename_i hvalid
        rw [Bool.and_eq_true, beq_iff_eq, beq_iff_eq] at hvalid
        obtain ⟨hprotocol, rfl⟩ := hvalid
        cases h
        refine ⟨reserved, peerId, toList_eq_layout_iff.mpr ⟨?_, hprotocol, hreserved.symm, hinfoHash.symm,
          hpeerId.symm⟩, rfl⟩
        rw [hbuffer]
        rfl
      · cases h
    · rintro ⟨reserved₁, peerId₁, hlayout, rfl⟩
      obtain ⟨-, hprotocol, hreserved₁, hinfoHash₁, hpeerId₁⟩ := toList_eq_layout_iff.mp hlayout
      obtain rfl : reserved = reserved₁ := Vector.toList_inj.mp (hreserved.trans hreserved₁)
      obtain rfl : infoHash' = infoHash := Vector.toList_inj.mp (hinfoHash.trans hinfoHash₁)
      obtain rfl : peerId = peerId₁ := Vector.toList_inj.mp (hpeerId.trans hpeerId₁)
      rw [hprotocol, beq_self_eq_true, beq_self_eq_true]
      rfl
  · rw [accept_of_ne hbuffer hb]
    constructor
    · intro h
      cases h
    · rintro ⟨reserved, peerId, hlayout, -⟩
      rw [hbuffer] at hlayout
      exact absurd (List.cons.inj hlayout).1 hb

theorem length_layout (reserved : ExtensionsBuffer) (infoHash : SHA1Bytes) (peerId : PeerId) :
    (layout reserved infoHash peerId).length = kSize := by
  have hprotocol : (ascii "BitTorrent protocol").length = 19 := rfl
  simp only [layout, List.length_append, Vector.length_toList, hprotocol]
  rfl

/-- A handshake that is sent has the layout, without extensions. -/
theorem serializeDefault_eq (infoHash : SHA1Bytes) (clientId : PeerId) :
    serializeDefault infoHash clientId = .ok (layout (Vector.replicate _ 0) infoHash clientId) := by
  have hflat : layout (Vector.replicate _ 0) infoHash clientId = [[UInt8.ofNat (sizeNoNull kProtocol)],
      kProtocol.take (sizeNoNull kProtocol), (Vector.replicate 8 0).toList, infoHash.toList, clientId.toList].flatten := by
    simp only [List.flatten_cons, List.flatten_nil, List.append_nil]
    rfl
  have hlength := length_layout (Vector.replicate _ 0) infoHash clientId
  rw [hflat] at hlength ⊢
  exact BytesWriter.writeAll_make hlength

/-- What is done with the responses for an info hash: one is accepted exactly when it has the layout with that hash, and
    then its other parts are the fields; no access leaves the buffer, however many bytes the first one asks for, and
    only one first byte is not rejected. What is sent is accepted, with the client's id and without extensions. -/
structure AcceptsExactly (infoHash : SHA1Bytes) : Prop where
  accepted : ∀ buffer m, accept buffer infoHash = .ok (.ok m) ↔
    ∃ reserved peerId, buffer.toList = layout reserved infoHash peerId ∧ m = ofLayout reserved infoHash peerId
  noFault : ∀ buffer, ∃ result, accept buffer infoHash = .ok result
  inside : ∀ buffer offset, (readFields buffer).1.pstr = some offset →
    offset + (readFields buffer).1.protocol_length.toNat ≤ kSize
  rejected : ∀ buffer : Buffer, buffer.toList.head? ≠ some 19 → accept buffer infoHash = .ok (.error .todo)
  serialized : ∀ clientId, ∃ buffer, serializeDefault infoHash clientId = .ok buffer.toList ∧
    accept buffer infoHash = .ok (.ok (ofLayout (Vector.replicate _ 0) infoHash clientId))

theorem acceptsExactly (infoHash : SHA1Bytes) : AcceptsExactly infoHash := by
  refine ⟨fun buffer m => accept_iff, fun buffer => accept_ne_fault buffer infoHash, ?_, ?_, ?_⟩
  · intro buffer offset hpstr
    obtain ⟨b, rest, hbuffer⟩ := exists_toList_eq buffer
    have hinside := pstr_inside hbuffer hpstr
    rwa [readFields_protocolLength hbuffer, kSize_eq, ← length_buffer buffer]
  · intro buffer hfirst
    obtain ⟨b, rest, hbuffer⟩ := exists_toList_eq buffer
    rw [hbuffer, List.head?_cons] at hfirst
    exact accept_of_ne hbuffer (mt (congrArg some) hfirst) infoHash
  · intro clientId
    have hlength := length_layout (Vector.replicate _ 0) infoHash clientId
    refine ⟨⟨(layout (Vector.replicate _ 0) infoHash clientId).toArray, hlength⟩, ?_, ?_⟩
    · exact serializeDefault_eq infoHash clientId
    · exact accept_iff.mpr ⟨Vector.replicate _ 0, clientId, rfl, rfl⟩

end MessageHandshake

end BittorrentClient
