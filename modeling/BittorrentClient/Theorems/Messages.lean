import BittorrentClient.Client.Messages
import BittorrentClient.Lib.Outcome

/-! The messages the client writes, and what the reader makes of them: the length prefix that is written
    counts its own four bytes, the reader takes it as the length of what follows. -/

namespace BittorrentClient
open Outcome

/-! ### Framing -/

section
variable {endian : Endian}

theorem asyncRead_append {size : Nat} {bytes rest : List UInt8} (h : bytes.length = size) :
    asyncRead size (bytes ++ rest) = (.ok bytes, rest) := by
  rw [asyncRead, if_pos (by rw [List.length_append]; omega), List.take_left' h, List.drop_left' h]

/-- The reader takes as many bytes behind the prefix as the prefix says, or it finds the end of the stream. -/
theorem readAnyMessage_length (n : UInt32) (rest : List UInt8) :
    readAnyMessage endian (endian.bytes (endian.nativeToBig n) ++ rest) =
      if n = 0 then (.ok .keepAlive, rest)
      else if n.toNat ≤ rest.length then
        (makeMessage endian ((rest.take n.toNat).headD 0) (rest.take n.toNat), rest.drop n.toNat)
      else (.error .endOfStream, []) := by
  rw [readAnyMessage, asyncRead_append (Endian.length_bytes endian _)]
  simp only [Endian.ofBytes_bytes, Endian.bigToNative_nativeToBig]
  split
  · rfl
  · by_cases hlen : n.toNat ≤ rest.length
    · rw [asyncRead, if_pos hlen, if_pos hlen]
    · rw [asyncRead, if_neg hlen, if_neg hlen]

/-- A message that is read from behind a prefix takes the four bytes of the prefix and as many as it says. -/
theorem length_of_readAnyMessage {n : UInt32} {rest left : List UInt8} {m : AnyMessage}
    (h : readAnyMessage endian (endian.bytes (endian.nativeToBig n) ++ rest) = (.ok m, left)) :
    left.length + n.toNat = rest.length := by
  rw [readAnyMessage_length] at h
  split at h
  · rename_i hzero
    rw [← (Prod.mk.inj h).2, hzero]
    rfl
  · split at h
    · rename_i hlen
      rw [← (Prod.mk.inj h).2, List.length_drop]
      omega
    · cases (Prod.mk.inj h).1

end

/-! ### What the client writes -/

/-- The messages that the client sends after the handshake. -/
inductive Outgoing where
  | choke | unchoke | interested | notInterested
  | have_ (m : MessageHave)
  | request (m : MessageRequest)
  deriving DecidableEq, Repr

namespace Outgoing
variable (endian : Endian)

def serialize : Outgoing → Except WriterAssertion (List UInt8)
  | choke => serializeNoPayload endian PeerMessageId.choke
  | unchoke => serializeNoPayload endian PeerMessageId.unchoke
  | interested => serializeNoPayload endian PeerMessageId.interested
  | notInterested => serializeNoPayload endian PeerMessageId.notInterested
  | have_ m => m.serialize endian
  | request m => m.serialize endian

/-- The message as the reader should return it. -/
def any : Outgoing → AnyMessage
  | choke => .choke
  | unchoke => .unchoke
  | interested => .interested
  | notInterested => .notInterested
  | have_ m => .have_ m
  | request m => .request m

/-- The length that is written in front: the size of the whole buffer. -/
def kSize : Outgoing → UInt32
  | have_ _ => MessageHave.kSize
  | request _ => MessageRequest.kSize
  | _ => kSizeNoPayload

/-- What is written behind the length. -/
def body : Outgoing → List UInt8
  | choke => [PeerMessageId.choke]
  | unchoke => [PeerMessageId.unchoke]
  | interested => [PeerMessageId.interested]
  | notInterested => [PeerMessageId.notInterested]
  | have_ m => PeerMessageId.have_ :: endian.bytes (endian.nativeToBig m.piece_index)
  | request m => PeerMessageId.request :: (endian.bytes (endian.nativeToBig m.piece_index) ++
      (endian.bytes (endian.nativeToBig m.offset) ++ endian.bytes (endian.nativeToBig m.length)))

variable {endian}

theorem length_body (m : Outgoing) : (m.body endian).length + 4 = m.kSize.toNat := by
  cases m <;> simp only [body, List.length_cons, List.length_append, List.length_nil, Endian.length_bytes] <;> rfl

/-- A message is the length of its buffer, and then the rest of it. -/
theorem serialize_eq (m : Outgoing) :
    m.serialize endian = .ok (endian.bytes (endian.nativeToBig m.kSize) ++ m.body endian) := by
  cases m
  all_goals
    refine (BytesWriter.writeAll_make ?_).trans ?_
    · simp only [List.flatten_cons, List.flatten_nil, List.append_nil, List.length_append, Endian.length_bytes,
        List.length_singleton]
      rfl
    · simp only [List.flatten_cons, List.flatten_nil, List.append_nil, kSize, body, List.cons_append, List.nil_append]

end Outgoing

/-! ### Round trips -/

section
variable (endian : Endian)

/-- The calls of the reader return the messages, each for exactly the bytes of its buffer, and leave none. -/
def ReadBack : List (Outgoing × List UInt8) → List UInt8 → Prop
  | [], stream => stream = []
  | (m, buffer) :: sent, stream =>
    ∃ rest, stream = buffer ++ rest ∧ readAnyMessage endian stream = (.ok m.any, rest) ∧ ReadBack sent rest

/-- What the client writes for the messages is read back as the messages. -/
def RoundTrips (msgs : List Outgoing) : Prop :=
  ∃ buffers, msgs.mapM (Outgoing.serialize endian) = .ok buffers ∧ ReadBack endian (msgs.zip buffers) buffers.flatten

/-- No message that is written comes back: the reader takes four bytes more than the message has, from the
    message behind it or beyond the end of the stream. -/
theorem roundTrips_iff (msgs : List Outgoing) : RoundTrips endian msgs ↔ msgs = [] := by
  constructor
  · rintro ⟨buffers, hbuffers, hback⟩
    cases msgs with
    | nil => rfl
    | cons m msgs =>
      exfalso
      rw [List.mapM_cons, Outgoing.serialize_eq] at hbuffers
      obtain ⟨buffer, hbuffer, hbuffers⟩ := bind_ok hbuffers
      obtain ⟨tail, -, hbuffers⟩ := bind_ok hbuffers
      cases hbuffer
      cases hbuffers
      obtain ⟨rest, hstream, hread, -⟩ := hback
      have hlength := hstream ▸ hread
      rw [List.append_assoc] at hlength
      have hlong := length_of_readAnyMessage hlength
      have hbody : (m.body endian).length + 4 = m.kSize.toNat := m.length_body
      rw [List.length_append] at hlong
      omega
  · rintro rfl
    exact ⟨[], rfl, rfl⟩

/-- A Choke on its own: the reader waits for five bytes behind the prefix, and there is one. -/
theorem not_roundTrips_choke : ¬RoundTrips .little [.choke] := by
  rintro ⟨buffers, hbuffers, hback⟩
  have hchoke : buffers = [[0, 0, 0, 5, 0]] := by
    rw [show [Outgoing.choke].mapM (Outgoing.serialize .little) = .ok [[0, 0, 0, 5, 0]] from by decide] at hbuffers
    exact (Except.ok.inj hbuffers).symm
  subst hchoke
  obtain ⟨rest, -, hread, -⟩ := hback
  have heof : readAnyMessage .little [0, 0, 0, 5, 0] = (.error .endOfStream, []) := by decide
  cases (Prod.mk.inj (heof.symm.trans hread)).1

end

end BittorrentClient
