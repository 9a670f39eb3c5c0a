import BittorrentClient.Client.Messages
import BittorrentClient.Client.Torrent

/-! The handshake with a peer (torrent_messages.cpp, torrent_client.cpp): how it is serialized and parsed, and which
    response `TorrentPeer::start` accepts. -/

namespace BittorrentClient
open FlatMemory

/-- `read` of an array: the bytes that are copied out lie over the old ones. -/
def BytesReader.readArray {n : Nat} (r : BytesReader) (data : Vector UInt8 n) : Vector UInt8 n × BytesReader :=
  (Vector.ofFn fun i => ((r.readData n).1.getD []).getD i (data.get i), (r.readData n).2)

/-- `Buffer<8, Extensions_>`. -/
abbrev ExtensionsBuffer := Vector UInt8 8

structure MessageHandshake where
  protocol_length : UInt8 := 0
  /-- The offset that `pstr_` points to, in the buffer that is parsed. -/
  pstr : Option Nat := none
  reserved : ExtensionsBuffer := Vector.replicate _ 0
  info_hash : SHA1Bytes := Vector.replicate _ 0
  peer_id : PeerId := Vector.replicate _ 0
  deriving DecidableEq, Repr

namespace MessageHandshake

/-- `k_protocol`, with the null at its end. -/
def kProtocol : List UInt8 := ascii "BitTorrent protocol" ++ [0]

def sizeNoNull (str : List UInt8) : Nat := str.length - 1

def kSize : Nat := 1 + sizeNoNull kProtocol + 8 + sizeofSHA1Bytes + 20

theorem kSize_eq : kSize = 68 := rfl

abbrev Buffer := Vector UInt8 kSize

def serializeDefault (infoHash : SHA1Bytes) (clientId : PeerId) : Except WriterAssertion (List UInt8) :=
  let reserved : ExtensionsBuffer := Vector.replicate _ 0
  (BytesWriter.make (List.replicate kSize 0)).writeAll
    [[UInt8.ofNat (sizeNoNull kProtocol)], kProtocol.take (sizeNoNull kProtocol), reserved.toList, infoHash.toList,
      clientId.toList]

/-- The reads of `ParseNetwork`: the message with what they leave in it, and the reader behind them. -/
def readFields (buffer : Buffer) : MessageHandshake × BytesReader :=
  let m : MessageHandshake := {}
  let (length, reader) := (BytesReader.make buffer.toList).readData 1
  let protocolLength := (length.getD []).headD m.protocol_length
  -- How many are skipped is up to the first byte.
  let (pstr, reader) := reader.consume protocolLength.toNat
  let (reserved, reader) := reader.readArray m.reserved
  let (infoHash, reader) := reader.readArray m.info_hash
  let (peerId, reader) := reader.readArray m.peer_id
  ({ protocol_length := protocolLength, pstr := pstr.or m.pstr, reserved := reserved, info_hash := infoHash,
     peer_id := peerId }, reader)

def parseNetwork (buffer : Buffer) : Except ClientError MessageHandshake :=
  let (m, reader) := readFields buffer
  if reader.finalize then .ok m else .error .todo

/-- An access outside the buffer or the text that are compared. -/
inductive Fault where
  | outsideBytes
  deriving DecidableEq, Repr

/-- `std::memcmp(ptr, str, size) == 0`, for a pointer into a buffer. -/
def sameBytes (buffer : List UInt8) (ptr : Option Nat) (str : List UInt8) (size : Nat) : Except Fault Bool :=
  match ptr with
  | none => .error .outsideBytes
  | some offset =>
    if offset + size ≤ buffer.length ∧ size ≤ str.length then .ok ((buffer.drop offset).take size == str.take size)
    else .error .outsideBytes

/-- `IsValidHandshakeResponse`; `buffer` is what `pstr_` points into. -/
def isValidHandshakeResponse (buffer : Buffer) (response : MessageHandshake) (infoHash : SHA1Bytes) :
    Except Fault Bool :=
  if response.protocol_length.toNat = sizeNoNull kProtocol then do
    if ← sameBytes buffer.toList response.pstr kProtocol response.protocol_length.toNat then
      return response.info_hash == infoHash
    else return false
  else return false

/-- The end of `TorrentPeer::start`, once the response is read: the message whose `peer_id_` and `reserved_` the peer
    keeps. -/
def accept (buffer : Buffer) (infoHash : SHA1Bytes) : Except Fault (Except ClientError MessageHandshake) :=
  match parseNetwork buffer with
  | .error e => .ok (.error e)
  | .ok parsed => do
    if ← isValidHandshakeResponse buffer parsed infoHash then return .ok parsed
    else return .error .todo

end MessageHandshake

end BittorrentClient
