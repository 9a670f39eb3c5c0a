import BittorrentClient.Client.Bytes
import BittorrentClient.Client.Tracker

/-! The UDP tracker protocol (tracker_requests.cpp): the messages, and the two exchanges with a tracker, in builds with
    and without `NDEBUG`. What the socket and the random device give is an argument. -/

namespace BittorrentClient
open Memcpy

/-- The addresses are as they were received, in network order. -/
structure PeerAddress where
  ipv4 : UInt32 := 0
  port : UInt16 := 0
  deriving DecidableEq, Repr

/-- `TrackerResponse::OnSuccess`. -/
structure TrackerResponse.OnSuccess where
  rerequest_dt_secs : UInt64 := 0
  peers : List PeerAddress := []
  deriving DecidableEq, Repr

/-- The error codes of the socket. -/
inductive SocketError where
  | operationAborted | messageSize | other
  deriving DecidableEq, Repr

inductive UdpError where
  | todo
  | socket (error : SocketError)
  deriving DecidableEq, Repr

/-- The assertions of the exchanges. -/
inductive UdpAssertion where
  | writer (assertion : WriterAssertion)
  | headerSize | action | transactionId | connectionId
  deriving DecidableEq, Repr

/-- How a coroutine ends: with `outcome::failure`, with a failed assertion or with a value. -/
inductive CoResult (α : Type) where
  | failure (error : UdpError)
  | aborted (assertion : UdpAssertion)
  | success (value : α)
  deriving DecidableEq, Repr

namespace CoResult
variable {α β : Type}

/-- `OUTCOME_CO_TRY`. -/
def try_ (result : Except UdpError α) (rest : α → CoResult β) : CoResult β :=
  match result with
  | .error e => .failure e
  | .ok a => rest a

/-- `assert`, which is empty when `NDEBUG` is defined. -/
def assert (ndebug : Bool) (cond : Prop) [Decidable cond] (assertion : UdpAssertion) (rest : CoResult α) : CoResult α :=
  if ndebug ∨ cond then rest else .aborted assertion

/-- The bytes of a message, written by `serialize`. -/
def serialized (bytes : Except WriterAssertion (List UInt8)) (rest : List UInt8 → CoResult α) : CoResult α :=
  match bytes with
  | .error e => .aborted (.writer e)
  | .ok bytes => rest bytes

end CoResult

/-! ### Messages -/

/-- `Message_UDP_Connect`. -/
structure MessageUdpConnect where
  action : UInt32 := 0
  transaction_id : UInt32 := 0
  connection_id : UInt64 := 0x41727101980
  deriving DecidableEq, Repr

/-- `Message_UDP_Announce`. -/
structure MessageUdpAnnounce where
  connection_id : UInt64 := 0
  action : UInt32 := 1
  transaction_id : UInt32 := 0
  info_hash : SHA1Bytes := Vector.replicate _ 0
  peer_id : PeerId := Vector.replicate _ 0
  downloaded : UInt64 := 0
  left : UInt64 := 0
  uploaded : UInt64 := 0
  event : UInt32 := 0
  ip : UInt32 := 0
  key : UInt32 := 0
  num_want : UInt32 := 0xFFFFFFFF
  port : UInt16 := 0
  deriving DecidableEq

/-- `Message_UDP_Announce_Response`. -/
structure MessageUdpAnnounceResponse where
  action : UInt32 := 1
  transaction_id : UInt32 := 0
  intervals_secs : UInt32 := 0
  leechers : UInt32 := 0
  seeders : UInt32 := 0
  peers : List PeerAddress := []
  deriving DecidableEq, Repr

section
variable (endian : Endian)

namespace MessageUdpConnect

def kSize : Nat := 4 + 4 + 8

def serialize (m : MessageUdpConnect) : Except WriterAssertion (List UInt8) :=
  (BytesWriter.make (List.replicate kSize 0)).writeAll
    [endian.bytes64 (endian.nativeToBig64 m.connection_id), endian.bytes (endian.nativeToBig m.action),
      endian.bytes (endian.nativeToBig m.transaction_id)]

def parseNetwork (buffer : List UInt8) : Except UdpError MessageUdpConnect :=
  let (action, reader) := (BytesReader.make buffer).readData 4
  let (transactionId, reader) := reader.readData 4
  let (connectionId, reader) := reader.readData 8
  match action, transactionId, connectionId, reader.finalize with
  | some action, some transactionId, some connectionId, true =>
    .ok { action := endian.bigToNative (endian.ofBytes action)
          transaction_id := endian.bigToNative (endian.ofBytes transactionId)
          connection_id := endian.bigToNative64 (endian.ofBytes64 connectionId) }
  | _, _, _, _ => .error .todo

end MessageUdpConnect

namespace MessageUdpAnnounce

def kSize : Nat := 8 + 4 + 4 + 20 + 20 + 8 + 8 + 8 + 4 + 4 + 4 + 4 + 2

def serialize (m : MessageUdpAnnounce) : Except WriterAssertion (List UInt8) :=
  (BytesWriter.make (List.replicate kSize 0)).writeAll
    [endian.bytes64 (endian.nativeToBig64 m.connection_id), endian.bytes (endian.nativeToBig m.action),
      endian.bytes (endian.nativeToBig m.transaction_id), m.info_hash.toList, m.peer_id.toList,
      endian.bytes64 (endian.nativeToBig64 m.downloaded), endian.bytes64 (endian.nativeToBig64 m.left),
      endian.bytes64 (endian.nativeToBig64 m.uploaded), endian.bytes (endian.nativeToBig m.event),
      endian.bytes (endian.nativeToBig m.ip), endian.bytes (endian.nativeToBig m.key),
      endian.bytes (endian.nativeToBig m.num_want), endian.bytes16 (endian.nativeToBig16 m.port)]

end MessageUdpAnnounce

namespace MessageUdpAnnounceResponse

def kHeaderSize : Nat := 4 + 4 + 4 + 4 + 4
def kMaxPeers : Nat := 128
def kAddressSize : Nat := 4 + 2
def kSize : Nat := kHeaderSize + kMaxPeers * kAddressSize

/-- The loop over the addresses, with fuel for `fuel` passes. -/
def readPeers (reader : BytesReader) : Nat → List PeerAddress
  | 0 => []
  | fuel + 1 =>
    if reader.valid = true ∧ reader.getRemaining ≠ some 0 then
      let (ipv4, reader) := reader.readData 4
      let (port, reader) := reader.readData 2
      match ipv4, port with
      | some ipv4, some port => ⟨endian.ofBytes ipv4, endian.ofBytes16 port⟩ :: readPeers reader fuel
      | _, _ => readPeers reader fuel
    else []

/-- `ParseNetwork` after its assertion. A pass of the loop reads an address or is the last one. -/
def parseNetwork (buffer : List UInt8) (actuallyRead : Nat) : Except UdpError MessageUdpAnnounceResponse :=
  let (action, reader) := (BytesReader.make (buffer.take kHeaderSize)).readData 4
  let (transactionId, reader) := reader.readData 4
  let (intervalsSecs, reader) := reader.readData 4
  let (leechers, reader) := reader.readData 4
  let (seeders, reader) := reader.readData 4
  match action, transactionId, intervalsSecs, leechers, seeders, reader.finalize with
  | some action, some transactionId, some intervalsSecs, some leechers, some seeders, true =>
    let peersBytes := actuallyRead - kHeaderSize
    if peersBytes % kAddressSize ≠ 0 then .error .todo
    else
      let reader := BytesReader.make ((buffer.drop kHeaderSize).take peersBytes)
      .ok { action := endian.bigToNative (endian.ofBytes action)
            transaction_id := endian.bigToNative (endian.ofBytes transactionId)
            intervals_secs := endian.bigToNative (endian.ofBytes intervalsSecs)
            leechers := endian.bigToNative (endian.ofBytes leechers)
            seeders := endian.bigToNative (endian.ofBytes seeders)
            peers := readPeers endian reader (peersBytes + 1) }
  | _, _, _, _, _, _ => .error .todo

end MessageUdpAnnounceResponse

/-! ### Exchanges -/

/-- How a receive ends: with an error, as when it is cancelled, or with a datagram. -/
inductive Reception where
  | error (error : SocketError)
  | datagram (bytes : List UInt8)
  deriving DecidableEq, Repr

/-- What is not decided by the program: the random numbers, how the send ends and how the receive ends. -/
structure UdpExchange where
  transaction_id : UInt32
  key : UInt32 := 0
  sent : Except SocketError Unit := .ok ()
  received : Reception

/-- `async_receive_from` into a buffer of `size` zeros: the error, the number of bytes and the buffer. A datagram that
    is longer than the buffer is cut, and where the platform does not cut (`cuts`) that is an error. -/
def asyncReceiveFrom (cuts : Bool) (size : Nat) : Reception → Option SocketError × Nat × List UInt8
  | .error e => (some e, 0, List.replicate size 0)
  | .datagram bytes =>
    (if cuts ∨ bytes.length ≤ size then none else some .messageSize, min bytes.length size,
      copy (List.replicate size 0) 0 bytes)

/-- The end of `AsyncReceiveWithTimeout`, when the receive has completed. -/
def receiveResult (error : Option SocketError) (readTotal readMinimum : Nat) : Except UdpError Nat :=
  match error with
  | some e => .error (.socket e)
  | none => if readTotal ≥ readMinimum then .ok readTotal else .error .todo

/-- `AsyncReceiveWithTimeout`: its result and the buffer. -/
def asyncReceiveWithTimeout (cuts : Bool) (size readMinimum : Nat) (received : Reception) :
    Except UdpError Nat × List UInt8 :=
  let (error, readTotal, buffer) := asyncReceiveFrom cuts size received
  (receiveResult error readTotal readMinimum, buffer)

def kRetryNMax : Nat := 0

variable (ndebug cuts : Bool)

/-- What `AsyncConnect` sends. -/
def connectDatagram (exchange : UdpExchange) : Except WriterAssertion (List UInt8) :=
  MessageUdpConnect.serialize endian { transaction_id := exchange.transaction_id }

/-- The loop of `AsyncConnect` from pass `i` on, for `passes` passes. -/
def connectPasses (exchanges : Nat → UdpExchange) (i : Nat) : Nat → CoResult UInt64
  | 0 => .failure .todo
  | passes + 1 =>
    let exchange := exchanges i
    .serialized (connectDatagram endian exchange) fun _ =>
    .try_ (exchange.sent.mapError .socket) fun _ =>
    let (ok, buffer) := asyncReceiveWithTimeout cuts MessageUdpConnect.kSize MessageUdpConnect.kSize exchange.received
    match ok with
    | .ok _ =>
      .try_ (MessageUdpConnect.parseNetwork endian buffer) fun response =>
      .assert ndebug (response.action = 0) .action <|
      .assert ndebug (response.transaction_id = exchange.transaction_id) .transactionId <|
      .assert ndebug (response.connection_id ≠ 0) .connectionId <|
      .success response.connection_id
    | .error e => if e ≠ .socket .operationAborted then .failure e else connectPasses exchanges (i + 1) passes

/-- `AsyncConnect`; pass `i` of its loop finds `exchanges i`. -/
def asyncConnect (exchanges : Nat → UdpExchange) : CoResult UInt64 :=
  connectPasses endian ndebug cuts exchanges 0 (kRetryNMax + 1)

/-- What `AsyncAnnounce` sends. -/
def announceDatagram (request : Tracker.UDPRequest) (connectionId : UInt64) (exchange : UdpExchange) :
    Except WriterAssertion (List UInt8) :=
  MessageUdpAnnounce.serialize endian
    { connection_id := connectionId
      transaction_id := exchange.transaction_id
      info_hash := request.info_hash
      peer_id := request.peer_id
      downloaded := request.downloaded_pieces.toUInt64
      left := request.pieces_left.toUInt64
      uploaded := request.uploaded_pieces.toUInt64
      key := exchange.key
      port := request.port }

def asyncAnnounce (request : Tracker.UDPRequest) (connectionId : UInt64) (exchange : UdpExchange) :
    CoResult TrackerResponse.OnSuccess :=
  .serialized (announceDatagram endian request connectionId exchange) fun _ =>
  .try_ (exchange.sent.mapError .socket) fun _ =>
  let (read, buffer) := asyncReceiveWithTimeout cuts MessageUdpAnnounceResponse.kSize
    MessageUdpAnnounceResponse.kHeaderSize exchange.received
  match read with
  | .error _ => .failure .todo
  | .ok read =>
    .assert ndebug (read ≥ MessageUdpAnnounceResponse.kHeaderSize) .headerSize <|
    .try_ (MessageUdpAnnounceResponse.parseNetwork endian buffer read) fun response =>
    .assert ndebug (response.action = 1) .action <|
    .assert ndebug (response.transaction_id = exchange.transaction_id) .transactionId <|
    if response.peers.length > 0 then
      .success { rerequest_dt_secs := response.intervals_secs.toUInt64, peers := response.peers }
    else .failure .todo

end

end BittorrentClient
