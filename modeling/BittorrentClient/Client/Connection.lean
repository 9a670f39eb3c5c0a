import BittorrentClient.Client.Download
import BittorrentClient.Client.Handshake
import BittorrentClient.Client.Udp

/-! The connection to one peer (`DownloadFromPeer` of main.cpp, with `TorrentPeer::start`, `ReadMessage` and
    `SendMessage`), from the connect to the end. The coroutine stops where it awaits an operation of the socket. -/

namespace BittorrentClient

/-- `asio::ip::tcp::endpoint` of an IPv4 address. -/
structure Endpoint where
  ip : UInt32
  port : UInt16
  deriving DecidableEq, Repr

/-- `AsEndpoint`: what `TorrentPeer::start` connects to. -/
def PeerAddress.asEndpoint (endian : Endian) (address : PeerAddress) : Endpoint where
  ip := endian.bigToNative address.ipv4
  port := endian.bigToNative16 address.port

/-- What ends the program: an assertion of the client, of a writer, or an access outside a buffer. -/
inductive Abort where
  | assertion (assertion : Assertion)
  | writer (assertion : WriterAssertion)
  | outside (fault : MessageHandshake.Fault)
  deriving DecidableEq, Repr

/-- Where `DownloadFromPeer` is: what it awaits, or where `TryDownloadPiecesFromPeer` is. -/
inductive Point where
  | connect
  | writeHandshake
  | readHandshake
  | readBitfield
  | sendUnchoke
  | sendInterested
  | download (coroutine : Coroutine)
  | returned
  deriving DecidableEq, Repr

/-- What happens to a connection: the coroutine runs on, an operation that gives nothing is done, a handshake or a
    message is read, or the operation fails; of what it was to write, some may be written. A message may be any one,
    not only one that `readAnyMessage` gives: what holds against these holds against those. -/
inductive NetEvent where
  | run
  | done
  | handshake (response : MessageHandshake.Buffer)
  | message (message : AnyMessage)
  | failed (written : Nat)

namespace NetEvent

/-- How many bytes of the buffer are written when the event happens. -/
def count (buffer : List UInt8) : NetEvent → Nat
  | .done => buffer.length
  | .failed written => written
  | _ => 0

/-- The event as `TryDownloadPiecesFromPeer` sees it. -/
def event : NetEvent → Option Event
  | .run => some .run
  | .done => some .sent
  | .message m => some (.received m)
  | .failed _ => some .failed
  | .handshake _ => none

@[simp] theorem event_run : event .run = some .run := rfl

@[simp] theorem event_done : event .done = some .sent := rfl

@[simp] theorem event_message (m : AnyMessage) : event (.message m) = some (.received m) := rfl

@[simp] theorem event_failed (n : Nat) : event (.failed n) = some .failed := rfl

end NetEvent

structure PeerDownload where
  address : PeerAddress
  peer_id : PeerId := Vector.replicate _ 0
  extensions : ExtensionsBuffer := Vector.replicate _ 0
  peer : TorrentPeer := { bitfield := {} }
  point : Point := .connect
  /-- What was written to the socket. -/
  written : List UInt8 := []
  deriving DecidableEq

namespace PeerDownload
variable (endian : Endian) (client : TorrentClient)

/-- `DownloadFromPeer` has returned. -/
def finished (x : PeerDownload) : Prop := x.point = .returned ∨ x.point = .download .returned

instance (x : PeerDownload) : Decidable x.finished := inferInstanceAs (Decidable (_ ∨ _))

/-- The buffer whose write is awaited; `SendMessage` serializes the message. -/
def buffer (x : PeerDownload) : Option (Except WriterAssertion (List UInt8)) :=
  match x.point with
  | .writeHandshake => some (MessageHandshake.serializeDefault client.info_hash client.peer_id)
  | .sendUnchoke => some (serializeNoPayload endian PeerMessageId.unchoke)
  | .sendInterested => some (serializeNoPayload endian PeerMessageId.interested)
  | .download (.sendRequest _ _ _ request) => some (request.serialize endian)
  | .download (.sendHave message) => some (message.serialize endian)
  | _ => none

/-- The connection with the bytes that are written when the event happens. -/
def write (x : PeerDownload) (event : NetEvent) : Except Abort PeerDownload :=
  match x.buffer endian client with
  | none => .ok x
  | some (.error e) => .error (.writer e)
  | some (.ok buffer) => .ok { x with written := x.written ++ buffer.take (NetEvent.count buffer event) }

/-- The end of `TorrentPeer::start`: the response is parsed and checked. -/
def handshakeRead (x : PeerDownload) (response : MessageHandshake.Buffer) : Except Abort PeerDownload :=
  match MessageHandshake.accept response client.info_hash with
  | .error fault => .error (.outside fault)
  | .ok (.error _) => .ok { x with point := .returned }
  | .ok (.ok parsed) =>
    .ok { x with peer_id := parsed.peer_id, extensions := parsed.reserved, point := .readBitfield }

/-- `ReadMessage<Message_Bitfield>`: any other message ends the connection. -/
def bitfieldRead (x : PeerDownload) : AnyMessage → PeerDownload
  | .bitfield bitfield => { x with peer := { x.peer with bitfield := bitfield }, point := .sendUnchoke }
  | _ => { x with point := .returned }

/-- A step of `TryDownloadPiecesFromPeer`. -/
def downloadStep (pieces : PiecesToDownload) (x : PeerDownload) (coroutine : Coroutine) (event : Event) :
    Option (Except Abort (PiecesToDownload × PeerDownload)) :=
  (Session.step pieces ⟨x.peer, coroutine⟩ event).map fun
    | .error e => .error (.assertion e)
    | .ok (pieces, s) => .ok (pieces, { x with peer := s.peer, point := .download s.coroutine })

/-- The coroutine after an event, without the bytes that are written; `none` when the event cannot happen. -/
def resume (pieces : PiecesToDownload) (x : PeerDownload) (event : NetEvent) :
    Option (Except Abort (PiecesToDownload × PeerDownload)) :=
  match x.point, event with
  | .connect, .done => some (.ok (pieces, { x with point := .writeHandshake }))
  | .writeHandshake, .done => some (.ok (pieces, { x with point := .readHandshake }))
  | .readHandshake, .handshake response => some ((x.handshakeRead client response).map fun x => (pieces, x))
  | .readBitfield, .message m => some (.ok (pieces, x.bitfieldRead m))
  | .sendUnchoke, .done => some (.ok (pieces, { x with point := .sendInterested }))
  | .sendInterested, .done => some (.ok (pieces, { x with point := .download .pop }))
  | .download coroutine, event => event.event.bind (x.downloadStep pieces coroutine)
  | .connect, .failed _ | .writeHandshake, .failed _ | .readHandshake, .failed _ | .readBitfield, .failed _
  | .sendUnchoke, .failed _ | .sendInterested, .failed _ => some (.ok (pieces, { x with point := .returned }))
  | _, _ => none

/-- One step of `DownloadFromPeer`. -/
def step (pieces : PiecesToDownload) (x : PeerDownload) (event : NetEvent) :
    Option (Except Abort (PiecesToDownload × PeerDownload)) :=
  match x.write endian client event with
  | .error e => some (.error e)
  | .ok x => x.resume client pieces event

end PeerDownload

end BittorrentClient
