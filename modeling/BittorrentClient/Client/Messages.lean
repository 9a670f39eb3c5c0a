import BittorrentClient.Client.Bytes

/-! The messages of the peer wire protocol (torrent_messages.h, torrent_messages.cpp): how they are
    serialized, and how `ReadAnyMessage` reads one from a stream of bytes. -/

namespace BittorrentClient

/-- The first byte of a message. -/
abbrev PeerMessageId := UInt8

namespace PeerMessageId
def choke : PeerMessageId := 0
def unchoke : PeerMessageId := 1
def interested : PeerMessageId := 2
def notInterested : PeerMessageId := 3
def have_ : PeerMessageId := 4
def bitfield : PeerMessageId := 5
def request : PeerMessageId := 6
def piece : PeerMessageId := 7
def cancel : PeerMessageId := 8
end PeerMessageId

/-- The errors of a read: the failures of the socket, and the one code of the client. -/
inductive ClientError where
  | endOfStream | todo
  deriving DecidableEq, Repr

/-! ### Messages -/

structure MessageHave where
  piece_index : UInt32 := 0
  deriving DecidableEq, Repr

/-- The message with its id in front, as it was received. -/
structure MessageBitfield where
  data : List UInt8 := []
  deriving DecidableEq, Repr

structure MessageRequest where
  piece_index : UInt32 := 0
  offset : UInt32 := 0
  length : UInt32 := 0
  deriving DecidableEq, Repr

/-- `payload` is not the actual data: that is the slice from `data_offset` on. -/
structure MessagePiece where
  payload : List UInt8 := []
  data_offset : Nat := 0
  piece_index : UInt32 := 0
  piece_begin : UInt32 := 0
  deriving DecidableEq, Repr

inductive AnyMessage where
  | monostate
  | choke | unchoke | interested | notInterested
  | have_ (m : MessageHave)
  | bitfield (m : MessageBitfield)
  | request (m : MessageRequest)
  | piece (m : MessagePiece)
  | cancel | keepAlive | unknown
  deriving DecidableEq, Repr

namespace MessageBitfield

def hasPiece (m : MessageBitfield) (index : Nat) : Bool :=
  let byteIndex := index / 8
  let offset := index % 8
  if m.data.isEmpty || byteIndex ≥ m.data.length - 1 then false
  -- Skip the id.
  else (m.data.getD (byteIndex + 1) 0 >>> (7 - UInt8.ofNat offset)) &&& 1 != 0

/-- `set_piece`; the difference `data_.size() - 1` wraps for an empty bitfield, where the write is lost. -/
def setPiece (m : MessageBitfield) (index : Nat) : Bool × MessageBitfield :=
  let byteIndex := index / 8
  let offset := index % 8
  if !m.data.isEmpty && byteIndex ≥ m.data.length - 1 then (false, m)
  else (true, { data := m.data.modify (byteIndex + 1) fun mask => mask ||| (1 <<< (7 - UInt8.ofNat offset)) })

/-- An access outside `data_`. -/
inductive Fault where
  | outsideData
  deriving DecidableEq, Repr

/-- `data_.size() - 1` as a `std::size_t`. -/
def count (m : MessageBitfield) : Nat := if m.data.isEmpty then 2 ^ 64 - 1 else m.data.length - 1

/-- `set_piece` with the access it makes. -/
def setPieceChecked (m : MessageBitfield) (index : UInt64) : Except Fault (Bool × MessageBitfield) :=
  let byteIndex := index.toNat / 8
  let offset := index.toNat % 8
  if byteIndex ≥ m.count then .ok (false, m)
  else if byteIndex + 1 < m.data.length then
    .ok (true, { data := m.data.modify (byteIndex + 1) fun mask => mask ||| (1 <<< (7 - UInt8.ofNat offset)) })
  else .error .outsideData

end MessageBitfield

namespace MessagePiece

/-- `data()` with its whole extent. -/
def bytes (m : MessagePiece) : List UInt8 := m.payload.drop m.data_offset

/-- `size()`; the assertion that there is data holds of every message that was parsed. -/
def size (m : MessagePiece) : UInt32 := UInt32.ofNat (m.payload.length - m.data_offset)

end MessagePiece

/-! ### Serializing -/

section
variable (endian : Endian)

def kSizeNoPayload : UInt32 := 4 + 1

/-- `serialize` of the messages without payload. -/
def serializeNoPayload (id : PeerMessageId) : Except WriterAssertion (List UInt8) :=
  (BytesWriter.make (List.replicate kSizeNoPayload.toNat 0)).writeAll
    [endian.bytes (endian.nativeToBig kSizeNoPayload), [id]]

def MessageHave.kSize : UInt32 := 4 + 1 + 4

def MessageHave.serialize (m : MessageHave) : Except WriterAssertion (List UInt8) :=
  (BytesWriter.make (List.replicate kSize.toNat 0)).writeAll
    [endian.bytes (endian.nativeToBig kSize), [PeerMessageId.have_], endian.bytes (endian.nativeToBig m.piece_index)]

def MessageRequest.kSize : UInt32 := 4 + 1 + 4 + 4 + 4

def MessageRequest.serialize (m : MessageRequest) : Except WriterAssertion (List UInt8) :=
  (BytesWriter.make (List.replicate kSize.toNat 0)).writeAll
    [endian.bytes (endian.nativeToBig kSize), [PeerMessageId.request], endian.bytes (endian.nativeToBig m.piece_index),
      endian.bytes (endian.nativeToBig m.offset), endian.bytes (endian.nativeToBig m.length)]

/-! ### Reading -/

def MessageHave.parseNetwork (payload : List UInt8) : Except ClientError MessageHave :=
  let (_, reader) := (BytesReader.make payload).readData 1
  let (pieceIndexNetwork, reader) := reader.readData 4
  match pieceIndexNetwork, reader.finalize with
  | some network, true => .ok { piece_index := endian.bigToNative (endian.ofBytes network) }
  | _, _ => .error .todo

def MessageBitfield.parseNetwork (payload : List UInt8) : Except ClientError MessageBitfield :=
  .ok { data := payload }

def MessagePiece.parseNetwork (payload : List UInt8) : Except ClientError MessagePiece :=
  let (_, reader) := (BytesReader.make payload).readData 1
  let (pieceIndexNetwork, reader) := reader.readData 4
  let (beginNetwork, reader) := reader.readData 4
  match pieceIndexNetwork, beginNetwork, reader.getRemaining with
  | some index, some begin, some (_ + 1) =>
    .ok { payload := payload
          data_offset := reader.current
          piece_index := endian.bigToNative (endian.ofBytes index)
          piece_begin := endian.bigToNative (endian.ofBytes begin) }
  | _, _, _ => .error .todo

/-- `MakeMessage`: the kinds without a parser of their own, `Request` among them, ignore the payload. -/
def makeMessage (id : PeerMessageId) (data : List UInt8) : Except ClientError AnyMessage :=
  if id = PeerMessageId.choke then .ok .choke
  else if id = PeerMessageId.unchoke then .ok .unchoke
  else if id = PeerMessageId.interested then .ok .interested
  else if id = PeerMessageId.notInterested then .ok .notInterested
  else if id = PeerMessageId.have_ then (MessageHave.parseNetwork endian data).map .have_
  else if id = PeerMessageId.bitfield then (MessageBitfield.parseNetwork data).map .bitfield
  else if id = PeerMessageId.request then .ok (.request {})
  else if id = PeerMessageId.piece then (MessagePiece.parseNetwork endian data).map .piece
  else if id = PeerMessageId.cancel then .ok .cancel
  else .ok .unknown

/-- `asio::async_read` of `size` bytes from a stream that ends. -/
def asyncRead (size : Nat) (stream : List UInt8) : Except ClientError (List UInt8) × List UInt8 :=
  if size ≤ stream.length then (.ok (stream.take size), stream.drop size) else (.error .endOfStream, [])

/-- One call of `ReadAnyMessage`, and what is left of the stream. -/
def readAnyMessage (stream : List UInt8) : Except ClientError AnyMessage × List UInt8 :=
  match asyncRead 4 stream with
  | (.error e, stream) => (.error e, stream)
  | (.ok lengthBytes, stream) =>
    let length := endian.bigToNative (endian.ofBytes lengthBytes)
    if length = 0 then (.ok .keepAlive, stream)
    else match asyncRead length.toNat stream with
      | (.error e, stream) => (.error e, stream)
      | (.ok data, stream) => (makeMessage endian (data.headD 0) data, stream)

/-! ### The assertions of the reader -/

inductive MessageAssertion where
  -- `MakeMessage` and `FromBuffer`
  | payloadEmpty
  -- `Message_Piece::size` and `Message_Piece::data`
  | offsetPastPayload
  deriving DecidableEq, Repr

/-- `makeMessage` behind the assertion on the size of the payload. -/
def makeMessageChecked (id : PeerMessageId) (data : List UInt8) :
    Except MessageAssertion (Except ClientError AnyMessage) :=
  if data.length ≥ 1 then .ok (makeMessage endian id data) else .error .payloadEmpty

/-- `readAnyMessage` with the assertions it meets. -/
def readAnyMessageChecked (stream : List UInt8) :
    Except MessageAssertion (Except ClientError AnyMessage × List UInt8) :=
  match asyncRead 4 stream with
  | (.error e, stream) => .ok (.error e, stream)
  | (.ok lengthBytes, stream) =>
    let length := endian.bigToNative (endian.ofBytes lengthBytes)
    if length = 0 then .ok (.ok .keepAlive, stream)
    else match asyncRead length.toNat stream with
      | (.error e, stream) => .ok (.error e, stream)
      | (.ok data, stream) => do return (← makeMessageChecked endian (data.headD 0) data, stream)

def MessagePiece.sizeChecked (m : MessagePiece) : Except MessageAssertion UInt32 :=
  if m.payload.length > m.data_offset then .ok m.size else .error .offsetPastPayload

def MessagePiece.dataChecked (m : MessagePiece) : Except MessageAssertion (List UInt8) :=
  if m.data_offset < m.payload.length then .ok m.bytes else .error .offsetPastPayload

end

end BittorrentClient
