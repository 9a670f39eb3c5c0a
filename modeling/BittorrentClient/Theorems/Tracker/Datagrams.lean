import BittorrentClient.Client.Udp

/-! The datagrams that are sent to a UDP tracker: their fields, in network order. -/

namespace BittorrentClient
open ByteOrder

section
variable (endian : Endian)

/-- The fields of the connect request. -/
def connectFields (exchange : UdpExchange) : List (List UInt8) :=
  [toBig 8 0x41727101980, toBig 4 0, toBig 4 exchange.transaction_id.toNat]

theorem connectDatagram_eq (exchange : UdpExchange) :
    connectDatagram endian exchange = .ok (connectFields exchange).flatten := by
  rw [connectDatagram, MessageUdpConnect.serialize]
  simp only [Endian.bytes_nativeToBig, Endian.bytes64_nativeToBig64]
  exact BytesWriter.writeAll_make rfl

theorem transactionId_connect (exchange : UdpExchange) :
    bigField (connectFields exchange).flatten 12 4 = exchange.transaction_id.toNat :=
  bigField_flatten (i := 2) rfl rfl exchange.transaction_id.toNat_lt

/-- The fields of the announce request. -/
def announceFields (request : Tracker.UDPRequest) (connectionId : UInt64) (exchange : UdpExchange) :
    List (List UInt8) :=
  [toBig 8 connectionId.toNat, toBig 4 1, toBig 4 exchange.transaction_id.toNat, request.info_hash.toList,
    request.peer_id.toList, toBig 8 request.downloaded_pieces.toNat, toBig 8 request.pieces_left.toNat,
    toBig 8 request.uploaded_pieces.toNat, toBig 4 0, toBig 4 0, toBig 4 exchange.key.toNat, toBig 4 0xFFFFFFFF,
    toBig 2 request.port.toNat]

variable {request : Tracker.UDPRequest} {connectionId : UInt64} {exchange : UdpExchange}

theorem length_announceFields : (announceFields request connectionId exchange).flatten.length = 98 := by
  simp only [announceFields, List.flatten_cons, List.flatten_nil, List.length_append, List.length_nil, length_toBig,
    Vector.length_toList]
  rfl

theorem announceDatagram_eq :
    announceDatagram endian request connectionId exchange =
      .ok (announceFields request connectionId exchange).flatten := by
  rw [announceDatagram, MessageUdpAnnounce.serialize]
  simp only [Endian.bytes_nativeToBig, Endian.bytes64_nativeToBig64, Endian.bytes16_nativeToBig16,
    UInt32.toNat_toUInt64]
  exact BytesWriter.writeAll_make length_announceFields

theorem transactionId_announce :
    bigField (announceFields request connectionId exchange).flatten 12 4 = exchange.transaction_id.toNat :=
  bigField_flatten (i := 2) rfl rfl exchange.transaction_id.toNat_lt

end

end BittorrentClient
