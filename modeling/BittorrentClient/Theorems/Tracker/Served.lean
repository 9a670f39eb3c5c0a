import BittorrentClient.Client.Announce
import BittorrentClient.Client.Connection
import BittorrentClient.Theorems.Bytes
import BittorrentClient.Theorems.Http
import BittorrentClient.Theorems.Tracker.Agree
import BittorrentClient.Theorems.Tracker.Peers

/-! Trackers that keep to the protocols, over networks that may lose what they send: what a tracker lists is what the
    client gets, or it gets nothing of it. -/

namespace BittorrentClient
open Bencode ByteOrder Content FlatMemory Fuel Memcpy SortUnique

/-! ### Addresses -/

namespace Endpoint

/-- An address in a list of a tracker, with the most significant bytes first. -/
def wire (endpoint : Endpoint) : List UInt8 := toBig 4 endpoint.ip.toNat ++ toBig 2 endpoint.port.toNat

/-- The address that is received. -/
def address (endian : Endian) (endpoint : Endpoint) : PeerAddress :=
  ⟨endian.nativeToBig endpoint.ip, endian.nativeToBig16 endpoint.port⟩

@[simp] theorem bytes_address (endian : Endian) (endpoint : Endpoint) :
    PeerAddress.bytes endian (endpoint.address endian) = endpoint.wire := by
  rw [PeerAddress.bytes, address, (networkOrder32 endian).bytes_nativeToBig, (networkOrder16 endian).bytes_nativeToBig, wire]

@[simp] theorem asEndpoint_address (endian : Endian) (endpoint : Endpoint) :
    (endpoint.address endian).asEndpoint endian = endpoint := by
  rw [PeerAddress.asEndpoint, address, (networkOrder32 endian).bigToNative_nativeToBig,
    (networkOrder16 endian).bigToNative_nativeToBig]

theorem address_asEndpoint (endian : Endian) (address : PeerAddress) :
    (address.asEndpoint endian).address endian = address := by
  rw [Endpoint.address, PeerAddress.asEndpoint, (networkOrder32 endian).nativeToBig_bigToNative,
    (networkOrder16 endian).nativeToBig_bigToNative]

end Endpoint

/-- A list as a tracker sends it. -/
def listing (peers : List Endpoint) : List UInt8 := (peers.map Endpoint.wire).flatten

theorem bytes_addresses (endian : Endian) (peers : List Endpoint) :
    ((peers.map (Endpoint.address endian)).map (PeerAddress.bytes endian)).flatten = listing peers := by
  rw [List.map_map, listing]
  exact congrArg List.flatten (List.map_congr_left fun endpoint _ => endpoint.bytes_address endian)

theorem length_listing (peers : List Endpoint) : (listing peers).length = 6 * peers.length := by
  rw [← bytes_addresses .little, length_bytes_peers, List.length_map]

theorem compactPeers_listing (endian : Endian) (peers : List Endpoint) :
    compactPeers endian peers.length (listing peers) = peers.map (Endpoint.address endian) := by
  have h := compactPeers_bytes endian (peers.map (Endpoint.address endian))
  rwa [List.length_map, bytes_addresses] at h

theorem take_listing (peers : List Endpoint) (n : Nat) : (listing peers).take (6 * n) = listing (peers.take n) := by
  induction peers generalizing n with
  | nil => rw [List.take_nil, listing, List.map_nil, List.flatten_nil, List.take_nil]
  | cons endpoint peers ih =>
    cases n with
    | zero => rfl
    | succ n =>
      have hlength : endpoint.wire.length = 6 := by
        rw [Endpoint.wire, List.length_append, length_toBig, length_toBig]
      have hrest := ih n
      rw [listing] at hrest ⊢
      rw [List.map_cons, List.flatten_cons, List.take_append, hlength, List.take_of_length_le (by omega),
        show 6 * (n + 1) - 6 = 6 * n by omega, hrest, List.take_succ_cons, listing, listing, List.map_cons,
        List.flatten_cons]

/-! ### Over HTTP -/

/-- The peers that a dictionary lists: those of a success, and none where it has none, or is no success at all. -/
inductive Lists (entries : List (Str × Term)) : List Endpoint → Prop where
  | peers {peers} (h : Succeeds entries)
      (hlisted : (value entries "peers").bind Content.string = some (listing peers)) : Lists entries peers
  | none (h : Succeeds entries → value entries "peers" = none) : Lists entries []

/-- Every dictionary lists some peers or none. -/
theorem exists_lists (entries : List (Str × Term)) : ∃ peers, Lists entries peers := by
  by_cases hsucceeds : Succeeds entries
  · cases hvalue : value entries "peers" with
    | none => exact ⟨[], .none fun _ => hvalue⟩
    | some t =>
      obtain ⟨blob, hblob, -, hmod⟩ := hsucceeds.peers t hvalue
      refine ⟨(compactPeers .little (blob.length / 6) blob).map (PeerAddress.asEndpoint .little), .peers hsucceeds ?_⟩
      have hwhole : ((compactPeers .little (blob.length / 6) blob).map (PeerAddress.asEndpoint .little)).map
          (Endpoint.address .little) = compactPeers .little (blob.length / 6) blob := by
        rw [List.map_map]
        refine (List.map_congr_left ?_).trans (List.map_id _)
        exact fun address _ => Endpoint.address_asEndpoint .little address
      rw [hvalue, Option.bind_some, hblob, ← bytes_addresses .little, hwhole,
        (bytes_peers_eq_iff .little hmod).mpr rfl]
  · exact ⟨[], .none fun h => absurd h hsucceeds⟩

/-- A tracker that answers over HTTP, with some header and any dictionary. -/
structure HttpTracker where
  answer : HttpAnswer
  entries : List (Str × Term)
  peers : List Endpoint
  headers : answer.headers ≠ []
  body : answer.body = (Term.dict entries).bytes
  lists : Lists entries peers

/-- What `fetch_one` makes of an announce. -/
def obtained (response : Except AnnounceError TrackerResponse) : List PeerAddress :=
  match response with
  | .ok (.onSuccess data) => data.peers
  | _ => []

section
variable {endian : Endian} {max : MaxSize} {strings : Strings max} {network : HttpNetwork}
  {request : Tracker.HTTPGetRequest} {entries : List (Str × Term)} {peers : List Endpoint}

theorem Lists.response (endian : Endian) {m : Memory} {r : Region} (h : Lists entries peers)
    (hbytes : r.bytes m = (Term.dict entries).bytes) (hstring : r.size.toNat ≤ max.string) : ∃ response,
      Converges (fun fuel => TrackerResponse.parseTrackerCompactResponseContent m endian max fuel r) response ∧
        obtained (response.mapError .response) = peers.map (Endpoint.address endian) := by
  have hclassified : Classified endian entries _ := classified_of_bytes hbytes hstring
  cases h with
  | peers hsucceeds hlisted =>
    have hcontent : PeersContent m r max entries (listing peers) := ⟨hbytes, hstring, hlisted⟩
    obtain ⟨hothers, hne, -⟩ := hcontent.succeeds_iff.mp hsucceeds
    have hpos : 0 < peers.length := by
      have hlength := List.length_pos_of_ne_nil hne
      rw [length_listing] at hlength
      omega
    have hfound : FoundOverHttp endian _ _ := foundOverHttp hpos (length_listing peers)
    obtain ⟨data, hdata⟩ := hfound.found _ _ _ _ hcontent hothers
    refine ⟨_, hdata, ?_⟩
    rw [← compactPeers_listing]
    exact hfound.same _ _ _ _ hcontent data hdata
  | none hnone =>
    by_cases hsucceeds : Succeeds entries
    · obtain ⟨data, hdata⟩ := hclassified.success.mpr hsucceeds
      exact ⟨_, hdata, (hclassified.values data hdata).noPeers (hnone hsucceeds)⟩
    · by_cases hfails : ∃ message, FailsWith entries message
      · obtain ⟨message, hmessage⟩ := hfails
        exact ⟨_, (hclassified.failure message).mpr hmessage, rfl⟩
      · obtain ⟨error, -, herror⟩ := hclassified.otherwise hsucceeds (not_exists.mp hfails)
        exact ⟨_, herror, rfl⟩

/-- A tracker that is reached is understood, however its answer is cut. -/
theorem httpTrackerAnnounce_of_tracker (tracker : HttpTracker) (h : tracker.answer.Arrives network)
    (hfits : tracker.answer.body.length ≤ max.string) : ∃ response,
      Converges (httpTrackerAnnounce endian strings network request) response ∧
        obtained response = tracker.peers.map (Endpoint.address endian) := by
  have hbytes := strings.bytes _ hfits
  have hsize : (strings.content tracker.answer.body).size.toNat ≤ max.string := by
    rw [← Region.length_bytes (strings.content tracker.answer.body) (strings.memory tracker.answer.body), hbytes]
    exact hfits
  obtain ⟨response, hparse, hpeers⟩ := tracker.lists.response endian (hbytes.trans tracker.body) hsize
  refine ⟨_, ?_, hpeers⟩
  obtain ⟨n, hn⟩ := hparse
  refine ⟨n, ?_⟩
  intro k hk
  have hparsed : TrackerResponse.parseTrackerCompactResponseContent _ endian max k _ = some response := hn k hk
  rw [httpTrackerAnnounce, httpGet_eq h, if_pos (.inl tracker.headers)]
  dsimp only
  rw [hparsed, Option.map_some]

/-- Every string at one place. -/
def Strings.placed {max : MaxSize} (base : UInt64) (h : base.toNat + max.string < 2 ^ 64) : Strings max where
  memory s := place base s
  content s :=
    if hs : base.toNat + s.length < 2 ^ 64 then .of base s hs
    else .of base [] (Nat.lt_of_le_of_lt (Nat.le_add_right _ max.string) h)
  bytes s hs := by
    rw [dif_pos (by omega)]
    exact Region.bytes_of _

theorem httpTrackerAnnounce_of_error {e : HttpError}
    (h : network.httpGet request.host request.get_uri request.port = .error e) (fuel : Nat) :
    httpTrackerAnnounce endian strings network request fuel = some (.error (.http e)) := by
  rw [httpTrackerAnnounce, h]

end

/-! ### Over UDP -/

/-- A tracker of a torrent, as the protocol has it. -/
structure UdpTracker where
  connection_id : UInt64
  connection_id_ne : connection_id ≠ 0
  info_hash : SHA1Bytes
  interval : UInt32
  leechers : UInt32
  seeders : UInt32
  peers : List Endpoint
  refusal : List UInt8

namespace UdpTracker

/-- The fields before the addresses. -/
def header (tracker : UdpTracker) (transactionId : List UInt8) : List (List UInt8) :=
  [toBig 4 1, transactionId, toBig 4 tracker.interval.toNat, toBig 4 tracker.leechers.toNat, toBig 4 tracker.seeders.toNat]

/-- A connect request gets the connection id, an announce of the torrent with this id gets the peers, and all else is
    refused. The transaction id is that of the request. -/
def reply (tracker : UdpTracker) (sent : List UInt8) : List UInt8 :=
  let transactionId := (sent.drop 12).take 4
  if sent.length = 16 ∧ bigField sent 0 8 = 0x41727101980 ∧ bigField sent 8 4 = 0 then
    [toBig 4 0, transactionId, toBig 8 tracker.connection_id.toNat].flatten
  else if sent.length = 98 ∧ bigField sent 0 8 = tracker.connection_id.toNat ∧ bigField sent 8 4 = 1 ∧
      (sent.drop 16).take 20 = tracker.info_hash.toList then
    (tracker.header transactionId).flatten ++ listing tracker.peers
  else [toBig 4 3, transactionId, tracker.refusal].flatten

/-- What is received is what the tracker answers to what was sent; each may be lost. -/
structure Talks (tracker : UdpTracker) (endian : Endian) (request : Tracker.UDPRequest) (network : UdpNetwork) :
    Prop where
  info_hash : request.info_hash = tracker.info_hash
  connect : ∀ d, (network.connects 0).received = .datagram d →
    ∃ sent, connectDatagram endian (network.connects 0) = .ok sent ∧ d = tracker.reply sent
  announce : ∀ d, network.announce.received = .datagram d →
    ∃ sent, announceDatagram endian request tracker.connection_id network.announce = .ok sent ∧ d = tracker.reply sent

/-- Nothing is lost, and the last datagram is not refused for its length. -/
structure Reached (tracker : UdpTracker) (cuts : Bool) (request : Tracker.UDPRequest) (network : UdpNetwork) : Prop where
  open_ : network.open_ = .ok ()
  resolve : network.resolve request.host (Decimal.natText request.port.toNat) = .ok ()
  connectSent : (network.connects 0).sent = .ok ()
  connected : ∃ d, (network.connects 0).received = .datagram d
  announceSent : network.announce.sent = .ok ()
  announced : ∃ d, network.announce.received = .datagram d
  fits : cuts = true ∨ tracker.peers.length ≤ 128

/-- A network that loses nothing. -/
def lossless (tracker : UdpTracker) (request : Tracker.UDPRequest) (transactionId key : UInt32) : UdpNetwork where
  connects _ :=
    { transaction_id := transactionId
      received := .datagram (tracker.reply (connectFields ⟨transactionId, 0, .ok (), .datagram []⟩).flatten) }
  announce :=
    { transaction_id := transactionId
      key := key
      received := .datagram (tracker.reply
        (announceFields request tracker.connection_id ⟨transactionId, key, .ok (), .datagram []⟩).flatten) }

theorem talks_lossless (tracker : UdpTracker) (endian : Endian) {request : Tracker.UDPRequest} (transactionId key : UInt32)
    (h : request.info_hash = tracker.info_hash) :
    tracker.Talks endian request (tracker.lossless request transactionId key) where
  info_hash := h
  connect := by
    rintro d ⟨⟩
    exact ⟨_, connectDatagram_eq endian _, rfl⟩
  announce := by
    rintro d ⟨⟩
    exact ⟨_, announceDatagram_eq endian, rfl⟩

theorem reached_lossless (tracker : UdpTracker) (cuts : Bool) (request : Tracker.UDPRequest) (transactionId key : UInt32)
    (h : tracker.peers.length ≤ 128) : tracker.Reached cuts request (tracker.lossless request transactionId key) where
  open_ := rfl
  resolve := rfl
  connectSent := rfl
  connected := ⟨_, rfl⟩
  announceSent := rfl
  announced := ⟨_, rfl⟩
  fits := .inr h

end UdpTracker

section
variable {endian : Endian} {cuts : Bool} {tracker : UdpTracker} {request : Tracker.UDPRequest} {network : UdpNetwork}
  {exchange : UdpExchange} {connectionId : UInt64}

theorem reply_connect (tracker : UdpTracker) (exchange : UdpExchange) : tracker.reply (connectFields exchange).flatten =
    [toBig 4 0, toBig 4 exchange.transaction_id.toNat, toBig 8 tracker.connection_id.toNat].flatten := by
  have hlength : (connectFields exchange).flatten.length = 16 := rfl
  have hid : bigField (connectFields exchange).flatten 0 8 = 0x41727101980 :=
    bigField_flatten (i := 0) rfl rfl (by decide)
  have haction : bigField (connectFields exchange).flatten 8 4 = 0 := bigField_flatten (i := 1) rfl rfl (by decide)
  have htransaction : ((connectFields exchange).flatten.drop 12).take 4 = toBig 4 exchange.transaction_id.toNat :=
    take_drop_flatten (i := 2) rfl rfl (length_toBig 4 _)
  rw [UdpTracker.reply, htransaction]
  exact if_pos ⟨hlength, hid, haction⟩

theorem reply_announce (hhash : request.info_hash = tracker.info_hash) :
    tracker.reply (announceFields request tracker.connection_id exchange).flatten =
      (tracker.header (toBig 4 exchange.transaction_id.toNat)).flatten ++ listing tracker.peers := by
  have hlength : (announceFields request tracker.connection_id exchange).flatten.length = 98 := length_announceFields
  have hid : bigField (announceFields request tracker.connection_id exchange).flatten 0 8 = tracker.connection_id.toNat :=
    bigField_flatten (i := 0) rfl rfl tracker.connection_id.toNat_lt
  have haction : bigField (announceFields request tracker.connection_id exchange).flatten 8 4 = 1 :=
    bigField_flatten (i := 1) rfl rfl (by decide)
  have htransaction : ((announceFields request tracker.connection_id exchange).flatten.drop 12).take 4 =
      toBig 4 exchange.transaction_id.toNat := take_drop_flatten (i := 2) rfl rfl (length_toBig 4 _)
  have hinfo : ((announceFields request tracker.connection_id exchange).flatten.drop 16).take 20 =
      request.info_hash.toList := take_drop_flatten (i := 3) rfl rfl Vector.length_toList
  rw [UdpTracker.reply, htransaction, if_neg (by rw [hlength]; simp),
    if_pos ⟨hlength, hid, haction, hinfo.trans (by rw [hhash])⟩]

/-! The connect request. -/

theorem UdpTracker.Talks.connect_delivers (cuts : Bool) (h : tracker.Talks endian request network)
    {d : List UInt8} (hd : (network.connects 0).received = .datagram d) (hsent : (network.connects 0).sent = .ok ()) :
    (network.connects 0).Delivers cuts MessageUdpConnect.kSize MessageUdpConnect.kSize d ∧
      d = [toBig 4 0, toBig 4 (network.connects 0).transaction_id.toNat, toBig 8 tracker.connection_id.toNat].flatten := by
  obtain ⟨sent, hdatagram, rfl⟩ := h.connect d hd
  cases (connectDatagram_eq endian _).symm.trans hdatagram
  have hreply : tracker.reply _ = _ := reply_connect tracker (network.connects 0)
  refine ⟨⟨hsent, hd, ?_, .inr ?_⟩, hreply⟩ <;> rw [hreply] <;> exact Nat.le_refl 16

theorem asyncConnect_of_talks (cuts : Bool) (h : tracker.Talks endian request network) :
    ((network.connects 0).sent = .ok () ∧ ∃ d, (network.connects 0).received = .datagram d) ∧
        (∀ ndebug, asyncConnect endian ndebug cuts network.connects = .success tracker.connection_id) ∨
      ¬((network.connects 0).sent = .ok () ∧ ∃ d, (network.connects 0).received = .datagram d) ∧
        ∃ e, ∀ ndebug, asyncConnect endian ndebug cuts network.connects = .failure e := by
  by_cases hreached : (network.connects 0).sent = .ok () ∧ ∃ d, (network.connects 0).received = .datagram d
  · refine .inl ⟨hreached, ?_⟩
    obtain ⟨hsent, d, hd⟩ := hreached
    obtain ⟨hdelivers, hbytes⟩ := h.connect_delivers cuts hd hsent
    obtain ⟨m, haction, htransaction, hconnection, hresult⟩ := asyncConnect_of_delivers endian hdelivers
    have haction : m.action = 0 := by
      rw [← UInt32.toNat_inj, haction, hbytes]
      exact bigField_flatten (i := 0) rfl rfl (by decide)
    have htransaction : m.transaction_id = (network.connects 0).transaction_id := by
      rw [← UInt32.toNat_inj, htransaction, hbytes]
      exact bigField_flatten (i := 1) rfl rfl (UInt32.toNat_lt _)
    have hconnection : m.connection_id = tracker.connection_id := by
      rw [← UInt64.toNat_inj, hconnection, hbytes]
      exact bigField_flatten (i := 2) rfl rfl (UInt64.toNat_lt _)
    intro ndebug
    rw [hresult, CoResult.assert_of haction, CoResult.assert_of htransaction, hconnection,
      CoResult.assert_of tracker.connection_id_ne]
  · refine .inr ⟨hreached, asyncConnect_of_not_delivers endian ?_⟩
    intro d hd
    exact hreached ⟨hd.sent, d, hd.received⟩

/-! The announce request. -/

theorem asyncAnnounce_of_response {d : List UInt8} {m : MessageUdpAnnounceResponse}
    (h : exchange.Delivers cuts MessageUdpAnnounceResponse.kSize MessageUdpAnnounceResponse.kHeaderSize d)
    (hparse : MessageUdpAnnounceResponse.parseNetwork endian
      (copy (List.replicate MessageUdpAnnounceResponse.kSize 0) 0 d) (min d.length MessageUdpAnnounceResponse.kSize) = .ok m)
    (haction : m.action = 1) (htransaction : m.transaction_id = exchange.transaction_id) (ndebug : Bool) :
    asyncAnnounce endian ndebug cuts request connectionId exchange =
      if m.peers.length > 0 then .success { rerequest_dt_secs := m.intervals_secs.toUInt64, peers := m.peers }
      else .failure .todo := by
  have hread : min d.length MessageUdpAnnounceResponse.kSize ≥ MessageUdpAnnounceResponse.kHeaderSize :=
    Nat.le_min.mpr ⟨h.minimum_le, by decide⟩
  rw [asyncAnnounce, announceDatagram_eq, h.sent, receive_of_delivers (by decide) h]
  simp only [CoResult.serialized, CoResult.try_, Except.mapError]
  rw [CoResult.assert_of hread, hparse]
  dsimp only
  rw [CoResult.assert_of haction, CoResult.assert_of htransaction]

theorem length_header (tracker : UdpTracker) (transactionId : UInt32) :
    (tracker.header (toBig 4 transactionId.toNat)).flatten.length = 20 := rfl

/-- The buffer has the header and the addresses that have room in it. -/
theorem exists_buffer {header : List UInt8} (hheader : header.length = 20) (peers : List Endpoint) : ∃ rest,
    copy (List.replicate MessageUdpAnnounceResponse.kSize 0) 0 (header ++ listing peers) =
      header ++ listing (peers.take 128) ++ rest := by
  have hroom : (List.replicate MessageUdpAnnounceResponse.kSize (0 : UInt8)).length = 788 := List.length_replicate
  have hlength : (header ++ listing peers).length = 20 + 6 * peers.length := by
    rw [List.length_append, hheader, length_listing]
  have htake : (header ++ listing peers).take (20 + 6 * min peers.length 128) = header ++ listing (peers.take 128) := by
    rw [List.take_append, hheader, List.take_of_length_le (by omega), Nat.add_sub_cancel_left, take_listing,
      Nat.min_comm, ← List.take_eq_take_min]
  have hcopy : (copy (List.replicate MessageUdpAnnounceResponse.kSize 0) 0 (header ++ listing peers)).take
      (20 + 6 * min peers.length 128) = _ := take_copy_zero (by omega) (by omega)
  rw [htake] at hcopy
  exact ⟨_, by rw [← hcopy, List.take_append_drop]⟩

theorem exists_announceResponse (endian : Endian) (tracker : UdpTracker) (transactionId : UInt32) :
    ∃ m : MessageUdpAnnounceResponse, m.action = 1 ∧ m.transaction_id = transactionId ∧
      m.peers = (tracker.peers.take 128).map (Endpoint.address endian) ∧
      MessageUdpAnnounceResponse.parseNetwork endian (copy (List.replicate MessageUdpAnnounceResponse.kSize 0) 0
        ((tracker.header (toBig 4 transactionId.toNat)).flatten ++ listing tracker.peers))
        (20 + 6 * min tracker.peers.length 128) = .ok m := by
  obtain ⟨rest, hbuffer⟩ := exists_buffer (length_header tracker transactionId) tracker.peers
  have hle : MessageUdpAnnounceResponse.kHeaderSize ≤
      ((tracker.header (toBig 4 transactionId.toNat)).flatten ++ listing (tracker.peers.take 128) ++ rest).length := by
    rw [List.length_append, List.length_append, length_header]
    exact Nat.le_trans (Nat.le_add_right 20 _) (Nat.le_add_right _ _)
  have hfield : ∀ offset, offset + 4 ≤ 20 → bigField
      ((tracker.header (toBig 4 transactionId.toNat)).flatten ++ listing (tracker.peers.take 128) ++ rest) offset 4 =
        bigField (tracker.header (toBig 4 transactionId.toNat)).flatten offset 4 := by
    intro offset hoffset
    rw [← bigField_take (n := 20) hoffset, List.append_assoc, List.take_left' (length_header tracker transactionId)]
  obtain ⟨m, haction, htransaction, hpeers, hparse⟩ :=
    MessageUdpAnnounceResponse.exists_parseNetwork endian (20 + 6 * min tracker.peers.length 128) hle
  have hcount : 20 + 6 * min tracker.peers.length 128 - MessageUdpAnnounceResponse.kHeaderSize =
      6 * min tracker.peers.length 128 := Nat.add_sub_cancel_left 20 _
  have hwhole : 6 * min tracker.peers.length 128 % MessageUdpAnnounceResponse.kAddressSize = 0 := Nat.mul_mod_right 6 _
  rw [hcount] at hpeers hparse
  rw [if_neg (not_not_intro hwhole)] at hparse
  refine ⟨m, ?_, ?_, ?_, by rw [hbuffer, hparse]⟩
  · rw [← UInt32.toNat_inj, haction, hfield 0 (by decide)]
    exact bigField_flatten (i := 0) rfl rfl (by decide)
  · rw [← UInt32.toNat_inj, htransaction, hfield 4 (by decide)]
    exact bigField_flatten (i := 1) rfl rfl (UInt32.toNat_lt _)
  · by_cases hnil : tracker.peers = []
    · rw [hpeers, hnil]
      exact MessageUdpAnnounceResponse.readPeers_nil endian _
    · have hpos := List.length_pos_of_ne_nil hnil
      have hlisted : (listing (tracker.peers.take 128)).length = 6 * min tracker.peers.length 128 := by
        rw [length_listing, List.length_take, Nat.min_comm]
      obtain ⟨response, hresponse, hcompact⟩ := @MessageUdpAnnounceResponse.parseNetwork_compact endian _ _ rest
        (min tracker.peers.length 128) (length_header tracker transactionId) (by omega) hlisted
      cases hparse.symm.trans hresponse
      rw [hcompact, ← compactPeers_listing, List.length_take, Nat.min_comm]

theorem asyncAnnounce_of_talks (cuts : Bool) (h : tracker.Talks endian request network) :
    ((network.announce.sent = .ok () ∧ ∃ d, network.announce.received = .datagram d) ∧
        (cuts = true ∨ tracker.peers.length ≤ 128)) ∧ (∀ ndebug, ∃ data : TrackerResponse.OnSuccess,
        asyncAnnounce endian ndebug cuts request tracker.connection_id network.announce =
            (if tracker.peers = [] then .failure .todo else .success data) ∧
          data.peers = (tracker.peers.take 128).map (Endpoint.address endian)) ∨
      ¬((network.announce.sent = .ok () ∧ ∃ d, network.announce.received = .datagram d) ∧
        (cuts = true ∨ tracker.peers.length ≤ 128)) ∧
        ∃ e, ∀ ndebug, asyncAnnounce endian ndebug cuts request tracker.connection_id network.announce = .failure e := by
  by_cases hreached : (network.announce.sent = .ok () ∧ ∃ d, network.announce.received = .datagram d) ∧
      (cuts = true ∨ tracker.peers.length ≤ 128)
  · refine .inl ⟨hreached, ?_⟩
    obtain ⟨⟨hsent, d, hd⟩, hfits⟩ := hreached
    obtain ⟨sent, hdatagram, rfl⟩ := h.announce d hd
    cases (announceDatagram_eq endian).symm.trans hdatagram
    obtain ⟨d, hreply⟩ : ∃ d, d = (tracker.header (toBig 4 network.announce.transaction_id.toNat)).flatten ++
      listing tracker.peers := ⟨_, rfl⟩
    rw [reply_announce h.info_hash, ← hreply] at hd
    have hlength : d.length = 20 + 6 * tracker.peers.length := by
      rw [hreply, List.length_append, length_header, length_listing]
    have hdelivers : network.announce.Delivers cuts MessageUdpAnnounceResponse.kSize
        MessageUdpAnnounceResponse.kHeaderSize d := by
      refine ⟨hsent, hd, ?_, hfits.imp_right ?_⟩ <;> rw [hlength]
      · exact Nat.le_add_right 20 _
      · exact fun hle => Nat.add_le_add_left (Nat.mul_le_mul_left 6 hle) 20
    obtain ⟨m, haction, htransaction, hpeers, hparse⟩ :=
      exists_announceResponse endian tracker network.announce.transaction_id
    rw [← hreply] at hparse
    have hread : min d.length MessageUdpAnnounceResponse.kSize = 20 + 6 * min tracker.peers.length 128 := by
      have hsize : MessageUdpAnnounceResponse.kSize = 788 := rfl
      omega
    intro ndebug
    refine ⟨{ rerequest_dt_secs := m.intervals_secs.toUInt64, peers := m.peers }, ?_, hpeers⟩
    rw [asyncAnnounce_of_response hdelivers (by rw [hread, hparse]) haction htransaction, hpeers, List.length_map,
      List.length_take]
    by_cases hnil : tracker.peers = []
    · rw [hnil]
      rfl
    · have hpos := List.length_pos_of_ne_nil hnil
      rw [if_pos (by omega), if_neg hnil]
  · refine .inr ⟨hreached, asyncAnnounce_of_not_delivers endian ?_⟩
    intro d hd
    obtain ⟨sent, hdatagram, rfl⟩ := h.announce d hd.received
    cases (announceDatagram_eq endian).symm.trans hdatagram
    refine hreached ⟨⟨hd.sent, _, hd.received⟩, hd.fits.imp_right ?_⟩
    rw [reply_announce h.info_hash, List.length_append, length_header, length_listing]
    intro hle
    have hsize : MessageUdpAnnounceResponse.kSize = 788 := rfl
    omega

/-- The announce gets the peers of a tracker that is reached, and fails otherwise; no assertion fails. -/
theorem udpTrackerAnnounce_of_talks (h : tracker.Talks endian request network) (ndebug : Bool) :
    tracker.Reached cuts request network ∧ (∃ data : TrackerResponse.OnSuccess,
        udpTrackerAnnounce endian ndebug cuts network request =
            (if tracker.peers = [] then .failure .todo else .success (.onSuccess data)) ∧
          data.peers = (tracker.peers.take 128).map (Endpoint.address endian)) ∨
      ¬tracker.Reached cuts request network ∧ ∃ e, udpTrackerAnnounce endian ndebug cuts network request = .failure e := by
  rw [udpTrackerAnnounce]
  cases hopen : network.open_ with
  | error e =>
    refine .inr ⟨?_, _, rfl⟩
    intro hreached
    cases hopen.symm.trans hreached.open_
  | ok u =>
    cases hresolve : network.resolve request.host (Decimal.natText request.port.toNat) with
    | error e =>
      refine .inr ⟨?_, _, rfl⟩
      intro hreached
      cases hresolve.symm.trans hreached.resolve
    | ok u =>
      simp only [Except.mapError, CoResult.try_]
      rcases asyncConnect_of_talks cuts h with ⟨hconnect, hconnected⟩ | ⟨hconnect, e, hfailed⟩
      · rw [hconnected, CoResult.bind, CoResult.assert_of tracker.connection_id_ne]
        rcases asyncAnnounce_of_talks cuts h with ⟨⟨hannounce, hfits⟩, hannounced⟩ | ⟨hannounce, e, hfailed⟩
        · obtain ⟨data, hdata, hpeers⟩ := hannounced ndebug
          refine .inl ⟨⟨hopen, hresolve, hconnect.1, hconnect.2, hannounce.1, hannounce.2, hfits⟩, data, ?_, hpeers⟩
          rw [hdata]
          split <;> rfl
        · rw [hfailed]
          refine .inr ⟨?_, e, rfl⟩
          intro hreached
          exact hannounce ⟨⟨hreached.announceSent, hreached.announced⟩, hreached.fits⟩
      · rw [hfailed]
        refine .inr ⟨?_, e, rfl⟩
        intro hreached
        exact hconnect ⟨hreached.connectSent, hreached.connected⟩

end

/-! ### All trackers -/

/-- What the client can get where it asks: the peers of a tracker that it reaches, or nothing. -/
inductive TrackerServes (endian : Endian) (max : MaxSize) (cuts : Bool) : Tracker.Request → Contact → List Endpoint → Prop where
  | http {r contact} (tracker : HttpTracker) (h : tracker.answer.Arrives contact.http)
      (hfits : tracker.answer.body.length ≤ max.string) : TrackerServes endian max cuts (.http r) contact tracker.peers
  | https {r contact} (tracker : HttpTracker) (h : tracker.answer.Arrives contact.http)
      (hfits : tracker.answer.body.length ≤ max.string) : TrackerServes endian max cuts (.https r) contact tracker.peers
  | httpDown {r contact e} (h : contact.http.httpGet r.host r.get_uri r.port = .error e) :
      TrackerServes endian max cuts (.http r) contact []
  | httpsDown {r contact e} (h : contact.http.httpGet r.host r.get_uri r.port = .error e) :
      TrackerServes endian max cuts (.https r) contact []
  | udp {r contact} (tracker : UdpTracker) (h : tracker.Talks endian r contact.udp)
      (hreached : tracker.Reached cuts r contact.udp) : TrackerServes endian max cuts (.udp r) contact (tracker.peers.take 128)
  | udpLost {r contact} (tracker : UdpTracker) (h : tracker.Talks endian r contact.udp)
      (hlost : ¬tracker.Reached cuts r contact.udp) : TrackerServes endian max cuts (.udp r) contact []

section
variable {endian : Endian} {max : MaxSize} {strings : Strings max} {ndebug cuts : Bool}
  {request : Tracker.Request} {contact : Contact} {peers : List Endpoint}

/-- The announce ends, and no assertion fails. -/
theorem TrackerServes.announce (strings : Strings max) (ndebug : Bool)
    (h : TrackerServes endian max cuts request contact peers) : ∃ response,
    Converges (fun fuel => announce endian strings ndebug cuts contact fuel request) (.ok response) ∧
      TrackerCall.peers ⟨request, response.mapError fun _ => .todo⟩ = peers.map (Endpoint.address endian) := by
  have hobtained : ∀ {request : Tracker.Request} {response : Except AnnounceError TrackerResponse}, request ≠ .monostate →
      TrackerCall.peers ⟨request, response.mapError fun _ => .todo⟩ = obtained response := by
    intro request response hrequest
    cases request with
    | monostate => exact absurd rfl hrequest
    | http | https | udp =>
      rcases response with e | ⟨⟩ | ⟨data⟩ | ⟨data⟩ <;> rfl
  cases h with
  | http tracker harrives hfits =>
    obtain ⟨response, ⟨n, hn⟩, hpeers⟩ := httpTrackerAnnounce_of_tracker tracker harrives hfits
    exact ⟨response, ⟨n, fun k hk => congrArg (Option.map Except.ok) (hn k hk)⟩, (hobtained (by simp)).trans hpeers⟩
  | https tracker harrives hfits =>
    obtain ⟨response, ⟨n, hn⟩, hpeers⟩ := httpTrackerAnnounce_of_tracker tracker harrives hfits
    exact ⟨response, ⟨n, fun k hk => congrArg (Option.map Except.ok) (hn k hk)⟩, (hobtained (by simp)).trans hpeers⟩
  | httpDown hdown =>
    refine ⟨_, ⟨0, fun k _ => congrArg (Option.map Except.ok) (httpTrackerAnnounce_of_error hdown k)⟩, ?_⟩
    exact hobtained (by simp)
  | httpsDown hdown =>
    refine ⟨_, ⟨0, fun k _ => congrArg (Option.map Except.ok) (httpTrackerAnnounce_of_error hdown k)⟩, ?_⟩
    exact hobtained (by simp)
  | @udp r contact tracker htalks hreached =>
    obtain ⟨-, data, hdata, hpeers⟩ := (udpTrackerAnnounce_of_talks htalks ndebug).resolve_right fun hlost => hlost.1 hreached
    by_cases hnil : tracker.peers = []
    · rw [if_pos hnil] at hdata
      refine ⟨.error (.udp .todo), ⟨0, fun k _ => ?_⟩, ?_⟩
      · simp only [BittorrentClient.announce, hdata]
      · rw [hobtained (by simp), hnil]
        rfl
    · rw [if_neg hnil] at hdata
      refine ⟨.ok (.onSuccess data), ⟨0, fun k _ => ?_⟩, ?_⟩
      · simp only [BittorrentClient.announce, hdata]
      · rw [hobtained (by simp), ← hpeers]
        rfl
  | @udpLost r contact tracker htalks hlost =>
    obtain ⟨-, e, hfailed⟩ := (udpTrackerAnnounce_of_talks htalks ndebug).resolve_left fun hreached => hlost hreached.1
    refine ⟨.error (.udp e), ⟨0, fun k _ => ?_⟩, ?_⟩
    · simp only [BittorrentClient.announce, hfailed]
    · exact hobtained (by simp)

theorem askTrackers_of_serves (strings : Strings max) (ndebug : Bool) {asked : List (Tracker.Request × Contact)} {served : List (List Endpoint)}
    (h : List.Forall₂ (fun a peers => TrackerServes endian max cuts a.1 a.2 peers) asked served) : ∃ calls,
      Converges (fun fuel => askTrackers endian strings ndebug cuts fuel asked) (.ok calls) ∧
        calls.map TrackerCall.request = asked.map Prod.fst ∧
          calls.flatMap TrackerCall.peers = served.flatten.map (Endpoint.address endian) := by
  induction h with
  | nil => exact ⟨[], ⟨0, fun _ _ => rfl⟩, rfl, rfl⟩
  | @cons a peers asked served hserves _ ih =>
    obtain ⟨request, contact⟩ := a
    obtain ⟨response, ⟨n, hn⟩, hpeers⟩ := hserves.announce strings ndebug
    obtain ⟨calls, ⟨n', hn'⟩, hrequests, hcalls⟩ := ih
    refine ⟨⟨request, response.mapError fun _ => .todo⟩ :: calls, ⟨Nat.max n n', ?_⟩, ?_, ?_⟩
    · intro k hk
      have hfirst : announce endian strings ndebug cuts contact k request = _ := hn k (Nat.le_trans (Nat.le_max_left _ _) hk)
      have hrest : askTrackers endian strings ndebug cuts k asked = _ := hn' k (Nat.le_trans (Nat.le_max_right _ _) hk)
      simp only [askTrackers, hfirst, hrest]
      rfl
    · rw [List.map_cons, List.map_cons, hrequests]
    · rw [List.flatMap_cons, hpeers, hcalls, List.flatten_cons, List.map_append]

/-- The list has each peer that was served, once. -/
theorem requestTorrentPeers_served (sort : Sorter PeerAddress.less) {calls : List TrackerCall} {served : List Endpoint}
    (h : calls.flatMap TrackerCall.peers = served.map (Endpoint.address endian)) :
    (served = [] ∧ requestTorrentPeers sort (.ok calls) = .error .todo) ∨
      (served ≠ [] ∧ ∃ addresses, requestTorrentPeers sort (.ok calls) = .ok addresses ∧
        (addresses.map (PeerAddress.asEndpoint endian)).Perm served.dedup) := by
  have hmem : ∀ address, address ∈ removeDuplicates sort (calls.flatMap TrackerCall.peers) ↔
      address.asEndpoint endian ∈ served := by
    intro address
    rw [removeDuplicates, PeerAddress.linear_less.mem_unique_run PeerAddress.equal_iff, h, List.mem_map]
    constructor
    · rintro ⟨endpoint, hendpoint, rfl⟩
      rwa [Endpoint.asEndpoint_address]
    · intro hendpoint
      exact ⟨_, hendpoint, Endpoint.address_asEndpoint endian address⟩
  have hnodup : (removeDuplicates sort (calls.flatMap TrackerCall.peers)).Nodup :=
    PeerAddress.linear_less.nodup_unique_run PeerAddress.equal_iff sort _
  rw [requestTorrentPeers_ok]
  by_cases hnil : served = []
  · have hnone : removeDuplicates sort (calls.flatMap TrackerCall.peers) = [] := by
      refine List.eq_nil_iff_forall_not_mem.mpr ?_
      intro address haddress
      rw [hmem, hnil] at haddress
      cases haddress
    exact .inl ⟨hnil, if_pos hnone⟩
  · obtain ⟨endpoint, hendpoint⟩ := List.exists_mem_of_ne_nil _ hnil
    have hsome : removeDuplicates sort (calls.flatMap TrackerCall.peers) ≠ [] := by
      refine List.ne_nil_of_mem ((hmem (endpoint.address endian)).mpr ?_)
      rwa [Endpoint.asEndpoint_address]
    refine .inr ⟨hnil, _, if_neg hsome, ?_⟩
    have hinjective : Function.Injective (PeerAddress.asEndpoint endian) := by
      intro a b hab
      rw [← Endpoint.address_asEndpoint endian a, hab, Endpoint.address_asEndpoint]
    refine (List.perm_ext_iff_of_nodup (hnodup.map hinjective) (List.nodup_dedup served)).mpr ?_
    intro endpoint
    rw [List.mem_dedup, List.mem_map]
    constructor
    · rintro ⟨address, haddress, rfl⟩
      exact (hmem address).mp haddress
    · intro hendpoint
      refine ⟨endpoint.address endian, (hmem _).mpr ?_, endpoint.asEndpoint_address endian⟩
      rwa [Endpoint.asEndpoint_address]

end

end BittorrentClient
