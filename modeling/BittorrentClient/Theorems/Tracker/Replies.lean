import BittorrentClient.Theorems.Tracker.Datagrams

/-! The exchanges with a UDP tracker: a reply that is as long as a reply has to be is accepted, whatever its action and
    its transaction id are, or it ends the program, as the assertions are there or not. -/

namespace BittorrentClient
open Memcpy ByteOrder

section
variable {endian : Endian} {cuts : Bool}

/-! ### Results -/

namespace CoResult
variable {α : Type}

/-- The result is a failure, or a value that is as it should be. -/
def Meets (good : α → Prop) : CoResult α → Prop
  | .failure _ => True
  | .aborted _ => False
  | .success value => good value

theorem assert_of {ndebug : Bool} {cond : Prop} [Decidable cond] {assertion : UdpAssertion} {rest : CoResult α}
    (h : cond) : assert ndebug cond assertion rest = rest := if_pos (.inr h)

/-- Where the assertions are there, each has to hold. -/
theorem Meets.of_assert {good : α → Prop} {cond : Prop} [Decidable cond] {assertion : UdpAssertion}
    {rest : CoResult α} (h : (assert false cond assertion rest).Meets good) : cond ∧ rest.Meets good := by
  rw [assert] at h
  split at h
  · rename_i hcond
    exact ⟨hcond.resolve_left (by decide), h⟩
  · exact h.elim

end CoResult

/-! ### What is received -/

/-- The exchange gives `d`, with at least `minimum` bytes, into a buffer of `size` bytes. -/
structure UdpExchange.Delivers (exchange : UdpExchange) (cuts : Bool) (size minimum : Nat) (d : List UInt8) : Prop where
  sent : exchange.sent = .ok ()
  received : exchange.received = .datagram d
  minimum_le : minimum ≤ d.length
  fits : cuts = true ∨ d.length ≤ size

theorem receive_of_delivers {size minimum : Nat} {exchange : UdpExchange} {d : List UInt8} (hle : minimum ≤ size)
    (h : exchange.Delivers cuts size minimum d) :
    asyncReceiveWithTimeout cuts size minimum exchange.received =
      (.ok (min d.length size), copy (List.replicate size 0) 0 d) := by
  have hmin := h.minimum_le
  rw [h.received, asyncReceiveWithTimeout, asyncReceiveFrom, if_pos h.fits]
  simp only [receiveResult, Prod.mk.injEq, and_true]
  exact if_pos (by omega)

/-- An exchange that delivers nothing fails in the send or in the receive. -/
theorem receive_of_not_delivers {size minimum : Nat} {exchange : UdpExchange} (hle : minimum ≤ size)
    (h : ∀ d, ¬ exchange.Delivers cuts size minimum d) :
    (∃ e, exchange.sent = .error e) ∨ exchange.sent = .ok () ∧
      ∃ e, (asyncReceiveWithTimeout cuts size minimum exchange.received).1 = .error e := by
  cases hsent : exchange.sent with
  | error e => exact .inl ⟨e, rfl⟩
  | ok u =>
    refine .inr ⟨rfl, ?_⟩
    cases hrec : exchange.received with
    | error e => exact ⟨.socket e, rfl⟩
    | datagram d =>
      rw [asyncReceiveWithTimeout, asyncReceiveFrom]
      by_cases hfits : cuts = true ∨ d.length ≤ size
      · have hshort : ¬ minimum ≤ d.length := fun hmin => h d ⟨hsent, hrec, hmin, hfits⟩
        rw [if_pos hfits]
        exact ⟨.todo, if_neg (by omega)⟩
      · rw [if_neg hfits]
        exact ⟨.socket .messageSize, rfl⟩

/-! ### Connecting -/

/-- The fields of a reply are the big-endian fields of the buffer. -/
theorem MessageUdpConnect.exists_parseNetwork (endian : Endian) {buffer : List UInt8} (h : buffer.length = kSize) :
    ∃ m, parseNetwork endian buffer = .ok m ∧ m.action.toNat = bigField buffer 0 4 ∧
      m.transaction_id.toNat = bigField buffer 4 4 ∧ m.connection_id.toNat = bigField buffer 8 8 := by
  have h16 : buffer.length = 16 := h
  have hne : buffer ≠ [] := List.length_pos_iff.mp (by omega)
  have hlen : ∀ offset size, offset + size ≤ 16 → ((buffer.drop offset).take size).length = size := by
    intro offset size hle
    rw [List.length_take, List.length_drop]
    omega
  have hread : ∀ offset size, offset + size ≤ 16 → BytesReader.readData ⟨buffer, offset, true⟩ size =
      (some ((buffer.drop offset).take size), ⟨buffer, offset + size, true⟩) := by
    intro offset size hle
    exact BytesReader.readData_of_le (by omega)
  have hend : BytesReader.finalize ⟨buffer, 16, true⟩ = true := by simp [BytesReader.finalize, h16]
  refine ⟨⟨endian.bigToNative (endian.ofBytes ((buffer.drop 0).take 4)),
    endian.bigToNative (endian.ofBytes ((buffer.drop 4).take 4)),
    endian.bigToNative64 (endian.ofBytes64 ((buffer.drop 8).take 8))⟩, ?_, Endian.toNat_bigToNative endian (hlen 0 4 (by decide)),
    Endian.toNat_bigToNative endian (hlen 4 4 (by decide)), Endian.toNat_bigToNative64 endian (hlen 8 8 (by decide))⟩
  rw [parseNetwork, BytesReader.make_of_ne_nil hne]
  simp only [hread 0 4 (by decide), hread 4 4 (by decide), hread 8 8 (by decide), hend]

/-- A reply of 16 bytes is taken, up to the assertions. -/
theorem asyncConnect_of_delivers (endian : Endian) {exchanges : Nat → UdpExchange} {d : List UInt8}
    (h : (exchanges 0).Delivers cuts MessageUdpConnect.kSize MessageUdpConnect.kSize d) :
    ∃ m : MessageUdpConnect, m.action.toNat = bigField d 0 4 ∧ m.transaction_id.toNat = bigField d 4 4 ∧
      m.connection_id.toNat = bigField d 8 8 ∧ ∀ ndebug, asyncConnect endian ndebug cuts exchanges =
        .assert ndebug (m.action = 0) .action
          (.assert ndebug (m.transaction_id = (exchanges 0).transaction_id) .transactionId
            (.assert ndebug (m.connection_id ≠ 0) .connectionId (.success m.connection_id))) := by
  have hbuffer : copy (List.replicate MessageUdpConnect.kSize 0) 0 d = d.take MessageUdpConnect.kSize := by
    have htake : (copy (List.replicate MessageUdpConnect.kSize 0) 0 d).take MessageUdpConnect.kSize =
        d.take MessageUdpConnect.kSize := take_copy_zero (by rw [List.length_replicate]) h.minimum_le
    rwa [List.take_of_length_le (by simp)] at htake
  have hlength : (d.take MessageUdpConnect.kSize).length = MessageUdpConnect.kSize := by
    rw [List.length_take, Nat.min_eq_left h.minimum_le]
  obtain ⟨m, hm, haction, htransaction, hconnection⟩ := MessageUdpConnect.exists_parseNetwork endian hlength
  rw [bigField_take (by decide)] at haction htransaction hconnection
  refine ⟨m, haction, htransaction, hconnection, ?_⟩
  intro ndebug
  rw [asyncConnect, kRetryNMax, connectPasses, connectDatagram_eq, h.sent,
    receive_of_delivers (Nat.le_refl _) h, hbuffer]
  simp only [CoResult.serialized, CoResult.try_, Except.mapError, hm]

theorem asyncConnect_of_not_delivers (endian : Endian) {exchanges : Nat → UdpExchange}
    (h : ∀ d, ¬ (exchanges 0).Delivers cuts MessageUdpConnect.kSize MessageUdpConnect.kSize d) :
    ∃ e, ∀ ndebug, asyncConnect endian ndebug cuts exchanges = .failure e := by
  rcases receive_of_not_delivers (Nat.le_refl _) h with ⟨e, hsent⟩ | ⟨hsent, e, hrec⟩
  · refine ⟨.socket e, ?_⟩
    intro ndebug
    rw [asyncConnect, kRetryNMax, connectPasses, connectDatagram_eq, hsent]
    rfl
  · refine ⟨if e ≠ .socket .operationAborted then e else .todo, ?_⟩
    intro ndebug
    rw [asyncConnect, kRetryNMax, connectPasses, connectDatagram_eq, hsent]
    simp only [CoResult.serialized, CoResult.try_, Except.mapError, hrec, connectPasses]
    split <;> rfl

/-- In both builds, a connect request succeeds only with a reply of at least 16 bytes that has action 0, the transaction
    id that was sent and a connection id other than 0, and with that connection id; with all else it fails. -/
def ConnectMatched (endian : Endian) (cuts : Bool) (exchanges : Nat → UdpExchange) : Prop :=
  ∀ ndebug, (asyncConnect endian ndebug cuts exchanges).Meets fun connectionId =>
    ∃ sent d, connectDatagram endian (exchanges 0) = .ok sent ∧ (exchanges 0).received = .datagram d ∧ 16 ≤ d.length ∧
      bigField d 0 4 = 0 ∧ bigField d 4 4 = bigField sent 12 4 ∧ bigField d 8 8 = connectionId.toNat ∧ connectionId ≠ 0

/-- The fields of a datagram are those of a reply to the connect request. -/
def ConnectReply (exchange : UdpExchange) (d : List UInt8) : Prop :=
  bigField d 0 4 = 0 ∧ bigField d 4 4 = exchange.transaction_id.toNat ∧ bigField d 8 8 ≠ 0

theorem connectMatched_iff {exchanges : Nat → UdpExchange} :
    ConnectMatched endian cuts exchanges ↔
      ∀ d, (exchanges 0).Delivers cuts MessageUdpConnect.kSize MessageUdpConnect.kSize d →
        ConnectReply (exchanges 0) d := by
  constructor
  · intro h d hd
    obtain ⟨m, haction, htransaction, hconnection, hresult⟩ := asyncConnect_of_delivers endian hd
    have hm := h false
    rw [hresult] at hm
    obtain ⟨ha, hm⟩ := hm.of_assert
    obtain ⟨ht, hm⟩ := hm.of_assert
    obtain ⟨hc, -⟩ := hm.of_assert
    refine ⟨by rw [← haction, ha]; rfl, by rw [← htransaction, ht], ?_⟩
    rw [← hconnection]
    exact fun h0 => hc (UInt64.toNat_inj.mp h0)
  · intro h ndebug
    by_cases hd : ∃ d, (exchanges 0).Delivers cuts MessageUdpConnect.kSize MessageUdpConnect.kSize d
    · obtain ⟨d, hd⟩ := hd
      obtain ⟨m, haction, htransaction, hconnection, hresult⟩ := asyncConnect_of_delivers endian hd
      obtain ⟨ha, ht, hc⟩ := h d hd
      have hzero : m.connection_id ≠ 0 := by
        intro h0
        rw [← hconnection, h0] at hc
        exact hc rfl
      rw [hresult, CoResult.assert_of ((UInt32.toNat_inj (b := 0)).mp (haction.trans ha)),
        CoResult.assert_of (UInt32.toNat_inj.mp (htransaction.trans ht)), CoResult.assert_of hzero]
      exact ⟨_, d, connectDatagram_eq endian _, hd.received, hd.minimum_le, ha,
        ht.trans (transactionId_connect _).symm, hconnection.symm, hzero⟩
    · obtain ⟨e, he⟩ := asyncConnect_of_not_delivers endian (not_exists.mp hd)
      rw [he]
      trivial

/-! ### Announcing -/

theorem MessageUdpAnnounceResponse.readPeers_nil (endian : Endian) (fuel : Nat) :
    readPeers endian (BytesReader.make []) fuel = [] := by
  cases fuel <;> rfl

/-- The fields of the header are the big-endian fields of the buffer; the addresses are read from what is behind it. -/
theorem MessageUdpAnnounceResponse.exists_parseNetwork (endian : Endian) {buffer : List UInt8} (read : Nat)
    (h : kHeaderSize ≤ buffer.length) :
    ∃ m : MessageUdpAnnounceResponse, m.action.toNat = bigField buffer 0 4 ∧
      m.transaction_id.toNat = bigField buffer 4 4 ∧
      m.peers = readPeers endian (BytesReader.make ((buffer.drop kHeaderSize).take (read - kHeaderSize)))
        (read - kHeaderSize + 1) ∧
      parseNetwork endian buffer read = if (read - kHeaderSize) % kAddressSize ≠ 0 then .error .todo else .ok m := by
  have hlength : (buffer.take kHeaderSize).length = 20 := by rw [List.length_take, Nat.min_eq_left h]; rfl
  have hne : buffer.take kHeaderSize ≠ [] := List.length_pos_iff.mp (by omega)
  have hlen : ∀ offset, offset + 4 ≤ 20 → (((buffer.take kHeaderSize).drop offset).take 4).length = 4 := by
    intro offset hle
    rw [List.length_take, List.length_drop]
    omega
  have hread : ∀ offset, offset + 4 ≤ 20 → BytesReader.readData ⟨buffer.take kHeaderSize, offset, true⟩ 4 =
      (some (((buffer.take kHeaderSize).drop offset).take 4), ⟨buffer.take kHeaderSize, offset + 4, true⟩) := by
    intro offset hle
    exact BytesReader.readData_of_le (by omega)
  have hend : BytesReader.finalize ⟨buffer.take kHeaderSize, 20, true⟩ = true := by
    simp only [BytesReader.finalize, hlength, BEq.rfl, Bool.and_self]
  let word (offset : Nat) : UInt32 :=
    endian.bigToNative (endian.ofBytes (((buffer.take kHeaderSize).drop offset).take 4))
  have hword : ∀ offset, offset + 4 ≤ 20 → (word offset).toNat = bigField buffer offset 4 := by
    intro offset hle
    exact (Endian.toNat_bigToNative endian (hlen offset hle)).trans (bigField_take (n := 20) hle)
  refine ⟨⟨word 0, word 4, word 8, word 12, word 16, readPeers endian
    (BytesReader.make ((buffer.drop kHeaderSize).take (read - kHeaderSize))) (read - kHeaderSize + 1)⟩,
    hword 0 (by decide), hword 4 (by decide), rfl, ?_⟩
  rw [parseNetwork, BytesReader.make_of_ne_nil hne]
  simp only [hread 0 (by decide), hread 4 (by decide), hread 8 (by decide), hread 12 (by decide),
    hread 16 (by decide), hend]
  rfl

section
variable {request : Tracker.UDPRequest} {connectionId : UInt64} {exchange : UdpExchange}

/-- A reply of whole addresses behind 20 bytes is taken, up to the assertions, when there is an address. -/
theorem asyncAnnounce_of_delivers (endian : Endian) {d : List UInt8}
    (h : exchange.Delivers cuts MessageUdpAnnounceResponse.kSize MessageUdpAnnounceResponse.kHeaderSize d) :
    ∃ m : MessageUdpAnnounceResponse, m.action.toNat = bigField d 0 4 ∧ m.transaction_id.toNat = bigField d 4 4 ∧
      (d.length ≤ 20 → m.peers = []) ∧ ∀ ndebug, asyncAnnounce endian ndebug cuts request connectionId exchange =
        if (min d.length 788 - 20) % 6 ≠ 0 then .failure .todo
        else .assert ndebug (m.action = 1) .action
          (.assert ndebug (m.transaction_id = exchange.transaction_id) .transactionId
            (if m.peers.length > 0 then
              .success { rerequest_dt_secs := m.intervals_secs.toUInt64, peers := m.peers }
            else .failure .todo)) := by
  have h20 : 20 ≤ d.length := h.minimum_le
  have hbuffer : (copy (List.replicate MessageUdpAnnounceResponse.kSize 0) 0 d).take 20 = d.take 20 :=
    take_copy_zero (by rw [List.length_replicate]; decide) h20
  have hle : MessageUdpAnnounceResponse.kHeaderSize ≤
      (copy (List.replicate MessageUdpAnnounceResponse.kSize 0) 0 d).length := by
    rw [length_copy, List.length_replicate]
    decide
  have hfield : ∀ offset, offset + 4 ≤ 20 →
      bigField (copy (List.replicate MessageUdpAnnounceResponse.kSize 0) 0 d) offset 4 = bigField d offset 4 := by
    intro offset hoffset
    rw [← bigField_take (n := 20) hoffset, hbuffer, bigField_take hoffset]
  obtain ⟨m, haction, htransaction, hpeers, hparse⟩ :=
    MessageUdpAnnounceResponse.exists_parseNetwork endian (min d.length MessageUdpAnnounceResponse.kSize) hle
  rw [hfield 0 (by decide)] at haction
  rw [hfield 4 (by decide)] at htransaction
  refine ⟨m, haction, htransaction, ?_, ?_⟩
  · intro hshort
    have hnone : min d.length MessageUdpAnnounceResponse.kSize - MessageUdpAnnounceResponse.kHeaderSize = 0 :=
      Nat.sub_eq_zero_of_le (Nat.le_trans (Nat.min_le_left _ _) hshort)
    rw [hpeers, hnone, List.take_zero]
    exact MessageUdpAnnounceResponse.readPeers_nil endian _
  · intro ndebug
    have hread : min d.length MessageUdpAnnounceResponse.kSize ≥ MessageUdpAnnounceResponse.kHeaderSize :=
      Nat.le_min.mpr ⟨h20, by decide⟩
    rw [asyncAnnounce, announceDatagram_eq, h.sent, receive_of_delivers (by decide) h]
    simp only [CoResult.serialized, CoResult.try_, Except.mapError]
    rw [CoResult.assert_of hread]
    by_cases hwhole : (min d.length 788 - 20) % 6 ≠ 0
    · rw [if_pos hwhole, hparse.trans (if_pos hwhole)]
    · rw [if_neg hwhole, hparse.trans (if_neg hwhole)]

theorem asyncAnnounce_of_not_delivers (endian : Endian)
    (h : ∀ d, ¬ exchange.Delivers cuts MessageUdpAnnounceResponse.kSize MessageUdpAnnounceResponse.kHeaderSize d) :
    ∃ e, ∀ ndebug, asyncAnnounce endian ndebug cuts request connectionId exchange = .failure e := by
  rcases receive_of_not_delivers (by decide) h with ⟨e, hsent⟩ | ⟨hsent, e, hrec⟩
  · refine ⟨.socket e, ?_⟩
    intro ndebug
    rw [asyncAnnounce, announceDatagram_eq, hsent]
    rfl
  · refine ⟨.todo, ?_⟩
    intro ndebug
    rw [asyncAnnounce, announceDatagram_eq, hsent]
    simp only [CoResult.serialized, CoResult.try_, Except.mapError, hrec]

end

/-- In both builds, an announce request succeeds only with a reply of at least 20 bytes that has action 1, the
    transaction id that was sent and addresses of peers; with all else it fails. -/
def AnnounceMatched (endian : Endian) (cuts : Bool) (request : Tracker.UDPRequest) (connectionId : UInt64)
    (exchange : UdpExchange) : Prop :=
  ∀ ndebug, (asyncAnnounce endian ndebug cuts request connectionId exchange).Meets fun response =>
    ∃ sent d, announceDatagram endian request connectionId exchange = .ok sent ∧ exchange.received = .datagram d ∧
      20 < d.length ∧ bigField d 0 4 = 1 ∧ bigField d 4 4 = bigField sent 12 4 ∧ response.peers ≠ []

/-- The fields of a datagram are those of a reply to the announce request. -/
def AnnounceReply (exchange : UdpExchange) (d : List UInt8) : Prop :=
  bigField d 0 4 = 1 ∧ bigField d 4 4 = exchange.transaction_id.toNat

theorem announceMatched_iff {request : Tracker.UDPRequest} {connectionId : UInt64} {exchange : UdpExchange} :
    AnnounceMatched endian cuts request connectionId exchange ↔
      ∀ d, exchange.Delivers cuts MessageUdpAnnounceResponse.kSize MessageUdpAnnounceResponse.kHeaderSize d →
        (min d.length 788 - 20) % 6 = 0 → AnnounceReply exchange d := by
  constructor
  · intro h d hd hwhole
    obtain ⟨m, haction, htransaction, -, hresult⟩ := asyncAnnounce_of_delivers endian hd
    have hm := h false
    rw [hresult, if_neg (not_not_intro hwhole)] at hm
    obtain ⟨ha, hm⟩ := hm.of_assert
    obtain ⟨ht, -⟩ := hm.of_assert
    exact ⟨by rw [← haction, ha]; rfl, by rw [← htransaction, ht]⟩
  · intro h ndebug
    by_cases hd : ∃ d, exchange.Delivers cuts MessageUdpAnnounceResponse.kSize
        MessageUdpAnnounceResponse.kHeaderSize d
    · obtain ⟨d, hd⟩ := hd
      obtain ⟨m, haction, htransaction, hpeers, hresult⟩ := asyncAnnounce_of_delivers endian hd
      rw [hresult]
      by_cases hwhole : (min d.length 788 - 20) % 6 = 0
      · obtain ⟨ha, ht⟩ := h d hd hwhole
        rw [if_neg (not_not_intro hwhole), CoResult.assert_of ((UInt32.toNat_inj (b := 1)).mp (haction.trans ha)),
          CoResult.assert_of (UInt32.toNat_inj.mp (htransaction.trans ht))]
        split
        · rename_i hsome
          have hne : m.peers ≠ [] := List.length_pos_iff.mp hsome
          refine ⟨_, d, announceDatagram_eq endian, hd.received, ?_, ha, ht.trans transactionId_announce.symm, hne⟩
          exact Nat.lt_of_not_le fun hshort => hne (hpeers hshort)
        · trivial
      · rw [if_pos hwhole]
        trivial
    · obtain ⟨e, he⟩ := asyncAnnounce_of_not_delivers endian (not_exists.mp hd)
      rw [he]
      trivial

/-! ### Both exchanges -/

/-- The replies to the connect requests and to the announce request are matched to them. -/
def RepliesMatched (endian : Endian) (cuts : Bool) (connects : Nat → UdpExchange) (request : Tracker.UDPRequest)
    (connectionId : UInt64) (announce : UdpExchange) : Prop :=
  ConnectMatched endian cuts connects ∧ AnnounceMatched endian cuts request connectionId announce

/-- The replies are matched to the requests exactly when the fields are right in every datagram of at least 16 bytes
    that a connect request receives, and in every datagram of a header and whole addresses that an announce request
    receives. -/
theorem repliesMatched_iff {connects : Nat → UdpExchange} {request : Tracker.UDPRequest} {connectionId : UInt64}
    {announce : UdpExchange} :
    RepliesMatched endian cuts connects request connectionId announce ↔
      (∀ d, (connects 0).Delivers cuts MessageUdpConnect.kSize MessageUdpConnect.kSize d →
        ConnectReply (connects 0) d) ∧
      ∀ d, announce.Delivers cuts MessageUdpAnnounceResponse.kSize MessageUdpAnnounceResponse.kHeaderSize d →
        (min d.length 788 - 20) % 6 = 0 → AnnounceReply announce d :=
  and_congr connectMatched_iff announceMatched_iff

/-- An error reply, with action 3, to a connect request with the transaction id 7. -/
def errorReply : UdpExchange where
  transaction_id := 7
  received := .datagram ([0, 0, 0, 3, 0, 0, 0, 7] ++ FlatMemory.ascii "no such torrent")

-- Without the assertions, the text of the error is the connection id.
example : asyncConnect .little true true (fun _ => errorReply) = .success 0x6E6F207375636820 := by decide

theorem not_repliesMatched_errorReply : ¬ RepliesMatched .little true (fun _ => errorReply) {} 1 errorReply := by
  intro h
  have haborted : asyncConnect .little false true (fun _ => errorReply) = .aborted .action := by decide
  have hmatched := h.1 false
  rw [haborted] at hmatched
  exact hmatched

end

end BittorrentClient
