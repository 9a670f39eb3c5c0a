import BittorrentClient.Theorems.Messages

/-! The stream of a peer, frame by frame: every call of the reader takes exactly one frame, whatever the frame
    holds, and what it makes of it is determined by the bytes of the frame. -/

namespace BittorrentClient
open ByteOrder

/-- The bytes behind a length prefix. -/
structure Frame where
  payload : List UInt8
  length_lt : payload.length < 2 ^ 32

namespace Frame
variable (f : Frame)

def length : UInt32 := UInt32.ofNat f.payload.length

theorem toNat_length : f.length.toNat = f.payload.length := UInt32.toNat_ofNat_of_lt' f.length_lt

/-- The frame on the wire: the length in four bytes, most significant first, and the payload. -/
def bytes : List UInt8 := toBig 4 f.payload.length ++ f.payload

theorem bytes_eq (endian : Endian) : f.bytes = endian.bytes (endian.nativeToBig f.length) ++ f.payload := by
  rw [bytes, Endian.bytes_nativeToBig, toNat_length]

end Frame

/-- The messages whose parser ignores the payload, by their id; `none` for the kinds with a parser of their own. -/
def plainMessage (id : UInt8) : Option AnyMessage :=
  match id.toNat with
  | 0 => some .choke
  | 1 => some .unchoke
  | 2 => some .interested
  | 3 => some .notInterested
  | 4 => none
  | 5 => none
  | 6 => some (.request {})
  | 7 => none
  | 8 => some .cancel
  | _ => some .unknown

/-- What a payload means. -/
structure Decodes (payload : List UInt8) (result : Except ClientError AnyMessage) : Prop where
  keepAlive : payload = [] → result = .ok .keepAlive
  plain : ∀ id body m, payload = id :: body → plainMessage id = some m → result = .ok m
  have_ : ∀ body, payload = 4 :: body →
    (payload.length = 5 → ∃ m, result = .ok (.have_ m) ∧ m.piece_index.toNat = ofBig body) ∧
    (payload.length ≠ 5 → ∃ e, result = .error e)
  bitfield : ∀ body, payload = 5 :: body → ∃ m, result = .ok (.bitfield m) ∧ m.data = payload ∧
    ∀ i, m.hasPiece i = match body[i / 8]? with
      | some b => b.toNat.testBit (7 - i % 8)
      | none => false
  piece : ∀ body, payload = 7 :: body →
    (payload.length ≥ 10 → ∃ m n, result = .ok (.piece m) ∧ m.piece_index.toNat = bigField payload 1 4 ∧
      m.piece_begin.toNat = bigField payload 5 4 ∧ m.sizeChecked = .ok n ∧ n.toNat = payload.length - 9 ∧
      m.dataChecked = .ok (payload.drop 9)) ∧
    (payload.length < 10 → ∃ e, result = .error e)

section
variable (endian : Endian)

/-- Each call of the reader takes the next frame off the stream, and meets no assertion; behind the last frame
    nothing is left. -/
def InStep : List Frame → List UInt8 → Prop
  | [], stream => stream = []
  | f :: frames, stream => ∃ result rest, stream = f.bytes ++ rest ∧
    readAnyMessageChecked endian stream = .ok (result, rest) ∧ Decodes f.payload result ∧ InStep frames rest

/-! ### The assertions -/

theorem readAnyMessageChecked_eq (stream : List UInt8) :
    readAnyMessageChecked endian stream = .ok (readAnyMessage endian stream) := by
  rw [readAnyMessageChecked, readAnyMessage]
  rcases hprefix : asyncRead 4 stream with ⟨e | lengthBytes, rest⟩
  · rfl
  · simp only
    by_cases hzero : endian.bigToNative (endian.ofBytes lengthBytes) = 0
    · rw [if_pos hzero, if_pos hzero]
    · rw [if_neg hzero, if_neg hzero, asyncRead]
      have hpos : 1 ≤ (endian.bigToNative (endian.ofBytes lengthBytes)).toNat := by
        have := mt (UInt32.toNat_inj (b := 0)).mp hzero
        simp only [UInt32.toNat_zero] at this
        omega
      by_cases hlen : (endian.bigToNative (endian.ofBytes lengthBytes)).toNat ≤ rest.length
      · rw [if_pos hlen]
        simp only
        rw [makeMessageChecked, if_pos (by rw [List.length_take]; omega)]
        rfl
      · rw [if_neg hlen]

/-! ### The payloads -/

/-- What the reader makes of a payload. -/
def Frame.result (f : Frame) : Except ClientError AnyMessage :=
  if f.payload = [] then .ok .keepAlive else makeMessage endian (f.payload.headD 0) f.payload

theorem readAnyMessage_frame (f : Frame) (rest : List UInt8) :
    readAnyMessage endian (f.bytes ++ rest) = (f.result endian, rest) := by
  have hzero : f.length = 0 ↔ f.payload = [] := by
    rw [← UInt32.toNat_inj, f.toNat_length]
    exact List.length_eq_zero_iff
  have hlen : f.payload.length ≤ (f.payload ++ rest).length := by
    rw [List.length_append]
    exact Nat.le_add_right _ _
  rw [f.bytes_eq endian, List.append_assoc, readAnyMessage_length, f.toNat_length, if_pos hlen, List.take_left' rfl,
    List.drop_left' rfl, Frame.result]
  by_cases hnil : f.payload = []
  · rw [if_pos (hzero.mpr hnil), if_pos hnil, hnil]
    rfl
  · rw [if_neg (mt hzero.mp hnil), if_neg hnil]

theorem makeMessage_plain {id : UInt8} {m : AnyMessage} (data : List UInt8) (h : plainMessage id = some m) :
    makeMessage endian id data = .ok m := by
  have eq_of : ∀ {k : UInt8}, id.toNat = k.toNat → id = k := UInt8.toNat_inj.mp
  unfold plainMessage at h
  split at h
  · rename_i hid
    cases eq_of (k := 0) hid
    cases h
    rfl
  · rename_i hid
    cases eq_of (k := 1) hid
    cases h
    rfl
  · rename_i hid
    cases eq_of (k := 2) hid
    cases h
    rfl
  · rename_i hid
    cases eq_of (k := 3) hid
    cases h
    rfl
  · cases h
  · cases h
  · rename_i hid
    cases eq_of (k := 6) hid
    cases h
    rfl
  · cases h
  · rename_i hid
    cases eq_of (k := 8) hid
    cases h
    rfl
  · rename_i h0 h1 h2 h3 h4 h5 h6 h7 h8
    cases h
    have hne : ∀ {k : UInt8}, (id.toNat = k.toNat → False) → ¬id = k := fun hk hid => hk (congrArg UInt8.toNat hid)
    rw [makeMessage, if_neg (hne (k := PeerMessageId.choke) h0), if_neg (hne (k := PeerMessageId.unchoke) h1),
      if_neg (hne (k := PeerMessageId.interested) h2), if_neg (hne (k := PeerMessageId.notInterested) h3),
      if_neg (hne (k := PeerMessageId.have_) h4), if_neg (hne (k := PeerMessageId.bitfield) h5),
      if_neg (hne (k := PeerMessageId.request) h6), if_neg (hne (k := PeerMessageId.piece) h7),
      if_neg (hne (k := PeerMessageId.cancel) h8)]

/-! ### The readers of the payloads -/

/-- The id is read off every payload that has one. -/
theorem BytesReader.readData_id (id : UInt8) (body : List UInt8) :
    (BytesReader.make (id :: body)).readData 1 = (some [id], ⟨id :: body, 1, true⟩) := by
  rw [BytesReader.make_of_ne_nil (List.cons_ne_nil _ _), BytesReader.readData_of_le (by simp)]
  rfl

/-- A Have is an id and a number of four bytes, and nothing else. -/
theorem MessageHave.parseNetwork_cons (id : UInt8) (body : List UInt8) :
    (body.length = 4 → ∃ m, parseNetwork endian (id :: body) = .ok m ∧ m.piece_index.toNat = ofBig body) ∧
      (body.length ≠ 4 → parseNetwork endian (id :: body) = .error .todo) := by
  refine ⟨?_, ?_⟩
  · intro hlen
    have hindex : BytesReader.readData ⟨id :: body, 1, true⟩ 4 = (some body, ⟨id :: body, 5, true⟩) := by
      rw [BytesReader.readData_of_le (by simp [hlen]), List.drop_one, List.tail_cons, List.take_of_length_le (by omega)]
    refine ⟨{ piece_index := endian.bigToNative (endian.ofBytes body) }, ?_, endian.toNat_bigToNative hlen⟩
    rw [parseNetwork, BytesReader.readData_id]
    simp only [hindex, BytesReader.finalize, List.length_cons, hlen]
    rfl
  · intro hlen
    rw [parseNetwork, BytesReader.readData_id]
    simp only
    by_cases hshort : body.length < 4
    · rw [BytesReader.readData_of_lt (by simpa using hshort)]
    · have hend : BytesReader.finalize ⟨id :: body, 1 + 4, true⟩ = false := by
        simp only [BytesReader.finalize, List.length_cons, Bool.true_and, beq_eq_false_iff_ne]
        omega
      rw [BytesReader.readData_of_le (by simp only [List.length_cons]; omega)]
      simp only [hend]

/-- A Piece is an id, two numbers of four bytes, and at least one byte of data. -/
theorem MessagePiece.parseNetwork_cons (id : UInt8) (body : List UInt8) :
    (body.length ≥ 9 → ∃ m, parseNetwork endian (id :: body) = .ok m ∧ m.payload = id :: body ∧ m.data_offset = 9 ∧
      m.piece_index.toNat = bigField (id :: body) 1 4 ∧ m.piece_begin.toNat = bigField (id :: body) 5 4) ∧
      (body.length < 9 → parseNetwork endian (id :: body) = .error .todo) := by
  refine ⟨?_, ?_⟩
  · intro hlen
    have hremaining : BytesReader.getRemaining ⟨id :: body, 1 + 4 + 4, true⟩ = some (body.length - 9 + 1) := by
      simp only [BytesReader.getRemaining, List.length_cons, ↓reduceIte, Option.some.injEq]
      omega
    rw [parseNetwork, BytesReader.readData_id]
    simp only
    rw [BytesReader.readData_of_le (by simp only [List.length_cons]; omega)]
    simp only
    rw [BytesReader.readData_of_le (by simp only [List.length_cons]; omega)]
    simp only [hremaining]
    refine ⟨_, rfl, rfl, rfl, endian.toNat_bigToNative ?_, endian.toNat_bigToNative ?_⟩
    · simp only [List.length_take, List.length_drop, List.length_cons]
      omega
    · simp only [List.length_take, List.length_drop, List.length_cons]
      omega
  · intro hlen
    rw [parseNetwork, BytesReader.readData_id]
    simp only
    by_cases hindex : body.length < 4
    · rw [BytesReader.readData_of_lt (by simpa using hindex)]
    · rw [BytesReader.readData_of_le (by simp only [List.length_cons]; omega)]
      simp only
      by_cases hbegin : body.length < 8
      · rw [BytesReader.readData_of_lt (by simp only [List.length_cons]; omega)]
      · -- Both numbers are there, and no byte of data.
        have hremaining : BytesReader.getRemaining ⟨id :: body, 1 + 4 + 4, true⟩ = some 0 := by
          simp only [BytesReader.getRemaining, List.length_cons, ↓reduceIte, Option.some.injEq]
          omega
        rw [BytesReader.readData_of_le (by simp only [List.length_cons]; omega)]
        simp only [hremaining]

theorem shiftRight_and_one (b : UInt8) {k : Nat} (h : k < 8) :
    ((b >>> (7 - UInt8.ofNat k)) &&& 1 != 0) = b.toNat.testBit (7 - k) := by
  have hshift : (7 - UInt8.ofNat k).toNat = 7 - k := by
    have hk : (UInt8.ofNat k).toNat = k := UInt8.toNat_ofNat_of_lt' (Nat.lt_trans h (by decide))
    rw [UInt8.toNat_sub_of_le _ _ (UInt8.le_iff_toNat_le.mpr (by rw [hk]; exact Nat.le_of_lt_succ h)), hk]
    rfl
  have hbit : ((b >>> (7 - UInt8.ofNat k)) &&& 1).toNat = 1 &&& (b.toNat >>> (7 - k)) := by
    rw [UInt8.toNat_and, UInt8.toNat_shiftRight, hshift, Nat.mod_eq_of_lt (by omega), Nat.and_comm]
    rfl
  rw [Nat.testBit, ← hbit]
  refine Bool.eq_iff_iff.mpr ?_
  rw [bne_iff_ne, bne_iff_ne, ne_eq, ne_eq, ← UInt8.toNat_inj]
  rfl

/-- A bit of a bitfield is a bit of the bytes behind the id. -/
theorem MessageBitfield.hasPiece_cons (id : UInt8) (body : List UInt8) (i : Nat) :
    hasPiece ⟨id :: body⟩ i = match body[i / 8]? with
      | some b => b.toNat.testBit (7 - i % 8)
      | none => false := by
  simp only [hasPiece, List.isEmpty_cons, Bool.false_or, List.length_cons, Nat.add_sub_cancel, decide_eq_true_eq,
    List.getD_eq_getElem?_getD, List.getElem?_cons_succ]
  by_cases hpast : i / 8 ≥ body.length
  · rw [if_pos hpast, List.getElem?_eq_none hpast]
  · have hget : body[i / 8]? = some body[i / 8] := List.getElem?_eq_getElem (Nat.lt_of_not_le hpast)
    rw [if_neg hpast, hget]
    exact shiftRight_and_one _ (Nat.mod_lt _ (by decide))

/-! ### Every frame -/

theorem Frame.decodes (f : Frame) : Decodes f.payload (f.result endian) := by
  refine ⟨?_, ?_, ?_, ?_, ?_⟩
  · intro hnil
    rw [Frame.result, if_pos hnil]
  · intro id body m hpayload hm
    rw [Frame.result, hpayload, if_neg (List.cons_ne_nil _ _)]
    exact makeMessage_plain endian _ hm
  · intro body hpayload
    have hlen : f.payload.length = body.length + 1 := by rw [hpayload, List.length_cons]
    have hresult : f.result endian = (MessageHave.parseNetwork endian (4 :: body)).map .have_ := by
      rw [Frame.result, hpayload]
      rfl
    obtain ⟨hok, herror⟩ := MessageHave.parseNetwork_cons endian 4 body
    refine ⟨?_, ?_⟩
    · intro h
      obtain ⟨m, hm, hindex⟩ := hok (by omega)
      exact ⟨m, by rw [hresult, hm]; rfl, hindex⟩
    · intro h
      exact ⟨_, by rw [hresult, herror (by omega)]; rfl⟩
  · intro body hpayload
    refine ⟨⟨5 :: body⟩, ?_, hpayload.symm, MessageBitfield.hasPiece_cons 5 body⟩
    rw [Frame.result, hpayload]
    rfl
  · intro body hpayload
    have hlen : f.payload.length = body.length + 1 := by rw [hpayload, List.length_cons]
    have hresult : f.result endian = (MessagePiece.parseNetwork endian (7 :: body)).map .piece := by
      rw [Frame.result, hpayload]
      rfl
    obtain ⟨hok, herror⟩ := MessagePiece.parseNetwork_cons endian 7 body
    refine ⟨?_, ?_⟩
    · intro h
      obtain ⟨m, hm, hdata, hoffset, hindex, hbegin⟩ := hok (by omega)
      rw [← hpayload] at hdata hindex hbegin
      have hlt : m.data_offset < m.payload.length := by
        rw [hoffset, hdata]
        omega
      refine ⟨m, m.size, by rw [hresult, hm]; rfl, hindex, hbegin, if_pos hlt, ?_, ?_⟩
      · rw [MessagePiece.size, hoffset, hdata]
        exact UInt32.toNat_ofNat_of_lt' (Nat.lt_of_le_of_lt (Nat.sub_le _ _) f.length_lt)
      · rw [MessagePiece.dataChecked, if_pos hlt, MessagePiece.bytes, hoffset, hdata]
    · intro h
      exact ⟨_, by rw [hresult, herror (by omega)]; rfl⟩

/-- The reader stays in step with the frames: it takes them one by one, also those that it rejects. -/
theorem inStep (frames : List Frame) : InStep endian frames (frames.map Frame.bytes).flatten := by
  induction frames with
  | nil => exact rfl
  | cons f frames ih =>
    refine ⟨f.result endian, (frames.map Frame.bytes).flatten, rfl, ?_, f.decodes endian, ih⟩
    rw [readAnyMessageChecked_eq, List.map_cons, List.flatten_cons, readAnyMessage_frame]

end

end BittorrentClient
