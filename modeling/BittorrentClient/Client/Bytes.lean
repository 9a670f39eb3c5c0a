import BittorrentClient.Lib.ByteOrder
import BittorrentClient.Lib.Memcpy
import Mathlib.Tactic.IntervalCases

/-! Words and buffers of bytes (utils_bytes.h, utils_endian.h). -/

namespace BittorrentClient
open Memcpy ByteOrder

/-! ### Words -/

/-- `std::endian::native`. -/
inductive Endian where
  | little | big
  deriving DecidableEq, Repr

/-- `detail::endian_reverse`. -/
def endianReverse (x : UInt32) : UInt32 :=
  let step16 := x <<< 16 ||| x >>> 16
  ((step16 <<< 8) &&& (0xff00ff00 : UInt32)) ||| ((step16 >>> 8) &&& (0x00ff00ff : UInt32))

def endianReverse16 (x : UInt16) : UInt16 := x <<< 8 ||| x >>> 8

def endianReverse64 (x : UInt64) : UInt64 :=
  let step32 := x <<< 32 ||| x >>> 32
  let step16 := (step32 &&& (0x0000FFFF0000FFFF : UInt64)) <<< 16 ||| (step32 &&& (0xFFFF0000FFFF0000 : UInt64)) >>> 16
  (step16 &&& (0x00FF00FF00FF00FF : UInt64)) <<< 8 ||| (step16 &&& (0xFF00FF00FF00FF00 : UInt64)) >>> 8

namespace Endian

def nativeToBig : Endian → UInt32 → UInt32
  | little, x => endianReverse x
  | big, x => x

def bigToNative : Endian → UInt32 → UInt32
  | little, x => endianReverse x
  | big, x => x

/-- The four bytes of a word in memory, least significant byte first. -/
def littleBytes (x : UInt32) : List UInt8 :=
  [UInt8.ofNat x.toNat, UInt8.ofNat (x.toNat / 2 ^ 8), UInt8.ofNat (x.toNat / 2 ^ 16), UInt8.ofNat (x.toNat / 2 ^ 24)]

def ofLittleBytes (bytes : List UInt8) : UInt32 := UInt32.ofNat (bytes.foldr (fun b n => b.toNat + 2 ^ 8 * n) 0)

/-- The bytes of a word in memory. -/
def bytes : Endian → UInt32 → List UInt8
  | little, x => littleBytes x
  | big, x => (littleBytes x).reverse

def ofBytes : Endian → List UInt8 → UInt32
  | little, bs => ofLittleBytes bs
  | big, bs => ofLittleBytes bs.reverse

theorem getLsbD_endianReverse (x : UInt32) {i : Nat} (h : i < 32) :
    (endianReverse x).toBitVec.getLsbD i = x.toBitVec.getLsbD (24 - 8 * (i / 8) + i % 8) := by
  have hmask : ∀ k < 32, (0xff00ff00#32).getLsbD k = decide (k / 8 % 2 = 1) := by decide
  have hmask' : ∀ k < 32, (0x00ff00ff#32).getLsbD k = decide (k / 8 % 2 = 0) := by decide
  have hbits : (endianReverse x).toBitVec =
      (((x.toBitVec <<< 16 ||| x.toBitVec >>> 16) <<< 8) &&& 0xff00ff00#32) |||
        (((x.toBitVec <<< 16 ||| x.toBitVec >>> 16) >>> 8) &&& 0x00ff00ff#32) := rfl
  rw [hbits]
  simp only [BitVec.getLsbD_or, BitVec.getLsbD_and, BitVec.getLsbD_shiftLeft, BitVec.getLsbD_ushiftRight]
  rw [hmask i h, hmask' i h]
  interval_cases i <;> simp

theorem endianReverse_endianReverse (x : UInt32) : endianReverse (endianReverse x) = x := by
  refine UInt32.eq_of_toBitVec_eq (BitVec.eq_of_getLsbD_eq ?_)
  intro i hi
  rw [getLsbD_endianReverse _ hi, getLsbD_endianReverse _ (by omega)]
  congr 1
  omega

@[simp] theorem bigToNative_nativeToBig (endian : Endian) (x : UInt32) :
    endian.bigToNative (endian.nativeToBig x) = x := by
  cases endian
  · exact endianReverse_endianReverse x
  · rfl

theorem ofLittleBytes_littleBytes (x : UInt32) : ofLittleBytes (littleBytes x) = x := by
  have := x.toNat_lt
  rw [← UInt32.toNat_inj]
  simp only [ofLittleBytes, littleBytes, List.foldr, UInt8.toNat_ofNat', UInt32.toNat_ofNat']
  omega

@[simp] theorem ofBytes_bytes (endian : Endian) (x : UInt32) : endian.ofBytes (endian.bytes x) = x := by
  cases endian
  · exact ofLittleBytes_littleBytes x
  · simp only [ofBytes, bytes, List.reverse_reverse, ofLittleBytes_littleBytes]

@[simp] theorem length_bytes (endian : Endian) (x : UInt32) : (endian.bytes x).length = 4 := by
  cases endian <;> rfl

theorem littleBytes_eq (x : UInt32) : littleBytes x = toLittle 4 x.toNat := by
  simp [littleBytes, toLittle, List.range_succ]

theorem toLittle_endianReverse (x : UInt32) : toLittle 4 (endianReverse x).toNat = toBig 4 x.toNat := by
  refine toLittle_eq_toBig ?_
  intro i hi
  exact getLsbD_endianReverse x hi

/-- A word in network order has its most significant byte first. -/
theorem bytes_nativeToBig (endian : Endian) (x : UInt32) : endian.bytes (endian.nativeToBig x) = toBig 4 x.toNat := by
  cases endian
  · exact (littleBytes_eq _).trans (toLittle_endianReverse x)
  · exact congrArg List.reverse (littleBytes_eq x)

theorem toNat_ofLittleBytes {bs : List UInt8} (h : bs.length = 4) : (ofLittleBytes bs).toNat = ofLittle bs := by
  have hlt := ofLittle_lt bs
  rw [h] at hlt
  exact UInt32.toNat_ofNat_of_lt' hlt

/-- A word that is read from network order is the number that its bytes write. -/
theorem toNat_bigToNative (endian : Endian) {bytes : List UInt8} (h : bytes.length = 4) :
    (endian.bigToNative (endian.ofBytes bytes)).toNat = ofBig bytes := by
  cases endian
  · have hbytes := toLittle_ofLittle bytes
    rw [h] at hbytes
    show (endianReverse (ofLittleBytes bytes)).toNat = ofBig bytes
    rw [eq_ofBig (UInt32.toNat_lt _) (toLittle_endianReverse (ofLittleBytes bytes)), toNat_ofLittleBytes h, hbytes]
  · exact toNat_ofLittleBytes (by rw [List.length_reverse, h])

/-! The same for the other widths that `native_to_big` and `big_to_native` are used at. -/

def nativeToBig16 : Endian → UInt16 → UInt16
  | little, x => endianReverse16 x
  | big, x => x

def bigToNative16 : Endian → UInt16 → UInt16
  | little, x => endianReverse16 x
  | big, x => x

def nativeToBig64 : Endian → UInt64 → UInt64
  | little, x => endianReverse64 x
  | big, x => x

def bigToNative64 : Endian → UInt64 → UInt64
  | little, x => endianReverse64 x
  | big, x => x

def bytes16 : Endian → UInt16 → List UInt8
  | little, x => toLittle 2 x.toNat
  | big, x => toBig 2 x.toNat

def bytes64 : Endian → UInt64 → List UInt8
  | little, x => toLittle 8 x.toNat
  | big, x => toBig 8 x.toNat

def ofBytes16 : Endian → List UInt8 → UInt16
  | little, bs => UInt16.ofNat (ofLittle bs)
  | big, bs => UInt16.ofNat (ofBig bs)

def ofBytes64 : Endian → List UInt8 → UInt64
  | little, bs => UInt64.ofNat (ofLittle bs)
  | big, bs => UInt64.ofNat (ofBig bs)

theorem toLittle_endianReverse16 (x : UInt16) : toLittle 2 (endianReverse16 x).toNat = toBig 2 x.toNat := by
  refine toLittle_eq_toBig ?_
  intro i hi
  have hbits : (endianReverse16 x).toBitVec = x.toBitVec <<< 8 ||| x.toBitVec >>> 8 := rfl
  show (endianReverse16 x).toBitVec.getLsbD i = x.toBitVec.getLsbD _
  rw [hbits]
  simp only [BitVec.getLsbD_or, BitVec.getLsbD_shiftLeft, BitVec.getLsbD_ushiftRight]
  interval_cases i <;> simp

theorem toLittle_endianReverse64 (x : UInt64) : toLittle 8 (endianReverse64 x).toNat = toBig 8 x.toNat := by
  refine toLittle_eq_toBig ?_
  intro i hi
  have hbits : (endianReverse64 x).toBitVec =
      ((((x.toBitVec <<< 32 ||| x.toBitVec >>> 32) &&& 0x0000FFFF0000FFFF#64) <<< 16 |||
          ((x.toBitVec <<< 32 ||| x.toBitVec >>> 32) &&& 0xFFFF0000FFFF0000#64) >>> 16) &&& 0x00FF00FF00FF00FF#64) <<< 8 |||
        ((((x.toBitVec <<< 32 ||| x.toBitVec >>> 32) &&& 0x0000FFFF0000FFFF#64) <<< 16 |||
          ((x.toBitVec <<< 32 ||| x.toBitVec >>> 32) &&& 0xFFFF0000FFFF0000#64) >>> 16) &&& 0xFF00FF00FF00FF00#64) >>> 8 :=
    rfl
  show (endianReverse64 x).toBitVec.getLsbD i = x.toBitVec.getLsbD _
  rw [hbits]
  simp only [BitVec.getLsbD_or, BitVec.getLsbD_and, BitVec.getLsbD_shiftLeft, BitVec.getLsbD_ushiftRight]
  interval_cases i <;> simp

/-- Words are in memory as they were copied there. -/
theorem bytes_ofBytes (endian : Endian) {bs : List UInt8} (h : bs.length = 4) : endian.bytes (endian.ofBytes bs) = bs := by
  have hlittle : ∀ {bs : List UInt8}, bs.length = 4 → littleBytes (ofLittleBytes bs) = bs := by
    intro bs hbs
    rw [littleBytes_eq, toNat_ofLittleBytes hbs, ← hbs, toLittle_ofLittle]
  cases endian
  · exact hlittle h
  · show (littleBytes (ofLittleBytes bs.reverse)).reverse = bs
    rw [hlittle (by rw [List.length_reverse, h]), List.reverse_reverse]

theorem bytes16_ofBytes16 (endian : Endian) {bs : List UInt8} (h : bs.length = 2) :
    endian.bytes16 (endian.ofBytes16 bs) = bs := by
  have hword : ∀ {bs : List UInt8}, bs.length = 2 → (UInt16.ofNat (ofLittle bs)).toNat = ofLittle bs := by
    intro bs hbs
    have hlt := ofLittle_lt bs
    rw [hbs] at hlt
    exact UInt16.toNat_ofNat_of_lt' hlt
  cases endian
  · show toLittle 2 (UInt16.ofNat (ofLittle bs)).toNat = bs
    rw [hword h, ← h, toLittle_ofLittle]
  · show (toLittle 2 (UInt16.ofNat (ofLittle bs.reverse)).toNat).reverse = bs
    have hlen : bs.reverse.length = 2 := by rw [List.length_reverse, h]
    rw [hword hlen, ← hlen, toLittle_ofLittle, List.reverse_reverse]

theorem ofBytes16_bytes16 (endian : Endian) (x : UInt16) : endian.ofBytes16 (endian.bytes16 x) = x := by
  have hlittle : UInt16.ofNat (ofLittle (toLittle 2 x.toNat)) = x := by
    rw [ofLittle_toLittle x.toNat_lt, UInt16.ofNat_toNat]
  cases endian
  · exact hlittle
  · show UInt16.ofNat (ofLittle (toLittle 2 x.toNat).reverse.reverse) = x
    rw [List.reverse_reverse, hlittle]

@[simp] theorem length_bytes16 (endian : Endian) (x : UInt16) : (endian.bytes16 x).length = 2 := by
  cases endian
  · exact length_toLittle 2 x.toNat
  · exact length_toBig 2 x.toNat

theorem bytes16_nativeToBig16 (endian : Endian) (x : UInt16) :
    endian.bytes16 (endian.nativeToBig16 x) = toBig 2 x.toNat := by
  cases endian
  · exact toLittle_endianReverse16 x
  · rfl

theorem bytes64_nativeToBig64 (endian : Endian) (x : UInt64) :
    endian.bytes64 (endian.nativeToBig64 x) = toBig 8 x.toNat := by
  cases endian
  · exact toLittle_endianReverse64 x
  · rfl

theorem ofBytes64_bytes64 (endian : Endian) (x : UInt64) : endian.ofBytes64 (endian.bytes64 x) = x := by
  have hlittle : UInt64.ofNat (ofLittle (toLittle 8 x.toNat)) = x := by
    rw [ofLittle_toLittle x.toNat_lt, UInt64.ofNat_toNat]
  cases endian
  · exact hlittle
  · show UInt64.ofNat (ofLittle (toLittle 8 x.toNat).reverse.reverse) = x
    rw [List.reverse_reverse, hlittle]

theorem endianReverse16_endianReverse16 (x : UInt16) : endianReverse16 (endianReverse16 x) = x :=
  UInt16.toNat_inj.mp (eq_of_toLittle_eq_toBig (UInt16.toNat_lt _) x.toNat_lt
    (toLittle_endianReverse16 (endianReverse16 x)) (toLittle_endianReverse16 x))

theorem endianReverse64_endianReverse64 (x : UInt64) : endianReverse64 (endianReverse64 x) = x :=
  UInt64.toNat_inj.mp (eq_of_toLittle_eq_toBig (UInt64.toNat_lt _) x.toNat_lt
    (toLittle_endianReverse64 (endianReverse64 x)) (toLittle_endianReverse64 x))

theorem toNat_bigToNative64 (endian : Endian) {bytes : List UInt8} (h : bytes.length = 8) :
    (endian.bigToNative64 (endian.ofBytes64 bytes)).toNat = ofBig bytes := by
  have hword : ∀ {bs : List UInt8}, bs.length = 8 → (UInt64.ofNat (ofLittle bs)).toNat = ofLittle bs := by
    intro bs hbs
    have hlt := ofLittle_lt bs
    rw [hbs] at hlt
    exact UInt64.toNat_ofNat_of_lt' hlt
  cases endian
  · have hbytes := toLittle_ofLittle bytes
    rw [h] at hbytes
    show (endianReverse64 (UInt64.ofNat (ofLittle bytes))).toNat = ofBig bytes
    rw [eq_ofBig (UInt64.toNat_lt _) (toLittle_endianReverse64 (UInt64.ofNat (ofLittle bytes))), hword h, hbytes]
  · exact hword (by rw [List.length_reverse, h])

end Endian

/-! ### BytesWriter -/

/-- The assertions of `BytesWriter`. -/
inductive WriterAssertion where
  | hasSize | atEnd
  deriving DecidableEq, Repr

/-- A buffer and the offset of `current_` in it. -/
structure BytesWriter where
  buffer : List UInt8
  current : Nat

namespace BytesWriter

def make (data : List UInt8) : BytesWriter := ⟨data, 0⟩

def writeData (w : BytesWriter) (bytes : List UInt8) : Except WriterAssertion BytesWriter :=
  if w.buffer.length - w.current ≥ bytes.length then
    .ok ⟨copy w.buffer w.current bytes, w.current + bytes.length⟩
  else .error .hasSize

/-- The buffer, once `finalize` has checked that it is full. -/
def finalize (w : BytesWriter) : Except WriterAssertion (List UInt8) :=
  if w.current = w.buffer.length then .ok w.buffer else .error .atEnd

/-- The chain of writes over a fresh buffer of `size` bytes, up to `finalize`. -/
def writeAll (w : BytesWriter) : List (List UInt8) → Except WriterAssertion (List UInt8)
  | [] => w.finalize
  | bytes :: rest => do (← w.writeData bytes).writeAll rest

theorem writeAll_eq (chunks : List (List UInt8)) (done old : List UInt8) (h : old.length = chunks.flatten.length) :
    writeAll ⟨done ++ old, done.length⟩ chunks = .ok (done ++ chunks.flatten) := by
  induction chunks generalizing done old with
  | nil =>
    have hold : old = [] := List.length_eq_zero_iff.mp h
    simp only [writeAll, finalize, hold, List.append_nil, List.flatten_nil, ↓reduceIte]
  | cons bytes rest ih =>
    rw [List.flatten_cons, List.length_append] at h
    have hsplit : old = old.take bytes.length ++ old.drop bytes.length := (List.take_append_drop _ _).symm
    have htake : (old.take bytes.length).length = bytes.length := by rw [List.length_take]; omega
    have hwrite : writeData ⟨done ++ old, done.length⟩ bytes =
        .ok ⟨(done ++ bytes) ++ old.drop bytes.length, (done ++ bytes).length⟩ := by
      have hcopy := copy_append done (old.drop bytes.length) htake
      rw [List.append_assoc, ← hsplit] at hcopy
      rw [writeData, if_pos (by simp only [List.length_append]; omega), hcopy, List.length_append]
    have hrest := ih (done ++ bytes) (old.drop bytes.length) (by rw [List.length_drop]; omega)
    rw [writeAll, hwrite, List.flatten_cons, ← List.append_assoc, ← hrest]
    rfl

/-- Chunks that fill a fresh buffer. -/
theorem writeAll_make {size : Nat} {chunks : List (List UInt8)} (h : chunks.flatten.length = size) :
    (make (List.replicate size 0)).writeAll chunks = .ok chunks.flatten :=
  writeAll_eq chunks [] _ (by rw [List.length_replicate, h])

end BytesWriter

/-! ### BytesReader -/

/-- The bytes of the buffer, the offset of `current_` in them, and `valid_`. -/
structure BytesReader where
  buffer : List UInt8
  current : Nat
  valid : Bool

namespace BytesReader

def make (data : List UInt8) : BytesReader := ⟨data, 0, !data.isEmpty⟩

/-- `read_data`: the bytes that are copied out, if they are. -/
def readData (r : BytesReader) (size : Nat) : Option (List UInt8) × BytesReader :=
  if !r.valid then (none, r)
  else if r.buffer.length - r.current < size then (none, { r with valid := false })
  else (some ((r.buffer.drop r.current).take size), { r with current := r.current + size })

/-- `consume`: the offset that the pointer is set to, if it is. -/
def consume (r : BytesReader) (size : Nat) : Option Nat × BytesReader :=
  if !r.valid then (none, r)
  else if r.buffer.length - r.current < size then (none, { r with valid := false })
  else (some r.current, { r with current := r.current + size })

def finalize (r : BytesReader) : Bool := r.valid && r.current == r.buffer.length

/-- `get_remaining`; `none` stands for `std::size_t(-1)`. -/
def getRemaining (r : BytesReader) : Option Nat :=
  if r.valid then some (r.buffer.length - r.current) else none

theorem make_of_ne_nil {data : List UInt8} (h : data ≠ []) : make data = ⟨data, 0, true⟩ := by
  cases data with
  | nil => exact absurd rfl h
  | cons b data => rfl

theorem readData_of_le {data : List UInt8} {current size : Nat} (h : current + size ≤ data.length) :
    readData ⟨data, current, true⟩ size = (some ((data.drop current).take size), ⟨data, current + size, true⟩) := by
  simp only [readData, Bool.not_true, Bool.false_eq_true, ↓reduceIte]
  rw [if_neg (by omega)]

theorem readData_of_lt {data : List UInt8} {current size : Nat} (h : data.length - current < size) :
    readData ⟨data, current, true⟩ size = (none, ⟨data, current, false⟩) := by
  simp only [readData, Bool.not_true, Bool.false_eq_true, ↓reduceIte]
  rw [if_pos h]

/-- A consume is a read that keeps the address in place of the bytes. -/
theorem consume_eq (r : BytesReader) (size : Nat) :
    r.consume size = ((r.readData size).1.map fun _ => r.current, (r.readData size).2) := by
  rw [consume, readData]
  split
  · rfl
  · split <;> rfl

end BytesReader

end BittorrentClient
