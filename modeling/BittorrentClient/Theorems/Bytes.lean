import BittorrentClient.Client.Bytes

/-! Sequences of calls of `BytesReader`: up to the first call that the buffer is too short for they deliver one slice
    after the other, and from it on nothing. What `BytesWriter` writes is read back. -/

namespace BittorrentClient
open ByteOrder

namespace BytesReader

/-! ### Calls -/

/-- A call of `read_data` or of `consume`. -/
inductive Call where
  | readData (size : Nat)
  | consume (size : Nat)
  deriving DecidableEq, Repr

/-- What a call leaves in its argument: bytes, or the offset that a pointer is set to. -/
inductive Delivery where
  | bytes (bytes : List UInt8)
  | pointer (offset : Nat)
  deriving DecidableEq, Repr

def Call.size : Call → Nat
  | .readData size => size
  | .consume size => size

/-- One call; `none` where its argument is left as it was. -/
def call (r : BytesReader) : Call → Option Delivery × BytesReader
  | .readData size => ((r.readData size).1.map .bytes, (r.readData size).2)
  | .consume size => ((r.consume size).1.map .pointer, (r.consume size).2)

def calls (r : BytesReader) : List Call → List (Option Delivery) × BytesReader
  | [] => ([], r)
  | c :: cs => ((r.call c).1 :: ((r.call c).2.calls cs).1, ((r.call c).2.calls cs).2)

def total (cs : List Call) : Nat := (cs.map Call.size).sum

/-- The slice of a call at an offset of the buffer. -/
def delivery (buffer : List UInt8) (offset : Nat) : Call → Delivery
  | .readData size => .bytes ((buffer.drop offset).take size)
  | .consume _ => .pointer offset

/-- The slices of calls, one after the other. -/
def deliveries (buffer : List UInt8) : Nat → List Call → List Delivery
  | _, [] => []
  | offset, c :: cs => delivery buffer offset c :: deliveries buffer (offset + c.size) cs

section
variable {buffer : List UInt8} {current : Nat} {c : Call} {cs : List Call}

theorem total_cons (c : Call) (cs : List Call) : total (c :: cs) = c.size + total cs := List.sum_cons

theorem call_of_le (h : current + c.size ≤ buffer.length) :
    call ⟨buffer, current, true⟩ c = (some (delivery buffer current c), ⟨buffer, current + c.size, true⟩) := by
  cases c with
  | readData size =>
    have hsize : current + size ≤ buffer.length := h
    rw [call, readData_of_le hsize]
    rfl
  | consume size =>
    have hsize : current + size ≤ buffer.length := h
    rw [call, consume_eq, readData_of_le hsize]
    rfl

/-- The call that the buffer is too short for. -/
theorem call_of_lt (hcurrent : current ≤ buffer.length) (h : buffer.length < current + c.size) :
    call ⟨buffer, current, true⟩ c = (none, ⟨buffer, current, false⟩) := by
  cases c with
  | readData size =>
    have hsize : buffer.length < current + size := h
    rw [call, readData_of_lt (by omega)]
    rfl
  | consume size =>
    have hsize : buffer.length < current + size := h
    rw [call, consume_eq, readData_of_lt (by omega)]
    rfl

/-- The error is sticky. -/
theorem calls_invalid (buffer : List UInt8) (current : Nat) (cs : List Call) :
    calls ⟨buffer, current, false⟩ cs = (List.replicate cs.length none, ⟨buffer, current, false⟩) := by
  induction cs with
  | nil => rfl
  | cons c cs ih =>
    have hcall : call ⟨buffer, current, false⟩ c = (none, ⟨buffer, current, false⟩) := by
      cases c <;> rfl
    rw [calls, hcall, ih, List.length_cons, List.replicate_succ]

theorem calls_of_le (h : current + total cs ≤ buffer.length) : calls ⟨buffer, current, true⟩ cs =
    ((deliveries buffer current cs).map some, ⟨buffer, current + total cs, true⟩) := by
  induction cs generalizing current with
  | nil => rfl
  | cons c cs ih =>
    rw [total_cons] at h
    rw [calls, call_of_le (by omega), ih (by omega), deliveries, List.map_cons, total_cons, Nat.add_assoc]

theorem calls_append (r : BytesReader) (before after : List Call) : r.calls (before ++ after) =
    ((r.calls before).1 ++ ((r.calls before).2.calls after).1, ((r.calls before).2.calls after).2) := by
  induction before generalizing r with
  | nil => rfl
  | cons c before ih => rw [List.cons_append, calls, ih, calls, List.cons_append]

/-- From the first call on that the buffer is too short for, nothing is delivered and the cursor stays. -/
theorem calls_of_lt {before after : List Call} (hbefore : current + total before ≤ buffer.length)
    (h : buffer.length < current + total before + c.size) : calls ⟨buffer, current, true⟩ (before ++ c :: after) =
      ((deliveries buffer current before).map some ++ List.replicate (after.length + 1) none,
        ⟨buffer, current + total before, false⟩) := by
  rw [calls_append, calls_of_le hbefore, calls, call_of_lt hbefore h, calls_invalid, List.replicate_succ]

/-- Calls that ask for more than there is have a first one that the buffer is too short for. -/
theorem exists_first (hcurrent : current ≤ buffer.length) (h : buffer.length < current + total cs) :
    ∃ before c after, cs = before ++ c :: after ∧ current + total before ≤ buffer.length ∧
      buffer.length < current + total before + c.size := by
  induction cs generalizing current with
  | nil => exact absurd h (Nat.not_lt_of_le hcurrent)
  | cons c cs ih =>
    rcases Nat.lt_or_ge buffer.length (current + c.size) with hlt | hle
    · exact ⟨[], c, cs, rfl, hcurrent, hlt⟩
    · rw [total_cons, ← Nat.add_assoc] at h
      obtain ⟨before, c', after, rfl, hbefore, hfirst⟩ := ih hle h
      refine ⟨c :: before, c', after, rfl, ?_, ?_⟩
      · rw [total_cons, ← Nat.add_assoc]
        exact hbefore
      · rw [total_cons, ← Nat.add_assoc]
        exact hfirst

/-- The buffer is read to its end exactly when the calls ask for all of it. -/
theorem finalize_calls_iff (hcurrent : current ≤ buffer.length) (cs : List Call) :
    (calls ⟨buffer, current, true⟩ cs).2.finalize = true ↔ current + total cs = buffer.length := by
  rcases Nat.lt_or_ge buffer.length (current + total cs) with hlt | hle
  · obtain ⟨before, c, after, rfl, hbefore, hfirst⟩ := exists_first hcurrent hlt
    rw [calls_of_lt hbefore hfirst]
    exact iff_of_false Bool.false_ne_true (Nat.ne_of_gt hlt)
  · rw [calls_of_le hle, finalize, Bool.true_and, beq_iff_eq]

end

/-- What calls over a whole buffer do: they finish when they ask for all of it; those that fit deliver slices one after
    the other, with the rest remaining; from the first one on that does not fit nothing is delivered, the cursor stays
    and the error is told. -/
structure Reads (buffer : List UInt8) (cs : List Call) : Prop where
  finalize : ((make buffer).calls cs).2.finalize = true ↔ total cs = buffer.length
  within : total cs ≤ buffer.length → ((make buffer).calls cs).1 = (deliveries buffer 0 cs).map some ∧
    ((make buffer).calls cs).2.getRemaining = some (buffer.length - total cs)
  beyond : ∀ before c after, cs = before ++ c :: after → total before ≤ buffer.length →
    buffer.length < total before + c.size →
      ((make buffer).calls cs).1 = (deliveries buffer 0 before).map some ++ List.replicate (after.length + 1) none ∧
      ((make buffer).calls cs).2.current = total before ∧ ((make buffer).calls cs).2.getRemaining = none ∧
      ((make buffer).calls cs).2.finalize = false

theorem reads {buffer : List UInt8} (h : buffer ≠ []) (cs : List Call) : Reads buffer cs := by
  have hmake : make buffer = ⟨buffer, 0, true⟩ := make_of_ne_nil h
  refine ⟨?_, ?_, ?_⟩
  · rw [hmake, finalize_calls_iff (Nat.zero_le _), Nat.zero_add]
  · intro hle
    rw [hmake, calls_of_le (by rwa [Nat.zero_add]), Nat.zero_add]
    exact ⟨rfl, rfl⟩
  · rintro before c after rfl hbefore hfirst
    rw [hmake, calls_of_lt (by rwa [Nat.zero_add]) (by rwa [Nat.zero_add]), Nat.zero_add]
    exact ⟨rfl, rfl, rfl, rfl⟩

theorem deliveries_chunks (chunks : List (List UInt8)) (done : List UInt8) :
    deliveries (done ++ chunks.flatten) done.length (chunks.map fun chunk => .readData chunk.length) =
      chunks.map .bytes := by
  induction chunks generalizing done with
  | nil => rfl
  | cons chunk chunks ih =>
    have hrest := ih (done ++ chunk)
    rw [List.length_append, List.append_assoc] at hrest
    rw [List.map_cons, deliveries, List.flatten_cons, delivery, List.drop_left' rfl, List.take_left' rfl, Call.size,
      hrest, List.map_cons]

theorem total_chunks (chunks : List (List UInt8)) :
    total (chunks.map fun chunk => .readData chunk.length) = chunks.flatten.length := by
  rw [total, List.map_map, List.length_flatten]
  rfl

end BytesReader

/-! ### Writing and reading back -/

/-- Chunks that fill a buffer are written over whatever it had, and reads of their sizes return them and finish. -/
def ChunksReadBack (buffer : List UInt8) (chunks : List (List UInt8)) : Prop :=
  (BytesWriter.make buffer).writeAll chunks = .ok chunks.flatten ∧
    ((BytesReader.make chunks.flatten).calls (chunks.map fun chunk => .readData chunk.length)).1 =
      chunks.map (fun chunk => some (.bytes chunk)) ∧
    ((BytesReader.make chunks.flatten).calls (chunks.map fun chunk => .readData chunk.length)).2.finalize = true

theorem chunks_readBack {buffer : List UInt8} (h : buffer ≠ []) {chunks : List (List UInt8)}
    (hsize : chunks.flatten.length = buffer.length) : ChunksReadBack buffer chunks := by
  have hne : chunks.flatten ≠ [] := by
    rw [← List.length_pos_iff, hsize]
    exact List.length_pos_iff.mpr h
  have hreads := BytesReader.reads hne (chunks.map fun chunk => .readData chunk.length)
  have htotal := BytesReader.total_chunks chunks
  refine ⟨?_, ?_, hreads.finalize.mpr htotal⟩
  · exact BytesWriter.writeAll_eq chunks [] buffer hsize.symm
  · rw [(hreads.within (Nat.le_of_eq htotal)).1]
    have hslices := BytesReader.deliveries_chunks chunks []
    rw [List.nil_append] at hslices
    exact (congrArg (List.map some) hslices).trans (List.map_map ..)

/-- A word in network order has its most significant byte first in memory, and is the same word when it is read back. -/
structure NetworkOrder {Word : Type} (width : Nat) (toNat : Word → Nat) (bytes : Word → List UInt8)
    (ofBytes : List UInt8 → Word) (nativeToBig bigToNative : Word → Word) : Prop where
  bytes_nativeToBig : ∀ x, bytes (nativeToBig x) = toBig width (toNat x)
  readBack : ∀ x, bigToNative (ofBytes (bytes (nativeToBig x))) = x
  bigToNative_nativeToBig : ∀ x, bigToNative (nativeToBig x) = x
  nativeToBig_bigToNative : ∀ x, nativeToBig (bigToNative x) = x

/-- One reversal goes both ways. -/
theorem NetworkOrder.of_involutive {Word : Type} {width : Nat} {toNat : Word → Nat} {bytes : Word → List UInt8}
    {ofBytes : List UInt8 → Word} {nativeToBig bigToNative : Word → Word} (hsame : bigToNative = nativeToBig)
    (hinverse : ∀ x, nativeToBig (nativeToBig x) = x) (hbytes : ∀ x, bytes (nativeToBig x) = toBig width (toNat x))
    (hofBytes : ∀ x, ofBytes (bytes x) = x) : NetworkOrder width toNat bytes ofBytes nativeToBig bigToNative := by
  subst hsame
  refine ⟨hbytes, ?_, hinverse, hinverse⟩
  intro x
  rw [hofBytes, hinverse]

section
variable (endian : Endian)

theorem networkOrder16 :
    NetworkOrder 2 UInt16.toNat endian.bytes16 endian.ofBytes16 endian.nativeToBig16 endian.bigToNative16 := by
  refine .of_involutive ?_ ?_ endian.bytes16_nativeToBig16 endian.ofBytes16_bytes16
  · cases endian <;> rfl
  · intro x
    cases endian
    · exact Endian.endianReverse16_endianReverse16 x
    · rfl

theorem networkOrder32 :
    NetworkOrder 4 UInt32.toNat endian.bytes endian.ofBytes endian.nativeToBig endian.bigToNative := by
  refine .of_involutive ?_ ?_ endian.bytes_nativeToBig endian.ofBytes_bytes
  · cases endian <;> rfl
  · intro x
    cases endian
    · exact Endian.endianReverse_endianReverse x
    · rfl

theorem networkOrder64 :
    NetworkOrder 8 UInt64.toNat endian.bytes64 endian.ofBytes64 endian.nativeToBig64 endian.bigToNative64 := by
  refine .of_involutive ?_ ?_ endian.bytes64_nativeToBig64 endian.ofBytes64_bytes64
  · cases endian <;> rfl
  · intro x
    cases endian
    · exact Endian.endianReverse64_endianReverse64 x
    · rfl

end

/-- The reader over a buffer, what the writer wrote to it, and the words in it. -/
structure Codec (endian : Endian) (buffer : List UInt8) : Prop where
  reads : ∀ cs, BytesReader.Reads buffer cs
  readBack : ∀ chunks : List (List UInt8), chunks.flatten.length = buffer.length → ChunksReadBack buffer chunks
  word16 : NetworkOrder 2 UInt16.toNat endian.bytes16 endian.ofBytes16 endian.nativeToBig16 endian.bigToNative16
  word32 : NetworkOrder 4 UInt32.toNat endian.bytes endian.ofBytes endian.nativeToBig endian.bigToNative
  word64 : NetworkOrder 8 UInt64.toNat endian.bytes64 endian.ofBytes64 endian.nativeToBig64 endian.bigToNative64

theorem codec (endian : Endian) (buffer : List UInt8) (h : buffer ≠ []) : Codec endian buffer where
  reads := BytesReader.reads h
  readBack _ hsize := chunks_readBack h hsize
  word16 := networkOrder16 endian
  word32 := networkOrder32 endian
  word64 := networkOrder64 endian

/-- Two bytes of three are read; then two are asked for again, and the one that is left after that. -/
theorem codec_threeBytes : [10, 20, 30] ≠ [] ∧ Codec .little [10, 20, 30] ∧
    ((BytesReader.make [10, 20, 30]).calls [.readData 2, .consume 2, .readData 1]).1 =
      [some (.bytes [10, 20]), none, none] :=
  ⟨List.cons_ne_nil _ _, codec .little [10, 20, 30] (List.cons_ne_nil _ _), by decide⟩

end BittorrentClient
