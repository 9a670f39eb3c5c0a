import BittorrentClient.Lib.BitArray
import BittorrentClient.Theorems.Frames

/-! The bitfield of a peer: what `set_piece` does to the pieces that `has_piece` tells of. -/

namespace BittorrentClient.MessageBitfield

/-- The pieces are the bits behind the id. -/
theorem hasPiece_eq (id : UInt8) (body : List UInt8) (i : Nat) : hasPiece ⟨id :: body⟩ i = BitArray.get body i :=
  hasPiece_cons id body i

theorem one_shiftLeft {offset : Nat} (h : offset < 8) :
    (1 : UInt8) <<< (7 - UInt8.ofNat offset) = UInt8.ofNat (2 ^ (7 - offset)) := by
  have hall : ∀ k < 8, (1 : UInt8) <<< (7 - UInt8.ofNat k) = UInt8.ofNat (2 ^ (7 - k)) := by decide
  exact hall offset h

theorem le_div_eight {n i : Nat} (h : 8 * n ≤ i) : n ≤ i / 8 := by
  rwa [Nat.le_div_iff_mul_le (Nat.zero_lt_succ 7), Nat.mul_comm]

section
variable {m : MessageBitfield} {id : UInt8} {body : List UInt8} {i : UInt64}

theorem setPieceChecked_of_lt (h : i.toNat < 8 * body.length) :
    setPieceChecked ⟨id :: body⟩ i = .ok (true, ⟨id :: BitArray.set body i.toNat⟩) := by
  have hbyte : i.toNat / 8 < body.length := Nat.div_lt_of_lt_mul h
  have hcount : count ⟨id :: body⟩ = body.length := rfl
  rw [setPieceChecked, hcount]
  simp only [List.length_cons, List.modify_succ_cons, one_shiftLeft (Nat.mod_lt i.toNat (by decide : 0 < 8))]
  rw [if_neg (Nat.not_le_of_lt hbyte), if_pos (Nat.succ_lt_succ hbyte)]
  rfl

theorem setPieceChecked_of_le (h : 8 * body.length ≤ i.toNat) :
    setPieceChecked ⟨id :: body⟩ i = .ok (false, ⟨id :: body⟩) := by
  have hbyte : body.length ≤ i.toNat / 8 := le_div_eight h
  exact if_pos hbyte

/-- The difference wraps, so that no index is refused. -/
theorem setPieceChecked_empty (i : UInt64) : setPieceChecked ⟨[]⟩ i = .error .outsideData := by
  have hbyte : ¬i.toNat / 8 ≥ count ⟨[]⟩ := by
    have hlt := i.toNat_lt
    have hcount : count ⟨[]⟩ = 2 ^ 64 - 1 := rfl
    omega
  rw [setPieceChecked]
  exact if_neg hbyte

/-- The download takes `set_piece` for what it does to a bitfield that was received. -/
theorem setPieceChecked_eq (h : m.data ≠ []) (i : UInt64) : m.setPieceChecked i = .ok (m.setPiece i.toNat) := by
  obtain ⟨data⟩ := m
  obtain ⟨id, body, rfl⟩ := List.exists_cons_of_ne_nil h
  rcases Nat.lt_or_ge i.toNat (8 * body.length) with hlt | hle
  · have hbyte : i.toNat / 8 < body.length := Nat.div_lt_of_lt_mul hlt
    rw [setPieceChecked_of_lt hlt, setPiece, if_neg (by simpa using hbyte)]
    simp only [List.modify_succ_cons, one_shiftLeft (Nat.mod_lt i.toNat (by decide : 0 < 8))]
    rfl
  · have hbyte : body.length ≤ i.toNat / 8 := le_div_eight hle
    rw [setPieceChecked_of_le hle, setPiece, if_pos (by simpa using hbyte)]

end

/-- What a call of `set_piece` does: it touches no byte outside the data, and sets the bit of the piece where there is
    one, and no other. -/
structure SetsPiece (m : MessageBitfield) (i : UInt64) (set : Bool) (m' : MessageBitfield) : Prop where
  result : m.setPieceChecked i = .ok (set, m')
  inside : set = true ↔ i.toNat < 8 * (m.data.length - 1)
  sets : set = true → m'.hasPiece i.toNat = true
  keeps : set = true → ∀ j : UInt64, j ≠ i → m'.hasPiece j.toNat = m.hasPiece j.toNat
  size : m'.data.length = m.data.length
  id : m'.data.head? = m.data.head?
  refused : set = false → m' = m

/-- A call does what it should where there is an id at least. -/
theorem setsPiece_iff (m : MessageBitfield) (i : UInt64) : (∃ set m', SetsPiece m i set m') ↔ m.data ≠ [] := by
  obtain ⟨data⟩ := m
  constructor
  · rintro ⟨set, m', h⟩ rfl
    have hresult := h.result
    rw [setPieceChecked_empty] at hresult
    cases hresult
  · intro hdata
    obtain ⟨id, body, rfl⟩ := List.exists_cons_of_ne_nil hdata
    rcases Nat.lt_or_ge i.toNat (8 * body.length) with hlt | hle
    · refine ⟨_, _, setPieceChecked_of_lt hlt, iff_of_true rfl hlt, ?_, ?_, ?_, rfl, nofun⟩
      · intro _
        rw [hasPiece_eq, BitArray.get_set hlt, decide_eq_true rfl, Bool.true_or]
      · intro _ j hj
        have hne : j.toNat ≠ i.toNat := mt UInt64.toNat_inj.mp hj
        rw [hasPiece_eq, hasPiece_eq, BitArray.get_set hlt, decide_eq_false hne, Bool.false_or]
      · rw [List.length_cons, List.length_cons, BitArray.length_set]
    · refine ⟨_, _, setPieceChecked_of_le hle, iff_of_false Bool.false_ne_true (Nat.not_lt_of_le hle), nofun, nofun,
        rfl, rfl, fun _ => rfl⟩

/-- The bitfield that a peer starts with has no id. -/
theorem not_setsPiece_default : ¬∃ set m', SetsPiece {} 0 set m' := by
  rintro ⟨set, m', h⟩
  cases h.result

end BittorrentClient.MessageBitfield
