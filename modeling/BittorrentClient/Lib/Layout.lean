import BittorrentClient.Lib.Blocks

/-! Blocks laid out one after the other, some of which may be empty, and what a range cuts out of them. -/

namespace Blocks

/-- The blocks follow each other from the first offset to the second. -/
def Laid : Nat → List Block → Nat → Prop
  | i, [], j => i = j
  | i, b :: bs, j => b.start = i ∧ Laid b.stop bs j

/-- Blocks of the given lengths, laid out from the offset on. -/
def layOut : Nat → List Nat → List Block
  | _, [] => []
  | i, n :: ns => ⟨i, n⟩ :: layOut (i + n) ns

/-- The part of the block in the range from `i` to `j`. -/
def Block.clip (i j : Nat) (b : Block) : Block := ⟨max i b.start, min b.stop j - max i b.start⟩

/-- The block as it is seen from an offset. -/
def Block.since (b : Block) (i : Nat) : Block := ⟨b.start - i, b.length⟩

theorem Block.mem_iff {b : Block} {x : Nat} : x ∈ b ↔ b.start ≤ x ∧ x < b.stop := Iff.rfl

namespace Laid
variable {i j k : Nat} {bs : List Block}

theorem le (h : Laid i bs j) : i ≤ j := by
  induction bs generalizing i with
  | nil => exact Nat.le_of_eq h
  | cons b bs ih =>
    obtain ⟨rfl, h⟩ := h
    exact Nat.le_trans (Nat.le_add_right _ _) (ih h)

theorem total_eq (h : Laid i bs j) : i + total bs = j := by
  induction bs generalizing i with
  | nil => exact h
  | cons b bs ih =>
    obtain ⟨rfl, h⟩ := h
    rw [total_cons, ← Nat.add_assoc]
    exact ih h

theorem unique (h : Laid i bs j) (h' : Laid i bs k) : j = k := by rw [← h.total_eq, ← h'.total_eq]

theorem append_iff {xs ys : List Block} : Laid i (xs ++ ys) j ↔ ∃ k, Laid i xs k ∧ Laid k ys j := by
  induction xs generalizing i with
  | nil =>
    constructor
    · intro h
      exact ⟨i, rfl, h⟩
    · rintro ⟨k, rfl, h⟩
      exact h
  | cons b xs ih =>
    constructor
    · rintro ⟨hb, h⟩
      obtain ⟨k, hxs, hys⟩ := ih.mp h
      exact ⟨k, ⟨hb, hxs⟩, hys⟩
    · rintro ⟨k, ⟨hb, hxs⟩, hys⟩
      exact ⟨hb, ih.mpr ⟨k, hxs, hys⟩⟩

/-- The block at an index, between those before it and those after it. -/
theorem split {n : Nat} {b : Block} (h : Laid i bs j) (hn : bs[n]? = some b) :
    Laid i (bs.take n) b.start ∧ Laid b.stop (bs.drop (n + 1)) j := by
  induction bs generalizing i n with
  | nil => cases hn
  | cons head bs ih =>
    obtain ⟨rfl, h⟩ := h
    cases n with
    | zero =>
      cases hn
      exact ⟨rfl, h⟩
    | succ n =>
      obtain ⟨hbefore, hafter⟩ := ih h hn
      exact ⟨⟨rfl, hbefore⟩, hafter⟩

theorem start_le {n : Nat} {b : Block} (h : Laid i bs j) (hn : bs[n]? = some b) : i ≤ b.start := (h.split hn).1.le

theorem stop_le {n : Nat} {b : Block} (h : Laid i bs j) (hn : bs[n]? = some b) : b.stop ≤ j := (h.split hn).2.le

/-- A block ends before the blocks behind it start. -/
theorem stop_le_start {m n : Nat} {a b : Block} (h : Laid i bs j) (hm : bs[m]? = some a) (hn : bs[n]? = some b)
    (hmn : m < n) : a.stop ≤ b.start := by
  have hafter := (h.split hm).2
  have hb : (bs.drop (m + 1))[n - (m + 1)]? = some b := by
    rw [List.getElem?_drop, Nat.add_sub_cancel' hmn]
    exact hn
  exact hafter.start_le hb

theorem take_succ {n : Nat} {b : Block} (h : Laid i bs j) (hn : bs[n]? = some b) : Laid i (bs.take (n + 1)) b.stop := by
  rw [List.take_add_one, hn]
  exact append_iff.mpr ⟨b.start, (h.split hn).1, rfl, rfl⟩

/-- The next block starts where one ends. -/
theorem stop_eq_start {n : Nat} {a b : Block} (h : Laid i bs j) (hn : bs[n]? = some a) (hnext : bs[n + 1]? = some b) :
    b.start = a.stop := by
  have htake := h.take_succ hn
  have hbefore := (h.split hnext).1
  exact htake.unique hbefore |>.symm

theorem drop {n : Nat} {b : Block} (h : Laid i bs j) (hn : bs[n]? = some b) : Laid b.start (bs.drop n) j := by
  have hhead : bs.drop n = b :: bs.drop (n + 1) := List.drop_eq_getElem?_toList_append.trans (by rw [hn]; rfl)
  rw [hhead]
  exact ⟨rfl, (h.split hn).2⟩

/-- The blocks from one index to another. -/
theorem between {m n : Nat} {a b : Block} (h : Laid i bs j) (hm : bs[m]? = some a) (hn : bs[n]? = some b) (hmn : m ≤ n) :
    Laid a.start ((bs.take (n + 1)).drop m) b.stop :=
  (h.take_succ hn).drop (by rw [List.getElem?_take_of_lt (Nat.lt_succ_of_le hmn)]; exact hm)

theorem pairwise (h : Laid i bs j) : bs.Pairwise fun a b => a.stop ≤ b.start := by
  refine List.pairwise_iff_getElem.mpr ?_
  intro m n hm hn hmn
  exact h.stop_le_start (List.getElem?_eq_getElem hm) (List.getElem?_eq_getElem hn) hmn

theorem pairwise_apart (h : Laid i bs j) : bs.Pairwise Block.Apart := h.pairwise.imp Block.apart_of_le

theorem mem_iff (h : Laid i bs j) (x : Nat) : (∃ b ∈ bs, x ∈ b) ↔ i ≤ x ∧ x < j := by
  induction bs generalizing i with
  | nil =>
    obtain rfl := h
    simp
  | cons b bs ih =>
    obtain ⟨rfl, h⟩ := h
    have hle := h.le
    rw [List.exists_mem_cons_iff, ih h, Block.mem_iff]
    have := Nat.le_add_right b.start b.length
    simp only [Block.stop] at *
    omega

/-- Only one of the blocks has the offset. -/
theorem index_unique {m n x : Nat} {a b : Block} (h : Laid i bs j) (hm : bs[m]? = some a) (hn : bs[n]? = some b)
    (ha : x ∈ a) (hb : x ∈ b) : m = n := by
  rcases Nat.lt_trichotomy m n with hlt | heq | hlt
  · exact absurd (Nat.lt_of_lt_of_le ha.2 (h.stop_le_start hm hn hlt)) (Nat.not_lt.mpr hb.1)
  · exact heq
  · exact absurd (Nat.lt_of_lt_of_le hb.2 (h.stop_le_start hn hm hlt)) (Nat.not_lt.mpr ha.1)

theorem since (h : Laid i bs j) (hki : k ≤ i) : Laid (i - k) (bs.map fun b => b.since k) (j - k) := by
  induction bs generalizing i with
  | nil => exact congrArg (· - k) h
  | cons b bs ih =>
    obtain ⟨rfl, h⟩ := h
    have hstop : (b.since k).stop = b.stop - k := by
      simp only [Block.since, Block.stop]
      omega
    refine ⟨rfl, ?_⟩
    rw [hstop]
    exact ih h (Nat.le_trans hki (Nat.le_add_right _ _))

/-- Lists of the lengths of the blocks, joined, have each list at its block. -/
theorem getElem?_flatten {α : Type} {ls : List (List α)} (h : Laid i bs j)
    (hlength : ls.map List.length = bs.map Block.length) {n x : Nat} {b : Block} {l : List α} (hb : bs[n]? = some b)
    (hl : ls[n]? = some l) (hx : x < l.length) : ls.flatten[b.start - i + x]? = l[x]? := by
  induction bs generalizing i ls n with
  | nil => cases hb
  | cons head bs ih =>
    cases ls with
    | nil => cases hl
    | cons first ls =>
      obtain ⟨rfl, h⟩ := h
      rw [List.map_cons, List.map_cons, List.cons.injEq] at hlength
      rw [List.flatten_cons]
      cases n with
      | zero =>
        cases hb
        cases hl
        rw [Nat.sub_self, Nat.zero_add, List.getElem?_append_left hx]
      | succ n =>
        have hstart := h.start_le hb
        have hrest := ih h hlength.2 hb hl
        simp only [Block.stop] at hstart hrest
        rw [List.getElem?_append_right (by omega), ← hrest]
        congr 1
        omega

theorem length_flatten {α : Type} {ls : List (List α)} (h : Laid i bs j)
    (hlength : ls.map List.length = bs.map Block.length) : i + ls.flatten.length = j := by
  rw [List.length_flatten, hlength]
  exact h.total_eq

end Laid

theorem laid_layOut (i : Nat) (ns : List Nat) : Laid i (layOut i ns) (i + ns.sum) := by
  induction ns generalizing i with
  | nil => rfl
  | cons n ns ih =>
    rw [List.sum_cons, ← Nat.add_assoc]
    exact ⟨rfl, ih (i + n)⟩

@[simp] theorem length_layOut (i : Nat) (ns : List Nat) : (layOut i ns).length = ns.length := by
  induction ns generalizing i with
  | nil => rfl
  | cons n ns ih => exact congrArg (· + 1) (ih (i + n))

theorem getElem?_layOut (i : Nat) (ns : List Nat) (k : Nat) :
    (layOut i ns)[k]? = ns[k]?.map fun n => ⟨i + (ns.take k).sum, n⟩ := by
  induction ns generalizing i k with
  | nil => rfl
  | cons n ns ih =>
    cases k with
    | zero => rfl
    | succ k =>
      rw [layOut, List.getElem?_cons_succ, List.getElem?_cons_succ, ih, List.take_succ_cons, List.sum_cons, Nat.add_assoc]

/-- What a range cuts out of blocks that it meets or touches. -/
theorem Laid.clip {i j a b : Nat} {bs : List Block} (h : Laid i bs j) (hne : bs ≠ []) (hab : a ≤ b)
    (hafter : ∀ block ∈ bs, a ≤ block.stop) (hbefore : ∀ block ∈ bs, block.start ≤ b) :
    Laid (max a i) (bs.map (Block.clip a b)) (min j b) := by
  induction bs generalizing i with
  | nil => exact absurd rfl hne
  | cons block bs ih =>
    obtain ⟨rfl, h⟩ := h
    obtain ⟨hstop, hafter⟩ := List.forall_mem_cons.mp hafter
    obtain ⟨hstart, hbefore⟩ := List.forall_mem_cons.mp hbefore
    have hle : block.start ≤ block.stop := Nat.le_add_right _ _
    have hclip : (block.clip a b).stop = min block.stop b := by
      simp only [Block.clip, Block.stop] at *
      omega
    refine ⟨rfl, ?_⟩
    cases bs with
    | nil =>
      obtain rfl := h
      exact hclip
    | cons next bs =>
      have hnext : next.start = block.stop := h.1
      have hreach := (List.forall_mem_cons.mp hbefore).1
      rw [hnext] at hreach
      have hrest := ih h (List.cons_ne_nil _ _) hafter hbefore
      rw [Nat.max_eq_right hstop] at hrest
      rwa [hclip, Nat.min_eq_left hreach]

end Blocks
