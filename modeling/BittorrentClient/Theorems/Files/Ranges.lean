import BittorrentClient.Theorems.Files.Layout

/-! The files that a range of bytes is cut into. Where the searches succeed, the pieces tile the range. -/

namespace BittorrentClient
open Blocks Outcome Words

/-! ### The searches -/

namespace FilesList

section
variable {offsets : List FileOffset} {first : Nat} {before : FileOffset → Bool}

theorem le_lowerBound : first ≤ lowerBound offsets first before := Nat.le_add_right _ _

theorem lowerBound_le (h : first ≤ offsets.length) : lowerBound offsets first before ≤ offsets.length := by
  have hle : ((offsets.drop first).findIdx fun fo => !before fo) ≤ (offsets.drop first).length :=
    List.findIdx_le_length
  rw [List.length_drop] at hle
  rw [lowerBound]
  omega

/-- Every element that the search passes is before the value. -/
theorem before_of_lt_lowerBound {k : Nat} {fo : FileOffset} (hfirst : first ≤ k) (hk : k < lowerBound offsets first before)
    (hfo : offsets[k]? = some fo) : before fo = true := by
  have hlt : k - first < (offsets.drop first).findIdx fun fo => !before fo := by
    rw [lowerBound] at hk
    omega
  have hdrop : (offsets.drop first)[k - first]? = some fo := by
    rw [List.getElem?_drop, Nat.add_sub_cancel' hfirst]
    exact hfo
  obtain ⟨hlen, hget⟩ := List.getElem?_eq_some_iff.mp hdrop
  have hnot := List.not_of_lt_findIdx hlt
  rw [hget] at hnot
  simpa using hnot

/-- The element that the search finds is not before the value. -/
theorem not_before_lowerBound {fo : FileOffset} (hfo : offsets[lowerBound offsets first before]? = some fo) :
    before fo = false := by
  have hdrop : (offsets.drop first)[(offsets.drop first).findIdx fun fo => !before fo]? = some fo := by
    rw [List.getElem?_drop]
    exact hfo
  obtain ⟨hlen, hget⟩ := List.getElem?_eq_some_iff.mp hdrop
  have hfound := List.findIdx_getElem (w := hlen)
  rw [hget] at hfound
  simpa using hfound

end

/-- The file in which the first search and its two corrections end. -/
def startIndex (list : FilesList) (a : UInt64) : Nat :=
  let found := lowerBound list.files_offset 0 fun lhs => lhs.start < a
  let found := if found = list.files_offset.length then list.files_offset.length - 1 else found
  if (list.files_offset.getD found {}).start > a then found - 1 else found

/-- The file in which the second search ends. -/
def stopIndex (list : FilesList) (a b : UInt64) : Nat :=
  lowerBound list.files_offset (list.startIndex a) fun lhs => lhs.end_ < b

/-- The range starts in the file `i`, before which no file starts in the range, and ends in the file `j`. -/
structure Located (list : FilesList) (a b : UInt64) (i j : Nat) : Prop where
  le : i ≤ j
  start : ∃ fo, list.files_offset[i]? = some fo ∧ fo.start ≤ a ∧ a < fo.end_
  before : ∀ k < i, ∀ fo : FileOffset, list.files_offset[k]? = some fo → fo.start < a
  stop : ∃ fo, list.files_offset[j]? = some fo ∧ fo.start < b ∧ b ≤ fo.end_

/-- The files from `i` to `j`. -/
def filesBetween (list : FilesList) (i j : Nat) : List FileOffset := (list.files_offset.take (j + 1)).drop i

section
variable {list : FilesList} {a b : UInt64}

theorem getElem?_of_getD {k : Nat} (hk : k < list.files_offset.length) :
    list.files_offset[k]? = some (list.files_offset.getD k {}) := by
  rw [List.getElem?_eq_getElem hk, List.getD_eq_getElem _ _ hk]

theorem startIndex_lt (h : list.files_offset ≠ []) : list.startIndex a < list.files_offset.length := by
  have hlength := List.length_pos_iff.mpr h
  have hle : (lowerBound list.files_offset 0 fun lhs => decide (lhs.start < a)) ≤ list.files_offset.length :=
    lowerBound_le (Nat.zero_le _)
  rw [startIndex]
  split <;> split <;> omega

/-- No file before the one that is found starts in the range. -/
theorem before_startIndex {k : Nat} {fo : FileOffset} (hk : k < list.startIndex a)
    (hfo : list.files_offset[k]? = some fo) : fo.start < a := by
  have hlt : k < lowerBound list.files_offset 0 fun lhs => lhs.start < a := by
    rw [startIndex] at hk
    split at hk <;> split at hk <;> omega
  exact of_decide_eq_true (before_of_lt_lowerBound (Nat.zero_le k) hlt hfo)

theorem iterateRange_ok {pieces : List FilePiece} (h : list.iterateRange a b = .ok pieces) :
    a < b ∧ ∃ i j, list.Located a b i j ∧ list.filePieces a b 0 (list.filesBetween i j) = (pieces, b - a) := by
  obtain ⟨_, hab, h⟩ := bind_ok h
  obtain ⟨_, hne, h⟩ := bind_ok h
  have hne := check_ok hne
  obtain ⟨_, hstart, h⟩ := bind_ok h
  obtain ⟨_, hlist, h⟩ := bind_ok h
  obtain ⟨_, hle, h⟩ := bind_ok h
  obtain ⟨_, hstop, h⟩ := bind_ok h
  obtain ⟨_, htotal, h⟩ := bind_ok h
  have hlt : list.stopIndex a b < list.files_offset.length :=
    Nat.lt_of_le_of_ne (lowerBound_le (Nat.le_of_lt (startIndex_lt hne))) (check_ok hlist)
  obtain ⟨hstart, hbefore⟩ := check_ok hstart
  obtain ⟨hstop, hend⟩ := check_ok hstop
  refine ⟨check_ok hab, list.startIndex a, list.stopIndex a b, ⟨le_lowerBound, ?_, ?_, ?_⟩, ?_⟩
  · exact ⟨_, getElem?_of_getD (startIndex_lt hne), hstart, hbefore⟩
  · exact fun k hk fo hfo => before_startIndex hk hfo
  · exact ⟨_, getElem?_of_getD hlt, hstop, hend⟩
  · exact Prod.ext (Except.ok.inj h) (check_ok htotal)

/-! ### The pieces -/

/-- The piece of a file, whatever files came before it. -/
def clipPiece (list : FilesList) (a b : UInt64) (fo : FileOffset) : FilePiece :=
  list.filePiece a b (max a fo.start - a) fo

/-- The parts of a piece are the offsets of what the range cuts out of the file. -/
theorem filePiece_toNat {d : UInt64} {fo : FileOffset} (hle : fo.start ≤ fo.end_) (hab : a ≤ b) (ha : a ≤ fo.end_)
    (hb : fo.start ≤ b) :
    fo.start.toNat + (list.filePiece a b d fo).file_offset.toNat = (fo.block.clip a.toNat b.toNat).start ∧
      (list.filePiece a b d fo).bytes_count.toNat = (fo.block.clip a.toNat b.toNat).length := by
  have hstop := FileOffset.block_stop hle
  rw [UInt64.le_iff_toNat_le] at hle hab ha hb
  have hmax : fo.start ≤ max a fo.start := by
    rw [UInt64.le_iff_toNat_le, toNat_max64]
    exact Nat.le_max_right _ _
  have hmin : max a fo.start ≤ min fo.end_ b := by
    rw [UInt64.le_iff_toNat_le, toNat_max64, toNat_min64]
    omega
  rw [Block.clip, hstop]
  simp only [filePiece, UInt64.toNat_sub_of_le _ _ hmax, UInt64.toNat_sub_of_le _ _ hmin, toNat_max64, toNat_min64,
    FileOffset.block]
  exact ⟨by omega, trivial⟩

/-- The loop over the files passes on what the range cuts out of each. -/
theorem filePieces_eq {fos : List FileOffset} {s e : Nat} {d : UInt64} (hlaid : Laid s (fos.map FileOffset.block) e)
    (hle : ∀ fo ∈ fos, fo.start ≤ fo.end_) (hab : a ≤ b) (ha : ∀ fo ∈ fos, a ≤ fo.end_) (hb : ∀ fo ∈ fos, fo.start ≤ b)
    (hd : a.toNat + d.toNat = max a.toNat s) : (list.filePieces a b d fos).1 = fos.map (list.clipPiece a b) ∧
      (fos ≠ [] → a.toNat + (list.filePieces a b d fos).2.toNat = min e b.toNat) := by
  induction fos generalizing s d with
  | nil => exact ⟨rfl, nofun⟩
  | cons fo fos ih =>
    obtain ⟨hstart, hlaid⟩ := hlaid
    obtain ⟨hle, hles⟩ := List.forall_mem_cons.mp hle
    obtain ⟨ha, has⟩ := List.forall_mem_cons.mp ha
    obtain ⟨hb, hbs⟩ := List.forall_mem_cons.mp hb
    have hstart : fo.start.toNat = s := hstart
    have hstop := FileOffset.block_stop hle
    rw [hstop] at hlaid
    have hcount := (@filePiece_toNat list a b d fo hle hab ha hb).2
    simp only [Block.clip, hstop] at hcount
    have hmax : a ≤ max a fo.start := by
      rw [UInt64.le_iff_toNat_le, toNat_max64]
      exact Nat.le_max_left _ _
    have hoffset : max a fo.start - a = d := by
      rw [← UInt64.toNat_inj, UInt64.toNat_sub_of_le _ _ hmax, toNat_max64, hstart]
      omega
    rw [UInt64.le_iff_toNat_le] at hle hab ha hb
    have hnext : a.toNat + (d + (list.filePiece a b d fo).bytes_count).toNat = min fo.end_.toNat b.toNat := by
      have hlt := fo.end_.toNat_lt
      rw [UInt64.toNat_add, hcount, Nat.mod_eq_of_lt] <;> simp only [FileOffset.block, hstart] <;> omega
    rw [filePieces]
    cases fos with
    | nil =>
      obtain rfl := hlaid
      refine ⟨?_, fun _ => hnext⟩
      rw [List.map_singleton, clipPiece, hoffset]
      rfl
    | cons fo' fos =>
      have hreach : fo'.start.toNat = fo.end_.toNat := hlaid.1
      have hb' := UInt64.le_iff_toNat_le.mp (hbs fo' List.mem_cons_self)
      obtain ⟨hpieces, hrest⟩ := ih hlaid hles has hbs (by rw [hnext]; omega)
      refine ⟨?_, fun _ => hrest (List.cons_ne_nil _ _)⟩
      rw [List.map_cons, ← hpieces, clipPiece, hoffset]

/-! ### The files between -/

variable {lengths : List UInt64} {i j : Nat}

theorem getElem?_filesBetween (list : FilesList) (i j n : Nat) :
    (list.filesBetween i j)[n]? = if i + n ≤ j then list.files_offset[i + n]? else none := by
  rw [filesBetween, List.getElem?_drop]
  split
  · rename_i h
    exact List.getElem?_take_of_lt (Nat.lt_succ_of_le h)
  · rename_i h
    exact List.getElem?_take_eq_none (by omega)

theorem mem_filesBetween {fo : FileOffset} (h : fo ∈ list.filesBetween i j) :
    ∃ k, i ≤ k ∧ k ≤ j ∧ list.files_offset[k]? = some fo := by
  obtain ⟨n, hn⟩ := List.mem_iff_getElem?.mp h
  rw [getElem?_filesBetween] at hn
  split at hn
  · rename_i hle
    exact ⟨i + n, Nat.le_add_right i n, hle, hn⟩
  · cases hn

theorem Exact.laid (h : list.Exact lengths) : Laid 0 (list.files_offset.map FileOffset.block) (sumLengths lengths) :=
  h.blocks ▸ laid_fileBlocks lengths

/-- A file that lies before another one ends before it starts. -/
theorem Exact.end_le_start (h : list.Exact lengths) {m n : Nat} {x y : FileOffset} (hx : list.files_offset[m]? = some x)
    (hy : list.files_offset[n]? = some y) (hmn : m < n) : x.end_ ≤ y.start := by
  have hle := h.laid.stop_le_start (by rw [List.getElem?_map, hx]; rfl) (by rw [List.getElem?_map, hy]; rfl) hmn
  rw [FileOffset.block_stop (h.le x (List.mem_of_getElem? hx))] at hle
  exact UInt64.le_iff_toNat_le.mpr hle

/-- The range meets or touches all files between those where it starts and ends. -/
theorem Located.meets (h : list.Located a b i j) (hexact : list.Exact lengths) :
    ∀ fo ∈ list.filesBetween i j, fo.start ≤ fo.end_ ∧ a ≤ fo.end_ ∧ fo.start ≤ b := by
  intro fo hfo
  obtain ⟨k, hik, hkj, hk⟩ := mem_filesBetween hfo
  have hle := hexact.le fo (List.mem_of_getElem? hk)
  obtain ⟨x, hx, -, ha⟩ := h.start
  obtain ⟨y, hy, hb, -⟩ := h.stop
  refine ⟨hle, ?_, ?_⟩
  · rcases Nat.lt_or_eq_of_le hik with hlt | rfl
    · exact UInt64.le_trans (UInt64.le_of_lt ha) (UInt64.le_trans (hexact.end_le_start hx hk hlt) hle)
    · cases hx.symm.trans hk
      exact UInt64.le_of_lt ha
  · rcases Nat.lt_or_eq_of_le hkj with hlt | rfl
    · exact UInt64.le_trans hle (UInt64.le_trans (hexact.end_le_start hk hy hlt) (UInt64.le_of_lt hb))
    · cases hy.symm.trans hk
      exact UInt64.le_of_lt hb

theorem Located.laid (h : list.Located a b i j) (hexact : list.Exact lengths) : ∃ s e,
    Laid s ((list.filesBetween i j).map FileOffset.block) e ∧ s ≤ a.toNat ∧ b.toNat ≤ e := by
  obtain ⟨x, hx, ha, -⟩ := h.start
  obtain ⟨y, hy, -, hb⟩ := h.stop
  have hlaid := hexact.laid.between (by rw [List.getElem?_map, hx]; rfl) (by rw [List.getElem?_map, hy]; rfl) h.le
  rw [FileOffset.block_stop (hexact.le y (List.mem_of_getElem? hy)), ← List.map_take, ← List.map_drop] at hlaid
  exact ⟨_, _, hlaid, UInt64.le_iff_toNat_le.mp ha, UInt64.le_iff_toNat_le.mp hb⟩

theorem Located.files_ne_nil (h : list.Located a b i j) : list.filesBetween i j ≠ [] := by
  obtain ⟨x, hx, -⟩ := h.start
  intro hnil
  have hget := list.getElem?_filesBetween i j 0
  rw [hnil, Nat.add_zero, if_pos h.le, hx] at hget
  cases hget

/-- The pieces of a range are what it cuts out of the files, and they consume it. -/
theorem Located.filePieces (h : list.Located a b i j) (hexact : list.Exact lengths) (hab : a < b) :
    list.filePieces a b 0 (list.filesBetween i j) = ((list.filesBetween i j).map (list.clipPiece a b), b - a) := by
  obtain ⟨s, e, hlaid, hs, he⟩ := h.laid hexact
  have hmeets := h.meets hexact
  have hle := UInt64.le_of_lt hab
  obtain ⟨hpieces, hoffset⟩ := filePieces_eq (d := 0) hlaid (fun fo hfo => (hmeets fo hfo).1) hle
    (fun fo hfo => (hmeets fo hfo).2.1) (fun fo hfo => (hmeets fo hfo).2.2)
    (by rw [UInt64.toNat_zero, Nat.add_zero, Nat.max_eq_left hs])
  refine Prod.ext hpieces ?_
  have hoffset := hoffset h.files_ne_nil
  rw [← UInt64.toNat_inj, UInt64.toNat_sub_of_le _ _ hle]
  have hle := UInt64.le_iff_toNat_le.mp hle
  omega

/-! ### When the searches succeed -/

theorem Exact.start_zero (h : list.Exact lengths) {x : FileOffset} (hx : list.files_offset[0]? = some x) :
    x.start.toNat = 0 :=
  (h.laid.split (n := 0) (by rw [List.getElem?_map, hx]; rfl)).1.symm

/-- The next file starts where one ends. -/
theorem Exact.start_eq_end (h : list.Exact lengths) {n : Nat} {x y : FileOffset} (hx : list.files_offset[n]? = some x)
    (hy : list.files_offset[n + 1]? = some y) : y.start = x.end_ := by
  have heq := h.laid.stop_eq_start (by rw [List.getElem?_map, hx]; rfl) (by rw [List.getElem?_map, hy]; rfl)
  rw [FileOffset.block_stop (h.le x (List.mem_of_getElem? hx))] at heq
  exact UInt64.toNat_inj.mp heq

theorem Exact.last_end (h : list.Exact lengths) {n : Nat} {x : FileOffset} (hx : list.files_offset[n]? = some x)
    (hn : n + 1 = list.files_offset.length) : x.end_.toNat = sumLengths lengths := by
  have htake := h.laid.take_succ (n := n) (by rw [List.getElem?_map, hx]; rfl)
  rw [hn, ← List.map_take, List.take_length, FileOffset.block_stop (h.le x (List.mem_of_getElem? hx))] at htake
  exact htake.unique h.laid

theorem Exact.files_ne_nil (h : list.Exact lengths) (hpos : 0 < sumLengths lengths) : list.files_offset ≠ [] := by
  intro hnil
  have hlaid := h.laid
  rw [hnil] at hlaid
  exact absurd hlaid (Nat.ne_of_lt hpos)

/-- The first search ends in the file that has the start of the range, unless that file is empty. -/
theorem Exact.startIndex_spec (hexact : list.Exact lengths) (ha : a.toNat < sumLengths lengths)
    (hfile : ∀ fo ∈ list.files_offset, fo.start = a → a < fo.end_) :
    ∃ fo, list.files_offset[list.startIndex a]? = some fo ∧ fo.start ≤ a ∧ a < fo.end_ := by
  have hpos := List.length_pos_iff.mpr (hexact.files_ne_nil (Nat.zero_lt_of_lt ha))
  have hle : (lowerBound list.files_offset 0 fun lhs => decide (lhs.start < a)) ≤ list.files_offset.length :=
    lowerBound_le (Nat.zero_le _)
  rw [startIndex]
  generalize hfound : (lowerBound list.files_offset 0 fun lhs => decide (lhs.start < a)) = found at hle ⊢
  have hbefore : ∀ k (fo : FileOffset), k < found → list.files_offset[k]? = some fo → fo.start < a := by
    intro k fo hk hfo
    rw [← hfound] at hk
    exact of_decide_eq_true (before_of_lt_lowerBound (Nat.zero_le k) hk hfo)
  rcases Nat.lt_or_eq_of_le hle with hlt | heq
  · have hfo := getElem?_of_getD hlt
    rw [if_neg (Nat.ne_of_lt hlt)]
    generalize list.files_offset.getD found {} = fo at hfo ⊢
    have hge : a ≤ fo.start := by
      rw [← hfound] at hfo
      exact UInt64.not_lt.mp (of_decide_eq_false (not_before_lowerBound hfo))
    split
    · rename_i hgt
      cases found with
      | zero =>
        have hzero := hexact.start_zero hfo
        rw [gt_iff_lt, UInt64.lt_iff_toNat_lt] at hgt
        omega
      | succ k =>
        -- The file before the one that is found ends where that one starts.
        have hprev := getElem?_of_getD (Nat.lt_of_succ_lt hlt)
        refine ⟨_, hprev, UInt64.le_of_lt (hbefore k _ (Nat.lt_succ_self k) hprev), ?_⟩
        rw [← hexact.start_eq_end hprev hfo]
        exact hgt
    · rename_i hngt
      have heq := UInt64.le_antisymm (UInt64.not_lt.mp hngt) hge
      exact ⟨fo, hfo, UInt64.le_of_eq heq, hfile fo (List.mem_of_getElem? hfo) heq⟩
  · obtain ⟨k, hk⟩ := Nat.exists_eq_add_one_of_ne_zero (Nat.ne_of_gt hpos)
    have hlast : list.files_offset[k]? = some (list.files_offset.getD k {}) := getElem?_of_getD (by omega)
    have hlt := hbefore k _ (by omega) hlast
    rw [if_pos heq, hk, Nat.add_sub_cancel, if_neg (UInt64.not_lt.mpr (UInt64.le_of_lt hlt))]
    refine ⟨_, hlast, UInt64.le_of_lt hlt, ?_⟩
    rw [UInt64.lt_iff_toNat_lt, hexact.last_end hlast hk.symm]
    exact ha

/-- The second search ends in the file that has the last byte of the range. -/
theorem Exact.stopIndex_spec (hexact : list.Exact lengths) (hab : a < b) (hb : b.toNat ≤ sumLengths lengths)
    (hstart : ∃ fo, list.files_offset[list.startIndex a]? = some fo ∧ fo.start ≤ a ∧ a < fo.end_) :
    ∃ fo, list.files_offset[list.stopIndex a b]? = some fo ∧ fo.start < b ∧ b ≤ fo.end_ := by
  obtain ⟨x, hx, hxa, hax⟩ := hstart
  have hlen := (List.getElem?_eq_some_iff.mp hx).1
  have hge : list.startIndex a ≤ list.stopIndex a b := le_lowerBound
  have hle : list.stopIndex a b ≤ list.files_offset.length := lowerBound_le (Nat.le_of_lt hlen)
  have hbefore : ∀ k (fo : FileOffset), list.startIndex a ≤ k → k < list.stopIndex a b →
      list.files_offset[k]? = some fo → fo.end_ < b := fun k fo hstart hk hfo =>
    of_decide_eq_true (before_of_lt_lowerBound hstart hk hfo)
  have hlt : list.stopIndex a b < list.files_offset.length := by
    refine Nat.lt_of_le_of_ne hle ?_
    intro heq
    obtain ⟨k, hk⟩ := Nat.exists_eq_add_one_of_ne_zero (Nat.ne_of_gt (Nat.zero_lt_of_lt hlen))
    have hlast : list.files_offset[k]? = some (list.files_offset.getD k {}) := getElem?_of_getD (by omega)
    have hend := hbefore k _ (by omega) (by omega) hlast
    rw [UInt64.lt_iff_toNat_lt, hexact.last_end hlast hk.symm] at hend
    omega
  have hfo := getElem?_of_getD hlt
  generalize list.files_offset.getD (list.stopIndex a b) {} = fo at hfo
  refine ⟨fo, hfo, ?_, UInt64.not_lt.mp (of_decide_eq_false (not_before_lowerBound hfo))⟩
  rcases Nat.lt_or_eq_of_le hge with hgt | heq
  · obtain ⟨k, hk⟩ := Nat.exists_eq_add_one_of_ne_zero (Nat.ne_of_gt (Nat.zero_lt_of_lt hgt))
    have hprev : list.files_offset[k]? = some (list.files_offset.getD k {}) := getElem?_of_getD (by omega)
    rw [hk] at hfo
    rw [hexact.start_eq_end hprev hfo]
    exact hbefore k _ (by omega) (by omega) hprev
  · rw [← heq] at hfo
    cases hx.symm.trans hfo
    exact UInt64.lt_of_le_of_lt hxa hab

theorem Exact.iterateRange_total (hexact : list.Exact lengths) (hab : a < b) (hb : b.toNat ≤ sumLengths lengths)
    (hfile : ∀ fo ∈ list.files_offset, fo.start = a → a < fo.end_) :
    ∃ i j, list.Located a b i j ∧ list.iterateRange a b = .ok ((list.filesBetween i j).map (list.clipPiece a b)) := by
  have ha : a.toNat < sumLengths lengths := Nat.lt_of_lt_of_le (UInt64.lt_iff_toNat_lt.mp hab) hb
  have hstart := hexact.startIndex_spec ha hfile
  have hstop := hexact.stopIndex_spec hab hb hstart
  have hlocated : list.Located a b (list.startIndex a) (list.stopIndex a b) :=
    ⟨le_lowerBound, hstart, fun k hk fo hfo => before_startIndex hk hfo, hstop⟩
  refine ⟨_, _, hlocated, ?_⟩
  obtain ⟨x, hx, hxa, hax⟩ := hstart
  obtain ⟨y, hy, hyb, hby⟩ := hstop
  have hlen := (List.getElem?_eq_some_iff.mp hy).1
  have hne : list.files_offset ≠ [] := List.ne_nil_of_length_pos (Nat.zero_lt_of_lt hlen)
  have hpieces := hlocated.filePieces hexact hab
  have hle : list.stopIndex a b ≥ list.startIndex a := le_lowerBound
  have hgetx : list.files_offset.getD (list.startIndex a) {} = x := by rw [List.getD_eq_getElem?_getD, hx]; rfl
  have hgety : list.files_offset.getD (list.stopIndex a b) {} = y := by rw [List.getD_eq_getElem?_getD, hy]; rfl
  have heq : list.iterateRange a b = (do
      check (b > a) .rangeEmpty
      check (list.files_offset ≠ []) .filesOffsetEmpty
      check (a ≥ (list.files_offset.getD (list.startIndex a) {}).start ∧
        a < (list.files_offset.getD (list.startIndex a) {}).end_) .startInFile
      check (list.stopIndex a b ≠ list.files_offset.length) .endInList
      check (list.stopIndex a b ≥ list.startIndex a) .endAfterStart
      check (b > (list.files_offset.getD (list.stopIndex a b) {}).start ∧
        b ≤ (list.files_offset.getD (list.stopIndex a b) {}).end_) .endInFile
      check ((list.filePieces a b 0 (list.filesBetween (list.startIndex a) (list.stopIndex a b))).2 = b - a) .rangeConsumed
      return (list.filePieces a b 0 (list.filesBetween (list.startIndex a) (list.stopIndex a b))).1) := rfl
  rw [heq, hgetx, hgety, hpieces, check_of _ hab, ok_bind, check_of _ hne, ok_bind, check_of _ ⟨hxa, hax⟩, ok_bind,
    check_of _ (Nat.ne_of_lt hlen), ok_bind, check_of _ hle, ok_bind, check_of _ ⟨hyb, hby⟩, ok_bind]
  dsimp only
  rw [check_of _ rfl]
  rfl

end

end FilesList

end BittorrentClient
