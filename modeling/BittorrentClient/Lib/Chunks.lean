import Mathlib.Data.List.Infix

/-! Streams that arrive in chunks, read into a buffer until a delimiter is in it. -/

namespace Chunks
variable {α : Type} [DecidableEq α] {delim buffer buffer' : List α} {chunks chunks' : List (List α)}

/-- The buffer and the chunks that are left, unless the stream ends before there is a delimiter. -/
def readUntil (delim : List α) : List α → List (List α) → Option (List α × List (List α))
  | buffer, [] => if delim <:+: buffer then some (buffer, []) else none
  | buffer, chunk :: chunks =>
    if delim <:+: buffer then some (buffer, chunk :: chunks) else readUntil delim (buffer ++ chunk) chunks

/-- Bytes are neither lost nor taken twice. -/
theorem of_readUntil (h : readUntil delim buffer chunks = some (buffer', chunks')) :
    delim <:+: buffer' ∧ buffer' ++ chunks'.flatten = buffer ++ chunks.flatten := by
  induction chunks generalizing buffer with
  | nil =>
    rw [readUntil] at h
    split at h
    · rename_i hdelim
      cases h
      exact ⟨hdelim, rfl⟩
    · cases h
  | cons chunk chunks ih =>
    rw [readUntil] at h
    split at h
    · rename_i hdelim
      cases h
      exact ⟨hdelim, rfl⟩
    · obtain ⟨hdelim, hbytes⟩ := ih h
      refine ⟨hdelim, ?_⟩
      rw [hbytes, List.flatten_cons, List.append_assoc]

/-- However the stream is cut, the delimiter is found when it is in the stream. -/
theorem readUntil_eq_none_iff : readUntil delim buffer chunks = none ↔ ¬delim <:+: buffer ++ chunks.flatten := by
  induction chunks generalizing buffer with
  | nil =>
    rw [readUntil, List.flatten_nil, List.append_nil]
    split <;> simp_all
  | cons chunk chunks ih =>
    rw [readUntil]
    split
    · rename_i hdelim
      exact iff_of_false nofun (not_not_intro (hdelim.trans (List.prefix_append _ _).isInfix))
    · rw [ih, List.flatten_cons, List.append_assoc]

omit [DecidableEq α]

/-- What starts with an element that is not in the first part is in the second part. -/
theorem infix_of_append {x : α} {p a b : List α} (hx : x ∉ a) (h : x :: p <:+: a ++ b) : x :: p <:+: b := by
  obtain ⟨s, t, h⟩ := h
  rw [List.append_assoc] at h
  rcases List.append_eq_append_iff.mp h with ⟨a', ha, hb⟩ | ⟨c, -, hb⟩
  · cases a' with
    | nil => exact ⟨[], t, by simpa using hb⟩
    | cons y a' =>
      obtain ⟨rfl, -⟩ := List.cons.inj hb
      exact absurd (ha ▸ List.mem_append_right _ List.mem_cons_self) hx
  · exact ⟨c, t, by rw [hb, List.append_assoc]⟩

/-- A buffer with a delimiter reaches over a part that has none before its last element. -/
theorem exists_append_of_infix {x : α} {a b s t : List α} (hdelim : delim <:+: a) (hs : ¬delim <:+: s)
    (h : a ++ b = s ++ [x] ++ t) : ∃ more, a = s ++ [x] ++ more ∧ more ++ b = t := by
  rcases List.append_eq_append_iff.mp h with ⟨a', ha, hb⟩ | ⟨more, ha, ht⟩
  · rcases List.eq_nil_or_concat a' with rfl | ⟨a'', y, rfl⟩
    · refine ⟨[], ?_, hb⟩
      rw [ha, List.append_nil, List.append_nil]
    · rw [List.concat_eq_append, ← List.append_assoc] at ha
      have hcut : s = a ++ a'' := (List.append_inj' ha rfl).1
      exact absurd (hdelim.trans (hcut ▸ (List.prefix_append a a'').isInfix)) hs
  · exact ⟨more, ha, ht.symm⟩

/-! ### Up to an element -/

variable {p : α → Bool} {x : α} {l rest : List α}

theorem takeWhile_append_cons (hl : ∀ a ∈ l, p a = true) (hx : p x = false) : (l ++ x :: rest).takeWhile p = l := by
  rw [List.takeWhile_append_of_pos hl, List.takeWhile_cons_of_neg (Bool.not_eq_true _ ▸ hx), List.append_nil]

theorem dropWhile_append_cons (hl : ∀ a ∈ l, p a = true) (hx : p x = false) :
    (l ++ x :: rest).dropWhile p = x :: rest := by
  rw [List.dropWhile_append_of_pos hl, List.dropWhile_cons_of_neg (Bool.not_eq_true _ ▸ hx)]

end Chunks
