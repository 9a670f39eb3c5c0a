import BittorrentClient.Client.Tracker
import BittorrentClient.Lib.Outcome
import BittorrentClient.Lib.UrlQuery

/-! The query of an HTTP request: its encoders write what a reader of queries reads back. -/

namespace BittorrentClient.Cxxurl
open FlatMemory UrlQuery Outcome

/-! ### Encoders -/

/-- A visible ASCII character that may stand in the query of a url. -/
def Printable (x : UInt8) : Prop := 33 ≤ x ∧ x ≤ 126 ∧ x ≠ 34 ∧ x ≠ 35

instance : DecidablePred Printable := fun _ => inferInstanceAs (Decidable (_ ∧ _))

theorem encodes_key : Encodes (fun x => Printable x ∧ x ≠ 38 ∧ x ≠ 61) (encodeQueryKeyChar 0x1F) :=
  .of_writes (by decide +kernel)

theorem encodes_val : Encodes (fun x => Printable x ∧ x ≠ 38) (encodeQueryValChar 0x1F) :=
  .of_writes (by decide +kernel)

/-! ### Entries -/

theorem printable_entryStr (entry : List UInt8 × List UInt8) : ∀ x ∈ entryStr entry, Printable x := by
  intro x hx
  rcases List.mem_append.mp hx with hkey | hval
  · exact (encodes_key.allowed_of_mem_flatMap hkey).1
  · split at hval
    · cases hval
    · rcases List.mem_append.mp hval with heq | hval
      · cases List.mem_singleton.mp heq
        decide
      · exact (encodes_val.allowed_of_mem_flatMap hval).1

/-- An entry with a separator before it and printable characters behind it. -/
theorem printable_entry {first : UInt8} (hfirst : Printable first) (entry : List UInt8 × List UInt8) {text : List UInt8}
    (htext : ∀ x ∈ text, Printable x) : ∀ x ∈ [first] ++ entryStr entry ++ text, Printable x := by
  intro x hx
  rcases List.mem_append.mp hx with hx | hx
  · rcases List.mem_append.mp hx with hx | hx
    · rw [List.mem_singleton.mp hx]
      exact hfirst
    · exact printable_entryStr entry x hx
  · exact htext x hx

/-- Entries that have keys are written, in printable characters. -/
theorem restStr_of_keys {entries : List (List UInt8 × List UInt8)} (h : ∀ entry ∈ entries, entry.1 ≠ []) :
    ∃ text, restStr entries = .ok text ∧ ∀ x ∈ text, Printable x := by
  induction entries with
  | nil => exact ⟨[], rfl, fun x hx => absurd hx List.not_mem_nil⟩
  | cons entry entries ih =>
    obtain ⟨hkey, hkeys⟩ := List.forall_mem_cons.mp h
    obtain ⟨text, htext, hprintable⟩ := ih hkeys
    refine ⟨ascii "&" ++ entryStr entry ++ text, ?_, printable_entry (by decide) entry hprintable⟩
    rw [restStr, if_neg hkey, htext]
    rfl

theorem buildQueryStr_of_keys {entries : List (List UInt8 × List UInt8)} (hne : entries ≠ [])
    (h : ∀ entry ∈ entries, entry.1 ≠ []) :
    ∃ query, buildQueryStr entries = .ok query ∧ ∀ x ∈ query, Printable x := by
  cases entries with
  | nil => exact absurd rfl hne
  | cons entry entries =>
    obtain ⟨hkey, hkeys⟩ := List.forall_mem_cons.mp h
    obtain ⟨text, htext, hprintable⟩ := restStr_of_keys hkeys
    refine ⟨ascii "?" ++ entryStr entry ++ text, ?_, printable_entry (by decide) entry hprintable⟩
    rw [buildQueryStr, if_neg hkey, htext]
    rfl

theorem restStr_ok {entries : List (List UInt8 × List UInt8)} {text : List UInt8} (h : restStr entries = .ok text)
    (first : List UInt8) : first ++ text = [38].intercalate (first :: entries.map entryStr) := by
  induction entries generalizing text first with
  | nil =>
    cases h
    simp
  | cons entry entries ih =>
    rw [restStr] at h
    split at h
    · cases h
    · obtain ⟨rest, hrest, h⟩ := bind_ok h
      cases h
      rw [List.map_cons, List.intercalate_cons_cons, ← ih hrest (entryStr entry)]
      simp only [List.append_assoc]
      rfl

/-- A query that is built reads back as its entries. -/
theorem buildQueryStr_ok {entries : List (List UInt8 × List UInt8)} {query : List UInt8}
    (h : buildQueryStr entries = .ok query) : ∃ text, query = 63 :: text ∧ readPairs text = entries := by
  cases entries with
  | nil => cases h
  | cons entry entries =>
    rw [buildQueryStr] at h
    split at h
    · cases h
    · obtain ⟨rest, hrest, h⟩ := bind_ok h
      cases h
      refine ⟨entryStr entry ++ rest, rfl, ?_⟩
      rw [restStr_ok hrest]
      exact readPairs_intercalate encodes_key encodes_val (by decide) (by decide) (by decide)
        (List.cons_ne_nil entry entries)

end BittorrentClient.Cxxurl
