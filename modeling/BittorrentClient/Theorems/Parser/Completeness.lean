import BittorrentClient.Theorems.Parser.Carries
import BittorrentClient.Theorems.Parser.Runs

/-! Completeness: `Parse` reads every sequence of encoded values, with the positions of their texts. -/

namespace BittorrentClient
open FlatMemory Fuel Bencode

section
variable {m : Memory} {r : Region}

/-- `Parse` reads a sequence of terms. -/
theorem parse_terms {ts : List Term} (hne : ts ≠ []) (h : r.bytes m = itemsBytes ts) :
    Converges (fun fuel => parse m fuel r) (.ok (locateItems r 0 ts), cursor r r.size.toNat) := by
  obtain ⟨hholds, hlen⟩ := holds_of_bytes h
  have hread := itemsRead_locate (i := 0) .nil ts hholds
  rw [Nat.zero_add, hlen] at hread
  refine parse_of_itemsRead (fits_agrees m r) hread rfl ?_
  obtain ⟨t, ts, rfl⟩ := List.exists_cons_of_ne_nil hne
  exact List.cons_ne_nil _ _

theorem itemsTerm_ne_nil {vs : List Value} (h : vs ≠ []) : itemsTerm vs ≠ [] := by
  obtain ⟨v, vs, rfl⟩ := List.exists_cons_of_ne_nil h
  exact List.cons_ne_nil _ _

/-- `Parse` of the encodings of a sequence of values gives that sequence. Every element has the content of
    its value and the range of its encoding, and ranges are disjoint, in order and inside their parent's. -/
theorem parse_encode (m : Memory) (r : Region) (vs : List Value) (hne : vs ≠ [])
    (h : r.bytes m = vs.flatMap Value.encode) :
    ∃ es p, Converges (fun fuel => parse m fuel r) (.ok es, p) ∧ ItemsCarry m r es (itemsTerm vs) ∧
      Siblings 0 r.size (es.map ElementRef.position) ∧ ItemsNested es := by
  rw [← encodeItems_eq_flatMap, ← bytes_itemsTerm] at h
  obtain ⟨hholds, hlen⟩ := holds_of_bytes h
  refine ⟨_, _, parse_terms (itemsTerm_ne_nil hne) h, locateItems_carry _ hholds, ?_, locateItems_nested _ hholds⟩
  have hsib := locateItems_siblings 0 _ hholds (Nat.le_refl 0) (Nat.zero_add _ ▸ hlen.le) (Nat.le_refl _)
  rwa [UInt64.ofNat_toNat] at hsib

/-- A list of an integer and a string, and a dictionary. -/
def sample : List Value := [.list [.int (-5), .str (ascii "ab")], .dict [(ascii "k", .int 0)]]

theorem parse_encode_sample :
    let r := Region.of 4096 (sample.flatMap Value.encode) (by decide)
    ∃ es p, Converges (fun fuel => parse (place 4096 (sample.flatMap Value.encode)) fuel r) (.ok es, p) ∧
      ItemsCarry (place 4096 (sample.flatMap Value.encode)) r es (itemsTerm sample) ∧
      Siblings 0 r.size (es.map ElementRef.position) ∧ ItemsNested es :=
  parse_encode _ _ sample (by decide) (Region.bytes_of _)

end

end BittorrentClient
