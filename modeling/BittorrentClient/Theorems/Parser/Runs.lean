import BittorrentClient.Theorems.Parser.Reads

/-! The entry points over a rule for strings: `Parse` reads a non-empty sequence of elements of the
    grammar up to the end of the region, and `parse_element` is called where an element is read. -/

namespace BittorrentClient
open FlatMemory Fuel Relation BittorrentClient.Parser

/-- The offsets at which the loop of `Parse` reads an element. -/
def TopLevel (m : Memory) (r : Region) (S : StringRule) (k : Nat) : Prop :=
  ∃ items, ItemsRead m r S 0 items k ∧ (k = 0 ∨ k < r.size.toNat)

section
variable {m : Memory} {r : Region} {S : StringRule}

theorem topLevel_zero : TopLevel m r S 0 := ⟨[], .nil, .inl rfl⟩

theorem standing_zero : Standing m r S (TopLevel m r S) 0 := .root topLevel_zero

/-! ### Parse -/

theorem loop_next {items : ListRef} {e : ElementRef} {p q : Parser} (he : Element m .none p (.ok e, q))
    (hq : q.hasData = true) {x : Except ParseErrorInfo ListRef × Parser}
    (hx : Converges (fun fuel => parseLoop m fuel (items ++ [e]) q) x) :
    Converges (fun fuel => parseLoop m fuel items p) x :=
  (he.bind (k := loopNext m items) (by simpa only [loopNext, hq, if_true] using hx)).of_succ
    fun n => parseLoop_element n items p

theorem loop_last {items : ListRef} {e : ElementRef} {p q : Parser} (he : Element m .none p (.ok e, q))
    (hq : q.hasData = false) : Converges (fun fuel => parseLoop m fuel items p) (.ok (items ++ [e]), q) :=
  (he.bind (k := loopNext m items) (.pure fun _ => by simp only [loopNext, hq, Bool.false_eq_true, if_false])).of_succ
    fun n => parseLoop_element n items p

theorem loop_error {items : ListRef} {err : ParseErrorInfo} {p q : Parser} (he : Element m .none p (.error err, q)) :
    Converges (fun fuel => parseLoop m fuel items p) (.error err, q) :=
  (he.bind (k := loopNext m items) (.pure fun _ => rfl)).of_succ fun n => parseLoop_element n items p

/-- The loop of `Parse` passes the elements that are read. -/
theorem ItemsRead.parseLoop (hS : Agrees m r S) {items : ListRef} {k : Nat}
    {x : Except ParseErrorInfo ListRef × Parser} : ItemsRead m r S 0 items k → k = 0 ∨ k < r.size.toNat →
    Converges (fun fuel => Parser.parseLoop m fuel items (cursor r k)) x →
    Converges (fun fuel => Parser.parseLoop m fuel [] (cursor r 0)) x
  | .nil, _, hx => hx
  | .snoc hitems he, hk, hx => by
    have hbounds := he.bounds hS
    have hdata := hasData_cursor hbounds.2
    refine hitems.parseLoop hS (.inr he.atOffset.1) (loop_next (he.element hS .none) ?_ hx)
    rw [hdata, decide_eq_true_eq]
    omega

theorem parse_of_itemsRead (hS : Agrees m r S) {items : ListRef} {k : Nat} (h : ItemsRead m r S 0 items k)
    (hk : k = r.size.toNat) (hne : items ≠ []) : Converges (fun fuel => parse m fuel r) (.ok items, cursor r k) := by
  unfold parse
  rw [make_eq_cursor]
  cases h with
  | nil => exact absurd rfl hne
  | snoc hitems he =>
    refine hitems.parseLoop hS (.inr he.atOffset.1) (loop_last (he.element hS .none) ?_)
    rw [hasData_cursor hk.le, decide_eq_false (by omega)]

/-- `Parse` terminates, with all of the text read or with an error inside the region. -/
theorem parse_run (hS : Agrees m r S) (hcov : Covers m r S (TopLevel m r S)) :
    ∃ x, Converges (fun fuel => parse m fuel r) x ∧
      Ends r 0 (fun items k => ItemsRead m r S 0 items k ∧ k = r.size.toNat) x := by
  suffices h : ∀ n k items, r.size.toNat - k < n → k ≤ r.size.toNat → (k = 0 ∨ k < r.size.toNat) →
      ItemsRead m r S 0 items k → ∃ x, Converges (fun fuel => Parser.parseLoop m fuel items (cursor r k)) x ∧
        Ends r 0 (fun items k => ItemsRead m r S 0 items k ∧ k = r.size.toNat) x by
    unfold parse
    rw [make_eq_cursor]
    exact h (r.size.toNat + 1) 0 [] (by omega) (Nat.zero_le _) (.inl rfl) .nil
  intro n
  induction n with
  | zero => exact fun k items hn => absurd hn (Nat.not_lt_zero _)
  | succ n ih =>
    intro k items hn hk hk' hitems
    obtain ⟨⟨_ | e, p⟩, hx, hends⟩ := element_run hS hcov _ (Nat.le_refl _) hk (.root ⟨items, hitems, hk'⟩) .none
    · exact ⟨_, loop_error hx, hends.of_error (Nat.zero_le k)⟩
    · obtain ⟨j, rfl, he⟩ := hends
      have hbounds := he.bounds hS
      have hdata := hasData_cursor hbounds.2
      by_cases hlt : j < r.size.toNat
      · obtain ⟨x, hloop, hx'⟩ := ih j _ (by omega) hbounds.2 (.inr hlt) (hitems.snoc he)
        exact ⟨x, loop_next hx (by rw [hdata, decide_eq_true hlt]) hloop, hx'⟩
      · exact ⟨_, loop_last hx (by rw [hdata, decide_eq_false hlt]), j, rfl, hitems.snoc he, by omega⟩

/-! ### The other entry points -/

theorem Reads.asList {i : Nat} {e : ElementRef} {j : Nat} (h : Reads m r S i e j) (hb : r.byte m i = 108) :
    ∃ items, e.asList = some items ∧ e = .list items (rangeOf i j) := by
  cases h with
  | integer h =>
    rw [h.lt.2] at hb
    cases hb
  | string h _ => exact absurd hb (isDigit_ne h.first.2).2.1
  | list => exact ⟨_, rfl, rfl⟩
  | dictionary _ hb' =>
    rw [hb'] at hb
    cases hb

theorem Reads.asDictionary {i : Nat} {e : ElementRef} {j : Nat} (h : Reads m r S i e j) (hb : r.byte m i = 100) :
    ∃ entries, e.asDictionary = some entries ∧ e = .dictionary entries (rangeOf i j) := by
  cases h with
  | integer h =>
    rw [h.lt.2] at hb
    cases hb
  | string h _ => exact absurd hb (isDigit_ne h.first.2).2.2.1
  | list _ hb' =>
    rw [hb'] at hb
    cases hb
  | dictionary => exact ⟨_, rfl, rfl⟩

theorem take_converges {α : Type} {as : ElementRef → Option α} {f : Nat → Option (ParsedElementRef × Parser)}
    {x : ParsedElementRef × Parser} {y : Except ParseErrorInfo α × Parser} (hx : Converges f x)
    (hy : Parsed.take as x = some y) : Converges (fun fuel => (f fuel).bind (Parsed.take as)) y :=
  hx.bind ⟨0, fun _ _ => hy⟩

/-- `ParseList` terminates, with a list of the grammar or with an error inside the region. -/
theorem parseList_run (hS : Agrees m r S) (hcov : Covers m r S (TopLevel m r S)) :
    ∃ x, Converges (fun fuel => parseList m fuel r) x ∧
      Ends r 0 (fun items k => Reads m r S 0 (.list items (rangeOf 0 k)) k) x := by
  unfold parseList
  rw [make_eq_cursor]
  cases hc : (cursor r 0).consume m kListStart with
  | none =>
    refine ⟨_, take_converges (x := ((cursor r 0).makeError .string .missingListStart, cursor r 0)) (.pure fun n => ?_) rfl,
      makeError_ends (Nat.le_refl 0) (Nat.zero_le _)⟩
    rw [Parser.parseList, hc]
  | some p =>
    obtain ⟨hlt, hb, rfl⟩ := (consume_eq_some_iff (Nat.zero_le _)).mp hc
    obtain ⟨⟨_ | e, p⟩, hloop, hends⟩ := list_run hS hlt hb standing_zero
      (fun k _ hk hs => element_run hS hcov _ (Nat.le_refl _) hk hs .list) r.size.toNat (by omega) hlt (.nil (i := 0 + 1))
    · exact ⟨_, take_converges (list_enter hc hloop) rfl, hends.of_error (Nat.le_refl 0)⟩
    · obtain ⟨k, rfl, he⟩ := hends
      obtain ⟨items, has, rfl⟩ := he.asList hb
      exact ⟨(.ok items, cursor r k), take_converges (list_enter hc hloop) rfl, k, rfl, he⟩

/-- `ParseDictionary` terminates, with a dictionary of the grammar or with an error inside the region. -/
theorem parseDictionary_run (Root : Nat → Prop) (hroot : Root 0) (hS : Agrees m r S) (hcov : Covers m r S Root) :
    ∃ x, Converges (fun fuel => parseDictionary m fuel r) x ∧
      Ends r 0 (fun entries k => Reads m r S 0 (.dictionary entries (rangeOf 0 k)) k) x := by
  unfold parseDictionary
  rw [make_eq_cursor]
  cases hc : (cursor r 0).consume m kDictionaryStart with
  | none =>
    refine ⟨_, take_converges (x := ((cursor r 0).makeError .dictionary .missingDictionaryStart, cursor r 0))
      (.pure fun n => ?_) rfl, makeError_ends (Nat.le_refl 0) (Nat.zero_le _)⟩
    rw [Parser.parseDictionary, hc]
  | some p =>
    obtain ⟨hlt, hb, rfl⟩ := (consume_eq_some_iff (Nat.zero_le _)).mp hc
    obtain ⟨⟨_ | e, p⟩, hloop, hends⟩ := dictionary_run hS hlt hb (.root hroot)
      (fun k _ hk hs => element_run hS hcov _ (Nat.le_refl _) hk hs .dictionary) r.size.toNat (by omega) hlt
      (.nil (i := 0 + 1))
    · exact ⟨_, take_converges (dictionary_enter hc hloop) rfl, hends.of_error (Nat.le_refl 0)⟩
    · obtain ⟨k, rfl, he⟩ := hends
      obtain ⟨entries, has, rfl⟩ := he.asDictionary hb
      exact ⟨(.ok entries, cursor r k), take_converges (dictionary_enter hc hloop) rfl, k, rfl, he⟩

/-! ### The calls -/

theorem element_ends {Root : Nat → Prop} (hS : Agrees m r S) (hcov : Covers m r S Root) {i : Nat}
    (hi : i ≤ r.size.toNat) (hstand : Standing m r S Root i) {id : ElementId} {x : ParsedElementRef × Parser}
    (hx : Element m id (cursor r i) x) : Ends r i (Reads m r S i) x := by
  obtain ⟨y, hy, hends⟩ := element_run hS hcov _ (Nat.le_refl _) hi hstand id
  rwa [hx.unique hy]

section
variable {Root : Nat → Prop} (hS : Agrees m r S) (hcov : Covers m r S Root)
include hS hcov

theorem listHead_read {i : Nat} (hi : i ≤ r.size.toNat) (hstand : Standing m r S Root i) {q : Parser}
    (h : ListHead m (cursor r i) q) :
    i < r.size.toNat ∧ r.byte m i = 108 ∧
      ∃ items k, q = cursor r k ∧ k ≤ r.size.toNat ∧ ItemsRead m r S (i + 1) items k := by
  induction h with
  | enter hc =>
    obtain ⟨hlt, hb, rfl⟩ := (consume_eq_some_iff hi).mp hc
    exact ⟨hlt, hb, [], i + 1, rfl, hlt, .nil⟩
  | next _ hat he ih =>
    obtain ⟨hlt, hb, items, k, rfl, hk, hitems⟩ := ih
    obtain ⟨j, rfl, hread⟩ := element_ends hS hcov hk (.item hstand hlt hb hitems ((atElement_cursor hk).mp hat)) he
    exact ⟨hlt, hb, _, j, rfl, (hread.bounds hS).2, hitems.snoc hread⟩

theorem dictionaryHead_read {i : Nat} (hi : i ≤ r.size.toNat) (hstand : Standing m r S Root i) {q : Parser}
    (h : DictionaryHead m (cursor r i) q) :
    i < r.size.toNat ∧ r.byte m i = 100 ∧
      ∃ entries k, q = cursor r k ∧ k ≤ r.size.toNat ∧ EntriesRead m r S (i + 1) entries k := by
  induction h with
  | enter hc =>
    obtain ⟨hlt, hb, rfl⟩ := (consume_eq_some_iff hi).mp hc
    exact ⟨hlt, hb, [], i + 1, rfl, hlt, .nil⟩
  | next _ hat hk hkey he ih =>
    obtain ⟨hlt, hb, entries, k, rfl, hle, hentries⟩ := ih
    have hoff := (atElement_cursor hle).mp hat
    obtain ⟨j, rfl, hread⟩ := element_ends hS hcov hle (.key hstand hlt hb hentries hoff) hk
    have hj := (hread.bounds hS).2
    obtain ⟨l, rfl, hread'⟩ := element_ends hS hcov hj (.value hstand hlt hb hentries hoff hread hkey) he
    exact ⟨hlt, hb, _, l, rfl, (hread'.bounds hS).2, hentries.snoc hread hkey hread'⟩

theorem calls_standing {i : Nat} (hi : i ≤ r.size.toNat) (hstand : Standing m r S Root i) {q : Parser}
    (h : Calls m (cursor r i) q) :
    ∃ k, q = cursor r k ∧ k ≤ r.size.toNat ∧ Standing m r S Root k := by
  rcases h with ⟨hhead, hat⟩ | ⟨p, hhead, hat, rfl | ⟨key, s, hkey, hs⟩⟩
  · obtain ⟨hlt, hb, items, k, rfl, hk, hitems⟩ := listHead_read hS hcov hi hstand hhead
    exact ⟨k, rfl, hk, .item hstand hlt hb hitems ((atElement_cursor hk).mp hat)⟩
  · obtain ⟨hlt, hb, entries, k, rfl, hk, hentries⟩ := dictionaryHead_read hS hcov hi hstand hhead
    exact ⟨k, rfl, hk, .key hstand hlt hb hentries ((atElement_cursor hk).mp hat)⟩
  · obtain ⟨hlt, hb, entries, k, rfl, hk, hentries⟩ := dictionaryHead_read hS hcov hi hstand hhead
    have hoff := (atElement_cursor hk).mp hat
    obtain ⟨j, rfl, hread⟩ := element_ends hS hcov hk (.key hstand hlt hb hentries hoff) hkey
    exact ⟨j, rfl, (hread.bounds hS).2, .value hstand hlt hb hentries hoff hread hs⟩

/-- The calls below an element that is read are for elements that are read. -/
theorem calls_read {i : Nat} (hi : i ≤ r.size.toNat) (hstand : Standing m r S Root i) {q : Parser}
    (h : ReflTransGen (Calls m) (cursor r i) q) : ∃ k, q = cursor r k ∧ k ≤ r.size.toNat ∧ Standing m r S Root k := by
  induction h with
  | refl => exact ⟨i, rfl, hi, hstand⟩
  | tail _ hcall ih =>
    obtain ⟨k, rfl, hk, hstand⟩ := ih
    exact calls_standing hS hcov hk hstand hcall

end

section
variable (hS : Agrees m r S) (hcov : Covers m r S (TopLevel m r S))
include hS hcov

theorem parseHead_topLevel {p : Parser} (h : ParseHead m r p) :
    ∃ k, p = cursor r k ∧ k ≤ r.size.toNat ∧ TopLevel m r S k := by
  induction h with
  | enter => exact ⟨0, make_eq_cursor r, Nat.zero_le _, topLevel_zero⟩
  | next _ he hdata ih =>
    obtain ⟨k, rfl, hk, items, hitems, hpos⟩ := ih
    obtain ⟨j, rfl, hread⟩ := element_ends hS hcov hk (.root ⟨items, hitems, hpos⟩) he
    have hj := (hread.bounds hS).2
    rw [hasData_cursor hj, decide_eq_true_eq] at hdata
    exact ⟨j, rfl, hj, _, hitems.snoc hread, .inr hdata⟩

/-- Where the strings are as the rule says, `parse_element` is only called where an element is read. -/
theorem called_standing {p : Parser} (h : Called m r p) :
    ∃ i, p = cursor r i ∧ i ≤ r.size.toNat ∧ Standing m r S (TopLevel m r S) i := by
  obtain ⟨p₀, hp₀, hcalls⟩ := h.parse
  obtain ⟨k, rfl, hk, htop⟩ := parseHead_topLevel hS hcov hp₀
  exact calls_read hS hcov hk (.root htop) hcalls

end

section
variable (hS : Agrees m r S)
include hS

theorem ItemsRead.parseHead {items : ListRef} {k : Nat} : ItemsRead m r S 0 items k → k = 0 ∨ k < r.size.toNat →
    ParseHead m r (cursor r k)
  | .nil, _ => make_eq_cursor r ▸ .enter
  | .snoc hitems he, hk => by
    have hbounds := he.bounds hS
    refine .next (hitems.parseHead (.inr he.atOffset.1)) (he.element hS .none) ?_
    rw [hasData_cursor hbounds.2, decide_eq_true_eq]
    omega

theorem ItemsRead.listHead {p : Parser} {i : Nat} {items : ListRef} {k : Nat} : ItemsRead m r S i items k →
    ListHead m p (cursor r i) → ListHead m p (cursor r k)
  | .nil, h => h
  | .snoc hitems he, h =>
    .next (hitems.listHead h) ((atElement_cursor he.atOffset.1.le).mpr he.atOffset) (he.element hS .list)

theorem EntriesRead.dictionaryHead {p : Parser} {i : Nat} {entries : DictionaryRef} {k : Nat} :
    EntriesRead m r S i entries k → DictionaryHead m p (cursor r i) → DictionaryHead m p (cursor r k)
  | .nil, h => h
  | .snoc hentries hkey hs he, h =>
    .next (hentries.dictionaryHead h) ((atElement_cursor hkey.atOffset.1.le).mpr hkey.atOffset)
      (hkey.element hS .dictionary) hs (he.element hS .dictionary)

/-- `parse_element` is called wherever an element is read. -/
theorem Standing.called {i : Nat} (h : Standing m r S (TopLevel m r S) i) : Called m r (cursor r i) := by
  induction h with
  | root htop =>
    obtain ⟨items, hitems, hk⟩ := htop
    exact ⟨_, .inl (hitems.parseHead hS hk), .refl⟩
  | item _ hi hb hitems hat ih =>
    obtain ⟨p, hp, hcalls⟩ := ih
    refine ⟨p, hp, hcalls.tail (.inl ⟨hitems.listHead hS (.enter (consume_eq_some hi hb)), ?_⟩)⟩
    exact (atElement_cursor hat.1.le).mpr hat
  | key _ hi hb hentries hat ih =>
    obtain ⟨p, hp, hcalls⟩ := ih
    refine ⟨p, hp, hcalls.tail (.inr ⟨_, hentries.dictionaryHead hS (.enter (consume_eq_some hi hb)), ?_, .inl rfl⟩)⟩
    exact (atElement_cursor hat.1.le).mpr hat
  | value _ hi hb hentries hat he hs ih =>
    obtain ⟨p, hp, hcalls⟩ := ih
    refine ⟨p, hp, hcalls.tail (.inr ⟨_, hentries.dictionaryHead hS (.enter (consume_eq_some hi hb)), ?_,
      .inr ⟨_, _, he.element hS .dictionary, hs⟩⟩)⟩
    exact (atElement_cursor hat.1.le).mpr hat

end

end

end BittorrentClient
