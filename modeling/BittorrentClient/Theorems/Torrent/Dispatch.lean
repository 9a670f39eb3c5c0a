import BittorrentClient.Theorems.InfoSlice
import BittorrentClient.Theorems.Torrent.Handlers
import BittorrentClient.Theorems.Torrent.Slots

/-! The loops over the entries run the slots: the parsers that are not used yet are the slots that still wait. -/

namespace BittorrentClient
open FlatMemory Bencode Outcome Dispatch

/-- The parser is not used yet and handles a value as the slot does, with the state of the slot put into the metainfo. -/
structure KeyParser.Implements {S : Type} (m : Memory) (r : Region) (put : S → TorrentMetainfo) (p : KeyParser)
    (slot : Slot (List UInt8) Term S) : Prop where
  key : p.key = slot.key
  unparsed : p.parsed = false
  parse : ∀ s e t, Carries m r e t → (p.parse (put s) e).toOption = (slot.handle s t).map put

/-- The parsers that are not used yet are the slots that wait. -/
def Waiting {S : Type} (m : Memory) (r : Region) (put : S → TorrentMetainfo) (parsers : List KeyParser)
    (slots : List (Slot (List UInt8) Term S)) : Prop :=
  List.Forall₂ (KeyParser.Implements m r put) (parsers.filter fun p => !p.parsed) slots

/-- A parser after the entries: the first one with its key has used it. -/
def KeyParser.after (m : Memory) (data : DictionaryRef) (p : KeyParser) : KeyParser :=
  if p.parsed then p
  else
    match data.find? fun entry => entry.1.equals m p.key with
    | none => p
    | some entry => { p with parsed := true, position := p.position.map fun _ => entry.2.position }

section
variable {S : Type} {m : Memory} {r : Region} {put : S → TorrentMetainfo}

/-! ### The run -/

theorem waiting_cons_of_parsed {state : KeyParser} {parsers : List KeyParser} {slots : List (Slot (List UInt8) Term S)}
    (h : state.parsed = true) : Waiting m r put (state :: parsers) slots ↔ Waiting m r put parsers slots := by
  rw [Waiting, List.filter_cons_of_neg (by simp [h]), Waiting]

theorem waiting_cons_iff {state : KeyParser} {parsers : List KeyParser} {slots : List (Slot (List UInt8) Term S)}
    (h : state.parsed = false) : Waiting m r put (state :: parsers) slots ↔
      ∃ slot rest, slots = slot :: rest ∧ state.Implements m r put slot ∧ Waiting m r put parsers rest := by
  rw [Waiting, List.filter_cons_of_pos (by simp [h]), List.forall₂_cons_left_iff]
  constructor
  · rintro ⟨slot, rest, hslot, hrest, heq⟩
    exact ⟨slot, rest, heq, hslot, hrest⟩
  · rintro ⟨slot, rest, heq, hslot, hrest⟩
    exact ⟨slot, rest, hslot, hrest, heq⟩

/-- The step of a dispatch that goes to the slots: none waits for the key and the parsers stay as they are, or the slot
    that does handles the value. -/
def Dispatched (m : Memory) (r : Region) (put : S → TorrentMetainfo) (slots : List (Slot (List UInt8) Term S))
    (key : List UInt8) (t : Term) (s : S) (parsers : List KeyParser)
    (result : Except FileError (TorrentMetainfo × List KeyParser)) : Prop :=
  (slots.find? (fun slot => slot.key = key) = none ∧ result = .ok (put s, parsers)) ∨
    ∃ slot parsers', slots.find? (fun slot => slot.key = key) = some slot ∧
      result.toOption = (slot.handle s t).map (fun s => (put s, parsers')) ∧
      Waiting m r put parsers' (slots.eraseP fun slot => slot.key = key)

/-- A parser that is passed over stays in front. -/
theorem Dispatched.skip {slots slots' : List (Slot (List UInt8) Term S)} {key : List UInt8} {t : Term} {s : S}
    {state : KeyParser} {parsers : List KeyParser} {result : Except FileError (TorrentMetainfo × List KeyParser)}
    (h : Dispatched m r put slots' key t s parsers result)
    (hfind : slots.find? (fun slot => slot.key = key) = slots'.find? fun slot => slot.key = key)
    (hwait : ∀ parsers', Waiting m r put parsers' (slots'.eraseP fun slot => slot.key = key) →
      Waiting m r put (state :: parsers') (slots.eraseP fun slot => slot.key = key)) :
    Dispatched m r put slots key t s (state :: parsers)
      (result.map fun (metainfo, parsers) => (metainfo, state :: parsers)) := by
  rcases h with ⟨hnone, rfl⟩ | ⟨slot, parsers', hslot, huse, hparsers⟩
  · exact .inl ⟨hfind.trans hnone, rfl⟩
  · refine .inr ⟨slot, state :: parsers', hfind.trans hslot, ?_, hwait parsers' hparsers⟩
    rw [toOption_map, huse, Option.map_map]
    rfl

theorem invoke_dispatched {parsers : List KeyParser} {slots : List (Slot (List UInt8) Term S)}
    (h : Waiting m r put parsers slots) {name : StringRef} {key : List UInt8} {e : ElementRef} {t : Term}
    (hname : name.read m = key) (he : Carries m r e t) (s : S) :
    Dispatched m r put slots key t s parsers (invokeParserOptionalKey m (put s) name e parsers) := by
  induction parsers generalizing slots with
  | nil =>
    cases h
    exact .inl ⟨rfl, rfl⟩
  | cons state parsers ih =>
    rw [invokeParserOptionalKey]
    by_cases hparsed : state.parsed = true
    · rw [waiting_cons_of_parsed hparsed] at h
      rw [if_pos (by simp [hparsed])]
      exact (ih h).skip rfl fun _ => (waiting_cons_of_parsed hparsed).mpr
    · have hparsed : state.parsed = false := by simpa using hparsed
      obtain ⟨slot, rest, rfl, hslot, hrest⟩ := (waiting_cons_iff hparsed).mp h
      by_cases hkey : slot.key = key
      · have hequals : name.equals m state.key = true := (equals_iff hname).mpr (by rw [hslot.key, hkey])
        have herase : (slot :: rest).eraseP (fun slot => slot.key = key) = rest :=
          List.eraseP_cons_of_pos (by simpa using hkey)
        rw [if_neg (by simp [hparsed, hequals])]
        refine .inr ⟨slot, { state with parsed := true, position := state.position.map fun _ => e.position } :: parsers,
          List.find?_cons_of_pos (by simpa using hkey), ?_, ?_⟩
        · rw [toOption_map, hslot.parse s e t he, Option.map_map]
          rfl
        · rw [herase]
          exact (waiting_cons_of_parsed rfl).mpr hrest
      · have hequals : ¬name.equals m state.key = true := by
          rw [equals_iff hname, hslot.key]
          exact Ne.symm hkey
        have herase : (slot :: rest).eraseP (fun slot => slot.key = key) =
            slot :: rest.eraseP fun slot => slot.key = key := List.eraseP_cons_of_neg (by simpa using hkey)
        rw [if_pos (by simp [hequals])]
        refine (ih hrest).skip (List.find?_cons_of_neg (by simpa using hkey)) ?_
        intro parsers' hwait
        rw [herase]
        exact (waiting_cons_iff hparsed).mpr ⟨slot, _, rfl, hslot, hwait⟩

/-- The loop runs the slots over the terms of the entries. -/
theorem invokeParsers_waiting {parsers : List KeyParser} {slots : List (Slot (List UInt8) Term S)}
    (h : Waiting m r put parsers slots) {data : DictionaryRef} {entries : List (Str × Term)}
    (hdata : EntriesCarry m r data entries) (s : S) :
    (invokeParsers m (put s) parsers data).toOption.map Prod.fst = (run slots s (Content.byKey entries)).map put := by
  induction entries generalizing data parsers slots s with
  | nil =>
    obtain rfl := hdata.nil
    rfl
  | cons entry entries ih =>
    obtain ⟨key, t⟩ := entry
    obtain ⟨name, e, rest, rfl, hname, he, hrest⟩ := hdata.cons
    have hcons : Content.byKey ((key, t) :: entries) = (key.body, t) :: Content.byKey entries := rfl
    rw [hcons, run, invokeParsers]
    rcases invoke_dispatched h hname he s with ⟨hnone, hskip⟩ | ⟨slot, parsers', hfind, huse, hwait⟩
    · rw [hnone, hskip]
      exact ih h hrest s
    · rw [hfind]
      simp only
      cases hhandle : slot.handle s t with
      | none =>
        rw [hhandle] at huse
        cases hinvoke : invokeParserOptionalKey m (put s) name e parsers with
        | error => rfl
        | ok =>
          rw [hinvoke] at huse
          cases huse
      | some s' =>
        rw [hhandle, Option.map_some, toOption_eq_some] at huse
        rw [huse, Option.bind_some]
        exact ih hwait hrest s'

/-! ### The parsers after the run -/

theorem KeyParser.after_key (data : DictionaryRef) (p : KeyParser) : (p.after m data).key = p.key := by
  rw [after]
  split
  · rfl
  · split
    · rfl
    · rfl

theorem KeyParser.after_of_parsed {p : KeyParser} (h : p.parsed = true) (data : DictionaryRef) : p.after m data = p :=
  if_pos h

theorem KeyParser.after_nil (p : KeyParser) : p.after m [] = p := by
  rw [after]
  split
  · rfl
  · rfl

theorem KeyParser.after_cons_of_equals {p : KeyParser} {name : StringRef} (hparsed : p.parsed = false)
    (h : name.equals m p.key = true) (e : ElementRef) (data : DictionaryRef) :
    p.after m ((name, e) :: data) = { p with parsed := true, position := p.position.map fun _ => e.position } := by
  have hfind : ((name, e) :: data).find? (fun entry => entry.1.equals m p.key) = some (name, e) :=
    List.find?_cons_of_pos h
  rw [after, if_neg (by simp [hparsed]), hfind]

theorem KeyParser.after_cons_of_not_equals {p : KeyParser} {name : StringRef} (h : ¬name.equals m p.key = true)
    (e : ElementRef) (data : DictionaryRef) : p.after m ((name, e) :: data) = p.after m data := by
  have hfind : ((name, e) :: data).find? (fun entry => entry.1.equals m p.key) =
      data.find? fun entry => entry.1.equals m p.key := List.find?_cons_of_neg h
  rw [after, hfind, after]

theorem read_of_equals {v : StringView} {text : List UInt8} (h : v.equals m text = true) : v.read m = text :=
  (equals_iff rfl).mp h

/-- A step of the dispatch brings the parsers behind the entry. -/
theorem invoke_after {parsers parsers' : List KeyParser} {metainfo metainfo' : TorrentMetainfo} {name : StringRef}
    {e : ElementRef} (hkeys : (parsers.map KeyParser.key).Nodup) (data : DictionaryRef)
    (h : invokeParserOptionalKey m metainfo name e parsers = .ok (metainfo', parsers')) :
    parsers'.map (KeyParser.after m data) = parsers.map (KeyParser.after m ((name, e) :: data)) := by
  induction parsers generalizing parsers' with
  | nil =>
    cases h
    rfl
  | cons state parsers ih =>
    obtain ⟨hstate, hparsers⟩ := List.nodup_cons.mp hkeys
    rcases invoke_cons h with ⟨hskip, rest, hrest, rfl⟩ | ⟨hparsed, hequals, -, rfl⟩
    · rw [List.map_cons, List.map_cons, ih hparsers hrest]
      congr 1
      rcases hskip with hparsed | hkey
      · rw [KeyParser.after_of_parsed hparsed, KeyParser.after_of_parsed hparsed]
      · rw [KeyParser.after_cons_of_not_equals (by simp [hkey])]
    · rw [List.map_cons, List.map_cons, KeyParser.after_cons_of_equals hparsed hequals, KeyParser.after_of_parsed rfl]
      congr 1
      refine List.map_congr_left ?_
      intro p hp
      rw [KeyParser.after_cons_of_not_equals]
      intro hequals'
      exact hstate (List.mem_map.mpr ⟨p, hp, (read_of_equals hequals').symm.trans (read_of_equals hequals)⟩)

theorem invokeParsers_after_eq {parsers parsers' : List KeyParser} {metainfo metainfo' : TorrentMetainfo}
    {data : DictionaryRef} (hkeys : (parsers.map KeyParser.key).Nodup)
    (h : invokeParsers m metainfo parsers data = .ok (metainfo', parsers')) :
    parsers' = parsers.map (KeyParser.after m data) := by
  induction data generalizing metainfo parsers with
  | nil =>
    cases h
    rw [funext KeyParser.after_nil, List.map_id']
  | cons entry data ih =>
    obtain ⟨name, e⟩ := entry
    rw [invokeParsers] at h
    split at h
    · cases h
    · next next parsers'' hstep =>
      have hafter := invoke_after hkeys data hstep
      have hkeys' : (parsers''.map KeyParser.key).Nodup := by
        have hmap := congrArg (List.map KeyParser.key) hafter
        simp only [List.map_map, Function.comp_def, KeyParser.after_key] at hmap
        rw [hmap]
        exact hkeys
      rw [ih hkeys' h, hafter]

end

end BittorrentClient
