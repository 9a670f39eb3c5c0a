import BittorrentClient.Theorems.Torrent.Accepted
import BittorrentClient.Theorems.Tracker.Compact

/-! The response of a tracker over HTTP: the first values of its three keys say what it is, in any order. -/

namespace BittorrentClient
open FlatMemory Fuel Bencode Outcome Dispatch

/-! ### What a response says -/

namespace Content

/-- Whole addresses, at least one. -/
def peersBlob (t : Term) : Option (List UInt8) :=
  (part t).bind fun blob => if blob.length % 6 = 0 then some blob else none

def peers (endian : Endian) (t : Term) : Option (List PeerAddress) :=
  (peersBlob t).map fun blob => compactPeers endian (blob.length / 6) blob

/-- A success has an interval or peers; a failure has neither. -/
def response (endian : Endian) (entries : List (Str × Term)) : Option TrackerResponse :=
  match value entries "failure reason" with
  | none =>
    if value entries "interval" = none ∧ value entries "peers" = none then none
    else
      (valueOr 0 number (value entries "interval")).bind fun interval =>
        (valueOr [] (peers endian) (value entries "peers")).map fun peers => .onSuccess ⟨interval, peers⟩
  | some reason =>
    if value entries "interval" = none ∧ value entries "peers" = none then
      (string reason).map fun text => .onError ⟨text⟩
    else none

end Content

namespace TrackerResponse

section
variable {m : Memory} {endian : Endian} {max : MaxSize}

/-! ### The slots -/

/-- The entries of a dictionary by their keys. -/
def byName (m : Memory) (data : DictionaryRef) : List (List UInt8 × ElementRef) :=
  data.map fun entry => (entry.1.read m, entry.2)

def KeyParser.slot (p : KeyParser) : Slot (List UInt8) ElementRef TrackerResponse :=
  ⟨p.key, fun response e => (p.parse response e).toOption⟩

/-- The parsers that are not used yet. -/
def waiting (parsers : List KeyParser) : List (Slot (List UInt8) ElementRef TrackerResponse) :=
  (parsers.filter fun p => !p.parsed).map KeyParser.slot

theorem waiting_cons_of_parsed {p : KeyParser} (h : p.parsed = true) (parsers : List KeyParser) :
    waiting (p :: parsers) = waiting parsers := by
  rw [waiting, List.filter_cons_of_neg (by simp [h]), waiting]

theorem waiting_cons {p : KeyParser} (h : p.parsed = false) (parsers : List KeyParser) :
    waiting (p :: parsers) = p.slot :: waiting parsers := by
  rw [waiting, List.filter_cons_of_pos (by simp [h]), List.map_cons, waiting]

/-- A slot that is used, or waits for another key, is passed over. -/
theorem waiting_cons_skip {state : KeyParser} {key : List UInt8} (h : state.parsed = true ∨ state.slot.key ≠ key)
    (parsers : List KeyParser) :
    (waiting (state :: parsers)).find? (fun slot => slot.key = key) =
        (waiting parsers).find? (fun slot => slot.key = key) ∧
      ∀ parsers', waiting parsers' = (waiting parsers).eraseP (fun slot => slot.key = key) →
        waiting (state :: parsers') = (waiting (state :: parsers)).eraseP fun slot => slot.key = key := by
  by_cases hparsed : state.parsed = true
  · rw [waiting_cons_of_parsed hparsed]
    refine ⟨rfl, ?_⟩
    intro parsers' hwait
    rw [waiting_cons_of_parsed hparsed, hwait]
  · have hkey : state.slot.key ≠ key := h.resolve_left hparsed
    have hparsed : state.parsed = false := by simpa using hparsed
    rw [waiting_cons hparsed]
    refine ⟨List.find?_cons_of_neg (by simpa using hkey), ?_⟩
    intro parsers' hwait
    rw [waiting_cons hparsed, List.eraseP_cons_of_neg (by simpa using hkey), hwait]

/-- A step of the dispatch goes to the slot that waits for the key, if one does. -/
theorem invokeParserOptionalKey_waiting (parsers : List KeyParser) (response : TrackerResponse) (name : StringRef)
    (e : ElementRef) :
    ((waiting parsers).find? (fun slot => slot.key = name.read m) = none ∧
        invokeParserOptionalKey m response name e parsers = .ok (response, parsers)) ∨
      ∃ slot parsers', (waiting parsers).find? (fun slot => slot.key = name.read m) = some slot ∧
        (invokeParserOptionalKey m response name e parsers).toOption =
          (slot.handle response e).map (fun response => (response, parsers')) ∧
        waiting parsers' = (waiting parsers).eraseP fun slot => slot.key = name.read m := by
  induction parsers with
  | nil => exact .inl ⟨rfl, rfl⟩
  | cons state parsers ih =>
    have hequals : name.equals m state.key = true ↔ state.slot.key = name.read m :=
      (equals_iff rfl).trans eq_comm
    rw [invokeParserOptionalKey]
    by_cases hskip : state.parsed = true ∨ state.slot.key ≠ name.read m
    · obtain ⟨hfind, herase⟩ := waiting_cons_skip hskip parsers
      rw [if_pos (by simpa [← hequals] using hskip), hfind]
      rcases ih with ⟨hnone, hrest⟩ | ⟨slot, parsers', hslot, huse, hwait⟩
      · exact .inl ⟨hnone, by rw [hrest]; rfl⟩
      · refine .inr ⟨slot, state :: parsers', hslot, ?_, herase parsers' hwait⟩
        rw [toOption_map, huse, Option.map_map]
        rfl
    · obtain ⟨hparsed, hkey⟩ := not_or.mp hskip
      have hkey : state.slot.key = name.read m := not_not.mp hkey
      have hparsed : state.parsed = false := by simpa using hparsed
      rw [if_neg (by simp [hparsed, hequals.mpr hkey]), waiting_cons hparsed]
      refine .inr ⟨state.slot, { state with parsed := true } :: parsers, List.find?_cons_of_pos (by simpa using hkey),
        ?_, ?_⟩
      · rw [toOption_map]
        rfl
      · rw [waiting_cons_of_parsed rfl, List.eraseP_cons_of_pos (by simpa using hkey)]

/-- The loop runs the slots over the entries. -/
theorem invokeParsers_waiting (data : DictionaryRef) (parsers : List KeyParser) (response : TrackerResponse) :
    (invokeParsers m response parsers data).toOption = run (waiting parsers) response (byName m data) := by
  induction data generalizing parsers response with
  | nil => rfl
  | cons entry data ih =>
    obtain ⟨name, e⟩ := entry
    have hcons : byName m ((name, e) :: data) = (name.read m, e) :: byName m data := rfl
    rw [hcons, run, invokeParsers, toOption_bind]
    rcases invokeParserOptionalKey_waiting (m := m) parsers response name e with
      ⟨hnone, hskip⟩ | ⟨slot, parsers', hslot, huse, hwait⟩
    · rw [hnone, hskip]
      exact ih parsers response
    · rw [hslot, huse, ← hwait, Option.bind_map]
      exact Option.bind_congr fun response' _ => ih parsers' response'

/-! ### The handlers -/

/-- What is put into the only alternative `OnSuccess`. -/
def putSuccess (change : OnSuccess → OnSuccess) (response : TrackerResponse) : Option TrackerResponse :=
  (getOrCreateOnly getOnSuccess {} response).toOption.map fun state => onSuccess (change state)

/-- What is put into the only alternative `OnError`. -/
def putError (change : OnError → OnError) (response : TrackerResponse) : Option TrackerResponse :=
  (getOrCreateOnly getOnError {} response).toOption.map fun state => onError (change state)

/-- What an interval is read as. -/
def intervalOf (m : Memory) (e : ElementRef) : Option UInt64 := e.asInteger.bind fun n => (parseAsUint64 m n).toOption

/-- What peers are read as. -/
def peersOf (m : Memory) (endian : Endian) (e : ElementRef) : Option (List PeerAddress) :=
  e.asString.bind fun blob =>
    if blob.size = 0 ∨ blob.size.toNat % kPackedPeerSize ≠ 0 then none
    else (readPackedPeers m endian (blob.data + blob.size) blob.data (blob.size.toNat + 1)).toOption

/-- What a failure reason changes. -/
def reasonOf (m : Memory) (max : MaxSize) (e : ElementRef) : Option (OnError → OnError) :=
  e.asString.bind fun str =>
    if str.size ≠ 0 then (assign m max str).toOption.map fun text state => { state with error := text } else some id

theorem toOption_mapError {ε ε' α : Type} (f : ε → ε') (x : Except ε α) : (x.mapError f).toOption = x.toOption := by
  cases x <;> rfl

theorem parseInterval_toOption (response : TrackerResponse) (e : ElementRef) :
    (parseInterval m response e).toOption =
      (intervalOf m e).bind fun v => putSuccess (fun state => { state with rerequest_dt_secs := v }) response := by
  rw [parseInterval, toOption_bind, toOption_mapError, elementRefAsInteger, elementRefAs_toOption, intervalOf,
    Option.bind_assoc]
  refine Option.bind_congr fun n _ => ?_
  rw [toOption_bind, toOption_mapError]
  refine Option.bind_congr fun v _ => ?_
  rw [toOption_bind, putSuccess, Option.map_eq_bind]
  rfl

theorem parsePeers_toOption (response : TrackerResponse) (e : ElementRef) :
    (parsePeers m endian response e).toOption =
      (peersOf m endian e).bind fun added =>
        putSuccess (fun state => { state with peers := state.peers ++ added }) response := by
  rw [parsePeers, toOption_bind, toOption_mapError, elementRefAsString, elementRefAs_toOption, peersOf, Option.bind_assoc]
  refine Option.bind_congr fun blob _ => ?_
  by_cases hblob : blob.size = 0 ∨ blob.size.toNat % kPackedPeerSize ≠ 0
  · rw [if_pos hblob, if_pos hblob]
    rfl
  · rw [if_neg hblob, if_neg hblob]
    simp only [putSuccess]
    cases getOrCreateOnly getOnSuccess {} response with
    | error error =>
      cases readPackedPeers m endian (blob.data + blob.size) blob.data (blob.size.toNat + 1) <;> rfl
    | ok state =>
      rw [ok_bind]
      cases readPackedPeers m endian (blob.data + blob.size) blob.data (blob.size.toNat + 1) <;> rfl

theorem parseFailure_toOption (response : TrackerResponse) (e : ElementRef) :
    (parseFailure m max response e).toOption = (reasonOf m max e).bind fun change => putError change response := by
  rw [parseFailure, toOption_bind, toOption_mapError, elementRefAsString, elementRefAs_toOption, reasonOf, Option.bind_assoc]
  refine Option.bind_congr fun str _ => ?_
  simp only [putError]
  cases getOrCreateOnly getOnError {} response with
  | error error =>
    split
    · cases assign m max str <;> rfl
    · rfl
  | ok state =>
    rw [ok_bind]
    split
    · cases assign m max str <;> rfl
    · rfl

/-! ### The slots commute -/

theorem putSuccess_comm {change change' : OnSuccess → OnSuccess} (h : ∀ state, change (change' state) = change' (change state))
    (response : TrackerResponse) :
    (putSuccess change response).bind (putSuccess change') = (putSuccess change' response).bind (putSuccess change) := by
  cases response with
  | monostate => exact congrArg (fun state => some (onSuccess state)) (h {}).symm
  | onSuccess state => exact congrArg (fun state => some (onSuccess state)) (h state).symm
  | onError state => rfl

/-- A success and a failure exclude each other, whichever comes first. -/
theorem putSuccess_putError (change : OnSuccess → OnSuccess) (change' : OnError → OnError) (response : TrackerResponse) :
    (putSuccess change response).bind (putError change') = (putError change' response).bind (putSuccess change) := by
  cases response <;> rfl

def intervalSlot (m : Memory) : Slot (List UInt8) ElementRef TrackerResponse :=
  ⟨ascii "interval", fun response e =>
    (intervalOf m e).bind fun v => putSuccess (fun state => { state with rerequest_dt_secs := v }) response⟩

def peersSlot (m : Memory) (endian : Endian) : Slot (List UInt8) ElementRef TrackerResponse :=
  ⟨ascii "peers", fun response e =>
    (peersOf m endian e).bind fun added => putSuccess (fun state => { state with peers := state.peers ++ added }) response⟩

def failureSlot (m : Memory) (max : MaxSize) : Slot (List UInt8) ElementRef TrackerResponse :=
  ⟨ascii "failure reason", fun response e => (reasonOf m max e).bind fun change => putError change response⟩

theorem waiting_parsers :
    waiting (parsers m endian max) = [intervalSlot m, peersSlot m endian] ++ [failureSlot m max] := by
  simp only [intervalSlot, peersSlot, failureSlot, ← parseInterval_toOption, ← parsePeers_toOption,
    ← parseFailure_toOption]
  rfl

theorem run_parsers (entries : List (List UInt8 × ElementRef)) (response : TrackerResponse) :
    run (waiting (parsers m endian max)) response entries = turns entries (waiting (parsers m endian max)) response := by
  rw [waiting_parsers]
  refine run_eq_turns ?_ ?_ response entries
  · show [ascii "interval", ascii "peers", ascii "failure reason"].Nodup
    decide
  · refine .cons (List.forall_mem_cons.mpr ⟨?_, List.forall_mem_singleton.mpr ?_⟩)
      (.cons (List.forall_mem_singleton.mpr ?_) (.cons (List.forall_mem_nil _) .nil))
    · refine Slot.commute_of_bind ?_
      intro interval peers response
      refine putSuccess_comm ?_ response
      exact fun state => rfl
    · refine Slot.commute_of_bind ?_
      intro interval change response
      exact putSuccess_putError _ change response
    · refine Slot.commute_of_bind ?_
      intro peers change response
      exact putSuccess_putError _ change response

/-! ### Elements and terms -/

theorem first_byName {r : Region} {data : DictionaryRef} {entries : List (Str × Term)} (h : EntriesCarry m r data entries)
    (key : String) :
    (first (byName m data) (ascii key) = none ∧ Content.value entries key = none) ∨
      ∃ e t, first (byName m data) (ascii key) = some e ∧ Content.value entries key = some t ∧ Carries m r e t := by
  rw [Content.value]
  induction entries generalizing data with
  | nil =>
    obtain rfl := h.nil
    exact .inl ⟨rfl, rfl⟩
  | cons entry entries ih =>
    obtain ⟨s, t⟩ := entry
    obtain ⟨v, e, rest, rfl, hv, he, hrest⟩ := h.cons
    have hname : byName m ((v, e) :: rest) = (s.body, e) :: byName m rest := by rw [← hv]; rfl
    have hkeys : Content.byKey ((s, t) :: entries) = (s.body, t) :: Content.byKey entries := rfl
    rw [hname, hkeys]
    by_cases hkey : s.body = ascii key
    · rw [hkey, first_cons_self, first_cons_self]
      exact .inr ⟨e, t, rfl, rfl, he⟩
    · rw [first_cons_of_ne hkey, first_cons_of_ne hkey]
      exact ih hrest

variable {r : Region} {e : ElementRef} {t : Term}

theorem intervalOf_of_carries (h : Carries m r e t) : intervalOf m e = Content.number t := by
  rw [intervalOf, number_of_carries h]

theorem peersOf_of_carries (h : Carries m r e t) : peersOf m endian e = Content.peers endian t := by
  rw [peersOf, Content.peers, Content.peersBlob, Content.part]
  rcases h.asString with ⟨he, ht⟩ | ⟨v, text, he, ht, hv⟩
  · rw [he, ht]
    rfl
  · have hsize := size_eq_zero_iff hv
    rw [he, ht, Option.bind_some, Option.bind_some, toNat_size hv]
    by_cases hempty : text = []
    · rw [if_pos (.inl (hsize.mpr hempty)), if_pos hempty]
      rfl
    · rw [if_neg hempty, Option.bind_some]
      by_cases hmod : text.length % 6 = 0
      · have hlen : 6 * (text.length / 6) = text.length := Nat.mul_div_cancel' (Nat.dvd_of_mod_eq_zero hmod)
        have hlt : text.length < 2 ^ 64 := by
          rw [← toNat_size hv]
          exact v.size.toNat_lt
        have hwhole : v.size = UInt64.ofNat (6 * (text.length / 6)) := by
          rw [hlen, ← toNat_size hv, UInt64.ofNat_toNat]
        have hread : read m v.data (6 * (text.length / 6)) = text := by
          rw [hlen, ← toNat_size hv]
          exact hv
        have hpacked : text.length % kPackedPeerSize = 0 := hmod
        rw [if_neg (not_or.mpr ⟨mt hsize.mp hempty, not_not_intro hpacked⟩), if_pos hmod, Option.map_some, hwhole,
          readPackedPeers_eq endian m (by omega) (by omega), hread]
        rfl
      · rw [if_neg hmod, if_pos (.inr hmod)]
        rfl

/-- The reason is the whole text, as a string that fits in the content fits in a string of the program. -/
theorem reasonOf_of_carries (h : Carries m r e t) (hmax : t.bytes.length ≤ max.string) :
    (reasonOf m max e = none ∧ Content.string t = none) ∨
      ∃ change text, reasonOf m max e = some change ∧ Content.string t = some text ∧ change {} = { error := text } := by
  rw [reasonOf]
  rcases h.asString with ⟨he, ht⟩ | ⟨v, text, he, ht, hv⟩
  · exact .inl ⟨by rw [he]; rfl, ht⟩
  · rw [he, Option.bind_some]
    by_cases hempty : text = []
    · refine .inr ⟨id, text, if_neg (not_not_intro ((size_eq_zero_iff hv).mpr hempty)), ht, ?_⟩
      rw [hempty]
      rfl
    · refine .inr ⟨fun state => { state with error := text }, text, ?_, ht, rfl⟩
      rw [if_pos (mt (size_eq_zero_iff hv).mp hempty), assign_toOption hv, fitting_of_string ht hmax]
      rfl

/-! ### The response -/

/-- What the interval and the peers make of a response. -/
theorem turns_success {data : DictionaryRef} {entries : List (Str × Term)} (h : EntriesCarry m r data entries) :
    turns (byName m data) [intervalSlot m, peersSlot m endian] monostate =
      if Content.value entries "interval" = none ∧ Content.value entries "peers" = none then some monostate
      else
        (Content.valueOr 0 Content.number (Content.value entries "interval")).bind fun interval =>
          (Content.valueOr [] (Content.peers endian) (Content.value entries "peers")).map fun peers =>
            onSuccess ⟨interval, peers⟩ := by
  rcases first_byName h "interval" with ⟨hi, hi'⟩ | ⟨ei, ti, hi, hi', hci⟩
  · rcases first_byName h "peers" with ⟨hp, hp'⟩ | ⟨ep, tp, hp, hp', hcp⟩
    · simp only [turns, intervalSlot, peersSlot, hi, hi', hp, hp']
      rfl
    · simp only [turns, intervalSlot, peersSlot, hi, hi', hp, hp', peersOf_of_carries hcp, reduceCtorEq, and_false,
        ↓reduceIte, Content.valueOr, Option.bind_some]
      cases Content.peers endian tp <;> rfl
  · rcases first_byName h "peers" with ⟨hp, hp'⟩ | ⟨ep, tp, hp, hp', hcp⟩
    · simp only [turns, intervalSlot, peersSlot, hi, hi', hp, hp', intervalOf_of_carries hci, reduceCtorEq, false_and,
        ↓reduceIte, Content.valueOr]
      cases Content.number ti <;> rfl
    · simp only [turns, intervalSlot, peersSlot, hi, hi', hp, hp', intervalOf_of_carries hci, peersOf_of_carries hcp,
        reduceCtorEq, and_self, ↓reduceIte, Content.valueOr]
      cases Content.number ti with
      | none => rfl
      | some interval => cases Content.peers endian tp <;> rfl

/-- What comes after the interval and the peers starts from neither, or from a success. -/
theorem turns_success_bind {data : DictionaryRef} {entries : List (Str × Term)} (h : EntriesCarry m r data entries)
    (next : TrackerResponse → Option TrackerResponse) :
    (turns (byName m data) [intervalSlot m, peersSlot m endian] monostate).bind next =
      if Content.value entries "interval" = none ∧ Content.value entries "peers" = none then next monostate
      else
        (Content.valueOr 0 Content.number (Content.value entries "interval")).bind fun interval =>
          (Content.valueOr [] (Content.peers endian) (Content.value entries "peers")).bind fun peers =>
            next (onSuccess ⟨interval, peers⟩) := by
  rw [turns_success h]
  split
  · rfl
  · simp only [Option.bind_assoc, Option.bind_map, Function.comp_def]

/-- What is returned for a dictionary. -/
theorem parseData_toOption {data : DictionaryRef} {entries : List (Str × Term)} (h : EntriesCarry m r data entries)
    (hmax : (entriesBytes entries).length ≤ max.string) :
    (parseData m endian max data).toOption = Content.response endian entries := by
  have hrun : (parseData m endian max data).toOption =
      (turns (byName m data) (waiting (parsers m endian max)) monostate).bind fun response =>
        if response = monostate then none else some response := by
    rw [parseData, toOption_bind, invokeParsers_waiting, run_parsers]
    refine Option.bind_congr fun response _ => ?_
    split <;> rfl
  rw [hrun, waiting_parsers, turns_append, Option.bind_assoc, turns_success_bind h, Content.response]
  rcases first_byName h "failure reason" with ⟨hf, hf'⟩ | ⟨ef, tf, hf, hf', hcf⟩
  · simp only [hf', turns, failureSlot, hf, Option.bind_some, Option.map_eq_bind, reduceCtorEq, ↓reduceIte,
      Function.comp_def]
  · simp only [hf', turns, failureSlot, hf]
    rcases reasonOf_of_carries hcf (Nat.le_trans (length_of_value hf') hmax) with ⟨he, ht⟩ | ⟨change, text, he, ht, hchange⟩
    · simp only [he, ht, Option.bind_none, Option.bind_fun_none, Option.map_none]
    · rw [he, ht, Option.map_some, ← hchange]
      -- A failure that is put beside a success is an error.
      have hsuccess (interval : UInt64) (peers : List PeerAddress) :
          putError change (onSuccess ⟨interval, peers⟩) = none := rfl
      simp only [Option.bind_some, hsuccess, Option.bind_none, Option.bind_fun_none]
      rfl

/-! ### The failures -/

/-- A failure that is returned: nothing is thrown, and the loop over the peers meets its end. -/
def Returned (error : ResponseError) : Prop := ∃ e, error = .file e ∧ e ≠ .lengthError

/-- A text that fits in a string of the program. -/
def TextFits (max : MaxSize) (e : ElementRef) : Prop := ∀ v, e.asString = some v → v.size.toNat ≤ max.string

theorem returned_code (ec : ParseErrorc) : Returned (.file (.code ec)) := by
  refine ⟨_, rfl, ?_⟩
  rintro ⟨⟩

theorem errors_elementRefAs {α : Type} (as : ElementRef → Option α) (ec : ParseErrorc) (e : ElementRef) :
    Errors Returned ((elementRefAs as ec e).mapError .file) := by
  rw [elementRefAs]
  cases as e with
  | none => exact .error (returned_code ec)
  | some a => exact .ok a

theorem errors_parseAsUint64 (n : StringView) : Errors Returned ((parseAsUint64 m n).mapError .file) := by
  rw [parseAsUint64]
  cases parseLength (n.read m) with
  | none => exact .error (returned_code _)
  | some v => exact .ok v

theorem errors_getOrCreateOnly {T : Type} (get : TrackerResponse → Option T) (fresh : T) (response : TrackerResponse) :
    Errors Returned (getOrCreateOnly get fresh response) := by
  unfold getOrCreateOnly
  split
  · exact .ok _
  · split
    · exact .ok fresh
    · exact .error (returned_code _)

theorem errors_parseInterval (response : TrackerResponse) (e : ElementRef) :
    Errors Returned (parseInterval m response e) := by
  refine (errors_elementRefAs _ _ e).bind ?_
  intro n _
  refine (errors_parseAsUint64 n).bind ?_
  intro v _
  refine (errors_getOrCreateOnly getOnSuccess {} response).bind ?_
  intro state _
  exact .ok _

/-- The walk over a blob of whole addresses meets its end, wherever the blob is. -/
theorem exists_readPackedPeers (m : Memory) (endian : Endian) {blob : StringRef}
    (hmod : blob.size.toNat % kPackedPeerSize = 0) :
    ∃ peers, readPackedPeers m endian (blob.data + blob.size) blob.data (blob.size.toNat + 1) = .ok peers := by
  have hlen : 6 * (blob.size.toNat / 6) = blob.size.toNat := Nat.mul_div_cancel' (Nat.dvd_of_mod_eq_zero hmod)
  have hlt := blob.size.toNat_lt
  have hwhole : blob.size = UInt64.ofNat (6 * (blob.size.toNat / 6)) := by rw [hlen, UInt64.ofNat_toNat]
  refine ⟨compactPeers endian (blob.size.toNat / 6) (read m blob.data (6 * (blob.size.toNat / 6))), ?_⟩
  have hread : readPackedPeers m endian (blob.data + UInt64.ofNat (6 * (blob.size.toNat / 6))) blob.data
      (blob.size.toNat + 1) = _ := readPackedPeers_eq endian m (by omega) (by omega) blob.data
  rwa [← hwhole] at hread

theorem errors_parsePeers (response : TrackerResponse) (e : ElementRef) :
    Errors Returned (parsePeers m endian response e) := by
  refine (errors_elementRefAs _ _ e).bind ?_
  intro blob _
  by_cases hblob : blob.size = 0 ∨ blob.size.toNat % kPackedPeerSize ≠ 0
  · simp only [if_pos hblob]
    exact .error (returned_code _)
  · simp only [if_neg hblob]
    obtain ⟨added, hadded⟩ := exists_readPackedPeers m endian (not_not.mp (not_or.mp hblob).2)
    refine (errors_getOrCreateOnly getOnSuccess {} response).bind ?_
    intro state _
    rw [hadded]
    exact .ok _

theorem errors_parseFailure {e : ElementRef} (response : TrackerResponse) (he : TextFits max e) :
    Errors Returned (parseFailure m max response e) := by
  refine (errors_elementRefAs _ _ e).bind ?_
  intro str hstr
  have hfits : str.size.toNat ≤ max.string := by
    refine he str ?_
    rw [← elementRefAs_toOption ElementRef.asString .notString, ← toOption_mapError ResponseError.file, hstr]
    rfl
  refine (errors_getOrCreateOnly getOnError {} response).bind ?_
  intro state _
  rw [assign, if_pos hfits]
  split
  · exact .ok _
  · exact .ok _

/-- What a parser of a key returns. -/
def KeyParser.Returns (max : MaxSize) (p : KeyParser) : Prop :=
  ∀ response e, TextFits max e → Errors Returned (p.parse response e)

theorem returns_parsers : ∀ p ∈ parsers m endian max, p.Returns max := by
  refine List.forall_mem_cons.mpr ⟨?_, List.forall_mem_cons.mpr ⟨?_, List.forall_mem_singleton.mpr ?_⟩⟩
  · exact fun response e _ => errors_parseInterval response e
  · exact fun response e _ => errors_parsePeers response e
  · exact fun response e he => errors_parseFailure response he

theorem invokeParserOptionalKey_returns {e : ElementRef} (he : TextFits max e) (response : TrackerResponse)
    (name : StringRef) {parsers : List KeyParser} (h : ∀ p ∈ parsers, p.Returns max) :
    Errors Returned (invokeParserOptionalKey m response name e parsers) ∧
      ∀ next, invokeParserOptionalKey m response name e parsers = .ok next → ∀ p ∈ next.2, p.Returns max := by
  induction parsers with
  | nil =>
    refine ⟨.ok _, ?_⟩
    rintro next ⟨⟩
    exact h
  | cons state parsers ih =>
    obtain ⟨hstate, hparsers⟩ := List.forall_mem_cons.mp h
    obtain ⟨herrors, hnext⟩ := ih hparsers
    rw [invokeParserOptionalKey]
    split
    · refine ⟨herrors.map, ?_⟩
      intro next hok
      obtain ⟨next, hrest, rfl⟩ := ok_of_map hok
      exact List.forall_mem_cons.mpr ⟨hstate, hnext next hrest⟩
    · refine ⟨(hstate response e he).map, ?_⟩
      intro next hok
      obtain ⟨response', -, rfl⟩ := ok_of_map hok
      exact List.forall_mem_cons.mpr ⟨hstate, hparsers⟩

theorem errors_invokeParsers {data : DictionaryRef} (hdata : ∀ entry ∈ data, TextFits max entry.2)
    {parsers : List KeyParser} (h : ∀ p ∈ parsers, p.Returns max) (response : TrackerResponse) :
    Errors Returned (invokeParsers m response parsers data) := by
  induction data generalizing parsers response with
  | nil => exact .ok response
  | cons entry data ih =>
    obtain ⟨hentry, hdata⟩ := List.forall_mem_cons.mp hdata
    obtain ⟨herrors, hnext⟩ := invokeParserOptionalKey_returns (m := m) hentry response entry.1 h
    rw [invokeParsers]
    refine herrors.bind ?_
    intro next hok
    exact ih hdata (hnext next hok) next.1

/-- The texts of a dictionary are no longer than the dictionary. -/
theorem textFits_of_carry {data : DictionaryRef} {entries : List (Str × Term)} (h : EntriesCarry m r data entries)
    (hmax : (entriesBytes entries).length ≤ max.string) : ∀ entry ∈ data, TextFits max entry.2 := by
  induction entries generalizing data with
  | nil =>
    rw [h.nil]
    exact List.forall_mem_nil _
  | cons entry entries ih =>
    obtain ⟨s, t⟩ := entry
    obtain ⟨v, e, rest, rfl, -, he, hrest⟩ := h.cons
    rw [entriesBytes, List.length_append, List.length_append] at hmax
    refine List.forall_mem_cons.mpr ⟨?_, ih hrest (by omega)⟩
    intro str hstr
    rcases he.asString with ⟨hnone, -⟩ | ⟨str', text, hsome, ht, htext⟩
    · cases hnone.symm.trans hstr
    · cases hsome.symm.trans hstr
      have hle := length_of_string ht
      rw [toNat_size htext]
      omega

/-- A dictionary that is no response is refused with a failure that is returned. -/
theorem errors_parseData {data : DictionaryRef} {entries : List (Str × Term)} (h : EntriesCarry m r data entries)
    (hmax : (entriesBytes entries).length ≤ max.string) : Errors Returned (parseData m endian max data) := by
  refine (errors_invokeParsers (textFits_of_carry h hmax) returns_parsers monostate).bind ?_
  intro response _
  split
  · exact .error (returned_code _)
  · exact .ok response

end

end TrackerResponse

end BittorrentClient
