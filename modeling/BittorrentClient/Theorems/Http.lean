import BittorrentClient.Client.Http
import BittorrentClient.Lib.Outcome

/-! What `HTTP_GET` returns for an answer, however the answer is cut into reads. -/

namespace BittorrentClient
open FlatMemory Decimal Chunks
open IStream (getline extractString extractUnsigned)

/-- An answer with status 200: a status line, lines of headers, an empty line and any body. -/
structure HttpAnswer where
  version : List UInt8
  reason : List UInt8
  headers : List (List UInt8)
  body : List UInt8
  version_token : ∀ b ∈ version, isSpace b = false
  reason_line : 10 ∉ reason
  headers_line : ∀ header ∈ headers, header ≠ [] ∧ 10 ∉ header

namespace HttpAnswer

def statusLine (answer : HttpAnswer) : List UInt8 := ascii "HTTP/" ++ answer.version ++ ascii " 200 " ++ answer.reason

def bytes (answer : HttpAnswer) : List UInt8 :=
  answer.statusLine ++ crlf ++ (answer.headers.flatMap (· ++ crlf) ++ crlf ++ answer.body)

end HttpAnswer

/-- The network carries the answer, cut into reads that are not empty, and then ends the stream. -/
structure HttpAnswer.Arrives (answer : HttpAnswer) (network : HttpNetwork) : Prop where
  resolve : ∀ host port, network.resolve host port = .ok ()
  connect : network.connect = .ok ()
  write : ∀ request, network.write request = .ok ()
  bytes : network.reads.flatten = answer.bytes
  reads : ∀ read ∈ network.reads, read ≠ []
  last : network.last = .eof

/-- The network that gives the answer in one read. -/
def HttpAnswer.atOnce (answer : HttpAnswer) : HttpNetwork := { reads := [answer.bytes] }

/-- The body is returned as it is. -/
def ExactBody (answer : HttpAnswer) : Prop :=
  ∀ network, answer.Arrives network → ∀ host getUri port, network.httpGet host getUri port = .ok answer.body

/-! ### Lines -/

theorem getline_append {line rest : List UInt8} (h : 10 ∉ line) :
    getline ⟨line ++ 10 :: rest, false, false⟩ = (line, ⟨rest, false, false⟩) := by
  have hgood : (IStream.mk (line ++ 10 :: rest) false false).good = true := rfl
  have hline : (line ++ 10 :: rest).takeWhile (· ≠ 10) = line :=
    takeWhile_append_cons (fun b hb => decide_eq_true fun h' => h (h' ▸ hb)) rfl
  rw [getline, if_pos hgood]
  simp only [hline, List.drop_left]

theorem not_mem_append_cr {line : List UInt8} (h : 10 ∉ line) : 10 ∉ line ++ [13] := by
  rw [List.mem_append, List.mem_singleton]
  rintro (hline | hcr)
  · exact h hline
  · cases hcr

/-- The lines of the headers are skipped up to the empty line. -/
theorem skipHeaders_append {headers : List (List UInt8)} (h : ∀ header ∈ headers, header ≠ [] ∧ 10 ∉ header)
    {passes : Nat} (hpasses : headers.length < passes) (rest : List UInt8) :
    HttpNetwork.skipHeaders ⟨headers.flatMap (· ++ crlf) ++ crlf ++ rest, false, false⟩ passes =
      ⟨rest, false, false⟩ := by
  induction headers generalizing passes with
  | nil =>
    obtain ⟨passes, rfl⟩ := Nat.exists_eq_succ_of_ne_zero (Nat.ne_of_gt hpasses)
    have hempty : getline ⟨[13] ++ 10 :: rest, false, false⟩ = _ := getline_append (by decide)
    rw [List.flatMap_nil, List.nil_append, HttpNetwork.skipHeaders]
    rw [show crlf ++ rest = [13] ++ 10 :: rest from rfl, hempty]
    exact if_neg (by simp)
  | cons header headers ih =>
    obtain ⟨passes, rfl⟩ := Nat.exists_eq_succ_of_ne_zero (Nat.ne_of_gt (Nat.zero_lt_of_lt hpasses))
    obtain ⟨hheader, hheaders⟩ := List.forall_mem_cons.mp h
    have hsplit : (header :: headers).flatMap (· ++ crlf) ++ crlf ++ rest =
        header ++ [13] ++ 10 :: (headers.flatMap (· ++ crlf) ++ crlf ++ rest) := by
      simp [crlf]
    rw [HttpNetwork.skipHeaders, hsplit, getline_append (not_mem_append_cr hheader.2)]
    dsimp only
    rw [if_pos, ih hheaders (Nat.lt_of_succ_lt_succ hpasses)]
    refine ⟨rfl, ?_⟩
    intro hcr
    exact hheader.1 (List.append_left_eq_self.mp (hcr.trans (List.nil_append [13]).symm))

theorem length_le_flatMap_crlf (headers : List (List UInt8)) :
    headers.length ≤ (headers.flatMap (· ++ crlf)).length := by
  induction headers with
  | nil => exact Nat.le_refl _
  | cons header headers ih =>
    have hcrlf : crlf.length = 2 := rfl
    rw [List.flatMap_cons, List.length_append, List.length_append, List.length_cons, hcrlf]
    omega

/-! ### The status line -/

theorem skipws_cons {b : UInt8} (hb : isSpace b = false) {spaces rest : List UInt8}
    (hspaces : ∀ b ∈ spaces, isSpace b = true) :
    (IStream.mk (spaces ++ b :: rest) false false).skipws = ⟨b :: rest, false, false⟩ := by
  have hgood : (IStream.mk (spaces ++ b :: rest) false false).good = true := rfl
  rw [IStream.skipws, if_pos hgood]
  simp only [dropWhile_append_cons hspaces hb]
  rfl

theorem extractString_append {b space : UInt8} (hb : isSpace b = false) (hspace : isSpace space = true)
    {token rest : List UInt8} (htoken : ∀ b ∈ token, isSpace b = false) :
    extractString ⟨b :: token ++ space :: rest, false, false⟩ = (b :: token, ⟨space :: rest, false, false⟩) := by
  have hall : ∀ c ∈ b :: token, (!isSpace c) = true := by
    intro c hc
    rcases List.mem_cons.mp hc with rfl | hc
    · rw [hb]
      rfl
    · rw [htoken c hc]
      rfl
  have hstop : (!isSpace space) = false := by rw [hspace]; rfl
  have hskip : (IStream.mk (b :: token ++ space :: rest) false false).skipws =
      ⟨b :: token ++ space :: rest, false, false⟩ := skipws_cons hb (List.forall_mem_nil _)
  rw [extractString, hskip]
  simp only [Bool.false_eq_true, ↓reduceIte]
  rw [takeWhile_append_cons hall hstop, dropWhile_append_cons hall hstop]
  rfl

theorem isSpace_of_all {token : List UInt8} (h : (token.all fun b => !isSpace b) = true) :
    ∀ b ∈ token, isSpace b = false := by
  intro b hb
  simpa using List.all_eq_true.mp h b hb

/-- 200 is read from its digits. -/
theorem extractUnsigned_200 {rest : List UInt8} :
    extractUnsigned ⟨ascii " 200 " ++ rest, false, false⟩ = (200, ⟨32 :: rest, false, false⟩) := by
  have hskip : (IStream.mk (ascii " 200 " ++ rest) false false).skipws = ⟨50 :: 48 :: 48 :: 32 :: rest, false, false⟩ :=
    skipws_cons rfl (List.forall_mem_singleton.mpr (rfl : isSpace 32 = true))
  rw [extractUnsigned, hskip]
  rfl

/-! ### Where the delimiters are -/

theorem HttpAnswer.statusLine_line (answer : HttpAnswer) : 10 ∉ answer.statusLine := by
  have hversion : 10 ∉ answer.version := fun h => absurd (answer.version_token 10 h) (by decide)
  simp only [statusLine, List.mem_append, not_or]
  exact ⟨⟨⟨by decide, hversion⟩, by decide⟩, answer.reason_line⟩

theorem not_crlf_infix {line : List UInt8} (h : 10 ∉ line) : ¬crlf <:+: line ++ [13] := by
  intro hcrlf
  exact not_mem_append_cr h (hcrlf.subset (by decide))

/-- There is no empty line among the lines of the headers. -/
theorem not_empty_line {headers : List (List UInt8)} (h : ∀ header ∈ headers, header ≠ [] ∧ 10 ∉ header) :
    ¬[10, 13, 10] <:+: 10 :: (headers.flatMap (· ++ crlf) ++ [13]) := by
  induction headers with
  | nil => decide
  | cons header headers ih =>
    obtain ⟨hheader, hheaders⟩ := List.forall_mem_cons.mp h
    have hsplit : (header :: headers).flatMap (· ++ crlf) ++ [13] =
        (header ++ [13]) ++ 10 :: (headers.flatMap (· ++ crlf) ++ [13]) := by
      simp [crlf]
    rw [hsplit]
    intro hwithin
    rcases List.infix_cons_iff.mp hwithin with hhead | hrest
    · cases header with
      | nil => exact hheader.1 rfl
      | cons b header =>
        have hnext := (List.cons_prefix_cons.mp (List.cons_prefix_cons.mp hhead).2).2
        cases header with
        | nil => exact absurd (List.cons_prefix_cons.mp hnext).1 (by decide)
        | cons c header =>
          exact hheader.2 ((List.cons_prefix_cons.mp hnext).1 ▸ List.mem_cons_of_mem _ List.mem_cons_self)
    · exact ih hheaders (infix_of_append (not_mem_append_cr hheader.2) hrest)

theorem not_crlfcrlf_infix {headers : List (List UInt8)} (h : ∀ header ∈ headers, header ≠ [] ∧ 10 ∉ header) :
    ¬crlf ++ crlf <:+: headers.flatMap (· ++ crlf) ++ [13] := by
  intro hwithin
  refine not_empty_line h (.trans ?_ (hwithin.trans (List.suffix_cons 10 _).isInfix))
  exact ⟨[13], [], rfl⟩

theorem crlfcrlf_infix_iff (answer : HttpAnswer) :
    crlf ++ crlf <:+: answer.headers.flatMap (· ++ crlf) ++ crlf ++ answer.body ↔
      answer.headers ≠ [] ∨ crlf ++ crlf <:+: crlf ++ answer.body := by
  by_cases hnil : answer.headers = []
  · rw [hnil]
    exact ⟨fun h => .inr h, fun h => h.resolve_left (fun hne => hne rfl)⟩
  · refine iff_of_true ?_ (.inl hnil)
    obtain ⟨before, header, hheaders⟩ := (List.eq_nil_or_concat answer.headers).resolve_left hnil
    refine ⟨before.flatMap (· ++ crlf) ++ header, answer.body, ?_⟩
    rw [hheaders]
    simp

/-! ### The whole answer -/

theorem HttpAnswer.arrives_atOnce (answer : HttpAnswer) : answer.Arrives answer.atOnce where
  resolve _ _ := rfl
  connect := rfl
  write _ := rfl
  bytes := List.append_nil _
  reads := by
    refine List.forall_mem_singleton.mpr ?_
    rw [bytes]
    simp [crlf]
  last := rfl

section
variable {network : HttpNetwork} {answer : HttpAnswer}

theorem asyncReadUntil_eq {delim response : List UInt8} {reads : List (List UInt8)}
    (h : delim <:+: response ++ reads.flatten) : ∃ response' reads',
      network.asyncReadUntil delim response reads = .ok (response', reads') ∧ delim <:+: response' ∧
        response' ++ reads'.flatten = response ++ reads.flatten := by
  have hsome : readUntil delim response reads ≠ none := fun hnone => readUntil_eq_none_iff.mp hnone h
  obtain ⟨⟨response', reads'⟩, hread⟩ := Option.ne_none_iff_exists'.mp hsome
  exact ⟨response', reads', by rw [HttpNetwork.asyncReadUntil, hread], of_readUntil hread⟩

theorem asyncReadUntil_error {delim response : List UInt8} {reads : List (List UInt8)}
    (h : ¬delim <:+: response ++ reads.flatten) :
    network.asyncReadUntil delim response reads = .error network.last := by
  rw [HttpNetwork.asyncReadUntil, readUntil_eq_none_iff.mpr h]

theorem readContent_eq (hlast : network.last = .eof) (content : List UInt8) (reads : List (List UInt8)) :
    network.readContent content reads = .ok (content ++ reads.flatten) := by
  induction reads generalizing content with
  | nil => rw [HttpNetwork.readContent, if_neg (not_not_intro hlast), List.flatten_nil, List.append_nil]
  | cons incoming reads ih => rw [HttpNetwork.readContent, ih, List.flatten_cons, List.append_assoc]

/-- The status line is taken from the buffer, and nothing else. -/
theorem extract_statusLine (answer : HttpAnswer) (more : List UInt8) :
    extractString ⟨answer.statusLine ++ [13] ++ [10] ++ more, false, false⟩ =
        (ascii "HTTP/" ++ answer.version, ⟨ascii " 200 " ++ (answer.reason ++ [13] ++ 10 :: more), false, false⟩) ∧
      extractUnsigned ⟨ascii " 200 " ++ (answer.reason ++ [13] ++ 10 :: more), false, false⟩ =
        (200, ⟨32 :: answer.reason ++ [13] ++ 10 :: more, false, false⟩) ∧
      getline ⟨32 :: answer.reason ++ [13] ++ 10 :: more, false, false⟩ =
        (32 :: answer.reason ++ [13], ⟨more, false, false⟩) := by
  refine ⟨?_, extractUnsigned_200, ?_⟩
  · have htoken : ∀ b ∈ ascii "TTP/" ++ answer.version, isSpace b = false := by
      intro b hb
      rcases List.mem_append.mp hb with hb | hb
      · exact isSpace_of_all (by decide : (ascii "TTP/").all (fun b => !isSpace b) = true) b hb
      · exact answer.version_token b hb
    have hsplit : answer.statusLine ++ [13] ++ [10] ++ more = 72 :: (ascii "TTP/" ++ answer.version) ++
        32 :: (ascii "200 " ++ (answer.reason ++ [13] ++ 10 :: more)) := by
      simp only [HttpAnswer.statusLine, List.append_assoc]
      rfl
    rw [hsplit]
    exact extractString_append rfl rfl htoken
  · refine getline_append (not_mem_append_cr ?_)
    rw [List.mem_cons]
    rintro (hspace | hreason)
    · cases hspace
    · exact answer.reason_line hreason

/-- The status line and the headers are behind when the empty line is found. -/
theorem readResponse_eq (h : answer.Arrives network) : network.readResponse =
    if answer.headers ≠ [] ∨ crlf ++ crlf <:+: crlf ++ answer.body then .ok answer.body else .error .eof := by
  have hbytes : [] ++ network.reads.flatten =
      answer.statusLine ++ [13] ++ [10] ++ (answer.headers.flatMap (· ++ crlf) ++ crlf ++ answer.body) := by
    rw [List.nil_append, h.bytes, HttpAnswer.bytes]
    simp [crlf]
  have hcrlf : crlf <:+: [] ++ network.reads.flatten := by
    rw [hbytes]
    exact ⟨answer.statusLine, answer.headers.flatMap (· ++ crlf) ++ crlf ++ answer.body, by simp [crlf]⟩
  obtain ⟨response, reads, hread, hfound, hrest⟩ := asyncReadUntil_eq hcrlf
  have hline : ¬crlf <:+: answer.statusLine ++ [13] := not_crlf_infix answer.statusLine_line
  obtain ⟨more, rfl, hmore⟩ := exists_append_of_infix hfound hline (hrest.trans hbytes)
  obtain ⟨hversion, hcode, hmessage⟩ := extract_statusLine answer more
  rw [HttpNetwork.readResponse, hread]
  simp only [Outcome.ok_bind, hversion, hcode, hmessage]
  have hhttp : ¬(false = true ∨ (ascii "HTTP/" ++ answer.version).take 5 ≠ ascii "HTTP/") := by
    rintro (hfail | hhead)
    · cases hfail
    · exact hhead (List.take_left' rfl)
  rw [if_neg hhttp, if_neg (not_not_intro rfl)]
  have hends (rest : List UInt8) : answer.headers.flatMap (· ++ crlf) ++ crlf ++ rest =
      answer.headers.flatMap (· ++ crlf) ++ [13] ++ [10] ++ rest := by
    simp [crlf]
  by_cases hempty : crlf ++ crlf <:+: more ++ reads.flatten
  · rw [if_pos ((crlfcrlf_infix_iff answer).mp (hmore ▸ hempty))]
    obtain ⟨response, reads, hread, hfound, hrest⟩ := asyncReadUntil_eq hempty
    have hlines : ¬crlf ++ crlf <:+: answer.headers.flatMap (· ++ crlf) ++ [13] := not_crlfcrlf_infix answer.headers_line
    obtain ⟨content, rfl, hbody⟩ := exists_append_of_infix hfound hlines (hrest.trans (hmore.trans (hends _)))
    rw [hread]
    have hpasses : answer.headers.length <
        (answer.headers.flatMap (· ++ crlf) ++ [13] ++ [10] ++ content).length + 1 := by
      have := length_le_flatMap_crlf answer.headers
      simp only [List.length_append]
      omega
    simp only [Outcome.ok_bind]
    rw [← hends content] at hpasses ⊢
    rw [skipHeaders_append answer.headers_line hpasses, readContent_eq h.last, hbody]
  · rw [if_neg fun hcond => hempty (hmore ▸ (crlfcrlf_infix_iff answer).mpr hcond), asyncReadUntil_error hempty, h.last]
    rfl

theorem httpGet_eq (h : answer.Arrives network) (host getUri : List UInt8) (port : UInt16) :
    network.httpGet host getUri port =
      if answer.headers ≠ [] ∨ crlf ++ crlf <:+: crlf ++ answer.body then .ok answer.body else .error .eof := by
  rw [HttpNetwork.httpGet, h.resolve, h.connect, h.write]
  exact readResponse_eq h

end

/-- The body is returned as it is where there is a header, or what follows the status line has an empty line elsewhere. -/
theorem exactBody_iff (answer : HttpAnswer) :
    ExactBody answer ↔ answer.headers ≠ [] ∨ crlf ++ crlf <:+: crlf ++ answer.body := by
  constructor
  · intro h
    by_contra hcond
    have harrives : answer.Arrives answer.atOnce := answer.arrives_atOnce
    have hok := h _ harrives [] [] 80
    rw [httpGet_eq harrives, if_neg hcond] at hok
    cases hok
  · intro hcond network h host getUri port
    rw [httpGet_eq h, if_pos hcond]

def noHeaders : HttpAnswer where
  version := ascii "1.0"
  reason := ascii "OK"
  headers := []
  body := ascii "d8:intervali1800ee"
  version_token := isSpace_of_all (by decide)
  reason_line := by decide
  headers_line := nofun

/-- The empty line cannot be told from the end of the status line, which has been taken. -/
theorem not_exactBody_noHeaders : ¬ExactBody noHeaders := by
  intro h
  have hok := h _ noHeaders.arrives_atOnce [] [] 80
  rw [httpGet_eq noHeaders.arrives_atOnce, if_neg (by decide)] at hok
  cases hok

end BittorrentClient
