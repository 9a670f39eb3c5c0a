import BittorrentClient.Bencoding.Strtoull
import BittorrentClient.Lib.Chunks
import BittorrentClient.Lib.FlatMemory

/-! `HTTP_GET` (utils_http.cpp). The network is an argument: how each of its operations ends, and the reads that the
    answer is cut into. -/

namespace BittorrentClient
open FlatMemory Decimal Chunks

/-- The failures of `HTTP_GET`: its own, the end of the stream and the others of the network. -/
inductive HttpError where
  | todo
  | eof
  | network (code : Nat)
  deriving DecidableEq, Repr

/-! ### Extraction from a stream buffer -/

/-- `std::istream` over the bytes of an `asio::streambuf`. -/
structure IStream where
  incoming : List UInt8
  eofbit : Bool := false
  failbit : Bool := false
  deriving DecidableEq, Repr

namespace IStream

def good (stream : IStream) : Bool := !stream.eofbit && !stream.failbit

/-- What is done before a formatted extraction. -/
def skipws (stream : IStream) : IStream :=
  if stream.good then
    let rest := stream.incoming.dropWhile isSpace
    { incoming := rest, eofbit := rest.isEmpty, failbit := rest.isEmpty }
  else { stream with failbit := true }

/-- `operator>>` to a string. -/
def extractString (stream : IStream) : List UInt8 × IStream :=
  let stream := stream.skipws
  if stream.failbit then ([], stream)
  else
    let rest := stream.incoming.dropWhile fun b => !isSpace b
    (stream.incoming.takeWhile fun b => !isSpace b, { stream with incoming := rest, eofbit := rest.isEmpty })

/-- `operator>>` to an unsigned int that was zero. -/
def extractUnsigned (stream : IStream) : UInt32 × IStream :=
  let stream := stream.skipws
  if stream.failbit then (0, stream)
  else
    let sign := signOf stream.incoming
    let digits := (stream.incoming.drop sign.length).takeWhile isDigit
    let rest := stream.incoming.drop (sign.length + digits.length)
    let stream := { stream with incoming := rest, eofbit := rest.isEmpty }
    if digits.isEmpty then (0, { stream with failbit := true })
    else if value digits < 2 ^ 32 then
      (if sign = [45] then 0 - UInt32.ofNat (value digits) else UInt32.ofNat (value digits), stream)
    else (0xFFFFFFFF, { stream with failbit := true })

/-- `std::getline`. -/
def getline (stream : IStream) : List UInt8 × IStream :=
  if stream.good then
    let line := stream.incoming.takeWhile (· ≠ 10)
    match stream.incoming.drop line.length with
    | [] => (line, { incoming := [], eofbit := true, failbit := line.isEmpty })
    | _ :: rest => (line, { stream with incoming := rest })
  else ([], { stream with failbit := true })

end IStream

/-! ### The request -/

def crlf : List UInt8 := [13, 10]

def requestText (host getUri : List UInt8) (port : UInt16) : List UInt8 :=
  let server := host ++ ascii ":" ++ natText port.toNat
  ascii "GET " ++ getUri ++ ascii " HTTP/1.0" ++ crlf ++ ascii "Host: " ++ server ++ crlf ++
    ascii "Accept: */*" ++ crlf ++ ascii "Connection: close" ++ crlf ++ crlf

/-- The network: the operations before the answer, the reads of the answer and how the stream ends behind them. -/
structure HttpNetwork where
  resolve : List UInt8 → List UInt8 → Except HttpError Unit := fun _ _ => .ok ()
  connect : Except HttpError Unit := .ok ()
  write : List UInt8 → Except HttpError Unit := fun _ => .ok ()
  reads : List (List UInt8)
  last : HttpError := .eof

namespace HttpNetwork

/-- `asio::async_read_until`, on a buffer and with the reads that are to come. -/
def asyncReadUntil (network : HttpNetwork) (delim response : List UInt8) (reads : List (List UInt8)) :
    Except HttpError (List UInt8 × List (List UInt8)) :=
  match readUntil delim response reads with
  | some found => .ok found
  | none => .error network.last

/-- The loop over the headers, for at most `passes` lines. -/
def skipHeaders (stream : IStream) : Nat → IStream
  | 0 => stream
  | passes + 1 =>
    let (header, stream) := stream.getline
    if !stream.failbit ∧ header ≠ [13] then skipHeaders stream passes else stream

/-- The loop that reads the rest: `async_read` with `transfer_at_least(1)` reads what comes next. -/
def readContent (network : HttpNetwork) (content : List UInt8) : List (List UInt8) → Except HttpError (List UInt8)
  | [] => if network.last ≠ .eof then .error network.last else .ok content
  | incoming :: reads => readContent network (content ++ incoming) reads

/-- The answer: the status line, the headers and the content. A line of the headers takes a byte or is the last one. -/
def readResponse (network : HttpNetwork) : Except HttpError (List UInt8) := do
  let (response, reads) ← network.asyncReadUntil crlf [] network.reads
  let (httpVersion, stream) := (IStream.mk response false false).extractString
  let (statusCode, stream) := stream.extractUnsigned
  let (_, stream) := stream.getline
  if stream.failbit ∨ httpVersion.take 5 ≠ ascii "HTTP/" then
    throw .todo
  if statusCode ≠ 200 then
    throw .todo
  let (response, reads) ← network.asyncReadUntil (crlf ++ crlf) stream.incoming reads
  let stream := skipHeaders (IStream.mk response false false) (response.length + 1)
  network.readContent stream.incoming reads

/-- `HTTP_GET`. -/
def httpGet (network : HttpNetwork) (host getUri : List UInt8) (port : UInt16) : Except HttpError (List UInt8) := do
  network.resolve host (natText port.toNat)
  network.connect
  network.write (requestText host getUri port)
  network.readResponse

end HttpNetwork

end BittorrentClient
