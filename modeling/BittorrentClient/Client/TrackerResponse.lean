import BittorrentClient.Client.Udp

/-! The response of a tracker over HTTP in its compact form (be_tracker_response_parse.cpp). -/

namespace BittorrentClient
open FlatMemory

/-- `TrackerResponse::OnError`. -/
structure TrackerResponse.OnError where
  error : List UInt8 := []
  deriving DecidableEq, Repr

/-- `TrackerResponse::data_`. -/
inductive TrackerResponse where
  | monostate
  | onSuccess (data : TrackerResponse.OnSuccess)
  | onError (data : TrackerResponse.OnError)
  deriving DecidableEq, Repr

/-- What stops the parser before it has a response: a failure or an exception, as in the parser of .torrent files, or
    the loop over the peers that does not meet its end. -/
inductive ResponseError where
  | file (error : FileError)
  | endless
  deriving DecidableEq, Repr

namespace TrackerResponse

/-- `k_packed_peer_size`. -/
def kPackedPeerSize : Nat := 4 + 2

def getOnSuccess : TrackerResponse → Option OnSuccess
  | onSuccess data => some data
  | _ => none

def getOnError : TrackerResponse → Option OnError
  | onError data => some data
  | _ => none

/-- `GetOrCreateOnly`: the alternative that `get` looks for, or a fresh one where nothing is constructed yet. -/
def getOrCreateOnly {T : Type} (get : TrackerResponse → Option T) (fresh : T) (response : TrackerResponse) :
    Except ResponseError T :=
  match get response with
  | some data => .ok data
  | none =>
    match response with
    | monostate => .ok fresh
    | _ => .error (.file (.code .implInvalidInvariant))

structure KeyParser where
  key : List UInt8
  parse : TrackerResponse → ElementRef → Except ResponseError TrackerResponse
  parsed : Bool := false

section
variable (m : Memory) (endian : Endian) (max : MaxSize)

/-- `InvokeParserOptionalKey`: the first parser of the key that has not been used yet parses the value. -/
def invokeParserOptionalKey (response : TrackerResponse) (key : StringRef) (value : ElementRef) :
    List KeyParser → Except ResponseError (TrackerResponse × List KeyParser)
  | [] => .ok (response, [])
  | state :: parsers =>
    if state.parsed || !key.equals m state.key then
      (invokeParserOptionalKey response key value parsers).map fun (response, parsers) => (response, state :: parsers)
    else
      (state.parse response value).map fun response => (response, { state with parsed := true } :: parsers)

/-- The loop over the entries of the dictionary. -/
def invokeParsers (response : TrackerResponse) (parsers : List KeyParser) :
    DictionaryRef → Except ResponseError TrackerResponse
  | [] => .ok response
  | (name, element) :: data => do
    let (response, parsers) ← invokeParserOptionalKey m response name element parsers
    invokeParsers response parsers data

def parseInterval (response : TrackerResponse) (interval : ElementRef) : Except ResponseError TrackerResponse := do
  let n ← (elementRefAsInteger interval).mapError .file
  let v ← (parseAsUint64 m n).mapError .file
  let state ← getOrCreateOnly getOnSuccess {} response
  return onSuccess { state with rerequest_dt_secs := v }

/-- The loop of `ParseResponse_Peers`, for at most `passes` passes: it ends where `current` meets `end_`. -/
def readPackedPeers (end_ current : UInt64) : Nat → Except ResponseError (List PeerAddress)
  | 0 => .error .endless
  | passes + 1 =>
    if current = end_ then .ok []
    else do
      let peer : PeerAddress := { ipv4 := endian.ofBytes (read m current 4), port := endian.ofBytes16 (read m (current + 4) 2) }
      let peers ← readPackedPeers end_ (current + 4 + 2) passes
      return peer :: peers

def parsePeers (response : TrackerResponse) (peers : ElementRef) : Except ResponseError TrackerResponse := do
  let peersBlob ← (elementRefAsString peers).mapError .file
  if peersBlob.size = 0 ∨ peersBlob.size.toNat % kPackedPeerSize ≠ 0 then
    throw (.file (.code .invalidPeersBlobLength))
  let state ← getOrCreateOnly getOnSuccess {} response
  let current := peersBlob.data
  let end_ := current + peersBlob.size
  let added ← readPackedPeers m endian end_ current (peersBlob.size.toNat + 1)
  return onSuccess { state with peers := state.peers ++ added }

def parseFailure (response : TrackerResponse) (failure : ElementRef) : Except ResponseError TrackerResponse := do
  let str ← (elementRefAsString failure).mapError .file
  let state ← getOrCreateOnly getOnError {} response
  if str.size ≠ 0 then
    return onError { state with error := ← (assign m max str).mapError .file }
  return onError state

def parsers : List KeyParser := [
  { key := ascii "interval", parse := parseInterval m },
  { key := ascii "peers", parse := parsePeers m endian },
  { key := ascii "failure reason", parse := parseFailure m max }]

/-- `ParseTrackerCompactResponseContent` after `ParseDictionary`. -/
def parseData (data : DictionaryRef) : Except ResponseError TrackerResponse := do
  let response ← invokeParsers m monostate (parsers m endian max) data
  if response = monostate then
    throw (.file (.code .missingRequiredProperty))
  return response

/-- `ParseTrackerCompactResponseContent`: it has no result where its loop has no end. -/
def parseTrackerCompactResponseContent (fuel : Nat) (content : Region) : Option (Except FileError TrackerResponse) :=
  (parseDictionary m fuel content).bind fun
    | (.error e, _) => some (.error (.parse e))
    | (.ok data, _) =>
      match parseData m endian max data with
      | .error .endless => none
      | .error (.file e) => some (.error e)
      | .ok response => some (.ok response)

end

end TrackerResponse

end BittorrentClient
