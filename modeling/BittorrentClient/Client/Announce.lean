import BittorrentClient.Client.Http
import BittorrentClient.Client.Peers

/-! The announces (`HTTP_TrackerAnnounce`, `HTTPS_TrackerAnnounce` and `UDP_TrackerAnnounce` of tracker_requests.cpp), and
    the list of peers that they make (`request_torrent_peers` of torrent_client.cpp), over what the network does. -/

namespace BittorrentClient
open Decimal FlatMemory SortUnique

/-- How an announce fails. -/
inductive AnnounceError where
  | http (error : HttpError)
  | response (error : FileError)
  | udp (error : UdpError)
  deriving DecidableEq, Repr

/-- Where the program has its strings: each that a string can hold is somewhere in memory. -/
structure Strings (max : MaxSize) where
  memory : List UInt8 → Memory
  content : List UInt8 → Region
  bytes : ∀ s, s.length ≤ max.string → (content s).bytes (memory s) = s

/-- The network while a tracker is asked over UDP. -/
structure UdpNetwork where
  open_ : Except SocketError Unit := .ok ()
  resolve : List UInt8 → List UInt8 → Except SocketError Unit := fun _ _ => .ok ()
  connects : Nat → UdpExchange
  announce : UdpExchange

/-- What is there for a tracker; over HTTPS, `connect` is the connect and the handshake of TLS. -/
structure Contact where
  http : HttpNetwork
  udp : UdpNetwork

/-- A coroutine that awaits another one, and goes on with its value. -/
def CoResult.bind {α β : Type} (result : CoResult α) (rest : α → CoResult β) : CoResult β :=
  match result with
  | .failure e => .failure e
  | .aborted a => .aborted a
  | .success a => rest a

section
variable (endian : Endian) {max : MaxSize} (strings : Strings max) (ndebug cuts : Bool)

/-- `HTTP_TrackerAnnounce`. -/
def httpTrackerAnnounce (network : HttpNetwork) (request : Tracker.HTTPGetRequest) (fuel : Nat) :
    Option (Except AnnounceError TrackerResponse) :=
  match network.httpGet request.host request.get_uri request.port with
  | .error e => some (.error (.http e))
  | .ok body =>
    (TrackerResponse.parseTrackerCompactResponseContent (strings.memory body) endian max fuel (strings.content body)).map
      fun response => response.mapError .response

/-- `HTTPS_TrackerAnnounce`: the content is taken as that of `HTTP_GET`. -/
def httpsTrackerAnnounce (network : HttpNetwork) (request : Tracker.HTTPGetRequest) (fuel : Nat) :
    Option (Except AnnounceError TrackerResponse) :=
  httpTrackerAnnounce endian strings network request fuel

/-- `UDP_TrackerAnnounce`. -/
def udpTrackerAnnounce (network : UdpNetwork) (request : Tracker.UDPRequest) : CoResult TrackerResponse :=
  .try_ (network.open_.mapError .socket) fun _ =>
  .try_ ((network.resolve request.host (natText request.port.toNat)).mapError .socket) fun _ =>
  (asyncConnect endian ndebug cuts network.connects).bind fun connectionId =>
  .assert ndebug (connectionId ≠ 0) .connectionId <|
  (asyncAnnounce endian ndebug cuts request connectionId network.announce).bind fun data =>
  .success (.onSuccess data)

/-- The announce that `fetch_one` awaits; an assertion ends the program. It awaits none for an empty request. -/
def announce (contact : Contact) (fuel : Nat) :
    Tracker.Request → Option (Except UdpAssertion (Except AnnounceError TrackerResponse))
  | .http request => (httpTrackerAnnounce endian strings contact.http request fuel).map .ok
  | .https request => (httpsTrackerAnnounce endian strings contact.http request fuel).map .ok
  | .udp request =>
    match udpTrackerAnnounce endian ndebug cuts contact.udp request with
    | .failure e => some (.ok (.error (.udp e)))
    | .aborted a => some (.error a)
    | .success response => some (.ok (.ok response))
  | .monostate => some (.ok (.error (.udp .todo)))

/-- The loop of `request_torrent_peers` over the requests, each with what is there for it. -/
def askTrackers (fuel : Nat) : List (Tracker.Request × Contact) → Option (Except UdpAssertion (List TrackerCall))
  | [] => some (.ok [])
  | (request, contact) :: rest =>
    match announce endian strings ndebug cuts contact fuel request with
    | none => none
    | some (.error a) => some (.error a)
    | some (.ok response) =>
      (askTrackers fuel rest).map fun calls => calls.map fun calls => ⟨request, response.mapError fun _ => .todo⟩ :: calls

end

end BittorrentClient
