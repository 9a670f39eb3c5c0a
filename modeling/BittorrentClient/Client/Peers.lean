import BittorrentClient.Client.TrackerResponse
import BittorrentClient.Lib.SortUnique

/-! The list of peers (`request_torrent_peers` of torrent_client.cpp): the trackers are asked one after the other, and
    what they return is merged. -/

namespace BittorrentClient
open SortUnique

namespace PeerAddress

/-- `std::tie(lhs.ipv4_, lhs.port_) < std::tie(rhs.ipv4_, rhs.port_)`. -/
def less (lhs rhs : PeerAddress) : Bool :=
  lhs.ipv4 < rhs.ipv4 || (!(rhs.ipv4 < lhs.ipv4 : Bool) && lhs.port < rhs.port)

/-- `std::tie(lhs.ipv4_, lhs.port_) == std::tie(rhs.ipv4_, rhs.port_)`. -/
def equal (lhs rhs : PeerAddress) : Bool := lhs.ipv4 == rhs.ipv4 && lhs.port == rhs.port

end PeerAddress

def tryGetOnlyPeers : TrackerResponse → Except RequestError (List PeerAddress)
  | .onSuccess data => .ok data.peers
  | _ => .error .todo

/-- A request, and how its announce ends; which error it ends with does not matter here. -/
structure TrackerCall where
  request : Tracker.Request
  response : Except RequestError TrackerResponse

/-- `fetch_one`. -/
def TrackerCall.fetchOne (call : TrackerCall) : Except RequestError (List PeerAddress) :=
  match call.request with
  | .http _ => do tryGetOnlyPeers (← call.response)
  | .https _ => do tryGetOnlyPeers (← call.response)
  | .udp _ => do tryGetOnlyPeers (← call.response)
  | .monostate => .error .todo

/-- `try_add_peers`. -/
def tryAddPeers (allPeers : List PeerAddress) : Except RequestError (List PeerAddress) → List PeerAddress
  | .error _ => allPeers
  | .ok newPeers => allPeers ++ newPeers

/-- `RemoveDuplicates`, with `std::sort` given. -/
def removeDuplicates (sort : Sorter PeerAddress.less) (allPeers : List PeerAddress) : List PeerAddress :=
  unique PeerAddress.equal (sort.run allPeers)

/-- `request_torrent_peers`, where `build_tracker_requests` gives `allInfos`. -/
def requestTorrentPeers (sort : Sorter PeerAddress.less) (allInfos : Except RequestError (List TrackerCall)) :
    Except RequestError (List PeerAddress) := do
  let calls ← allInfos
  let allPeers := calls.foldl (fun allPeers call => tryAddPeers allPeers call.fetchOne) []
  let allPeers := removeDuplicates sort allPeers
  if allPeers.length > 0 then
    return allPeers
  throw .todo

end BittorrentClient
