import BittorrentClient.Client.Connection
import BittorrentClient.Client.Disk
import BittorrentClient.Client.Peers

/-! The program (`main`, `DoOneTrackerRound` and `DebugObserver` of main.cpp): what it sets up, what a round begins with,
    what the connections of a round do to the pieces and the files, and what is asserted at the end. -/

namespace BittorrentClient

/-! ### DebugObserver -/

/-- What is counted to be printed. -/
structure DebugObserver where
  total : UInt64 := 0
  pieces_count : UInt32 := 0
  total_peers : UInt32 := 0
  received : UInt64 := 0
  received_pieces : UInt32 := 0
  peers_count : UInt32 := 0
  deriving DecidableEq, Repr

namespace DebugObserver
variable (debug : DebugObserver)

def onNewPartReceived (piece : PieceState) (bytesReceived : UInt32) : DebugObserver :=
  { debug with
    received := debug.received + bytesReceived.toUInt64
    received_pieces :=
      if piece.downloaded.toNat = piece.data.length then debug.received_pieces + 1 else debug.received_pieces }

def onPeersListReceived (peers : List PeerAddress) : DebugObserver :=
  { debug with total_peers := UInt32.ofNat peers.length, peers_count := UInt32.ofNat peers.length }

/-- `OnNewPartReceived` is called for a part that is read, with the piece that has it. -/
def observe (pieces : PiecesToDownload) (x : PeerDownload) (event : NetEvent) : DebugObserver :=
  match x.point, event with
  | .download (.readMessage piece _ _), .message (.piece m) =>
    match pieces.pieces.get? piece with
    | some state => debug.onNewPartReceived state m.size
    | none => debug
  | _, _ => debug

end DebugObserver

/-! ### The program -/

/-- The assertions of `main` and `DoOneTrackerRound`. -/
inductive MainAssertion where
  | noPeers
  | downloadedPieces | piecesLeft | retriesLeft | totalWritten
  deriving DecidableEq, Repr

def MainAssertion.check (cond : Prop) [Decidable cond] (assertion : MainAssertion) : Except MainAssertion Unit :=
  if cond then .ok () else .error assertion

/-- What `main` shares with the coroutines. -/
structure Downloads where
  pieces : PiecesToDownload
  disk : FilesOnDisk
  debug : DebugObserver := {}
  /-- What the trackers were told, one entry for each round. -/
  requests : List Tracker.RequestInfo := []

namespace Downloads
variable (endian : Endian) (client : TorrentClient)

/-- What `main` sets up before its loop, on a system. -/
def initial (system : Win32) : Asserted Downloads := do
  let filesList ← FilesList.make client
  let pieces ← PiecesToDownload.initial client
  return { pieces := pieces
           disk := .make filesList system
           debug := { total := pieces.total_size, pieces_count := pieces.pieces_count } }

variable (d : Downloads)

/-- The condition of the loop of `main`. -/
def unfinished : Prop := d.pieces.downloaded_pieces_count < d.pieces.pieces_count

/-- What `DoOneTrackerRound` tells the trackers. -/
def request : Tracker.RequestInfo where
  server_port := 6882
  pieces_left := d.pieces.pieces_count - d.pieces.downloaded_pieces_count
  uploaded_pieces := 0
  downloaded_pieces := d.pieces.downloaded_pieces_count

/-- `DoOneTrackerRound` up to the run of its coroutines, where the trackers answer with `response`: one coroutine for
    each address. -/
def beginRound (response : Except RequestError (List PeerAddress)) :
    Except MainAssertion (Downloads × List PeerDownload) := do
  let peersAddresses := match response with
    | .ok addresses => addresses
    | .error _ => []
  MainAssertion.check (peersAddresses.length > 0) .noPeers
  return ({ d with debug := d.debug.onPeersListReceived peersAddresses, requests := d.requests ++ [d.request] },
    peersAddresses.map fun address => { address := address })

/-- A step of a coroutine. The pieces that it delivers are written to the files: `on_new_piece` is `write_piece`. -/
def step (x : PeerDownload) (event : NetEvent) : Option (Except Abort (Downloads × PeerDownload)) :=
  (x.step endian client d.pieces event).map fun
    | .error e => .error e
    | .ok (pieces, x') =>
      match d.disk.writePieces (pieces.new_pieces.drop d.pieces.new_pieces.length) with
      | .error e => .error (.assertion e)
      | .ok disk => .ok ({ d with pieces := pieces, disk := disk, debug := d.debug.observe pieces x event }, x')

/-- The assertions at the end of `main`. -/
def exit : Except MainAssertion Unit := do
  MainAssertion.check (d.pieces.downloaded_pieces_count = d.pieces.pieces_count) .downloadedPieces
  MainAssertion.check (d.pieces.pieces.isEmpty = true) .piecesLeft
  MainAssertion.check (d.pieces.to_retry = []) .retriesLeft
  MainAssertion.check (d.disk.totalWritten = d.pieces.total_size) .totalWritten

end Downloads

end BittorrentClient
