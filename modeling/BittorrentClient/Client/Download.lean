import BittorrentClient.Client.Pieces

/-! The download from one peer (`TryDownloadPiecesFromPeer` of main.cpp). The coroutine stops where it awaits an
    operation of the socket; what it does in between is cut into steps at the heads of its loops. -/

namespace BittorrentClient

/-- The largest block that is requested. -/
def kMaxBlock : UInt32 := 16384

/-- How many requests are sent before a piece is read. -/
def kMaxBacklog : Int := 5

structure TorrentPeer where
  bitfield : MessageBitfield
  unchocked : Bool := false
  deriving DecidableEq, Repr

/-- Where the coroutine is, with its local variables. The backlog is an `int`: it is at most `kMaxBacklog`, and goes down
    by one for each part, of at least one byte, so that it does not wrap for a piece of at most `2 ^ 31` bytes. -/
inductive Coroutine where
  /-- At the head of the outer loop. -/
  | pop
  /-- With a piece, before it is known that the peer has it. -/
  | popped (piece : Handle)
  /-- At the head of the inner loop. -/
  | loop (piece : Handle) (piece_size : UInt32) (backlog : Int)
  /-- Awaits the write of a request. -/
  | sendRequest (piece : Handle) (piece_size : UInt32) (backlog : Int) (request : MessageRequest)
  /-- Awaits a message. -/
  | readMessage (piece : Handle) (piece_size : UInt32) (backlog : Int)
  /-- Awaits the write of a Have; the piece is downloaded. -/
  | sendHave (message : MessageHave)
  | returned
  deriving DecidableEq, Repr

structure Session where
  peer : TorrentPeer
  coroutine : Coroutine
  deriving DecidableEq, Repr

/-- A session after the handshake and the bitfield of the peer. -/
def Session.start (bitfield : MessageBitfield) : Session := ⟨{ bitfield := bitfield }, .pop⟩

/-- What happens to a coroutine: it runs on, or the operation it awaits completes or fails. Any message may be received,
    also one that `readAnyMessage` does not give. -/
inductive Event where
  | run | sent
  | received (message : AnyMessage)
  | failed
  deriving DecidableEq, Repr

namespace Session
variable (pieces : PiecesToDownload) (s : Session)

/-- The request for the next block of a piece. -/
def nextRequest (state : PieceState) (pieceSize : UInt32) : MessageRequest where
  piece_index := state.piece_index
  offset := state.requested
  length := min kMaxBlock (pieceSize - state.requested)

/-- The step from the head of the outer loop: a piece is taken, or there is none and the connection ends. -/
def runPop : Asserted (PiecesToDownload × Session) := do
  let (piece, pieces) ← pieces.popPieceToDownload s.peer.bitfield
  match piece with
  | none => return (pieces, { s with coroutine := .returned })
  | some piece => return (pieces, { s with coroutine := .popped piece })

def runPopped (piece : Handle) : Asserted (PiecesToDownload × Session) := do
  let state ← pieces.deref piece
  if !s.peer.bitfield.hasPiece state.piece_index.toNat then
    -- Try another one: `retry` puts the piece back.
    let pieces ← pieces.pushPieceToRetry piece
    return (pieces, { s with coroutine := .pop })
  else
    let pieceSize ← pieces.getPieceSize state.piece_index
    return (pieces, { s with coroutine := .loop piece pieceSize 0 })

/-- The step from the head of the inner loop; after the loop the piece is downloaded. -/
def runLoop (piece : Handle) (pieceSize : UInt32) (backlog : Int) : Asserted (PiecesToDownload × Session) := do
  let state ← pieces.deref piece
  if state.downloaded < pieceSize then
    if s.peer.unchocked ∧ backlog < kMaxBacklog ∧ state.requested < pieceSize then
      return (pieces, { s with coroutine := .sendRequest piece pieceSize backlog (nextRequest state pieceSize) })
    else
      return (pieces, { s with coroutine := .readMessage piece pieceSize backlog })
  else
    check (state.downloaded = pieceSize) .downloadedPieceSize
    let pieces ← pieces.onPieceDownloaded piece
    return (pieces, { s with coroutine := .sendHave { piece_index := state.piece_index } })

/-- The request is written; the coroutine goes on to read a message. -/
def requestSent (piece : Handle) (pieceSize : UInt32) (backlog : Int) (request : MessageRequest) :
    Asserted (PiecesToDownload × Session) := do
  let _ ← pieces.deref piece
  let requested := pieces.pieces.modify piece fun state => { state with requested := state.requested + request.length }
  return ({ pieces with pieces := requested }, { s with coroutine := .readMessage piece pieceSize (backlog + 1) })

/-- The visit of a message that was read. -/
def visit (piece : Handle) (pieceSize : UInt32) (backlog : Int) : AnyMessage → Asserted (PiecesToDownload × Session)
  | .keepAlive => .ok (pieces, { s with coroutine := .loop piece pieceSize backlog })
  | .choke => .ok (pieces, ⟨{ s.peer with unchocked := false }, .loop piece pieceSize backlog⟩)
  | .unchoke => .ok (pieces, ⟨{ s.peer with unchocked := true }, .loop piece pieceSize backlog⟩)
  | .have_ m =>
    .ok (pieces, ⟨{ s.peer with bitfield := (s.peer.bitfield.setPiece m.piece_index.toNat).2 }, .loop piece pieceSize backlog⟩)
  | .piece m => do
    let state ← pieces.deref piece
    check (m.piece_index = state.piece_index) .mixedOrderOfPieces
    let pieces ← pieces.onPiecePartReceive piece m
    return (pieces, { s with coroutine := .loop piece pieceSize (backlog - 1) })
  | _ => .error .unhandledMessage

/-- An operation failed while a piece is held: `retry` puts it back, and the coroutine returns. -/
def failHolding (piece : Handle) : Asserted (PiecesToDownload × Session) := do
  let pieces ← pieces.pushPieceToRetry piece
  return (pieces, { s with coroutine := .returned })

/-- One step of the coroutine; `none` when the event cannot happen where it is. -/
def step (event : Event) : Option (Asserted (PiecesToDownload × Session)) :=
  match s.coroutine, event with
  | .pop, .run => some (s.runPop pieces)
  | .popped piece, .run => some (s.runPopped pieces piece)
  | .loop piece pieceSize backlog, .run => some (s.runLoop pieces piece pieceSize backlog)
  | .sendRequest piece pieceSize backlog request, .sent => some (s.requestSent pieces piece pieceSize backlog request)
  | .sendRequest piece _ _ _, .failed => some (s.failHolding pieces piece)
  | .readMessage piece pieceSize backlog, .received message => some (s.visit pieces piece pieceSize backlog message)
  | .readMessage piece _ _, .failed => some (s.failHolding pieces piece)
  | .sendHave _, .sent => some (.ok (pieces, { s with coroutine := .pop }))
  | .sendHave _, .failed => some (.ok (pieces, { s with coroutine := .returned }))
  | _, _ => none

end Session

end BittorrentClient
