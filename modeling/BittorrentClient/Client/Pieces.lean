import BittorrentClient.Client.Torrent
import BittorrentClient.Client.Messages
import BittorrentClient.Lib.StableList

/-! The pieces that are downloaded (`PiecesToDownload` of main.cpp). -/

namespace BittorrentClient
open Memcpy

structure PieceState where
  piece_index : UInt32 := 0
  downloaded : UInt32 := 0
  requested : UInt32 := 0
  data : List UInt8 := []
  deriving DecidableEq, Repr

/-- `data_` when a part is written; it is allocated with the first part. -/
def PieceState.buffer (pieceSize : UInt32) (state : PieceState) : List UInt8 :=
  if state.data.isEmpty then List.replicate pieceSize.toNat 0 else state.data

/-- `std::list<PieceState>::iterator`. -/
abbrev Handle := Nat

structure PiecesToDownload where
  pieces : StableList PieceState := .empty
  to_retry : List Handle := []
  pieces_count : UInt32 := 0
  piece_size : UInt32 := 0
  total_size : UInt64 := 0
  next_piece_index : UInt32 := 0
  downloaded_pieces_count : UInt32 := 0
  /-- The pieces that `on_new_piece` was called with, in order. -/
  new_pieces : List PieceState := []

namespace PiecesToDownload

/-- The pieces as `main` sets them up. -/
def initial (client : TorrentClient) : Asserted PiecesToDownload := do
  let totalSize ← client.getTotalSizeBytes
  return { pieces_count := client.getPiecesCount, piece_size := client.getPieceSizeBytes, total_size := totalSize }

variable (p : PiecesToDownload)

def deref (piece : Handle) : Asserted PieceState :=
  match p.pieces.get? piece with
  | some state => .ok state
  | none => .error .danglingHandle

def getPieceSize (pieceIndex : UInt32) : Asserted UInt32 :=
  if pieceIndex < p.pieces_count - 1 then .ok p.piece_size
  else do
    -- The product is taken in 32 bits.
    let size := (p.piece_size * (p.pieces_count - 1)).toUInt64
    check (p.total_size > size) .totalSize
    return (p.total_size - size).toUInt32

/-- The loop over `to_retry_`: the first handle of a piece that the caller has. -/
def findRetry (havePieces : MessageBitfield) : List Handle → Asserted (Option Handle)
  | [] => .ok none
  | piece :: rest => do
    let state ← p.deref piece
    if havePieces.hasPiece state.piece_index.toNat then return some piece else findRetry havePieces rest

/-- `none` stands for `pieces_.end()`. -/
def popPieceToDownload (havePieces : MessageBitfield) : Asserted (Option Handle × PiecesToDownload) :=
  if p.next_piece_index < p.pieces_count then
    -- `have_pieces` is not looked at: the caller decides.
    .ok (some p.pieces.next,
      { p with pieces := p.pieces.emplaceBack { piece_index := p.next_piece_index }
               next_piece_index := p.next_piece_index + 1 })
  else do
    match ← p.findRetry havePieces p.to_retry with
    | none => return (none, p)
    | some piece => return (some piece, { p with to_retry := p.to_retry.erase piece })

def pushPieceToRetry (piece : Handle) : Asserted PiecesToDownload := do
  let _ ← p.deref piece
  return { p with
    pieces := p.pieces.modify piece fun state => { state with downloaded := 0, requested := 0, data := [] }
    to_retry := p.to_retry ++ [piece] }

/-- `on_piece_part_receive`; the sums that are checked are taken in 32 bits, and where one has wrapped `memcpy` leaves
    the buffer. -/
def onPiecePartReceive (piece : Handle) (msg : MessagePiece) : Asserted PiecesToDownload := do
  let state ← p.deref piece
  let pieceSize ← p.getPieceSize state.piece_index
  let data := state.buffer pieceSize
  let dataSize := msg.size
  check (dataSize > 0) .pieceWithZeroSize
  check (state.downloaded + dataSize ≤ pieceSize) .downloadedMoreThanPiece
  check (msg.piece_begin + dataSize ≤ pieceSize) .partPastPiece
  check (msg.piece_begin.toNat + dataSize.toNat ≤ data.length) .copyOutside
  return { p with
    pieces := p.pieces.modify piece fun _ =>
      { state with downloaded := state.downloaded + dataSize
                   data := copy data msg.piece_begin.toNat (msg.bytes.take dataSize.toNat) } }

def onPieceDownloaded (piece : Handle) : Asserted PiecesToDownload := do
  let state ← p.deref piece
  return { p with
    downloaded_pieces_count := p.downloaded_pieces_count + 1
    new_pieces := p.new_pieces ++ [state]
    pieces := p.pieces.erase piece }

end PiecesToDownload

end BittorrentClient
