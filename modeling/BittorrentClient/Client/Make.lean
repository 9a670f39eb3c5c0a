import BittorrentClient.Client.Torrent

/-! `TorrentClient::make`, in builds with and without `NDEBUG`. -/

namespace BittorrentClient
open FlatMemory

/-- The failures of `TorrentClient::make`: its own, or what `OUTCOME_TRY` hands on from the parser. -/
inductive MakeError where
  | todo
  | file (error : FileError)
  deriving DecidableEq, Repr

/-- How a call ends: with `outcome::failure`, with an exception, with a failed assertion or with a value. -/
inductive Ending (α : Type) where
  | failure (error : MakeError)
  | threw
  | aborted (assertion : Assertion)
  | success (value : α)
  deriving DecidableEq, Repr

namespace Ending

/-- The assertions, as long as `NDEBUG` is not defined, before the rest of the call. -/
def asserting {α : Type} (ndebug : Bool) (asserts : Asserted Unit) (rest : Ending α) : Ending α :=
  if ndebug then rest
  else match asserts with
    | .error assertion => .aborted assertion
    | .ok () => rest

end Ending

/-- `GetSHA1`. -/
def getSHA1 (getDigestBytes : List UInt8 → SHA1Bytes) (data : List UInt8) : SHA1Bytes :=
  if data = [] then Vector.replicate _ 0 else getDigestBytes data

section
variable (getDigestBytes : List UInt8 → SHA1Bytes) (m : Memory) (max : MaxSize)

/-- `TorrentClient::make` after the parser has accepted the file. -/
def TorrentClient.fromTorrent (ndebug : Bool) (peerId : PeerId) (buffer : Region) (torrent : TorrentFileInfo) :
    Ending TorrentClient :=
  let position := torrent.info_position
  -- The two asserts of `AsStringView`.
  .asserting ndebug (check (position.start ≤ position.end_ ∧ position.end_ ≤ buffer.size) .infoPosition)
    (let info := read m (buffer.data + position.start) (position.end_ - position.start).toNat
     let client : TorrentClient := ⟨torrent.metainfo, getSHA1 getDigestBytes info, peerId⟩
     .asserting ndebug client.validate (.success client))

/-- `TorrentClient::make`; `content` is what `ReadAllFileAsBinary` gives, `none` when it fails. -/
def TorrentClient.make (ndebug : Bool) (peerId : PeerId) (fuel : Nat) : Option Region → Option (Ending TorrentClient)
  | none => some (.failure .todo)
  | some buffer => (parseTorrentFileContentIn m max ndebug fuel buffer).run.map fun
    | .error assertion => .aborted (.parser assertion)
    | .ok (.error .lengthError) => .threw
    | .ok (.error e) => .failure (.file e)
    | .ok (.ok torrent) => fromTorrent getDigestBytes m ndebug peerId buffer torrent

end

end BittorrentClient
