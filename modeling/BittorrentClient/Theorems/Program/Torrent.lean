import BittorrentClient.Theorems.Files.Names
import BittorrentClient.Theorems.Make
import BittorrentClient.Theorems.Program.Downloaded
import BittorrentClient.Theorems.Torrent.Decode

/-! From a .torrent file to the files that it was made for: the parser, `TorrentClient::make` and the loop of `main`, one
    after the other. -/

namespace BittorrentClient
open Bencode Blocks FlatMemory Fuel Interleaving Outcome

/-! ### What is described -/

def FilesDescription.lengths : FilesDescription → List UInt64
  | .single length => [length]
  | .multi files _ => files.map FileDescription.length

namespace TorrentDescription
variable (d : TorrentDescription)

/-- The names that the files get: the only one has that of the torrent, the others have their paths. -/
def fileNames : List (List UInt8) :=
  match d.files with
  | .single _ => [d.name]
  | .multi files _ => files.map fun file => [47].intercalate file.path

/-- The trackers: those of the announce list, or the only one where it has none. -/
def urls : List (List UInt8) :=
  let listed := d.tiers.flatMap fun tier => tier.filter (· ≠ [])
  if listed = [] then [d.announce] else listed

/-- Contents of the lengths of the files. -/
def Filled (contents : List (List UInt8)) : Prop := contents.map List.length = d.files.lengths.map UInt64.toNat

end TorrentDescription

section
variable {m : Memory} {r : Region} {entries : List (Str × Term)} {d : TorrentDescription} {client : TorrentClient}
  {system : Win32} {same : Setoid (List UInt8)}

/-- A file with bytes is found among the files by its index, with its length and where it starts. -/
theorem TorrentDescription.Filled.length {contents : List (List UInt8)} (h : d.Filled contents) {k : Nat}
    {bytes : List UInt8} (hk : contents[k]? = some bytes) : ∃ n, d.files.lengths[k]? = some n ∧ bytes.length = n.toNat ∧
      ((contents.take k).map List.length).sum = fileStart d.files.lengths k := by
  have hget := congrArg (·[k]?) h
  simp only [List.getElem?_map, hk, Option.map_some] at hget
  obtain ⟨n, hn, hlength⟩ := Option.map_eq_some_iff.mp hget.symm
  refine ⟨n, hn, hlength.symm, ?_⟩
  rw [List.map_take, h, ← List.map_take]
  rfl

end

end BittorrentClient
