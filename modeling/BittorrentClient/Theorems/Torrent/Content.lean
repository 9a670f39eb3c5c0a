import BittorrentClient.Bencoding.TorrentFile
import BittorrentClient.Lib.Bencode
import BittorrentClient.Lib.Dispatch

/-! What a .torrent file says: the content of its terms, where the first value of a key counts and the order of the keys
    does not. -/

namespace BittorrentClient.Content
open FlatMemory Bencode Dispatch

/-- The entries of a dictionary by their keys. -/
def byKey (entries : List (Str × Term)) : List (List UInt8 × Term) := entries.map fun e => (e.1.body, e.2)

/-- The first value of a key in a dictionary. -/
def value (entries : List (Str × Term)) (key : String) : Option Term := first (byKey entries) (ascii key)

/-- The content of a value, where an absent one stands for a default. -/
def valueOr {α : Type} (default : α) (read : Term → Option α) : Option Term → Option α
  | none => some default
  | some t => read t

def integer : Term → Option Int
  | .int z => some z
  | _ => none

def string : Term → Option (List UInt8)
  | .str s => some s.body
  | _ => none

def list : Term → Option (List Term)
  | .list items => some items
  | _ => none

def dict : Term → Option (List (Str × Term))
  | .dict entries => some entries
  | _ => none

/-- An integer of 64 bits without a sign. -/
def number (t : Term) : Option UInt64 :=
  (integer t).bind fun z => if 0 ≤ z ∧ z < 2 ^ 64 then some (UInt64.ofNat z.toNat) else none

/-- A string that is not empty. -/
def part (t : Term) : Option (List UInt8) := (string t).bind fun text => if text = [] then none else some text

section
variable (max : MaxSize)

/-- A text that fits in a string. -/
def fitting (text : List UInt8) : Option (List UInt8) := if text.length ≤ max.string then some text else none

def name (t : Term) : Option (List UInt8) := (string t).bind (fitting max)

def announce (t : Term) : Option (List UInt8) := (part t).bind (fitting max)

/-- The hashes of the pieces, of 20 bytes each. -/
def pieces (t : Term) : Option (List UInt8) :=
  (part t).bind fun hashes => if hashes.length % kSHA1Length = 0 ∧ hashes.length ≤ max.vector then some hashes else none

/-- The components of a path, joined by slashes. -/
def path (t : Term) : Option (List UInt8) :=
  (list t).bind fun items => (items.mapM part).bind fun parts => fitting max ([47].intercalate parts)

def file (t : Term) : Option Metainfo.File :=
  (dict t).bind fun entries =>
    match value entries "length", value entries "path" with
    | some length, some components =>
      (number length).bind fun n => (path max components).map fun path => { length_bytes := n, path_utf8 := path }
    | _, _ => none

def files (t : Term) : Option (List Metainfo.File) :=
  (list t).bind fun items => (items.mapM (file max)).bind fun files => if files = [] then none else some files

/-- A length or files, but not both. -/
def lengthOrFiles (entries : List (Str × Term)) : Option LengthOrFiles :=
  match value entries "length", value entries "files" with
  | none, none => some .monostate
  | some length, none => (number length).map .length
  | none, some multiFiles => (files max multiFiles).map .files
  | some _, some _ => none

/-- What the info dictionary says, if it says all that is needed. -/
def info (t : Term) : Option Metainfo.Info :=
  (dict t).bind fun entries =>
    (valueOr [] (name max) (value entries "name")).bind fun name =>
    (valueOr 0 number (value entries "piece length")).bind fun pieceLength =>
    (valueOr [] (pieces max) (value entries "pieces")).bind fun pieces =>
    (lengthOrFiles max entries).bind fun lengthOrFiles =>
    if pieceLength > 0 ∧ pieces.length > 0 ∧ lengthOrFiles ≠ .monostate then some ⟨name, pieceLength, pieces, lengthOrFiles⟩
    else none

/-- The urls of a tier: its strings that are not empty. -/
def tier (i : Nat) : List Term → Option (List Multitracker)
  | [] => some []
  | url :: urls =>
    match part url with
    | none => tier i urls
    | some text => (fitting max text).bind fun text => (tier i urls).map (⟨text, Int32.ofNat i⟩ :: ·)

/-- The urls of the tiers from tier `i` on. -/
def tiers (i : Nat) : List Term → Option (List Multitracker)
  | [] => some []
  | t :: rest =>
    match list t with
    | none => tiers (i + 1) rest
    | some urls => (tier max i urls).bind fun trackers => (tiers (i + 1) rest).map (trackers ++ ·)

def announceList (t : Term) : Option (List Multitracker) := (list t).bind (tiers max 0)

/-- What a torrent file says. -/
def metainfo (entries : List (Str × Term)) : Option TorrentMetainfo :=
  ((value entries "announce").bind (announce max)).bind fun url =>
    ((value entries "info").bind (info max)).bind fun info =>
    (valueOr [] (announceList max) (value entries "announce-list")).map fun trackers => ⟨info, url, trackers⟩

end

end BittorrentClient.Content
