import BittorrentClient.Client.Torrent

/-! The requests to trackers (tracker_requests.h), and how torrent_client.cpp builds one from the url of a tracker
    (`build_http_request`, `build_udp_request`, `cxxurl_detail`). -/

namespace BittorrentClient
open FlatMemory Decimal

namespace Tracker

structure RequestInfo where
  server_port : UInt16 := 0
  pieces_left : UInt32 := 0
  uploaded_pieces : UInt32 := 0
  downloaded_pieces : UInt32 := 0
  deriving DecidableEq, Repr

structure HTTPGetRequest where
  host : List UInt8 := []
  port : UInt16 := 0
  get_uri : List UInt8 := []
  deriving DecidableEq, Repr

structure UDPRequest extends RequestInfo where
  host : List UInt8 := []
  port : UInt16 := 0
  info_hash : SHA1Bytes := Vector.replicate _ 0
  peer_id : PeerId := Vector.replicate _ 0
  deriving DecidableEq

/-- `HTTPS_GetRequest` has the fields of `HTTP_GetRequest`. -/
inductive Request where
  | monostate
  | http (request : HTTPGetRequest)
  | https (request : HTTPGetRequest)
  | udp (request : UDPRequest)
  deriving DecidableEq

end Tracker

/-! ### Urls -/

/-- What is used of the class `Url` of the library CxxUrl, for urls that were parsed. -/
structure UrlClass (Url : Type) where
  host : Url → List UInt8
  port : Url → List UInt8
  path : Url → List UInt8
  query : Url → List (List UInt8 × List UInt8)
  addQuery : Url → List UInt8 → List UInt8 → Url

/-- The failures of the builders: their own, and the exceptions of `build_query_str`. -/
inductive RequestError where
  | todo
  | firstQueryHasNoKey
  | queryHasNoKey
  /-- The first entry of an empty query is read. -/
  | noQuery
  deriving DecidableEq, Repr

namespace Cxxurl

def tbl : List UInt8 := [
  0, 0, 0, 0, 0, 0, 0, 0,
  0, 0, 0, 0, 0, 0, 0, 0,
  0, 0, 0, 0, 0, 0, 0, 0,
  0, 0, 0, 0, 0, 0, 0, 0,
  0x00, 0x01, 0x00, 0x00, 0x01, 0x20, 0x01, 0x01, -- SP ! " #  $ % & '
  0x01, 0x01, 0x01, 0x01, 0x01, 0x01, 0x01, 0x08, --  ( ) * +  , - . /
  0x01, 0x01, 0x01, 0x01, 0x01, 0x01, 0x01, 0x01, --  0 1 2 3  4 5 6 7
  0x01, 0x01, 0x04, 0x01, 0x00, 0x01, 0x00, 0x10, --  8 9 : ;  < = > ?
  0x02, 0x01, 0x01, 0x01, 0x01, 0x01, 0x01, 0x01, --  @ A B C  D E F G
  0x01, 0x01, 0x01, 0x01, 0x01, 0x01, 0x01, 0x01, --  H I J K  L M N O
  0x01, 0x01, 0x01, 0x01, 0x01, 0x01, 0x01, 0x01, --  P Q R S  T U V W
  0x01, 0x01, 0x01, 0x00, 0x00, 0x00, 0x00, 0x01, --  X Y Z [  \ ] ^ _
  0x00, 0x01, 0x01, 0x01, 0x01, 0x01, 0x01, 0x01, --  ` a b c  d e f g
  0x01, 0x01, 0x01, 0x01, 0x01, 0x01, 0x01, 0x01, --  h i j k  l m n o
  0x01, 0x01, 0x01, 0x01, 0x01, 0x01, 0x01, 0x01, --  p q r s  t u v w
  0x01, 0x01, 0x01, 0x00, 0x00, 0x00, 0x01, 0x00] --  x y z {  | } ~ DEL
  ++ List.replicate 128 0

def isChar (c mask : UInt8) : Bool := tbl.getD c.toNat 0 &&& mask != 0

def hexDigits : List UInt8 := ascii "0123456789ABCDEF"

/-- The last two branches of the encoders. -/
def encodeChar (mask c : UInt8) : List UInt8 :=
  if isChar c mask then [c] else [37, hexDigits.getD (c >>> 4).toNat 0, hexDigits.getD (c &&& 0xF).toNat 0]

def encodeQueryKeyChar (mask c : UInt8) : List UInt8 :=
  if c = 32 then ascii "+"
  else if c = 43 then ascii "%2B"
  else if c = 61 then ascii "%3D"
  else if c = 38 then ascii "%26"
  else if c = 59 then ascii "%3B"
  else encodeChar mask c

def encodeQueryValChar (mask c : UInt8) : List UInt8 :=
  if c = 32 then ascii "+"
  else if c = 43 then ascii "%2B"
  else if c = 38 then ascii "%26"
  else if c = 59 then ascii "%3B"
  else encodeChar mask c

def encodeQueryKey (s : List UInt8) (mask : UInt8) : List UInt8 := s.flatMap (encodeQueryKeyChar mask)

def encodeQueryVal (s : List UInt8) (mask : UInt8) : List UInt8 := s.flatMap (encodeQueryValChar mask)

/-- What `build_query_str` writes for an entry. -/
def entryStr (entry : List UInt8 × List UInt8) : List UInt8 :=
  encodeQueryKey entry.1 0x1F ++ if entry.2 = [] then [] else ascii "=" ++ encodeQueryVal entry.2 0x1F

/-- The loop of `build_query_str` over the entries after the first. -/
def restStr : List (List UInt8 × List UInt8) → Except RequestError (List UInt8)
  | [] => .ok []
  | entry :: entries => do
    if entry.1 = [] then
      throw .queryHasNoKey
    return ascii "&" ++ entryStr entry ++ (← restStr entries)

def buildQueryStr : List (List UInt8 × List UInt8) → Except RequestError (List UInt8)
  | [] => .error .noQuery
  | entry :: entries => do
    if entry.1 = [] then
      throw .firstQueryHasNoKey
    return ascii "?" ++ entryStr entry ++ (← restStr entries)

end Cxxurl

/-! ### Requests -/

namespace TorrentClient
open Tracker
variable (client : TorrentClient) {Url : Type} (urls : UrlClass Url)

/-- The entries that `build_http_request` adds, in order. -/
def queryEntries (request : RequestInfo) : List (List UInt8 × List UInt8) := [
  (ascii "info_hash", client.info_hash.toList),
  (ascii "peer_id", client.peer_id.toList),
  (ascii "port", natText request.server_port.toNat),
  (ascii "uploaded", natText request.uploaded_pieces.toNat),
  (ascii "downloaded", natText request.downloaded_pieces.toNat),
  (ascii "left", natText request.pieces_left.toNat),
  (ascii "compact", natText 1)]

/-- `body.port_` at the end of `build_http_request`. -/
def httpPort (url : Url) (defaultPort : UInt16) : Except RequestError UInt16 :=
  if urls.port url = [] then .ok defaultPort
  else match parseLength (urls.port url) with
    | none => .error .todo
    | some v => .ok v.toUInt16

/-- `body` is the alternative of `Tracker::Request` for the type that the template is instantiated with. -/
def buildHttpRequest (body : HTTPGetRequest → Request) (url : Url) (request : RequestInfo) (defaultPort : UInt16) :
    Except RequestError Request :=
  if urls.host url = [] then .error .todo
  else do
    let url := (client.queryEntries request).foldl (fun url entry => urls.addQuery url entry.1 entry.2) url
    let port ← httpPort urls url defaultPort
    let path := if urls.path url = [] then ascii "/" else urls.path url
    return body { host := urls.host url, port := port, get_uri := path ++ (← Cxxurl.buildQueryStr (urls.query url)) }

def buildUdpRequest (url : Url) (info : RequestInfo) : Except RequestError Request :=
  if urls.host url = [] ∨ urls.port url = [] then .error .todo
  else match parseLength (urls.port url) with
    | none => .error .todo
    | some port =>
      .ok (.udp { toRequestInfo := info, host := urls.host url, port := port.toUInt16, info_hash := client.info_hash,
                  peer_id := client.peer_id })

end TorrentClient

/-! ### All trackers -/

/-- The class `Url` with what takes a text apart; `parse` gives `none` where the library throws. -/
structure UrlParser (Url : Type) extends UrlClass Url where
  parse : List UInt8 → Option Url
  scheme : Url → List UInt8

namespace TorrentClient
open Tracker
variable (client : TorrentClient) {Url : Type} (urls : UrlParser Url)

/-- `build_from_one`; what is thrown is caught, and is a failure like the others. -/
def buildFromOne (info : RequestInfo) (urlUtf8 : List UInt8) : Except RequestError Request :=
  match urls.parse urlUtf8 with
  | none => .error .todo
  | some url =>
    let request :=
      if urls.scheme url = ascii "http" then client.buildHttpRequest urls.toUrlClass .http url info 80
      else if urls.scheme url = ascii "https" then client.buildHttpRequest urls.toUrlClass .https url info 443
      else if urls.scheme url = ascii "udp" then client.buildUdpRequest urls.toUrlClass url info
      else .error .todo
    request.mapError fun _ => .todo

/-- `build_tracker_requests`; the tiers are ignored. -/
def buildTrackerRequests (info : RequestInfo) : Except RequestError (List Request) :=
  if client.metainfo.multi_trackers = [] then do
    let main ← client.buildFromOne urls info client.metainfo.tracker_url_utf8
    return [main]
  else
    let allTrackers := client.metainfo.multi_trackers.filterMap fun tracker =>
      (client.buildFromOne urls info tracker.url_utf8).toOption
    if allTrackers.length > 0 then .ok allTrackers else .error .todo

end TorrentClient

end BittorrentClient
