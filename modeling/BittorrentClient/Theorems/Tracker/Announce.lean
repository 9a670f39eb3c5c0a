import BittorrentClient.Theorems.Parser.Tokens
import BittorrentClient.Theorems.Tracker.Datagrams
import BittorrentClient.Theorems.Tracker.Query

/-! What an announce says about the client, over HTTP and over UDP: the datagram has the port of the tracker where the
    query has the port of the client. -/

namespace BittorrentClient
open FlatMemory ByteOrder UrlQuery Outcome Tracker

/-! ### What is announced -/

/-- What a tracker is told. -/
structure Announced where
  info_hash : List UInt8
  peer_id : List UInt8
  port : Nat
  uploaded : Nat
  downloaded : Nat
  left : Nat
  deriving DecidableEq, Repr

/-- What a client has to announce. -/
def TorrentClient.announced (client : TorrentClient) (info : RequestInfo) : Announced where
  info_hash := client.info_hash.toList
  peer_id := client.peer_id.toList
  port := info.server_port.toNat
  uploaded := info.uploaded_pieces.toNat
  downloaded := info.downloaded_pieces.toNat
  left := info.pieces_left.toNat

/-- The fields of an announce datagram. -/
def Announced.ofDatagram (datagram : List UInt8) : Announced where
  info_hash := (datagram.drop 16).take 20
  peer_id := (datagram.drop 36).take 20
  downloaded := bigField datagram 56 8
  left := bigField datagram 64 8
  uploaded := bigField datagram 72 8
  port := bigField datagram 96 2

/-- The value of the last entry with a key. -/
def lastValue (entries : List (List UInt8 × List UInt8)) (key : String) : Option (List UInt8) :=
  (entries.reverse.find? fun entry => entry.1 = ascii key).map Prod.snd

def lastNumber (entries : List (List UInt8 × List UInt8)) (key : String) : Option Nat :=
  ((lastValue entries key).bind parseLength).map UInt64.toNat

/-- The entries of a query. -/
def Announced.ofQuery (entries : List (List UInt8 × List UInt8)) : Option Announced := do
  return {
    info_hash := ← lastValue entries "info_hash"
    peer_id := ← lastValue entries "peer_id"
    port := ← lastNumber entries "port"
    uploaded := ← lastNumber entries "uploaded"
    downloaded := ← lastNumber entries "downloaded"
    left := ← lastNumber entries "left" }

/-! ### Over HTTP -/

theorem lastValue_append {entries last : List (List UInt8 × List UInt8)} {key : String} {value : List UInt8}
    (h : lastValue last key = some value) : lastValue (entries ++ last) key = some value := by
  obtain ⟨entry, hfind, hvalue⟩ := Option.map_eq_some_iff.mp h
  rw [lastValue, List.reverse_append, List.find?_append, hfind, Option.some_or, Option.map_some, hvalue]

theorem lastNumber_append {entries last : List (List UInt8 × List UInt8)} {key : String} {n : Nat} (hn : n < 2 ^ 64)
    (h : lastValue last key = some (Decimal.natText n)) : lastNumber (entries ++ last) key = some n := by
  rw [lastNumber, lastValue_append h, Option.bind_some,
    parseLength_digits (Decimal.natText_ne_nil n) fun _ => Decimal.isDigit_of_mem_natText, Decimal.value_natText,
    if_pos hn, Option.map_some, UInt64.toNat_ofNat_of_lt' hn]

/-- A query announces what its last entries are, whatever stands before them. -/
theorem Announced.ofQuery_queryEntries (client : TorrentClient) (info : RequestInfo)
    (entries : List (List UInt8 × List UInt8)) :
    ofQuery (entries ++ client.queryEntries info) = some (client.announced info) := by
  have hword : ∀ x : UInt32, x.toNat < 2 ^ 64 := fun x => Nat.lt_of_lt_of_le x.toNat_lt (by decide)
  have hport : info.server_port.toNat < 2 ^ 64 := Nat.lt_of_lt_of_le info.server_port.toNat_lt (by decide)
  rw [ofQuery, lastValue_append rfl, lastValue_append rfl, lastNumber_append hport rfl, lastNumber_append (hword _) rfl,
    lastNumber_append (hword _) rfl, lastNumber_append (hword _) rfl]
  rfl

section
variable {client : TorrentClient} {Url : Type} {urls : UrlClass Url} {info : RequestInfo}

/-- What the client relies on: an entry is added behind the others, and the path stays as it is. -/
structure UrlClass.Lawful (urls : UrlClass Url) : Prop where
  query_addQuery : ∀ url key val, urls.query (urls.addQuery url key val) = urls.query url ++ [(key, val)]
  path_addQuery : ∀ url key val, urls.path (urls.addQuery url key val) = urls.path url

theorem UrlClass.Lawful.addEntries (h : urls.Lawful) (entries : List (List UInt8 × List UInt8)) (url : Url) :
    urls.query (entries.foldl (fun url entry => urls.addQuery url entry.1 entry.2) url) = urls.query url ++ entries ∧
      urls.path (entries.foldl (fun url entry => urls.addQuery url entry.1 entry.2) url) = urls.path url := by
  induction entries generalizing url with
  | nil => exact ⟨(List.append_nil _).symm, rfl⟩
  | cons entry entries ih =>
    obtain ⟨hquery, hpath⟩ := ih (urls.addQuery url entry.1 entry.2)
    rw [List.foldl_cons, hquery, hpath, h.query_addQuery, h.path_addQuery, List.append_assoc]
    exact ⟨rfl, rfl⟩

/-- The path of a request: that of the url, if it has one. -/
def UrlClass.requestPath (urls : UrlClass Url) (url : Url) : List UInt8 :=
  if urls.path url = [] then ascii "/" else urls.path url

/-- A request that is built asks for the path with a query of the url's own entries and those of the client. -/
theorem buildHttpRequest_ok (hurls : urls.Lawful) {body : HTTPGetRequest → Request} {url : Url} {defaultPort : UInt16}
    {request : Request} (h : client.buildHttpRequest urls body url info defaultPort = .ok request) :
    ∃ r text, request = body r ∧ r.get_uri = urls.requestPath url ++ 63 :: text ∧
      readPairs text = urls.query url ++ client.queryEntries info := by
  rw [TorrentClient.buildHttpRequest] at h
  split at h
  · cases h
  · obtain ⟨port, -, h⟩ := bind_ok h
    obtain ⟨query, hquery, h⟩ := bind_ok h
    obtain ⟨hentries, hpath⟩ := hurls.addEntries (client.queryEntries info) url
    rw [hentries] at hquery
    obtain ⟨text, rfl, htext⟩ := Cxxurl.buildQueryStr_ok hquery
    cases h
    exact ⟨_, text, rfl, by rw [hpath]; rfl, htext⟩

/-- The pairs that say what a client has to announce. -/
def Announced.pairs (a : Announced) : List (List UInt8 × List UInt8) := [
  (ascii "info_hash", a.info_hash),
  (ascii "peer_id", a.peer_id),
  (ascii "port", Decimal.natText a.port),
  (ascii "uploaded", Decimal.natText a.uploaded),
  (ascii "downloaded", Decimal.natText a.downloaded),
  (ascii "left", Decimal.natText a.left),
  (ascii "compact", Decimal.natText 1)]

/-- The query of the requests for a url is printable, reads back as the pairs of the url and those of the client, and
    is appended to the path of every request that is built. -/
structure QueryCarried (client : TorrentClient) (urls : UrlClass Url) (info : RequestInfo) (url : Url)
    (text : List UInt8) : Prop where
  printable : ∀ x ∈ 63 :: text, Cxxurl.Printable x
  pairs : readPairs text = urls.query url ++ (client.announced info).pairs
  announced : Announced.ofQuery (readPairs text) = some (client.announced info)
  appended : ∀ body defaultPort request, client.buildHttpRequest urls body url info defaultPort = .ok request →
    ∃ r, request = body r ∧ r.get_uri = urls.requestPath url ++ 63 :: text
  built : ∀ body defaultPort port, urls.host url ≠ [] →
    TorrentClient.httpPort urls ((client.queryEntries info).foldl (fun url entry => urls.addQuery url entry.1 entry.2) url)
      defaultPort = .ok port →
    ∃ request, client.buildHttpRequest urls body url info defaultPort = .ok request

/-- The bytes of the hashes and of the pairs of the url survive the encoding, whatever they are. -/
theorem queryCarried (hurls : urls.Lawful) {url : Url} (hkeys : ∀ entry ∈ urls.query url, entry.1 ≠ []) :
    ∃ text, QueryCarried client urls info url text := by
  obtain ⟨hentries, hpath⟩ := hurls.addEntries (client.queryEntries info) url
  have hne : urls.query url ++ client.queryEntries info ≠ [] := List.append_ne_nil_of_right_ne_nil _ (List.cons_ne_nil _ _)
  have hall : ∀ entry ∈ urls.query url ++ client.queryEntries info, entry.1 ≠ [] := by
    refine List.forall_mem_append.mpr ⟨hkeys, ?_⟩
    simp only [TorrentClient.queryEntries, List.forall_mem_cons]
    decide
  obtain ⟨query, hquery, hprintable⟩ := Cxxurl.buildQueryStr_of_keys hne hall
  obtain ⟨text, rfl, htext⟩ := Cxxurl.buildQueryStr_ok hquery
  refine ⟨text, hprintable, htext, ?_, ?_, ?_⟩
  · rw [htext]
    exact Announced.ofQuery_queryEntries client info _
  · intro body defaultPort request h
    rw [TorrentClient.buildHttpRequest] at h
    split at h
    · cases h
    · obtain ⟨port, -, h⟩ := bind_ok h
      obtain ⟨query, hquery', h⟩ := bind_ok h
      rw [hentries, hquery] at hquery'
      cases hquery'
      cases h
      exact ⟨_, rfl, by rw [hpath]; rfl⟩
  · intro body defaultPort port hhost hport
    rw [TorrentClient.buildHttpRequest, if_neg hhost]
    simp only [hport, hentries, hquery]
    exact ⟨_, rfl⟩

/-! ### Over UDP -/

/-- A datagram announces the port of the request it is made from. -/
theorem Announced.ofDatagram_announceFields {r : UDPRequest} {connectionId : UInt64} {exchange : UdpExchange} :
    ofDatagram (announceFields r connectionId exchange).flatten =
      { info_hash := r.info_hash.toList, peer_id := r.peer_id.toList, port := r.port.toNat,
        uploaded := r.uploaded_pieces.toNat, downloaded := r.downloaded_pieces.toNat, left := r.pieces_left.toNat } := by
  have hword : ∀ x : UInt32, x.toNat < 2 ^ (8 * 8) := fun x => Nat.lt_of_lt_of_le x.toNat_lt (by decide)
  have hhash : (announceFields r connectionId exchange)[3]? = some r.info_hash.toList := rfl
  have hid : (announceFields r connectionId exchange)[4]? = some r.peer_id.toList := rfl
  have hlength : (announceFields r connectionId exchange).map List.length =
      [8, 4, 4, 20, 20, 8, 8, 8, 4, 4, 4, 4, 2] := by
    simp only [announceFields, List.map_cons, List.map_nil, length_toBig, Vector.length_toList]
    rfl
  have hoffset : ∀ i, ((announceFields r connectionId exchange).take i).flatten.length =
      (([8, 4, 4, 20, 20, 8, 8, 8, 4, 4, 4, 4, 2] : List Nat).take i).sum := by
    intro i
    rw [List.length_flatten, List.map_take, hlength]
  simp only [ofDatagram, mk.injEq]
  refine ⟨?_, ?_, ?_, ?_, ?_, ?_⟩
  · exact take_drop_flatten hhash (hoffset 3) r.info_hash.length_toList
  · exact take_drop_flatten hid (hoffset 4) r.peer_id.length_toList
  · exact bigField_flatten (i := 12) rfl (hoffset 12) r.port.toNat_lt
  · exact bigField_flatten (i := 7) rfl (hoffset 7) (hword _)
  · exact bigField_flatten (i := 5) rfl (hoffset 5) (hword _)
  · exact bigField_flatten (i := 6) rfl (hoffset 6) (hword _)

theorem buildUdpRequest_ok {url : Url} {request : Request} :
    client.buildUdpRequest urls url info = .ok request ↔
      urls.host url ≠ [] ∧ ∃ port, parseLength (urls.port url) = some port ∧
        request = .udp { toRequestInfo := info, host := urls.host url, port := port.toUInt16,
                         info_hash := client.info_hash, peer_id := client.peer_id } := by
  rw [TorrentClient.buildUdpRequest]
  constructor
  · intro h
    split at h
    · cases h
    · rename_i hhost
      cases hport : parseLength (urls.port url) with
      | none =>
        rw [hport] at h
        cases h
      | some port =>
        rw [hport] at h
        exact ⟨fun h0 => hhost (.inl h0), port, rfl, (Except.ok.inj h).symm⟩
  · rintro ⟨hhost, port, hport, rfl⟩
    have hne : urls.port url ≠ [] := by
      intro h0
      rw [h0] at hport
      cases hport
    rw [if_neg (not_or.mpr ⟨hhost, hne⟩), hport]

/-! ### Both -/

/-- The announces to a tracker, over HTTP at one url and over UDP at another, carry what the client has to announce. -/
def AnnouncesSame (client : TorrentClient) (urls : UrlClass Url) (info : RequestInfo) (httpUrl udpUrl : Url) : Prop :=
  (∀ body defaultPort request, client.buildHttpRequest urls body httpUrl info defaultPort = .ok request →
    ∃ r text, request = body r ∧ r.get_uri = urls.requestPath httpUrl ++ 63 :: text ∧
      Announced.ofQuery (readPairs text) = some (client.announced info)) ∧
  ∀ r endian connectionId exchange, client.buildUdpRequest urls udpUrl info = .ok (.udp r) →
    ∃ datagram, announceDatagram endian r connectionId exchange = .ok datagram ∧ datagram.length = 98 ∧
      Announced.ofDatagram datagram = client.announced info

/-- The announces carry the same exactly when the port of the tracker, where a datagram is built for it, is that of the
    client. -/
theorem announcesSame_iff (hurls : urls.Lawful) {httpUrl udpUrl : Url} :
    AnnouncesSame client urls info httpUrl udpUrl ↔
      ∀ port, urls.host udpUrl ≠ [] → parseLength (urls.port udpUrl) = some port →
        port.toUInt16 = info.server_port := by
  constructor
  · intro h port hhost hport
    obtain ⟨datagram, hdatagram, -, hannounced⟩ :=
      h.2 _ .little 0 ⟨0, 0, .ok (), .datagram []⟩ (buildUdpRequest_ok.mpr ⟨hhost, port, hport, rfl⟩)
    rw [announceDatagram_eq] at hdatagram
    cases hdatagram
    rw [Announced.ofDatagram_announceFields] at hannounced
    exact UInt16.toNat_inj.mp (congrArg Announced.port hannounced)
  · intro h
    refine ⟨?_, ?_⟩
    · intro body defaultPort request hbuild
      obtain ⟨r, text, hrequest, huri, htext⟩ := buildHttpRequest_ok hurls hbuild
      refine ⟨r, text, hrequest, huri, ?_⟩
      rw [htext]
      exact Announced.ofQuery_queryEntries client info _
    · intro r endian connectionId exchange hbuild
      obtain ⟨hhost, port, hport, hr⟩ := buildUdpRequest_ok.mp hbuild
      cases hr
      refine ⟨_, announceDatagram_eq endian, length_announceFields, ?_⟩
      rw [Announced.ofDatagram_announceFields, h port hhost hport]
      rfl

end

/-- A url as its parts. -/
structure UrlParts where
  host : List UInt8
  port : List UInt8
  path : List UInt8
  query : List (List UInt8 × List UInt8)

def UrlParts.urls : UrlClass UrlParts where
  host := UrlParts.host
  port := UrlParts.port
  path := UrlParts.path
  query := UrlParts.query
  addQuery url key val := { url with query := url.query ++ [(key, val)] }

/-- The url of a tracker at a port. -/
def trackerAt (port : String) : UrlParts := ⟨ascii "tracker", ascii port, ascii "/announce", []⟩

/-- A url with a pair of its own, whose value has bytes that must be escaped. -/
theorem queryCarried_passkey :
    ∃ text, QueryCarried { metainfo := {} } UrlParts.urls { server_port := 6881, pieces_left := 3 }
      ⟨ascii "tracker", [], ascii "/announce", [(ascii "passkey", [0, 32, 34, 35, 37, 38, 43, 61, 255])]⟩ text :=
  queryCarried ⟨fun _ _ _ => rfl, fun _ _ _ => rfl⟩ (by decide)

theorem announcesSame_ownPort :
    AnnouncesSame { metainfo := {} } UrlParts.urls { server_port := 6881, pieces_left := 3 } (trackerAt "80")
      (trackerAt "6881") := by
  refine (announcesSame_iff ⟨fun _ _ _ => rfl, fun _ _ _ => rfl⟩).mpr ?_
  intro port _ hport
  have h6881 : parseLength (ascii "6881") = some 6881 := by decide
  rw [show UrlParts.urls.port (trackerAt "6881") = ascii "6881" from rfl, h6881] at hport
  cases hport
  rfl

theorem not_announcesSame_portEighty :
    ¬ AnnouncesSame { metainfo := {} } UrlParts.urls { server_port := 6881, pieces_left := 3 } (trackerAt "80")
      (trackerAt "80") := by
  intro h
  let r : UDPRequest :=
    { server_port := 6881, pieces_left := 3, host := ascii "tracker", port := 80 }
  have hbuild : TorrentClient.buildUdpRequest { metainfo := {} } UrlParts.urls (trackerAt "80")
      { server_port := 6881, pieces_left := 3 } = .ok (.udp r) := by decide
  obtain ⟨datagram, hdatagram, -, hannounced⟩ := h.2 r .little 0 ⟨0, 0, .ok (), .datagram []⟩ hbuild
  rw [announceDatagram_eq] at hdatagram
  cases hdatagram
  rw [Announced.ofDatagram_announceFields] at hannounced
  exact absurd (congrArg Announced.port hannounced) (by decide)

end BittorrentClient
