import BittorrentClient.Theorems.Tracker.Announce

/-! The requests for all trackers of a torrent: the announce list replaces the url of the tracker, a url that cannot be
    used is skipped, and what is asked of every tracker is the same. -/

namespace BittorrentClient
open FlatMemory UrlQuery Outcome Tracker

section
variable {client : TorrentClient} {Url : Type} {urls : UrlParser Url} {info : RequestInfo} {url : Url} {text : List UInt8}
  {request : Request} {requests : List Request}

/-- What the client relies on: an entry that is added changes nothing but the query. -/
structure UrlParser.Lawful (urls : UrlParser Url) : Prop where
  entries : urls.toUrlClass.Lawful
  host_addQuery : ∀ url key val, urls.host (urls.addQuery url key val) = urls.host url
  port_addQuery : ∀ url key val, urls.port (urls.addQuery url key val) = urls.port url

theorem UrlParser.Lawful.addEntries (h : urls.Lawful) (entries : List (List UInt8 × List UInt8)) (url : Url) :
    urls.host (entries.foldl (fun url entry => urls.addQuery url entry.1 entry.2) url) = urls.host url ∧
      urls.port (entries.foldl (fun url entry => urls.addQuery url entry.1 entry.2) url) = urls.port url := by
  induction entries generalizing url with
  | nil => exact ⟨rfl, rfl⟩
  | cons entry entries ih =>
    obtain ⟨hhost, hport⟩ := ih (urls.addQuery url entry.1 entry.2)
    rw [List.foldl_cons, hhost, hport, h.host_addQuery, h.port_addQuery]
    exact ⟨rfl, rfl⟩

/-! ### One url -/

/-- A request for a url of HTTP or HTTPS: it goes to the host of the url, at its port or at the default one, and its
    query has the entries of the url and announces the client. -/
structure HttpRequestFor (client : TorrentClient) (urls : UrlParser Url) (info : RequestInfo) (url : Url)
    (defaultPort : UInt16) (r : HTTPGetRequest) : Prop where
  host : r.host = urls.host url
  host_ne : r.host ≠ []
  port : if urls.port url = [] then r.port = defaultPort
    else ∃ v, parseLength (urls.port url) = some v ∧ r.port = v.toUInt16
  query : ∃ text, r.get_uri = urls.requestPath url ++ 63 :: text ∧
    readPairs text = urls.query url ++ client.queryEntries info ∧
    Announced.ofQuery (readPairs text) = some (client.announced info)

/-- A request for a url of UDP, whose port must be given. -/
structure UdpRequestFor (client : TorrentClient) (urls : UrlParser Url) (info : RequestInfo) (url : Url) (r : UDPRequest) :
    Prop where
  host : r.host = urls.host url
  host_ne : r.host ≠ []
  port : ∃ v, parseLength (urls.port url) = some v ∧ r.port = v.toUInt16
  info : r.toRequestInfo = info
  info_hash : r.info_hash = client.info_hash
  peer_id : r.peer_id = client.peer_id

/-- The request for a url, by its scheme. -/
inductive RequestFor (client : TorrentClient) (urls : UrlParser Url) (info : RequestInfo) (url : Url) : Request → Prop where
  | http {r} (hscheme : urls.scheme url = ascii "http") (h : HttpRequestFor client urls info url 80 r) :
      RequestFor client urls info url (.http r)
  | https {r} (hscheme : urls.scheme url = ascii "https") (h : HttpRequestFor client urls info url 443 r) :
      RequestFor client urls info url (.https r)
  | udp {r} (hscheme : urls.scheme url = ascii "udp") (h : UdpRequestFor client urls info url r) :
      RequestFor client urls info url (.udp r)

theorem httpRequestFor (hurls : urls.Lawful) {body : HTTPGetRequest → Request} {defaultPort : UInt16}
    (h : client.buildHttpRequest urls.toUrlClass body url info defaultPort = .ok request) :
    ∃ r, request = body r ∧ HttpRequestFor client urls info url defaultPort r := by
  obtain ⟨hhost, hport⟩ := hurls.addEntries (client.queryEntries info) url
  obtain ⟨hentries, hpath⟩ := hurls.entries.addEntries (client.queryEntries info) url
  rw [TorrentClient.buildHttpRequest] at h
  split at h
  · cases h
  · rename_i hne
    obtain ⟨port, hparsed, h⟩ := bind_ok h
    obtain ⟨query, hquery, h⟩ := bind_ok h
    rw [hentries] at hquery
    obtain ⟨text, rfl, htext⟩ := Cxxurl.buildQueryStr_ok hquery
    cases h
    refine ⟨_, rfl, hhost, hhost ▸ hne, ?_, text, by rw [hpath]; rfl, htext, ?_⟩
    · rw [TorrentClient.httpPort, hport] at hparsed
      split at hparsed
      · rename_i hempty
        cases hparsed
        rw [if_pos hempty]
      · rename_i hgiven
        rw [if_neg hgiven]
        cases hv : parseLength (urls.port url) with
        | none =>
          rw [hv] at hparsed
          cases hparsed
        | some v =>
          rw [hv] at hparsed
          cases hparsed
          exact ⟨v, rfl, rfl⟩
    · rw [htext]
      exact Announced.ofQuery_queryEntries client info _

theorem mapError_ok {α ε ε' : Type} {r : Except ε α} {f : ε → ε'} {a : α} (h : r.mapError f = .ok a) : r = .ok a := by
  cases r with
  | error e => cases h
  | ok b => exact congrArg Except.ok (Except.ok.inj h)

theorem buildFromOne_ok (hurls : urls.Lawful) (hparse : urls.parse text = some url)
    (h : client.buildFromOne urls info text = .ok request) : RequestFor client urls info url request := by
  rw [TorrentClient.buildFromOne, hparse] at h
  have h := mapError_ok h
  split at h
  · rename_i hscheme
    obtain ⟨r, rfl, hr⟩ := httpRequestFor hurls h
    exact .http hscheme hr
  · split at h
    · rename_i hscheme
      obtain ⟨r, rfl, hr⟩ := httpRequestFor hurls h
      exact .https hscheme hr
    · split at h
      · rename_i hscheme
        obtain ⟨hhost, port, hport, rfl⟩ := buildUdpRequest_ok.mp h
        exact .udp hscheme ⟨rfl, hhost, ⟨port, hport, rfl⟩, rfl, rfl, rfl⟩
      · cases h

/-! ### Urls that can be used -/

theorem Cxxurl.keys_of_restStr {entries : List (List UInt8 × List UInt8)} {text : List UInt8}
    (h : restStr entries = .ok text) : ∀ entry ∈ entries, entry.1 ≠ [] := by
  induction entries generalizing text with
  | nil => exact List.forall_mem_nil _
  | cons entry entries ih =>
    rw [restStr] at h
    split at h
    · cases h
    · rename_i hkey
      obtain ⟨rest, hrest, -⟩ := bind_ok h
      exact List.forall_mem_cons.mpr ⟨hkey, ih hrest⟩

theorem Cxxurl.keys_of_buildQueryStr {entries : List (List UInt8 × List UInt8)} {query : List UInt8}
    (h : buildQueryStr entries = .ok query) : ∀ entry ∈ entries, entry.1 ≠ [] := by
  cases entries with
  | nil => exact List.forall_mem_nil _
  | cons entry entries =>
    rw [buildQueryStr] at h
    split at h
    · cases h
    · rename_i hkey
      obtain ⟨rest, hrest, -⟩ := bind_ok h
      exact List.forall_mem_cons.mpr ⟨hkey, keys_of_restStr hrest⟩

/-- The url names a tracker that a request can be built for; what is announced plays no part. -/
def UrlParser.Usable (urls : UrlParser Url) (url : Url) : Prop :=
  urls.host url ≠ [] ∧
    (((urls.scheme url = ascii "http" ∨ urls.scheme url = ascii "https") ∧
      (urls.port url = [] ∨ (parseLength (urls.port url)).isSome) ∧ ∀ entry ∈ urls.query url, entry.1 ≠ []) ∨
    (urls.scheme url = ascii "udp" ∧ (parseLength (urls.port url)).isSome))

instance (urls : UrlParser Url) (url : Url) : Decidable (urls.Usable url) := inferInstanceAs (Decidable (_ ∧ _))

theorem buildHttpRequest_iff (hurls : urls.Lawful) {body : HTTPGetRequest → Request} {defaultPort : UInt16} :
    (∃ request, client.buildHttpRequest urls.toUrlClass body url info defaultPort = .ok request) ↔ urls.host url ≠ [] ∧
      (urls.port url = [] ∨ (parseLength (urls.port url)).isSome) ∧ ∀ entry ∈ urls.query url, entry.1 ≠ [] := by
  obtain ⟨hentries, -⟩ := hurls.entries.addEntries (client.queryEntries info) url
  constructor
  · rintro ⟨request, h⟩
    obtain ⟨r, -, hr⟩ := httpRequestFor hurls h
    refine ⟨hr.host ▸ hr.host_ne, ?_, ?_⟩
    · by_cases hempty : urls.port url = []
      · exact .inl hempty
      · have hport := hr.port
        rw [if_neg hempty] at hport
        obtain ⟨v, hv, -⟩ := hport
        exact .inr (Option.isSome_of_eq_some hv)
    · rw [TorrentClient.buildHttpRequest] at h
      split at h
      · cases h
      · obtain ⟨port, -, h⟩ := bind_ok h
        obtain ⟨query, hquery, -⟩ := bind_ok h
        rw [hentries] at hquery
        exact (List.forall_mem_append.mp (Cxxurl.keys_of_buildQueryStr hquery)).1
  · rintro ⟨hhost, hport, hkeys⟩
    have hne : urls.query url ++ client.queryEntries info ≠ [] :=
      List.append_ne_nil_of_right_ne_nil _ (List.cons_ne_nil _ _)
    have hall : ∀ entry ∈ urls.query url ++ client.queryEntries info, entry.1 ≠ [] := by
      refine List.forall_mem_append.mpr ⟨hkeys, ?_⟩
      simp only [TorrentClient.queryEntries, List.forall_mem_cons]
      decide
    obtain ⟨query, hquery, -⟩ := Cxxurl.buildQueryStr_of_keys hne hall
    have hbuilt : ∃ port, TorrentClient.httpPort urls.toUrlClass
        ((client.queryEntries info).foldl (fun url entry => urls.addQuery url entry.1 entry.2) url) defaultPort = .ok port := by
      rw [TorrentClient.httpPort, (hurls.addEntries _ _).2]
      rcases hport with hempty | hport
      · exact ⟨defaultPort, by rw [if_pos hempty]⟩
      · obtain ⟨v, hv⟩ := Option.isSome_iff_exists.mp hport
        split
        · exact ⟨_, rfl⟩
        · rw [hv]
          exact ⟨_, rfl⟩
    obtain ⟨port, hport⟩ := hbuilt
    rw [TorrentClient.buildHttpRequest, if_neg hhost]
    simp only [hport, hentries, hquery]
    exact ⟨_, rfl⟩

theorem mapError_ok_iff {α ε ε' : Type} {r : Except ε α} {f : ε → ε'} :
    (∃ a, r.mapError f = .ok a) ↔ ∃ a, r = .ok a := by
  cases r with
  | error e => exact ⟨by rintro ⟨a, ⟨⟩⟩, by rintro ⟨a, ⟨⟩⟩⟩
  | ok b => exact ⟨fun _ => ⟨b, rfl⟩, fun _ => ⟨b, rfl⟩⟩

theorem buildFromOne_iff (hurls : urls.Lawful) (hparse : urls.parse text = some url) :
    (∃ request, client.buildFromOne urls info text = .ok request) ↔ urls.Usable url := by
  have hhttps : ascii "https" ≠ ascii "http" := by decide
  have hudp : ascii "udp" ≠ ascii "http" ∧ ascii "udp" ≠ ascii "https" := by decide
  rw [TorrentClient.buildFromOne, hparse]
  dsimp only
  rw [mapError_ok_iff, UrlParser.Usable]
  by_cases h : urls.scheme url = ascii "http"
  · rw [if_pos h, buildHttpRequest_iff hurls, h]
    simp [hudp.1.symm]
  · rw [if_neg h]
    by_cases h' : urls.scheme url = ascii "https"
    · rw [if_pos h', buildHttpRequest_iff hurls, h']
      simp [hudp.2.symm]
    · rw [if_neg h']
      by_cases h'' : urls.scheme url = ascii "udp"
      · rw [if_pos h'', h'']
        simp only [buildUdpRequest_ok, Option.isSome_iff_exists]
        simp [hudp.1, hudp.2]
      · rw [if_neg h'']
        simp [h, h', h'']

/-! ### All urls -/

/-- The urls that are used: the announce list, where there is one. -/
def TorrentClient.trackerUrls (client : TorrentClient) : List (List UInt8) :=
  if client.metainfo.multi_trackers = [] then [client.metainfo.tracker_url_utf8]
  else client.metainfo.multi_trackers.map fun tracker => tracker.url_utf8

/-- Those that name a tracker. -/
def TorrentClient.usableUrls (client : TorrentClient) (urls : UrlParser Url) : List Url :=
  (client.trackerUrls.filterMap urls.parse).filter fun url => urls.Usable url

/-- The requests for the trackers: there are some exactly when a url can be used, and there is one for each url that
    can, in the order of the urls. -/
structure TrackerRequests (client : TorrentClient) (urls : UrlParser Url) (info : RequestInfo)
    (result : Except RequestError (List Request)) : Prop where
  succeeds : (∃ requests, result = .ok requests) ↔ client.usableUrls urls ≠ []
  each : ∀ requests, result = .ok requests → List.Forall₂ (RequestFor client urls info) (client.usableUrls urls) requests

/-- A url that cannot be used is skipped. -/
theorem forall₂_requests (hurls : urls.Lawful) (texts : List (List UInt8)) :
    List.Forall₂ (RequestFor client urls info) ((texts.filterMap urls.parse).filter fun url => urls.Usable url)
      (texts.filterMap fun text => (client.buildFromOne urls info text).toOption) := by
  induction texts with
  | nil => exact .nil
  | cons text texts ih =>
    cases hparse : urls.parse text with
    | none =>
      have hnone : (client.buildFromOne urls info text).toOption = none := by
        rw [TorrentClient.buildFromOne, hparse]
        rfl
      simp only [List.filterMap_cons, hparse, hnone]
      exact ih
    | some url =>
      have hiff : (∃ request, client.buildFromOne urls info text = .ok request) ↔ urls.Usable url :=
        buildFromOne_iff hurls hparse
      by_cases husable : urls.Usable url
      · obtain ⟨request, hrequest⟩ := hiff.mpr husable
        have hsome : (client.buildFromOne urls info text).toOption = some request := by rw [hrequest]; rfl
        simp only [List.filterMap_cons, hparse, hsome, List.filter_cons, decide_eq_true husable, if_true]
        exact .cons (buildFromOne_ok hurls hparse hrequest) ih
      · have hnone : (client.buildFromOne urls info text).toOption = none := by
          cases hrequest : client.buildFromOne urls info text with
          | error e => rfl
          | ok request => exact absurd (hiff.mp ⟨request, hrequest⟩) husable
        simp only [List.filterMap_cons, hparse, hnone, List.filter_cons, decide_eq_false husable, Bool.false_eq_true,
          if_false]
        exact ih

/-- The requests are those that can be built, unless there is none. -/
theorem buildTrackerRequests_ok_iff : client.buildTrackerRequests urls info = .ok requests ↔ requests ≠ [] ∧
    requests = client.trackerUrls.filterMap fun text => (client.buildFromOne urls info text).toOption := by
  rw [TorrentClient.buildTrackerRequests, TorrentClient.trackerUrls]
  by_cases hmain : client.metainfo.multi_trackers = []
  · rw [if_pos hmain, if_pos hmain]
    cases hone : client.buildFromOne urls info client.metainfo.tracker_url_utf8 with
    | error e =>
      simp only [List.filterMap_cons, hone, Except.toOption, List.filterMap_nil]
      exact ⟨by rintro ⟨⟩, fun h => absurd h.2 h.1⟩
    | ok main =>
      simp only [List.filterMap_cons, hone, Except.toOption, List.filterMap_nil]
      constructor
      · rintro ⟨⟩
        exact ⟨List.cons_ne_nil _ _, rfl⟩
      · rintro ⟨-, rfl⟩
        rfl
  · rw [if_neg hmain, if_neg hmain, List.filterMap_map]
    dsimp only [Function.comp_def]
    split
    · rename_i hpos
      constructor
      · rintro ⟨⟩
        exact ⟨List.ne_nil_of_length_pos hpos, rfl⟩
      · rintro ⟨-, rfl⟩
        rfl
    · rename_i hnone
      refine ⟨by rintro ⟨⟩, ?_⟩
      rintro ⟨hne, rfl⟩
      exact absurd (List.length_pos_of_ne_nil hne) hnone

/-- Where a url can be used, a tracker is asked. -/
theorem exists_request (hurls : urls.Lawful) (husable : client.usableUrls urls ≠ []) (info : RequestInfo) :
    ∃ requests, client.buildTrackerRequests urls info = .ok requests ∧
      ∃ request ∈ requests, ∃ url, RequestFor client urls info url request := by
  have hall : List.Forall₂ (RequestFor client urls info) (client.usableUrls urls) _ :=
    forall₂_requests hurls client.trackerUrls
  obtain ⟨url, rest, hcons⟩ := List.exists_cons_of_ne_nil husable
  rw [hcons] at hall
  obtain ⟨request, requests, hrequest, -, hrequests⟩ := List.forall₂_cons_left_iff.mp hall
  refine ⟨_, buildTrackerRequests_ok_iff.mpr ⟨?_, rfl⟩, request, ?_, url, hrequest⟩ <;> rw [hrequests]
  · exact List.cons_ne_nil _ _
  · exact List.mem_cons_self ..

/-- Every tracker that can be asked is asked, for this client and what it announces. -/
theorem trackerRequests (hurls : urls.Lawful) :
    TrackerRequests client urls info (client.buildTrackerRequests urls info) := by
  have hall : List.Forall₂ (RequestFor client urls info) (client.usableUrls urls) _ :=
    forall₂_requests hurls client.trackerUrls
  refine ⟨?_, ?_⟩
  · simp only [buildTrackerRequests_ok_iff]
    have hlength := hall.length_eq
    constructor
    · rintro ⟨requests, hne, rfl⟩ hnil
      rw [hnil] at hlength
      exact hne (List.length_eq_zero_iff.mp hlength.symm)
    · intro hne
      refine ⟨_, ?_, rfl⟩
      intro hnil
      rw [hnil] at hlength
      exact hne (List.length_eq_zero_iff.mp hlength)
  · intro requests h
    rw [(buildTrackerRequests_ok_iff.mp h).2]
    exact hall

end

/-- A library that knows two urls of one tracker: with a port for UDP, and without one for HTTP. -/
def twoUrls : UrlParser UrlParts where
  toUrlClass := UrlParts.urls
  parse text :=
    if text = ascii "udp://tracker:80/announce" then some (trackerAt "80")
    else if text = ascii "http://tracker/announce" then some (trackerAt "")
    else none
  scheme url := if url.port = [] then ascii "http" else ascii "udp"

theorem twoUrls_lawful : twoUrls.Lawful :=
  ⟨⟨fun _ _ _ => rfl, fun _ _ _ => rfl⟩, fun _ _ _ => rfl, fun _ _ _ => rfl⟩

/-- A torrent with both in its announce list, and with a third that is not known. -/
def announceList : TorrentClient where
  metainfo := { tracker_url_utf8 := ascii "http://main"
                multi_trackers := [⟨ascii "http://tracker/announce", 0⟩, ⟨ascii "wss://other", 0⟩,
                  ⟨ascii "udp://tracker:80/announce", 1⟩] }

theorem announceList_usable : announceList.usableUrls twoUrls = [trackerAt "", trackerAt "80"] := by
  have hparse : announceList.trackerUrls.filterMap twoUrls.parse = [trackerAt "", trackerAt "80"] := rfl
  have hhttp : twoUrls.Usable (trackerAt "") := by decide
  have hudp : twoUrls.Usable (trackerAt "80") := by decide
  rw [TorrentClient.usableUrls, hparse, List.filter_cons, if_pos (decide_eq_true hhttp), List.filter_cons,
    if_pos (decide_eq_true hudp), List.filter_nil]

/-- The two are asked, in their order. -/
theorem trackerRequests_announceList : ∃ requests,
    announceList.buildTrackerRequests twoUrls { server_port := 6882, pieces_left := 3 } = .ok requests ∧
      List.Forall₂ (RequestFor announceList twoUrls { server_port := 6882, pieces_left := 3 })
        [trackerAt "", trackerAt "80"] requests := by
  have h : TrackerRequests announceList twoUrls { server_port := 6882, pieces_left := 3 } _ :=
    trackerRequests twoUrls_lawful
  obtain ⟨requests, hrequests⟩ := h.succeeds.mpr (announceList_usable ▸ List.cons_ne_nil _ _)
  exact ⟨requests, hrequests, announceList_usable ▸ h.each requests hrequests⟩

end BittorrentClient
