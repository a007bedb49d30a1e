-- The callbacks of `proxy.rs` that decide where a request goes, whether it may use
-- the cache, under which key its response is stored, and whether it is stored at
-- all. Each works out what it needs from the headers for itself.
import EdgeCdnStore.Utils

open edge_cdn_store.logger edge_cdn_store.utils

namespace edge_cdn_store.proxy

def DEFAULT_PORT_HTTP : UInt16 := 80
def DEFAULT_PORT_HTTPS : UInt16 := 443
def HTTP : List Char := "http".toList
def HTTPS : List Char := "https".toList

/-- The text of the address that stands for the proxy itself. -/
def LOCALHOST : List Char := "127.0.0.1".toList

/-- In seconds. -/
def ONE_HOUR : Nat := 3600

/-! ## The request -/

/-- The address that a request came in at. -/
inductive SocketAddr
  | inet (port : UInt16)
  | unix
  deriving DecidableEq, Repr

def SocketAddr.inet_port : SocketAddr → Option UInt16
  | .inet port => some port
  | .unix => none

/-- What the callbacks read of a session: the headers in order, the path with the query,
and the address of the server. -/
structure Session where
  headers : List (List Char × List UInt8)
  path_and_query : Option (List Char)
  server_addr : Option SocketAddr

/-- `HeaderValue::to_str`: the text of a value whose bytes are all visible ASCII, spaces or
tabs. -/
def to_str (value : List UInt8) : Option (List Char) :=
  if value.all (fun b => (32 ≤ b && b < 127) || b == 9) then
    some (value.map (fun b => Char.ofNat b.toNat))
  else none

/-- `headers.get(name)`: the first value under a name, in any letter case. -/
def Session.get (session : Session) (name : List Char) : Option (List UInt8) :=
  (session.headers.find? (fun h => eq_ignore_ascii_case h.1 name)).map Prod.snd

/-- The first value under a name, as text. -/
def Session.get_str (session : Session) (name : List Char) : Option (List Char) :=
  (session.get name).bind to_str

def Session.host (session : Session) : Option (List Char) := session.get_str "Host".toList

def scheme_from_hdr (session : Session) : Option (List Char) :=
  (session.get_str ":scheme".toList).or (session.get_str "x-forwarded-proto".toList)

def Session.path_q (session : Session) : List Char := session.path_and_query.getD "/".toList

/-! ## The callbacks -/

structure EdgeCdnProxy where
  self_addresses : List (List Char)
  listen_http : UInt16
  listen_https : UInt16

/-- `CacheKey`: the namespace, the primary text and the user tag. -/
structure CacheKey where
  name_space : List Char
  primary : List Char
  user_tag : List Char
  deriving DecidableEq, Repr

/-- `HttpPeer::new((host, port), tls, sni)` -/
structure HttpPeer where
  host : List Char
  port : UInt16
  tls : Bool
  sni : List Char
  deriving DecidableEq, Repr

/-- The cache of a session. A session comes with it disabled. The predictor, the lock and the
overrides that `enable` takes as well are `None` in every call. -/
inductive HttpCache (Storage Eviction : Type)
  | Disabled
  | Enabled (storage : Storage) (eviction : Option Eviction)
  deriving DecidableEq, Repr

def HttpCache.enable {Storage Eviction : Type} (_cache : HttpCache Storage Eviction)
    (storage : Storage) (eviction : Option Eviction) : HttpCache Storage Eviction :=
  .Enabled storage eviction

/-- What the callbacks read of a response: the status, and the headers in order. -/
structure ResponseHeader where
  status : UInt16
  headers : List (List Char × List UInt8)
  deriving DecidableEq, Repr

/-- `status.is_success()` -/
def ResponseHeader.is_success (resp : ResponseHeader) : Bool :=
  decide (300 > resp.status) && decide (resp.status ≥ 200)

/-- `headers.get(name)` of a response. -/
def ResponseHeader.get (resp : ResponseHeader) (name : List Char) : Option (List UInt8) :=
  (resp.headers.find? (fun h => eq_ignore_ascii_case h.1 name)).map Prod.snd

/-- A value takes the place of the first line under its name, and the other lines under the
name go. Where there is none, the line comes last. -/
def insert_line (name : List Char) (value : List UInt8) :
    List (List Char × List UInt8) → List (List Char × List UInt8)
  | [] => [(name, value)]
  | h :: rest =>
    if eq_ignore_ascii_case h.1 name then
      (name, value) :: rest.filter (fun h => !eq_ignore_ascii_case h.1 name)
    else h :: insert_line name value rest

/-- `ResponseHeader::insert_header` -/
def ResponseHeader.insert_header (resp : ResponseHeader) (name : List Char) (value : List UInt8) :
    ResponseHeader := { resp with headers := insert_line name value resp.headers }

/-- `CacheMeta`, with its times in seconds. -/
structure CacheMeta where
  fresh_until : Nat
  created : Nat
  stale_while_revalidate_sec : UInt32
  stale_if_error_sec : UInt32
  header : ResponseHeader
  deriving DecidableEq, Repr

inductive NoCacheReason
  | OriginNotCache
  | Custom (text : String)
  deriving DecidableEq, Repr

inductive RespCacheable
  | Cacheable (cache_meta : CacheMeta)
  | Uncacheable (reason : NoCacheReason)
  deriving DecidableEq, Repr

namespace EdgeCdnProxy

/-- `"{LOCALHOST}:{port}"` -/
def address (port : UInt16) : List Char := LOCALHOST ++ ':' :: (toString port.toNat).toList

/-- The addresses of the proxy itself, each of them twice. -/
def new (listen_http listen_https : UInt16) : EdgeCdnProxy where
  self_addresses :=
    [address listen_http, address listen_http, address listen_https, address listen_https]
  listen_http := listen_http
  listen_https := listen_https

/-- The request came in at the listener for HTTPS. -/
def from_https_listener (self : EdgeCdnProxy) (session : Session) : Bool :=
  ((session.server_addr.bind SocketAddr.inet_port).map (fun p => self.listen_https == p)).getD false

def upstream_peer (self : EdgeCdnProxy) (session : Session) : Result HttpPeer :=
  let fn_name := "upstream_peer"
  match session.host with
  | none =>
    trace_fn_exit_with_err fn_name "Host header missing from request" (some .ConnectError) false
  | some h =>
    match parse_host_authority (trim h) with
    | .error ha_err => trace_fn_exit_with_err fn_name (toString ha_err) none false
    | .ok (host_only, port_from_host) =>
      let hdr_scheme := scheme_from_hdr session
      let listener_https := self.from_https_listener session
      let use_https := (hdr_scheme.map (eq_ignore_ascii_case · HTTPS)).getD listener_https ||
        port_from_host == some DEFAULT_PORT_HTTPS
      let port := port_from_host.getD (if use_https then DEFAULT_PORT_HTTPS else DEFAULT_PORT_HTTP)
      let sni := if use_https then host_only else []
      .ok ⟨host_only, port, use_https, sni⟩

/-- What the filter makes of the cache of a session. The storage and the eviction manager are
the ones of the program. -/
def request_cache_filter {Storage Eviction : Type} (self : EdgeCdnProxy) (tiered_cache : Storage)
    (eviction_manager : Eviction) (session : Session) (cache : HttpCache Storage Eviction) :
    Result (HttpCache Storage Eviction) :=
  let host := session.host.getD []
  -- the cache must remain disabled for self-referencing requests
  if !self.self_addresses.any (fun addr => addr == host) then
    .ok (cache.enable tiered_cache (some eviction_manager))
  else .ok cache

/-- The scheme of a cache key. The port of the Host header has no say in it. -/
def key_scheme (self : EdgeCdnProxy) (session : Session) : List Char :=
  let use_https := self.from_https_listener session
  ((scheme_from_hdr session).map (fun s => if eq_ignore_ascii_case s HTTPS then HTTPS else HTTP)).getD
    (if use_https then HTTPS else HTTP)

/-- Build the cache key from scheme, host and path. -/
def cache_key_callback (self : EdgeCdnProxy) (session : Session) : Result CacheKey :=
  let host_hdr := session.host.getD []
  match parse_host_authority host_hdr with
  | .error parse_err => trace_fn_exit_with_err "cache_key_callback" (toString parse_err) none false
  | .ok (host_only, _port_opt) =>
    let host_lc := to_ascii_lowercase host_only
    let scheme := self.key_scheme session
    let primary := scheme ++ "://".toList ++ host_lc ++ session.path_q
    .ok ⟨[], primary, []⟩

/-- Whether a response is stored: at the time `now`, and for one hour. -/
def response_cache_filter (_self : EdgeCdnProxy) (now : Nat) (resp : ResponseHeader) :
    Result RespCacheable :=
  -- only a response with a status 2xx is stored
  if !resp.is_success then .ok (.Uncacheable (.Custom "non-2xx response"))
  else
    let cacheable := RespCacheable.Cacheable ⟨now + ONE_HOUR, now, 0, 0, resp⟩
    match (resp.get "cache-control".toList).bind to_str with
    | some cc =>
      if contains (to_ascii_lowercase cc) "no-store".toList then .ok (.Uncacheable .OriginNotCache)
      else .ok cacheable
    | none => .ok cacheable

/-- The name that both filters of a response write under. -/
def x_cdn_cache : List Char := "x-cdn-cache".toList

def MISS : List UInt8 := [77, 73, 83, 83]
def HIT : List UInt8 := [72, 73, 84]

/-- The response of the origin before it is stored or sent. A failed insertion is ignored, and
this one cannot fail. -/
def upstream_response_filter (_self : EdgeCdnProxy) (upstream_resp : ResponseHeader) :
    Result ResponseHeader :=
  .ok (upstream_resp.insert_header x_cdn_cache MISS)

/-- Any response before it is sent, from the origin or from the cache. -/
def response_filter (_self : EdgeCdnProxy) (upstream_used : Bool) (resp : ResponseHeader) :
    Result ResponseHeader :=
  let state := if upstream_used then MISS else HIT
  .ok (resp.insert_header x_cdn_cache state)

end EdgeCdnProxy

end edge_cdn_store.proxy
