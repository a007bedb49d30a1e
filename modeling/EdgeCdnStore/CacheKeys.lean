-- The laws of the cache key: what two requests with one key have in common. The
-- key leaves out the port of the Host header, and joins the host and the path
-- with nothing between them.
import EdgeCdnStore.Proxy

open edge_cdn_store.logger edge_cdn_store.utils

namespace edge_cdn_store.proxy

/-! ## What a key says -/

theorem scheme_is_http_or_https (self : EdgeCdnProxy) (s : Session) :
    self.key_scheme s = HTTP ∨ self.key_scheme s = HTTPS := by
  unfold EdgeCdnProxy.key_scheme
  cases scheme_from_hdr s with
  | none => simp only [Option.map_none, Option.getD_none]; split <;> simp
  | some t => simp only [Option.map_some, Option.getD_some]; split <;> simp

/-- A key comes from a host that parses, and is the scheme, the host in lower case and the
path. -/
theorem cache_key_callback_ok {self : EdgeCdnProxy} {s : Session} {k : CacheKey}
    (h : self.cache_key_callback s = .ok k) : ∃ host port,
      parse_host_authority (s.host.getD []) = .ok (host, port) ∧
      k.primary = self.key_scheme s ++ "://".toList ++ to_ascii_lowercase host ++ s.path_q := by
  simp only [EdgeCdnProxy.cache_key_callback] at h
  split at h
  · cases h
  · rename_i host port hp
    cases h
    exact ⟨host, port, hp, rfl⟩

theorem parse_host_authority_trim (t : List Char) :
    parse_host_authority (trim t) = parse_host_authority t := by
  unfold parse_host_authority
  rw [trim_trim]

/-- The key's scheme is HTTPS when the scheme header says so, or else the listener. -/
theorem key_scheme_eq (self : EdgeCdnProxy) (s : Session) : self.key_scheme s =
    if ((scheme_from_hdr s).map (eq_ignore_ascii_case · HTTPS)).getD (self.from_https_listener s)
    then HTTPS else HTTP := by
  unfold EdgeCdnProxy.key_scheme
  cases scheme_from_hdr s <;> rfl

/-- The port that goes with a scheme. -/
def default_port (scheme : List Char) : UInt16 :=
  if scheme = HTTPS then DEFAULT_PORT_HTTPS else DEFAULT_PORT_HTTP

/-- The upstream port is the one that the Host header names, or else the default port of the
key's scheme. -/
theorem upstream_peer_port {self : EdgeCdnProxy} {s : Session} {t host : List Char}
    {port : Option UInt16} {peer : HttpPeer} (hs : s.host = some t)
    (hp : parse_host_authority t = .ok (host, port)) (h : self.upstream_peer s = .ok peer) :
    peer.port = port.getD (default_port (self.key_scheme s)) := by
  unfold EdgeCdnProxy.upstream_peer at h
  simp only [hs, parse_host_authority_trim, hp, Except.ok.injEq] at h
  subst h
  cases port with
  | some p => rfl
  | none =>
    rw [key_scheme_eq]
    simp only [Option.getD_none, default_port, reduceCtorEq, beq_iff_eq, Bool.or_eq_true,
      or_false]
    split
    · simp
    · simp [HTTP, HTTPS]

/-- Scheme and rest of a key: the schemes of two equal keys are equal, and so are the rests. -/
theorem scheme_cancel {a b : List Char} {x y : List Char} (ha : a = HTTP ∨ a = HTTPS)
    (hb : b = HTTP ∨ b = HTTPS) (h : a ++ "://".toList ++ x = b ++ "://".toList ++ y) :
    a = b ∧ x = y := by
  rcases ha with rfl | rfl <;> rcases hb with rfl | rfl
  · exact ⟨rfl, List.append_cancel_left h⟩
  · simp [HTTP, HTTPS] at h
  · simp [HTTP, HTTPS] at h
  · exact ⟨rfl, List.append_cancel_left h⟩

/-! ## One key and the upstream port -/

/-- Two requests for one host and one path, under one key, go to one upstream port exactly
when their Host headers name one port, where a header without a port names the default port
of the key's scheme. -/
theorem one_key_one_port_when_the_hosts_name_one_port (self : EdgeCdnProxy) (s1 s2 : Session)
    (t1 t2 host1 host2 : List Char) (port1 port2 : Option UInt16) (k1 k2 : CacheKey)
    (peer1 peer2 : HttpPeer) (hs1 : s1.host = some t1) (hs2 : s2.host = some t2)
    (hp1 : parse_host_authority t1 = .ok (host1, port1))
    (hp2 : parse_host_authority t2 = .ok (host2, port2))
    (_hhost : eq_ignore_ascii_case host1 host2 = true) (_hpath : s1.path_q = s2.path_q)
    (hk1 : self.cache_key_callback s1 = .ok k1) (hk2 : self.cache_key_callback s2 = .ok k2)
    (hu1 : self.upstream_peer s1 = .ok peer1) (hu2 : self.upstream_peer s2 = .ok peer2)
    (hkey : k1.primary = k2.primary) :
    peer1.port = peer2.port ↔ port1.getD (default_port (self.key_scheme s1)) =
      port2.getD (default_port (self.key_scheme s1)) := by
  have hscheme : self.key_scheme s1 = self.key_scheme s2 := by
    obtain ⟨h1, _, _, e1⟩ := cache_key_callback_ok hk1
    obtain ⟨h2, _, _, e2⟩ := cache_key_callback_ok hk2
    rw [e1, e2, List.append_assoc, List.append_assoc _ (to_ascii_lowercase h2)] at hkey
    exact (scheme_cancel (scheme_is_http_or_https self s1) (scheme_is_http_or_https self s2)
      hkey).1
  rw [upstream_peer_port hs1 hp1 hu1, upstream_peer_port hs2 hp2 hu2, hscheme]

/-- A request over plain HTTP for a path of a host, as the proxy reads it. -/
def request (host path : List Char) : Session :=
  ⟨[("host".toList, host.map (fun c => UInt8.ofNat c.toNat))], some path, none⟩

/-- The proxy on its default ports. -/
def default_proxy : EdgeCdnProxy := ⟨[], 6188, 6143⟩

theorem one_key_one_port_for_a_named_default_port :
    (⟨"example.com".toList, 80, false, []⟩ : HttpPeer).port =
      (⟨"Example.com".toList, 80, false, []⟩ : HttpPeer).port ↔
    (some 80 : Option UInt16).getD
        (default_port (default_proxy.key_scheme (request "example.com:80".toList "/a".toList))) =
      (none : Option UInt16).getD
        (default_port (default_proxy.key_scheme (request "example.com:80".toList "/a".toList))) :=
  one_key_one_port_when_the_hosts_name_one_port default_proxy
    (request "example.com:80".toList "/a".toList) (request "Example.com".toList "/a".toList)
    "example.com:80".toList "Example.com".toList "example.com".toList "Example.com".toList
    (some 80) none ⟨[], "http://example.com/a".toList, []⟩ ⟨[], "http://example.com/a".toList, []⟩
    ⟨"example.com".toList, 80, false, []⟩ ⟨"Example.com".toList, 80, false, []⟩
    (by decide) (by decide) (by rfl) (by rfl) (by decide) (by decide) (by rfl) (by rfl) (by rfl)
    (by rfl) (by rfl)

/-- The key leaves the port of the Host header out: two ports of one host share a key. -/
theorem two_ports_share_one_key :
    let s1 := request "example.com".toList "/a".toList
    let s2 := request "example.com:8080".toList "/a".toList
    parse_host_authority "example.com".toList = .ok ("example.com".toList, none) ∧
    parse_host_authority "example.com:8080".toList = .ok ("example.com".toList, some 8080) ∧
    s1.path_q = s2.path_q ∧
    default_proxy.cache_key_callback s1 = .ok ⟨[], "http://example.com/a".toList, []⟩ ∧
    default_proxy.cache_key_callback s2 = .ok ⟨[], "http://example.com/a".toList, []⟩ ∧
    default_proxy.upstream_peer s1 = .ok ⟨"example.com".toList, 80, false, []⟩ ∧
    default_proxy.upstream_peer s2 = .ok ⟨"example.com".toList, 8080, false, []⟩ :=
  ⟨by rfl, by rfl, by rfl, by rfl, by rfl, by rfl, by rfl⟩

/-! ## One key and the parts of it -/

/-- Where a text ends and a text that starts with a slash begins: two ways to cut one text
differ only when one cut leaves a slash in the first part. -/
theorem append_slash_inj {h1 h2 p1 p2 : List Char} (hp1 : ∃ r, p1 = '/' :: r)
    (hlen : h1.length ≤ h2.length) (hno : ¬ h1 ++ ['/'] <+: h2) (h : h1 ++ p1 = h2 ++ p2) :
    h1 = h2 ∧ p1 = p2 := by
  have hpre : h1 <+: h2 :=
    List.prefix_of_prefix_length_le (List.prefix_append h1 p1) (h ▸ List.prefix_append h2 p2) hlen
  obtain ⟨t, rfl⟩ := hpre
  rw [List.append_assoc, List.append_cancel_left_eq] at h
  cases t with
  | nil => exact ⟨(List.append_nil h1).symm, h⟩
  | cons c t =>
    obtain ⟨r, rfl⟩ := hp1
    simp only [List.cons_append, List.cons.injEq] at h
    exact absurd ⟨t, by rw [← h.1]; simp⟩ hno

/-- One text, as one host extended by a slash and more, starts a request for another. -/
theorem collision_of_slash (self : EdgeCdnProxy) {b1 b2 : List UInt8}
    {t1 t2 host1 host2 rest : List Char} {port1 port2 : Option UInt16}
    (hb1 : to_str b1 = some t1) (hb2 : to_str b2 = some t2)
    (hp1 : parse_host_authority t1 = .ok (host1, port1))
    (hp2 : parse_host_authority t2 = .ok (host2, port2))
    (h : to_ascii_lowercase host1 ++ '/' :: rest = to_ascii_lowercase host2) :
    ∃ s1 s2 k1 k2, s1.host = some t1 ∧ s2.host = some t2 ∧ s1.path_q = '/' :: rest ++ ['/'] ∧
      s2.path_q = ['/'] ∧ self.cache_key_callback s1 = .ok k1 ∧
      self.cache_key_callback s2 = .ok k2 ∧ k1.primary = k2.primary := by
  have hhost : ∀ b t path, to_str b = some t →
      Session.host ⟨[("host".toList, b)], some path, none⟩ = some t := by
    intro b t path hb
    simp [Session.host, Session.get_str, Session.get, eq_ignore_ascii_case, hb,
      show to_ascii_lowercase ['h', 'o', 's', 't'] = to_ascii_lowercase ['H', 'o', 's', 't']
        from by decide]
  have hkey : ∀ b t host port path, to_str b = some t →
      parse_host_authority t = .ok (host, port) →
      self.cache_key_callback ⟨[("host".toList, b)], some path, none⟩ =
        .ok ⟨[], HTTP ++ "://".toList ++ to_ascii_lowercase host ++ path, []⟩ := by
    intro b t host port path hb hp
    simp only [EdgeCdnProxy.cache_key_callback, hhost b t path hb, Option.getD_some, hp]
    rfl
  refine ⟨_, _, _, _, hhost b1 t1 ('/' :: rest ++ ['/']) hb1, hhost b2 t2 ['/'] hb2, rfl, rfl,
    hkey b1 t1 host1 port1 _ hb1 hp1, hkey b2 t2 host2 port2 _ hb2 hp2, ?_⟩
  simp [← h]

/-- The requests with two given Host headers never share a key for different resources
exactly when neither host, in lower case, is the other with a slash and more after it. Only
a host in brackets can hold a slash. -/
theorem keys_are_unambiguous_when_no_host_extends_the_other_by_a_slash (self : EdgeCdnProxy)
    (b1 b2 : List UInt8) (t1 t2 host1 host2 : List Char) (port1 port2 : Option UInt16)
    (hb1 : to_str b1 = some t1) (hb2 : to_str b2 = some t2)
    (hp1 : parse_host_authority t1 = .ok (host1, port1))
    (hp2 : parse_host_authority t2 = .ok (host2, port2)) :
    (∀ s1 s2 k1 k2, s1.host = some t1 → s2.host = some t2 →
      (∃ r, s1.path_q = '/' :: r) → (∃ r, s2.path_q = '/' :: r) →
      self.cache_key_callback s1 = .ok k1 → self.cache_key_callback s2 = .ok k2 →
      k1.primary = k2.primary →
      self.key_scheme s1 = self.key_scheme s2 ∧
        to_ascii_lowercase host1 = to_ascii_lowercase host2 ∧ s1.path_q = s2.path_q) ↔
    (¬ to_ascii_lowercase host1 ++ ['/'] <+: to_ascii_lowercase host2 ∧
      ¬ to_ascii_lowercase host2 ++ ['/'] <+: to_ascii_lowercase host1) := by
  constructor
  · intro h
    refine ⟨?_, ?_⟩
    · rintro ⟨rest, hrest⟩
      rw [List.append_assoc, List.singleton_append] at hrest
      obtain ⟨s1, s2, k1, k2, h1, h2, hq1, hq2, hk1, hk2, hk⟩ :=
        collision_of_slash self hb1 hb2 hp1 hp2 hrest
      have := (h s1 s2 k1 k2 h1 h2 ⟨_, hq1⟩ ⟨_, hq2⟩ hk1 hk2 hk).2.1
      rw [← hrest] at this
      simp at this
    · rintro ⟨rest, hrest⟩
      rw [List.append_assoc, List.singleton_append] at hrest
      obtain ⟨s2, s1, k2, k1, h2, h1, hq2, hq1, hk2, hk1, hk⟩ :=
        collision_of_slash self hb2 hb1 hp2 hp1 hrest
      have := (h s1 s2 k1 k2 h1 h2 ⟨_, hq1⟩ ⟨_, hq2⟩ hk1 hk2 hk.symm).2.1
      rw [← hrest] at this
      simp at this
  · rintro ⟨hno1, hno2⟩ s1 s2 k1 k2 h1 h2 hq1 hq2 hk1 hk2 hk
    obtain ⟨g1, q1, e1, hk1⟩ := cache_key_callback_ok hk1
    obtain ⟨g2, q2, e2, hk2⟩ := cache_key_callback_ok hk2
    rw [h1, Option.getD_some, hp1] at e1
    rw [h2, Option.getD_some, hp2] at e2
    cases e1
    cases e2
    rw [hk1, hk2, List.append_assoc, List.append_assoc _ (to_ascii_lowercase host2)] at hk
    obtain ⟨hscheme, hrest⟩ :=
      scheme_cancel (scheme_is_http_or_https self s1) (scheme_is_http_or_https self s2) hk
    refine ⟨hscheme, ?_⟩
    rcases Nat.le_total (to_ascii_lowercase host1).length (to_ascii_lowercase host2).length
      with hle | hle
    · exact append_slash_inj hq1 hle hno1 hrest
    · obtain ⟨e1, e2⟩ := append_slash_inj hq2 hle hno2 hrest.symm
      exact ⟨e1.symm, e2.symm⟩

theorem keys_are_unambiguous_for_two_plain_hosts :
    (∀ s1 s2 k1 k2, s1.host = some "A.org".toList → s2.host = some "[::1]:80".toList →
      (∃ r, s1.path_q = '/' :: r) → (∃ r, s2.path_q = '/' :: r) →
      default_proxy.cache_key_callback s1 = .ok k1 →
      default_proxy.cache_key_callback s2 = .ok k2 → k1.primary = k2.primary →
      default_proxy.key_scheme s1 = default_proxy.key_scheme s2 ∧
        to_ascii_lowercase "A.org".toList = to_ascii_lowercase "::1".toList ∧
        s1.path_q = s2.path_q) ↔
    (¬ to_ascii_lowercase "A.org".toList ++ ['/'] <+: to_ascii_lowercase "::1".toList ∧
      ¬ to_ascii_lowercase "::1".toList ++ ['/'] <+: to_ascii_lowercase "A.org".toList) :=
  keys_are_unambiguous_when_no_host_extends_the_other_by_a_slash default_proxy
    [65, 46, 111, 114, 103] [91, 58, 58, 49, 93, 58, 56, 48] "A.org".toList "[::1]:80".toList
    "A.org".toList "::1".toList none (some 80) (by decide) (by decide) (by rfl) (by rfl)

/-- A slash in brackets passes the parser: the path `/c` of the host `a/b` has the key of the
path `/b/c` of the host `a`. -/
theorem a_bracketed_slash_collides :
    let s1 := request "a".toList "/b/c".toList
    let s2 := request "[a/b]".toList "/c".toList
    parse_host_authority "a".toList = .ok ("a".toList, none) ∧
    parse_host_authority "[a/b]".toList = .ok ("a/b".toList, none) ∧
    default_proxy.cache_key_callback s1 = .ok ⟨[], "http://a/b/c".toList, []⟩ ∧
    default_proxy.cache_key_callback s2 = .ok ⟨[], "http://a/b/c".toList, []⟩ ∧
    to_ascii_lowercase "a".toList ≠ to_ascii_lowercase "a/b".toList ∧ s1.path_q ≠ s2.path_q :=
  ⟨by rfl, by rfl, by rfl, by rfl, by decide, by decide⟩

/-! ## One key and the transport -/

/-- The request asks for HTTPS: its scheme header says so, or it has none and came in at the
listener for HTTPS. -/
def EdgeCdnProxy.asks_for_https (self : EdgeCdnProxy) (s : Session) : Bool :=
  ((scheme_from_hdr s).map (eq_ignore_ascii_case · HTTPS)).getD (self.from_https_listener s)

/-- A key says HTTPS exactly when the peer uses TLS. -/
def Agree (k : CacheKey) (peer : HttpPeer) : Prop :=
  "https://".toList <+: k.primary ↔ peer.tls = true

/-- A key says HTTPS exactly when the request asks for it. -/
theorem key_says_https {self : EdgeCdnProxy} {s : Session} {k : CacheKey}
    (h : self.cache_key_callback s = .ok k) :
    "https://".toList <+: k.primary ↔ self.asks_for_https s = true := by
  obtain ⟨host, port, _, hk⟩ := cache_key_callback_ok h
  rw [hk, key_scheme_eq]
  unfold EdgeCdnProxy.asks_for_https
  split
  · rename_i hasks
    simp only [hasks, iff_true]
    exact ⟨to_ascii_lowercase host ++ s.path_q, by simp [HTTPS]⟩
  · rename_i hasks
    refine iff_of_false ?_ hasks
    rintro ⟨rest, hrest⟩
    simp [HTTP] at hrest

/-- A fetch uses TLS when the request asks for HTTPS or names the port for it. -/
theorem upstream_peer_tls {self : EdgeCdnProxy} {s : Session} {t host : List Char}
    {port : Option UInt16} {peer : HttpPeer} (hs : s.host = some t)
    (hp : parse_host_authority t = .ok (host, port)) (h : self.upstream_peer s = .ok peer) :
    peer.tls = true ↔ self.asks_for_https s = true ∨ port = some DEFAULT_PORT_HTTPS := by
  unfold EdgeCdnProxy.upstream_peer at h
  simp only [hs, parse_host_authority_trim, hp, Except.ok.injEq] at h
  subst h
  simp only [EdgeCdnProxy.asks_for_https, Bool.or_eq_true, beq_iff_eq]

/-- The key and the fetch of a request agree exactly when it asks for HTTPS or its Host header
does not name port 443. Where two requests agree so and share a key, both fetches use TLS or
none does. -/
theorem key_and_fetch_agree_unless_a_plain_request_names_443 (self : EdgeCdnProxy) (s : Session)
    (t host : List Char) (port : Option UInt16) (k : CacheKey) (peer : HttpPeer)
    (hs : s.host = some t) (hp : parse_host_authority t = .ok (host, port))
    (hk : self.cache_key_callback s = .ok k) (hu : self.upstream_peer s = .ok peer) :
    (Agree k peer ↔ (port = some DEFAULT_PORT_HTTPS → self.asks_for_https s = true)) ∧
    ((port = some DEFAULT_PORT_HTTPS → self.asks_for_https s = true) →
      ∀ s' t' host' port' k' peer', s'.host = some t' →
        parse_host_authority t' = .ok (host', port') →
        self.cache_key_callback s' = .ok k' → self.upstream_peer s' = .ok peer' →
        (port' = some DEFAULT_PORT_HTTPS → self.asks_for_https s' = true) →
        k.primary = k'.primary → peer.tls = peer'.tls) := by
  have hagree : ∀ {s t host port k peer}, s.host = some t →
      parse_host_authority t = .ok (host, port) → self.cache_key_callback s = .ok k →
      self.upstream_peer s = .ok peer →
      (Agree k peer ↔ (port = some DEFAULT_PORT_HTTPS → self.asks_for_https s = true)) := by
    intro s t host port k peer hs hp hk hu
    unfold Agree
    rw [key_says_https hk, upstream_peer_tls hs hp hu]
    by_cases hasks : self.asks_for_https s = true <;> simp [hasks]
  refine ⟨hagree hs hp hk hu, ?_⟩
  intro hok s' t' host' port' k' peer' hs' hp' hk' hu' hok' hkey
  have h1 : Agree k peer := (hagree hs hp hk hu).mpr hok
  have h2 : Agree k' peer' := (hagree hs' hp' hk' hu').mpr hok'
  unfold Agree at h1 h2
  rw [hkey] at h1
  exact Bool.eq_iff_iff.mpr (h1.symm.trans h2)

theorem key_and_fetch_agree_for_a_forwarded_https :
    let s : Session := ⟨[("Host".toList, [97]), ("x-forwarded-proto".toList,
      [72, 84, 84, 80, 83])], some "/".toList, none⟩
    let k : CacheKey := ⟨[], "https://a/".toList, []⟩
    let peer : HttpPeer := ⟨['a'], 443, true, ['a']⟩
    (Agree k peer ↔ ((none : Option UInt16) = some DEFAULT_PORT_HTTPS →
      default_proxy.asks_for_https s = true)) ∧
    (((none : Option UInt16) = some DEFAULT_PORT_HTTPS → default_proxy.asks_for_https s = true) →
      ∀ s' t' host' port' k' peer', s'.host = some t' →
        parse_host_authority t' = .ok (host', port') →
        default_proxy.cache_key_callback s' = .ok k' →
        default_proxy.upstream_peer s' = .ok peer' →
        (port' = some DEFAULT_PORT_HTTPS → default_proxy.asks_for_https s' = true) →
        k.primary = k'.primary → peer.tls = peer'.tls) :=
  key_and_fetch_agree_unless_a_plain_request_names_443 default_proxy _ ['a'] ['a'] none _ _
    (by decide) (by rfl) (by rfl) (by rfl)

/-- A request without a scheme that names port 443 is fetched over TLS and stored under a key
for plain HTTP. That is also the key of a request for the same host that is not. -/
theorem a_plain_request_for_port_443_is_fetched_over_tls :
    let s1 := request "a:443".toList "/".toList
    let s2 := request "a".toList "/".toList
    let k : CacheKey := ⟨[], "http://a/".toList, []⟩
    let peer1 : HttpPeer := ⟨['a'], 443, true, ['a']⟩
    let peer2 : HttpPeer := ⟨['a'], 80, false, []⟩
    default_proxy.cache_key_callback s1 = .ok k ∧ default_proxy.upstream_peer s1 = .ok peer1 ∧
    ¬ Agree k peer1 ∧
    default_proxy.cache_key_callback s2 = .ok k ∧ default_proxy.upstream_peer s2 = .ok peer2 ∧
    peer1.tls ≠ peer2.tls := by
  refine ⟨by rfl, by rfl, ?_, by rfl, by rfl, by decide⟩
  unfold Agree
  decide

end edge_cdn_store.proxy
