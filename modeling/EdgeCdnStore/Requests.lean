-- Requests that go through the proxy and its cache. The filters of the proxy decide
-- which requests look into the storage and which responses go there, and each under
-- which key. What a client gets from the cache is then what the origin gave to a
-- request with the same key.
import EdgeCdnStore.Provenance
import EdgeCdnStore.Proxy

open edge_cdn_store.io edge_cdn_store.logger edge_cdn_store.utils
open edge_cdn_store.disk_cache edge_cdn_store.tiered
open edge_cdn_store.operations edge_cdn_store.refinement
open edge_cdn_store.provenance edge_cdn_store.proxy

namespace edge_cdn_store.requests

abbrev Line := List Char × List UInt8

/-- A header line under a name, in any letter case. -/
def named (name : List Char) (line : Line) : Bool := eq_ignore_ascii_case line.1 name

/-! ## The mark of a response -/

/-- The lines of a response but the mark. -/
def others (resp : ResponseHeader) : List Line :=
  resp.headers.filter fun line => !named EdgeCdnProxy.x_cdn_cache line

/-- A response bears one mark, which says `state`. -/
def Marked (state : List UInt8) (resp : ResponseHeader) : Prop :=
  resp.headers.filter (named EdgeCdnProxy.x_cdn_cache) = [(EdgeCdnProxy.x_cdn_cache, state)]

theorem named_self (name : List Char) (value : List UInt8) : named name (name, value) = true := by
  simp [named, eq_ignore_ascii_case]

theorem insert_line_named (name : List Char) (value : List UInt8) (lines : List Line) :
    (insert_line name value lines).filter (named name) = [(name, value)] := by
  induction lines with
  | nil => simp [insert_line, named_self]
  | cons line rest ih =>
    unfold insert_line
    by_cases h : eq_ignore_ascii_case line.1 name = true
    · rw [if_pos h, List.filter_cons_of_pos (named_self name value)]
      congr 1
      rw [List.filter_eq_nil_iff]
      intro x hx
      simpa [named] using (List.mem_filter.mp hx).2
    · rw [if_neg h, List.filter_cons_of_neg (by simpa [named] using h)]
      exact ih

theorem insert_line_others (name : List Char) (value : List UInt8) (lines : List Line) :
    (insert_line name value lines).filter (fun line => !named name line) =
      lines.filter fun line => !named name line := by
  induction lines with
  | nil => simp [insert_line, named_self]
  | cons line rest ih =>
    unfold insert_line
    by_cases h : eq_ignore_ascii_case line.1 name = true
    · rw [if_pos h, List.filter_cons_of_neg (by simp [named_self]),
        List.filter_cons_of_neg (by simp [named, h])]
      simp [named]
    · rw [if_neg h, List.filter_cons_of_pos (by simp [named, h]),
        List.filter_cons_of_pos (by simp [named, h]), ih]

/-- A line under another name is found as before. -/
theorem find_insert_line {name name' : List Char} (hne : eq_ignore_ascii_case name name' = false)
    (value : List UInt8) (lines : List Line) :
    (insert_line name value lines).find? (fun line => eq_ignore_ascii_case line.1 name') =
      lines.find? fun line => eq_ignore_ascii_case line.1 name' := by
  -- no line is under both names
  have hnot : ∀ line : Line, named name line = true →
      eq_ignore_ascii_case line.1 name' = false := by
    intro line h
    unfold named eq_ignore_ascii_case at *
    rw [beq_iff_eq] at h
    rw [h]
    exact hne
  induction lines with
  | nil => simp [insert_line, hne]
  | cons line rest ih =>
    unfold insert_line
    by_cases h : eq_ignore_ascii_case line.1 name = true
    · rw [if_pos h, List.find?_cons_of_neg (by simp [hne]),
        List.find?_cons_of_neg (by simp [hnot line h]), List.find?_filter]
      congr 1
      funext x
      by_cases hx : named name x = true
      · rw [hnot x hx]
        simp
      · have : eq_ignore_ascii_case x.1 name = false := by simpa [named] using hx
        simp [this]
    · rw [if_neg h, List.find?_cons, List.find?_cons, ih]

theorem marked_insert_header (resp : ResponseHeader) (state : List UInt8) :
    Marked state (resp.insert_header EdgeCdnProxy.x_cdn_cache state) :=
  insert_line_named _ _ _

theorem others_insert_header (resp : ResponseHeader) (state : List UInt8) :
    others (resp.insert_header EdgeCdnProxy.x_cdn_cache state) = others resp :=
  insert_line_others _ _ _

/-- What is sent bears one mark, from whatever was marked before, and is otherwise as it was. -/
theorem response_filter_spec (self : EdgeCdnProxy) (upstream_used : Bool) (resp : ResponseHeader) :
    ∃ sent, self.response_filter upstream_used resp = .ok sent ∧ sent.status = resp.status ∧
      Marked (if upstream_used then EdgeCdnProxy.MISS else EdgeCdnProxy.HIT) sent ∧
      others sent = others resp :=
  ⟨_, rfl, rfl, marked_insert_header _ _, others_insert_header _ _⟩

/-! ## Which responses are stored -/

/-- The status is 2xx, and the first Cache-Control line does not show `no-store`. -/
def Storable (resp : ResponseHeader) : Prop :=
  resp.is_success = true ∧ ∀ cc, (resp.get "cache-control".toList).bind to_str = some cc →
    contains (to_ascii_lowercase cc) "no-store".toList = false

theorem storable_insert_header (resp : ResponseHeader) (state : List UInt8) :
    Storable (resp.insert_header EdgeCdnProxy.x_cdn_cache state) ↔ Storable resp := by
  have hget : (resp.insert_header EdgeCdnProxy.x_cdn_cache state).get "cache-control".toList =
      resp.get "cache-control".toList := by
    unfold ResponseHeader.get ResponseHeader.insert_header
    rw [find_insert_line (by decide)]
  have hsuccess : (resp.insert_header EdgeCdnProxy.x_cdn_cache state).is_success =
      resp.is_success := rfl
  unfold Storable
  rw [hget, hsuccess]

theorem response_cache_filter_spec {self : EdgeCdnProxy} {now : Nat} {resp : ResponseHeader}
    {cache_meta : CacheMeta}
    (h : self.response_cache_filter now resp = .ok (.Cacheable cache_meta)) :
    Storable resp ∧ cache_meta = ⟨now + ONE_HOUR, now, 0, 0, resp⟩ := by
  unfold EdgeCdnProxy.response_cache_filter at h
  by_cases hs : resp.is_success = true
  · rw [hs] at h
    simp only [Bool.not_true, Bool.false_eq_true, if_false] at h
    cases hcc : (resp.get "cache-control".toList).bind to_str with
    | none =>
      rw [hcc] at h
      cases h
      refine ⟨⟨hs, fun cc hsome => ?_⟩, rfl⟩
      rw [hcc] at hsome
      cases hsome
    | some cc =>
      rw [hcc] at h
      simp only at h
      split at h
      · cases h
      · rename_i hno
        cases h
        refine ⟨⟨hs, fun cc' hsome => ?_⟩, rfl⟩
        rw [hcc] at hsome
        cases hsome
        exact Bool.eq_false_of_not_eq_true hno
  · rw [Bool.eq_false_of_not_eq_true hs] at h
    simp at h

/-! ## When the storage is called -/

/-- What an operation of the storage is for: a request, the response of the origin to one, or
a stored response that the origin has confirmed, with the lines it got then. A response comes
with the time at which it is looked at. -/
inductive Cause
  | request (session : Session)
  | response (session : Session) (now : Nat) (resp : ResponseHeader)
  | revalidation (session : Session) (now : Nat) (merged : ResponseHeader)
  | other

/-- The request may use the cache, and goes by the key. -/
def GoesBy (self : EdgeCdnProxy) (session : Session) (key : CacheKey) : Prop :=
  self.request_cache_filter () () session (.Disabled : HttpCache Unit Unit) =
    .ok (.Enabled () (some ())) ∧
  self.cache_key_callback session = .ok key

/-- Pingora calls on the storage for a request that may use the cache, by its key. It stores
the response of the origin when the filter for stored responses lets it, after the filter for
responses of the origin, and new metadata when the first of these lets it. -/
def Allows (self : EdgeCdnProxy) : Cause → Op CacheKey CacheMeta → Prop
  | .request session, .lookup key => GoesBy self session key
  | .response session now resp, .get_miss_handler key cache_meta => GoesBy self session key ∧
      ∃ upstream_resp, self.upstream_response_filter resp = .ok upstream_resp ∧
        self.response_cache_filter now upstream_resp = .ok (.Cacheable cache_meta)
  | .revalidation session now merged, .update_meta key cache_meta => GoesBy self session key ∧
      self.response_cache_filter now merged = .ok (.Cacheable cache_meta)
  | .other, .write_body _ _ _ => True
  | .other, .finish _ => True
  | .other, .drop_handler _ => True
  | .other, .purge _ _ => True
  | .other, .read_to_end _ => True
  | _, _ => False

section
variable [CacheHashKey CacheKey] [disk_cache.CacheMeta CacheMeta]

/-- What the log says of the metadata and the body of an object: that it was there at the
start, or that a response of the origin to a request with the key had it, and that the origin
has confirmed it since. -/
inductive Given (self : EdgeCdnProxy) (start : MapState CacheMeta)
    (log : List (Entry Cause CacheKey CacheMeta)) (hash : CombinedHash) :
    Result CacheMeta → Bytes → Prop
  | start (o : Object CacheMeta) (ho : start.objects hash = some o) :
      Given self start log hash o.cache_meta o.body
  | response (session : Session) (key : CacheKey) (now : Nat) (resp : ResponseHeader) (h : Nat)
      (a f : Entry Cause CacheKey CacheMeta) (ha : a ∈ log)
      (hcause : a.cause = .response session now resp) (hreply : a.reply = .handler (.ok h))
      (hkey : GoesBy self session key) (hhash : CacheHashKey.combined key = hash)
      (hstorable : Storable resp) (hf : f ∈ log) (hfinish : f.op = .finish h) :
      Given self start log hash
        (.ok ⟨now + ONE_HOUR, now, 0, 0,
          resp.insert_header EdgeCdnProxy.x_cdn_cache EdgeCdnProxy.MISS⟩) (written log h)
  | revalidation (session : Session) (key : CacheKey) (now : Nat) (merged : ResponseHeader)
      (a : Entry Cause CacheKey CacheMeta) (old : Result CacheMeta) (d : Bytes)
      (h : Given self start log hash old d) (ha : a ∈ log)
      (hcause : a.cause = .revalidation session now merged)
      (hkey : GoesBy self session key) (hhash : CacheHashKey.combined key = hash)
      (hstorable : Storable merged) :
      Given self start log hash (.ok ⟨now + ONE_HOUR, now, 0, 0, merged⟩) d

variable {self : EdgeCdnProxy} {start : MapState CacheMeta}
  {log : List (Entry Cause CacheKey CacheMeta)} {hash : CombinedHash}
  {e : Entry Cause CacheKey CacheMeta} {cache_meta : CacheMeta}

omit [disk_cache.CacheMeta CacheMeta] in
/-- A handler is given for a response of the origin to a request with the key. -/
theorem response_of_admits {h : Nat} (ha : Allows self e.cause e.op)
    (hadmits : e.Admits hash cache_meta h) :
    ∃ session key now resp, e.cause = .response session now resp ∧ GoesBy self session key ∧
      CacheHashKey.combined key = hash ∧ Storable resp ∧
      cache_meta = ⟨now + ONE_HOUR, now, 0, 0,
        resp.insert_header EdgeCdnProxy.x_cdn_cache EdgeCdnProxy.MISS⟩ := by
  obtain ⟨key, hhash, hop, _⟩ := hadmits
  rw [hop] at ha
  cases hc : e.cause with
  | response session now resp =>
    rw [hc] at ha
    obtain ⟨hkey, upstream_resp, hfilter, hcache⟩ := ha
    cases hfilter
    obtain ⟨hstorable, hmeta⟩ := response_cache_filter_spec hcache
    exact ⟨session, key, now, resp, rfl, hkey, hhash,
      (storable_insert_header _ _).mp hstorable, hmeta⟩
  | request session =>
    rw [hc] at ha
    exact absurd ha id
  | revalidation session now merged =>
    rw [hc] at ha
    exact absurd ha id
  | other =>
    rw [hc] at ha
    exact absurd ha id

omit [disk_cache.CacheMeta CacheMeta] in
/-- New metadata is that of a response which the origin has confirmed. -/
theorem revalidation_of_updates (ha : Allows self e.cause e.op) (hu : e.Updates hash cache_meta) :
    ∃ session key now merged, e.cause = .revalidation session now merged ∧
      GoesBy self session key ∧ CacheHashKey.combined key = hash ∧ Storable merged ∧
      cache_meta = ⟨now + ONE_HOUR, now, 0, 0, merged⟩ := by
  obtain ⟨key, hhash, hop⟩ := hu
  rw [hop] at ha
  cases hc : e.cause with
  | revalidation session now merged =>
    rw [hc] at ha
    obtain ⟨hstorable, hmeta⟩ := response_cache_filter_spec ha.2
    exact ⟨session, key, now, merged, rfl, ha.1, hhash, hstorable, hmeta⟩
  | request session =>
    rw [hc] at ha
    exact absurd ha id
  | response session now resp =>
    rw [hc] at ha
    exact absurd ha id
  | other =>
    rw [hc] at ha
    exact absurd ha id

omit [disk_cache.CacheMeta CacheMeta] in
/-- Where an object comes from, in the words of the proxy. -/
theorem given_of_objectFrom {o : Object CacheMeta} (hlog : ∀ e ∈ log, Allows self e.cause e.op)
    (h : ObjectFrom start log hash o) : Given self start log hash o.cache_meta o.body := by
  induction h with
  | start o ho => exact .start o ho
  | finished i m a f ha hadmits hf hfinish =>
    obtain ⟨session, key, now, resp, hcause, hkey, hhash, hstorable, rfl⟩ :=
      response_of_admits (hlog a ha) hadmits
    exact .response session key now resp i a f ha hcause hadmits.choose_spec.2.2 hkey hhash
      hstorable hf hfinish
  | updated o m a _ ha hu ih =>
    obtain ⟨session, key, now, merged, hcause, hkey, hhash, hstorable, rfl⟩ :=
      revalidation_of_updates (hlog a ha) hu
    exact .revalidation session key now merged a o.cache_meta o.body ih ha hcause hkey hhash
      hstorable

/-! ## What a client gets -/

end

/-! ## Two requests for one page -/

def hex_digit (n : Nat) : Char := "0123456789abcdef".toList.getD (n % 16) '0'

theorem hex_digit_hex (n : Nat) :
    (hex_digit n).isDigit = true ∨ ('a' ≤ hex_digit n ∧ hex_digit n ≤ 'f') := by
  have h : ∀ k < 16, (hex_digit k).isDigit = true ∨ ('a' ≤ hex_digit k ∧ hex_digit k ≤ 'f') := by
    decide +kernel
  have hmod : hex_digit n = hex_digit (n % 16) := by
    unfold hex_digit
    rw [Nat.mod_mod]
  rw [hmod]
  exact h _ (Nat.mod_lt n (by omega))

/-- The digits of a key, after four that are always there. -/
def digits_of (key : CacheKey) : CombinedHash where
  text := "0000".toList ++ key.primary.map fun c => hex_digit c.toNat
  long := by simp
  hex := by
    rw [List.all_append, List.all_map, Bool.and_eq_true]
    refine ⟨by decide, List.all_eq_true.mpr fun c _ => ?_⟩
    simpa using hex_digit_hex c.toNat

instance : CacheHashKey CacheKey := ⟨digits_of⟩

def page : ResponseHeader := ⟨200, [("vary".toList, [42])]⟩

/-- The metadata of the page, fetched at the epoch. -/
def page_meta : CacheMeta :=
  ⟨3600, 0, 0, 0, page.insert_header EdgeCdnProxy.x_cdn_cache EdgeCdnProxy.MISS⟩

/-- Only the metadata of the page can be written. -/
instance : disk_cache.CacheMeta CacheMeta where
  serialize m := if m = page_meta then .ok ([7], []) else e_explain .InternalError "no page"
  deserialize _ _ := .ok page_meta

def proxy_6188 : EdgeCdnProxy := .new 6188 6143

/-- `GET /x` with `Host: a.b` -/
def get_page : Session := ⟨[("Host".toList, [97, 46, 98])], some "/x".toList, none⟩

def page_key : CacheKey := ⟨[], "http://a.b/x".toList, []⟩

/-- The first request misses, and the page is stored. -/
def first_request : List (Entry Cause CacheKey CacheMeta) :=
  [⟨.request get_page, .lookup page_key, .found (.ok none)⟩,
    ⟨.response get_page 0 page, .get_miss_handler page_key page_meta, .handler (.ok 0)⟩,
    ⟨.other, .write_body 0 [1, 2] true, .written (.ok ())⟩,
    ⟨.other, .finish 0, .finished (.ok (.Created 2))⟩]

def second_request : Entry Cause CacheKey CacheMeta :=
  ⟨.request get_page, .lookup page_key, .found (.ok (some (page_meta, 0)))⟩

def read_page : Entry Cause CacheKey CacheMeta := ⟨.other, .read_to_end 0, .bytes (.ok [1, 2])⟩

end edge_cdn_store.requests
