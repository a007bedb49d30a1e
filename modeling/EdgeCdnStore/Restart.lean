-- The size of the cache from one process to the next. When the server is told to
-- shut down, a service samples the gauge and stores it, while the requests that
-- are under way still change it. The next process starts from what was stored.
import EdgeCdnStore.Sites
import EdgeCdnStore.GaugeRaces

open edge_cdn_store.programs edge_cdn_store.programs.Program edge_cdn_store.io
open edge_cdn_store.file_tree edge_cdn_store.file_tree.FileTree
open edge_cdn_store.disk_cache edge_cdn_store.pools edge_cdn_store.tasks edge_cdn_store.sites
open edge_cdn_store.gauge_races edge_cdn_store.operations

namespace edge_cdn_store.restart

def CACHE_STATE_FILENAME : List Char := "_cache_state.json".toList

/-- `CacheStatistics`. Times count nanoseconds, and the two sizes are `u64`. -/
structure CacheStatistics where
  root : PathBuf
  start_time : Int
  uptime : Int
  size_bytes_current : Nat
  size_bytes_max : Nat
  deriving DecidableEq

/-- `serde_json`, as far as the statistics go. -/
structure SerdeJson where
  to_string_pretty : CacheStatistics → Option Bytes
  from_reader : Bytes → Option CacheStatistics

/-- What is written reads back. -/
def SerdeJson.RoundTrip (json : SerdeJson) : Prop :=
  ∀ stats text, json.to_string_pretty stats = some text → json.from_reader text = some stats

/-! ## The numbers -/

/-- The value of an `i64` that counts `x`. -/
def as_i64 (x : Int) : Int := x.bmod (2 ^ 64)

/-- `x as u64` -/
def as_u64 (x : Int) : Nat := (x % 2 ^ 64).toNat

theorem as_i64_as_i64 (x : Int) : as_i64 (as_i64 x) = as_i64 x := Int.bmod_bmod

/-- From `i64` to `u64` and back nothing is lost. -/
theorem as_i64_as_u64 (x : Int) : as_i64 (as_u64 x) = as_i64 x := by
  unfold as_i64 as_u64
  have hpos : 0 ≤ x % 2 ^ 64 := Int.emod_nonneg x (by decide)
  rw [Int.toNat_of_nonneg hpos]
  exact Int.emod_bmod x (2 ^ 64)

theorem as_i64_sub_eq (x a : Int) : as_i64 (x - a) = as_i64 x ↔ as_i64 a = 0 := by
  unfold as_i64
  constructor
  · intro h
    have hdvd := Int.bmod_eq_bmod_iff_bmod_sub_eq_zero.mp h
    rw [show x - a - x = -a by omega] at hdvd
    have hneg := Int.dvd_of_bmod_eq_zero hdvd
    exact Int.bmod_eq_zero_of_dvd ((Int.dvd_neg).mp hneg)
  · intro h
    rw [Int.sub_bmod, h, Int.sub_zero, Int.bmod_bmod]

/-! ## The services -/

/-- A call of session `e.1`, or `size_bytes.get()`. -/
inductive ServerCall
  | io (e : Nat × Io)
  | size_bytes_get

@[reducible] def ServerCall.Reply : ServerCall → Type
  | .io e => e.2.Reply
  | .size_bytes_get => Int

def server : Environment ServerCall ServerCall.Reply Choice Site
  | .io e, c, s => respond e c s
  | .size_bytes_get, _, s => (as_i64 s.metrics.size_bytes, s)

/-- The file that keeps the statistics. -/
def state_path (root : PathBuf) : PathBuf := root ++ [CACHE_STATE_FILENAME]

/-- `PersistCacheOnShutdown::start`, once the signal is there. Without a value it panicked,
which it does when the clock is behind the start of the server. -/
def start (json : SerdeJson) (cache : DiskCache) (start_time max_bytes : Int) :
    Program ServerCall ServerCall.Reply (Option Unit) := do
  let path := state_path cache.root
  let now ← perform (.io (0, .now))
  if now < start_time then return none
  else
    let size_bytes ← perform .size_bytes_get
    let stats : CacheStatistics :=
      { root := cache.root
        start_time
        uptime := now - start_time
        size_bytes_current := as_u64 size_bytes
        size_bytes_max := as_u64 max_bytes }
    match json.to_string_pretty stats with
    | some text => do
      let _ ← perform (.io (0, .write path text))
      return some ()
    | none => return some ()

def fetch_cache_state (json : SerdeJson) (root : PathBuf) : Prog (Option CacheStatistics) := do
  match ← fs.read (state_path root) with
  | .ok text => return json.from_reader text
  | .error _ => return none

/-- `DiskCache::new`, with the metrics that it registers. -/
def DiskCache.new (json : SerdeJson) (root : PathBuf) : Prog (DiskCache × CacheMetrics) := do
  let prev_size := match ← fetch_cache_state json root with
    | some stats => as_i64 stats.size_bytes_current
    | none => 0
  return (⟨root⟩, .new prev_size)

/-! ## The last run of a process -/

/-- How far the service has come, with what it sampled and wrote. -/
inductive Phase
  | waiting
  | timed
  | sampled (size_bytes : Int)
  | stored (size_bytes : Int) (text : Bytes)
  | ended
  deriving DecidableEq

/-- What stands beside a program: the service, or an operation on a key. -/
inductive Note
  | service (phase : Phase)
  | request (hash : CombinedHash)
  deriving DecidableEq

/-- The text of statistics with the size that was sampled. -/
def Tells (json : SerdeJson) (size_bytes : Int) (text : Bytes) : Prop :=
  ∃ stats, stats.size_bytes_current = as_u64 size_bytes ∧ json.to_string_pretty stats = some text

def Note.allows (json : SerdeJson) (cache : DiskCache) : Note → ServerCall → Prop
  | .service .waiting, .io e => e.2 = .now
  | .service .timed, .size_bytes_get => True
  | .service (.sampled size_bytes), .io e =>
    ∃ text, Tells json size_bytes text ∧ e.2 = .write (state_path cache.root) text
  | .request hash, .io e => OfKey cache hash e.2
  | _, _ => False

def Note.next : Note → (e : ServerCall) → e.Reply → Note
  | .service .waiting, _, _ => .service .timed
  | .service .timed, .size_bytes_get, size_bytes => .service (.sampled size_bytes)
  | .service (.sampled size_bytes), .io (_, .write _ text), .ok _ =>
    .service (.stored size_bytes text)
  | .service (.sampled _), .io (_, .write _ _), .error _ => .service .ended
  | n, _, _ => n

/-- What a call adds to the gauge. -/
def added : Io → Int
  | .size_bytes_add n => n
  | .size_bytes_sub n => -n
  | _ => 0

/-- What has been added to the gauge since it was sampled, and none before. -/
abbrev Since := Option Int

def Since.record (since : Since) : ServerCall → Since
  | .size_bytes_get => some 0
  | .io e => since.map (· + added e.2)

section
variable {K M : Type} [CacheHashKey K] [CacheMeta M]

/-- The service and any number of operations, each with the number of its session. -/
def server_system (K M : Type) [CacheHashKey K] [CacheMeta M] (cache : DiskCache) :
    System ServerCall ServerCall.Reply Choice Site (Option Unit) Note Since (Nat × Task K M) where
  env := server
  start t :=
    ((do let _ ← t.2.program cache; return some () : Prog (Option Unit)).sent
      (fun e => .io (t.1, e)), .request t.2.hash)
  next := Note.next
  record _ _ e _ _ _ since := since.record e

abbrev ServerPool := Pool ServerCall ServerCall.Reply (Option Unit) Note Site Since

/-- The process when its server is told to shut down, on a machine `s`. -/
def running (json : SerdeJson) (cache : DiskCache) (start_time max_bytes : Int) (s : Site) :
    ServerPool :=
  ⟨[(start json cache start_time max_bytes, .service .waiting)], s, none⟩

/-- Operations come, with handlers of their keys, and all make their calls in any order. -/
def Serving (cache : DiskCache) (_p : ServerPool) : Event Choice Site (Nat × Task K M) → Prop
  | .spawn t => t.2.Of cache
  | .call _ _ => True
  | .crash => False
  | .outside _ => False

instance (cache : DiskCache) (p : ServerPool) (ev : Event Choice Site (Nat × Task K M)) :
    Decidable (Serving cache p ev) :=
  match ev with
  | .spawn t => inferInstanceAs (Decidable (t.2.Of cache))
  | .call _ _ => isTrue trivial
  | .crash => isFalse id
  | .outside _ => isFalse id

/-! ## The file of the statistics -/

variable {json : SerdeJson} {cache : DiskCache} {s : Site} {e : Nat × Io} {c : Choice}

/-- No operation of the cache goes by the file. -/
theorem state_path_untouched {hash : CombinedHash} {e : Io} (he : OfKey cache hash e) :
    ¬ Touches e (state_path cache.root) := by
  intro htouch
  rcases touches_of_key he htouch with hpre | ⟨n, hn⟩
  · unfold state_path DiskCache.dir at hpre
    rw [List.prefix_append_right_inj, List.cons_prefix_cons] at hpre
    have hlen := congrArg List.length hpre.1
    have hname : CACHE_STATE_FILENAME.length = 17 := by decide
    rw [hname, List.length_take] at hlen
    omega
  · have hlen := congrArg List.length hn
    simp only [state_path, DiskCache.entry, List.length_append, DiskCache.length_dir,
      List.length_singleton] at hlen
    omega

/-- Nobody has the file open. -/
def Unopened (cache : DiskCache) (s : Site) : Prop :=
  s.Known ∧ ∀ i, s.tree.node (state_path cache.root) = some (.file i) →
    s.Apart Set.univ {q | q ≠ state_path cache.root} i

theorem unopened_start (tree : FileTree (List Char) UInt8) (metrics : CacheMetrics) (pid : Nat) :
    Unopened cache (.start tree metrics pid) := by
  refine ⟨?_, ?_⟩
  · intro j f hf
    exact absurd hf (Nat.not_lt_zero f)
  · intro i hi
    refine ⟨tree.sound.below _ _ hi, ?_, ?_⟩
    · intro q hq hn
      exact hq (tree.sound.single _ _ _ hn hi)
    · intro j _ f hf
      exact absurd hf (Nat.not_lt_zero f)

/-- A call of an operation leaves the file as it is. -/
theorem Unopened.request {hash : CombinedHash} (h : Unopened cache s) (he : OfKey cache hash e.2) :
    Unopened cache (respond e c s).2 ∧
    (respond e c s).2.tree.content (state_path cache.root) =
      s.tree.content (state_path cache.root) := by
  have hun := state_path_untouched he
  have hnode : (respond e c s).2.tree.node (state_path cache.root) =
      s.tree.node (state_path cache.root) := node_respond hun
  have hpaths : ∀ q, Touches e.2 q → q ∈ {q | q ≠ state_path cache.root} := by
    rintro q hq rfl
    exact hun hq
  refine ⟨⟨h.1.respond, ?_⟩, ?_⟩
  · intro i hi
    rw [hnode] at hi
    exact ((h.2 i hi).respond (Set.mem_univ _) hpaths).2
  · apply content_congr hnode
    intro i hi
    exact ((h.2 i hi).respond (Set.mem_univ _) hpaths).1

/-- A write of the service changes the file and nothing else, and what it wrote is there. -/
theorem Unopened.store (h : Unopened cache s) (text : Bytes) (i : Nat) (c : Choice) :
    Unopened cache (respond (i, .write (state_path cache.root) text) c s).2 ∧
    ((respond (i, .write (state_path cache.root) text) c s).1 = .ok () →
      (respond (i, .write (state_path cache.root) text) c s).2.tree.content
        (state_path cache.root) = some text) := by
  have hput : ∀ d, s.tree.CanCreate (state_path cache.root) →
      Unopened cache (s.put i ((s.world i).setTree (s.tree.put (state_path cache.root) d))) := by
    intro d hc
    have hdesks : (s.put i ((s.world i).setTree (s.tree.put (state_path cache.root) d))).desks =
        s.desks := Function.update_eq_self i s.desks
    refine ⟨?_, ?_⟩
    · intro j f hf
      rw [hdesks] at hf ⊢
      exact Nat.lt_of_lt_of_le (h.1 j f hf) (fresh_le_put _ _ _)
    · intro k hk
      refine ⟨FileTree.sound _ |>.below _ _ hk, ?_, ?_⟩
      · intro q hq hn
        exact hq (FileTree.sound _ |>.single _ _ _ hn hk)
      · intro j hj f hf
        rw [hdesks] at hf ⊢
        obtain ⟨k', hk', hold⟩ := node_create_self hc
        rw [Site.tree_put, World.setTree, node_put hc, hk'] at hk
        cases hk
        rcases hold with hold | ⟨_, rfl⟩
        · exact (h.2 _ hold).desks j hj f hf
        · exact Nat.ne_of_lt (h.1 j f hf)
  have hsame : Unopened cache (s.put i (s.world i)) := by
    rw [put_world]
    exact h
  rw [respond_of_no_handles rfl]
  simp only [answer]
  split
  · split
    · rename_i hc
      refine ⟨hput text hc, fun _ => ?_⟩
      have hcontent := content_put hc text (state_path cache.root)
      rwa [if_pos rfl] at hcontent
    · exact ⟨hsame, fun hok => by cases hok⟩
  · exact ⟨hsame, fun hok => by cases hok⟩
  · split
    · rename_i hc
      exact ⟨hput _ hc, fun hok => by cases hok⟩
    · exact ⟨hsame, fun hok => by cases hok⟩

/-! ## The gauge since the sample -/

theorem size_bytes_answer (e : Io) (c : Choice) (w : World) :
    (answer e c w).2.metrics.size_bytes = w.metrics.size_bytes + added e := by
  cases e
  case size_bytes_add n => rfl
  case size_bytes_sub n => rfl
  all_goals
    refine (gauge_of_gaugeFree ?_ c w).trans (Int.add_zero _).symm
    trivial

theorem size_bytes_respond (e : Nat × Io) (c : Choice) (s : Site) :
    (respond e c s).2.metrics.size_bytes = s.metrics.size_bytes + added e.2 :=
  size_bytes_answer e.2 _ _

/-- The value that was sampled, against the gauge as it is now. -/
def Sampled (size_bytes : Int) (s : Site) (since : Since) : Prop :=
  ∃ a, since = some a ∧ size_bytes = as_i64 (s.metrics.size_bytes - a)

theorem Sampled.io {size_bytes : Int} {since : Since} (h : Sampled size_bytes s since) :
    Sampled size_bytes (respond e c s).2 (since.record (.io e)) := by
  obtain ⟨a, rfl, hv⟩ := h
  refine ⟨a + added e.2, rfl, ?_⟩
  rw [size_bytes_respond, hv]
  congr 1
  omega

/-- What the phase of the service says of the machine. -/
def Phase.Says (json : SerdeJson) (cache : DiskCache) (s : Site) (since : Since) : Phase → Prop
  | .sampled size_bytes => Sampled size_bytes s since
  | .stored size_bytes text => Sampled size_bytes s since ∧ Tells json size_bytes text ∧
      s.tree.content (state_path cache.root) = some text
  | _ => True

/-- The service comes first, and what it says holds. -/
def Serves (json : SerdeJson) (cache : DiskCache) (ns : List Note) (s : Site) (since : Since) :
    Prop :=
  Unopened cache s ∧ ∃ phase rest, ns = .service phase :: rest ∧
    (∀ n ∈ rest, ∃ hash, n = .request hash) ∧ phase.Says json cache s since

theorem start_obeys (start_time max_bytes : Int) :
    (start json cache start_time max_bytes).Obeys (Note.allows json cache) Note.next
      (fun _ _ => True) (.service .waiting) := by
  simp only [start, obeys_bind]
  refine (obeys_perform (ServerCall.io (0, .now)) _ _).mpr ⟨rfl, fun now => ?_⟩
  by_cases hnow : now < start_time
  · rw [if_pos hnow]
    trivial
  · rw [if_neg hnow, obeys_bind]
    refine (obeys_perform ServerCall.size_bytes_get _ _).mpr ⟨trivial, fun size_bytes => ?_⟩
    split
    · rename_i text htext
      rw [obeys_bind]
      exact (obeys_perform (ServerCall.io (0, .write _ _)) _ _).mpr
        ⟨⟨text, ⟨_, rfl, htext⟩, rfl⟩, fun _ => trivial⟩
    · trivial

theorem request_obeys (t : Nat × Task K M) (ht : t.2.Of cache) :
    ((server_system K M cache).start t).1.Obeys (Note.allows json cache) Note.next
      (fun _ _ => True) ((server_system K M cache).start t).2 := by
  unfold server_system
  rw [obeys_sent]
  have htask : Obeys (fun (_ : Unit) => OfKey cache t.2.hash) (fun n _ _ => n)
      (do let _ ← t.2.program cache; return some () : Prog (Option Unit)) (fun _ _ => True) () := by
    rw [obeys_bind]
    exact obeys_mono (task_of_key t.2 ht ()) fun _ _ _ => trivial
  refine obeys_mono (obeys_fixed htask ?_ ?_) fun _ _ _ => trivial
  · intro e he
    exact he
  · intro e r
    rfl

/-- A call of an operation keeps what the service says. -/
theorem Phase.Says.request {phase : Phase} {since : Since} {hash : CombinedHash}
    (h : phase.Says json cache s since) (hs : Unopened cache s) (he : OfKey cache hash e.2) :
    phase.Says json cache (respond e c s).2 (since.record (.io e)) := by
  cases phase with
  | sampled size_bytes => exact Sampled.io h
  | stored size_bytes text =>
    obtain ⟨hv, htell, hcontent⟩ := h
    refine ⟨hv.io, htell, ?_⟩
    rw [(hs.request he).2]
    exact hcontent
  | waiting => trivial
  | timed => trivial
  | ended => trivial

/-- A call of the service. -/
theorem Serves.service {phase : Phase} {rest : List Note} {since : Since} {e : ServerCall}
    (hs : Unopened cache s) (hrest : ∀ n ∈ rest, ∃ hash, n = .request hash)
    (h : phase.Says json cache s since) (ha : Note.allows json cache (.service phase) e) :
    Serves json cache (Note.next (.service phase) e (server e c s).1 :: rest) (server e c s).2
      (since.record e) := by
  cases phase with
  | waiting =>
    cases e with
    | io e =>
      obtain ⟨i, e⟩ := e
      obtain rfl : e = .now := ha
      have hsame : (respond (i, .now) c s).2 = s := by
        rw [respond_of_no_handles rfl]
        exact put_world s i
      refine ⟨?_, .timed, rest, rfl, hrest, trivial⟩
      rw [show (server (.io (i, .now)) c s).2 = s from hsame]
      exact hs
    | size_bytes_get => exact absurd ha id
  | timed =>
    cases e with
    | io e => exact absurd ha id
    | size_bytes_get =>
      refine ⟨hs, .sampled (as_i64 s.metrics.size_bytes), rest, rfl, hrest, 0, rfl, ?_⟩
      rw [Int.sub_zero]
      rfl
  | sampled size_bytes =>
    cases e with
    | size_bytes_get => exact absurd ha id
    | io e =>
      obtain ⟨i, e⟩ := e
      obtain ⟨text, htell, rfl⟩ := ha
      have hstore := hs.store text i c
      refine ⟨hstore.1, ?_⟩
      cases hr : (server (.io (i, .write (state_path cache.root) text)) c s).1 with
      | ok _ => exact ⟨.stored size_bytes text, rest, rfl, hrest, h.io, htell, hstore.2 hr⟩
      | error x => exact ⟨.ended, rest, rfl, hrest, trivial⟩
  | stored size_bytes text => cases e <;> exact absurd ha id
  | ended => cases e <;> exact absurd ha id

theorem serves_invariant (json : SerdeJson) (cache : DiskCache) :
    (server_system K M cache).Invariant (Note.allows json cache) (fun _ _ => True)
      (Serving cache) (Serves json cache) where
  start _ t ht := request_obeys t ht
  spawn p t _ _ hI := by
    obtain ⟨hs, phase, rest, hns, hrest, hsays⟩ := hI
    refine ⟨hs, phase, rest ++ [.request t.2.hash], by rw [hns]; rfl, ?_, hsays⟩
    intro n hn
    rcases List.mem_append.mp hn with hn | hn
    · exact hrest n hn
    · exact ⟨_, List.mem_singleton.mp hn⟩
  call p i c e k n _ hi ha hI := by
    obtain ⟨hs, phase, rest, hns, hrest, hsays⟩ := hI
    have hn := Pool.notes_getElem? hi
    rw [hns] at hn ⊢
    cases i with
    | zero =>
      obtain rfl : n = .service phase := by simpa using hn.symm
      exact Serves.service hs hrest hsays ha
    | succ i =>
      obtain ⟨hash, rfl⟩ := hrest n (List.mem_of_getElem? hn)
      cases e with
      | size_bytes_get => exact absurd ha id
      | io e =>
        refine ⟨(hs.request ha).1, phase, rest.set i (.request hash), rfl, ?_,
          hsays.request hs ha⟩
        intro m hm
        rcases List.mem_or_eq_of_mem_set hm with hm | rfl
        · exact hrest m hm
        · exact ⟨hash, rfl⟩
  crash _ hP := absurd hP id
  outside _ _ hP := absurd hP id

/-! ## The next process -/

/-- The size that the next start installs, on a disk as `s` has it, where the file of the
statistics can be read. -/
def installed (json : SerdeJson) (cache : DiskCache) (s : Site) : Option Int :=
  (run answer (DiskCache.new json cache.root) [plain] (s.world 0)).map fun r => r.1.2.size_bytes

theorem installed_of_content {size_bytes : Int} {text : Bytes} (hjson : json.RoundTrip)
    (htell : Tells json size_bytes text)
    (h : s.tree.content (state_path cache.root) = some text) :
    installed json cache s = some (as_i64 size_bytes) := by
  obtain ⟨stats, hsize, htext⟩ := htell
  have hread : (answer (.read (state_path cache.root)) plain (s.world 0)).1 = .ok text := by
    have hworld : (s.world 0).tree.content (state_path cache.root) = some text := h
    simp only [answer, Choice.guard, plain, hworld]
  unfold installed DiskCache.new fetch_cache_state fs.read io.call
  simp only [perform, Bind.bind, Program.bind, run, hread]
  simp only [hjson stats text htext, pure, Program.bind, run, Option.map_some, CacheMetrics.new,
    hsize, as_i64_as_u64]

/-- When the service has stored the statistics, the next start installs the size that the
process ends with exactly when what the operations have added to the gauge since the sample,
and taken from it, adds up to nothing. -/
theorem the_size_survives_exactly_when_nothing_is_added_after_the_sample (json : SerdeJson)
    (hjson : json.RoundTrip) (cache : DiskCache) (start_time max_bytes : Int)
    (tree : FileTree (List Char) UInt8) (metrics : CacheMetrics) (pid : Nat)
    (evs : List (Event Choice Site (Nat × Task K M))) (p : ServerPool)
    (hP : (server_system K M cache).Along (Serving cache)
      (running json cache start_time max_bytes (.start tree metrics pid)) evs)
    (hr : (server_system K M cache).run
      (running json cache start_time max_bytes (.start tree metrics pid)) evs = some p)
    (size_bytes : Int) (text : Bytes) (hstored : Note.service (.stored size_bytes text) ∈ p.notes) :
    ∃ a, p.history = some a ∧
      (installed json cache p.state = some (as_i64 p.state.metrics.size_bytes) ↔ as_i64 a = 0) := by
  obtain ⟨-, -, phase, rest, hns, hrest, hsays⟩ := (serves_invariant json cache).run
    (p := running json cache start_time max_bytes (.start tree metrics pid)) (by
      intro x hx
      rw [List.mem_singleton.mp hx]
      exact start_obeys start_time max_bytes)
    ⟨unopened_start tree metrics pid, .waiting, [], rfl, by simp, trivial⟩ hP hr
  rw [hns] at hstored
  rcases List.mem_cons.mp hstored with hphase | hmem
  · obtain rfl : phase = .stored size_bytes text := by simpa using hphase.symm
    obtain ⟨⟨a, ha, hv⟩, htell, hcontent⟩ := hsays
    refine ⟨a, ha, ?_⟩
    rw [installed_of_content hjson htell hcontent, hv, as_i64_as_i64, Option.some.injEq]
    exact as_i64_sub_eq _ _
  · obtain ⟨hash, hno⟩ := hrest _ hmem
    cases hno

end

/-! ## A quiet shutdown, and one with a miss under way -/

/-- What a small server stores when it is shut down at once. -/
def small_stats : CacheStatistics := ⟨small_cache.root, 0, 0, 0, 2147483648⟩

def small_text : Bytes :=
  ("\x7b\n  \"root\": \"/c\",\n  \"start_time\": \x7b\n    \"secs_since_epoch\": 0,\n" ++
    "    \"nanos_since_epoch\": 0\n  \x7d,\n  \"uptime\": \x7b\n    \"secs\": 0,\n" ++
    "    \"nanos\": 0\n  \x7d,\n  \"size_bytes_current\": 0,\n" ++
    "  \"size_bytes_max\": 2147483648\n\x7d").toList.flatMap String.utf8EncodeChar

/-- The text of these statistics, and of no others. -/
def SerdeJson.only (stats : CacheStatistics) (text : Bytes) : SerdeJson where
  to_string_pretty stats' := if stats' = stats then some text else none
  from_reader text' := if text' = text then some stats else none

theorem SerdeJson.only_round_trip (stats : CacheStatistics) (text : Bytes) :
    (SerdeJson.only stats text).RoundTrip := by
  intro stats' text' h
  unfold only at h ⊢
  simp only at h ⊢
  by_cases hstats : stats' = stats
  · rw [if_pos hstats] at h
    cases h
    rw [if_pos rfl, hstats]
  · rw [if_neg hstats] at h
    cases h

def small_json : SerdeJson := .only small_stats small_text

/-- A disk where a handler has one byte in its temporary file. -/
def busy_tree : FileTree (List Char) UInt8 :=
  ((FileTree.empty _ _).mkdirs (small_cache.dir small_hash)).put (small_handler [7] 1).tmp_path [3]

def shutdown : ServerPool :=
  running small_json small_cache 0 2147483648 (.start busy_tree (.new 0) 1)

/-- The service runs, and then a purge that finds no body. -/
def quiet_events : List (Event Choice Site (Nat × Task CombinedHash operations.Note)) :=
  [.spawn (1, .purge small_hash .Eviction)] ++ Event.calls 0 3 plain ++ Event.calls 1 6 plain

theorem the_size_survives_a_quiet_shutdown :
    ∃ p, (server_system CombinedHash operations.Note small_cache).run shutdown quiet_events =
        some p ∧ Note.service (.stored 0 small_text) ∈ p.notes ∧
      installed small_json small_cache p.state = some (as_i64 p.state.metrics.size_bytes) := by
  have hrun : ((server_system CombinedHash operations.Note small_cache).run shutdown
      quiet_events).any (fun p => decide (Note.service (.stored 0 small_text) ∈ p.notes) &&
        decide (p.history = some 0)) = true := by decide +kernel
  obtain ⟨p, hp, hend⟩ := (Option.any_eq_true _ _).mp hrun
  obtain ⟨hnote, hadded⟩ := Bool.and_eq_true_iff.mp hend
  have hstored : Note.service (.stored 0 small_text) ∈ p.notes := of_decide_eq_true hnote
  refine ⟨p, hp, hstored, ?_⟩
  obtain ⟨a, ha, hsurvives⟩ :=
    the_size_survives_exactly_when_nothing_is_added_after_the_sample small_json
      (SerdeJson.only_round_trip _ _) small_cache 0 2147483648 busy_tree (.new 0) 1 quiet_events p
      (by decide +kernel) hp 0 small_text hstored
  rw [of_decide_eq_true hadded] at ha
  cases ha
  exact hsurvives.mpr (by decide)

/-- The service runs while a miss is under way, and the miss finishes. -/
def busy_events : List (Event Choice Site (Nat × Task CombinedHash operations.Note)) :=
  [.spawn (1, .finish small_hash (small_handler [7] 1))] ++ Event.calls 0 3 plain ++
    Event.calls 1 7 plain

/-- One byte is in the cache, and the next process counts none. -/
theorem the_size_is_lost_when_a_miss_finishes_after_the_sample :
    small_json.RoundTrip ∧
    (server_system CombinedHash operations.Note small_cache).Along (Serving small_cache) shutdown
      busy_events ∧
    ((server_system CombinedHash operations.Note small_cache).run shutdown busy_events).map
      (fun p => (decide p.Quiescent, decide (Note.service (.stored 0 small_text) ∈ p.notes),
        installed small_json small_cache p.state, as_i64 p.state.metrics.size_bytes)) =
      some (true, true, some 0, 1) :=
  ⟨SerdeJson.only_round_trip _ _, by decide +kernel, by decide +kernel⟩

end edge_cdn_store.restart
