-- One process after the other on the same disk. Each starts with the size that it finds
-- in the state file, serves tasks, and is shut down or crashes. The tasks do not go by
-- the state file, so what one process leaves in it reaches the next one that asks.
import EdgeCdnStore.Books
import EdgeCdnStore.Bystanders

open edge_cdn_store.programs edge_cdn_store.programs.Program edge_cdn_store.io
open edge_cdn_store.file_tree edge_cdn_store.file_tree.FileTree
open edge_cdn_store.disk_cache edge_cdn_store.pools edge_cdn_store.tasks
open edge_cdn_store.holders edge_cdn_store.bystanders edge_cdn_store.books edge_cdn_store.restart
open edge_cdn_store.operations (small_cache small_hash small_handler)
open edge_cdn_store.finish_faults (rewriting)

namespace edge_cdn_store.pools.System

variable {E : Type} {R : E → Type} {C S α N N' H H' T : Type}

/-! ## What is noted of a run does not change it -/

theorem along_of_forall {sys : System E R C S α N H T}
    {P : Pool E R α N S H → Event C S T → Prop} {p : Pool E R α N S H} {evs : List (Event C S T)}
    (h : ∀ p, ∀ ev ∈ evs, P p ev) : sys.Along P p evs := by
  induction evs generalizing p with
  | nil => trivial
  | cons ev evs ih =>
    refine ⟨h p ev List.mem_cons_self, ?_⟩
    cases sys.step p ev with
    | none => trivial
    | some q => exact ih fun p x hx => h p x (List.mem_cons_of_mem _ hx)

/-- Two pools that are at the same point, whatever is noted of them. -/
def SamePoint (p : Pool E R α N S H) (p' : Pool E R α N' S H') : Prop :=
  p'.state = p.state ∧ p'.threads.map Prod.fst = p.threads.map Prod.fst

variable (sys : System E R C S α N H T) (sys' : System E R C S α N' H' T)

theorem step_renote (henv : sys'.env = sys.env) (hstart : ∀ t, (sys'.start t).1 = (sys.start t).1)
    {p q : Pool E R α N S H} {p' : Pool E R α N' S H'} (h : SamePoint p p') {ev : Event C S T}
    (hs : sys.step p ev = some q) : ∃ q', sys'.step p' ev = some q' ∧ SamePoint q q' := by
  obtain ⟨hstate, hthreads⟩ := h
  cases ev with
  | spawn t =>
    cases hs
    refine ⟨_, rfl, hstate, ?_⟩
    rw [List.map_append, List.map_append, hthreads, List.map_singleton, List.map_singleton, hstart]
  | call i c =>
    unfold System.step at hs
    simp only at hs
    split at hs
    · rename_i e k n hi
      cases hs
      have hprogram := congrArg (·[i]?) hthreads
      simp only [List.getElem?_map, hi, Option.map_some] at hprogram
      obtain ⟨⟨x, n'⟩, hi', rfl⟩ := Option.map_eq_some_iff.mp hprogram
      unfold System.step
      simp only [hi', henv, hstate]
      refine ⟨_, rfl, rfl, ?_⟩
      rw [List.map_set, List.map_set, hthreads]
    · cases hs
  | crash =>
    cases hs
    exact ⟨_, rfl, hstate, rfl⟩
  | outside s =>
    cases hs
    exact ⟨_, rfl, rfl, hthreads⟩

/-- Two systems of the same programs in the same environment run in the same way. -/
theorem run_renote (henv : sys'.env = sys.env) (hstart : ∀ t, (sys'.start t).1 = (sys.start t).1)
    {p q : Pool E R α N S H} {p' : Pool E R α N' S H'} (h : SamePoint p p')
    {evs : List (Event C S T)} (hr : sys.run p evs = some q) :
    ∃ q', sys'.run p' evs = some q' ∧ SamePoint q q' := by
  induction evs generalizing p p' with
  | nil =>
    cases hr
    exact ⟨p', rfl, h⟩
  | cons ev evs ih =>
    unfold System.run at hr
    cases hs : sys.step p ev with
    | none =>
      rw [hs] at hr
      cases hr
    | some p1 =>
      rw [hs] at hr
      obtain ⟨p1', hs', h1⟩ := step_renote sys sys' henv hstart h hs
      obtain ⟨q', hr', hq⟩ := ih h1 hr
      refine ⟨q', ?_, hq⟩
      unfold System.run
      rw [hs']
      exact hr'

end edge_cdn_store.pools.System

namespace edge_cdn_store.lifetimes

/-! ## One process -/

/-- The shutdown of a process: when it was started, its limit, and what comes of the three calls
of the service that stores the statistics. -/
structure Shutdown where
  start_time : Int
  max_bytes : Int
  clock : Choice
  sample : Choice
  store : Choice

/-- What happens to a process: the number it has, what comes of its read of the state file, what
its tasks do, and how it ends. Without a shutdown it crashes, at whatever point its tasks are. -/
structure Life (K M : Type) where
  pid : Nat
  fetch : Choice
  evs : List (Event Choice World (Task K M))
  ending : Option Shutdown

/-- What there is to tell of a process: the size that it started with, the bytes it created and
those it evicted, and whether it was shut down. -/
structure Record where
  start : Int
  created : Int
  evicted : Int
  clean : Bool
  deriving DecidableEq

/-- A new process, before it has metrics. -/
def booting (tree : FileTree (List Char) UInt8) (pid : Nat) : World :=
  ⟨tree, fun _ => ⟨0, 0⟩, 0, .new 0, pid⟩

/-- The service that stores the statistics, on a machine where nothing else goes on. -/
def alone : Environment ServerCall ServerCall.Reply Choice World
  | .io e, c, w => answer e.2 c w
  | .size_bytes_get, _, w => (as_i64 w.metrics.size_bytes, w)

section
variable {K M : Type} [CacheHashKey K] [CacheMeta M]

/-- A process from its start on, with the size that it starts with, as far as its tasks get. -/
def Life.work (json : SerdeJson) (cache : DiskCache) (life : Life K M)
    (tree : FileTree (List Char) UInt8) : Option (Int × BookPool M) := do
  let ((cache, metrics), w) ← Program.run answer (DiskCache.new json cache.root) [life.fetch]
    (booting tree life.pid)
  let w := w.setMetrics metrics
  let p ← (books_system K M cache).run ⟨[], w, ()⟩ life.evs
  return (w.metrics.size_bytes, p)

/-- A process from its start to its end, with the files that it leaves. It is shut down only when
no finish and no purge is under way, and when the state file can be written, and from then on
only the service makes calls. -/
def Life.run (json : SerdeJson) (cache : DiskCache) (life : Life K M)
    (tree : FileTree (List Char) UInt8) : Option (Record × FileTree (List Char) UInt8) := do
  let (size, p) ← life.work json cache tree
  let record (clean : Bool) : Record :=
    ⟨size, created_bytes p, p.state.metrics.counter .evicted_bytes, clean⟩
  match life.ending with
  | none => return (record false, p.state.tree)
  | some s =>
    if Idle p ∧ p.state.tree.CanCreate (state_path cache.root) then do
      let (returned, w) ← Program.run alone (start json cache s.start_time s.max_bytes)
        [s.clock, s.sample, s.store] p.state
      if returned.isSome then return (record true, w.tree) else none
    else none

/-- Processes one after the other, with what there is to tell of each. -/
def lives (json : SerdeJson) (cache : DiskCache) :
    FileTree (List Char) UInt8 → List (Life K M) → Option (List Record × FileTree (List Char) UInt8)
  | tree, [] => some ([], tree)
  | tree, life :: rest => do
    let (record, tree) ← life.run json cache tree
    let (records, tree) ← lives json cache tree rest
    return (record :: records, tree)

/-- The tasks have handlers of their keys. -/
def Comes (cache : DiskCache) : Event Choice World (Task K M) → Prop
  | .spawn t => t.Of cache
  | .call _ _ => True
  | .crash => False
  | .outside _ => False

instance (cache : DiskCache) : (ev : Event Choice World (Task K M)) → Decidable (Comes cache ev)
  | .spawn t => inferInstanceAs (Decidable (t.Of cache))
  | .call _ _ => isTrue trivial
  | .crash => isFalse id
  | .outside _ => isFalse id

/-- The state file is read and written without an error of the disk. The tasks are free to
fail. -/
structure Life.Fair (cache : DiskCache) (life : Life K M) : Prop where
  fetch : Calm life.fetch
  comes : ∀ ev ∈ life.evs, Comes cache ev
  store : ∀ s, life.ending = some s → Calm s.store

/-! ## What the state file says -/

/-- The size that the state file tells, or none where there is no such file, or it does not
read. -/
def told (json : SerdeJson) (cache : DiskCache) (tree : FileTree (List Char) UInt8) : Int :=
  match (tree.content (state_path cache.root)).bind json.from_reader with
  | some stats => as_i64 stats.size_bytes_current
  | none => 0

/-- The size that the next process starts with: what a clean one has come to, and after a crash
what there was before. -/
def Record.next (size : Int) (r : Record) : Int :=
  if r.clean then as_i64 (size + (r.created - r.evicted)) else size

variable {json : SerdeJson} {cache : DiskCache} {tree tree' : FileTree (List Char) UInt8}
  {life : Life K M} {r : Record}

theorem told_congr (h : tree'.content (state_path cache.root) =
    tree.content (state_path cache.root)) : told json cache tree' = told json cache tree := by
  unfold told
  rw [h]

theorem told_of_content {text : Bytes} {stats : CacheStatistics}
    (h : tree.content (state_path cache.root) = some text)
    (hread : json.from_reader text = some stats) :
    told json cache tree = as_i64 stats.size_bytes_current := by
  unfold told
  rw [h, Option.bind_some, hread]

/-- A new process starts with what the state file tells, and changes no file. -/
theorem new_spec {c : Choice} (hc : Calm c) (w : World) :
    Program.run answer (DiskCache.new json cache.root) [c] w =
      some ((cache, .new (told json cache w.tree)), w) := by
  have hfault : c.fault = none := hc
  unfold DiskCache.new fetch_cache_state fs.read io.call told
  simp only [perform, Bind.bind, Program.bind, Program.run, answer, Choice.guard, hfault]
  cases w.tree.content (state_path cache.root) with
  | none => rfl
  | some text =>
    cases hread : json.from_reader text with
    | none => simp only [pure, Program.bind, Program.run, Option.bind, hread]
    | some stats => simp only [pure, Program.bind, Program.run, Option.bind, hread]

theorem content_write {c : Choice} (hc : Calm c) {w : World} {q : PathBuf}
    (hcan : w.tree.CanCreate q) (text : Bytes) :
    (answer (.write q text) c w).2.tree.content q = some text := by
  have hfault : c.fault = none := hc
  have hcontent := content_put hcan text q
  rw [if_pos rfl] at hcontent
  simp only [answer, hfault, if_pos hcan]
  exact hcontent

/-- The service, when it makes all of its three calls, stores the size as it is. -/
theorem start_spec (hjson : json.RoundTrip) {start_time max_bytes : Int} {c c' c'' : Choice}
    (hc : Calm c'') {w w' : World} (hcan : w.tree.CanCreate (state_path cache.root))
    (hr : Program.run alone (start json cache start_time max_bytes) [c, c', c''] w =
      some (some (), w')) : told json cache w'.tree = as_i64 w.metrics.size_bytes := by
  unfold start at hr
  simp only [perform, Bind.bind, Program.bind, Program.run] at hr
  by_cases hnow : (alone (.io (0, .now)) c w).1 < start_time
  · rw [if_pos hnow] at hr
    cases hr
  · rw [if_neg hnow] at hr
    simp only [Program.run] at hr
    split at hr
    · rename_i text htext
      cases hr
      have hcontent : (alone (.io (0, .write (state_path cache.root) text)) c'' w).2.tree.content
          (state_path cache.root) = some text := content_write hc hcan text
      have hread := hjson _ _ htext
      refine (told_of_content hcontent hread).trans ?_
      exact (as_i64_as_u64 _).trans (as_i64_as_i64 _)
    · cases hr

/-- What stands in the state file is the same before and after the tasks of a process. -/
theorem content_of_tasks {w : World} {evs : List (Event Choice World (Task K M))} {p : BookPool M}
    (hevs : ∀ ev ∈ evs, Comes cache ev)
    (hr : (books_system K M cache).run ⟨[], w, ()⟩ evs = some p) :
    p.state.tree.content (state_path cache.root) = w.tree.content (state_path cache.root) := by
  have hsame : System.SamePoint (⟨[], w, ()⟩ : BookPool M) (⟨[], w, ()⟩ : HolderPool M) :=
    ⟨rfl, rfl⟩
  obtain ⟨q, hq, hstate, -⟩ := System.run_renote (books_system K M cache)
    (holders_system K M cache) rfl (fun _ => rfl) hsame hr
  have hP : (holders_system K M cache).Along (OnlyTasks cache) ⟨[], w, ()⟩ evs := by
    apply System.along_of_forall
    intro q ev hev
    have hcomes := hevs ev hev
    cases ev with
    | spawn t => exact hcomes
    | call i c => trivial
    | crash => exact absurd hcomes id
    | outside s => exact absurd hcomes id
  rw [← hstate]
  exact (outside_untouched (state_path_outside cache) hP hq).content

/-- The size that the tasks of a process come to. -/
theorem size_of_tasks {w : World} {evs : List (Event Choice World (Task K M))} {p : BookPool M}
    (hevs : ∀ ev ∈ evs, Comes cache ev)
    (hr : (books_system K M cache).run ⟨[], w, ()⟩ evs = some p) (hidle : Idle p) :
    p.state.metrics.size_bytes = w.metrics.size_bytes + created_bytes p -
      (p.state.metrics.counter .evicted_bytes - w.metrics.counter .evicted_bytes) := by
  have hP : (books_system K M cache).Along Working ⟨[], w, ()⟩ evs := by
    apply System.along_of_forall
    intro q ev hev
    have hcomes := hevs ev hev
    cases ev with
    | spawn t => trivial
    | call i c => trivial
    | crash => exact absurd hcomes id
    | outside s => exact absurd hcomes id
  obtain ⟨ho, hposted⟩ := (books_invariant cache w).run (p := ⟨[], w, ()⟩)
    (fun x hx => absurd hx List.not_mem_nil) (posted_start w) hP hr
  exact hposted.balance ho hidle

/-- A process starts with what the state file tells, and its tasks leave the file as it is. -/
theorem work_spec (hfair : life.Fair cache) {size : Int} {p : BookPool M}
    (hr : life.work json cache tree = some (size, p)) :
    size = told json cache tree ∧
    p.state.tree.content (state_path cache.root) = tree.content (state_path cache.root) ∧
    (Idle p → p.state.metrics.size_bytes =
      size + (created_bytes p - p.state.metrics.counter .evicted_bytes)) := by
  unfold Life.work at hr
  rw [new_spec hfair.fetch] at hr
  simp only [Option.bind_eq_bind, Option.bind_some] at hr
  obtain ⟨q, hq, hr⟩ := Option.bind_eq_some_iff.mp hr
  cases hr
  refine ⟨rfl, content_of_tasks hfair.comes hq, fun hidle => ?_⟩
  rw [size_of_tasks hfair.comes hq hidle]
  -- the metrics of a new process begin at zero
  simp only [World.setMetrics, CacheMetrics.new, booting]
  omega

/-- A process leaves what the state file tells as it was, or with its size. -/
theorem life_spec (hjson : json.RoundTrip) (hfair : life.Fair cache)
    (hr : life.run json cache tree = some (r, tree')) :
    r.start = told json cache tree ∧ told json cache tree' = r.next (told json cache tree) ∧
    ∃ size p, life.work json cache tree = some (size, p) ∧
      p.state.tree.content (state_path cache.root) = tree.content (state_path cache.root) := by
  unfold Life.run at hr
  obtain ⟨⟨size, p⟩, hwork, hr⟩ := Option.bind_eq_some_iff.mp hr
  obtain ⟨rfl, hcontent, hsize⟩ := work_spec hfair hwork
  suffices hsuff : r.start = told json cache tree ∧
      told json cache tree' = r.next (told json cache tree) from
    ⟨hsuff.1, hsuff.2, _, p, hwork, hcontent⟩
  cases hending : life.ending with
  | none =>
    rw [hending] at hr
    cases hr
    exact ⟨rfl, told_congr hcontent⟩
  | some s =>
    rw [hending] at hr
    simp only at hr
    by_cases hstop : Idle p ∧ p.state.tree.CanCreate (state_path cache.root)
    · rw [if_pos hstop] at hr
      obtain ⟨⟨returned, w⟩, hstart, hr⟩ := Option.bind_eq_some_iff.mp hr
      cases returned with
      | none => cases hr
      | some u =>
        cases hr
        refine ⟨rfl, ?_⟩
        rw [start_spec hjson (hfair.store s hending) hstop.2 hstart, hsize hstop.1]
        rfl
    · rw [if_neg hstop] at hr
      cases hr

/-! ## All processes -/

/-- Over any number of processes, whatever their tasks do and in whatever order, whichever calls
of these fail, and whether a process is shut down or crashes: each starts with the size that was
there at first, with what every process before it that was shut down has created and without what
it evicted. Of the processes that crashed nothing is counted, and no task of any of them changes
the state file. -/
theorem a_process_starts_with_what_clean_ones_left (json : SerdeJson) (hjson : json.RoundTrip)
    (cache : DiskCache) (tree tree' : FileTree (List Char) UInt8) (ls : List (Life K M))
    (hfair : ∀ life ∈ ls, life.Fair cache) (records : List Record)
    (hr : lives json cache tree ls = some (records, tree')) :
    (∀ before r after, records = before ++ r :: after →
      r.start = before.foldl Record.next (told json cache tree)) ∧
    told json cache tree' = records.foldl Record.next (told json cache tree) ∧
    ∀ before life after, ls = before ++ life :: after → ∃ rs t size p,
      lives json cache tree before = some (rs, t) ∧ life.work json cache t = some (size, p) ∧
      p.state.tree.content (state_path cache.root) = t.content (state_path cache.root) := by
  induction ls generalizing tree records with
  | nil =>
    cases hr
    refine ⟨fun before r after h => ?_, rfl, fun before life after h => ?_⟩
    · exact absurd h (by simp)
    · exact absurd h (by simp)
  | cons life ls ih =>
    unfold lives at hr
    obtain ⟨⟨r, tree1⟩, hlife, hr⟩ := Option.bind_eq_some_iff.mp hr
    obtain ⟨⟨rest, tree2⟩, hrest, hr⟩ := Option.bind_eq_some_iff.mp hr
    cases hr
    obtain ⟨hstart, hnext, hkept⟩ := life_spec hjson (hfair life List.mem_cons_self) hlife
    obtain ⟨hall, hlast, hkeep⟩ :=
      ih tree1 (fun x hx => hfair x (List.mem_cons_of_mem _ hx)) rest hrest
    rw [hnext] at hall hlast
    refine ⟨fun before r' after h => ?_, hlast, fun before life' after h => ?_⟩
    · cases before with
      | nil =>
        cases h
        exact hstart
      | cons r0 before =>
        cases h
        exact hall before r' after rfl
    · cases before with
      | nil =>
        cases h
        obtain ⟨size, p, hwork, hcontent⟩ := hkept
        exact ⟨[], tree, size, p, rfl, hwork, hcontent⟩
      | cons life0 before =>
        cases h
        obtain ⟨rs, t, size, p, hlives, hwork, hcontent⟩ := hkeep before life' after rfl
        refine ⟨r :: rs, t, size, p, ?_, hwork, hcontent⟩
        unfold lives
        rw [hlife, Option.bind_eq_bind, Option.bind_some]
        simp only
        rw [hlives]
        rfl

end

/-! ## A crash between two starts -/

/-- Statistics of a small server, of which only the size is written. -/
def size_json : SerdeJson where
  to_string_pretty stats :=
    if stats = ⟨small_cache.root, 0, 0, stats.size_bytes_current, 0⟩ ∧
      stats.size_bytes_current < 256 then some [stats.size_bytes_current.toUInt8]
    else none
  from_reader
    | [b] => some ⟨small_cache.root, 0, 0, b.toNat, 0⟩
    | _ => none

theorem size_json_round_trip : size_json.RoundTrip := by
  intro stats text h
  unfold size_json at h ⊢
  simp only at h
  by_cases hstats : stats = ⟨small_cache.root, 0, 0, stats.size_bytes_current, 0⟩ ∧
      stats.size_bytes_current < 256
  · rw [if_pos hstats] at h
    cases h
    have hsize : stats.size_bytes_current.toUInt8.toNat = stats.size_bytes_current := by
      rw [UInt8.toNat_ofNat']
      exact Nat.mod_eq_of_lt hstats.2
    simp only [hsize]
    exact congrArg some hstats.1.symm
  · rw [if_neg hstats] at h
    cases h

/-- A finish puts a body of one byte in place, and the process is shut down. -/
def insert_and_stop : Life CombinedHash operations.Note where
  pid := 1
  fetch := plain
  evs := [.spawn (.finish small_hash (small_handler [9] 1))] ++ Event.calls 0 7 plain
  ending := some ⟨0, 0, plain, plain, plain⟩

/-- The object is purged, and the process crashes. -/
def purge_and_crash : Life CombinedHash operations.Note where
  pid := 2
  fetch := plain
  evs := [.spawn (.purge small_hash .Invalidation)] ++ Event.calls 0 9 plain
  ending := none

def three_lives : List (Life CombinedHash operations.Note) :=
  [insert_and_stop, purge_and_crash, ⟨3, plain, [], none⟩]

theorem three_lives_fair : ∀ life ∈ three_lives, life.Fair small_cache := by
  intro life hlife
  simp only [three_lives, List.mem_cons, List.not_mem_nil, or_false] at hlife
  rcases hlife with rfl | rfl | rfl
  · refine ⟨rfl, by decide, fun s hs => ?_⟩
    cases hs
    rfl
  · exact ⟨rfl, by decide, fun s hs => by cases hs⟩
  · exact ⟨rfl, by decide, fun s hs => by cases hs⟩

/-- The third process starts with the byte that the second one has evicted. -/
theorem a_crash_forgets_what_was_evicted : ∃ records tree' r,
    lives size_json small_cache rewriting.2.tree three_lives = some (records, tree') ∧
    records = [⟨0, 1, 0, true⟩, ⟨1, 0, 1, false⟩] ++ r :: [] ∧ r.start = 1 := by
  have hsome : (lives size_json small_cache rewriting.2.tree three_lives).map Prod.fst =
      some [⟨0, 1, 0, true⟩, ⟨1, 0, 1, false⟩, ⟨1, 0, 0, false⟩] := by decide +kernel
  obtain ⟨⟨records, tree'⟩, hrun, hrecords⟩ := Option.map_eq_some_iff.mp hsome
  obtain ⟨hstarts, -, -⟩ := a_process_starts_with_what_clean_ones_left size_json size_json_round_trip
    small_cache rewriting.2.tree tree' three_lives three_lives_fair records hrun
  have hstart := hstarts [⟨0, 1, 0, true⟩, ⟨1, 0, 1, false⟩] ⟨1, 0, 0, false⟩ [] hrecords
  exact ⟨records, tree', _, hrun, hrecords, hstart.trans (by decide +kernel)⟩

end edge_cdn_store.lifetimes
