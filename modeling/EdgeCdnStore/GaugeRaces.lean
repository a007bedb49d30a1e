-- The gauge under operations that run at the same time and may fail. A purge takes
-- off the length of a body when it has removed it, and a finish adds its bytes
-- long after its body is there. A ledger of the bytes that were counted for each
-- body says which purges take off no more than what was added.
import EdgeCdnStore.SizeGauge
import EdgeCdnStore.Tasks

open edge_cdn_store.programs edge_cdn_store.programs.Program edge_cdn_store.io
open edge_cdn_store.file_tree edge_cdn_store.file_tree.FileTree
open edge_cdn_store.disk_cache edge_cdn_store.pools edge_cdn_store.tasks
open edge_cdn_store.operations edge_cdn_store.size_gauge

namespace edge_cdn_store.gauge_races

variable {K M : Type} [CacheHashKey K] [CacheMeta M]

/-! ## The ledger -/

/-- For each key, the bytes that the gauge was given for the body that stands now, and the
task that put it there. -/
structure Ledger where
  counted : CombinedHash → Nat
  publisher : CombinedHash → Option Nat

namespace Ledger

/-- The bodies that stand at the start are counted. -/
def start (cache : DiskCache) (w : World) : Ledger :=
  ⟨fun hash => w.tree.size (cache.body hash), fun _ => none⟩

/-- A new body, of which nothing is counted yet, or no body any more. -/
def publish (h : Ledger) (hash : CombinedHash) (i : Option Nat) : Ledger :=
  ⟨Function.update h.counted hash 0, Function.update h.publisher hash i⟩

/-- A task adds to the gauge. The bytes are for its own body, if that one still stands. -/
def count (h : Ledger) (hash : CombinedHash) (i n : Nat) : Ledger :=
  if h.publisher hash = some i then
    { h with counted := Function.update h.counted hash (h.counted hash + n) }
  else h

def record (cache : DiskCache) (i : Nat) (n : TaskNote) (e : Io) (r : e.Reply) (_ _ : World)
    (h : Ledger) : Ledger :=
  match e, r with
  | .rename _ q, .ok _ => if q = cache.body n.hash then h.publish n.hash (some i) else h
  | .create_file p, .ok _ => if p = cache.body n.hash then h.publish n.hash (some i) else h
  | .remove_file p, .ok _ => if p = cache.body n.hash then h.publish n.hash none else h
  | .size_bytes_add k, _ => h.count n.hash i k.toNat
  | _, _ => h

end Ledger

abbrev gauge_system (K M : Type) [CacheHashKey K] [CacheMeta M] (cache : DiskCache) :
    System Io Io.Reply Choice World (Outcome M) TaskNote Ledger (Task K M) :=
  tasks_system cache (Ledger.record cache)

abbrev GaugePool (M : Type) := Pool Io Io.Reply (Outcome M) TaskNote World Ledger

/-- A disk and a gauge, and no task yet. -/
def idle_pool (M : Type) (cache : DiskCache) (w : World) : GaugePool M :=
  ⟨[], w, .start cache w⟩

/-- `size_bytes.get() as u64`, as the stats page and the persisted statistics have it. -/
def size_bytes_as_u64 (w : World) : Nat := (w.metrics.size_bytes % 2 ^ 64).toNat

/-- Tasks come at any time and make their calls in any order, and any call may fail. -/
def AnyOrder (cache : DiskCache) (_ : GaugePool M) : Event Choice World (Task K M) → Prop
  | .spawn t => t.Of cache
  | .call _ _ => True
  | .crash => False
  | .outside _ => False

instance (cache : DiskCache) (p : GaugePool M) :
    (ev : Event Choice World (Task K M)) → Decidable (AnyOrder cache p ev)
  | .spawn t => inferInstanceAs (Decidable (t.Of cache))
  | .call _ _ => isTrue trivial
  | .crash => isFalse id
  | .outside _ => isFalse id

/-- The removal of a body by a purge, where it succeeds, is of one for which at least the
length that the purge has read was counted. -/
def within_count (h : Ledger) (w : World) (c : Choice) : Option (Io × TaskNote) → Bool
  | some (.remove_file q, ⟨hash, .purge (.before len)⟩) =>
    !(answer (.remove_file q) c w).1.isOk || len ≤ h.counted hash
  | _ => true

/-- A purge takes off no more than what was counted for the body that it removes. -/
def TakesOffCounted (p : GaugePool M) : Event Choice World (Task K M) → Prop
  | .call i c => within_count p.history p.state c (p.next_call i) = true
  | _ => True

instance (p : GaugePool M) :
    (ev : Event Choice World (Task K M)) → Decidable (TakesOffCounted p ev)
  | .spawn _ => isTrue trivial
  | .call _ _ => inferInstanceAs (Decidable (_ = _))
  | .crash => isTrue trivial
  | .outside _ => isTrue trivial

/-! ## The gauge covers the ledger -/

/-- What a purge still has to take off for the body that it has removed. -/
def owed (n : TaskNote) : Int :=
  match n.phase with
  | .purge (.paying len) => len
  | _ => 0

/-- The gauge covers what was counted for any bodies, and what is still to be taken off. -/
def Covered (ns : List TaskNote) (w : World) (h : Ledger) : Prop :=
  ∀ s : Finset CombinedHash,
    ∑ x ∈ s, (h.counted x : Int) + (ns.map owed).sum ≤ w.metrics.size_bytes

variable {cache : DiskCache} {w : World} {h : Ledger} {ns : List TaskNote} {hash : CombinedHash}

theorem sum_owed_set {i : Nat} {n : TaskNote} (hi : ns[i]? = some n) (n' : TaskNote) :
    ((ns.set i n').map owed).sum = (ns.map owed).sum - owed n + owed n' := by
  have := sum_map_set owed hi n'
  omega

/-- A sum over some keys changes by what one key gains, when that key is among them. -/
theorem sum_counted_update (s : Finset CombinedHash) (f : CombinedHash → Nat)
    (hash : CombinedHash) (k : Nat) (hmem : hash ∈ s) :
    ∑ x ∈ s, (Function.update f hash k x : Int) = ∑ x ∈ s, (f x : Int) - f hash + k := by
  rw [← Finset.add_sum_erase _ _ hmem, ← Finset.add_sum_erase _ (fun x => (f x : Int)) hmem]
  have hrest : ∑ x ∈ s.erase hash, (Function.update f hash k x : Int) =
      ∑ x ∈ s.erase hash, (f x : Int) := by
    refine Finset.sum_congr rfl fun x hx => ?_
    rw [Function.update_of_ne (Finset.ne_of_mem_erase hx)]
  rw [hrest, Function.update_self]
  omega

/-- Where a key is not among them, nothing changes. -/
theorem sum_counted_update_of_not_mem (s : Finset CombinedHash) (f : CombinedHash → Nat)
    (hash : CombinedHash) (k : Nat) (hmem : hash ∉ s) :
    ∑ x ∈ s, (Function.update f hash k x : Int) = ∑ x ∈ s, (f x : Int) := by
  refine Finset.sum_congr rfl fun x hx => ?_
  rw [Function.update_of_ne (by rintro rfl; exact hmem hx)]

/-- The bodies on disk cover those of some keys. -/
theorem sum_bodies_le (cache : DiskCache) (w : World) (s : Finset CombinedHash) :
    ∑ x ∈ s, (w.tree.size (cache.body x) : Int) ≤ bodies_len cache w := by
  have hinj : Function.Injective cache.body := fun x y hxy => by
    rw [DiskCache.body_eq, DiskCache.body_eq, DiskCache.entry_inj] at hxy
    exact hxy.1
  rw [bodies_len, total_eq_sum w.tree (is_body cache) (w.tree.nodes.keys ∪ s.image cache.body)
    Finset.subset_union_left, ← Nat.cast_sum, Nat.cast_le]
  rw [← Finset.sum_image (f := fun q => w.tree.size q) (fun x _ y _ hxy => hinj hxy)]
  refine Finset.sum_le_sum_of_subset fun q hq => ?_
  obtain ⟨x, _, rfl⟩ := Finset.mem_image.mp hq
  exact Finset.mem_filter.mpr ⟨Finset.mem_union_right _ hq, (is_body_iff cache _).mpr ⟨x, rfl⟩⟩

theorem covered_start (hacc : Accurate cache w) : Covered [] w (.start cache w) := by
  intro s
  have := sum_bodies_le cache w s
  unfold Accurate at hacc
  simp only [Ledger.start, List.map_nil, List.sum_nil]
  omega

/-- The other calls leave the gauge alone, whether they fail or not. -/
theorem gauge_of_gaugeFree {e : Io} (he : GaugeFree e) (c : Choice) (w : World) :
    (answer e c w).2.metrics.size_bytes = w.metrics.size_bytes := by
  cases e
  case size_bytes_add => exact absurd he id
  case size_bytes_sub => exact absurd he id
  all_goals
    simp only [answer, Choice.guard]
    repeat' split
    all_goals rfl

/-! ## One call -/

/-- A call that leaves the gauge alone and what is owed, and counts for no body, is covered. -/
theorem Covered.of_le {w' : World} {h' : Ledger} {ns' : List TaskNote} (hc : Covered ns w h)
    (hg : w'.metrics.size_bytes = w.metrics.size_bytes)
    (ho : (ns'.map owed).sum = (ns.map owed).sum) (hh : ∀ x, h'.counted x ≤ h.counted x) :
    Covered ns' w' h' := by
  intro s
  have hle : ∑ x ∈ s, (h'.counted x : Int) ≤ ∑ x ∈ s, (h.counted x : Int) :=
    Finset.sum_le_sum fun x _ => Int.ofNat_le.mpr (hh x)
  have := hc s
  omega

theorem publish_le (h : Ledger) (hash : CombinedHash) (i : Option Nat) (x : CombinedHash) :
    (h.publish hash i).counted x ≤ h.counted x := by
  unfold Ledger.publish
  by_cases hx : x = hash
  · subst hx
    simp
  · simp [Function.update_of_ne hx]

/-- Without the gauge calls the ledger counts no more than before. -/
theorem record_le {e : Io} (he : GaugeFree e) (i : Nat) (n : TaskNote) (r : e.Reply)
    (w w' : World) (h : Ledger) (x : CombinedHash) :
    (h.record cache i n e r w w').counted x ≤ h.counted x := by
  unfold Ledger.record
  split
  · split
    · exact publish_le h _ _ x
    · exact Nat.le_refl _
  · split
    · exact publish_le h _ _ x
    · exact Nat.le_refl _
  · split
    · exact publish_le h _ _ x
    · exact Nat.le_refl _
  · exact absurd he id
  · exact Nat.le_refl _

/-- A finish adds to the gauge what it counts for its body, if that still stands. -/
theorem Covered.add {i k : Nat} {w' : World} {ns' : List TaskNote} (hc : Covered ns w h)
    (hg : w'.metrics.size_bytes = w.metrics.size_bytes + k)
    (ho : (ns'.map owed).sum = (ns.map owed).sum) : Covered ns' w' (h.count hash i k) := by
  intro s
  have := hc s
  unfold Ledger.count
  by_cases hp : h.publisher hash = some i
  · simp only [if_pos hp]
    by_cases hmem : hash ∈ s
    · rw [sum_counted_update s h.counted hash _ hmem]
      push_cast
      omega
    · rw [sum_counted_update_of_not_mem s h.counted hash _ hmem]
      omega
  · simp only [if_neg hp]
    omega

/-- A purge owes what it has read, once it has removed a body for which that was counted. -/
theorem Covered.remove {len : Nat} {w' : World} {ns' : List TaskNote} (hc : Covered ns w h)
    (hlen : len ≤ h.counted hash) (hg : w'.metrics.size_bytes = w.metrics.size_bytes)
    (ho : (ns'.map owed).sum = (ns.map owed).sum + len) :
    Covered ns' w' (h.publish hash none) := by
  intro s
  -- the key is taken in, so that what it loses is there to be owed
  have := hc (insert hash s)
  have hin : ∑ x ∈ insert hash s, ((h.publish hash none).counted x : Int) =
      ∑ x ∈ insert hash s, (h.counted x : Int) - h.counted hash + (0 : Nat) :=
    sum_counted_update _ h.counted hash 0 (Finset.mem_insert_self _ _)
  have hsub : ∑ x ∈ s, ((h.publish hash none).counted x : Int) ≤
      ∑ x ∈ insert hash s, ((h.publish hash none).counted x : Int) :=
    Finset.sum_le_sum_of_subset_of_nonneg (Finset.subset_insert _ _)
      fun x _ _ => Int.natCast_nonneg _
  push_cast at hin
  omega

/-- A purge takes off what it owes. -/
theorem Covered.pay {w' : World} {ns' : List TaskNote} (hc : Covered ns w h) (len : Nat)
    (hg : w'.metrics.size_bytes = w.metrics.size_bytes - len)
    (ho : (ns'.map owed).sum = (ns.map owed).sum - len) : Covered ns' w' h := by
  intro s
  have := hc s
  omega

/-- What a task owes changes at a call that leaves the gauge alone only where a purge removes
its body. -/
theorem owed_next (cache : DiskCache) (n : TaskNote) {e : Io} (he : GaugeFree e) (r : e.Reply) :
    owed (n.next cache e r) = owed n ∨
      ∃ hash len q, n = ⟨hash, .purge (.before len)⟩ ∧ e = .remove_file q := by
  obtain ⟨hash, phase⟩ := n
  cases phase with
  | purge stage =>
    cases stage with
    | before len =>
      cases e
      case remove_file q => exact Or.inr ⟨hash, len, q, rfl, rfl⟩
      case metadata q =>
        cases r <;> exact Or.inl rfl
      all_goals exact Or.inl rfl
    | paying len =>
      cases e
      case size_bytes_sub k => exact absurd he id
      all_goals exact Or.inl rfl
    | body_gone => cases e <;> exact Or.inl rfl
    | meta_gone => cases e <;> exact Or.inl rfl
    | ended => cases e <;> exact Or.inl rfl
  | lookup asked mi mh file =>
    cases e
    case read q =>
      simp only [TaskNote.next, lookup_next]
      split <;> exact Or.inl rfl
    all_goals exact Or.inl rfl
  | finish m stage => exact Or.inl rfl
  | update_meta mi mh stage => exact Or.inl rfl
  | idle => exact Or.inl rfl

/-- The calls on the gauge, and the tasks that make them. -/
theorem gauge_call {n : TaskNote} {e : Io} (he : ¬ GaugeFree e) (ha : n.allows cache e) :
    (∃ hash m, n = ⟨hash, .finish m .counting⟩ ∧ e = .size_bytes_add m.tmp_bytes_written) ∨
      ∃ hash len, n = ⟨hash, .purge (.paying len)⟩ ∧ e = .size_bytes_sub len := by
  obtain ⟨hash, phase⟩ := n
  cases e
  case size_bytes_add k =>
    cases phase with
    | finish m stage =>
      cases stage
      case counting => exact Or.inl ⟨hash, m, rfl, congrArg _ ha⟩
      all_goals exact absurd ha id
    | purge stage => cases stage <;> exact absurd ha id
    | update_meta mi mh stage => cases stage <;> exact absurd ha id
    | lookup asked mi mh file => exact absurd ha id
    | idle => exact absurd ha id
  case size_bytes_sub k =>
    cases phase with
    | finish m stage => cases stage <;> exact absurd ha id
    | purge stage =>
      cases stage
      case paying len => exact Or.inr ⟨hash, len, rfl, congrArg _ ha⟩
      all_goals exact absurd ha id
    | update_meta mi mh stage => cases stage <;> exact absurd ha id
    | lookup asked mi mh file => exact absurd ha id
    | idle => exact absurd ha id
  all_goals exact absurd trivial he

/-! ## Whole runs -/

/-- What the gauge covers, it covers after every event. -/
theorem covered_invariant (cache : DiskCache) :
    (gauge_system K M cache).Invariant (TaskNote.allows cache) Ends
      (fun p ev => AnyOrder cache p ev ∧ TakesOffCounted p ev) Covered where
  start _ t _ := task_obeys cache t
  spawn p t _ _ hc := by
    have hzero : owed t.note = 0 := by
      cases t
      case update_meta key cache_meta =>
        simp only [Task.note]
        split <;> rfl
      all_goals rfl
    refine hc.of_le rfl ?_ fun _ => Nat.le_refl _
    simp only [gauge_system, tasks_system, List.map_append, List.sum_append, List.map_cons,
      List.map_nil, List.sum_cons, List.sum_nil, hzero]
    omega
  call p i c e k n hP hi ha hc := by
    have hn := Pool.notes_getElem? hi
    have hset := sum_owed_set hn
    by_cases he : GaugeFree e
    · have hg := gauge_of_gaugeFree he c p.state
      rcases owed_next cache n he (answer e c p.state).1 with hsame | hpurge
      · refine hc.of_le hg ?_ fun x => record_le he i n _ p.state (answer e c p.state).2 _ x
        rw [hset]
        change _ - _ + owed (n.next cache e (answer e c p.state).1) = _
        omega
      · obtain ⟨hash, len, q, rfl, rfl⟩ := hpurge
        have htakes := hP.2
        simp only [TakesOffCounted, Pool.next_call, hi, within_count] at htakes
        obtain rfl : q = cache.body hash := ha
        cases hr : (answer (.remove_file (cache.body hash)) c p.state).1 with
        | error x =>
          simp only [gauge_system, tasks_system, hr]
          refine hc.of_le hg ?_ fun x => Nat.le_refl _
          rw [hset]
          change _ - (0 : Int) + 0 = _
          omega
        | ok x =>
          have hlen : len ≤ p.history.counted hash := by
            simpa [hr, Except.isOk, Except.toBool] using htakes
          simp only [gauge_system, tasks_system, hr, Ledger.record, if_true]
          refine hc.remove hlen hg ?_
          rw [hset]
          simp [owed, TaskNote.next, PurgeStage.next]
    · rcases gauge_call he ha with ⟨hash, m, rfl, rfl⟩ | ⟨hash, len, rfl, rfl⟩
      · refine Covered.add (k := m.tmp_bytes_written) hc rfl ?_
        rw [hset]
        change _ - (0 : Int) + 0 = _
        omega
      · refine hc.pay len rfl ?_
        rw [hset]
        simp [owed, gauge_system, tasks_system, TaskNote.next, PurgeStage.next]
  crash _ hP := absurd hP.1 id
  outside _ _ hP := absurd hP.1 id

/-- In every run of misses and purges, over any keys, in any order and with any failures, in
which each purge takes off no more than what was counted for the body that it removes, the
gauge stays at zero or above, and its cast does not wrap. -/
theorem the_gauge_stays_above_zero_where_purges_take_off_what_was_counted (cache : DiskCache)
    (w : World) (hacc : Accurate cache w) (evs : List (Event Choice World (Task K M)))
    (p : GaugePool M)
    (hP : (gauge_system K M cache).Along
      (fun p ev => AnyOrder cache p ev ∧ TakesOffCounted p ev) (idle_pool M cache w) evs)
    (hr : (gauge_system K M cache).run (idle_pool M cache w) evs = some p) :
    0 ≤ p.state.metrics.size_bytes ∧
    (p.state.metrics.size_bytes < 2 ^ 63 →
      (size_bytes_as_u64 p.state : Int) = p.state.metrics.size_bytes) := by
  have hrun := (covered_invariant cache).run (p := idle_pool M cache w)
    (fun x hx => absurd hx List.not_mem_nil) (covered_start hacc) hP hr
  have hcov := hrun.2 ∅
  have howed : 0 ≤ (p.notes.map owed).sum := by
    refine List.sum_nonneg fun x hx => ?_
    obtain ⟨n, _, rfl⟩ := List.mem_map.mp hx
    unfold owed
    split <;> simp
  rw [Finset.sum_empty] at hcov
  have hpos : 0 ≤ p.state.metrics.size_bytes := by omega
  refine ⟨hpos, fun hlt => ?_⟩
  unfold size_bytes_as_u64
  omega

/-! ## A purge that comes before the count -/

/-- One miss, whose finish has put the body in place and no more. -/
def half_finished : List (Event Choice World (Task CombinedHash Note)) :=
  [.spawn (.get_miss_handler small_hash ⟨[7]⟩)] ++ Event.calls 0 6 plain ++
    [.spawn (.write_body small_hash (small_handler [7] 0) [3] true)] ++
    Event.calls 1 3 plain ++ [.spawn (.finish small_hash (small_handler [7] 1))] ++ Event.calls 2 2 plain

/-- The rest of the finish, and then a purge. -/
def purged_after : List (Event Choice World (Task CombinedHash Note)) :=
  half_finished ++ Event.calls 2 5 plain ++ [.spawn (.purge small_hash .Eviction)] ++ Event.calls 3 9 plain

theorem a_purge_after_the_count_keeps_the_gauge :
    ∃ p, (gauge_system CombinedHash Note small_cache).run (idle_pool Note small_cache empty_world)
        purged_after = some p ∧
      0 ≤ p.state.metrics.size_bytes ∧ (p.state.metrics.size_bytes < 2 ^ 63 →
        (size_bytes_as_u64 p.state : Int) = p.state.metrics.size_bytes) := by
  obtain ⟨p, hp⟩ := Option.isSome_iff_exists.mp (by decide +kernel :
    ((gauge_system CombinedHash Note small_cache).run (idle_pool Note small_cache empty_world)
      purged_after).isSome)
  exact ⟨p, hp, the_gauge_stays_above_zero_where_purges_take_off_what_was_counted small_cache
    empty_world (by decide) purged_after p (by decide +kernel) hp⟩

/-- A purge in the middle of the finish. -/
def purged_before : List (Event Choice World (Task CombinedHash Note)) :=
  half_finished ++ [.spawn (.purge small_hash .Eviction)] ++ Event.calls 3 6 plain

theorem a_purge_before_the_count_takes_the_gauge_below_zero :
    Accurate small_cache empty_world ∧
    (gauge_system CombinedHash Note small_cache).Along (AnyOrder small_cache)
      (idle_pool Note small_cache empty_world) purged_before ∧
    ((gauge_system CombinedHash Note small_cache).run (idle_pool Note small_cache empty_world)
      purged_before).map (fun p => (p.state.metrics.size_bytes, size_bytes_as_u64 p.state)) =
        some (-1, 18446744073709551615) := by
  refine ⟨by decide, by decide +kernel, by decide +kernel⟩

end edge_cdn_store.gauge_races
