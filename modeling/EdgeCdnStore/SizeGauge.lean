-- The gauge `size_bytes` beside the bodies on disk. A purge takes off what it
-- removes, and a finish adds what it wrote, but a finish that replaces a body
-- takes off nothing for it. The difference between the gauge and the disk is
-- the length of all the bodies that were replaced.
import EdgeCdnStore.DiskSpecs
import EdgeCdnStore.Operations

open edge_cdn_store.programs edge_cdn_store.programs.Program edge_cdn_store.io
open edge_cdn_store.file_tree edge_cdn_store.file_tree.FileTree
open edge_cdn_store.logger edge_cdn_store.disk_cache edge_cdn_store.tiered
open edge_cdn_store.operations

namespace edge_cdn_store.size_gauge

/-! ## The bodies on disk -/

/-- The path of a body: the directory of a combined hash, and the name in it. -/
def is_body (cache : DiskCache) (p : PathBuf) : Bool :=
  match p.dropLast.getLast? with
  | none => false
  | some text =>
    if h : 4 ≤ text.length ∧ text.all (fun c => c.isDigit || ('a' ≤ c && c ≤ 'f')) then
      decide (p = cache.body ⟨text, h.1, h.2⟩)
    else false

theorem is_body_iff (cache : DiskCache) (p : PathBuf) :
    is_body cache p = true ↔ ∃ hash, p = cache.body hash := by
  constructor
  · intro h
    unfold is_body at h
    split at h
    · cases h
    · split at h
      · exact ⟨_, of_decide_eq_true h⟩
      · cases h
  · rintro ⟨hash, rfl⟩
    have hlast : (cache.body hash).dropLast.getLast? = some hash.text := by
      rw [DiskCache.body_eq, DiskCache.dropLast_entry, DiskCache.dir]
      simp
    simp only [is_body, hlast, hash.long, true_and]
    rw [dif_pos hash.hex]
    simp

/-- The length of all body files on disk. -/
def bodies_len (cache : DiskCache) (w : World) : Nat := w.tree.total (is_body cache)

/-- The gauge is the length of all body files. -/
def Accurate (cache : DiskCache) (w : World) : Prop :=
  w.metrics.size_bytes = bodies_len cache w

instance (cache : DiskCache) (w : World) : Decidable (Accurate cache w) :=
  inferInstanceAs (Decidable (_ = _))

/-- How far the gauge is above the disk. -/
def drift (cache : DiskCache) (w : World) : Int := w.metrics.size_bytes - bodies_len cache w

theorem accurate_iff (cache : DiskCache) (w : World) : Accurate cache w ↔ drift cache w = 0 := by
  unfold Accurate drift
  omega

/-- The length of what stands at a path. -/
def len (C : Contents) (p : PathBuf) : Nat := ((C p).map List.length).getD 0

variable {cache : DiskCache} {w w' : World} {C : Contents} {g : Int} {hash : CombinedHash}

/-- When no body changes, the length of all of them stays. -/
theorem bodies_len_same
    (h : ∀ hash, w'.tree.content (cache.body hash) = w.tree.content (cache.body hash)) :
    bodies_len cache w' = bodies_len cache w := by
  refine total_congr _ _ _ fun q hq => ?_
  obtain ⟨hash, rfl⟩ := (is_body_iff cache q).mp hq
  rw [size, h hash]
  rfl

/-- When one body changes, the length of all of them changes by what that one gains. -/
theorem bodies_len_one (hash : CombinedHash)
    (h : ∀ hash', hash' ≠ hash →
      w'.tree.content (cache.body hash') = w.tree.content (cache.body hash')) :
    bodies_len cache w' + len w.tree.content (cache.body hash) =
      bodies_len cache w + len w'.tree.content (cache.body hash) := by
  refine total_change _ _ _ _ ((is_body_iff cache _).mpr ⟨hash, rfl⟩) fun q hq hne => ?_
  obtain ⟨hash', rfl⟩ := (is_body_iff cache q).mp hq
  have hh : hash' ≠ hash := fun he => hne (by rw [he])
  rw [size, h hash' hh]
  rfl

/-- When no body changes, the drift grows as the gauge does. -/
theorem drift_of_leads_same (l : Leads cache w w' C g)
    (h : ∀ hash, C (cache.body hash) = w.tree.content (cache.body hash)) :
    drift cache w' = drift cache w + g := by
  rw [← l.content] at h
  have := bodies_len_same h
  have := l.gauge
  unfold drift
  omega

/-- When one body changes, the drift grows as the gauge does, less what the body gains. -/
theorem drift_of_leads_one (hash : CombinedHash) (l : Leads cache w w' C g)
    (h : ∀ hash', hash' ≠ hash → C (cache.body hash') = w.tree.content (cache.body hash')) :
    drift cache w' =
      drift cache w + g + len w.tree.content (cache.body hash) - len C (cache.body hash) := by
  rw [← l.content] at h ⊢
  have := bodies_len_one hash h
  have := l.gauge
  unfold drift
  omega

/-! ## What a step does to the drift -/

/-- Reading a hit moves cursors and nothing else. -/
theorem read_body_keeps {Q : Result (Option Bytes) × DiskHitHandler → World → Prop}
    (hit : DiskHitHandler)
    (h : ∀ r w', w'.tree = w.tree → w'.metrics = w.metrics → Q r w') :
    wp answer Calm hit.read_body Q w := by
  have hchunk : ∀ (hit : DiskHitHandler) (w1 : World), w1.tree = w.tree →
      w1.metrics = w.metrics → wp answer Calm hit.read_chunk Q w1 := by
    intro hit w1 ht hm
    unfold DiskHitHandler.read_chunk
    split
    · exact h _ w1 ht hm
    · simp only [wp_bind]
      refine file_read_spec fun k => ?_
      simp only
      split
      · exact h _ _ ht hm
      · exact h _ _ ht hm
  unfold DiskHitHandler.read_body
  split
  · simp only [wp_bind]
    exact seek_spec (hchunk _ _ rfl rfl)
  · exact hchunk hit w rfl rfl

theorem read_to_end_keeps {Q : Result Bytes × DiskHitHandler → World → Prop} (n : Nat)
    (hit : DiskHitHandler)
    (h : ∀ r w', w'.tree = w.tree → w'.metrics = w.metrics → Q r w') :
    wp answer Calm (read_to_end n hit) Q w := by
  induction n generalizing hit w Q with
  | zero => exact h _ w rfl rfl
  | succ n ih =>
    simp only [read_to_end, wp_bind]
    refine read_body_keeps hit fun r w1 ht hm => ?_
    split
    · exact h _ w1 ht hm
    · exact h _ w1 ht hm
    · simp only [wp_bind]
      refine ih _ fun r' w2 ht' hm' => ?_
      split
      · exact h _ w2 (ht'.trans ht) (hm'.trans hm)
      · exact h _ w2 (ht'.trans ht) (hm'.trans hm)

variable {K M : Type} [CacheHashKey K] [CacheMeta M]

/-- What a step adds to the drift: at a finish that finds its temporary file, the bytes it
counted and the body it replaces, less the bytes of the file. -/
def gain (c : Handlers × World) : Op K M → Int
  | .finish h =>
    match c.1.misses h with
    | none => 0
    | some m =>
      match c.2.tree.content m.tmp_path with
      | none => 0
      | some d => m.tmp_bytes_written + len c.2.tree.content m.body_path - d.length
  | _ => 0

/-- The tree is laid out as the cache has it, and each handler has the paths of a key. -/
structure Good (cache : DiskCache) (c : Handlers × World) : Prop where
  laid : cache.Laid c.2.tree
  handlers : ∀ h m, c.1.misses h = some m → ∃ hash, m.Of cache hash

theorem good_empty (hw : cache.Laid w.tree) : Good cache (Handlers.empty, w) :=
  ⟨hw, fun _ _ h => by cases h⟩

theorem good_setMiss {t : Handlers} {h : Nat} {m : DiskMissHandler} {o : Option DiskMissHandler}
    (hg : ∀ h m, t.misses h = some m → ∃ hash, m.Of cache hash) (hm : t.misses h = some m)
    (ho : ∀ m', o = some m' → ∃ hash, m'.Of cache hash) :
    ∀ i m', (t.setMiss h o).misses i = some m' → ∃ hash, m'.Of cache hash := by
  intro i m' hi
  rw [Handlers.misses_setMiss hm, Function.update_apply] at hi
  split at hi
  · exact ho m' hi
  · exact hg i m' hi

theorem tmp_ne_body {m : DiskMissHandler} (hm : m.Of cache hash) (hash' : CombinedHash) :
    cache.body hash' ≠ m.tmp_path := by
  obtain ⟨n, hn, ht⟩ := hm.tmp_path
  rw [ht, DiskCache.body_eq]
  exact (entry_ne_of_tmp cache hn (by decide)).symm

/-- A step keeps the layout, and adds its gain to the drift. -/
theorem step_drift {c c' : Handlers × World} {o : Op K M} {r : operations.Reply M}
    (hg : Good cache c) (h : Step (tiered_cache cache).storage c o r c') :
    Good cache c' ∧ drift cache c'.2 = drift cache c.2 + gain c o := by
  obtain ⟨t, w⟩ := c
  refine Step.sound (Q := fun x w' => Good cache (x.2, w') ∧
    drift cache w' = drift cache w + gain (t, w) o) h ?_
  intro p hp
  have l : Leads cache w w w.tree.content 0 := Leads.refl hg.laid
  -- the operations that leave the bodies and the table of misses alone
  have same : ∀ {w' : World}, Leads cache w w' w.tree.content 0 →
      Good cache (t, w') ∧ drift cache w' = drift cache w + 0 :=
    fun l' => ⟨⟨l'.laid, hg.handlers⟩, drift_of_leads_same l' fun _ => rfl⟩
  cases o with
  | lookup key =>
    simp only [program, TieredStorage.storage, tiered_cache_lookup, Option.some.injEq] at hp
    subst hp
    rw [wp_bind]
    refine lookup_spec l key (fun w' _ l' => same l') fun d mi mh w' _ _ _ l' => ?_
    refine ⟨fun e _ => same l', fun cache_meta hit _ _ _ => ?_⟩
    exact ⟨⟨l'.laid, hg.handlers⟩, (same l').2⟩
  | get_miss_handler key cache_meta =>
    simp only [program, TieredStorage.storage, tiered_cache_get_miss_handler,
      Option.some.injEq] at hp
    subst hp
    rw [wp_bind]
    refine get_miss_handler_spec l key cache_meta (fun e w' _ l' => same l')
      fun mi mh m w' _ hm _ _ _ l' => ⟨⟨l'.laid, ?_⟩, ?_⟩
    · intro i m' hi
      simp only [Handlers.addMiss, Function.update_apply] at hi
      split at hi
      · cases hi
        exact ⟨_, hm⟩
      · exact hg.handlers i m' hi
    · exact drift_of_leads_same l' fun hash => Function.update_of_ne (tmp_ne_body hm hash) _ _
  | write_body i data is_eof =>
    simp only [program, Option.map_eq_some_iff] at hp
    obtain ⟨m, hi, rfl⟩ := hp
    obtain ⟨hash, hm⟩ := hg.handlers i m hi
    rw [wp_bind]
    refine write_body_spec l hm data is_eof (fun _ e => ?_) fun d w' _ l' => ?_
    · exact ⟨⟨hg.laid, good_setMiss hg.handlers hi fun m' hm' => by cases hm'; exact ⟨hash, hm⟩⟩,
        (Int.add_zero _).symm⟩
    · refine ⟨⟨l'.laid, good_setMiss hg.handlers hi fun m' hm' => ?_⟩, ?_⟩
      · cases hm'
        exact ⟨hash, hm.dir, hm.body_path, hm.meta_path, hm.hdr_path, hm.tmp_path⟩
      · exact drift_of_leads_same l' fun hash => Function.update_of_ne (tmp_ne_body hm hash) _ _
  | finish i =>
    simp only [program, Option.map_eq_some_iff] at hp
    obtain ⟨m, hi, rfl⟩ := hp
    obtain ⟨hash, hm⟩ := hg.handlers i m hi
    rw [wp_bind]
    refine finish_spec l hm (fun e w' hnone l' => ?_) fun d w' hd l' => ?_
    · refine ⟨⟨l'.laid, good_setMiss hg.handlers hi fun m' hm' => by cases hm'⟩, ?_⟩
      simp only [gain, hi, hnone]
      exact drift_of_leads_same l' fun _ => rfl
    · refine ⟨⟨l'.laid, good_setMiss hg.handlers hi fun m' hm' => by cases hm'⟩, ?_⟩
      rw [drift_of_leads_one hash l' fun hash' hne => ?_]
      · simp only [gain, hi, hd, len, DiskCache.body_eq, hm.body_path, withFiles_body]
        simp only [Option.map_some, Option.getD_some]
        omega
      · rw [DiskCache.body_eq, withFiles_of_ne _ _ _ hne, ← DiskCache.body_eq]
        exact Function.update_of_ne (tmp_ne_body hm hash') _ _
  | drop_handler i =>
    simp only [program, Option.map_eq_some_iff] at hp
    obtain ⟨m, hi, rfl⟩ := hp
    obtain ⟨hash, hm⟩ := hg.handlers i m hi
    rw [wp_bind]
    refine drop_spec l hm fun w' l' => ?_
    refine ⟨⟨l'.laid, good_setMiss hg.handlers hi fun m' hm' => by cases hm'⟩, ?_⟩
    exact drift_of_leads_same l' fun hash => Function.update_of_ne (tmp_ne_body hm hash) _ _
  | purge key purge_type =>
    simp only [program, TieredStorage.storage, tiered_cache_purge, TieredStorage.purge_or_default,
      Option.some.injEq] at hp
    subst hp
    simp only [wp_bind]
    refine purge_spec l key purge_type fun w' l' => ⟨⟨l'.laid, hg.handlers⟩, ?_⟩
    rw [drift_of_leads_one (CacheHashKey.combined key) l' fun hash' hne => ?_]
    · simp only [gain, len, DiskCache.body_eq, withFiles_body]
      simp only [Option.map_none, Option.getD_none]
      omega
    · rw [DiskCache.body_eq, withFiles_of_ne _ _ _ hne]
  | update_meta key cache_meta =>
    simp only [program, TieredStorage.storage, tiered_cache_update_meta, Option.some.injEq] at hp
    subst hp
    rw [wp_bind]
    refine update_meta_spec l key cache_meta (fun _ => same l) (fun _ _ _ _ => same l)
      fun d mi mh w' hd _ l' => ⟨⟨l'.laid, hg.handlers⟩, ?_⟩
    refine drift_of_leads_same l' fun hash' => ?_
    by_cases hne : hash' = CacheHashKey.combined key
    · subst hne
      rw [DiskCache.body_eq, withFiles_body, hd]
    · rw [DiskCache.body_eq, withFiles_of_ne _ _ _ hne]
  | read_to_end i =>
    simp only [program, Option.map_eq_some_iff] at hp
    obtain ⟨hit, _, rfl⟩ := hp
    rw [wp_bind]
    refine read_to_end_keeps _ hit fun r w' ht hm => ⟨⟨?_, hg.handlers⟩, ?_⟩
    · change cache.Laid w'.tree
      rw [ht]
      exact hg.laid
    · simp only [drift, bodies_len, ht, hm, gain]
      omega

/-! ## Whole runs -/

theorem good_of_runs {P : Handlers × World → Op K M → Handlers × World → Prop}
    {c c' : Handlers × World} {tr : List (Op K M × operations.Reply M)} (hg : Good cache c)
    (h : Runs (tiered_cache cache).storage P c tr c') : Good cache c' := by
  induction h with
  | nil => exact hg
  | snoc _ hstep _ ih => exact (step_drift ih hstep).1

/-- At a finish that finds its temporary file, that file is as long as what the handler
counted and the body it replaces together. Where the file holds what the handler counted,
as a file of its own does, the finish replaces no body, or an empty one. -/
def ReplacesNothing (c : Handlers × World) : Op K M → Prop
  | .finish h => ∀ m, c.1.misses h = some m → ∀ d, c.2.tree.content m.tmp_path = some d →
      d.length = m.tmp_bytes_written + c.2.tree.size m.body_path
  | _ => True

omit [CacheHashKey K] [CacheMeta M] in
theorem replacesNothing_iff (c : Handlers × World) (o : Op K M) :
    ReplacesNothing c o ↔ gain c o = 0 := by
  cases o with
  | finish h =>
    simp only [ReplacesNothing, gain]
    cases hm : c.1.misses h with
    | none => simp
    | some m =>
      simp only [Option.some.injEq, forall_eq']
      cases hd : c.2.tree.content m.tmp_path with
      | none => simp
      | some d =>
        have hsize : c.2.tree.size m.body_path = len c.2.tree.content m.body_path := rfl
        simp only [Option.some.injEq, forall_eq', hsize]
        omega
  | _ => simp [ReplacesNothing, gain]

/-- From a disk whose gauge is right, the gauge is right in every state of a run exactly when
no finish of the run replaces anything. -/
theorem the_gauge_is_right_exactly_when_nothing_is_replaced (cache : DiskCache) (w : World)
    (hw : cache.Laid w.tree) (hacc : Accurate cache w)
    (tr : List (Op K M × operations.Reply M)) (c : Handlers × World) :
    Runs (tiered_cache cache).storage (fun c1 o _ => ReplacesNothing c1 o)
        (Handlers.empty, w) tr c ↔
      Runs (tiered_cache cache).storage (fun _ _ c2 => Accurate cache c2.2)
        (Handlers.empty, w) tr c := by
  have hg := good_empty hw
  rw [accurate_iff] at hacc
  constructor
  · intro h
    -- the induction carries the layout and a drift of zero
    have hrun : Runs (tiered_cache cache).storage (fun _ _ c2 => Accurate cache c2.2)
        (Handlers.empty, w) tr c ∧ Good cache c ∧ drift cache c.2 = 0 := by
      induction h with
      | nil => exact ⟨.nil _, hg, hacc⟩
      | snoc _ hstep hno ih =>
        obtain ⟨hruns, hgood, hzero⟩ := ih
        obtain ⟨hgood', hdrift⟩ := step_drift hgood hstep
        rw [(replacesNothing_iff _ _).mp hno, hzero] at hdrift
        exact ⟨.snoc hruns hstep ((accurate_iff _ _).mpr hdrift), hgood', hdrift⟩
    exact hrun.1
  · intro h
    have hrun : Runs (tiered_cache cache).storage (fun c1 o _ => ReplacesNothing c1 o)
        (Handlers.empty, w) tr c ∧ Good cache c ∧ drift cache c.2 = 0 := by
      induction h with
      | nil => exact ⟨.nil _, hg, hacc⟩
      | snoc _ hstep hright ih =>
        obtain ⟨hruns, hgood, hzero⟩ := ih
        obtain ⟨hgood', hdrift⟩ := step_drift hgood hstep
        rw [accurate_iff] at hright
        rw [hzero, hright] at hdrift
        exact ⟨.snoc hruns hstep ((replacesNothing_iff _ _).mpr (by omega)), hgood', hright⟩
    exact hrun.1

/-! ## A body that is replaced -/

/-- Two misses on one key, one after the other. -/
def replacing_trace : List (Op CombinedHash Note × operations.Reply Note) :=
  [(.get_miss_handler small_hash ⟨[7]⟩, .handler (.ok 0)),
    (.write_body 0 [1, 2] true, .written (.ok ())),
    (.finish 0, .finished (.ok (.Created 2))),
    (.get_miss_handler small_hash ⟨[7]⟩, .handler (.ok 1)),
    (.write_body 1 [3] true, .written (.ok ())),
    (.finish 1, .finished (.ok (.Created 1)))]

abbrev small_storage : Storage Prog CombinedHash Note DiskMissHandler DiskHitHandler :=
  (tiered_cache small_cache).storage

/-- Where one miss with chunk `d` leads, as handler number `i`. -/
def after_miss (c : Handlers × World) (i : Nat) (d : Bytes) : Handlers × World :=
  let c1 := after small_storage c (.get_miss_handler small_hash ⟨[7]⟩) 6
  let c2 := after small_storage c1 (.write_body i d true) 3
  after small_storage c2 (.finish i) 7

theorem a_first_miss_keeps_the_gauge_right :
    Runs small_storage (fun _ _ c2 => Accurate small_cache c2.2) (Handlers.empty, empty_world)
      (replacing_trace.take 3) (after_miss (Handlers.empty, empty_world) 0 [1, 2]) := by
  refine (the_gauge_is_right_exactly_when_nothing_is_replaced small_cache empty_world
    (empty_world_laid _) (by decide) _ _).mp ?_
  refine .snoc (.snoc (.snoc (.nil _) (step_after ?_) trivial) (step_after ?_) trivial)
    (step_after ?_) ((replacesNothing_iff _ _).mpr ?_)
  all_goals decide +kernel

/-- The second miss replaces the body of the first, and the gauge goes on counting both. -/
theorem a_replaced_body_stays_in_the_gauge :
    let c1 := after_miss (Handlers.empty, empty_world) 0 [1, 2]
    let c2 := after_miss c1 1 [3]
    Runs small_storage (fun _ _ _ => True) (Handlers.empty, empty_world) replacing_trace c2 ∧
    Accurate small_cache empty_world ∧ c2.2.metrics.size_bytes = 3 ∧
    bodies_len small_cache c2.2 = 1 := by
  refine ⟨?_, by decide, by decide +kernel, by decide +kernel⟩
  refine .snoc (.snoc (.snoc (.snoc (.snoc (.snoc (.nil _) (step_after ?_) trivial)
    (step_after ?_) trivial) (step_after ?_) trivial) (step_after ?_) trivial)
    (step_after ?_) trivial) (step_after ?_) trivial
  all_goals decide +kernel

end edge_cdn_store.size_gauge
