-- The bound on the disk. The eviction manager knows the keys that were admitted
-- or looked up since its process started, and keeps their bodies within a bound.
-- Of the bodies that were there before, it knows nothing.
import EdgeCdnStore.SizeGauge

open edge_cdn_store.programs edge_cdn_store.programs.Program edge_cdn_store.io
open edge_cdn_store.file_tree edge_cdn_store.file_tree.FileTree
open edge_cdn_store.logger edge_cdn_store.disk_cache edge_cdn_store.operations
open edge_cdn_store.size_gauge

namespace edge_cdn_store.eviction

/-! ## The eviction manager -/

/-- `simple_lru::Manager`, with states `S`. `keys` and `weight` say what it tracks. -/
structure Manager (S : Type) where
  new : S
  admission : S → CombinedHash → Nat → List CombinedHash × S
  access : S → CombinedHash → Nat → S
  keys : S → Finset CombinedHash
  weight : S → CombinedHash → Nat

/-- The weights of all the keys that a manager tracks. -/
def Manager.total {S : Type} (mgr : Manager S) (s : S) : Nat := ∑ k ∈ mgr.keys s, mgr.weight s k

/-- What the manager documents: it starts empty, tracks the keys that were admitted or
accessed, and on an admission gives up keys until the others weigh at most `max_bytes`. -/
structure Manager.Bounded {S : Type} (mgr : Manager S) (max_bytes : Nat) : Prop where
  new_keys : mgr.keys mgr.new = ∅
  access_keys : ∀ s k n, mgr.keys (mgr.access s k n) = insert k (mgr.keys s)
  access_weight : ∀ s k n j, j ∈ mgr.keys s → j ≠ k →
    mgr.weight (mgr.access s k n) j = mgr.weight s j
  access_self : ∀ s k n, mgr.weight (mgr.access s k n) k = n ∨
    (k ∈ mgr.keys s ∧ mgr.weight (mgr.access s k n) k = mgr.weight s k)
  admission_nodup : ∀ s k n, (mgr.admission s k n).1.Nodup
  admission_mem : ∀ s k n j, j ∈ (mgr.admission s k n).1 → j ∈ insert k (mgr.keys s)
  admission_keys : ∀ s k n,
    mgr.keys (mgr.admission s k n).2 = insert k (mgr.keys s) \ (mgr.admission s k n).1.toFinset
  admission_weight : ∀ s k n j, j ∈ mgr.keys (mgr.admission s k n).2 →
    mgr.weight (mgr.admission s k n).2 j = if j = k then n else mgr.weight s j
  admission_total : ∀ s k n, n ≤ max_bytes → mgr.total (mgr.admission s k n).2 ≤ max_bytes

/-! ## A process -/

section
variable {K M S : Type} [CacheHashKey K] [CacheMeta M]

/-- A miss from its first call to its last: the body of an origin goes to disk. -/
def insert_object (cache : DiskCache) (key : K) (cache_meta : M) (chunks : List Bytes) :
    Prog (Result MissFinishType) := do
  match ← cache.get_miss_handler key cache_meta with
  | .error e => return .error e
  | .ok m =>
    match ← write_chunks m chunks with
    | (.error e, m) => do
      m.drop
      return .error e
    | (.ok (), m) => m.finish

/-- The purges of the keys that the manager gave up. -/
def purge_all (cache : DiskCache) : List CombinedHash → Prog Unit
  | [] => return ()
  | k :: rest => do
    let _ ← cache.purge k .Eviction
    purge_all cache rest

/-- A miss, and the evictions that its admission leads to. -/
def insert_and_evict (mgr : Manager S) (cache : DiskCache) (s : S) (key : K) (cache_meta : M)
    (chunks : List Bytes) : Prog S := do
  match ← insert_object cache key cache_meta chunks with
  | .ok (.Created n) => do
    let (evicted, s) := mgr.admission s (CacheHashKey.combined key) n
    purge_all cache evicted
    return s
  | _ => return s

/-- A lookup, and the access that a hit is. -/
def lookup_and_access (M : Type) [CacheMeta M] (mgr : Manager S) (cache : DiskCache) (s : S)
    (key : K) : Prog S := do
  match ← cache.lookup (M := M) key with
  | .ok (some (_, hit)) =>
    return mgr.access s (CacheHashKey.combined key) hit.get_eviction_weight
  | _ => return s

/-- What happens to a cache root, one thing after the other. -/
inductive Event (K M : Type)
  | lookup (key : K)
  | insert (key : K) (cache_meta : M) (chunks : List Bytes)
  | restart

/-- A process at work: the disk, its manager, and the length of the bodies at its start. -/
structure Process (S : Type) where
  world : World
  manager : S
  at_start : Nat

/-- One event in a process, where no call fails and no object is larger than the bound. A
restart leaves the disk as it is, and the manager starts afresh. -/
inductive Serves (mgr : Manager S) (cache : DiskCache) (max_bytes : Nat) :
    Process S → Event K M → Process S → Prop
  | lookup {p : Process S} {key : K} {cs : List Choice} {s : S} {w : World} :
      (∀ x ∈ cs, Calm x) →
      run answer (lookup_and_access M mgr cache p.manager key) cs p.world = some (s, w) →
      Serves mgr cache max_bytes p (.lookup key) ⟨w, s, p.at_start⟩
  | insert {p : Process S} {key : K} {cache_meta : M} {chunks : List Bytes} {cs : List Choice}
      {s : S} {w : World} :
      chunks.flatten.length ≤ max_bytes → (∀ x ∈ cs, Calm x) →
      run answer (insert_and_evict mgr cache p.manager key cache_meta chunks) cs p.world =
        some (s, w) →
      Serves mgr cache max_bytes p (.insert key cache_meta chunks) ⟨w, s, p.at_start⟩
  | restart {p : Process S} {w : World} : w.tree = p.world.tree →
      Serves mgr cache max_bytes p .restart ⟨w, mgr.new, bodies_len cache p.world⟩

/-- Any number of events, over any number of processes. -/
inductive Serve (mgr : Manager S) (cache : DiskCache) (max_bytes : Nat) :
    Process S → List (Event K M) → Process S → Prop
  | nil (p : Process S) : Serve mgr cache max_bytes p [] p
  | snoc {p p' p'' : Process S} {es : List (Event K M)} {e : Event K M} :
      Serve mgr cache max_bytes p es p' → Serves mgr cache max_bytes p' e p'' →
      Serve mgr cache max_bytes p (es ++ [e]) p''

end

/-! ## What an insertion does -/

section
variable {K M : Type} [CacheHashKey K] [CacheMeta M]
variable {cache : DiskCache} {w0 w : World} {C : Contents} {g : Int}

theorem write_chunks_spec {Q : Result Unit × DiskMissHandler → World → Prop}
    {m : DiskMissHandler} {hash : CombinedHash} {d : Bytes} (chunks : List Bytes)
    (l : Leads cache w0 w (Function.update C m.tmp_path (some d)) g) (hm : m.Of cache hash)
    (h : ∀ m' w', m'.Of cache hash → m'.tmp_path = m.tmp_path →
      m'.tmp_bytes_written = m.tmp_bytes_written + chunks.flatten.length →
      m'.meta_internal = m.meta_internal → m'.meta_header = m.meta_header →
      Leads cache w0 w' (Function.update C m.tmp_path (some (d ++ chunks.flatten))) g →
      Q (.ok (), m') w') : wp answer Calm (write_chunks m chunks) Q w := by
  induction chunks generalizing m w d with
  | nil => exact h m w hm rfl rfl rfl rfl (by simpa using l)
  | cons b rest ih =>
    simp only [write_chunks_cons, wp_bind]
    refine write_body_spec l hm b rest.isEmpty (fun hnone => ?_) fun d' w' hd l' => ?_
    · rw [Function.update_self] at hnone
      cases hnone
    · rw [Function.update_self, Option.some.injEq] at hd
      subst hd
      rw [Function.update_idem] at l'
      refine ih (m := { m with tmp_bytes_written := m.tmp_bytes_written + b.length }) l'
        ⟨hm.dir, hm.body_path, hm.meta_path, hm.hdr_path, hm.tmp_path⟩ ?_
      intro m' w'' hm' ht hn hmi hmh l''
      refine h m' w'' hm' ht ?_ hmi hmh (by simpa using l'')
      simp only [hn, List.flatten_cons, List.length_append]
      omega

/-- An insertion fails before it touches a body, or puts its own body in place. -/
theorem insert_object_spec {Q : Result MissFinishType → World → Prop} (key : K) (cache_meta : M)
    (chunks : List Bytes) (l : Leads cache w0 w C g)
    (herr : ∀ e w', Leads cache w0 w' C g → Q (.error e) w')
    (hok : ∀ C' g' w', Leads cache w0 w' C' g' →
      C' (cache.body (CacheHashKey.combined key)) = some chunks.flatten →
      (∀ hash, hash ≠ CacheHashKey.combined key → C' (cache.body hash) = C (cache.body hash)) →
      Q (.ok (.Created chunks.flatten.length)) w') :
    wp answer Calm (insert_object cache key cache_meta chunks) Q w := by
  simp only [insert_object, wp_bind]
  refine get_miss_handler_spec l key cache_meta (fun e w' _ l' => herr e w' l') ?_
  intro mi mh m w1 _ hm hzero _ _ l1
  simp only [wp_bind]
  refine write_chunks_spec chunks l1 hm fun m' w2 hm' ht hn _ _ l2 => ?_
  refine finish_spec l2 hm' (fun e w' hnone _ => ?_) fun d w' hd l3 => ?_
  · rw [ht, Function.update_self] at hnone
    cases hnone
  · rw [ht, Function.update_self, Option.some.injEq] at hd
    subst hd
    rw [hn, hzero, Nat.zero_add] at l3 ⊢
    refine hok _ _ w' l3 ?_ fun hash hne => ?_
    · rw [DiskCache.body_eq, withFiles_body]
      rfl
    · rw [DiskCache.body_eq, withFiles_of_ne _ _ _ hne, ← DiskCache.body_eq, ht,
        Function.update_of_ne (tmp_ne_body hm hash), Function.update_of_ne (tmp_ne_body hm hash)]

/-- The purges take the bodies of their keys off the disk, and no other body. -/
theorem purge_all_spec {Q : Unit → World → Prop} (es : List CombinedHash) (hes : es.Nodup)
    (hw : cache.Laid w.tree)
    (h : ∀ w', cache.Laid w'.tree →
      (∀ hash, hash ∉ es → w'.tree.content (cache.body hash) = w.tree.content (cache.body hash)) →
      bodies_len cache w' + (es.map fun e => len w.tree.content (cache.body e)).sum =
        bodies_len cache w → Q () w') : wp answer Calm (purge_all cache es) Q w := by
  induction es generalizing w with
  | nil => exact h w hw (fun _ _ => rfl) (by simp)
  | cons e rest ih =>
    obtain ⟨hnot, hrest⟩ := List.nodup_cons.mp hes
    simp only [purge_all, wp_bind]
    refine purge_spec (Leads.refl hw) e .Eviction fun w1 l1 => ?_
    -- the first purge takes off its own body
    have hother : ∀ hash, hash ≠ e →
        w1.tree.content (cache.body hash) = w.tree.content (cache.body hash) := by
      intro hash hne
      rw [l1.content, DiskCache.body_eq]
      exact withFiles_of_ne none none none hne _
    have hself : len w1.tree.content (cache.body e) = 0 := by
      rw [l1.content, DiskCache.body_eq, len]
      exact congrArg (fun o => (o.map List.length).getD 0) (withFiles_body none none none)
    have hlen := bodies_len_one e hother
    rw [hself] at hlen
    have hsum : (rest.map fun e => len w1.tree.content (cache.body e)) =
        rest.map fun e => len w.tree.content (cache.body e) := by
      refine List.map_congr_left fun x hx => ?_
      rw [len, hother x (by rintro rfl; exact hnot hx)]
      rfl
    refine ih hrest l1.laid fun w' hw' hkeep hsub => h w' hw' (fun hash hmem => ?_) ?_
    · rw [List.mem_cons, not_or] at hmem
      rw [hkeep hash hmem.2, hother hash hmem.1]
    · rw [hsum] at hsub
      simp only [List.map_cons, List.sum_cons]
      omega

end

/-! ## The bound -/

section
variable {K M S : Type} [CacheHashKey K] [CacheMeta M]
variable {mgr : Manager S} {cache : DiskCache} {max_bytes : Nat}

/-- What every process keeps. The manager has the length of each body that it tracks, and
what it does not track was there at the start. -/
structure Within (mgr : Manager S) (cache : DiskCache) (max_bytes : Nat) (p : Process S) :
    Prop where
  laid : cache.Laid p.world.tree
  weights : ∀ k ∈ mgr.keys p.manager,
    mgr.weight p.manager k = len p.world.tree.content (cache.body k)
  tracked : bodies_len cache p.world ≤ mgr.total p.manager + p.at_start
  bound : bodies_len cache p.world ≤ max_bytes + p.at_start

/-- The weights after an admission, before keys are given up. -/
def admitted (mgr : Manager S) (s : S) (k : CombinedHash) (n : Nat) (j : CombinedHash) : Nat :=
  if j = k then n else mgr.weight s j

theorem total_admitted (mgr : Manager S) (s : S) (k : CombinedHash) (n : Nat) :
    (∑ j ∈ insert k (mgr.keys s), admitted mgr s k n j) +
        (if k ∈ mgr.keys s then mgr.weight s k else 0) = mgr.total s + n := by
  have hrest : ∀ K : Finset CombinedHash, k ∉ K →
      ∑ j ∈ K, admitted mgr s k n j = ∑ j ∈ K, mgr.weight s j := by
    intro K hK
    refine Finset.sum_congr rfl fun j hj => if_neg ?_
    rintro rfl
    exact hK hj
  have hself : admitted mgr s k n k = n := if_pos rfl
  by_cases hk : k ∈ mgr.keys s
  · rw [Finset.insert_eq_of_mem hk, if_pos hk, Manager.total, ← Finset.add_sum_erase _ _ hk,
      ← Finset.add_sum_erase (mgr.keys s) (mgr.weight s) hk, hrest _ (Finset.notMem_erase k _),
      hself]
    omega
  · rw [Finset.sum_insert hk, if_neg hk, hrest _ hk, hself, Manager.total]
    omega

/-- An admission leaves the bodies within the bound, when it finds the new body on disk. -/
theorem admission_within (hm : mgr.Bounded max_bytes) {s : S} {w w1 w' : World} {L n : Nat}
    {k : CombinedHash} (hp : Within mgr cache max_bytes ⟨w, s, L⟩) (hn : n ≤ max_bytes)
    (hself : len w1.tree.content (cache.body k) = n)
    (hother : ∀ j, j ≠ k → w1.tree.content (cache.body j) = w.tree.content (cache.body j))
    (hlen : bodies_len cache w1 + len w.tree.content (cache.body k) = bodies_len cache w + n)
    (hw' : cache.Laid w'.tree)
    (hkeep : ∀ j, j ∉ (mgr.admission s k n).1 →
      w'.tree.content (cache.body j) = w1.tree.content (cache.body j))
    (hsub : bodies_len cache w' +
      ((mgr.admission s k n).1.map fun e => len w1.tree.content (cache.body e)).sum =
        bodies_len cache w1) :
    Within mgr cache max_bytes ⟨w', (mgr.admission s k n).2, L⟩ := by
  -- on the disk after the insertion, each tracked body has its weight
  have hadm : ∀ j ∈ insert k (mgr.keys s),
      admitted mgr s k n j = len w1.tree.content (cache.body j) := by
    intro j hj
    unfold admitted
    split
    · rename_i he
      rw [he, hself]
    · rename_i hne
      rw [len, hother j hne]
      exact hp.weights j (Finset.mem_of_mem_insert_of_ne hj hne)
  -- the keys that were given up weigh what their bodies were long
  have hgone : ((mgr.admission s k n).1.map fun e => len w1.tree.content (cache.body e)).sum =
      ∑ j ∈ (mgr.admission s k n).1.toFinset, admitted mgr s k n j := by
    rw [List.sum_toFinset _ (hm.admission_nodup s k n)]
    refine congrArg _ (List.map_congr_left fun j hj => ?_)
    exact (hadm j (hm.admission_mem s k n j hj)).symm
  have hsplit : (∑ j ∈ (mgr.admission s k n).1.toFinset, admitted mgr s k n j) +
      mgr.total (mgr.admission s k n).2 =
        ∑ j ∈ insert k (mgr.keys s), admitted mgr s k n j := by
    have hsubset : (mgr.admission s k n).1.toFinset ⊆ insert k (mgr.keys s) := by
      intro j hj
      exact hm.admission_mem s k n j (List.mem_toFinset.mp hj)
    rw [← Finset.sum_sdiff hsubset, Nat.add_comm, Manager.total, hm.admission_keys]
    congr 1
    refine Finset.sum_congr rfl fun j hj => ?_
    exact hm.admission_weight s k n j (by rw [hm.admission_keys]; exact hj)
  have htotal := total_admitted mgr s k n
  have htracked : bodies_len cache w' ≤ mgr.total (mgr.admission s k n).2 + L := by
    have hle := hp.tracked
    simp only at hle
    split at htotal
    · rename_i hk
      have := hp.weights k hk
      simp only at this
      omega
    · omega
  have hmax := hm.admission_total s k n hn
  refine ⟨hw', fun j hj => ?_, htracked, ?_⟩
  · simp only at hj ⊢
    have hj' := hj
    rw [hm.admission_keys, Finset.mem_sdiff, List.mem_toFinset] at hj'
    rw [hm.admission_weight s k n j hj, len, hkeep j hj'.2]
    exact hadm j hj'.1
  · simp only
    omega

/-- An access changes nothing on disk, and tracks no more than there is. -/
theorem access_within (hm : mgr.Bounded max_bytes) {s : S} {w w' : World} {L n : Nat}
    {k : CombinedHash} (hp : Within mgr cache max_bytes ⟨w, s, L⟩)
    (hn : len w.tree.content (cache.body k) = n) (hw' : cache.Laid w'.tree)
    (hc : w'.tree.content = w.tree.content) (hlen : bodies_len cache w' = bodies_len cache w) :
    Within mgr cache max_bytes ⟨w', mgr.access s k n, L⟩ := by
  have hself : mgr.weight (mgr.access s k n) k = n := by
    rcases hm.access_self s k n with h | ⟨hk, h⟩
    · exact h
    · rw [h, hp.weights k hk, hn]
  have hweights : ∀ j ∈ mgr.keys s, mgr.weight (mgr.access s k n) j = mgr.weight s j := by
    intro j hj
    by_cases hjk : j = k
    · subst hjk
      rw [hself, hp.weights j hj, hn]
    · exact hm.access_weight s k n j hj hjk
  have htotal : mgr.total s ≤ mgr.total (mgr.access s k n) := by
    rw [Manager.total, Manager.total, hm.access_keys]
    calc ∑ j ∈ mgr.keys s, mgr.weight s j
        = ∑ j ∈ mgr.keys s, mgr.weight (mgr.access s k n) j :=
          Finset.sum_congr rfl fun j hj => (hweights j hj).symm
      _ ≤ ∑ j ∈ insert k (mgr.keys s), mgr.weight (mgr.access s k n) j :=
          Finset.sum_le_sum_of_subset (Finset.subset_insert _ _)
  have htracked := hp.tracked
  have hbound := hp.bound
  simp only at htracked hbound
  refine ⟨hw', fun j hj => ?_, by simp only; omega, by simp only; omega⟩
  simp only at hj ⊢
  rw [hc]
  by_cases hjk : j = k
  · rw [hjk, hself, hn]
  · rw [hm.access_keys] at hj
    have hj' := Finset.mem_of_mem_insert_of_ne hj hjk
    rw [hm.access_weight s k n j hj' hjk]
    exact hp.weights j hj'

/-- One event keeps what every process keeps. -/
theorem serves_within (hm : mgr.Bounded max_bytes) {p p' : Process S} {e : Event K M}
    (hp : Within mgr cache max_bytes p) (h : Serves mgr cache max_bytes p e p') :
    Within mgr cache max_bytes p' := by
  cases h with
  | @lookup key cs s w hcs hrun =>
    refine run_sound (Q := fun s w => Within mgr cache max_bytes ⟨w, s, p.at_start⟩) hrun hcs ?_
    have hsame : ∀ {w' : World}, Leads cache p.world w' p.world.tree.content 0 →
        Within mgr cache max_bytes ⟨w', p.manager, p.at_start⟩ := by
      intro w' l
      have : bodies_len cache w' = bodies_len cache p.world :=
        bodies_len_same fun _ => by rw [l.content]
      refine ⟨l.laid, fun k hk => ?_, by rw [this]; exact hp.tracked, by rw [this]; exact hp.bound⟩
      rw [l.content]
      exact hp.weights k hk
    rw [lookup_and_access, wp_bind]
    refine lookup_spec (Leads.refl hp.laid) key (fun w' _ l => hsame l)
      fun d mi mh w' hb _ _ l => ⟨fun _ _ => hsame l, fun cache_meta hit _ hfresh _ => ?_⟩
    have hweight : hit.get_eviction_weight = d.length := by
      rw [hfresh.values]
      rfl
    refine access_within hm (w := p.world) hp ?_ l.laid l.content
      (bodies_len_same fun _ => by rw [l.content])
    rw [hweight, DiskCache.body_eq, len, hb]
    rfl
  | @insert key cache_meta chunks cs s w hn hcs hrun =>
    refine run_sound (Q := fun s w => Within mgr cache max_bytes ⟨w, s, p.at_start⟩) hrun hcs ?_
    rw [insert_and_evict, wp_bind]
    refine insert_object_spec key cache_meta chunks (Leads.refl hp.laid) (fun e w' l => ?_)
      fun C' g' w1 l hself hother => ?_
    · have : bodies_len cache w' = bodies_len cache p.world :=
        bodies_len_same fun _ => by rw [l.content]
      refine ⟨l.laid, fun k hk => ?_, by rw [this]; exact hp.tracked, by rw [this]; exact hp.bound⟩
      rw [l.content]
      exact hp.weights k hk
    · simp only [wp_bind]
      have hself' : len C' (cache.body (CacheHashKey.combined key)) = chunks.flatten.length := by
        rw [len, hself]
        rfl
      rw [← l.content] at hself' hother
      have hlen := bodies_len_one _ hother
      rw [hself'] at hlen
      refine purge_all_spec _ (hm.admission_nodup _ _ _) l.laid fun w' hw' hkeep hsub => ?_
      exact admission_within hm (w := p.world) hp hn hself' hother hlen hw' hkeep hsub
  | @restart w ht =>
    have hlen : bodies_len cache w = bodies_len cache p.world := by rw [bodies_len, ht]; rfl
    refine ⟨by simp only [ht]; exact hp.laid, fun k hk => ?_, ?_, ?_⟩
    · rw [hm.new_keys] at hk
      cases hk
    · simp only [hlen]
      omega
    · simp only [hlen]
      omega

/-- Whatever a process has done, the bodies on disk are no longer than the bound and the
bodies that were there when it started. -/
theorem the_disk_holds_at_most_the_bound_and_what_was_there (hm : mgr.Bounded max_bytes)
    (cache : DiskCache) (w : World) (hw : cache.Laid w.tree) (es : List (Event K M))
    (p : Process S)
    (h : Serve mgr cache max_bytes ⟨w, mgr.new, bodies_len cache w⟩ es p) :
    bodies_len cache p.world ≤ max_bytes + p.at_start := by
  have hrun : Within mgr cache max_bytes p := by
    induction h with
    | nil =>
      refine ⟨hw, fun k hk => ?_, Nat.le_add_left _ _, Nat.le_add_left _ _⟩
      rw [hm.new_keys] at hk
      cases hk
    | snoc _ hserves ih => exact serves_within hm ih hserves
  exact hrun.bound

end

/-! ## A list as a manager -/

section
variable {l : List (CombinedHash × Nat)} {j k : CombinedHash} {n : Nat}

/-- The weight of a key in a list, and 0 when it is not there. -/
def look (l : List (CombinedHash × Nat)) (k : CombinedHash) : Nat :=
  match l with
  | [] => 0
  | e :: rest => if e.1 = k then e.2 else look rest k

/-- The keys of a list. -/
def keys_of (l : List (CombinedHash × Nat)) : Finset CombinedHash := (l.map Prod.fst).toFinset

/-- The most recent entries that weigh at most `max` together. -/
def fitting (max : Nat) : List (CombinedHash × Nat) → List (CombinedHash × Nat)
  | [] => []
  | e :: rest => if e.2 ≤ max then e :: fitting (max - e.2) rest else []

/-- The entries of the other keys. -/
def others (l : List (CombinedHash × Nat)) (k : CombinedHash) : List (CombinedHash × Nat) :=
  l.filter (fun e => e.1 ≠ k)

theorem look_others (h : j ≠ k) : look (others l k) j = look l j := by
  induction l with
  | nil => rfl
  | cons e rest ih =>
    simp only [others, List.filter_cons] at ih ⊢
    split
    · simp only [look, ih]
    · rename_i he
      have hek : e.1 = k := by simpa using he
      simp only [look, ih, hek, if_neg (Ne.symm h)]

theorem keys_others : insert k (keys_of (others l k)) = insert k (keys_of l) := by
  ext j
  simp only [keys_of, others, Finset.mem_insert, List.mem_toFinset, List.mem_map, List.mem_filter]
  constructor
  · rintro (h | ⟨e, ⟨he, _⟩, rfl⟩)
    · exact Or.inl h
    · exact Or.inr ⟨e, he, rfl⟩
  · rintro (h | ⟨e, he, rfl⟩)
    · exact Or.inl h
    · by_cases hk : e.1 = k
      · exact Or.inl hk
      · exact Or.inr ⟨e, ⟨he, by simpa using hk⟩, rfl⟩

theorem nodup_others (h : (l.map Prod.fst).Nodup) (n : Nat) :
    (((k, n) :: others l k).map Prod.fst).Nodup := by
  rw [List.map_cons, List.nodup_cons]
  refine ⟨?_, h.sublist (List.filter_sublist.map _)⟩
  simp [others]

theorem fitting_start (max : Nat) (l : List (CombinedHash × Nat)) : fitting max l <+: l := by
  induction l generalizing max with
  | nil => exact List.prefix_rfl
  | cons e rest ih =>
    unfold fitting
    split
    · exact List.cons_prefix_cons.mpr ⟨rfl, ih _⟩
    · exact List.nil_prefix

theorem fitting_sum (max : Nat) (l : List (CombinedHash × Nat)) :
    ((fitting max l).map Prod.snd).sum ≤ max := by
  induction l generalizing max with
  | nil => exact Nat.zero_le _
  | cons e rest ih =>
    unfold fitting
    split
    · have := ih (max - e.2)
      simp only [List.map_cons, List.sum_cons]
      omega
    · exact Nat.zero_le _

theorem look_append (a b : List (CombinedHash × Nat)) (h : k ∈ keys_of a) :
    look (a ++ b) k = look a k := by
  induction a with
  | nil => simp [keys_of] at h
  | cons e rest ih =>
    simp only [List.cons_append, look]
    split
    · rfl
    · rename_i he
      refine ih ?_
      simp only [keys_of, List.map_cons, List.toFinset_cons, Finset.mem_insert] at h
      exact h.resolve_left fun h => he h.symm

theorem sum_look (h : (l.map Prod.fst).Nodup) :
    ∑ k ∈ keys_of l, look l k = (l.map Prod.snd).sum := by
  induction l with
  | nil => rfl
  | cons e rest ih =>
    rw [List.map_cons, List.nodup_cons] at h
    have hnot : e.1 ∉ keys_of rest := by simpa [keys_of] using h.1
    have hkeys : keys_of (e :: rest) = insert e.1 (keys_of rest) := by simp [keys_of]
    rw [hkeys, Finset.sum_insert hnot, List.map_cons, List.sum_cons, ← ih h.2]
    congr 1
    · simp [look]
    · refine Finset.sum_congr rfl fun j hj => ?_
      have hne : e.1 ≠ j := by
        rintro rfl
        exact hnot hj
      simp [look, hne]

/-- Entries with one key each, the most recent first. -/
abbrev Lru := { l : List (CombinedHash × Nat) // (l.map Prod.fst).Nodup }

/-- A list as an eviction manager: an access moves its key to the front, and an admission
gives up the entries at the end that do not fit. -/
def lru (max_bytes : Nat) : Manager Lru where
  new := ⟨[], List.nodup_nil⟩
  admission s k n :=
    let l := (k, n) :: others s.1 k
    ((l.drop (fitting max_bytes l).length).map Prod.fst,
      ⟨fitting max_bytes l,
        (nodup_others s.2 n).sublist ((fitting_start max_bytes l).sublist.map _)⟩)
  access s k n :=
    ⟨(k, if k ∈ keys_of s.1 then look s.1 k else n) :: others s.1 k, nodup_others s.2 _⟩
  keys s := keys_of s.1
  weight s := look s.1

theorem lru_bounded (max_bytes : Nat) : (lru max_bytes).Bounded max_bytes := by
  have hkeys : ∀ (l : List (CombinedHash × Nat)) k n,
      keys_of ((k, n) :: others l k) = insert k (keys_of l) := by
    intro l k n
    rw [← keys_others]
    simp [keys_of]
  have hlook : ∀ (l : List (CombinedHash × Nat)) k n j,
      look ((k, n) :: others l k) j = if j = k then n else look l j := by
    intro l k n j
    by_cases hj : j = k
    · simp [look, hj]
    · rw [look, if_neg (Ne.symm hj), if_neg hj, look_others hj]
  -- the entries that fit, and the entries that do not
  have happend : ∀ l, fitting max_bytes l ++ l.drop (fitting max_bytes l).length = l :=
    fun l => List.prefix_iff_eq_append.mp (fitting_start max_bytes l)
  have hsplit : ∀ l j, j ∈ keys_of l ↔ j ∈ keys_of (fitting max_bytes l) ∨
      j ∈ (l.drop (fitting max_bytes l).length).map Prod.fst := by
    intro l j
    conv_lhs => rw [← happend l]
    simp [keys_of]
  refine ⟨rfl, fun s k n => hkeys _ _ _, fun s k n j _ hne => ?_, fun s k n => ?_,
    fun s k n => ?_, fun s k n j hj => ?_, fun s k n => ?_, fun s k n j hj => ?_,
    fun s k n _ => ?_⟩
  · exact (hlook _ _ _ _).trans (if_neg hne)
  · change look _ k = n ∨ _ ∧ look _ k = look s.1 k
    by_cases hk : k ∈ keys_of s.1
    · exact Or.inr ⟨hk, by simp [lru, look, hk]⟩
    · exact Or.inl (by simp [lru, look, hk])
  · exact (nodup_others s.2 n).sublist ((List.drop_sublist _ _).map _)
  · change j ∈ insert k (keys_of s.1)
    rw [← hkeys s.1 k n]
    exact (hsplit _ j).mpr (Or.inr hj)
  · ext j
    change j ∈ keys_of (fitting max_bytes _) ↔ j ∈ insert k (keys_of s.1) \ _
    rw [← hkeys s.1 k n, Finset.mem_sdiff, List.mem_toFinset]
    have hnodup := nodup_others (k := k) s.2 n
    rw [← happend ((k, n) :: others s.1 k), List.map_append, List.nodup_append] at hnodup
    constructor
    · intro hj
      refine ⟨(hsplit _ j).mpr (Or.inl hj), fun hd => ?_⟩
      exact hnodup.2.2 j (List.mem_toFinset.mp hj) j hd rfl
    · rintro ⟨hj, hno⟩
      exact ((hsplit _ j).mp hj).resolve_right hno
  · change look (fitting max_bytes _) j = if j = k then n else look s.1 j
    rw [← hlook s.1 k n j]
    conv_rhs => rw [← happend ((k, n) :: others s.1 k)]
    exact (look_append _ _ hj).symm
  · change ∑ j ∈ keys_of (fitting max_bytes _), look (fitting max_bytes _) j ≤ max_bytes
    rw [sum_look ((nodup_others s.2 n).sublist ((fitting_start max_bytes _).sublist.map _))]
    exact fitting_sum _ _

end

/-! ## A restart forgets what is on disk -/

def other_hash : CombinedHash := ⟨"11ee".toList, by decide, by decide⟩

/-- The miss of one chunk on a key, in a process with a bound of 2 bytes. -/
def small_insert (key : CombinedHash) (d : Bytes) (s : Lru) : Prog Lru :=
  insert_and_evict (lru 2) small_cache s key (⟨[7]⟩ : Note) [d]

/-- Where that miss leads when it takes `n` calls. -/
def after_insert (key : CombinedHash) (d : Bytes) (n : Nat) (p : Process Lru) : Process Lru :=
  match run answer (small_insert key d p.manager) (List.replicate n plain) p.world with
  | some (s, w) => ⟨w, s, p.at_start⟩
  | none => p

theorem serves_after_insert {key : CombinedHash} {d : Bytes} {n : Nat} {p : Process Lru}
    (hd : d.length ≤ 2)
    (h : (run answer (small_insert key d p.manager) (List.replicate n plain) p.world).isSome) :
    Serves (lru 2) small_cache 2 p (.insert key (⟨[7]⟩ : Note) [d]) (after_insert key d n p) := by
  obtain ⟨⟨s, w⟩, hrun⟩ := Option.isSome_iff_exists.mp h
  rw [after_insert, hrun]
  refine .insert (by simpa using hd) (fun x hx => ?_) hrun
  rw [List.eq_of_mem_replicate hx]
  rfl

/-- An object as large as the bound, a restart, and another object. -/
def restart_events : List (Event CombinedHash Note) :=
  [.insert small_hash ⟨[7]⟩ [[1, 2]], .restart, .insert other_hash ⟨[7]⟩ [[3, 4]]]

def first_process : Process Lru :=
  after_insert small_hash [1, 2] 16 ⟨empty_world, (lru 2).new, bodies_len small_cache empty_world⟩

def second_process : Process Lru :=
  after_insert other_hash [3, 4] 16
    ⟨first_process.world, (lru 2).new, bodies_len small_cache first_process.world⟩

theorem restart_serve : Serve (lru 2) small_cache 2
    ⟨empty_world, (lru 2).new, bodies_len small_cache empty_world⟩ restart_events
    second_process := by
  refine .snoc (.snoc (.snoc (.nil _) (serves_after_insert (by decide) ?_)) (.restart rfl))
    (serves_after_insert (by decide) ?_)
  all_goals decide +kernel

theorem the_second_process_holds_at_most_the_bound_and_what_was_there :
    bodies_len small_cache second_process.world ≤ 2 + second_process.at_start :=
  the_disk_holds_at_most_the_bound_and_what_was_there (lru_bounded 2) small_cache empty_world
    (empty_world_laid _) restart_events second_process restart_serve

/-- The second process does not know the body that the first one left, so it does not give
it up: with a bound of 2 bytes there are 4 on disk. -/
theorem a_restart_forgets_the_bodies_on_disk :
    (lru 2).Bounded 2 ∧
    Serve (lru 2) small_cache 2 ⟨empty_world, (lru 2).new, bodies_len small_cache empty_world⟩
      restart_events second_process ∧
    bodies_len small_cache second_process.world = 4 :=
  ⟨lru_bounded 2, restart_serve, by decide +kernel⟩

end edge_cdn_store.eviction
