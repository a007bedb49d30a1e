-- Purges of one key that run at the same time, with lookups around them. Each
-- purge asks for the length of the body, removes the body, and counts it only
-- where that removal succeeded. So one purge wins the body, and it counts what
-- it has won.
import EdgeCdnStore.FinishFaults
import EdgeCdnStore.Sites

open edge_cdn_store.programs edge_cdn_store.programs.Program edge_cdn_store.io
open edge_cdn_store.file_tree edge_cdn_store.file_tree.FileTree
open edge_cdn_store.logger edge_cdn_store.disk_cache edge_cdn_store.pools
open edge_cdn_store.tasks edge_cdn_store.operations edge_cdn_store.finish_faults
open edge_cdn_store.courses

namespace edge_cdn_store.purge_races

variable {K M : Type} [CacheHashKey K] [CacheMeta M]

/-! ## How far a purge has come -/

/-- A lookup is always `looking`. A purge notes the length that it measured, and carries it
along while it counts the body that it removed. From `clearing` on it removes the rest: it
knows what it has won, and how much of the rest it has gone through. -/
inductive Phase
  | looking
  | asking
  | measured (len : Nat)
  | evicting (len : Nat)
  | crediting (len : Nat)
  | paying (len : Nat)
  | clearing (won : Option Nat) (through : Nat)
  deriving DecidableEq

/-- What a lookup may call. -/
def LookCall (cache : DiskCache) : Io → Prop
  | .create_dir_all p => p = cache.root
  | .join_order => True
  | .read _ => True
  | .open_file _ => True
  | .file_len _ => True
  | .inc_by c _ => c = .lookup_hits ∨ c = .misses
  | _ => False

def Phase.allows (cache : DiskCache) (hash : CombinedHash) : Phase → Io → Prop
  | .looking, e => LookCall cache e
  | .asking, .inc_by c _ => c = .purge_attempts
  | .asking, .metadata p => p = cache.body hash
  | .measured _, .remove_file p => p = cache.body hash
  | .evicting _, .inc_by c n => c = .evictions ∧ n = 1
  | .crediting len, .inc_by c n => c = .evicted_bytes ∧ n = len
  | .paying len, .size_bytes_sub k => k = len
  | .clearing _ 0, .remove_file p => p = cache.meta_part hash
  | .clearing _ 1, .remove_file p => p = cache.hdr hash
  | .clearing _ 2, .remove_dir p => p = cache.dir hash
  | _, _ => False

def Phase.next : Phase → (e : Io) → e.Reply → Phase
  | .asking, .metadata _, .ok len => .measured len
  | .asking, .metadata _, .error _ => .measured 0
  | .measured len, .remove_file _, .ok _ => .evicting len
  | .measured _, .remove_file _, .error _ => .clearing none 0
  | .evicting len, .inc_by _ _, _ => .crediting len
  | .crediting len, .inc_by _ _, _ => .paying len
  | .paying len, .size_bytes_sub _, _ => .clearing (some len) 0
  | .clearing won k, .remove_file _, _ => .clearing won (k + 1)
  | .clearing won k, .remove_dir _, _ => .clearing won (k + 1)
  | phase, _, _ => phase

/-- The length of the body that a purge has removed. -/
def Phase.took : Phase → Option Nat
  | .evicting len => some len
  | .crediting len => some len
  | .paying len => some len
  | .clearing won _ => won
  | _ => none

/-- A purge returns whether it removed the body, after it has gone through the rest. -/
def Fits : Outcome M → Phase → Prop
  | .existed r, phase => ∃ won, phase = .clearing won 3 ∧ r = .ok won.isSome
  | _, phase => phase = .looking

def Task.phase : Task K M → Phase
  | .purge _ _ => .asking
  | _ => .looking

/-- A purge of the key, or a lookup of any key. -/
def Visits (hash : CombinedHash) : Task K M → Prop
  | .purge key _ => CacheHashKey.combined key = hash
  | .lookup _ => True
  | _ => False

instance (hash : CombinedHash) : (t : Task K M) → Decidable (Visits hash t)
  | .purge key _ => inferInstanceAs (Decidable (CacheHashKey.combined key = hash))
  | .lookup _ => isTrue trivial
  | .get_miss_handler _ _ => isFalse id
  | .write_body _ _ _ _ => isFalse id
  | .finish _ _ => isFalse id
  | .drop_handler _ _ => isFalse id
  | .update_meta _ _ => isFalse id

section
variable {cache : DiskCache} {hash : CombinedHash}

/-- A lookup only looks. -/
theorem lookup_looks (key : K) :
    (cache.lookup (M := M) key).Obeys (Phase.allows cache hash) Phase.next
      (fun _ phase => phase = .looking) .looking := by
  refine lookup_course (I := fun _ _ _ phase => phase = .looking) ?_ rfl
  constructor
  case root =>
    rintro _ rfl
    exact ⟨rfl, fun _ _ => rfl, rfl⟩
  case order =>
    rintro _ rfl
    exact ⟨trivial, fun _ => rfl⟩
  case read_meta =>
    rintro y z _ rfl
    exact ⟨trivial, fun _ => rfl⟩
  case read_hdr =>
    rintro x z _ rfl
    exact ⟨trivial, fun _ => rfl⟩
  case open_body =>
    rintro x y _ rfl
    exact ⟨trivial, fun _ => rfl⟩
  case miss =>
    rintro x y z _ rfl _
    exact ⟨Or.inr rfl, rfl⟩
  case size =>
    rintro mi mh f _ rfl
    exact ⟨trivial, fun _ _ => rfl⟩
  case hit =>
    rintro mi mh f len _ rfl
    exact ⟨Or.inl rfl, rfl⟩

/-- The phase of a purge, from how far it has come. -/
def purge_phase : Purging → Phase
  | .begun => .asking
  | .attempted => .asking
  | .measured len => .measured len
  | .taken len => .evicting len
  | .evicted len => .crediting len
  | .credited len => .paying len
  | .clearing won => .clearing won 0
  | .meta_gone won => .clearing won 1
  | .hdr_gone won => .clearing won 2
  | .left won => .clearing won 3

theorem purge_obeys (key : K) (purge_type : PurgeType) :
    (cache.purge key purge_type).Obeys (Phase.allows cache (CacheHashKey.combined key)) Phase.next
      (fun r phase => ∃ won, phase = .clearing won 3 ∧ r = .ok won.isSome) .asking := by
  apply obeys_beside (J := fun x phase => phase = purge_phase x)
    (purge_course cache key purge_type) rfl
  · rintro x _ e rfl ha
    cases x
    case taken len =>
      obtain rfl := ha
      exact ⟨⟨rfl, rfl⟩, fun _ => rfl⟩
    case evicted len =>
      obtain rfl := ha
      exact ⟨⟨rfl, rfl⟩, fun _ => rfl⟩
    case left won => exact absurd ha id
    all_goals
      obtain rfl := ha
      exact ⟨rfl, fun r => by cases r <;> rfl⟩
  · rintro r x _ ⟨won, rfl, hr⟩ rfl
    exact ⟨won, rfl, hr⟩

theorem task_obeys (t : Task K M) (h : Visits hash t) :
    (t.program cache).Obeys (Phase.allows cache hash) Phase.next Fits (Task.phase t) := by
  cases t with
  | purge key purge_type =>
    obtain rfl : CacheHashKey.combined key = hash := h
    unfold Task.program
    rw [obeys_bind]
    exact obeys_mono (purge_obeys key purge_type) fun r phase h => h
  | lookup key =>
    unfold Task.program
    rw [obeys_bind]
    exact obeys_mono (lookup_looks key) fun r phase h => h
  | _ => exact absurd h id

end

/-! ## What one call does -/

/-- The metrics that a purge moves. -/
abbrev Score := Nat × Nat × Int

def score (w : World) : Score :=
  (w.metrics.counter .evictions, w.metrics.counter .evicted_bytes, w.metrics.size_bytes)

/-- The calls of purges and lookups, by what they do to the files of the key and to the score. -/
inductive Step : Phase → Files → Score → Phase → Files → Score → Prop
  | looks (f : Files) (s : Score) : Step .looking f s .looking f s
  | attempts (f : Files) (s : Score) : Step .asking f s .asking f s
  | measures (f : Files) (s : Score) : Step .asking f s (.measured f.body_len) f s
  | takes (len : Nat) (d : Bytes) (f : Files) (s : Score) (h : f.body = some d) :
      Step (.measured len) f s (.evicting len) { f with body := none } s
  | comes_late (len : Nat) (f : Files) (s : Score) (h : f.body = none) :
      Step (.measured len) f s (.clearing none 0) f s
  | evicts (len : Nat) (f : Files) (s : Score) :
      Step (.evicting len) f s (.crediting len) f (s + (1, 0, 0))
  | credits (len : Nat) (f : Files) (s : Score) :
      Step (.crediting len) f s (.paying len) f (s + (0, len, 0))
  | pays (len : Nat) (f : Files) (s : Score) :
      Step (.paying len) f s (.clearing (some len) 0) f (s + (0, 0, -(len : Int)))
  | clears_meta (won : Option Nat) (f : Files) (s : Score) :
      Step (.clearing won 0) f s (.clearing won 1) { f with cache_meta := none } s
  | clears_hdr (won : Option Nat) (f : Files) (s : Score) :
      Step (.clearing won 1) f s (.clearing won 2) { f with hdr := none } s
  | clears_dir (won : Option Nat) (f : Files) (s : Score) :
      Step (.clearing won 2) f s (.clearing won 3) f s

section
variable {cache : DiskCache} {hash : CombinedHash} {w : World} {c : Choice} {e : Io}

/-- A file of the cache goes, if it is there. -/
theorem answer_remove_file (hw : cache.Laid w.tree) (hc : Calm c) {p : PathBuf}
    (hp : p ∈ cache.files) : ∃ r w', answer (.remove_file p) c w = (r, w') ∧
      cache.Laid w'.tree ∧ w'.metrics = w.metrics ∧
      (∀ q, w'.tree.content q = if q = p then none else w.tree.content q) ∧
      ((∃ d, w.tree.content p = some d ∧ r = .ok ()) ∨
        ∃ x, w.tree.content p = none ∧ r = .error x) := by
  have hfault : c.fault = none := hc
  simp only [answer, Choice.guard, hfault]
  rcases hw.node_cases hp with hnone | ⟨i, hi⟩
  · have hcontent := content_eq_none_of_node hnone
    rw [hnone]
    refine ⟨_, _, rfl, hw, rfl, fun q => ?_, Or.inr ⟨_, hcontent, rfl⟩⟩
    by_cases hq : q = p
    · rw [if_pos hq, hq, hcontent]
    · rw [if_neg hq]
  · rw [hi]
    exact ⟨_, _, rfl, hw.remove _, rfl, fun q => content_remove_file hi q,
      Or.inl ⟨_, content_of_file hi, rfl⟩⟩

/-- One of the three files of the key goes. -/
theorem files_of_removed {w' : World} {n : List Char}
    (h : ∀ q, w'.tree.content q = if q = cache.entry hash n then none else w.tree.content q) :
    files_of cache w' hash = ⟨if n = "body".toList then none else (files_of cache w hash).body,
      if n = "meta".toList then none else (files_of cache w hash).cache_meta,
      if n = "hdr".toList then none else (files_of cache w hash).hdr⟩ := by
  have hentry : ∀ m, w'.tree.content (cache.entry hash m) =
      if n = m then none else w.tree.content (cache.entry hash m) := by
    intro m
    rw [h]
    by_cases hm : n = m
    · rw [if_pos hm, if_pos (by rw [hm])]
    · rw [if_neg hm, if_neg (DiskCache.entry_ne (Ne.symm hm))]
  simp only [files_of, DiskCache.body_eq, DiskCache.meta_part_eq, DiskCache.hdr_eq, hentry]

/-- A lookup changes neither the files of the key nor the score. -/
theorem look_call (hash : CombinedHash) (hw : cache.Laid w.tree) (hc : Calm c)
    (he : LookCall cache e) :
    cache.Laid (answer e c w).2.tree ∧
      files_of cache (answer e c w).2 hash = files_of cache w hash ∧
      score (answer e c w).2 = score w := by
  have hfault : c.fault = none := hc
  cases e
  case create_dir_all p =>
    obtain rfl : p = cache.root := he
    simp only [answer, Choice.guard, hfault]
    refine ⟨hw.mkdirs fun q hq => ?_, ?_, rfl⟩
    · exact DiskCache.not_mem_files_of_mem_dirs
        (DiskCache.mem_dirs_of_prefix (DiskCache.root_mem_dirs cache hash) hq)
    · simp only [files_of, World.setTree, content_mkdirs]
  case join_order => exact ⟨hw, rfl, rfl⟩
  case read p =>
    simp only [answer, Choice.guard, hfault]
    exact ⟨hw, trivial, trivial⟩
  case open_file p =>
    simp only [answer, Choice.guard, hfault]
    split <;> exact ⟨hw, rfl, rfl⟩
  case file_len f =>
    simp only [answer, Choice.guard, hfault]
    exact ⟨hw, trivial, trivial⟩
  case inc_by k n =>
    refine ⟨hw, rfl, ?_⟩
    rcases he with rfl | rfl <;> rfl
  all_goals exact absurd he id

/-- A directory holds no bytes. -/
theorem remove_dir_call (hash : CombinedHash) (hw : cache.Laid w.tree) (hc : Calm c)
    (p : PathBuf) :
    cache.Laid (answer (.remove_dir p) c w).2.tree ∧
      files_of cache (answer (.remove_dir p) c w).2 hash = files_of cache w hash ∧
      (answer (.remove_dir p) c w).2.metrics = w.metrics := by
  have hfault : c.fault = none := hc
  simp only [answer, Choice.guard, hfault]
  split
  · rename_i hdir
    split
    · refine ⟨hw.remove _, ?_, rfl⟩
      simp only [files_of, World.setTree, content_remove_dir hdir]
    · exact ⟨hw, rfl, rfl⟩
  · exact ⟨hw, rfl, rfl⟩
  · exact ⟨hw, rfl, rfl⟩

/-- What the metadata of the body says of its length. -/
theorem answer_metadata_body (hw : cache.Laid w.tree) (hc : Calm c) :
    answer (.metadata (cache.body hash)) c w =
      (match (files_of cache w hash).body with
        | some d => .ok d.length
        | none => .error notFound, w) := by
  have hfault : c.fault = none := hc
  simp only [answer, Choice.guard, hfault, files_of]
  have hmem : cache.body hash ∈ cache.files := DiskCache.entry_mem_files
  rcases hw.node_cases hmem with hnone | ⟨i, hi⟩
  · rw [hnone, content_eq_none_of_node hnone]
  · rw [hi, content_of_file hi]

theorem score_congr {w' : World} (h : w'.metrics = w.metrics) : score w' = score w := by
  unfold score
  rw [h]

/-- The removal of the body: the first one takes it, and the others come late. -/
theorem remove_body_step {len : Nat} (hw : cache.Laid w.tree) (hc : Calm c)
    (ha : (Phase.measured len).allows cache hash e) :
    cache.Laid (answer e c w).2.tree ∧
      Step (.measured len) (files_of cache w hash) (score w)
        (Phase.next (.measured len) e (answer e c w).1) (files_of cache (answer e c w).2 hash)
        (score (answer e c w).2) := by
  cases e
  case remove_file p =>
    obtain rfl : p = cache.body hash := ha
    obtain ⟨r, w', h, hlaid, hmetrics, hcontent, hr⟩ := answer_remove_file hw hc
      (show cache.body hash ∈ cache.files from DiskCache.entry_mem_files)
    have hfiles : files_of cache w' hash = { files_of cache w hash with body := none } :=
      files_of_removed hcontent
    rw [h]
    refine ⟨hlaid, ?_⟩
    rw [hfiles, score_congr hmetrics]
    rcases hr with ⟨d, hd, rfl⟩ | ⟨x, hnone, rfl⟩
    · exact .takes len d _ _ hd
    · have hsame : { files_of cache w hash with body := none } = files_of cache w hash := by
        simp only [files_of, hnone]
      rw [hsame]
      exact .comes_late len _ _ hnone
  all_goals exact absurd ha id

/-- The last three calls of a purge. -/
theorem clearing_step {won : Option Nat} {k : Nat} (hw : cache.Laid w.tree) (hc : Calm c)
    (ha : (Phase.clearing won k).allows cache hash e) :
    cache.Laid (answer e c w).2.tree ∧
      Step (.clearing won k) (files_of cache w hash) (score w)
        (Phase.next (.clearing won k) e (answer e c w).1) (files_of cache (answer e c w).2 hash)
        (score (answer e c w).2) := by
  rcases k with _ | _ | _ | n
  · cases e
    case remove_file p =>
      obtain rfl : p = cache.meta_part hash := ha
      obtain ⟨r, w', h, hlaid, hmetrics, hcontent, _⟩ := answer_remove_file hw hc
        (show cache.meta_part hash ∈ cache.files from DiskCache.entry_mem_files)
      have hfiles : files_of cache w' hash = { files_of cache w hash with cache_meta := none } :=
        files_of_removed hcontent
      rw [h, hfiles, score_congr hmetrics]
      exact ⟨hlaid, .clears_meta won _ _⟩
    all_goals exact absurd ha id
  · cases e
    case remove_file p =>
      obtain rfl : p = cache.hdr hash := ha
      obtain ⟨r, w', h, hlaid, hmetrics, hcontent, _⟩ := answer_remove_file hw hc
        (show cache.hdr hash ∈ cache.files from DiskCache.entry_mem_files)
      have hfiles : files_of cache w' hash = { files_of cache w hash with hdr := none } :=
        files_of_removed hcontent
      rw [h, hfiles, score_congr hmetrics]
      exact ⟨hlaid, .clears_hdr won _ _⟩
    all_goals exact absurd ha id
  · cases e
    case remove_dir p =>
      obtain ⟨hlaid, hfiles, hmetrics⟩ := remove_dir_call hash hw hc p
      rw [hfiles, score_congr hmetrics]
      exact ⟨hlaid, .clears_dir won _ _⟩
    all_goals exact absurd ha id
  · cases e <;> exact absurd ha id

/-- Each call that the phase of a purge or of a lookup allows is one of the steps. -/
theorem step_of_call {x : Phase} (hw : cache.Laid w.tree) (hc : Calm c)
    (ha : x.allows cache hash e) :
    cache.Laid (answer e c w).2.tree ∧
      Step x (files_of cache w hash) (score w) (x.next e (answer e c w).1)
        (files_of cache (answer e c w).2 hash) (score (answer e c w).2) := by
  cases x with
  | looking =>
    obtain ⟨hlaid, hfiles, hscore⟩ := look_call hash hw hc ha
    refine ⟨hlaid, ?_⟩
    have hnext : Phase.next .looking e (answer e c w).1 = .looking := by cases e <;> rfl
    rw [hfiles, hscore, hnext]
    exact .looks _ _
  | asking =>
    cases e
    case inc_by k n =>
      obtain rfl : k = .purge_attempts := ha
      exact ⟨hw, .attempts _ _⟩
    case metadata p =>
      obtain rfl : p = cache.body hash := ha
      rw [answer_metadata_body hw hc]
      refine ⟨hw, ?_⟩
      have hstep := Step.measures (files_of cache w hash) (score w)
      unfold Files.body_len at hstep
      cases hb : (files_of cache w hash).body with
      | none =>
        rw [hb] at hstep
        exact hstep
      | some d =>
        rw [hb] at hstep
        exact hstep
    all_goals exact absurd ha id
  | measured len => exact remove_body_step hw hc ha
  | evicting len =>
    cases e
    case inc_by k n =>
      obtain ⟨rfl, rfl⟩ : k = .evictions ∧ n = 1 := ha
      have hscore : score (answer (.inc_by .evictions 1) c w).2 = score w + (1, 0, 0) := by
        simp [score, answer, World.setMetrics, CacheMetrics.inc_by]
      rw [hscore]
      exact ⟨hw, .evicts len _ _⟩
    all_goals exact absurd ha id
  | crediting len =>
    cases e
    case inc_by k n =>
      obtain ⟨rfl, rfl⟩ : k = .evicted_bytes ∧ n = len := ha
      have hscore : score (answer (.inc_by .evicted_bytes n) c w).2 = score w + (0, n, 0) := by
        simp [score, answer, World.setMetrics, CacheMetrics.inc_by]
      rw [hscore]
      exact ⟨hw, .credits n _ _⟩
    all_goals exact absurd ha id
  | paying len =>
    cases e
    case size_bytes_sub k =>
      obtain rfl : k = len := ha
      have hscore : score (answer (.size_bytes_sub len) c w).2 =
          score w + (0, 0, -(len : Int)) := by
        simp [score, answer, World.setMetrics, CacheMetrics.add]
      rw [hscore]
      exact ⟨hw, .pays len _ _⟩
    all_goals exact absurd ha id
  | clearing won k => exact clearing_step hw hc ha

end

/-! ## Who wins the body -/

/-- How far a purge has counted the body that it removed. -/
def Phase.credit : Phase → Score
  | .crediting _ => (1, 0, 0)
  | .paying len => (1, len, 0)
  | .clearing (some len) _ => (1, len, -(len : Int))
  | _ => 0

/-- What was measured is the length of the body `d`. -/
def Phase.Measures (d : Option Bytes) (x : Phase) : Prop :=
  ∀ len, x = .measured len → len = (d.map List.length).getD 0

/-- The score `s` after the start `s0`, where `d` is left of the body `d0`: either no purge has
taken it, or one purge has, and the score has moved by as much as that purge has counted. -/
inductive Tally (d0 : Option Bytes) (s0 : Score) (xs : List Phase) : Option Bytes → Score → Prop
  | untaken (h : ∀ x ∈ xs, x.took = none ∧ x.Measures d0) : Tally d0 s0 xs d0 s0
  | won (b : Bytes) (i : Nat) (x : Phase) (hd0 : d0 = some b) (hi : xs[i]? = some x)
      (hx : x.took = some b.length) (honly : ∀ j y, xs[j]? = some y → y.took ≠ none → j = i)
      (s : Score) (hs : s = s0 + x.credit) : Tally d0 s0 xs none s

/-- What a purge has found gone, or removed. -/
def Phase.Gone (f : Files) : Phase → Prop
  | .evicting _ => f.body = none
  | .crediting _ => f.body = none
  | .paying _ => f.body = none
  | .clearing _ k => f.body = none ∧ (1 ≤ k → f.cache_meta = none) ∧ (2 ≤ k → f.hdr = none)
  | _ => True

section
variable {d0 d : Option Bytes} {s0 s : Score} {xs : List Phase} {i : Nat} {x y : Phase}

/-- A step of a phase that neither takes the body nor counts it. -/
theorem Tally.keep (h : Tally d0 s0 xs d s) (hi : xs[i]? = some x) (htook : y.took = x.took)
    (hcredit : y.credit = x.credit) (hy : y.Measures d) : Tally d0 s0 (xs.set i y) d s := by
  cases h with
  | untaken h =>
    refine .untaken fun z hz => ?_
    rcases List.mem_or_eq_of_mem_set hz with hz | rfl
    · exact h z hz
    · exact ⟨htook.trans (h x (List.mem_of_getElem? hi)).1, hy⟩
  | won b k z hd0 hk hz honly s hs =>
    have honly' : ∀ j v, (xs.set i y)[j]? = some v → v.took ≠ none → j = k := by
      intro j v hj hv
      rcases getElem?_set_cases hj with ⟨rfl, rfl⟩ | ⟨_, hj⟩
      · exact honly j x hi (by rwa [← htook])
      · exact honly j v hj hv
    by_cases hik : i = k
    · subst hik
      obtain rfl : x = z := Option.some.inj (hi.symm.trans hk)
      have hlt : i < xs.length := (List.getElem?_eq_some_iff.mp hi).1
      refine .won b i y hd0 (List.getElem?_set_self hlt) (htook.trans hz) honly' s ?_
      rw [hcredit, hs]
    · exact .won b k z hd0 ((List.getElem?_set_ne hik).trans hk) hz honly' s hs

/-- The first removal of the body that succeeds wins it, with its length. -/
theorem Tally.take {len : Nat} {b : Bytes} (h : Tally d0 s0 xs (some b) s)
    (hi : xs[i]? = some (.measured len)) : Tally d0 s0 (xs.set i (.evicting len)) none s := by
  generalize hd : some b = d at h
  cases h with
  | untaken h =>
    subst hd
    have hlen : len = b.length := (h _ (List.mem_of_getElem? hi)).2 len rfl
    have hlt : i < xs.length := (List.getElem?_eq_some_iff.mp hi).1
    refine .won b i (.evicting len) rfl (List.getElem?_set_self hlt) ?_ (fun j y hj hy => ?_) _ ?_
    · rw [hlen]
      rfl
    · rcases getElem?_set_cases hj with ⟨rfl, _⟩ | ⟨_, hj⟩
      · rfl
      · exact absurd (h y (List.mem_of_getElem? hj)).1 hy
    · exact (add_zero s0).symm
  | won => cases hd

/-- Only the purge that has won the body counts it. -/
theorem Tally.count {δ : Score} (h : Tally d0 s0 xs d s) (hi : xs[i]? = some x)
    (hx : x.took ≠ none) (htook : y.took = x.took) (hcredit : y.credit = x.credit + δ) :
    Tally d0 s0 (xs.set i y) d (s + δ) := by
  cases h with
  | untaken h => exact absurd (h x (List.mem_of_getElem? hi)).1 hx
  | won b k z hd0 hk hz honly s hs =>
    obtain rfl : i = k := honly i x hi hx
    obtain rfl : x = z := Option.some.inj (hi.symm.trans hk)
    have hlt : i < xs.length := (List.getElem?_eq_some_iff.mp hi).1
    refine .won b i y hd0 (List.getElem?_set_self hlt) (htook.trans hz) (fun j v hj hv => ?_) _ ?_
    · rcases getElem?_set_cases hj with ⟨rfl, _⟩ | ⟨_, hj⟩
      · rfl
      · exact honly j v hj hv
    · rw [hs, hcredit, add_assoc]

theorem Tally.step {f f' : Files} {s' : Score} (h : Tally d0 s0 xs f.body s)
    (hi : xs[i]? = some x) (hs : Step x f s y f' s') :
    Tally d0 s0 (xs.set i y) f'.body s' := by
  have hnot : ∀ {z : Phase}, (∀ len, z ≠ .measured len) → z.Measures f.body :=
    fun hz len he => absurd he (hz len)
  cases hs with
  | looks => exact h.keep hi rfl rfl (hnot fun _ => by simp)
  | attempts => exact h.keep hi rfl rfl (hnot fun _ => by simp)
  | measures =>
    refine h.keep hi rfl rfl fun len he => ?_
    cases he
    rfl
  | takes len b _ _ hb =>
    rw [hb] at h
    exact h.take hi
  | comes_late => exact h.keep hi rfl rfl (hnot fun _ => by simp)
  | evicts => exact h.count hi (by simp [Phase.took]) rfl rfl
  | credits len => exact h.count hi (by simp [Phase.took]) rfl (by simp [Phase.credit])
  | pays len => exact h.count hi (by simp [Phase.took]) rfl (by simp [Phase.credit])
  | clears_meta won =>
    refine h.keep hi rfl ?_ (hnot fun _ => by simp)
    cases won <;> rfl
  | clears_hdr won =>
    refine h.keep hi rfl ?_ (hnot fun _ => by simp)
    cases won <;> rfl
  | clears_dir won =>
    refine h.keep hi rfl ?_ (hnot fun _ => by simp)
    cases won <;> rfl

/-- What is gone stays gone, for the purge that made the step and for the others. -/
theorem Step.gone {f f' : Files} {s' : Score} (hs : Step x f s y f' s') :
    (x.Gone f → y.Gone f') ∧ ∀ z : Phase, z.Gone f → z.Gone f' := by
  have hshrinks : (f.body = none → f'.body = none) ∧ (f.cache_meta = none → f'.cache_meta = none) ∧
      (f.hdr = none → f'.hdr = none) := by
    cases hs <;> simp
  obtain ⟨hbody, hmeta, hhdr⟩ := hshrinks
  have hothers : ∀ z : Phase, z.Gone f → z.Gone f' := by
    intro z hz
    cases z with
    | looking => trivial
    | asking => trivial
    | measured len => trivial
    | evicting len => exact hbody hz
    | crediting len => exact hbody hz
    | paying len => exact hbody hz
    | clearing won k =>
      obtain ⟨h1, h2, h3⟩ := hz
      exact ⟨hbody h1, fun hk => hmeta (h2 hk), fun hk => hhdr (h3 hk)⟩
  refine ⟨fun hx => ?_, hothers⟩
  cases hs with
  | looks => trivial
  | attempts => trivial
  | measures => trivial
  | takes => exact rfl
  | comes_late _ _ _ h => exact ⟨h, fun hk => by omega, fun hk => by omega⟩
  | evicts => exact hx
  | credits => exact hx
  | pays => exact ⟨hx, fun hk => by omega, fun hk => by omega⟩
  | clears_meta => exact ⟨hx.1, fun _ => rfl, fun hk => by omega⟩
  | clears_hdr => exact ⟨hx.1, fun _ => hx.2.1 (by omega), fun _ => rfl⟩
  | clears_dir => exact ⟨hx.1, fun _ => hx.2.1 (by omega), fun _ => hx.2.2 (by omega)⟩

end

/-! ## Whole runs -/

abbrev purge_system (K M : Type) [CacheHashKey K] [CacheMeta M] (cache : DiskCache) :
    System Io Io.Reply Choice World (Outcome M) Phase Unit (Task K M) where
  env := answer
  start t := (t.program cache, Task.phase t)
  next := Phase.next
  record _ _ _ _ _ _ h := h

abbrev PurgePool (M : Type) := Pool Io Io.Reply (Outcome M) Phase World Unit

/-- A disk and its metrics, and nobody at work yet. -/
def quiet_pool (M : Type) (w : World) : PurgePool M := ⟨[], w, ()⟩

/-- Purges of the key and lookups come at any time and make their calls in any order. No call
fails, unless what it asks for is not there. -/
def PurgesAndLookups (hash : CombinedHash) (_ : PurgePool M) : Event Choice World (Task K M) → Prop
  | .spawn t => Visits hash t
  | .call _ c => Calm c
  | .crash => False
  | .outside _ => False

instance (hash : CombinedHash) (p : PurgePool M) :
    (ev : Event Choice World (Task K M)) → Decidable (PurgesAndLookups hash p ev)
  | .spawn t => inferInstanceAs (Decidable (Visits hash t))
  | .call _ c => inferInstanceAs (Decidable (Calm c))
  | .crash => isFalse id
  | .outside _ => isFalse id

/-- What holds at every moment of such a run that started in `w0`. -/
structure Race (cache : DiskCache) (hash : CombinedHash) (w0 : World) (xs : List Phase)
    (w : World) : Prop where
  laid : cache.Laid w.tree
  tally : Tally (files_of cache w0 hash).body (score w0) xs (files_of cache w hash).body (score w)
  gone : ∀ x ∈ xs, x.Gone (files_of cache w hash)

section
variable {cache : DiskCache} {hash : CombinedHash} {w0 w : World} {xs : List Phase}

theorem Race.spawn (h : Race cache hash w0 xs w) {y : Phase} (hy : y = .asking ∨ y = .looking) :
    Race cache hash w0 (xs ++ [y]) w := by
  have htook : y.took = none := by rcases hy with rfl | rfl <;> rfl
  have hfresh : ∀ len, y ≠ .measured len := by rcases hy with rfl | rfl <;> simp
  refine ⟨h.laid, ?_, fun x hx => ?_⟩
  · have htally := h.tally
    generalize (files_of cache w hash).body = d at htally ⊢
    generalize score w = s at htally ⊢
    cases htally with
    | untaken hall =>
      refine .untaken fun x hx => ?_
      rcases List.mem_append.mp hx with hx | hx
      · exact hall x hx
      · obtain rfl : x = y := List.mem_singleton.mp hx
        exact ⟨htook, fun len he => absurd he (hfresh len)⟩
    | won b i x hd0 hi hx honly s hs =>
      have hlt : i < xs.length := (List.getElem?_eq_some_iff.mp hi).1
      refine .won b i x hd0 ((List.getElem?_append_left hlt).trans hi) hx (fun j v hj hv => ?_) s hs
      rcases getElem?_append_cases hj with hj | ⟨_, rfl⟩
      · exact honly j v hj hv
      · exact absurd htook hv
  · rcases List.mem_append.mp hx with hx | hx
    · exact h.gone x hx
    · obtain rfl : x = y := List.mem_singleton.mp hx
      rcases hy with rfl | rfl <;> trivial

theorem Race.call (h : Race cache hash w0 xs w) {i : Nat} {x : Phase} {e : Io} {c : Choice}
    (hi : xs[i]? = some x) (ha : x.allows cache hash e) (hc : Calm c) :
    Race cache hash w0 (xs.set i (x.next e (answer e c w).1)) (answer e c w).2 := by
  obtain ⟨hlaid, hstep⟩ := step_of_call h.laid hc ha
  refine ⟨hlaid, h.tally.step hi hstep, fun z hz => ?_⟩
  rcases List.mem_or_eq_of_mem_set hz with hz | rfl
  · exact hstep.gone.2 z (h.gone z hz)
  · exact hstep.gone.1 (h.gone x (List.mem_of_getElem? hi))

theorem race_invariant (cache : DiskCache) (hash : CombinedHash) (w0 : World) :
    (purge_system K M cache).Invariant (Phase.allows cache hash) Fits
      (PurgesAndLookups hash) (fun xs w _ => Race cache hash w0 xs w) where
  start _ t ht := task_obeys t ht
  spawn _ t _ _ hI := by
    apply hI.spawn
    cases t <;> first | exact Or.inl rfl | exact Or.inr rfl
  call _ _ _ _ _ _ hc hi ha hI := hI.call (Pool.notes_getElem? hi) ha hc
  crash _ hP := absurd hP id
  outside _ _ hP := absurd hP id

end

/-- Every purge is done. Lookups may still be at work. -/
def PurgesDone (p : PurgePool M) : Prop :=
  ∀ x ∈ p.threads, x.2 = .looking ∨ ∃ a, x.1 = .done a

instance (x : Prog (Outcome M)) : Decidable (∃ a, x = .done a) :=
  match x with
  | .done a => isTrue ⟨a, rfl⟩
  | .call _ _ => isFalse (by rintro ⟨a, ha⟩; cases ha)

instance (p : PurgePool M) : Decidable (PurgesDone p) :=
  inferInstanceAs (Decidable (∀ x ∈ p.threads, _ ∨ _))

/-- One purge of the key returned true, and a body of `len` bytes was counted. -/
structure EvictedOnce (w0 : World) (p : PurgePool M) (len : Nat) : Prop where
  once : ∃! i : Nat, p.results[i]? = some (some (Outcome.existed (.ok true)))
  evictions : p.state.metrics.counter .evictions = w0.metrics.counter .evictions + 1
  evicted_bytes : p.state.metrics.counter .evicted_bytes = w0.metrics.counter .evicted_bytes + len
  size_bytes : p.state.metrics.size_bytes = w0.metrics.size_bytes - len

/-- Every purge of the key returned false, and nothing was counted. -/
structure NothingEvicted (w0 : World) (p : PurgePool M) : Prop where
  none_did : ∀ (i : Nat) (r : Result Bool), p.results[i]? = some (some (.existed r)) → r = .ok false
  evictions : p.state.metrics.counter .evictions = w0.metrics.counter .evictions
  evicted_bytes : p.state.metrics.counter .evicted_bytes = w0.metrics.counter .evicted_bytes
  size_bytes : p.state.metrics.size_bytes = w0.metrics.size_bytes

/-- A purge that is done has gone through all, and returned whether it took the body. -/
theorem phase_of_result {cache : DiskCache} {hash : CombinedHash} {p : PurgePool M} {i : Nat}
    {r : Result Bool} (hobey : (purge_system K M cache).Obedient (Phase.allows cache hash) Fits p)
    (hi : p.results[i]? = some (some (.existed r))) :
    ∃ won, p.notes[i]? = some (.clearing won 3) ∧ r = .ok won.isSome := by
  obtain ⟨x, hx⟩ := Pool.results_getElem? hi
  obtain ⟨won, rfl, hr⟩ := hobey.done (List.mem_of_getElem? hx)
  exact ⟨won, Pool.notes_getElem? hx, hr⟩

section
variable {cache : DiskCache} {hash : CombinedHash} {w0 : World} {p : PurgePool M}

/-- Once a purge is done, no file of the key is left. -/
theorem files_gone (hobey : (purge_system K M cache).Obedient (Phase.allows cache hash) Fits p)
    (hI : Race cache hash w0 p.notes p.state) {i : Nat} {r : Result Bool}
    (hi : p.results[i]? = some (some (.existed r))) :
    files_of cache p.state hash = ⟨none, none, none⟩ := by
  obtain ⟨won, hnote, _⟩ := phase_of_result hobey hi
  obtain ⟨hbody, hmeta, hhdr⟩ := hI.gone _ (List.mem_of_getElem? hnote)
  cases hf : files_of cache p.state hash with
  | mk b m h =>
    rw [hf] at hbody hmeta hhdr
    simp only [Files.mk.injEq]
    exact ⟨hbody, hmeta (by omega), hhdr (by omega)⟩

/-- Where nobody took the body, each purge returned false. -/
theorem nothing_evicted (hobey : (purge_system K M cache).Obedient (Phase.allows cache hash) Fits p)
    (hall : ∀ x ∈ p.notes, x.took = none) (hscore : score w0 = score p.state) :
    NothingEvicted w0 p := by
  simp only [score, Prod.mk.injEq] at hscore
  obtain ⟨hevictions, hbytes, hsize⟩ := hscore
  refine ⟨fun i r hi => ?_, hevictions.symm, hbytes.symm, hsize.symm⟩
  obtain ⟨won, hnote, hr⟩ := phase_of_result hobey hi
  obtain rfl : won = none := hall _ (List.mem_of_getElem? hnote)
  exact hr

/-- The purge that has taken the body is done, so it returned true and has counted all. -/
theorem evicted_once (hobey : (purge_system K M cache).Obedient (Phase.allows cache hash) Fits p)
    (hdone : PurgesDone p) {len i : Nat} {x : Phase} (hi : p.notes[i]? = some x)
    (hx : x.took = some len) (honly : ∀ j y, p.notes[j]? = some y → y.took ≠ none → j = i)
    (hscore : score p.state = score w0 + x.credit) : EvictedOnce w0 p len := by
  obtain ⟨prog, hthread⟩ := Pool.threads_of_notes hi
  have hmem : (prog, x) ∈ p.threads := List.mem_of_getElem? hthread
  have hnot : x ≠ .looking := by
    rintro rfl
    cases hx
  obtain ⟨a, rfl⟩ := (hdone _ hmem).resolve_left hnot
  have hfits : Fits a x := hobey.done hmem
  obtain ⟨r, rfl⟩ : ∃ r, a = .existed r := by
    cases a
    case existed r => exact ⟨r, rfl⟩
    all_goals exact absurd hfits hnot
  obtain ⟨won, rfl, hr⟩ := hfits
  obtain rfl : won = some len := hx
  obtain rfl : r = .ok true := hr
  simp only [score, Phase.credit, Prod.mk_add_mk, Prod.mk.injEq] at hscore
  refine ⟨⟨i, Pool.results_of_done hthread, fun j hj => ?_⟩, hscore.1, hscore.2.1, ?_⟩
  · obtain ⟨won, hnote, hr⟩ := phase_of_result hobey hj
    refine honly j _ hnote fun hnone => ?_
    obtain rfl : won = none := hnone
    cases hr
  · have := hscore.2.2
    omega

end

/-- Of any number of purges of a key that run at the same time, with lookups around them, exactly
one returns true when the key had a body, and what is counted is the length of that body. All
return false when there was none. No file of the key is left. -/
theorem each_stored_body_is_evicted_once (cache : DiskCache) (hash : CombinedHash) (w0 : World)
    (hlaid : cache.Laid w0.tree) (evs : List (Event Choice World (Task K M))) (p : PurgePool M)
    (hP : (purge_system K M cache).Along (PurgesAndLookups hash) (quiet_pool M w0) evs)
    (hr : (purge_system K M cache).run (quiet_pool M w0) evs = some p)
    (hsome : ∃ (i : Nat) (r : Result Bool), p.results[i]? = some (some (.existed r)))
    (hdone : PurgesDone p) :
    (∀ (i : Nat) (r : Result Bool), p.results[i]? = some (some (.existed r)) → ∃ b, r = .ok b) ∧
    files_of cache p.state hash = ⟨none, none, none⟩ ∧
    (∀ d, w0.tree.content (cache.body hash) = some d → EvictedOnce w0 p d.length) ∧
    (w0.tree.content (cache.body hash) = none → NothingEvicted w0 p) := by
  obtain ⟨hobey, hI⟩ := (race_invariant cache hash w0).run (p := quiet_pool M w0)
    (fun x hx => absurd hx List.not_mem_nil)
    ⟨hlaid, .untaken fun x hx => absurd hx List.not_mem_nil, fun x hx => absurd hx List.not_mem_nil⟩
    hP hr
  obtain ⟨i, r, hi⟩ := hsome
  have hleft := files_gone hobey hI hi
  refine ⟨fun i r hi => ?_, hleft, ?_⟩
  · obtain ⟨won, _, hr⟩ := phase_of_result hobey hi
    exact ⟨_, hr⟩
  · have htally := hI.tally
    rw [hleft] at htally
    change (∀ d, (files_of cache w0 hash).body = some d → _) ∧
      ((files_of cache w0 hash).body = none → _)
    generalize (files_of cache w0 hash).body = d0 at htally ⊢
    generalize hd : (⟨none, none, none⟩ : Files).body = d at htally
    generalize hstate : score p.state = s at htally
    cases htally with
    | untaken hall =>
      subst hd
      refine ⟨fun d hd => absurd hd (by simp), fun _ => ?_⟩
      exact nothing_evicted hobey (fun x hx => (hall x hx).1) hstate.symm
    | won b i x hd0 hi hx honly s hs =>
      subst hd0
      rw [hs] at hstate
      refine ⟨fun d hd => ?_, fun hd => absurd hd (by simp)⟩
      cases hd
      exact evicted_once hobey hdone hi hx honly hstate

/-! ## Two purges and a lookup -/

/-- Both purges measure the body before one of them removes it. -/
def purged_twice : List (Event Choice World (Task CombinedHash Note)) :=
  [.spawn (.purge small_hash .Eviction), .spawn (.purge small_hash .Invalidation),
      .spawn (.lookup small_hash)] ++ Event.calls 0 2 plain ++ Event.calls 2 3 plain ++
    Event.calls 1 4 plain ++ Event.calls 0 4 plain ++ Event.calls 1 5 plain

theorem the_second_of_two_purges_counts_nothing :
    ∃ p, (purge_system CombinedHash Note small_cache).run (quiet_pool Note rewriting.2)
        purged_twice = some p ∧
      p.results = [some (.existed (.ok false)), some (.existed (.ok true)), none] ∧
      EvictedOnce rewriting.2 p 2 := by
  have hrun : ((purge_system CombinedHash Note small_cache).run (quiet_pool Note rewriting.2)
      purged_twice).map (fun p => (p.results, decide (PurgesDone p))) =
        some ([some (.existed (.ok false)), some (.existed (.ok true)), none], true) := by
    decide +kernel
  obtain ⟨p, hp, hres⟩ := Option.map_eq_some_iff.mp hrun
  obtain ⟨hresults, hdone⟩ := Prod.mk.inj hres
  have hfirst : p.results[0]? = some (some (.existed (.ok false))) := by
    rw [hresults]
    rfl
  refine ⟨p, hp, hresults, ?_⟩
  exact (each_stored_body_is_evicted_once small_cache small_hash rewriting.2 rewriting_laid
    purged_twice p (by decide +kernel) hp ⟨0, _, hfirst⟩ (of_decide_eq_true hdone)).2.2.1
    [1, 2] (by decide +kernel)

end edge_cdn_store.purge_races
