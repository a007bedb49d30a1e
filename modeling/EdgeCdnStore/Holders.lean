-- What a task of the disk cache goes by: the paths of its key, the temporary file of
-- its handler, and the numbers of open files that it has got. A file at a path that
-- a call does not go by stays as it is, where the task does not have it open.
import EdgeCdnStore.HeldFiles

open edge_cdn_store.programs edge_cdn_store.programs.Program edge_cdn_store.io
open edge_cdn_store.file_tree edge_cdn_store.file_tree.FileTree
open edge_cdn_store.logger edge_cdn_store.disk_cache edge_cdn_store.pools edge_cdn_store.tasks
open edge_cdn_store.sites edge_cdn_store.held_files
open edge_cdn_store.operations (small_hash)

namespace edge_cdn_store.programs.Program

variable {E : Type} {R : E → Type} {α N : Type}

/-- A program keeps to two things at once. -/
theorem obeys_and_calls {allows : N → E → Prop} {next : N → (e : E) → R e → N}
    {p : Program E R α} {Q : α → N → Prop} {n : N} {P : E → Prop} (h : Obeys allows next p Q n)
    (hc : p.Calls P) : Obeys (fun n e => allows n e ∧ P e) next p Q n := by
  induction p generalizing n with
  | done a => exact h
  | call e k ih => exact ⟨⟨h.1, hc.1⟩, fun r => ih r (h.2 r) (hc.2 r)⟩

end edge_cdn_store.programs.Program

namespace edge_cdn_store.holders

/-! ## The temporary files that a task goes by -/

/-- The path of a temporary file. -/
def Temp (cache : DiskCache) (p : PathBuf) : Prop := ∃ hash n, IsTmp n ∧ p = cache.entry hash n

/-- The call goes by no temporary file but this one, or one that it makes. -/
def ByTmp (cache : DiskCache) (tmp : Option PathBuf) (e : Io) : Prop :=
  ∀ p, Touches e p → Temp cache p → tmp = some p ∨ e = .create_file p

/-- The temporary file of the handler of a task. -/
def Task.tmp {K M : Type} : Task K M → Option PathBuf
  | .write_body _ m _ _ => some m.tmp_path
  | .finish _ m => some m.tmp_path
  | .drop_handler _ m => some m.tmp_path
  | _ => none

section
variable {cache : DiskCache} {tmp : Option PathBuf}

theorem not_temp_of_above {hash : CombinedHash} {p : PathBuf} (h : p <+: cache.dir hash) :
    ¬ Temp cache p := by
  rintro ⟨hash', n, _, rfl⟩
  have hlen := h.length_le
  simp only [DiskCache.entry, List.length_append, DiskCache.length_dir, List.length_singleton]
    at hlen
  omega

theorem not_temp_of_name {hash : CombinedHash} {x : List Char} (h : '-' ∉ x) :
    ¬ Temp cache (cache.entry hash x) := by
  rintro ⟨hash', n, hn, he⟩
  exact hn.ne h (DiskCache.entry_inj.mp he).2.symm

theorem by_tmp_of_no_touch {e : Io} (h : ∀ p, ¬ Touches e p) : ByTmp cache tmp e :=
  fun p hp => absurd hp (h p)

theorem by_tmp_of_above {hash : CombinedHash} {p : PathBuf} (h : p <+: cache.dir hash) :
    ByTmp cache tmp (.create_dir_all p) :=
  fun _ hq ht => absurd ht (not_temp_of_above (hq.trans h))

/-- A call by one path, which is not that of a temporary file. -/
theorem by_tmp_of_name {e : Io} {hash : CombinedHash} {x : List Char} (hx : '-' ∉ x)
    (h : ∀ p, Touches e p → p = cache.entry hash x) : ByTmp cache tmp e := by
  intro p hp ht
  rw [h p hp] at ht
  exact absurd ht (not_temp_of_name hx)

/-- A call by one path, which is that of the handler. -/
theorem by_tmp_of_own {e : Io} {q : PathBuf} (h : ∀ p, Touches e p → p = q) :
    ByTmp cache (some q) e := by
  intro p hp _
  rw [h p hp]
  exact Or.inl rfl

end

section
variable {K M : Type} [CacheHashKey K] [CacheMeta M] {cache : DiskCache}

theorem lookup_by_tmp (key : K) : (cache.lookup (M := M) key).Calls (ByTmp cache none) := by
  have hlookup : (cache.lookup (M := M) key).Obeys (TaskNote.allows cache) (TaskNote.next cache) _
      ⟨CacheHashKey.combined key, .lookup 0 none none none⟩ := lookup_obeys key
  apply calls_of_obeys hlookup
    (fun n => n.hash = CacheHashKey.combined key ∧ ∃ a mi mh f, n.phase = .lookup a mi mh f)
    ⟨rfl, 0, none, none, none, rfl⟩
  · rintro ⟨_, _⟩ e r ⟨rfl, a, mi, mh, f, rfl⟩
    refine ⟨rfl, ?_⟩
    cases e
    case read p =>
      simp only [TaskNote.next, lookup_next]
      split
      · exact ⟨_, _, _, _, rfl⟩
      · exact ⟨_, _, _, _, rfl⟩
    all_goals exact ⟨_, _, _, _, rfl⟩
  · rintro ⟨_, _⟩ e ⟨rfl, a, mi, mh, f, rfl⟩ ha
    cases e
    case create_dir_all p =>
      obtain rfl : p = cache.root := ha
      have hroot : cache.root <+: cache.dir (CacheHashKey.combined key) := List.prefix_append _ _
      exact by_tmp_of_above hroot
    case open_file p =>
      obtain rfl : p = cache.body _ := ha
      exact by_tmp_of_name (by decide) fun _ h => h
    all_goals first | exact absurd ha id | exact by_tmp_of_no_touch fun _ => id

/-- The paths that a finish goes by. -/
def Finishes (m : DiskMissHandler) : Io → Prop
  | .create_dir_all p => p = m.dir
  | .rename p q => p = m.tmp_path ∧ q = m.body_path
  | .open_file p => p = m.tmp_path
  | .create_file p => p = m.body_path
  | .write p _ => p = m.meta_path ∨ p = m.hdr_path
  | .remove_file p => p = m.tmp_path
  | .open_append _ => False
  | .remove_dir _ => False
  | _ => True

theorem finish_goes_by (m : DiskMissHandler) : m.finish.Calls (Finishes m) := by
  apply courses.calls_of_finish m
  intro x e ha
  cases x
  case based =>
    cases ha
    exact ⟨rfl, rfl⟩
  case copying src dst =>
    rcases ha with rfl | rfl
    · trivial
    · trivial
  case placed =>
    cases ha
    exact Or.inl rfl
  case meta_written =>
    cases ha
    exact Or.inr rfl
  case left => exact absurd ha id
  case begun | refused | opened | copied | leaving =>
    cases ha
    rfl
  all_goals
    cases ha
    trivial

theorem finish_by_tmp {hash : CombinedHash} {m : DiskMissHandler} (hm : m.Of cache hash) :
    m.finish.Calls (ByTmp cache (some m.tmp_path)) := by
  apply calls_mono (finish_goes_by m)
  intro e he
  cases e
  case create_dir_all p =>
    obtain rfl : p = m.dir := he
    rw [hm.dir]
    exact by_tmp_of_above List.prefix_rfl
  case rename p q =>
    obtain ⟨rfl, rfl⟩ := he
    intro p hp ht
    rcases hp with rfl | rfl
    · exact Or.inl rfl
    · rw [hm.body_path] at ht
      exact absurd ht (not_temp_of_name (by decide))
  case open_file p =>
    obtain rfl : p = m.tmp_path := he
    exact by_tmp_of_own fun _ h => h
  case create_file p =>
    obtain rfl : p = m.body_path := he
    rw [hm.body_path]
    exact by_tmp_of_name (by decide) fun _ h => h
  case write p d =>
    rcases he with rfl | rfl
    · rw [hm.meta_path]
      exact by_tmp_of_name (by decide) fun _ h => h
    · rw [hm.hdr_path]
      exact by_tmp_of_name (by decide) fun _ h => h
  case remove_file p =>
    obtain rfl : p = m.tmp_path := he
    exact by_tmp_of_own fun _ h => h
  all_goals first | exact absurd he id | exact by_tmp_of_no_touch fun _ => id

theorem purge_by_tmp (key : K) (purge_type : PurgeType) :
    (cache.purge key purge_type).Calls (ByTmp cache none) := by
  have hpurge : (cache.purge key purge_type).Obeys (TaskNote.allows cache) (TaskNote.next cache) _
      ⟨CacheHashKey.combined key, .purge (.before 0)⟩ := purge_obeys key purge_type
  apply calls_of_obeys hpurge
    (fun n => n.hash = CacheHashKey.combined key ∧ ∃ stage, n.phase = .purge stage)
    ⟨rfl, .before 0, rfl⟩
  · rintro ⟨_, _⟩ e r ⟨rfl, stage, rfl⟩
    exact ⟨rfl, stage.next e r, rfl⟩
  · rintro ⟨hash, _⟩ e ⟨rfl, stage, rfl⟩ ha
    change stage.allows cache _ e at ha
    cases e
    case remove_file p =>
      cases stage
      case before len =>
        obtain rfl : p = cache.body _ := ha
        exact by_tmp_of_name (by decide) fun _ h => h
      case body_gone =>
        obtain rfl : p = cache.meta_part _ := ha
        exact by_tmp_of_name (by decide) fun _ h => h
      case meta_gone =>
        obtain rfl : p = cache.hdr _ := ha
        exact by_tmp_of_name (by decide) fun _ h => h
      all_goals exact absurd ha id
    case remove_dir p =>
      obtain rfl : p = cache.dir (CacheHashKey.combined key) := by
        cases stage <;> first | exact absurd ha id | exact ha
      intro q hq ht
      obtain rfl : q = cache.dir (CacheHashKey.combined key) := hq
      exact absurd ht (not_temp_of_above List.prefix_rfl)
    all_goals first
      | exact by_tmp_of_no_touch fun _ => id
      | (cases stage <;> exact absurd ha id)

theorem get_miss_handler_by_tmp (key : K) (cache_meta : M) :
    (cache.get_miss_handler key cache_meta).Calls (ByTmp cache none) := by
  have hnone : ∀ {e : Io}, (∀ p, ¬ Touches e p) → ByTmp cache none e := by_tmp_of_no_touch
  apply calls_bind (calls_perform.mpr (hnone fun _ => id))
  intro _
  simp only [DiskCache.path_from_key, DiskCache.path_from_hash]
  cases CacheMeta.serialize cache_meta with
  | error e => exact calls_pure _
  | ok parts =>
    have hdir : ByTmp cache none (.create_dir_all (cache.dir (CacheHashKey.combined key))) :=
      by_tmp_of_above List.prefix_rfl
    apply calls_bind (calls_perform.mpr hdir)
    intro _
    refine calls_bind ?_ fun r => ?_
    · refine ⟨hnone fun _ => id, fun nanos => ⟨hnone fun _ => id, fun pid => ⟨?_, fun _ => ?_⟩⟩⟩
      · rw [List.dropLast_concat]
        exact hdir
      · refine ⟨fun p hp _ => Or.inr ?_, fun r => ?_⟩
        · rw [show p = _ from hp]
        · cases r <;> exact calls_pure _
    · cases r <;> exact calls_pure _

theorem write_body_by_tmp (m : DiskMissHandler) (data : Bytes) (is_eof : Bool) :
    (m.write_body data is_eof).Calls (ByTmp cache (some m.tmp_path)) := by
  have hnone : ∀ {e : Io}, (∀ p, ¬ Touches e p) → ByTmp cache (some m.tmp_path) e :=
    by_tmp_of_no_touch
  have hopen : ByTmp cache (some m.tmp_path) (.open_append m.tmp_path) :=
    by_tmp_of_own fun _ h => h
  apply calls_bind (calls_perform.mpr hopen)
  intro r
  cases r with
  | error e => exact calls_pure _
  | ok f =>
    apply calls_bind (calls_perform.mpr (hnone fun _ => id))
    intro r
    cases r with
    | error e => exact calls_pure _
    | ok _ =>
      cases is_eof with
      | false => exact calls_pure _
      | true => exact calls_bind (calls_perform.mpr (hnone fun _ => id)) fun _ => calls_pure _

theorem update_meta_by_tmp (key : K) (cache_meta : M) :
    (cache.update_meta key cache_meta).Calls (ByTmp cache none) := by
  apply update_meta_calls
  · exact by_tmp_of_no_touch fun _ => id
  · exact fun d => by_tmp_of_name (by decide) fun _ h => h
  · exact fun d => by_tmp_of_name (by decide) fun _ h => h

/-- A task goes by no temporary file but that of its handler, or one that it makes. -/
theorem task_by_tmp (t : Task K M) (ht : t.Of cache) :
    (t.program cache).Calls (ByTmp cache (Task.tmp t)) := by
  cases t with
  | lookup key => exact calls_bind (lookup_by_tmp key) fun _ => calls_pure _
  | get_miss_handler key cache_meta =>
    exact calls_bind (get_miss_handler_by_tmp key cache_meta) fun _ => calls_pure _
  | write_body hash m data is_eof =>
    exact calls_bind (write_body_by_tmp m data is_eof) fun _ => calls_pure _
  | finish hash m => exact calls_bind (finish_by_tmp ht) fun _ => calls_pure _
  | drop_handler hash m =>
    have hremove : ByTmp cache (some m.tmp_path) (.remove_file m.tmp_path) :=
      by_tmp_of_own fun _ h => h
    exact calls_bind (calls_bind (calls_perform.mpr hremove) fun _ => calls_pure _)
      fun _ => calls_pure _
  | purge key purge_type => exact calls_bind (purge_by_tmp key purge_type) fun _ => calls_pure _
  | update_meta key cache_meta =>
    exact calls_bind (update_meta_by_tmp key cache_meta) fun _ => calls_pure _

theorem task_by_held (t : Task K M) :
    (t.program cache).Obeys ByHeld hold (fun _ _ => True) [] := by
  cases t with
  | lookup key =>
    simp only [Task.program, obeys_bind]
    exact obeys_mono (lookup_by_held key) fun _ _ _ => trivial
  | get_miss_handler key cache_meta =>
    simp only [Task.program, obeys_bind]
    exact obeys_of_no_handles (get_miss_handler_no_handles key cache_meta) []
  | write_body hash m data is_eof =>
    simp only [Task.program, obeys_bind]
    exact write_body_by_held m data is_eof
  | finish hash m =>
    simp only [Task.program, obeys_bind]
    exact finish_by_held m
  | drop_handler hash m =>
    have hdrop : m.drop.Calls NoHandles := calls_bind (calls_perform.mpr rfl) fun _ => calls_pure _
    exact obeys_of_no_handles (calls_bind hdrop fun _ => calls_pure _) []
  | purge key purge_type =>
    simp only [Task.program, obeys_bind]
    exact obeys_of_no_handles (purge_calls key purge_type (fun _ _ => rfl) (fun _ => rfl) rfl
      (fun _ => rfl) rfl) []
  | update_meta key cache_meta =>
    simp only [Task.program, obeys_bind]
    exact obeys_of_no_handles (update_meta_calls key cache_meta rfl (fun _ => rfl) fun _ => rfl) []

end

/-! ## Files that are not gone by -/

/-- A task as it is watched: its key, the temporary file of its handler, and the numbers of open
files that it has got. -/
structure Holder where
  hash : CombinedHash
  tmp : Option PathBuf
  held : List Nat

def Holder.allows (cache : DiskCache) (n : Holder) (e : Io) : Prop :=
  ByHeld n.held e ∧ OfKey cache n.hash e ∧ ByTmp cache n.tmp e

def Holder.next (n : Holder) (e : Io) (r : e.Reply) : Holder := { n with held := hold n.held e r }

def Task.holder {K M : Type} [CacheHashKey K] (t : Task K M) : Holder := ⟨t.hash, Task.tmp t, []⟩

theorem task_key_calls {K M : Type} [CacheHashKey K] [CacheMeta M] {cache : DiskCache}
    (t : Task K M) (ht : t.Of cache) : (t.program cache).Calls (OfKey cache t.hash) := by
  have hkey : (t.program cache).Obeys (fun _ => OfKey cache t.hash) hold _ [] := task_of_key t ht []
  exact calls_of_obeys hkey (fun _ => True) trivial (fun _ _ _ _ => trivial) fun _ _ _ h => h

theorem task_holds {K M : Type} [CacheHashKey K] [CacheMeta M] {cache : DiskCache} (t : Task K M)
    (ht : t.Of cache) : (t.program cache).Obeys (Holder.allows cache) Holder.next
      (fun _ _ => True) (Task.holder t) := by
  have hkey : (t.program cache).Calls (OfKey cache t.hash) := task_key_calls t ht
  have hboth := obeys_and_calls (obeys_and_calls (task_by_held t) hkey) (task_by_tmp t ht)
  exact obeys_map (fun held => (⟨t.hash, Task.tmp t, held⟩ : Holder)) hboth
    (fun _ _ h => ⟨h.1.1, h.1.2, h.2⟩) (fun _ _ _ => rfl) fun _ _ _ => trivial

/-- A file stands at a path, with these contents. -/
structure FileAt (p : PathBuf) (i : Nat) (d : Bytes) (w : World) : Prop where
  node : w.tree.node p = some (.file i)
  data : w.tree.data i = d

/-- None of the numbers has the file open. -/
def Apart (i : Nat) (held : List Nat) (w : World) : Prop :=
  ∀ f ∈ held, f < w.opened ∧ (w.files f).ino ≠ i

section
variable {cache : DiskCache} {p tmp : PathBuf} {i : Nat} {d : Bytes} {w : World} {n : Holder}
  {e : Io}
  {c : Choice}

theorem FileAt.lt (h : FileAt p i d w) : i < w.tree.fresh := w.tree.sound.below p i h.node

/-- The file stands at no other path. -/
theorem FileAt.only (h : FileAt p i d w) : w.tree.Only {p} i :=
  fun q hq => w.tree.sound.single q p i hq h.node

/-- Open numbers go on to have the same files open. -/
theorem Apart.stay {held : List Nat} (h : Apart i held w) : Apart i held (answer e c w).2 := by
  have hleaves := answer_leaves e c w
  intro f hf
  obtain ⟨hlt, hne⟩ := h f hf
  refine ⟨Nat.lt_of_lt_of_le hlt hleaves.opened_le, ?_⟩
  rw [hleaves.files f hlt]
  exact hne

/-- A call that goes by another path leaves a file where it is. -/
theorem FileAt.stay (h : FileAt p i d w) (hno : ¬ Touches e p)
    (hdata : ∀ f ∈ handles e, (w.files f).ino ≠ i) : FileAt p i d (answer e c w).2 := by
  have hleaves := answer_leaves e c w
  have honly : w.tree.Only {q | ¬ Touches e q} i := by
    intro q hq
    rw [Set.mem_singleton_iff.mp (h.only q hq)]
    exact hno
  exact ⟨(hleaves.node _ hno).trans h.node, (hleaves.data i h.lt honly hdata).trans h.data⟩

/-- No task goes by a temporary file that is not its own. -/
theorem not_touched (htmp : Temp cache tmp) (ha : n.allows cache e) (hn : n.tmp ≠ some tmp)
    (hmake : e ≠ .create_file tmp) : ¬ Touches e tmp := by
  intro ht
  rcases ha.2.2 tmp ht htmp with h | h
  · exact hn h
  · exact hmake h

/-- A call of a task leaves a file alone that it does not go by and that the task does not have
open. -/
theorem FileAt.other (h : FileAt p i d w) (ha : n.allows cache e) (hno : ¬ Touches e p)
    (hheld : Apart i n.held w) : FileAt p i d (answer e c w).2 ∧
      Apart i (n.next e (answer e c w).1).held (answer e c w).2 := by
  have hstay : FileAt p i d (answer e c w).2 := h.stay hno fun f hf => (hheld f (ha.1 f hf)).2
  refine ⟨hstay, fun f hf => ?_⟩
  rcases List.mem_append.mp hf with hf | hf
  · -- the file that was opened stands at a path of the call
    obtain ⟨hnew, hopened⟩ := got_eq e c w f hf
    have hlt : f < (answer e c w).2.opened := by omega
    refine ⟨hlt, fun hino => ?_⟩
    obtain ⟨q, hq, hnode⟩ := (answer_leaves e c w).got f (by omega) hlt
    rw [hino] at hnode
    have hsame := Set.mem_singleton_iff.mp (hstay.only q hnode)
    exact hno (hsame ▸ hq)
  · exact hheld.stay f hf

end

section
variable {K M : Type} [CacheHashKey K] [CacheMeta M]

/-- The tasks of the disk cache, each with what it goes by. -/
abbrev holders_system (K M : Type) [CacheHashKey K] [CacheMeta M] (cache : DiskCache) :
    System Io Io.Reply Choice World (Outcome M) Holder Unit (Task K M) where
  env := answer
  start t := (t.program cache, Task.holder t)
  next := Holder.next
  record _ _ _ _ _ _ h := h

abbrev HolderPool (M : Type) := Pool Io Io.Reply (Outcome M) Holder World Unit

end

end edge_cdn_store.holders
