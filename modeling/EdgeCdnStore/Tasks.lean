-- The operations of the disk cache as tasks of a pool. A task carries a note of its
-- key and of how far it has come, and here it says, for each phase, which calls
-- the task may make. What a call does to the disk is not said here.
import EdgeCdnStore.Courses

open edge_cdn_store.programs edge_cdn_store.programs.Program edge_cdn_store.io
open edge_cdn_store.logger edge_cdn_store.disk_cache edge_cdn_store.pools edge_cdn_store.courses

namespace edge_cdn_store.tasks

variable {K M : Type} [CacheHashKey K] [CacheMeta M]

/-! ## The tasks -/

/-- One operation. The handler of a miss comes with its key. -/
inductive Task (K M : Type)
  | lookup (key : K)
  | get_miss_handler (key : K) (cache_meta : M)
  | write_body (hash : CombinedHash) (m : DiskMissHandler) (data : Bytes) (is_eof : Bool)
  | finish (hash : CombinedHash) (m : DiskMissHandler)
  | drop_handler (hash : CombinedHash) (m : DiskMissHandler)
  | purge (key : K) (purge_type : PurgeType)
  | update_meta (key : K) (cache_meta : M)

/-- What an operation returns. -/
inductive Outcome (M : Type)
  | found (r : Result (Option (M × DiskHitHandler)))
  | handler (r : Result DiskMissHandler)
  | written (r : Result Unit × DiskMissHandler)
  | finished (r : Result MissFinishType)
  | dropped
  | existed (r : Result Bool)
  deriving DecidableEq

def Task.program (cache : DiskCache) : Task K M → Prog (Outcome M)
  | .lookup key => do return .found (← cache.lookup key)
  | .get_miss_handler key cache_meta => do return .handler (← cache.get_miss_handler key cache_meta)
  | .write_body _ m data is_eof => do return .written (← m.write_body data is_eof)
  | .finish _ m => do return .finished (← m.finish)
  | .drop_handler _ m => do
    m.drop
    return .dropped
  | .purge key purge_type => do return .existed (← cache.purge key purge_type)
  | .update_meta key cache_meta => do return .existed (← cache.update_meta key cache_meta)

/-- The handler of a task is one of its key. -/
def Task.Of (cache : DiskCache) : Task K M → Prop
  | .write_body hash m _ _ => m.Of cache hash
  | .finish hash m => m.Of cache hash
  | .drop_handler hash m => m.Of cache hash
  | _ => True

instance (cache : DiskCache) : (t : Task K M) → Decidable (t.Of cache)
  | .lookup _ => isTrue trivial
  | .get_miss_handler _ _ => isTrue trivial
  | .write_body hash m _ _ => inferInstanceAs (Decidable (m.Of cache hash))
  | .finish hash m => inferInstanceAs (Decidable (m.Of cache hash))
  | .drop_handler hash m => inferInstanceAs (Decidable (m.Of cache hash))
  | .purge _ _ => isTrue trivial
  | .update_meta _ _ => isTrue trivial

/-! ## The phases -/

/-- How far a finish has come: the body stands from `placed` on, and all three files from
`counting` on. -/
inductive FinishStage
  | before
  | transfer
  | opened
  | copying
  | placed
  | meta_written
  | counting
  | ended
  deriving DecidableEq

/-- How far a purge has come, with the length that it has read of the body. -/
inductive PurgeStage
  | before (len : Nat)
  | paying (len : Nat)
  | body_gone
  | meta_gone
  | ended
  deriving DecidableEq

inductive UpdateStage
  | before
  | checked
  | meta_written
  | ended
  deriving DecidableEq

/-- Where a task stands. A lookup notes how many of its three files it has asked for, and
what it got. -/
inductive Phase
  | finish (m : DiskMissHandler) (stage : FinishStage)
  | purge (stage : PurgeStage)
  | update_meta (mi mh : Bytes) (stage : UpdateStage)
  | lookup (asked : Nat) (mi mh : Option Bytes) (file : Option Nat)
  | idle
  deriving DecidableEq

structure TaskNote where
  hash : CombinedHash
  phase : Phase
  deriving DecidableEq

/-- The calls that leave the gauge alone. -/
def GaugeFree : Io → Prop
  | .size_bytes_add _ => False
  | .size_bytes_sub _ => False
  | _ => True

/-- What a finish may call. -/
def FinishStage.allows (m : DiskMissHandler) : FinishStage → Io → Prop
  | .before, .create_dir_all p => p = m.dir
  | .before, .rename p q => p = m.tmp_path ∧ q = m.body_path
  | .transfer, .open_file p => p = m.tmp_path
  | .opened, .create_file p => p = m.body_path
  | .copying, .copy_rounds => True
  | .copying, .copy_some _ _ => True
  | .copying, .copy_rest _ _ => True
  | .copying, .remove_file p => p = m.tmp_path
  | .placed, .write p d => p = m.meta_path ∧ d = m.meta_internal
  | .meta_written, .write p d => p = m.hdr_path ∧ d = m.meta_header
  | .counting, .inc_by _ _ => True
  | .counting, .size_bytes_add k => k = m.tmp_bytes_written
  | .ended, .remove_file p => p = m.tmp_path
  | _, _ => False

def FinishStage.next : FinishStage → (e : Io) → e.Reply → FinishStage
  | .before, .rename _ _, .ok _ => .placed
  | .before, .rename _ _, .error _ => .transfer
  | .transfer, .open_file _, .ok _ => .opened
  | .transfer, .open_file _, .error _ => .ended
  | .opened, .create_file _, .ok _ => .copying
  | .opened, .create_file _, .error _ => .ended
  | .copying, .copy_some _ _, .error _ => .ended
  | .copying, .copy_rest _ _, .error _ => .ended
  | .copying, .remove_file _, _ => .placed
  | .placed, .write _ _, .ok _ => .meta_written
  | .placed, .write _ _, .error _ => .ended
  | .meta_written, .write _ _, .ok _ => .counting
  | .meta_written, .write _ _, .error _ => .ended
  | .counting, .size_bytes_add _, _ => .ended
  | stage, _, _ => stage

/-- What a purge may call. -/
def PurgeStage.allows (cache : DiskCache) (hash : CombinedHash) : PurgeStage → Io → Prop
  | .before _, .inc_by _ _ => True
  | .before _, .metadata p => p = cache.body hash
  | .before _, .remove_file p => p = cache.body hash
  | .paying _, .inc_by _ _ => True
  | .paying len, .size_bytes_sub k => k = len
  | .body_gone, .remove_file p => p = cache.meta_part hash
  | .meta_gone, .remove_file p => p = cache.hdr hash
  | .ended, .remove_dir p => p = cache.dir hash
  | _, _ => False

def PurgeStage.next : PurgeStage → (e : Io) → e.Reply → PurgeStage
  | .before _, .metadata _, .ok len => .before len
  | .before _, .metadata _, .error _ => .before 0
  | .before len, .remove_file _, .ok _ => .paying len
  | .before _, .remove_file _, .error _ => .body_gone
  | .paying _, .size_bytes_sub _, _ => .body_gone
  | .body_gone, .remove_file _, _ => .meta_gone
  | .meta_gone, .remove_file _, _ => .ended
  | stage, _, _ => stage

/-- What an update of the metadata may call. -/
def UpdateStage.allows (cache : DiskCache) (hash : CombinedHash) (mi mh : Bytes) :
    UpdateStage → Io → Prop
  | .before, .exists_path p => p = cache.body hash
  | .checked, .write p d => p = cache.meta_part hash ∧ d = mi
  | .meta_written, .write p d => p = cache.hdr hash ∧ d = mh
  | .ended, .exists_path p => p = cache.body hash
  | _, _ => False

def UpdateStage.next : UpdateStage → (e : Io) → e.Reply → UpdateStage
  | .before, .exists_path _, true => .checked
  | .before, .exists_path _, false => .ended
  | .checked, .write _ _, .ok _ => .meta_written
  | .checked, .write _ _, .error _ => .ended
  | .meta_written, .write _ _, _ => .ended
  | stage, _, _ => stage

/-- What a lookup may call. -/
def lookup_allows (cache : DiskCache) (hash : CombinedHash) : Io → Prop
  | .create_dir_all p => p = cache.root
  | .join_order => True
  | .read p => p = cache.meta_part hash ∨ p = cache.hdr hash
  | .open_file p => p = cache.body hash
  | .file_len _ => True
  | .inc_by _ _ => True
  | _ => False

def TaskNote.allows (cache : DiskCache) (n : TaskNote) (e : Io) : Prop :=
  match n.phase with
  | .finish m stage => stage.allows m e
  | .purge stage => stage.allows cache n.hash e
  | .update_meta mi mh stage => stage.allows cache n.hash mi mh e
  | .lookup _ _ _ _ => lookup_allows cache n.hash e
  | .idle => GaugeFree e

def lookup_next (cache : DiskCache) (hash : CombinedHash) (asked : Nat) (mi mh : Option Bytes)
    (file : Option Nat) : (e : Io) → e.Reply → Phase
  | .read p, r =>
    if p = cache.meta_part hash then .lookup (asked + 1) r.toOption mh file
    else .lookup (asked + 1) mi r.toOption file
  | .open_file _, r => .lookup (asked + 1) mi mh r.toOption
  | _, _ => .lookup asked mi mh file

def TaskNote.next (cache : DiskCache) (n : TaskNote) (e : Io) (r : e.Reply) : TaskNote :=
  match n.phase with
  | .finish m stage => { n with phase := .finish m (stage.next e r) }
  | .purge stage => { n with phase := .purge (stage.next e r) }
  | .update_meta mi mh stage => { n with phase := .update_meta mi mh (stage.next e r) }
  | .lookup asked mi mh file => { n with phase := lookup_next cache n.hash asked mi mh file e r }
  | .idle => n

/-- The first note of a task. An update whose metadata cannot be written has nothing to
do but to look for the body. -/
def Task.note : Task K M → TaskNote
  | .lookup key => ⟨CacheHashKey.combined key, .lookup 0 none none none⟩
  | .get_miss_handler key _ => ⟨CacheHashKey.combined key, .idle⟩
  | .write_body hash _ _ _ => ⟨hash, .idle⟩
  | .finish hash m => ⟨hash, .finish m .before⟩
  | .drop_handler hash _ => ⟨hash, .idle⟩
  | .purge key _ => ⟨CacheHashKey.combined key, .purge (.before 0)⟩
  | .update_meta key cache_meta =>
    match CacheMeta.serialize cache_meta with
    | .ok (mi, mh) => ⟨CacheHashKey.combined key, .update_meta mi mh .before⟩
    | .error _ => ⟨CacheHashKey.combined key, .update_meta [] [] .ended⟩

theorem note_update_meta (key : K) (cache_meta : M) : ∃ mi mh,
    Task.note (.update_meta key cache_meta) =
      ⟨CacheHashKey.combined key, .update_meta mi mh .before⟩ ∨
    Task.note (.update_meta key cache_meta) =
      ⟨CacheHashKey.combined key, .update_meta mi mh .ended⟩ := by
  cases hs : CacheMeta.serialize cache_meta with
  | ok parts =>
    obtain ⟨mi, mh⟩ := parts
    exact ⟨mi, mh, Or.inl (by simp only [Task.note, hs])⟩
  | error e => exact ⟨[], [], Or.inr (by simp only [Task.note, hs])⟩

/-- The phases in which a task has done all that it had to do. -/
def Phase.through : Phase → Prop
  | .finish _ stage => stage = .ended
  | .purge stage => stage = .ended
  | .update_meta _ _ stage => stage = .ended
  | _ => True

/-- How a task ends: with all done, and with a hit only where a lookup got all three files. -/
structure Ends (r : Outcome M) (n : TaskNote) : Prop where
  through : n.phase.through
  hit : ∀ cache_meta hit, r = .found (.ok (some (cache_meta, hit))) → ∃ mi mh,
    n.phase = .lookup 3 (some mi) (some mh) (some hit.file) ∧
    CacheMeta.deserialize mi mh = .ok cache_meta

/-- The system of all tasks, with some history. -/
def tasks_system {H : Type} (cache : DiskCache)
    (record : Nat → TaskNote → (e : Io) → e.Reply → World → World → H → H) :
    System Io Io.Reply Choice World (Outcome M) TaskNote H (Task K M) where
  env := answer
  start t := (t.program cache, t.note)
  next := TaskNote.next cache
  record := record

/-! ## The tasks keep to their phases -/

section
variable {cache : DiskCache} {hash : CombinedHash} {m : DiskMissHandler}

/-- The stage of a finish, from how far it has come. -/
def finish_stage : Finishing → FinishStage
  | .begun => .before
  | .based => .before
  | .refused => .transfer
  | .opened _ => .opened
  | .created _ _ => .copying
  | .copying _ _ => .copying
  | .copied => .copying
  | .placed => .placed
  | .meta_written => .meta_written
  | .hdr_written => .counting
  | .inserted => .counting
  | .leaving _ => .ended
  | .left _ => .ended

theorem finish_obeys :
    m.finish.Obeys (TaskNote.allows cache) (TaskNote.next cache)
      (fun _ n => n.phase = .finish m .ended) ⟨hash, .finish m .before⟩ := by
  apply obeys_beside (J := fun x n => n = ⟨hash, .finish m (finish_stage x)⟩) (finish_course m) rfl
  · rintro x _ e rfl ha
    cases x
    case copying src dst =>
      rcases ha with rfl | rfl
      all_goals exact ⟨trivial, fun r => by cases r <;> rfl⟩
    case left made => exact absurd ha id
    all_goals
      obtain rfl := ha
      refine ⟨?_, fun r => by cases r <;> rfl⟩
    case begun => exact rfl
    case based => exact ⟨rfl, rfl⟩
    case placed => exact ⟨rfl, rfl⟩
    case meta_written => exact ⟨rfl, rfl⟩
    all_goals trivial
  · rintro r x _ (⟨rfl, _⟩ | ⟨rfl, _⟩) rfl
    · rfl
    · rfl

/-- The stage of a purge, from how far it has come. -/
def purge_stage : Purging → PurgeStage
  | .begun => .before 0
  | .attempted => .before 0
  | .measured len => .before len
  | .taken len => .paying len
  | .evicted len => .paying len
  | .credited len => .paying len
  | .clearing _ => .body_gone
  | .meta_gone _ => .meta_gone
  | .hdr_gone _ => .ended
  | .left _ => .ended

theorem purge_obeys (key : K) (purge_type : PurgeType) :
    (cache.purge key purge_type).Obeys (TaskNote.allows cache) (TaskNote.next cache)
      (fun _ n => n.phase = .purge .ended)
      ⟨CacheHashKey.combined key, .purge (.before 0)⟩ := by
  apply obeys_beside (J := fun x n => n = ⟨CacheHashKey.combined key, .purge (purge_stage x)⟩)
    (purge_course cache key purge_type) rfl
  · rintro x _ e rfl ha
    cases x
    case left won => exact absurd ha id
    all_goals
      obtain rfl := ha
      refine ⟨?_, fun r => by cases r <;> rfl⟩
      trivial
  · rintro r x _ ⟨won, rfl, _⟩ rfl
    rfl

/-- Also with metadata that cannot be written: then the task only looks for the body. -/
theorem update_meta_obeys (key : K) (cache_meta : M) :
    (cache.update_meta key cache_meta).Obeys (TaskNote.allows cache) (TaskNote.next cache)
      (fun _ n => ∃ mi mh, n.phase = .update_meta mi mh .ended)
      (Task.note (K := K) (.update_meta key cache_meta)) := by
  simp only [DiskCache.update_meta, DiskCache.path_from_key, DiskCache.path_from_hash,
    trace_fn_exit_with_err, e_explain, Task.note]
  cases CacheMeta.serialize cache_meta with
  | error e =>
    rw [obeys_bind]
    refine (obeys_perform (Io.exists_path _) _ _).mpr ⟨rfl, fun r => ?_⟩
    cases r with
    | false => exact ⟨[], [], rfl⟩
    | true => exact ⟨[], [], rfl⟩
  | ok parts =>
    obtain ⟨mi, mh⟩ := parts
    rw [obeys_bind]
    refine (obeys_perform (Io.exists_path _) _ _).mpr ⟨rfl, fun r => ?_⟩
    cases r with
    | false => exact ⟨mi, mh, rfl⟩
    | true =>
      simp only [if_true]
      rw [obeys_bind]
      refine (obeys_perform (Io.write _ _) _ _).mpr ⟨⟨rfl, rfl⟩, fun r => ?_⟩
      cases r with
      | error e => exact ⟨mi, mh, rfl⟩
      | ok _ =>
        simp only
        rw [obeys_bind]
        refine (obeys_perform (Io.write _ _) _ _).mpr ⟨⟨rfl, rfl⟩, fun r => ?_⟩
        cases r with
        | error e => exact ⟨mi, mh, rfl⟩
        | ok _ => exact ⟨mi, mh, rfl⟩

/-- What a lookup has in hand when some of its three files were asked for, in any order. -/
def lookup_note (hash : CombinedHash) (x y : Option (Except IoError Bytes))
    (z : Option (Except IoError Nat)) : TaskNote :=
  ⟨hash, .lookup (x.isSome.toNat + y.isSome.toNat + z.isSome.toNat) (x.bind Except.toOption)
    (y.bind Except.toOption) (z.bind Except.toOption)⟩

theorem lookup_rules (hash : CombinedHash) :
    LookupRules (M := M) cache hash (TaskNote.allows cache) (TaskNote.next cache)
      (fun r n => Ends (.found r) n) (fun x y z n => n = lookup_note hash x y z) where
  root := by
    rintro _ rfl
    exact ⟨rfl, fun e err => ⟨trivial, fun _ _ h => by cases h⟩, rfl⟩
  order := by
    rintro _ rfl
    exact ⟨trivial, fun _ => rfl⟩
  read_meta := by
    rintro y z _ rfl
    refine ⟨Or.inl rfl, fun r => ?_⟩
    simp only [TaskNote.next, lookup_note, lookup_next, if_pos, Option.isSome, Option.bind,
      Bool.toNat_true, Bool.toNat_false]
    congr 2
    omega
  read_hdr := by
    rintro x z _ rfl
    have hne : cache.hdr hash ≠ cache.meta_part hash := DiskCache.entry_ne (by decide)
    refine ⟨Or.inr rfl, fun r => ?_⟩
    change (⟨hash, if cache.hdr hash = cache.meta_part hash then _ else _⟩ : TaskNote) = _
    rw [if_neg hne]
    simp only [lookup_note, Option.isSome, Option.bind, Bool.toNat_true, Bool.toNat_false]
    congr 2
    omega
  open_body := by
    rintro x y _ rfl
    refine ⟨rfl, fun r => ?_⟩
    simp only [TaskNote.next, lookup_note, lookup_next, Option.isSome, Option.bind,
      Bool.toNat_true, Bool.toNat_false]
  miss := by
    rintro x y z _ rfl _
    exact ⟨trivial, trivial, fun _ _ h => by cases h⟩
  size := by
    rintro mi mh f _ rfl
    exact ⟨trivial, fun e err => ⟨trivial, fun _ _ h => by cases h⟩⟩
  hit := by
    rintro mi mh f len _ rfl
    refine ⟨trivial, trivial, fun cache_meta hit h => ?_⟩
    obtain ⟨hd, rfl⟩ := eq_of_hit (Outcome.found.inj h)
    exact ⟨mi, mh, rfl, hd⟩

theorem lookup_obeys (key : K) :
    (cache.lookup (M := M) key).Obeys (TaskNote.allows cache) (TaskNote.next cache)
      (fun r n => Ends (.found r) n)
      ⟨CacheHashKey.combined key, .lookup 0 none none none⟩ :=
  lookup_course (lookup_rules _) rfl

/-- The operations that no key sees before their handler finishes. -/
theorem idle_obeys {α : Type} {p : Prog α} {Q : α → TaskNote → Prop}
    (hp : p.Calls GaugeFree) (hQ : ∀ a, Q a ⟨hash, .idle⟩) :
    p.Obeys (TaskNote.allows cache) (TaskNote.next cache) Q ⟨hash, .idle⟩ := by
  induction p with
  | done a => exact hQ a
  | call e k ih => exact ⟨hp.1, fun r => ih r (hp.2 r)⟩

theorem gaugeFree_of_path {e : Io} (h : PathCall e) : GaugeFree e := by
  cases e <;> trivial

theorem gaugeFree_of_append {e : Io} (h : AppendCall e) : GaugeFree e := by
  cases e <;> trivial

/-- Every task keeps to its phases. -/
theorem task_obeys (cache : DiskCache) (t : Task K M) :
    (t.program cache).Obeys (TaskNote.allows cache) (TaskNote.next cache) Ends t.note := by
  have hother : ∀ {r : Outcome M} {n : TaskNote}, n.phase.through →
      (∀ x, r ≠ .found x) → Ends r n :=
    fun hn hr => ⟨hn, fun _ _ h => absurd h (hr _)⟩
  cases t with
  | lookup key =>
    simp only [Task.program, obeys_bind, obeys_pure]
    exact lookup_obeys key
  | get_miss_handler key cache_meta =>
    simp only [Task.program, obeys_bind, obeys_pure]
    refine idle_obeys (calls_mono (DiskCache.get_miss_handler_calls cache key cache_meta) ?_)
      fun _ => hother trivial fun _ h => by cases h
    rintro e (h | rfl)
    · exact gaugeFree_of_path h
    · trivial
  | write_body hash m data is_eof =>
    simp only [Task.program, obeys_bind, obeys_pure]
    exact idle_obeys (calls_mono (m.write_body_calls data is_eof) fun _ => gaugeFree_of_append)
      fun _ => hother trivial fun _ h => by cases h
  | finish hash m =>
    simp only [Task.program, obeys_bind, obeys_pure]
    refine obeys_mono finish_obeys fun r n hn => hother ?_ fun _ h => by cases h
    rw [hn]
    rfl
  | drop_handler hash m =>
    simp only [Task.program, obeys_bind, obeys_pure]
    exact idle_obeys (calls_mono m.drop_calls fun _ => gaugeFree_of_path)
      fun _ => hother trivial fun _ h => by cases h
  | purge key purge_type =>
    simp only [Task.program, obeys_bind, obeys_pure]
    refine obeys_mono (purge_obeys key purge_type) fun r n hn => hother ?_ fun _ h => by cases h
    rw [hn]
    rfl
  | update_meta key cache_meta =>
    simp only [Task.program, obeys_bind, obeys_pure]
    refine obeys_mono (update_meta_obeys key cache_meta) fun r n hn =>
      hother ?_ fun _ h => by cases h
    obtain ⟨mi, mh, hn⟩ := hn
    rw [hn]
    rfl

end

end edge_cdn_store.tasks
