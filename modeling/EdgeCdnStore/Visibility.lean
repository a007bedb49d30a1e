-- When an object of a key is seen. Once its three files stand, they are missed only
-- after a purge of the key, and once its body is gone, it is found again only after
-- a finish of the key, whatever goes on at the same time and whatever fails.
import EdgeCdnStore.FinishFaults
import EdgeCdnStore.Sites

open edge_cdn_store.programs edge_cdn_store.programs.Program edge_cdn_store.io
open edge_cdn_store.file_tree edge_cdn_store.file_tree.FileTree
open edge_cdn_store.logger edge_cdn_store.disk_cache edge_cdn_store.pools edge_cdn_store.tasks
open edge_cdn_store.sites edge_cdn_store.courses
open edge_cdn_store.operations (Note small_cache small_hash small_handler)
open edge_cdn_store.finish_faults (rewriting ioFault)

namespace edge_cdn_store.visibility

/-! ## What a task may do to the files of its key -/

/-- Finishes put a body in place, purges take it away, and the other tasks do neither. -/
inductive Kind
  | finishes
  | purges
  | other
  deriving DecidableEq

/-- The calls of a task of a kind. -/
def Acts (cache : DiskCache) (hash : CombinedHash) (kind : Kind) : Io → Prop
  | .read p => p = cache.meta_part hash ∨ p = cache.hdr hash
  | .open_file p => p = cache.body hash ∨ kind = .finishes
  | .exists_path p => p = cache.body hash
  | .create_file p => ∃ n, (IsTmp n ∨ kind = .finishes) ∧ p = cache.entry hash n
  | .rename p _ => kind = .finishes ∧ ∃ n, IsTmp n ∧ p = cache.entry hash n
  | .remove_file p => ∃ n, (IsTmp n ∨ kind = .purges) ∧ p = cache.entry hash n
  | .remove_dir p => kind = .purges ∧ p = cache.dir hash
  | _ => True

/-- A task as it is watched: whether a file of its key was not there when it looked, and
whether it has found the body. -/
structure Look where
  hash : CombinedHash
  kind : Kind
  missed : Bool
  met : Bool
  deriving DecidableEq

/-- The calls of the task that is watched, all by paths of its key. -/
def Look.allows (cache : DiskCache) (n : Look) (e : Io) : Prop :=
  OfKey cache n.hash e ∧ Acts cache n.hash n.kind e

def Look.next (cache : DiskCache) (n : Look) : (e : Io) → e.Reply → Look
  | .read _, .error _ => { n with missed := true }
  | .open_file _, .error _ => { n with missed := true }
  | .open_file p, .ok _ => { n with met := n.met || decide (p = cache.body n.hash) }
  | .exists_path _, false => { n with missed := true }
  | .exists_path _, true => { n with met := true }
  | .remove_file p, .ok _ => { n with met := n.met || decide (p = cache.body n.hash) }
  | _, _ => n

/-- What the result of a task tells of what it has seen. -/
def Tells {M : Type} (n : Look) : Outcome M → Prop
  | .found (.ok none) => n.kind = .other ∧ n.missed = true
  | .found (.ok (some _)) => n.met = true
  | .existed (.ok false) => n.kind = .other → n.missed = true
  | .existed (.ok true) => n.met = true
  | _ => True

section
variable {cache : DiskCache} {hash : CombinedHash} {kind : Kind}

@[simp] theorem next_hash (n : Look) (e : Io) (r : e.Reply) : (n.next cache e r).hash = n.hash := by
  unfold Look.next
  split <;> rfl

@[simp] theorem next_kind (n : Look) (e : Io) (r : e.Reply) : (n.next cache e r).kind = n.kind := by
  unfold Look.next
  split <;> rfl

/-- A body that was found stays noted. -/
theorem met_next {n : Look} (h : n.met = true) (e : Io) (r : e.Reply) :
    (n.next cache e r).met = true := by
  unfold Look.next
  split <;> simp [h]

/-- A program whose result tells nothing. -/
theorem obeys_of_acts {α : Type} {p : Prog α} (hp : p.Calls (OfKey cache hash))
    (ha : p.Calls (Acts cache hash kind)) (n : Look) (hn : n.hash = hash ∧ n.kind = kind) :
    p.Obeys (Look.allows cache) (Look.next cache) (fun _ _ => True) n := by
  induction p generalizing n with
  | done a => trivial
  | call e k ih =>
    obtain ⟨rfl, rfl⟩ := hn
    refine ⟨⟨hp.1, ha.1⟩, fun r => ih r (hp.2 r) (ha.2 r) _ ?_⟩
    exact ⟨next_hash n e r, next_kind n e r⟩

end

/-! ## The tasks do no more -/

section
variable {K M : Type} [CacheHashKey K] [CacheMeta M] {cache : DiskCache}

def Task.kind : Task K M → Kind
  | .finish _ _ => .finishes
  | .purge _ _ => .purges
  | _ => .other

def Task.look (t : Task K M) : Look := ⟨t.hash, Task.kind t, false, false⟩

/-- A finish goes by its temporary file and by the body. -/
theorem finish_acts {hash : CombinedHash} {m : DiskMissHandler} (hm : m.Of cache hash) :
    m.finish.Calls (Acts cache hash .finishes) := by
  obtain ⟨n, hn, htmp⟩ := hm.tmp_path
  have hfinish : m.finish.Obeys (TaskNote.allows cache) (TaskNote.next cache) _
      ⟨hash, .finish m .before⟩ := finish_obeys
  apply calls_of_obeys hfinish (fun x => ∃ stage, x = ⟨hash, .finish m stage⟩) ⟨.before, rfl⟩
  · rintro x e r ⟨stage, rfl⟩
    exact ⟨stage.next e r, rfl⟩
  · rintro x e ⟨stage, rfl⟩ ha
    change stage.allows m e at ha
    cases e
    case open_file p => exact Or.inr rfl
    case create_file p =>
      cases stage
      all_goals first | exact absurd ha id | exact ⟨_, Or.inr rfl, ha.trans hm.body_path⟩
    case rename p q =>
      cases stage
      all_goals first | exact absurd ha id | exact ⟨rfl, n, hn, ha.1.trans htmp⟩
    case remove_file p =>
      cases stage
      all_goals first | exact absurd ha id | exact ⟨n, Or.inl hn, Eq.trans ha htmp⟩
    all_goals first | trivial | (cases stage <;> exact absurd ha id)

theorem get_miss_handler_acts (key : K) (cache_meta : M) :
    (cache.get_miss_handler key cache_meta).Calls
      (Acts cache (CacheHashKey.combined key) .other) := by
  apply calls_bind (calls_perform.mpr trivial)
  intro _
  simp only [DiskCache.path_from_key, DiskCache.path_from_hash]
  cases CacheMeta.serialize cache_meta with
  | error e => exact calls_pure _
  | ok parts =>
    apply calls_bind (calls_perform.mpr trivial)
    intro _
    refine calls_bind ?_ fun r => ?_
    · refine ⟨trivial, fun nanos => ⟨trivial, fun pid => ⟨trivial, fun _ => ?_⟩⟩⟩
      refine ⟨⟨_, Or.inl (isTmp_tmp_name _ _ _), rfl⟩, fun r => ?_⟩
      cases r <;> exact calls_pure _
    · cases r <;> exact calls_pure _

theorem write_body_acts (hash : CombinedHash) (m : DiskMissHandler) (data : Bytes)
    (is_eof : Bool) : (m.write_body data is_eof).Calls (Acts cache hash .other) := by
  apply calls_mono (m.write_body_calls data is_eof)
  intro e he
  cases e <;> trivial

theorem drop_acts {hash : CombinedHash} {m : DiskMissHandler} (hm : m.Of cache hash) :
    m.drop.Calls (Acts cache hash .other) := by
  obtain ⟨n, hn, htmp⟩ := hm.tmp_path
  exact calls_bind (calls_perform.mpr ⟨n, Or.inl hn, htmp⟩) fun _ => calls_pure _

/-- What a lookup has seen when some of its three files were asked for. -/
def failed {α : Type} : Option (Except IoError α) → Bool
  | some (.error _) => true
  | _ => false

def opened {α : Type} : Option (Except IoError α) → Bool
  | some (.ok _) => true
  | _ => false

/-- A lookup that finds nothing has missed one of its files, and one that finds an object has
opened the body. -/
theorem lookup_tells (key : K) :
    (cache.lookup (M := M) key).Obeys (Look.allows cache) (Look.next cache)
      (fun r n => Tells n (.found r))
      ⟨CacheHashKey.combined key, .other, false, false⟩ := by
  refine lookup_course (I := fun x y z n => n = ⟨CacheHashKey.combined key, .other,
    failed x || failed y || failed z, opened z⟩) ?_ rfl
  constructor
  case root =>
    rintro _ rfl
    exact ⟨⟨Or.inl rfl, trivial⟩, fun _ _ => trivial, rfl⟩
  case order =>
    rintro _ rfl
    exact ⟨⟨trivial, trivial⟩, fun _ => rfl⟩
  case read_meta =>
    rintro y z _ rfl
    refine ⟨⟨⟨_, rfl⟩, Or.inl rfl⟩, fun r => ?_⟩
    cases r <;> simp [Look.next, failed]
  case read_hdr =>
    rintro x z _ rfl
    refine ⟨⟨⟨_, rfl⟩, Or.inr rfl⟩, fun r => ?_⟩
    cases r <;> simp [Look.next, failed]
  case open_body =>
    rintro x y _ rfl
    refine ⟨⟨⟨_, rfl⟩, Or.inl rfl⟩, fun r => ?_⟩
    cases r <;> simp [Look.next, failed, opened]
  case miss =>
    rintro x y z _ rfl hlost
    refine ⟨⟨trivial, trivial⟩, rfl, ?_⟩
    cases x <;> cases y <;> cases z <;> first | rfl | cases hlost
  case size =>
    rintro mi mh f _ rfl
    exact ⟨⟨trivial, trivial⟩, fun _ _ => trivial⟩
  case hit =>
    rintro mi mh f len _ rfl
    refine ⟨⟨trivial, trivial⟩, ?_⟩
    cases CacheMeta.deserialize (M := M) mi mh with
    | error e => trivial
    | ok cache_meta => exact rfl

omit [CacheMeta M] in
/-- A purge that says the object was there has removed the body. -/
theorem purge_tells (key : K) (purge_type : PurgeType) :
    (cache.purge key purge_type).Obeys (Look.allows cache) (Look.next cache)
      (fun r n => Tells (M := M) n (.existed r))
      ⟨CacheHashKey.combined key, .purges, false, false⟩ := by
  apply obeys_beside (J := fun x n => n.hash = CacheHashKey.combined key ∧ n.kind = .purges ∧
    (x.won.isSome = true → n.met = true)) (purge_course cache key purge_type)
    ⟨rfl, rfl, fun h => by cases h⟩
  · rintro x n e ⟨hhash, hkind, hmet⟩ ha
    have hallows : OfKey cache n.hash e ∧ Acts cache n.hash n.kind e := by
      rw [hhash, hkind]
      cases x
      case left won => exact absurd ha id
      all_goals obtain rfl := ha
      case attempted => exact ⟨⟨_, rfl⟩, trivial⟩
      case measured len => exact ⟨⟨_, rfl⟩, _, Or.inr rfl, rfl⟩
      case clearing won => exact ⟨⟨_, rfl⟩, _, Or.inr rfl, rfl⟩
      case meta_gone won => exact ⟨⟨_, rfl⟩, _, Or.inr rfl, rfl⟩
      case hdr_gone won => exact ⟨rfl, rfl, rfl⟩
      all_goals exact ⟨trivial, trivial⟩
    refine ⟨hallows, fun r => ⟨by simpa using hhash, by simpa using hkind, fun hwon => ?_⟩⟩
    by_cases hbefore : x.won.isSome = true
    · exact met_next (hmet hbefore) e r
    · -- only the removal of the body wins it
      cases x
      case measured len =>
        obtain rfl := ha
        cases r with
        | ok _ => simp [Look.next, hhash]
        | error e => cases hwon
      case left won => exact absurd ha id
      all_goals
        obtain rfl := ha
        first | exact absurd rfl hbefore | (cases r <;> cases hwon) | exact absurd hwon hbefore
  · rintro r x n ⟨won, rfl, rfl⟩ ⟨_, hkind, hmet⟩
    cases won with
    | none => simp [Tells, hkind]
    | some len => exact hmet rfl

/-- An update that says the object was there has found the body, and one that says it was not
has not. -/
theorem update_meta_tells (key : K) (cache_meta : M) :
    (cache.update_meta key cache_meta).Obeys (Look.allows cache) (Look.next cache)
      (fun r n => Tells (M := M) n (.existed r))
      ⟨CacheHashKey.combined key, .other, false, false⟩ := by
  simp only [DiskCache.update_meta, DiskCache.path_from_key, DiskCache.path_from_hash,
    trace_fn_exit_with_err, e_explain]
  rw [obeys_bind]
  refine (obeys_perform (Io.exists_path _) _ _).mpr ⟨⟨⟨_, rfl⟩, rfl⟩, fun r => ?_⟩
  cases r with
  | false => exact fun _ => rfl
  | true =>
    simp only [if_true]
    cases CacheMeta.serialize cache_meta with
    | error e => trivial
    | ok parts =>
      rw [obeys_bind]
      refine (obeys_perform (Io.write _ _) _ _).mpr ⟨⟨Or.inl rfl, trivial⟩, fun r => ?_⟩
      cases r with
      | error e => trivial
      | ok _ =>
        simp only
        rw [obeys_bind]
        refine (obeys_perform (Io.write _ _) _ _).mpr ⟨⟨Or.inr rfl, trivial⟩, fun r => ?_⟩
        cases r with
        | error e => trivial
        | ok _ => exact rfl

/-- Every task acts as one of its kind, and its result tells what it has seen. -/
theorem task_tells (t : Task K M) (ht : t.Of cache) :
    (t.program cache).Obeys (Look.allows cache) (Look.next cache) (fun r n => Tells n r)
      (Task.look t) := by
  cases t with
  | lookup key =>
    simp only [Task.program, obeys_bind, obeys_pure]
    exact lookup_tells key
  | get_miss_handler key cache_meta =>
    simp only [Task.program, obeys_bind, obeys_pure]
    have hkey : (cache.get_miss_handler key cache_meta).Obeys
        (fun _ => OfKey cache (CacheHashKey.combined key)) (Look.next cache) _
        (Task.look (.get_miss_handler key cache_meta)) := get_miss_handler_of_key key cache_meta _
    refine obeys_mono (obeys_of_acts ?_ (get_miss_handler_acts key cache_meta) _ ⟨rfl, rfl⟩)
      fun _ _ _ => trivial
    exact calls_of_obeys hkey (fun _ => True) trivial (fun _ _ _ _ => trivial) fun _ _ _ h => h
  | write_body hash m data is_eof =>
    simp only [Task.program, obeys_bind, obeys_pure]
    exact obeys_mono (obeys_of_acts (write_body_of_key ht data is_eof)
      (write_body_acts hash m data is_eof) _ ⟨rfl, rfl⟩) fun _ _ _ => trivial
  | finish hash m =>
    simp only [Task.program, obeys_bind, obeys_pure]
    exact obeys_mono (obeys_of_acts (finish_of_key ht) (finish_acts ht) _ ⟨rfl, rfl⟩)
      fun _ _ _ => trivial
  | drop_handler hash m =>
    simp only [Task.program, obeys_bind, obeys_pure]
    exact obeys_mono (obeys_of_acts (drop_of_key ht) (drop_acts ht) _ ⟨rfl, rfl⟩)
      fun _ _ _ => trivial
  | purge key purge_type =>
    simp only [Task.program, obeys_bind, obeys_pure]
    exact purge_tells key purge_type
  | update_meta key cache_meta =>
    simp only [Task.program, obeys_bind, obeys_pure]
    exact update_meta_tells key cache_meta

end

/-! ## The files of a key that stand -/

/-- The names of the three files of an object. -/
def parts : List (List Char) := ["body".toList, "meta".toList, "hdr".toList]

theorem not_isTmp_of_mem_parts {x : List Char} (h : x ∈ parts) : ¬ IsTmp x := by
  unfold parts at h
  unfold IsTmp
  simp only [List.mem_cons, List.not_mem_nil, or_false] at h
  rcases h with rfl | rfl | rfl <;> decide

/-- All three files of a key stand. -/
def Stored (cache : DiskCache) (hash : CombinedHash) (w : World) : Prop :=
  ∀ x ∈ parts, (w.tree.content (cache.entry hash x)).isSome

/-- Nothing stands where the key has its body. -/
def Gone (cache : DiskCache) (hash : CombinedHash) (w : World) : Prop :=
  w.tree.node (cache.body hash) = none

instance (cache : DiskCache) (hash : CombinedHash) (w : World) :
    Decidable (Stored cache hash w) := inferInstanceAs (Decidable (∀ x ∈ parts, _))

instance (cache : DiskCache) (hash : CombinedHash) (w : World) :
    Decidable (Gone cache hash w) := inferInstanceAs (Decidable (_ = _))

section
variable {cache : DiskCache} {hash : CombinedHash} {n : Look} {e : Io} {c : Choice} {w : World}

/-- A call takes no file of a key away, unless a purge of the key makes it. -/
theorem stored_answer (hs : Stored cache hash w) (ha : n.allows cache e)
    (hkind : n.hash = hash → n.kind ≠ .purges) : Stored cache hash (answer e c w).2 := by
  intro x hx
  have htmp := not_isTmp_of_mem_parts hx
  obtain ⟨i, hi⟩ := content_isSome.mp (hs x hx)
  rw [content_isSome]
  have hstep := tree_answer e c w
  revert hstep
  generalize (answer e c w).2.tree = t
  intro hstep
  -- a temporary file of any key is none of the three
  have hne : ∀ {k m}, IsTmp m → cache.entry hash x ≠ cache.entry k m := by
    intro k m hm heq
    exact htmp ((DiskCache.entry_inj.mp heq).2 ▸ hm)
  cases hstep with
  | same _ => exact ⟨i, hi⟩
  | mkdirs p => exact ⟨i, node_mkdirs_of_some hi p⟩
  | create p _ hc =>
    by_cases hp : cache.entry hash x = p
    · obtain ⟨j, hj, _⟩ := node_create_self hc
      exact ⟨j, hp ▸ hj⟩
    · rw [node_create hc, if_neg hp]
      exact ⟨i, hi⟩
  | put p d d' hc =>
    by_cases hp : cache.entry hash x = p
    · obtain ⟨j, hj, _⟩ := node_create_self hc
      rw [node_put hc]
      exact ⟨j, hp ▸ hj⟩
    · rw [node_put hc, node_create hc, if_neg hp]
      exact ⟨i, hi⟩
  | move p q j hj hc =>
    obtain ⟨_, m, hm, rfl⟩ := ha.2
    rw [node_move hj hc]
    by_cases hq : cache.entry hash x = q
    · exact ⟨j, if_pos hq⟩
    · rw [if_neg hq, if_neg (hne hm)]
      exact ⟨i, hi⟩
  | remove_file p j hj =>
    obtain ⟨m, hm, rfl⟩ := ha.2
    have hother : cache.entry hash x ≠ cache.entry n.hash m := by
      rcases hm with hm | hm
      · exact hne hm
      · intro heq
        exact hkind (DiskCache.entry_inj.mp heq).1.symm hm
    rw [node_remove, if_neg fun h => hother h.1]
    exact ⟨i, hi⟩
  | remove_dir p hd =>
    obtain ⟨_, rfl⟩ := ha.2
    have hother : cache.entry hash x ≠ cache.dir n.hash := by
      intro heq
      rw [heq] at hi
      rw [hi] at hd
      cases hd
    rw [node_remove, if_neg fun h => hother h.1]
    exact ⟨i, hi⟩
  | append f d d' => exact ⟨i, hi⟩
  | copy_some f g d => exact ⟨i, hi⟩
  | copy_rest f g d => exact ⟨i, hi⟩

theorem read_of_file {p : PathBuf} {i : Nat} (hi : w.tree.node p = some (.file i)) (hc : Calm c) :
    ∃ d, (answer (.read p) c w).1 = .ok d := by
  unfold Calm at hc
  refine ⟨w.tree.data i, ?_⟩
  simp [answer, Choice.guard, hc, content_of_file hi]

theorem open_of_file {p : PathBuf} {i : Nat} (hi : w.tree.node p = some (.file i)) (hc : Calm c) :
    ∃ f, (answer (.open_file p) c w).1 = .ok f := by
  unfold Calm at hc
  refine ⟨w.opened, ?_⟩
  simp [answer, Choice.guard, hc, hi]

/-- A task that is neither a finish nor a purge misses no file that stands, where its call does
not fail. -/
theorem missed_next (hs : Stored cache hash w) (hc : Calm c) (ha : n.allows cache e)
    (hkey : n.hash = hash) (hkind : n.kind = .other) (hm : n.missed = false) :
    (n.next cache e (answer e c w).1).missed = false := by
  have hfile : ∀ x ∈ parts, ∃ i, w.tree.node (cache.entry n.hash x) = some (.file i) := by
    intro x hx
    rw [hkey]
    exact content_isSome.mp (hs x hx)
  cases e
  case read p =>
    have hok : ∃ d, (answer (.read p) c w).1 = .ok d := by
      rcases ha.2 with rfl | rfl
      · obtain ⟨i, hi⟩ := hfile "meta".toList (by decide)
        exact read_of_file hi hc
      · obtain ⟨i, hi⟩ := hfile "hdr".toList (by decide)
        exact read_of_file hi hc
    obtain ⟨d, hd⟩ := hok
    rw [hd]
    exact hm
  case open_file p =>
    obtain rfl : p = cache.body n.hash := by
      rcases ha.2 with h | h
      · exact h
      · rw [hkind] at h
        cases h
    obtain ⟨i, hi⟩ := hfile "body".toList (by decide)
    obtain ⟨f, hf⟩ := open_of_file hi hc
    rw [DiskCache.body_eq, hf]
    exact hm
  case exists_path p =>
    obtain rfl := ha.2
    obtain ⟨i, hi⟩ := hfile "body".toList (by decide)
    have hthere : (answer (.exists_path (cache.body n.hash)) c w).1 = true := by
      unfold Calm at hc
      rw [DiskCache.body_eq]
      simp only [answer, hc, hi]
      rfl
    rw [hthere]
    exact hm
  case remove_file p =>
    unfold Look.next
    split <;> simp_all
  all_goals exact hm

/-- The path of a body is on the way to no directory of a key. -/
theorem body_not_above (cache : DiskCache) (hash hash' : CombinedHash) :
    ¬ cache.body hash <+: cache.dir hash' := by
  intro hpre
  have hlen := hpre.length_le
  rw [DiskCache.body_eq, DiskCache.entry] at hlen
  simp only [List.length_append, DiskCache.length_dir, List.length_singleton] at hlen
  omega

/-- Nothing comes to stand where the key has its body, unless a finish of the key puts it
there. -/
theorem gone_answer (hg : Gone cache hash w) (ha : n.allows cache e)
    (hkind : n.hash = hash → n.kind ≠ .finishes) : Gone cache hash (answer e c w).2 := by
  unfold Gone at hg ⊢
  by_cases htouch : Touches e (cache.body hash)
  · -- the call goes by the path of the body, so it is one of the key
    have hentry : n.hash = hash := by
      rcases touches_of_key ha.1 htouch with hpre | ⟨m, hm⟩
      · exact absurd hpre (body_not_above _ _ _)
      · exact (DiskCache.entry_inj.mp hm).1.symm
    have hne := hkind hentry
    have htmp : ∀ {k m}, IsTmp m → cache.body hash ≠ cache.entry k m := by
      intro k m hm heq
      exact hm.ne (by decide) (DiskCache.entry_inj.mp heq).2.symm
    have hstep := tree_answer e c w
    revert hstep
    generalize (answer e c w).2.tree = t
    intro hstep
    cases hstep with
    | same _ => exact hg
    | mkdirs p =>
      have hdir : p <+: cache.dir n.hash := by
        rcases ha.1 with rfl | rfl
        · exact List.prefix_append _ _
        · exact List.prefix_rfl
      rw [node_mkdirs_of_not_above fun h => body_not_above _ _ _ (h.trans hdir)]
      exact hg
    | create p _ hc =>
      obtain ⟨m, hm, rfl⟩ := ha.2
      exact absurd htouch (htmp (hm.resolve_right hne))
    | put p d d' hc =>
      have hp : cache.body hash = p := htouch
      subst hp
      rcases ha.1 with h | h
      · exact absurd h (DiskCache.entry_ne (by decide))
      · exact absurd h (DiskCache.entry_ne (by decide))
    | move p q j hj hc => exact absurd ha.2.1 hne
    | remove_file p j hj =>
      rw [node_remove, hg]
      exact ite_self _
    | remove_dir p hd =>
      rw [node_remove, hg]
      exact ite_self _
    | append f d d' => exact hg
    | copy_some f g d => exact hg
    | copy_rest f g d => exact hg
  · rw [(answer_leaves e c w).node _ htouch]
    exact hg

/-- What is not there is not found. -/
theorem met_next_of_gone (hg : Gone cache hash w) (ha : n.allows cache e)
    (hkey : n.hash = hash) (hm : n.met = false) :
    (n.next cache e (answer e c w).1).met = false := by
  unfold Gone at hg
  cases e
  case read p =>
    unfold Look.next
    split <;> simp_all
  case open_file p =>
    by_cases hp : p = cache.body hash
    · subst hp
      cases hf : c.fault <;> simp [answer, Choice.guard, hf, hg, Look.next, hm]
    · unfold Look.next
      split <;> simp_all
  case exists_path p =>
    obtain rfl := ha.2
    rw [hkey]
    simp [answer, hg, Look.next, hm]
  case remove_file p =>
    by_cases hp : p = cache.body hash
    · subst hp
      cases hf : c.fault <;> simp [answer, Choice.guard, hf, hg, Look.next, hm]
    · unfold Look.next
      split <;> simp_all
  all_goals exact hm

end

/-! ## Whole runs -/

section
variable {K M : Type} [CacheHashKey K] [CacheMeta M]

/-- The tasks of the disk cache, each with what it has seen. -/
abbrev looks_system (K M : Type) [CacheHashKey K] [CacheMeta M] (cache : DiskCache) :
    System Io Io.Reply Choice World (Outcome M) Look Unit (Task K M) where
  env := answer
  start t := (t.program cache, Task.look t)
  next := Look.next cache
  record _ _ _ _ _ _ h := h

abbrev LookPool (M : Type) := Pool Io Io.Reply (Outcome M) Look World Unit

/-- Tasks of all keys come at any time and make their calls in any order, any call may fail, the
process may crash, and the files may change in other ways. -/
def AnyRun (cache : DiskCache) (_ : LookPool M) : Event Choice World (Task K M) → Prop
  | .spawn t => t.Of cache
  | _ => True

/-- No task of the kind on the key is the one that makes a call. -/
def NotBy (hash : CombinedHash) (kind : Kind) (call : Option (Io × Look)) : Prop :=
  ∀ x ∈ call, x.2.hash = hash → x.2.kind ≠ kind

/-- No purge of the key makes a call, and no call of the program `i` fails. -/
def NoPurge (cache : DiskCache) (hash : CombinedHash) (i : Nat) (p : LookPool M) :
    Event Choice World (Task K M) → Prop
  | .spawn t => t.Of cache
  | .call j c => NotBy hash .purges (p.next_call j) ∧ (j = i → Calm c)
  | .crash => True
  | .outside w => Stored cache hash w

/-- No finish of the key makes a call. -/
def NoFinish (cache : DiskCache) (hash : CombinedHash) (p : LookPool M) :
    Event Choice World (Task K M) → Prop
  | .spawn t => t.Of cache
  | .call j _ => NotBy hash .finishes (p.next_call j)
  | .crash => True
  | .outside w => Gone cache hash w

/-- All three files stand, and the program `i` has missed none of them. -/
structure Shown (cache : DiskCache) (hash : CombinedHash) (i : Nat) (notes : List Look)
    (w : World) : Prop where
  stored : Stored cache hash w
  seen : ∀ n, notes[i]? = some n → n.hash = hash → n.kind = .other → n.missed = false

/-- The body is gone, and the program `i` has not found it. -/
structure Hidden (cache : DiskCache) (hash : CombinedHash) (i : Nat) (notes : List Look)
    (w : World) : Prop where
  gone : Gone cache hash w
  unseen : ∀ n, notes[i]? = some n → n.hash = hash → n.met = false

theorem any_invariant (cache : DiskCache) :
    (looks_system K M cache).Invariant (Look.allows cache) (fun r n => Tells n r) (AnyRun cache)
      fun _ _ _ => True where
  start _ t ht := task_tells t ht
  spawn _ _ _ _ _ := trivial
  call _ _ _ _ _ _ _ _ _ _ := trivial
  crash _ _ _ := trivial
  outside _ _ _ _ := trivial

theorem shown_invariant (cache : DiskCache) (hash : CombinedHash) (i : Nat) :
    (looks_system K M cache).Invariant (Look.allows cache) (fun r n => Tells n r)
      (NoPurge cache hash i) fun notes w _ => Shown cache hash i notes w where
  start _ t ht := task_tells t ht
  spawn p t _ _ hI := by
    refine ⟨hI.stored, fun n hn hkey hkind => ?_⟩
    rcases getElem?_append_cases hn with hn | ⟨_, rfl⟩
    · exact hI.seen n hn hkey hkind
    · rfl
  call p j c e k n hP hj ha hI := by
    have hnot : n.hash = hash → n.kind ≠ .purges := hP.1 (e, n) (Pool.next_call_of hj)
    refine ⟨stored_answer hI.stored ha hnot, fun m hm hkey hkind => ?_⟩
    rcases getElem?_set_cases hm with ⟨rfl, rfl⟩ | ⟨_, hm⟩
    · rw [next_hash] at hkey
      rw [next_kind] at hkind
      have hseen := hI.seen n (Pool.notes_getElem? hj) hkey hkind
      exact missed_next hI.stored (hP.2 rfl) ha hkey hkind hseen
    · exact hI.seen m hm hkey hkind
  crash p _ hI := by
    refine ⟨hI.stored, fun n hn => ?_⟩
    cases hn
  outside p w hP hI := ⟨hP, hI.seen⟩

theorem hidden_invariant (cache : DiskCache) (hash : CombinedHash) (i : Nat) :
    (looks_system K M cache).Invariant (Look.allows cache) (fun r n => Tells n r)
      (NoFinish cache hash) fun notes w _ => Hidden cache hash i notes w where
  start _ t ht := task_tells t ht
  spawn p t _ _ hI := by
    refine ⟨hI.gone, fun n hn hkey => ?_⟩
    rcases getElem?_append_cases hn with hn | ⟨_, rfl⟩
    · exact hI.unseen n hn hkey
    · rfl
  call p j c e k n hP hj ha hI := by
    have hnot : n.hash = hash → n.kind ≠ .finishes := hP (e, n) (Pool.next_call_of hj)
    refine ⟨gone_answer hI.gone ha hnot, fun m hm hkey => ?_⟩
    rcases getElem?_set_cases hm with ⟨rfl, rfl⟩ | ⟨_, hm⟩
    · rw [next_hash] at hkey
      have hunseen := hI.unseen n (Pool.notes_getElem? hj) hkey
      exact met_next_of_gone hI.gone ha hkey hunseen
    · exact hI.unseen m hm hkey
  crash p _ hI := by
    refine ⟨hI.gone, fun n hn => ?_⟩
    cases hn
  outside p w hP hI := ⟨hP, hI.unseen⟩

omit [CacheMeta M] in
/-- A program that is not there yet has seen nothing. -/
theorem not_there {p : LookPool M} {i : Nat} (hi : p.threads.length ≤ i) (n : Look) :
    p.notes[i]? ≠ some n := by
  intro hn
  obtain ⟨x, hx⟩ := Pool.threads_of_notes hn
  rw [List.getElem?_eq_none hi] at hx
  cases hx

/-- From a moment on at which all three files of a key stand, and for as long as no purge of the
key makes a call, they stand, whatever fails, and no lookup and no update that starts then and
whose own calls succeed says that the object is not there. -/
theorem a_stored_object_is_missed_only_after_a_purge (cache : DiskCache) (hash : CombinedHash)
    (w : World) (before evs : List (Event Choice World (Task K M))) (p p' : LookPool M) (i : Nat)
    (hP : (looks_system K M cache).Along (AnyRun cache) ⟨[], w, ()⟩ before)
    (hr : (looks_system K M cache).run ⟨[], w, ()⟩ before = some p)
    (hstored : Stored cache hash p.state) (hi : p.threads.length ≤ i)
    (hP' : (looks_system K M cache).Along (NoPurge cache hash i) p evs)
    (hr' : (looks_system K M cache).run p evs = some p') :
    Stored cache hash p'.state ∧
    ∀ (r : Outcome M) (n : Look), p'.threads[i]? = some (.done r, n) → n.hash = hash →
      r ≠ .found (.ok none) ∧ (n.kind = .other → r ≠ .existed (.ok false)) := by
  obtain ⟨hobey, -⟩ := (any_invariant cache).run (p := ⟨[], w, ()⟩)
    (fun x hx => absurd hx List.not_mem_nil) trivial hP hr
  obtain ⟨hobey', hshown⟩ := (shown_invariant cache hash i).run hobey
    ⟨hstored, fun n hn => absurd hn (not_there hi n)⟩ hP' hr'
  refine ⟨hshown.stored, fun r n hn hkey => ?_⟩
  have hseen := hshown.seen n (Pool.notes_getElem? hn) hkey
  have htells : Tells n r := hobey'.done (List.mem_of_getElem? hn)
  constructor
  · rintro rfl
    obtain ⟨hkind, hmissed⟩ : n.kind = .other ∧ n.missed = true := htells
    rw [hseen hkind] at hmissed
    cases hmissed
  · rintro hkind rfl
    have hmissed : n.missed = true := htells hkind
    rw [hseen hkind] at hmissed
    cases hmissed

/-- From a moment on at which the body of a key is gone, and for as long as no finish of the key
makes a call, it stays away, whatever fails, and nothing that starts then finds it: no lookup
hits, and no purge and no update says that the object was there. -/
theorem a_purged_object_is_found_only_after_a_finish (cache : DiskCache) (hash : CombinedHash)
    (w : World) (before evs : List (Event Choice World (Task K M))) (p p' : LookPool M) (i : Nat)
    (hP : (looks_system K M cache).Along (AnyRun cache) ⟨[], w, ()⟩ before)
    (hr : (looks_system K M cache).run ⟨[], w, ()⟩ before = some p)
    (hgone : Gone cache hash p.state) (hi : p.threads.length ≤ i)
    (hP' : (looks_system K M cache).Along (NoFinish cache hash) p evs)
    (hr' : (looks_system K M cache).run p evs = some p') :
    Gone cache hash p'.state ∧
    ∀ (r : Outcome M) (n : Look), p'.threads[i]? = some (.done r, n) → n.hash = hash →
      (∀ hit, r ≠ .found (.ok (some hit))) ∧ r ≠ .existed (.ok true) := by
  obtain ⟨hobey, -⟩ := (any_invariant cache).run (p := ⟨[], w, ()⟩)
    (fun x hx => absurd hx List.not_mem_nil) trivial hP hr
  obtain ⟨hobey', hhidden⟩ := (hidden_invariant cache hash i).run hobey
    ⟨hgone, fun n hn => absurd hn (not_there hi n)⟩ hP' hr'
  refine ⟨hhidden.gone, fun r n hn hkey => ?_⟩
  have hunseen := hhidden.unseen n (Pool.notes_getElem? hn) hkey
  have htells : Tells n r := hobey'.done (List.mem_of_getElem? hn)
  constructor
  · rintro hit rfl
    have hmet : n.met = true := htells
    rw [hunseen] at hmet
    cases hmet
  · rintro rfl
    have hmet : n.met = true := htells
    rw [hunseen] at hmet
    cases hmet

end

/-! ## Runs on a small cache -/

section
variable {K M : Type} [CacheHashKey K] (cache : DiskCache) (hash : CombinedHash)

instance (p : LookPool M) : (ev : Event Choice World (Task K M)) → Decidable (AnyRun cache p ev)
  | .spawn t => inferInstanceAs (Decidable (t.Of cache))
  | .call _ _ => isTrue trivial
  | .crash => isTrue trivial
  | .outside _ => isTrue trivial

instance (kind : Kind) (call : Option (Io × Look)) : Decidable (NotBy hash kind call) :=
  inferInstanceAs (Decidable (∀ x ∈ call, _))

instance (i : Nat) (p : LookPool M) :
    (ev : Event Choice World (Task K M)) → Decidable (NoPurge cache hash i p ev)
  | .spawn t => inferInstanceAs (Decidable (t.Of cache))
  | .call j c => inferInstanceAs (Decidable (NotBy hash .purges (p.next_call j) ∧ (j = i → Calm c)))
  | .crash => isTrue trivial
  | .outside w => inferInstanceAs (Decidable (Stored cache hash w))

instance (p : LookPool M) :
    (ev : Event Choice World (Task K M)) → Decidable (NoFinish cache hash p ev)
  | .spawn t => inferInstanceAs (Decidable (t.Of cache))
  | .call j _ => inferInstanceAs (Decidable (NotBy hash .finishes (p.next_call j)))
  | .crash => isTrue trivial
  | .outside w => inferInstanceAs (Decidable (Gone cache hash w))

end

abbrev small_looks (p : LookPool Note) (evs : List (Event Choice World (Task CombinedHash Note))) :
    Option (LookPool Note) := (looks_system CombinedHash Note small_cache).run p evs

/-- The pool after a run, where it goes through. -/
def small_after (p : LookPool Note) (evs : List (Event Choice World (Task CombinedHash Note))) :
    LookPool Note := (small_looks p evs).getD p

theorem run_to_small_after {p : LookPool Note}
    {evs : List (Event Choice World (Task CombinedHash Note))} (h : (small_looks p evs).isSome) :
    small_looks p evs = some (small_after p evs) := by
  obtain ⟨q, hq⟩ := Option.isSome_iff_exists.mp h
  simp [small_after, hq]

/-- A finish of another object has begun. -/
def finish_begins : List (Event Choice World (Task CombinedHash Note)) :=
  [.spawn (.finish small_hash (small_handler [9] 1))] ++ Event.calls 0 1 plain

/-- The rename of the finish fails, and the lookup opens the body when the transfer has emptied
it. -/
def lookup_amid_finish : List (Event Choice World (Task CombinedHash Note)) :=
  [.spawn (.lookup small_hash)] ++ Event.calls 1 2 plain ++
    [.call 0 ⟨some ⟨ioFault, none⟩, 0, 0⟩] ++ Event.calls 0 2 plain ++ Event.calls 1 5 plain

theorem a_lookup_amid_a_finish_does_not_miss : ∃ p p' r n,
    small_looks ⟨[], rewriting.2, ()⟩ finish_begins = some p ∧
    small_looks p lookup_amid_finish = some p' ∧ p'.threads[1]? = some (.done r, n) ∧
    r ≠ .found (.ok none) := by
  let p := small_after ⟨[], rewriting.2, ()⟩ finish_begins
  let p' := small_after p lookup_amid_finish
  have hrun : small_looks ⟨[], rewriting.2, ()⟩ finish_begins = some p :=
    run_to_small_after (by decide +kernel)
  have hrun' : small_looks p lookup_amid_finish = some p' := run_to_small_after (by decide +kernel)
  have hdone : ∃ r, p'.results[1]? = some (some r) := by
    have hsome : (p'.results[1]?.bind id).isSome := by decide +kernel
    obtain ⟨r, hr⟩ := Option.isSome_iff_exists.mp hsome
    obtain ⟨x, hx, rfl⟩ := Option.bind_eq_some_iff.mp hr
    exact ⟨r, hx⟩
  obtain ⟨r, hr⟩ := hdone
  obtain ⟨n, hn⟩ := Pool.results_getElem? hr
  have hkey : n.hash = small_hash := by
    have hnotes : p'.notes[1]?.map Look.hash = some small_hash := by decide +kernel
    rw [Pool.notes_getElem? hn] at hnotes
    exact Option.some.inj hnotes
  have hmiss := a_stored_object_is_missed_only_after_a_purge small_cache small_hash rewriting.2
    finish_begins lookup_amid_finish p p' 1 (by decide +kernel) hrun (by decide +kernel)
    (by decide +kernel) (by decide +kernel) hrun'
  exact ⟨p, p', r, n, hrun, hrun', hn, (hmiss.2 r n hn hkey).1⟩

/-- A purge has removed the body, and the other files stand. -/
def purge_begins : List (Event Choice World (Task CombinedHash Note)) :=
  [.spawn (.purge small_hash .Invalidation)] ++ Event.calls 0 3 plain

def lookup_behind_purge : List (Event Choice World (Task CombinedHash Note)) :=
  [.spawn (.lookup small_hash)] ++ Event.calls 1 6 plain

theorem a_lookup_behind_a_purge_does_not_hit : ∃ p p',
    small_looks ⟨[], rewriting.2, ()⟩ purge_begins = some p ∧
    small_looks p lookup_behind_purge = some p' ∧ Gone small_cache small_hash p'.state ∧
    p'.results[1]? = some (some (.found (.ok none))) := by
  let p := small_after ⟨[], rewriting.2, ()⟩ purge_begins
  let p' := small_after p lookup_behind_purge
  have hrun : small_looks ⟨[], rewriting.2, ()⟩ purge_begins = some p :=
    run_to_small_after (by decide +kernel)
  have hrun' : small_looks p lookup_behind_purge = some p' := run_to_small_after (by decide +kernel)
  have hhit := a_purged_object_is_found_only_after_a_finish small_cache small_hash rewriting.2
    purge_begins lookup_behind_purge p p' 1 (by decide +kernel) hrun (by decide +kernel)
    (by decide +kernel) (by decide +kernel) hrun'
  exact ⟨p, p', hrun, hrun', hhit.1, by decide +kernel⟩

end edge_cdn_store.visibility
