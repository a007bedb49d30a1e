-- The counters of the metrics against what the operations returned. Each task keeps
-- a count of its own increments, the counters are the sums of these, and each
-- program says what it has counted when it is done.
import EdgeCdnStore.Tasks
import EdgeCdnStore.Operations

open edge_cdn_store.programs edge_cdn_store.programs.Program edge_cdn_store.io
open edge_cdn_store.logger edge_cdn_store.disk_cache edge_cdn_store.pools edge_cdn_store.tasks
open edge_cdn_store.file_tree edge_cdn_store.operations edge_cdn_store.courses

namespace edge_cdn_store.counters

variable {K M : Type} [CacheHashKey K] [CacheMeta M]

/-! ## The calls of Pingora -/

/-- One operation of the storage, one read of a hit, or the end of a hit. The end names the
lookup that gave the handler. -/
inductive Call (K M : Type)
  | task (t : Task K M)
  | read_hit (hit : DiskHitHandler)
  | finish_hit (i : Nat) (hit : DiskHitHandler)

inductive Returned (M : Type)
  | task (r : Outcome M)
  | read (r : Result (Option Bytes) × DiskHitHandler)
  | served (r : Result Unit)

def Call.program (cache : DiskCache) : Call K M → Prog (Returned M)
  | .task t => do return .task (← t.program cache)
  | .read_hit hit => do return .read (← hit.read_body)
  | .finish_hit _ hit => do return .served (← hit.finish)

/-- What kind of call a task is. A lookup notes what it read of the metadata, and that it has
read the length of the body, which it does when it has all three files. -/
inductive Kind
  | lookup (hash : CombinedHash) (mi mh : Option Bytes) (sized : Bool)
  | get_miss_handler
  | finish
  | purge
  | finish_hit (i : Nat)
  | other
  deriving DecidableEq

def Call.kind : Call K M → Kind
  | .task (.lookup key) => .lookup (CacheHashKey.combined key) none none false
  | .task (.get_miss_handler _ _) => .get_miss_handler
  | .task (.finish _ _) => .finish
  | .task (.purge _ _) => .purge
  | .task _ => .other
  | .read_hit _ => .other
  | .finish_hit i _ => .finish_hit i

def Kind.next (cache : DiskCache) : Kind → (e : Io) → e.Reply → Kind
  | .lookup hash mi mh sized, .read p, r =>
    if p = cache.meta_part hash then .lookup hash r.toOption mh sized
    else .lookup hash mi r.toOption sized
  | .lookup hash mi mh _, .file_len _, .ok _ => .lookup hash mi mh true
  | k, _, _ => k

/-- The lookup has got all three files, and metadata that does not deserialise. -/
def Kind.undecoded (M : Type) [CacheMeta M] : Kind → Bool
  | .lookup _ (some mi) (some mh) true => !(CacheMeta.deserialize (M := M) mi mh).isOk
  | _ => false

/-- The kind of a task, and what it has added to each counter. -/
structure CallNote where
  kind : Kind
  counts : Counter → Nat

def CallNote.start (k : Kind) : CallNote := ⟨k, fun _ => 0⟩

def CallNote.next (cache : DiskCache) (n : CallNote) : (e : Io) → e.Reply → CallNote
  | .inc_by c k, _ => { n with counts := Function.update n.counts c (n.counts c + k) }
  | e, r => { n with kind := n.kind.next cache e r }

/-- A hit is counted as served by the end of a hit only, and once. -/
def CallNote.allows (n : CallNote) : Io → Prop
  | .inc_by .served_hits k => (∃ i, n.kind = .finish_hit i) ∧ n.counts .served_hits = 0 ∧ k = 1
  | _ => True

/-- The system of all calls, without a history. -/
abbrev calls_system (K M : Type) [CacheHashKey K] [CacheMeta M] (cache : DiskCache) :
    System Io Io.Reply Choice World (Returned M) CallNote Unit (Call K M) where
  env := answer
  start t := (t.program cache, .start t.kind)
  next := CallNote.next cache
  record _ _ _ _ _ _ h := h

abbrev CallPool (M : Type) := Pool Io Io.Reply (Returned M) CallNote World Unit

/-! ## What each call has counted when it is done -/

/-- A lookup found no object. -/
def Returned.found_none : Returned M → Bool
  | .task (.found (.ok none)) => true
  | _ => false

/-- A lookup returned an object. -/
def Returned.found_hit : Returned M → Bool
  | .task (.found (.ok (some _))) => true
  | _ => false

/-- A finish returned `Created`. -/
def Returned.created : Returned M → Bool
  | .task (.finished (.ok (.Created _))) => true
  | _ => false

/-- A purge returned `true`. -/
def Returned.purged : Returned M → Bool
  | .task (.existed (.ok true)) => true
  | _ => false

/-- What a call adds to a counter, from its kind and what it returned. The bytes evicted are
left out. -/
def due (r : Returned M) : Kind → Counter → Nat
  | .lookup _ _ _ _, .misses => r.found_none.toNat
  | .lookup hash mi mh sized, .lookup_hits =>
    r.found_hit.toNat + ((Kind.lookup hash mi mh sized).undecoded M).toNat
  | .get_miss_handler, .misses => 1
  | .finish, .inserts => r.created.toNat
  | .purge, .purge_attempts => 1
  | .purge, .evictions => r.purged.toNat
  | .finish_hit _, .served_hits => 1
  | _, _ => 0

/-- The call has counted what is due. -/
def Settled (r : Returned M) (n : CallNote) : Prop :=
  ∀ c, c ≠ .evicted_bytes → n.counts c = due r n.kind c

/-! ## The programs -/

section
variable {cache : DiskCache} {α : Type} {n : CallNote} {hash : CombinedHash} {key : K}

/-- The calls that no note takes in. -/
def Unnoted : Io → Prop
  | .inc_by _ _ => False
  | .read _ => False
  | .file_len _ => False
  | _ => True

theorem unnoted_of_path {e : Io} (h : PathCall e) : Unnoted e := by
  cases e <;> trivial

theorem unnoted_of_append {e : Io} (h : AppendCall e) : Unnoted e := by
  cases e <;> trivial

theorem next_unnoted {e : Io} (he : Unnoted e) (n : CallNote) (r : e.Reply) :
    n.next cache e r = n := by
  obtain ⟨kind, counts⟩ := n
  cases kind <;> cases e <;> first | rfl | exact absurd he id

theorem unnoted_obeys {p : Prog α} {Q : α → CallNote → Prop} (hp : p.Calls Unnoted)
    (hQ : ∀ a, Q a n) : p.Obeys CallNote.allows (CallNote.next cache) Q n := by
  induction p with
  | done a => exact hQ a
  | call e k ih =>
    have hallow : n.allows e := by
      cases e <;> first | trivial | exact absurd hp.1 id
    refine ⟨hallow, fun r => ?_⟩
    rw [next_unnoted hp.1]
    exact ih r (hp.2 r)

/-- An increment of a counter that is not for served hits. -/
theorem inc_by_obeys {Q : Unit → CallNote → Prop} {c : Counter} {k : Nat} (hc : c ≠ .served_hits)
    (hQ : Q () { n with counts := Function.update n.counts c (n.counts c + k) }) :
    (inc_by c k).Obeys CallNote.allows (CallNote.next cache) Q n := by
  refine (obeys_perform (Io.inc_by c k) _ _).mpr ⟨?_, fun _ => hQ⟩
  cases c <;> trivial

/-- One more increment. -/
def CallNote.counted (n : CallNote) (c : Counter) (k : Nat) : CallNote :=
  { n with counts := Function.update n.counts c (n.counts c + k) }

/-- What a finish has counted when it has come so far. -/
def finish_note : Finishing → CallNote
  | .inserted => .counted (.start .finish) .inserts 1
  | .leaving true => .counted (.start .finish) .inserts 1
  | .left true => .counted (.start .finish) .inserts 1
  | _ => .start .finish

theorem finish_counts (m : DiskMissHandler) :
    m.finish.Obeys CallNote.allows (CallNote.next cache)
      (fun r n => Settled (.task (.finished r) : Returned M) n) (.start .finish) := by
  apply obeys_beside (J := fun x n => n = finish_note x) (finish_course m) rfl
  · rintro x _ e rfl ha
    cases x
    case copying src dst =>
      rcases ha with rfl | rfl
      all_goals exact ⟨trivial, fun r => by cases r <;> rfl⟩
    case leaving made =>
      obtain rfl := ha
      exact ⟨trivial, fun r => by cases made <;> rfl⟩
    case left made => exact absurd ha id
    all_goals
      obtain rfl := ha
      exact ⟨trivial, fun r => by cases r <;> rfl⟩
  · rintro r x _ (⟨rfl, rfl⟩ | ⟨rfl, e, rfl⟩) rfl
    all_goals
      intro c _
      cases c <;> rfl

/-- What a purge has counted when it knows whether it has won the body. -/
def won_note : Option Nat → CallNote
  | some len => .counted
    (.counted (.counted (.start .purge) .purge_attempts 1) .evictions 1) .evicted_bytes len
  | none => .counted (.start .purge) .purge_attempts 1

/-- What a purge has counted when it has come so far. -/
def purge_note : Purging → CallNote
  | .begun => .start .purge
  | .attempted => won_note none
  | .measured _ => won_note none
  | .taken _ => won_note none
  | .evicted _ => .counted (won_note none) .evictions 1
  | .credited len => won_note (some len)
  | .clearing won => won_note won
  | .meta_gone won => won_note won
  | .hdr_gone won => won_note won
  | .left won => won_note won

theorem purge_counts (purge_type : PurgeType) :
    (cache.purge key purge_type).Obeys CallNote.allows (CallNote.next cache)
      (fun r n => Settled (.task (.existed r) : Returned M) n) (.start .purge) := by
  apply obeys_beside (J := fun x n => n = purge_note x) (purge_course cache key purge_type) rfl
  · rintro x _ e rfl ha
    cases x
    case left won => exact absurd ha id
    case clearing won =>
      obtain rfl := ha
      exact ⟨trivial, fun r => by cases won <;> rfl⟩
    case meta_gone won =>
      obtain rfl := ha
      exact ⟨trivial, fun r => by cases won <;> rfl⟩
    case hdr_gone won =>
      obtain rfl := ha
      exact ⟨trivial, fun r => by cases won <;> rfl⟩
    all_goals
      obtain rfl := ha
      exact ⟨trivial, fun r => by cases r <;> rfl⟩
  · rintro r x _ ⟨won, rfl, rfl⟩ rfl
    intro c hc
    cases won <;> cases c <;> first | rfl | exact absurd rfl hc

theorem get_miss_handler_counts (cache_meta : M) :
    (cache.get_miss_handler key cache_meta).Obeys CallNote.allows (CallNote.next cache)
      (fun r n => Settled (.task (.handler r) : Returned M) n) (.start .get_miss_handler) := by
  have hsettled : ∀ r, Settled (.task (.handler r) : Returned M)
      ⟨.get_miss_handler, Function.update (fun _ => 0) Counter.misses 1⟩ := by
    intro r c _
    cases c <;> rfl
  simp only [DiskCache.get_miss_handler, DiskCache.path_from_key, DiskCache.path_from_hash]
  rw [obeys_bind]
  apply inc_by_obeys (by decide)
  cases CacheMeta.serialize cache_meta with
  | error e => exact hsettled _
  | ok parts =>
    simp only
    rw [obeys_bind]
    refine unnoted_obeys (calls_perform.mpr trivial) fun _ => ?_
    rw [obeys_bind]
    refine unnoted_obeys (calls_mono (DiskMissHandler.create_tmp_calls _ _)
      fun _ => unnoted_of_path) fun r => ?_
    cases r <;> exact hsettled _

theorem lookup_counts :
    (cache.lookup (M := M) key).Obeys CallNote.allows (CallNote.next cache)
      (fun r n => Settled (.task (.found r)) n)
      (.start (.lookup (CacheHashKey.combined key) none none false)) := by
  refine lookup_course (I := fun x y _ n => n = .start (.lookup (CacheHashKey.combined key)
    (x.bind Except.toOption) (y.bind Except.toOption) false)) ?_ rfl
  have herror : ∀ mi mh e, Settled (.task (.found (.error e : Result (Option (M × DiskHitHandler)))))
      (.start (.lookup (CacheHashKey.combined key) mi mh false)) := by
    intro mi mh e c _
    cases mi <;> cases mh <;> cases c <;> rfl
  constructor
  case root =>
    rintro _ rfl
    exact ⟨trivial, fun _ err => herror _ _ err, rfl⟩
  case order =>
    rintro _ rfl
    exact ⟨trivial, fun _ => rfl⟩
  case read_meta =>
    rintro y z _ rfl
    refine ⟨trivial, fun r => ?_⟩
    simp only [CallNote.next, CallNote.start, Kind.next, if_pos, Option.bind]
  case read_hdr =>
    rintro x z _ rfl
    have hne : cache.hdr (CacheHashKey.combined key) ≠ cache.meta_part (CacheHashKey.combined key) :=
      DiskCache.entry_ne (by decide)
    refine ⟨trivial, fun r => ?_⟩
    simp only [CallNote.next, CallNote.start, Kind.next, if_neg hne, Option.bind]
  case open_body =>
    rintro x y _ rfl
    exact ⟨trivial, fun _ => rfl⟩
  case miss =>
    rintro x y z _ rfl _
    refine ⟨trivial, fun c _ => ?_⟩
    cases x <;> cases y <;> cases c <;> rfl
  case size =>
    rintro mi mh f _ rfl
    exact ⟨trivial, fun _ err => herror _ _ err⟩
  case hit =>
    rintro mi mh f len _ rfl
    refine ⟨trivial, fun c _ => ?_⟩
    -- the hit is counted, and it is one where the metadata deserialises
    cases hd : CacheMeta.deserialize (M := M) mi mh with
    | error e =>
      cases c <;> simp [CallNote.next, CallNote.start, Kind.next, Except.toOption, Except.map, due,
        Kind.undecoded, hd, Returned.found_none, Returned.found_hit, Except.isOk, Except.toBool]
    | ok cache_meta =>
      cases c <;> simp [CallNote.next, CallNote.start, Kind.next, Except.toOption, Except.map, due,
        Kind.undecoded, hd, Returned.found_none, Returned.found_hit, Except.isOk, Except.toBool]

/-- Every call has counted what is due when it is done. -/
theorem call_obeys (cache : DiskCache) (t : Call K M) :
    (t.program cache).Obeys CallNote.allows (CallNote.next cache) Settled (.start t.kind) := by
  have hother : ∀ {p : Prog (Returned M)}, p.Calls Unnoted →
      p.Obeys CallNote.allows (CallNote.next cache) Settled (.start .other) := by
    intro p hp
    refine unnoted_obeys hp fun r => ?_
    intro c _
    cases c <;> rfl
  cases t with
  | task t =>
    cases t with
    | lookup key =>
      simp only [Call.program, Task.program, obeys_bind, obeys_pure]
      exact lookup_counts
    | get_miss_handler key cache_meta =>
      simp only [Call.program, Task.program, obeys_bind, obeys_pure]
      exact get_miss_handler_counts cache_meta
    | write_body hash m data is_eof =>
      exact hother (calls_bind (calls_bind (calls_mono (m.write_body_calls data is_eof)
        fun _ => unnoted_of_append) fun _ => calls_pure _) fun _ => calls_pure _)
    | finish hash m =>
      simp only [Call.program, Task.program, obeys_bind, obeys_pure]
      exact finish_counts m
    | drop_handler hash m =>
      exact hother (calls_bind (calls_bind (calls_mono m.drop_calls
        fun _ => unnoted_of_path) fun _ => calls_pure _) fun _ => calls_pure _)
    | purge key purge_type =>
      simp only [Call.program, Task.program, obeys_bind, obeys_pure]
      exact purge_counts purge_type
    | update_meta key cache_meta =>
      exact hother (calls_bind (calls_bind (calls_mono (cache.update_meta_calls key cache_meta)
        fun _ => unnoted_of_path) fun _ => calls_pure _) fun _ => calls_pure _)
  | read_hit hit =>
    refine hother (calls_bind (calls_mono hit.read_body_calls ?_) fun _ => calls_pure _)
    intro e he
    cases e <;> trivial
  | finish_hit i hit =>
    refine (obeys_perform (Io.inc_by .served_hits 1) _ _).mpr ⟨⟨⟨i, rfl⟩, rfl, rfl⟩, fun _ => ?_⟩
    intro c _
    cases c <;> rfl

end

/-! ## Whole runs -/

def Kind.is_lookup : Kind → Bool
  | .lookup _ _ _ _ => true
  | _ => false

/-- Task `i` is a lookup that returned an object. -/
def gave_hit (p : CallPool M) (i : Nat) : Bool :=
  match p.threads[i]? with
  | some (.done r, n) => n.kind.is_lookup && r.found_hit
  | _ => false

/-- Calls come at any time and go on in any order, and any of them may fail. The end of a hit
comes once, after the lookup that gave its handler. -/
def AsDriven (p : CallPool M) : Event Choice World (Call K M) → Prop
  | .spawn (.finish_hit i _) => gave_hit p i = true ∧ ∀ n ∈ p.notes, n.kind ≠ .finish_hit i
  | .spawn _ => True
  | .call _ _ => True
  | .crash => False
  | .outside _ => False

instance (p : CallPool M) : (ev : Event Choice World (Call K M)) → Decidable (AsDriven p ev)
  | .spawn (.finish_hit _ _) => inferInstanceAs (Decidable (_ ∧ _))
  | .spawn (.task _) => isTrue trivial
  | .spawn (.read_hit _) => isTrue trivial
  | .call _ _ => isTrue trivial
  | .crash => isFalse id
  | .outside _ => isFalse id

/-- The counters are the sums of what the tasks have added. -/
def Tallied (ns : List CallNote) (w : World) : Prop :=
  ∀ c, w.metrics.counter c = (ns.map fun n => n.counts c).sum

/-- Each end of a hit has a lookup of its own, which has counted its hit. -/
structure Served (ns : List CallNote) : Prop where
  once : ∀ (i i' : Nat) (n n' : CallNote) (j : Nat), ns[i]? = some n → ns[i']? = some n' →
    n.kind = .finish_hit j → n'.kind = .finish_hit j → i = i'
  hit : ∀ (i : Nat) (n : CallNote) (j : Nat), ns[i]? = some n → n.kind = .finish_hit j →
    ∃ n', ns[j]? = some n' ∧ 1 ≤ n'.counts .lookup_hits
  count : ∀ n ∈ ns, n.counts .served_hits ≤ 1
  others : ∀ n ∈ ns, (∀ j, n.kind ≠ .finish_hit j) → n.counts .served_hits = 0

section
variable {ns : List CallNote} {w : World} {cache : DiskCache}

theorem counter_of_uncounted {e : Io} (he : ∀ c k, e ≠ .inc_by c k) (c : Choice) (w : World) :
    (answer e c w).2.metrics.counter = w.metrics.counter := by
  cases e
  case inc_by m k => exact absurd rfl (he m k)
  all_goals
    simp only [answer, Choice.guard]
    repeat' split
    all_goals rfl

/-- One call adds to a counter what it adds to the note. -/
theorem Tallied.call (h : Tallied ns w) {i : Nat} {n : CallNote} (hi : ns[i]? = some n) (e : Io)
    (c : Choice) : Tallied (ns.set i (n.next cache e (answer e c w).1)) (answer e c w).2 := by
  intro m
  have hset := sum_map_set (fun n => n.counts m) hi (n.next cache e (answer e c w).1)
  by_cases he : ∃ a k, e = .inc_by a k
  · obtain ⟨a, k, rfl⟩ := he
    have hm := h m
    simp only [answer, World.setMetrics, CacheMetrics.inc_by, CallNote.next] at hset ⊢
    by_cases ha : m = a
    · subst ha
      rw [Function.update_self] at hset ⊢
      omega
    · rw [Function.update_of_ne ha] at hset ⊢
      omega
  · have hcounts : (n.next cache e (answer e c w).1).counts m = n.counts m := by
      cases e <;> first | rfl | exact absurd ⟨_, _, rfl⟩ he
    rw [counter_of_uncounted (fun a k hk => he ⟨a, k, hk⟩), h m]
    simp only [hcounts] at hset
    omega

/-- A call keeps the kind of an end of a hit, and no other call becomes one. -/
theorem kind_next {n : CallNote} {e : Io} {r : e.Reply} {j : Nat} :
    (n.next cache e r).kind = .finish_hit j ↔ n.kind = .finish_hit j := by
  obtain ⟨kind, counts⟩ := n
  cases kind with
  | lookup hash mi mh sized =>
    cases e
    case read p =>
      simp only [CallNote.next, Kind.next]
      split <;> simp
    case file_len f => cases r <;> simp [CallNote.next, Kind.next]
    all_goals simp [CallNote.next, Kind.next]
  | get_miss_handler => cases e <;> exact Iff.rfl
  | finish => cases e <;> exact Iff.rfl
  | purge => cases e <;> exact Iff.rfl
  | finish_hit i => cases e <;> exact Iff.rfl
  | other => cases e <;> exact Iff.rfl

theorem counts_le_next (n : CallNote) (e : Io) (r : e.Reply) (c : Counter) :
    n.counts c ≤ (n.next cache e r).counts c := by
  cases e
  case inc_by a k =>
    simp only [CallNote.next]
    by_cases ha : c = a
    · subst ha
      simp
    · rw [Function.update_of_ne ha]
  all_goals exact Nat.le_refl _

/-- A note after a call, and the note that it was. -/
theorem of_set {i k : Nat} {n m : CallNote} {e : Io} {r : e.Reply} (hi : ns[i]? = some n)
    (hk : (ns.set i (n.next cache e r))[k]? = some m) : ∃ m0, ns[k]? = some m0 ∧
      (∀ j, m.kind = .finish_hit j → m0.kind = .finish_hit j) ∧
      ∀ c, m0.counts c ≤ m.counts c := by
  rcases getElem?_set_cases hk with ⟨rfl, rfl⟩ | ⟨_, hk⟩
  · exact ⟨n, hi, fun j hj => kind_next.mp hj, counts_le_next n e r⟩
  · exact ⟨m, hk, fun _ hj => hj, fun _ => Nat.le_refl _⟩

/-- A note before a call, and the note that it becomes. -/
theorem set_of (cache : DiskCache) {i k : Nat} {n m0 : CallNote} {e : Io} {r : e.Reply} (hi : ns[i]? = some n)
    (hk : ns[k]? = some m0) : ∃ m, (ns.set i (n.next cache e r))[k]? = some m ∧
      ∀ c, m0.counts c ≤ m.counts c := by
  rcases getElem?_set_of hi hk (n.next cache e r) with ⟨rfl, rfl⟩ | ⟨_, hk⟩
  · have hlt : k < ns.length := (List.getElem?_eq_some_iff.mp hi).1
    exact ⟨_, List.getElem?_set_self hlt, counts_le_next m0 e r⟩
  · exact ⟨m0, hk, fun _ => Nat.le_refl _⟩

/-- What a call makes of the hits that its task has counted as served. -/
theorem served_next (cache : DiskCache) {n : CallNote} {e : Io} {r : e.Reply} (ha : n.allows e) :
    (n.next cache e r).counts .served_hits = n.counts .served_hits ∨
      ((∃ j, n.kind = .finish_hit j) ∧ (n.next cache e r).counts .served_hits = 1) := by
  cases e
  case inc_by a k =>
    by_cases hserved : a = .served_hits
    · subst hserved
      obtain ⟨hkind, hzero, rfl⟩ := ha
      refine Or.inr ⟨hkind, ?_⟩
      simp [CallNote.next, hzero]
    · refine Or.inl ?_
      simp only [CallNote.next]
      rw [Function.update_of_ne (Ne.symm hserved)]
  all_goals exact Or.inl rfl

theorem Served.call (h : Served ns) {i : Nat} {n : CallNote} {e : Io} (hi : ns[i]? = some n)
    (ha : n.allows e) (r : e.Reply) : Served (ns.set i (n.next cache e r)) := by
  have hn : n ∈ ns := List.mem_of_getElem? hi
  refine ⟨?_, ?_, ?_, ?_⟩
  · intro a b m m' j hm hm' hj hj'
    obtain ⟨x, hx, hxj, _⟩ := of_set hi hm
    obtain ⟨y, hy, hyj, _⟩ := of_set hi hm'
    exact h.once a b x y j hx hy (hxj j hj) (hyj j hj')
  · intro a m j hm hj
    obtain ⟨x, hx, hxj, _⟩ := of_set hi hm
    obtain ⟨y, hy, hle⟩ := h.hit a x j hx (hxj j hj)
    obtain ⟨z, hz, hzle⟩ := set_of cache (e := e) (r := r) hi hy
    exact ⟨z, hz, Nat.le_trans hle (hzle _)⟩
  · intro m hm
    rcases List.mem_or_eq_of_mem_set hm with hm | rfl
    · exact h.count m hm
    · rcases served_next cache (r := r) ha with hs | ⟨_, hs⟩
      · rw [hs]
        exact h.count n hn
      · rw [hs]
  · intro m hm hno
    rcases List.mem_or_eq_of_mem_set hm with hm | rfl
    · exact h.others m hm hno
    · have hkind : ∀ j, n.kind ≠ .finish_hit j := fun j hj => hno j (kind_next.mpr hj)
      rcases served_next cache (r := r) ha with hs | ⟨⟨j, hj⟩, _⟩
      · rw [hs]
        exact h.others n hn hkind
      · exact absurd hj (hkind j)

theorem served_nil : Served [] := by
  refine ⟨?_, ?_, ?_, ?_⟩
  · intro i i' n n' j h
    cases h
  · intro i n j h
    cases h
  · intro n h
    cases h
  · intro n h
    cases h

/-- A new task has counted nothing. -/
theorem Served.spawn (h : Served ns) (k : Kind)
    (hk : ∀ j, k = .finish_hit j → (∀ n ∈ ns, n.kind ≠ .finish_hit j) ∧
      ∃ n, ns[j]? = some n ∧ 1 ≤ n.counts .lookup_hits) : Served (ns ++ [.start k]) := by
  have hcases : ∀ {a : Nat} {m : CallNote}, (ns ++ [CallNote.start k])[a]? = some m →
      ns[a]? = some m ∨ (a = ns.length ∧ m = .start k) := by
    intro a m hm
    rcases Nat.lt_or_ge a ns.length with hlt | hge
    · rw [List.getElem?_append_left hlt] at hm
      exact Or.inl hm
    · rw [List.getElem?_append_right hge] at hm
      have hzero : a - ns.length = 0 := by
        by_contra hne
        rw [List.getElem?_eq_none (by simp; omega)] at hm
        cases hm
      rw [hzero] at hm
      cases hm
      exact Or.inr ⟨by omega, rfl⟩
  have hkeep : ∀ {a : Nat} {m : CallNote}, ns[a]? = some m →
      (ns ++ [CallNote.start k])[a]? = some m := by
    intro a m hm
    rwa [List.getElem?_append_left (List.getElem?_eq_some_iff.mp hm).1]
  refine ⟨?_, ?_, ?_, ?_⟩
  · intro a b m m' j hm hm' hj hj'
    rcases hcases hm with hm | ⟨ha, rfl⟩ <;> rcases hcases hm' with hm' | ⟨hb, rfl⟩
    · exact h.once a b m m' j hm hm' hj hj'
    · exact absurd hj ((hk j hj').1 m (List.mem_of_getElem? hm))
    · exact absurd hj' ((hk j hj).1 m' (List.mem_of_getElem? hm'))
    · exact ha.trans hb.symm
  · intro a m j hm hj
    rcases hcases hm with hm | ⟨ha, rfl⟩
    · obtain ⟨x, hx, hle⟩ := h.hit a m j hm hj
      exact ⟨x, hkeep hx, hle⟩
    · obtain ⟨x, hx, hle⟩ := (hk j hj).2
      exact ⟨x, hkeep hx, hle⟩
  · intro m hm
    rcases List.mem_append.mp hm with hm | hm
    · exact h.count m hm
    · rw [List.mem_singleton.mp hm]
      exact Nat.zero_le _
  · intro m hm hno
    rcases List.mem_append.mp hm with hm | hm
    · exact h.others m hm hno
    · rw [List.mem_singleton.mp hm]
      rfl

/-- A sum over all notes, by their places. -/
theorem sum_by_place (f : CallNote → Nat) (ns : List CallNote) :
    (ns.map f).sum = ∑ i ∈ Finset.range ns.length, ((ns[i]?).map f).getD 0 := by
  induction ns with
  | nil => rfl
  | cons n ns ih =>
    rw [List.map_cons, List.sum_cons, List.length_cons, Finset.sum_range_succ', ih, Nat.add_comm]
    rfl

/-- No more hits are served than were found. -/
theorem Served.le (h : Served ns) :
    (ns.map fun n => n.counts .served_hits).sum ≤ (ns.map fun n => n.counts .lookup_hits).sum := by
  classical
  -- the places of the ends of hits, and of the lookups that gave them
  let ends := (Finset.range ns.length).filter fun i => ∃ n j, ns[i]? = some n ∧ n.kind = .finish_hit j
  let hits := (Finset.range ns.length).filter fun j => ∃ n, ns[j]? = some n ∧ 1 ≤ n.counts .lookup_hits
  have hsome : ∀ {i : Nat} {n : CallNote}, ns[i]? = some n → i ∈ Finset.range ns.length :=
    fun hi => Finset.mem_range.mpr (List.getElem?_eq_some_iff.mp hi).1
  have hserved : (ns.map fun n => n.counts .served_hits).sum ≤ ends.card := by
    rw [sum_by_place, Finset.card_filter]
    refine Finset.sum_le_sum fun i hi => ?_
    obtain ⟨n, hn⟩ : ∃ n, ns[i]? = some n :=
      ⟨_, List.getElem?_eq_getElem (Finset.mem_range.mp hi)⟩
    have hmem : n ∈ ns := List.mem_of_getElem? hn
    by_cases hends : ∃ n j, ns[i]? = some n ∧ n.kind = .finish_hit j
    · rw [if_pos hends, hn]
      exact h.count n hmem
    · rw [if_neg hends, hn]
      exact (h.others n hmem fun j hj => hends ⟨n, j, hn, hj⟩).le
  have hfound : hits.card ≤ (ns.map fun n => n.counts .lookup_hits).sum := by
    rw [sum_by_place, Finset.card_filter]
    refine Finset.sum_le_sum fun i hi => ?_
    by_cases hhit : ∃ n, ns[i]? = some n ∧ 1 ≤ n.counts .lookup_hits
    · obtain ⟨n, hn, hle⟩ := hhit
      rw [if_pos ⟨n, hn, hle⟩, hn]
      exact hle
    · rw [if_neg hhit]
      exact Nat.zero_le _
  have hcard : ends.card ≤ hits.card := by
    have hgive : ∀ i ∈ ends, ∃ j, j ∈ hits ∧ ∃ n, ns[i]? = some n ∧ n.kind = .finish_hit j := by
      intro i hi
      obtain ⟨n, j, hn, hj⟩ := (Finset.mem_filter.mp hi).2
      obtain ⟨m, hm, hle⟩ := h.hit i n j hn hj
      exact ⟨j, Finset.mem_filter.mpr ⟨hsome hm, m, hm, hle⟩, n, hn, hj⟩
    choose! g hg hkind using hgive
    refine Finset.card_le_card_of_injOn g (fun i hi => hg i hi) ?_
    intro a ha b hb hab
    obtain ⟨n, hn, hj⟩ := hkind a ha
    obtain ⟨m, hm, hj'⟩ := hkind b hb
    rw [hab] at hj
    exact h.once a b n m _ hn hm hj hj'
  omega

end

/-- The counters stay the sums, and each end of a hit keeps its lookup. -/
theorem counters_invariant (cache : DiskCache) :
    (calls_system K M cache).Invariant CallNote.allows Settled AsDriven
      (fun ns w _ => Tallied ns w ∧ Served ns) where
  start _ t _ := call_obeys cache t
  spawn p t hP ho hI := by
    refine ⟨?_, ?_⟩
    · intro c
      rw [hI.1 c, List.map_append, List.sum_append]
      rfl
    · refine hI.2.spawn t.kind fun j hj => ?_
      cases t with
      | task t => cases t <;> cases hj
      | read_hit hit => cases hj
      | finish_hit i hit =>
        cases hj
        refine ⟨hP.2, ?_⟩
        have hgave := hP.1
        unfold gave_hit at hgave
        split at hgave
        · rename_i r n hi
          simp only [Bool.and_eq_true] at hgave
          refine ⟨n, Pool.notes_getElem? hi, ?_⟩
          have hdone := ho.done (List.mem_of_getElem? hi)
          rw [hdone .lookup_hits (by decide)]
          obtain ⟨kind, counts⟩ := n
          cases kind with
          | lookup hash mi mh sized =>
            simp only [due, hgave.2, Bool.toNat_true]
            omega
          | _ => cases hgave.1
        · cases hgave
  call p i c e k n hP hi ha hI :=
    ⟨hI.1.call (Pool.notes_getElem? hi) e c, hI.2.call (Pool.notes_getElem? hi) ha _⟩
  crash _ hP := absurd hP id
  outside _ _ hP := absurd hP id

/-- The number of calls that are done, as `f` says of what they returned and of their kind. -/
def count (p : CallPool M) (f : Returned M → Kind → Bool) : Nat :=
  p.threads.countP fun x => match x.1 with
    | .done r => f r x.2.kind
    | .call _ _ => false

/-- The counters say what they are documented to count. -/
structure Right (p : CallPool M) : Prop where
  misses : p.state.metrics.counter .misses = count p fun r k => k.is_lookup && r.found_none
  lookup_hits : p.state.metrics.counter .lookup_hits = count p fun r k => k.is_lookup && r.found_hit
  served_hits : p.state.metrics.counter .served_hits ≤ p.state.metrics.counter .lookup_hits
  inserts : p.state.metrics.counter .inserts = count p fun r k => decide (k = .finish) && r.created
  purge_attempts : p.state.metrics.counter .purge_attempts = count p fun _ k => decide (k = .purge)
  evictions : p.state.metrics.counter .evictions = count p fun r k => decide (k = .purge) && r.purged

/-- What the tasks have counted, where a counter counts two things. -/
theorem sum_due {p : CallPool M} {c : Counter} {f g : Returned M → Kind → Bool}
    (hdone : ∀ x ∈ p.threads, ∃ r, x.1 = .done r ∧ Settled r x.2) (hc : c ≠ .evicted_bytes)
    (hdue : ∀ (r : Returned M) k, due r k c = (f r k).toNat + (g r k).toNat) :
    (p.notes.map fun n => n.counts c).sum = count p f + count p g := by
  obtain ⟨threads, state, history⟩ := p
  unfold Pool.notes count
  induction threads with
  | nil => rfl
  | cons x xs ih =>
    obtain ⟨r, hr, hs⟩ := hdone x List.mem_cons_self
    have hrest := ih fun y hy => hdone y (List.mem_cons_of_mem _ hy)
    simp only [List.map_cons, List.sum_cons, List.countP_cons, hrest, hr, hs c hc, hdue]
    cases f r x.2.kind <;> cases g r x.2.kind <;> simp <;> omega

/-- After every run in which all calls are done, the counters are right exactly when no handler
of a miss was asked for, and no lookup got all three files with metadata that does not
deserialise. -/
theorem the_counters_are_right_exactly_when_no_miss_is_handled_and_all_metadata_decodes
    (cache : DiskCache) (w : World) (hw : ∀ c, w.metrics.counter c = 0)
    (evs : List (Event Choice World (Call K M))) (p : CallPool M)
    (hP : (calls_system K M cache).Along AsDriven ⟨[], w, ()⟩ evs)
    (hr : (calls_system K M cache).run ⟨[], w, ()⟩ evs = some p) (hq : p.Quiescent) :
    Right p ↔ ∀ n ∈ p.notes, n.kind ≠ .get_miss_handler ∧ n.kind.undecoded M = false := by
  obtain ⟨ho, htally, hserved⟩ := (counters_invariant cache).run (p := ⟨[], w, ()⟩)
    (fun x hx => absurd hx List.not_mem_nil) ⟨hw, served_nil⟩ hP hr
  have hdone : ∀ x ∈ p.threads, ∃ r, x.1 = .done r ∧ Settled r x.2 := by
    intro x hx
    obtain ⟨r, hxr⟩ := hq.done hx
    obtain ⟨y, n⟩ := x
    cases hxr
    exact ⟨r, rfl, ho.done hx⟩
  have hmisses : p.state.metrics.counter .misses = count p (fun r k => k.is_lookup && r.found_none) +
      count p fun _ k => decide (k = .get_miss_handler) := by
    rw [htally, sum_due hdone (by decide)]
    intro r k
    cases k <;> simp [due, Kind.is_lookup]
  have hhits : p.state.metrics.counter .lookup_hits = count p (fun r k => k.is_lookup && r.found_hit) +
      count p fun _ k => k.undecoded M := by
    rw [htally, sum_due hdone (by decide)]
    intro r k
    cases k <;> simp [due, Kind.is_lookup, Kind.undecoded]
  have hnone : count p (fun _ _ => false) = 0 := by
    unfold count
    rw [List.countP_eq_zero]
    intro x hx
    obtain ⟨r, hxr, _⟩ := hdone x hx
    simp [hxr]
  have hrest : ∀ (c : Counter) (f : Returned M → Kind → Bool), c ≠ .evicted_bytes →
      (∀ (r : Returned M) k, due r k c = (f r k).toNat) → p.state.metrics.counter c = count p f := by
    intro c f hc hdue
    rw [htally, sum_due (g := fun _ _ => false) hdone hc hdue, hnone, Nat.add_zero]
  have hzero : ∀ f : Kind → Bool, count p (fun _ k => f k) = 0 ↔ ∀ n ∈ p.notes, f n.kind = false := by
    intro f
    unfold count Pool.notes
    rw [List.countP_eq_zero]
    simp only [List.mem_map, forall_exists_index, and_imp, forall_apply_eq_imp_iff₂]
    refine forall₂_congr fun x hx => ?_
    obtain ⟨r, hxr, _⟩ := hdone x hx
    simp [hxr]
  constructor
  · intro h n hn
    have hget := (hzero fun k => decide (k = .get_miss_handler)).mp (by have := h.misses; omega) n hn
    have hdecode := (hzero fun k => k.undecoded M).mp (by have := h.lookup_hits; omega) n hn
    exact ⟨by simpa using hget, hdecode⟩
  · intro h
    have hget := (hzero fun k => decide (k = .get_miss_handler)).mpr fun n hn => by simpa using (h n hn).1
    have hdecode := (hzero fun k => k.undecoded M).mpr fun n hn => (h n hn).2
    refine ⟨by omega, by omega, ?_, ?_, ?_, ?_⟩
    · rw [htally, htally]
      exact hserved.le
    · exact hrest .inserts _ (by decide) fun r k => by cases k <;> simp [due]
    · exact hrest .purge_attempts _ (by decide) fun r k => by cases k <;> simp [due]
    · exact hrest .evictions _ (by decide) fun r k => by cases k <;> simp [due]

/-! ## A hit, and a miss that is counted twice -/

/-- A disk with one object. -/
def stored_world : World :=
  empty_world.setTree (((((FileTree.empty _ _).mkdirs (small_cache.dir small_hash)).put
    (small_cache.body small_hash) [3]).put (small_cache.meta_part small_hash) [7]).put
      (small_cache.hdr small_hash) [])

/-- The handler of a hit for it. -/
def stored_hit : DiskHitHandler := ⟨0, 1, 0, 1, 0, false, DEFAULT_READ_BUFFER_SIZE⟩

/-- A hit that is served, and a purge. -/
def hit_events : List (Event Choice World (Call CombinedHash Note)) :=
  [.spawn (.task (.lookup small_hash))] ++ Event.calls 0 7 plain ++
    [.spawn (.read_hit stored_hit)] ++ Event.calls 1 1 plain ++
    [.spawn (.finish_hit 0 stored_hit)] ++ Event.calls 2 1 plain ++
    [.spawn (.task (.purge small_hash .Eviction))] ++ Event.calls 3 9 plain

theorem the_counters_are_right_after_a_hit_and_a_purge :
    ∃ p, (calls_system CombinedHash Note small_cache).run ⟨[], stored_world, ()⟩ hit_events = some p ∧
      Right p := by
  have hrun : ((calls_system CombinedHash Note small_cache).run ⟨[], stored_world, ()⟩
      hit_events).any (fun p => decide p.Quiescent && decide (∀ n ∈ p.notes,
        n.kind ≠ .get_miss_handler ∧ n.kind.undecoded Note = false)) = true := by decide +kernel
  obtain ⟨p, hp, hend⟩ := (Option.any_eq_true _ _).mp hrun
  obtain ⟨hq, hnotes⟩ := Bool.and_eq_true_iff.mp hend
  refine ⟨p, hp, ?_⟩
  apply (the_counters_are_right_exactly_when_no_miss_is_handled_and_all_metadata_decodes
    small_cache stored_world (fun _ => rfl) hit_events p (by decide +kernel) hp
    (of_decide_eq_true hq)).mpr
  exact of_decide_eq_true hnotes

/-- A lookup that finds nothing, and the miss that is stored for it. -/
def miss_events : List (Event Choice World (Call CombinedHash Note)) :=
  [.spawn (.task (.lookup small_hash))] ++ Event.calls 0 6 plain ++
    [.spawn (.task (.get_miss_handler small_hash ⟨[7]⟩))] ++ Event.calls 1 6 plain ++
    [.spawn (.task (.write_body small_hash (small_handler [7] 0) [3] true))] ++
    Event.calls 2 3 plain ++
    [.spawn (.task (.finish small_hash (small_handler [7] 1)))] ++ Event.calls 3 7 plain

/-- One lookup found no object, and two misses are counted. -/
theorem one_miss_is_counted_twice :
    (∀ c, empty_world.metrics.counter c = 0) ∧
    (calls_system CombinedHash Note small_cache).Along AsDriven ⟨[], empty_world, ()⟩ miss_events ∧
    ((calls_system CombinedHash Note small_cache).run ⟨[], empty_world, ()⟩ miss_events).map
      (fun p => (decide p.Quiescent, p.state.metrics.counter .misses,
        count p fun r k => k.is_lookup && r.found_none)) = some (true, 2, 1) :=
  ⟨fun _ => rfl, by decide +kernel, by decide +kernel⟩

end edge_cdn_store.counters
