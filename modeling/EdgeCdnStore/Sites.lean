-- Sessions on one machine. They share the disk, the clock and the metrics, and
-- each has the files that it opened for itself, as numbers of its own. A number
-- that a session did not get opens nothing.
import EdgeCdnStore.Tasks
import EdgeCdnStore.CallFrames

open edge_cdn_store.file_tree edge_cdn_store.logger

namespace edge_cdn_store.programs.Program

variable {E E' : Type} {R : E → Type} {R' : E' → Type} {N α : Type}

/-- The program, each call `e` of which goes out as the call `f e`. -/
def sent (f : E → E') : Program E (fun e => R' (f e)) α → Program E' R' α
  | .done a => .done a
  | .call e k => .call (f e) fun r => (k r).sent f

theorem obeys_sent {allows : N → E' → Prop} {next : N → (e : E') → R' e → N} (f : E → E')
    (p : Program E (fun e => R' (f e)) α) (Q : α → N → Prop) (n : N) :
    Obeys allows next (p.sent f) Q n ↔
      Obeys (fun n e => allows n (f e)) (fun n e r => next n (f e) r) p Q n := by
  induction p generalizing n with
  | done a => rfl
  | call e k ih =>
    simp only [sent, Obeys]
    exact and_congr_right fun _ => forall_congr' fun r => ih r _

/-- Where the calls that go out read and change a part of the state only, the program works on
that part. -/
theorem wp_sent {C S T : Type} {f : E → E'} {env : Environment E' R' C S}
    {env' : Environment E (fun e => R' (f e)) C T} {ok : C → Prop} (get : S → T) (put : S → T → S)
    (hget : ∀ s t, get (put s t) = t) (hput : ∀ s t t', put (put s t) t' = put s t')
    (hsame : ∀ s, put s (get s) = s)
    (henv : ∀ e c s, env (f e) c s = ((env' e c (get s)).1, put s (env' e c (get s)).2))
    (p : Program E (fun e => R' (f e)) α) (Q : α → S → Prop) (s : S) :
    wp env ok (p.sent f) Q s ↔ wp env' ok p (fun a t => Q a (put s t)) (get s) := by
  induction p generalizing s with
  | done a =>
    simp only [sent, wp]
    rw [hsame]
  | call e k ih =>
    simp only [sent, wp]
    refine forall_congr' fun c => imp_congr_right fun _ => ?_
    rw [henv, ih]
    simp only [hget, hput]

/-- The same with other notes, each of which is a function of the old one. -/
theorem obeys_map {N' : Type} {allows : N → E → Prop} {next : N → (e : E) → R e → N}
    {allows' : N' → E → Prop} {next' : N' → (e : E) → R e → N'} {p : Program E R α}
    {Q : α → N → Prop} {Q' : α → N' → Prop} {n : N} (f : N → N') (h : Obeys allows next p Q n)
    (hallows : ∀ n e, allows n e → allows' (f n) e)
    (hnext : ∀ n e r, next' (f n) e r = f (next n e r)) (hQ : ∀ a n, Q a n → Q' a (f n)) :
    Obeys allows' next' p Q' (f n) := by
  refine obeys_beside (J := fun n n' => n' = f n) h rfl ?_ ?_
  · rintro n _ e rfl ha
    exact ⟨hallows n e ha, hnext n e⟩
  · rintro a n _ hn rfl
    exact hQ a n hn

/-- A program that makes such calls only keeps to them, whatever is noted beside it. -/
theorem obeys_of_calls {P : E → Prop} {next : N → (e : E) → R e → N} {p : Program E R α}
    (h : p.Calls P) (n : N) : Obeys (fun _ => P) next p (fun _ _ => True) n := by
  induction p generalizing n with
  | done a => trivial
  | call e k ih => exact ⟨h.1, fun r => ih r (h.2 r) _⟩

/-- A program that keeps to calls which leave the note as it is. -/
theorem obeys_fixed {N' : Type} {P : E → Prop} {next' : N' → (e : E) → R e → N'}
    {Q : α → N' → Prop} {n' : N'} {allows : N → E → Prop} {next : N → (e : E) → R e → N} {n : N}
    {p : Program E R α} (h : Obeys (fun _ => P) next' p Q n') (hP : ∀ e, P e → allows n e)
    (hnext : ∀ e r, next n e r = n) : Obeys allows next p (fun _ m => m = n) n := by
  induction p generalizing n' with
  | done a => rfl
  | call e k ih =>
    refine ⟨hP e h.1, fun r => ?_⟩
    rw [hnext]
    exact ih r (h.2 r)

end edge_cdn_store.programs.Program

open edge_cdn_store.programs edge_cdn_store.programs.Program edge_cdn_store.io
open edge_cdn_store.disk_cache edge_cdn_store.tasks

namespace edge_cdn_store.tasks

variable {K M : Type} [CacheHashKey K]

/-- The key of a task. -/
def Task.hash : Task K M → CombinedHash
  | .lookup key => CacheHashKey.combined key
  | .get_miss_handler key _ => CacheHashKey.combined key
  | .write_body hash _ _ _ => hash
  | .finish hash _ => hash
  | .drop_handler hash _ => hash
  | .purge key _ => CacheHashKey.combined key
  | .update_meta key _ => CacheHashKey.combined key

end edge_cdn_store.tasks

namespace edge_cdn_store.sites

/-! ## The machine -/

/-- The files that a session has open. -/
structure Desk where
  files : Nat → OpenFile
  opened : Nat

def Desk.empty : Desk := ⟨fun _ => ⟨0, 0⟩, 0⟩

structure Site where
  tree : FileTree (List Char) UInt8
  metrics : CacheMetrics
  pid : Nat
  desks : Nat → Desk

/-- A machine on which nobody has a file open. -/
def Site.start (tree : FileTree (List Char) UInt8) (metrics : CacheMetrics) (pid : Nat) : Site :=
  ⟨tree, metrics, pid, fun _ => .empty⟩

namespace Site

/-- What session `i` sees. -/
def world (s : Site) (i : Nat) : World :=
  ⟨s.tree, (s.desks i).files, (s.desks i).opened, s.metrics, s.pid⟩

/-- The machine after a call that left session `i` with the world `w`. -/
def put (s : Site) (i : Nat) (w : World) : Site :=
  ⟨w.tree, w.metrics, w.pid, Function.update s.desks i ⟨w.files, w.opened⟩⟩

variable (s : Site) (i : Nat) (w : World)

@[simp] theorem tree_put : (s.put i w).tree = w.tree := rfl
@[simp] theorem metrics_put : (s.put i w).metrics = w.metrics := rfl
@[simp] theorem pid_put : (s.put i w).pid = w.pid := rfl
@[simp] theorem desks_put_self : (s.put i w).desks i = ⟨w.files, w.opened⟩ :=
  Function.update_self ..

@[simp] theorem world_put_self : (s.put i w).world i = w := by
  unfold world
  rw [desks_put_self]
  rfl

@[simp] theorem put_put (w' : World) : (s.put i w).put i w' = s.put i w' := by
  simp only [put, Function.update_idem]

theorem desks_put_of_ne {j : Nat} (h : j ≠ i) : (s.put i w).desks j = s.desks j :=
  Function.update_of_ne h _ _

end Site

def badFile : IoError := ⟨.Other, "Bad file descriptor (os error 9)"⟩

/-- What the operating system chooses for a call of a session with `opened` numbers: a call
by another number fails. -/
def bound (e : Io) (opened : Nat) (c : Choice) : Choice :=
  if ∀ f ∈ handles e, f < opened then c else { c with fault := some ⟨badFile, none⟩ }

/-- The operating system, answering a call of session `e.1`. -/
def respond : Environment (Nat × Io) (fun e => e.2.Reply) Choice Site := fun e c s =>
  let r := answer e.2 (bound e.2 (s.desks e.1).opened c) (s.world e.1)
  (r.1, s.put e.1 r.2)

theorem put_world (s : Site) (i : Nat) : s.put i (s.world i) = s := by
  unfold Site.put Site.world
  simp only
  rw [show (⟨(s.desks i).files, (s.desks i).opened⟩ : Desk) = s.desks i from rfl,
    Function.update_eq_self]

/-- A call by a number that is not open changes nothing. -/
theorem answer_refused {e : Io} {n : Nat} (h : ¬ ∀ f ∈ handles e, f < n) (c : Choice) (w : World) :
    (answer e { c with fault := some ⟨badFile, none⟩ } w).2 = w := by
  cases e
  case file_len => rfl
  case read_file => rfl
  case seek_file => rfl
  case write_all => rfl
  case flush => rfl
  case copy_some => rfl
  case copy_rest => rfl
  all_goals exact absurd (fun f hf => by cases hf) h

/-- A call is refused, and nothing changes, or it goes by open numbers only and the
operating system answers it. -/
theorem respond_cases (e : Nat × Io) (c : Choice) (s : Site) :
    (respond e c s).2 = s ∨
    ((∀ f ∈ handles e.2, f < (s.desks e.1).opened) ∧
      respond e c s =
        ((answer e.2 c (s.world e.1)).1, s.put e.1 (answer e.2 c (s.world e.1)).2)) := by
  unfold respond bound
  split
  · rename_i hlt
    exact Or.inr ⟨hlt, rfl⟩
  · rename_i hno
    have hw := answer_refused hno c (s.world e.1)
    refine Or.inl ?_
    simp only [hw]
    exact put_world s e.1

/-- A call by open numbers is answered as it is. -/
theorem respond_of_open {e : Nat × Io} {s : Site}
    (h : ∀ f ∈ handles e.2, f < (s.desks e.1).opened) (c : Choice) :
    respond e c s =
      ((answer e.2 c (s.world e.1)).1, s.put e.1 (answer e.2 c (s.world e.1)).2) := by
  unfold respond bound
  rw [if_pos h]

/-- A call by one number, which is open, goes as the operating system chooses. -/
theorem bound_of_open {e : Io} {f opened : Nat} (h : handles e = [f]) (hf : f < opened)
    (c : Choice) : bound e opened c = c := by
  unfold bound
  apply if_pos
  intro g hg
  rw [h, List.mem_singleton] at hg
  rw [hg]
  exact hf

theorem respond_of_no_handles {e : Nat × Io} (h : handles e.2 = []) (c : Choice) (s : Site) :
    respond e c s =
      ((answer e.2 c (s.world e.1)).1, s.put e.1 (answer e.2 c (s.world e.1)).2) := by
  apply respond_of_open
  rw [h]
  exact fun f hf => absurd hf List.not_mem_nil

/-! ## What a call leaves alone -/

section
variable {e : Nat × Io} {c : Choice} {s : Site} {H : Set Nat} {T : Set PathBuf}

theorem node_respond {q : PathBuf} (hq : ¬ Touches e.2 q) :
    (respond e c s).2.tree.node q = s.tree.node q := by
  rcases respond_cases e c s with h | ⟨_, h⟩
  · rw [h]
  · rw [h]
    exact (answer_leaves e.2 c (s.world e.1)).node q hq

theorem pid_respond : (respond e c s).2.pid = s.pid := by
  rcases respond_cases e c s with h | ⟨_, h⟩
  · rw [h]
  · rw [h]
    exact (answer_leaves e.2 c (s.world e.1)).pid

theorem dir_respond {q : PathBuf} (he : ∀ p, e.2 ≠ .remove_dir p)
    (hd : s.tree.node q = some .dir) : (respond e c s).2.tree.node q = some .dir := by
  rcases respond_cases e c s with h | ⟨_, h⟩
  · rw [h]
    exact hd
  · rw [h]
    exact dir_answer he hd

theorem desks_respond_of_ne {i : Nat} (hi : i ≠ e.1) : (respond e c s).2.desks i = s.desks i := by
  rcases respond_cases e c s with h | ⟨_, h⟩
  · rw [h]
  · rw [h, Site.desks_put_of_ne _ _ _ hi]

/-- The contents at a path stay when the call does not go by the path, and not by a number
that has the file at the path open. -/
theorem content_respond {q : PathBuf} (hq : ¬ Touches e.2 q) (hf : ∀ f ∈ handles e.2,
      s.tree.node q ≠ some (.file ((s.desks e.1).files f).ino)) :
    (respond e c s).2.tree.content q = s.tree.content q := by
  rcases respond_cases e c s with h | ⟨_, h⟩
  · rw [h]
  · have hl := answer_leaves e.2 c (s.world e.1)
    rw [h]
    apply FileTree.content_congr (hl.node q hq)
    intro i hi
    apply hl.data i (s.tree.sound.below q i hi)
    · intro p hp htouch
      rw [s.tree.sound.single p q i hp hi] at htouch
      exact hq htouch
    · intro f hmem heq
      apply hf f hmem
      rw [← heq] at hi
      exact hi

/-- What is open is a file of the tree, even when it stands at no path any more. -/
def Site.Known (s : Site) : Prop :=
  ∀ j f, f < (s.desks j).opened → ((s.desks j).files f).ino < s.tree.fresh

theorem Site.Known.respond (h : s.Known) : (respond e c s).2.Known := by
  rcases respond_cases e c s with h' | ⟨_, h'⟩
  · rw [h']
    exact h
  · have hl := answer_leaves e.2 c (s.world e.1)
    rw [h']
    intro j f hf
    by_cases hj : j = e.1
    · subst hj
      simp only [Site.desks_put_self] at hf ⊢
      rcases Nat.lt_or_ge f (s.desks e.1).opened with hlt | hge
      · have hino := hl.files f hlt
        rw [hino]
        exact Nat.lt_of_lt_of_le (h e.1 f hlt) hl.fresh_le
      · obtain ⟨q, _, hn⟩ := hl.got f hge hf
        exact (answer e.2 c (s.world e.1)).2.tree.sound.below q _ hn
    · rw [Site.desks_put_of_ne _ _ _ hj] at hf ⊢
      exact Nat.lt_of_lt_of_le (h j f hf) hl.fresh_le

/-- File `i` stands at no path of `T`, and no session of `H` has it open. -/
structure Site.Apart (s : Site) (H : Set Nat) (T : Set PathBuf) (i : Nat) : Prop where
  below : i < s.tree.fresh
  paths : ∀ q ∈ T, s.tree.node q ≠ some (.file i)
  desks : ∀ j ∈ H, ∀ f, f < (s.desks j).opened → ((s.desks j).files f).ino ≠ i

/-- A session of `H` that goes by paths of `T` only leaves such a file alone. -/
theorem Site.Apart.respond {i : Nat} (h : s.Apart H T i) (he : e.1 ∈ H)
    (hT : ∀ q, Touches e.2 q → q ∈ T) :
    (respond e c s).2.tree.data i = s.tree.data i ∧ (respond e c s).2.Apart H T i := by
  rcases respond_cases e c s with h' | ⟨hlt, h'⟩
  · rw [h']
    exact ⟨rfl, h⟩
  · have hl := answer_leaves e.2 c (s.world e.1)
    have honly : (s.world e.1).tree.Only {q | ¬ Touches e.2 q} i :=
      fun q hq htouch => h.paths q (hT q htouch) hq
    have hstays := hl.stays i h.below honly
    rw [h']
    refine ⟨hl.data i h.below honly fun f hf => h.desks e.1 he f (hlt f hf), ?_, ?_, ?_⟩
    · exact Nat.lt_of_lt_of_le h.below hl.fresh_le
    · intro q hq hn
      by_cases htouch : Touches e.2 q
      · exact hstays q hn htouch
      · have hnode := hl.node q htouch
        rw [Site.tree_put, hnode] at hn
        exact h.paths q hq hn
    · intro j hj f hf
      by_cases hje : j = e.1
      · subst hje
        simp only [Site.desks_put_self] at hf ⊢
        rcases Nat.lt_or_ge f (s.desks e.1).opened with hlt' | hge
        · have hino := hl.files f hlt'
          rw [hino]
          exact h.desks e.1 hj f hlt'
        · obtain ⟨q, htouch, hn⟩ := hl.got f hge hf
          intro heq
          rw [heq] at hn
          exact hstays q hn htouch
      · rw [Site.desks_put_of_ne _ _ _ hje] at hf ⊢
        exact h.desks j hj f hf

end

/-! ## The calls of a key -/

/-- The calls that go by paths of the key, if they go by paths at all. -/
def OfKey (cache : DiskCache) (hash : CombinedHash) : Io → Prop
  | .create_dir_all p => p = cache.root ∨ p = cache.dir hash
  | .read p => ∃ n, p = cache.entry hash n
  | .open_file p => ∃ n, p = cache.entry hash n
  | .open_append p => ∃ n, IsTmp n ∧ p = cache.entry hash n
  | .create_file p => ∃ n, (IsTmp n ∨ n = "body".toList) ∧ p = cache.entry hash n
  | .write p _ => p = cache.entry hash "meta".toList ∨ p = cache.entry hash "hdr".toList
  | .rename p q => (∃ n, IsTmp n ∧ p = cache.entry hash n) ∧ q = cache.entry hash "body".toList
  | .metadata p => ∃ n, p = cache.entry hash n
  | .exists_path p => ∃ n, p = cache.entry hash n
  | .remove_file p => ∃ n, p = cache.entry hash n
  | .remove_dir p => p = cache.dir hash
  | _ => True

/-- What a call of a key touches is on the way to its directory, or in it. -/
theorem touches_of_key {cache : DiskCache} {hash : CombinedHash} {e : Io} {q : PathBuf}
    (he : OfKey cache hash e) (hq : Touches e q) :
    q <+: cache.dir hash ∨ ∃ n, q = cache.entry hash n := by
  cases e
  case create_dir_all p =>
    rcases he with rfl | rfl
    · exact Or.inl (hq.trans (List.prefix_append _ _))
    · exact Or.inl hq
  case remove_dir p =>
    obtain rfl : q = p := hq
    obtain rfl : q = cache.dir hash := he
    exact Or.inl List.prefix_rfl
  case open_file p =>
    obtain rfl : q = p := hq
    exact Or.inr he
  case open_append p =>
    obtain rfl : q = p := hq
    obtain ⟨n, _, hn⟩ := he
    exact Or.inr ⟨n, hn⟩
  case create_file p =>
    obtain rfl : q = p := hq
    obtain ⟨n, _, hn⟩ := he
    exact Or.inr ⟨n, hn⟩
  case write p d =>
    obtain rfl : q = p := hq
    rcases he with h | h
    · exact Or.inr ⟨_, h⟩
    · exact Or.inr ⟨_, h⟩
  case rename p p' =>
    obtain ⟨⟨n, _, hn⟩, hp'⟩ := he
    rcases hq with rfl | rfl
    · exact Or.inr ⟨n, hn⟩
    · exact Or.inr ⟨_, hp'⟩
  case remove_file p =>
    obtain rfl : q = p := hq
    exact Or.inr he
  all_goals exact absurd hq id

/-- A call of a key keeps files and directories where they belong. -/
theorem laid_answer {cache : DiskCache} {hash : CombinedHash} {e : Io} {c : Choice} {w : World}
    (hw : cache.Laid w.tree) (he : OfKey cache hash e) : cache.Laid (answer e c w).2.tree := by
  have hfile : ∀ n, cache.entry hash n ∉ cache.dirs :=
    fun n => DiskCache.entry_not_mem_dirs
  have hstep := tree_answer e c w
  generalize (answer e c w).2.tree = t at hstep ⊢
  cases hstep with
  | same => exact hw
  | mkdirs p =>
    apply hw.mkdirs
    intro q hq
    apply DiskCache.not_mem_files_of_mem_dirs
    rcases he with rfl | rfl
    · exact DiskCache.mem_dirs_of_prefix (DiskCache.root_mem_dirs cache hash) hq
    · exact DiskCache.mem_dirs_of_prefix DiskCache.dir_mem_dirs hq
  | create p hf hc =>
    obtain ⟨n, _, rfl⟩ := he
    exact hw.create hc (hfile n)
  | put p d d' hc =>
    rcases he with rfl | rfl
    · exact hw.put hc (hfile _) d'
    · exact hw.put hc (hfile _) d'
  | move p q i hi hc =>
    obtain ⟨_, rfl⟩ := he
    exact hw.move hi hc (hfile _)
  | remove_file p i hi => exact hw.remove p
  | remove_dir p hd => exact hw.remove p
  | append f d d' => exact hw.setData _ d'
  | copy_some f g d => exact hw.setData _ d
  | copy_rest f g d => exact hw.setData _ d

theorem laid_respond {cache : DiskCache} {hash : CombinedHash} {e : Nat × Io} {c : Choice}
    {s : Site} (hs : cache.Laid s.tree) (he : OfKey cache hash e.2) :
    cache.Laid (respond e c s).2.tree := by
  rcases respond_cases e c s with h | ⟨_, h⟩
  · rw [h]
    exact hs
  · rw [h]
    exact laid_answer hs he

section
variable {K M : Type} [CacheHashKey K] [CacheMeta M]
variable {cache : DiskCache} {hash : CombinedHash} {m : DiskMissHandler}

theorem write_body_of_key (hm : m.Of cache hash) (data : Bytes) (is_eof : Bool) :
    (m.write_body data is_eof).Calls (OfKey cache hash) := by
  obtain ⟨n, hn, htmp⟩ := hm.tmp_path
  apply calls_bind (calls_perform.mpr ⟨n, hn, htmp⟩)
  intro r
  cases r with
  | error e => exact calls_pure _
  | ok f =>
    apply calls_bind (calls_perform.mpr trivial)
    intro r
    cases r with
    | error e => exact calls_pure _
    | ok _ =>
      cases is_eof with
      | false => exact calls_pure _
      | true => exact calls_bind (calls_perform.mpr trivial) fun _ => calls_pure _

theorem drop_of_key (hm : m.Of cache hash) : m.drop.Calls (OfKey cache hash) := by
  obtain ⟨n, _, htmp⟩ := hm.tmp_path
  exact calls_bind (calls_perform.mpr ⟨n, htmp⟩) fun _ => calls_pure _

theorem finish_of_key (hm : m.Of cache hash) : m.finish.Calls (OfKey cache hash) := by
  obtain ⟨n, hn, htmp⟩ := hm.tmp_path
  apply courses.calls_of_finish m
  intro x e ha
  cases x
  case begun =>
    cases ha
    exact Or.inr hm.dir
  case based =>
    cases ha
    exact ⟨⟨n, hn, htmp⟩, hm.body_path⟩
  case opened src =>
    cases ha
    exact ⟨_, Or.inr rfl, hm.body_path⟩
  case copying src dst =>
    rcases ha with rfl | rfl
    · trivial
    · trivial
  case placed =>
    cases ha
    exact Or.inl hm.meta_path
  case meta_written =>
    cases ha
    exact Or.inr hm.hdr_path
  case left => exact absurd ha id
  case refused | copied | leaving =>
    cases ha
    exact ⟨n, htmp⟩
  all_goals
    cases ha
    trivial

theorem read_body_of_key (hit : DiskHitHandler) : hit.read_body.Calls (OfKey cache hash) := by
  apply calls_mono (DiskHitHandler.read_body_calls hit)
  intro e he
  cases e
  case read_file f n => trivial
  case seek_file f n => trivial
  all_goals exact absurd he id

theorem lookup_of_key (key : K) : (cache.lookup (M := M) key).Calls
    (OfKey cache (CacheHashKey.combined key)) :=
  courses.calls_of_lookup cache key (Or.inl rfl) trivial (fun n => ⟨n, rfl⟩) ⟨_, rfl⟩
    (fun _ => trivial) fun _ => trivial

/-- What a purge calls: the metrics, and what looks at its files and removes them. -/
theorem purge_calls {P : Io → Prop} (key : K) (purge_type : PurgeType)
    (hinc : ∀ k n, P (.inc_by k n)) (hsub : ∀ n, P (.size_bytes_sub n))
    (hlook : P (.metadata (cache.body (CacheHashKey.combined key))))
    (hremove : ∀ n, P (.remove_file (cache.entry (CacheHashKey.combined key) n)))
    (hdir : P (.remove_dir (cache.dir (CacheHashKey.combined key)))) :
    (cache.purge key purge_type).Calls P := by
  apply courses.calls_of_purge key purge_type
  intro x e ha
  cases x
  case attempted =>
    cases ha
    exact hlook
  case credited len =>
    cases ha
    exact hsub len
  case hdr_gone won =>
    cases ha
    exact hdir
  case left => exact absurd ha id
  case begun | taken | evicted =>
    cases ha
    exact hinc _ _
  all_goals
    cases ha
    exact hremove _

theorem purge_of_key (key : K) (purge_type : PurgeType) :
    (cache.purge key purge_type).Calls (OfKey cache (CacheHashKey.combined key)) :=
  purge_calls key purge_type (fun _ _ => trivial) (fun _ => trivial) ⟨_, rfl⟩ (fun _ => ⟨_, rfl⟩) rfl

/-- An update of the metadata looks for the body, and writes the two parts. -/
theorem update_meta_calls {P : Io → Prop} (key : K) (cache_meta : M)
    (hlook : P (.exists_path (cache.body (CacheHashKey.combined key))))
    (hmeta : ∀ d, P (.write (cache.meta_part (CacheHashKey.combined key)) d))
    (hhdr : ∀ d, P (.write (cache.hdr (CacheHashKey.combined key)) d)) :
    (cache.update_meta key cache_meta).Calls P := by
  apply calls_bind (calls_perform.mpr hlook)
  intro there
  cases there with
  | false => exact calls_pure _
  | true =>
    simp only [if_true]
    cases CacheMeta.serialize cache_meta with
    | error e => exact calls_pure _
    | ok parts =>
      obtain ⟨mi, mh⟩ := parts
      apply calls_bind (calls_perform.mpr (hmeta mi))
      intro r
      cases r with
      | error e => exact calls_pure _
      | ok _ =>
        apply calls_bind (calls_perform.mpr (hhdr mh))
        intro r
        cases r <;> exact calls_pure _

theorem update_meta_of_key (key : K) (cache_meta : M) :
    (cache.update_meta key cache_meta).Calls (OfKey cache (CacheHashKey.combined key)) :=
  update_meta_calls key cache_meta ⟨_, rfl⟩ (fun _ => Or.inl rfl) fun _ => Or.inr rfl

/-- A new handler is one of its key. -/
theorem get_miss_handler_of_key {N : Type} {next : N → (e : Io) → e.Reply → N} (key : K)
    (cache_meta : M) (n : N) : (cache.get_miss_handler key cache_meta).Obeys
      (fun _ => OfKey cache (CacheHashKey.combined key)) next
      (fun r _ => ∀ m, r = .ok m → m.Of cache (CacheHashKey.combined key)) n := by
  refine ⟨trivial, fun _ => ?_⟩
  simp only [DiskCache.path_from_key, DiskCache.path_from_hash]
  cases CacheMeta.serialize cache_meta with
  | error e => exact fun m hm => by cases hm
  | ok parts =>
    obtain ⟨mi, mh⟩ := parts
    refine ⟨Or.inr rfl, fun _ => ?_⟩
    refine ⟨trivial, fun nanos => ⟨trivial, fun pid => ?_⟩⟩
    have htmp := isTmp_tmp_name (CacheHashKey.combined key).text pid (Int.toNat nanos)
    refine ⟨Or.inr List.dropLast_concat, fun _ => ?_⟩
    refine ⟨⟨_, Or.inl htmp, rfl⟩, fun r => ?_⟩
    cases r with
    | error e => exact fun m hm => by cases hm
    | ok f =>
      intro m hm
      cases hm
      exact ⟨rfl, rfl, rfl, rfl, _, htmp, rfl⟩

/-- A task keeps to the paths of its key. -/
theorem task_of_key {N : Type} {next : N → (e : Io) → e.Reply → N} (t : Task K M)
    (ht : t.Of cache) (n : N) :
    (t.program cache).Obeys (fun _ => OfKey cache t.hash) next (fun _ _ => True) n := by
  cases t with
  | lookup key => exact obeys_of_calls (calls_bind (lookup_of_key key) fun _ => calls_pure _) n
  | get_miss_handler key cache_meta =>
    simp only [Task.program, obeys_bind]
    exact obeys_mono (get_miss_handler_of_key key cache_meta n) fun _ _ _ => trivial
  | write_body hash m data is_eof =>
    exact obeys_of_calls (calls_bind (write_body_of_key ht data is_eof) fun _ => calls_pure _) n
  | finish hash m => exact obeys_of_calls (calls_bind (finish_of_key ht) fun _ => calls_pure _) n
  | drop_handler hash m =>
    exact obeys_of_calls (calls_bind (drop_of_key ht) fun _ => calls_pure _) n
  | purge key purge_type =>
    exact obeys_of_calls (calls_bind (purge_of_key key purge_type) fun _ => calls_pure _) n
  | update_meta key cache_meta =>
    exact obeys_of_calls (calls_bind (update_meta_of_key key cache_meta) fun _ => calls_pure _) n

end

end edge_cdn_store.sites
