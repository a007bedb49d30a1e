-- The temporary files, when any call may fail but the removal of a file. A handler
-- makes its file, and it removes the file when it is dropped, on each of its ways
-- out. So a temporary file that stands on the disk is one of a handler that is
-- alive.
import EdgeCdnStore.MissHandlers
import EdgeCdnStore.Operations
import EdgeCdnStore.Sites

open edge_cdn_store.programs edge_cdn_store.programs.Program edge_cdn_store.io
open edge_cdn_store.file_tree edge_cdn_store.file_tree.FileTree
open edge_cdn_store.logger edge_cdn_store.disk_cache edge_cdn_store.pools edge_cdn_store.sites
open edge_cdn_store.miss_handlers edge_cdn_store.courses
open edge_cdn_store.operations (small_cache small_hash empty_world Note)

namespace edge_cdn_store.tmp_files

/-! ## The sessions -/

inductive Session (K M : Type)
  | miss (key : K) (cache_meta : M) (course : Course)
  | purge (key : K) (purge_type : PurgeType)
  | update_meta (key : K) (cache_meta : M)

inductive Ending
  | refused (e : Error)
  | handled (r : Gains)
  | existed (r : Result Bool)
  deriving DecidableEq

section
variable {K M : Type} [CacheHashKey K] [CacheMeta M]

def Session.program (cache : DiskCache) : Session K M → Prog Ending
  | .miss key cache_meta course => do
    match ← cache.get_miss_handler key cache_meta with
    | .error e => return .refused e
    | .ok m => return .handled (← course.program disk_miss m)
  | .purge key purge_type => do return .existed (← cache.purge key purge_type)
  | .update_meta key cache_meta => do return .existed (← cache.update_meta key cache_meta)

def Session.hash : Session K M → CombinedHash
  | .miss key _ _ => CacheHashKey.combined key
  | .purge key _ => CacheHashKey.combined key
  | .update_meta key _ => CacheHashKey.combined key

end

/-! ## The handler of a session -/

/-- A session has no handler, or one that is alive and goes by this temporary file. After a
manual transfer the handler removes the file and lives on. -/
inductive Phase
  | away
  | alive (tmp_path : PathBuf)
  | transferred (tmp_path : PathBuf)
  deriving DecidableEq

/-- The temporary file of the handler that is alive. -/
def Phase.tmp_path : Phase → Option PathBuf
  | .away => none
  | .alive q => some q
  | .transferred q => some q

structure SessionNote where
  hash : CombinedHash
  phase : Phase
  deriving DecidableEq

/-- What a session may call: it makes only a temporary file while it has no handler, and only
the body while it has one, and then it removes only the temporary file. -/
def Phase.allows (cache : DiskCache) (hash : CombinedHash) : Phase → Io → Prop
  | .away, .create_file p => ∃ n, IsTmp n ∧ p = cache.entry hash n
  | .away, e => OfKey cache hash e
  | .alive _, .create_file p => p = cache.entry hash "body".toList
  | .alive q, .remove_file p => p = q
  | .alive _, e => OfKey cache hash e
  | .transferred q, .remove_file p => p = q
  | .transferred _, _ => False

def Phase.next : Phase → (e : Io) → e.Reply → Phase
  | .away, .create_file p, .ok _ => .alive p
  | .alive q, .copy_rest _ _, .ok _ => .transferred q
  | .alive _, .remove_file _, _ => .away
  | .transferred q, .remove_file _, _ => .alive q
  | phase, _, _ => phase

/-! ## What the sessions call -/

section
variable {K M : Type} [CacheHashKey K] [CacheMeta M]
variable {cache : DiskCache} {hash : CombinedHash} {m : DiskMissHandler}

/-- Calls of a key that make no file leave a session without a handler as it is. -/
theorem away_obeys {α : Type} {p : Prog α}
    (h : p.Calls fun e => OfKey cache hash e ∧ ∀ q, e ≠ .create_file q) :
    p.Obeys (Phase.allows cache hash) Phase.next (fun _ phase => phase = .away) .away := by
  induction p with
  | done a => rfl
  | call e k ih =>
    obtain ⟨⟨hkey, hno⟩, hrest⟩ := h
    have hallows : Phase.allows cache hash .away e := by
      cases e
      case create_file q => exact absurd rfl (hno q)
      all_goals exact hkey
    have hnext : ∀ r, Phase.next .away e r = .away := by
      intro r
      cases e
      case create_file q => exact absurd rfl (hno q)
      all_goals rfl
    refine ⟨hallows, fun r => ?_⟩
    rw [hnext]
    exact ih r (hrest r)

theorem purge_obeys (key : K) (purge_type : PurgeType) :
    (cache.purge key purge_type).Obeys (Phase.allows cache (CacheHashKey.combined key)) Phase.next
      (fun _ phase => phase = .away) .away := by
  apply away_obeys
  apply purge_calls
  · exact fun _ _ => ⟨trivial, by simp⟩
  · exact fun _ => ⟨trivial, by simp⟩
  · exact ⟨⟨_, rfl⟩, by simp⟩
  · exact fun _ => ⟨⟨_, rfl⟩, by simp⟩
  · exact ⟨rfl, by simp⟩

theorem update_meta_obeys (key : K) (cache_meta : M) :
    (cache.update_meta key cache_meta).Obeys (Phase.allows cache (CacheHashKey.combined key))
      Phase.next (fun _ phase => phase = .away) .away := by
  apply away_obeys
  apply update_meta_calls
  · exact ⟨⟨_, rfl⟩, by simp⟩
  · exact fun _ => ⟨Or.inl rfl, by simp⟩
  · exact fun _ => ⟨Or.inr rfl, by simp⟩

/-- A session has a handler from when its temporary file was made. -/
theorem get_miss_handler_obeys (key : K) (cache_meta : M) :
    (cache.get_miss_handler key cache_meta).Obeys
      (Phase.allows cache (CacheHashKey.combined key)) Phase.next
      (fun r phase => (∃ e, r = .error e) ∧ phase = .away ∨
        ∃ m, r = .ok m ∧ m.Of cache (CacheHashKey.combined key) ∧ phase = .alive m.tmp_path)
      .away := by
  unfold DiskCache.get_miss_handler
  rw [obeys_bind]
  refine (obeys_perform (Io.inc_by _ _) _ _).mpr ⟨trivial, fun _ => ?_⟩
  simp only [DiskCache.path_from_key, DiskCache.path_from_hash]
  cases CacheMeta.serialize cache_meta with
  | error e => exact Or.inl ⟨⟨e, rfl⟩, rfl⟩
  | ok parts =>
    obtain ⟨mi, mh⟩ := parts
    simp only
    rw [obeys_bind]
    refine (obeys_perform (Io.create_dir_all _) _ _).mpr ⟨Or.inr rfl, fun _ => ?_⟩
    rw [obeys_bind]
    unfold DiskMissHandler.create_tmp
    rw [obeys_bind]
    refine (obeys_perform Io.now _ _).mpr ⟨trivial, fun nanos => ?_⟩
    rw [obeys_bind]
    refine (obeys_perform Io.process_id _ _).mpr ⟨trivial, fun pid => ?_⟩
    rw [obeys_bind]
    have hparent : OfKey cache (CacheHashKey.combined key) (.create_dir_all
        (cache.entry (CacheHashKey.combined key) (DiskMissHandler.tmp_name
          (CacheHashKey.combined key).text pid nanos.toNat)).dropLast) :=
      Or.inr DiskCache.dropLast_entry
    refine (obeys_perform (Io.create_dir_all _) _ _).mpr ⟨hparent, fun _ => ?_⟩
    rw [obeys_bind]
    have htmp := isTmp_tmp_name (CacheHashKey.combined key).text pid (Int.toNat nanos)
    refine (obeys_perform (Io.create_file _) _ _).mpr ⟨⟨_, htmp, rfl⟩, fun r => ?_⟩
    cases r with
    | error e => exact Or.inl ⟨⟨_, rfl⟩, rfl⟩
    | ok f => exact Or.inr ⟨_, rfl, ⟨rfl, rfl, rfl, rfl, _, htmp, rfl⟩, rfl⟩

theorem write_body_obeys (hm : m.Of cache hash) (data : Bytes) (is_eof : Bool) :
    (m.write_body data is_eof).Obeys (Phase.allows cache hash) Phase.next
      (fun r phase => r.2.Of cache hash ∧ phase = .alive r.2.tmp_path) (.alive m.tmp_path) := by
  unfold DiskMissHandler.write_body
  rw [obeys_bind]
  refine (obeys_perform (Io.open_append _) _ _).mpr ⟨hm.tmp_path, fun r => ?_⟩
  cases r with
  | error e => exact ⟨hm, rfl⟩
  | ok f =>
    simp only
    rw [obeys_bind]
    refine (obeys_perform (Io.write_all _ _) _ _).mpr ⟨trivial, fun r => ?_⟩
    cases r with
    | error e => exact ⟨hm, rfl⟩
    | ok _ =>
      have hm' : DiskMissHandler.Of cache hash
          { m with tmp_bytes_written := m.tmp_bytes_written + data.length } :=
        ⟨hm.dir, hm.body_path, hm.meta_path, hm.hdr_path, hm.tmp_path⟩
      cases is_eof with
      | false => exact ⟨hm', rfl⟩
      | true =>
        simp only [if_true]
        rw [obeys_bind]
        exact (obeys_perform (Io.flush _) _ _).mpr ⟨trivial, fun _ => ⟨hm', rfl⟩⟩

/-- The end of a handler. -/
theorem drop_obeys (m : DiskMissHandler) : m.drop.Obeys (Phase.allows cache hash) Phase.next
    (fun _ phase => phase = .away) (.alive m.tmp_path) := by
  unfold DiskMissHandler.drop
  rw [obeys_bind]
  exact (obeys_perform (Io.remove_file _) _ _).mpr ⟨rfl, fun _ => rfl⟩

/-- The phase of a session whose handler finishes, from how far the finish has come. -/
def finish_phase (m : DiskMissHandler) : Finishing → Phase
  | .copied => .transferred m.tmp_path
  | .left _ => .away
  | _ => .alive m.tmp_path

/-- On each of its ways out a finish drops the handler. -/
theorem finish_obeys (hm : m.Of cache hash) :
    m.finish.Obeys (Phase.allows cache hash) Phase.next
      (fun _ phase => phase = .away) (.alive m.tmp_path) := by
  obtain ⟨n, _, htmp⟩ := hm.tmp_path
  apply obeys_beside (J := fun x phase => phase = finish_phase m x) (finish_course m) rfl
  · rintro x _ e rfl ha
    cases x
    case copying src dst =>
      rcases ha with rfl | rfl
      all_goals exact ⟨trivial, fun r => by cases r <;> rfl⟩
    case left made => exact absurd ha id
    all_goals
      obtain rfl := ha
      refine ⟨?_, fun r => by cases r <;> rfl⟩
    case begun => exact Or.inr hm.dir
    case based => exact ⟨hm.tmp_path, hm.body_path⟩
    case refused => exact ⟨n, htmp⟩
    case opened src => exact hm.body_path
    case placed => exact Or.inl hm.meta_path
    case meta_written => exact Or.inr hm.hdr_path
    all_goals trivial
  · rintro r x _ (⟨rfl, _⟩ | ⟨rfl, _⟩) rfl
    · rfl
    · rfl

/-- Whatever its owner does with it, in the end the handler is dropped. -/
theorem course_obeys (course : Course) (hm : m.Of cache hash) :
    (course.program disk_miss m).Obeys (Phase.allows cache hash) Phase.next
      (fun _ phase => phase = .away) (.alive m.tmp_path) := by
  induction course generalizing m with
  | finish =>
    unfold Course.program
    rw [obeys_bind]
    exact obeys_mono (finish_obeys hm) fun _ _ h => h
  | drop =>
    unfold Course.program
    rw [obeys_bind]
    exact obeys_mono (drop_obeys m) fun _ _ h => h
  | write_body data is_eof after ih =>
    unfold Course.program
    rw [obeys_bind]
    refine obeys_mono (write_body_obeys hm data is_eof) fun x phase h => ?_
    obtain ⟨hm', rfl⟩ := h
    rw [obeys_bind]
    exact obeys_mono (ih x.1 hm') fun _ _ h => h

theorem session_obeys (t : Session K M) :
    (t.program cache).Obeys (Phase.allows cache t.hash) Phase.next
      (fun _ phase => phase = .away) .away := by
  cases t with
  | miss key cache_meta course =>
    unfold Session.program
    rw [obeys_bind]
    refine obeys_mono (get_miss_handler_obeys key cache_meta) fun r phase h => ?_
    rcases h with ⟨⟨e, rfl⟩, rfl⟩ | ⟨m, rfl, hm, rfl⟩
    · rfl
    · simp only
      rw [obeys_bind]
      exact obeys_mono (course_obeys course hm) fun _ _ h => h
  | purge key purge_type =>
    unfold Session.program
    rw [obeys_bind]
    exact obeys_mono (purge_obeys key purge_type) fun _ _ h => h
  | update_meta key cache_meta =>
    unfold Session.program
    rw [obeys_bind]
    exact obeys_mono (update_meta_obeys key cache_meta) fun _ _ h => h

end

/-! ## What one call does -/

/-- A file stands at the path. -/
def HasFile (w : World) (q : PathBuf) : Prop := (w.tree.content q).isSome = true

instance (w : World) (q : PathBuf) : Decidable (HasFile w q) := inferInstanceAs (Decidable (_ = _))

/-- The removal of a file that is there does not fail. -/
def Removes (w : World) (c : Choice) : Io → Prop
  | .remove_file p => HasFile w p → Calm c
  | _ => True

instance (w : World) (c : Choice) : (e : Io) → Decidable (Removes w c e)
  | .remove_file p => inferInstanceAs (Decidable (HasFile w p → Calm c))
  | .create_dir_all _ | .read _ | .open_file _ | .open_append _ | .create_file _ | .file_len _
  | .read_file _ _ | .seek_file _ _ | .write_all _ _ | .flush _ | .copy_rounds | .copy_some _ _
  | .copy_rest _ _ | .write _ _ | .rename _ _ | .metadata _ | .exists_path _ | .remove_dir _
  | .now | .process_id | .join_order | .inc_by _ _ | .size_bytes_add _ | .size_bytes_sub _ =>
    isTrue trivial

section
variable {cache : DiskCache} {hash k : CombinedHash} {n : List Char} {w : World} {c : Choice}
  {e : Io} {x : Phase} {q : PathBuf}

theorem hasFile_iff : HasFile w q ↔ ∃ i, w.tree.node q = some (.file i) := content_isSome

theorem hasFile_of_node {w' : World} (h : w'.tree.node q = w.tree.node q) (hf : HasFile w' q) :
    HasFile w q := by
  rw [hasFile_iff] at hf ⊢
  rw [← h]
  exact hf

/-- Only a create puts a file where a temporary file may stand. -/
theorem not_put_of_allows (h : x.allows cache hash e) (hn : IsTmp n) :
    (∀ d, e ≠ .write (cache.entry k n) d) ∧ ∀ p, e ≠ .rename p (cache.entry k n) := by
  have hname : ∀ m, '-' ∉ m → cache.entry k n ≠ cache.entry hash m :=
    fun m hm => DiskCache.entry_ne (hn.ne hm)
  constructor
  · rintro d rfl
    have hwrite : cache.entry k n = cache.entry hash "meta".toList ∨
        cache.entry k n = cache.entry hash "hdr".toList := by
      cases x with
      | away => exact h
      | alive q => exact h
      | transferred q => exact absurd h id
    rcases hwrite with he | he
    · exact hname _ (by decide) he
    · exact hname _ (by decide) he
  · rintro p rfl
    have hrename : cache.entry k n = cache.entry hash "body".toList := by
      cases x with
      | away => exact h.2
      | alive q => exact h.2
      | transferred q => exact absurd h id
    exact hname _ (by decide) hrename

/-- A file that stands after a call stood before it, unless the call makes files. -/
theorem file_of_old (hcreate : ∀ p, e ≠ .create_file p) (hwrite : ∀ d, e ≠ .write q d)
    (hrename : ∀ p, e ≠ .rename p q) (hf : HasFile (answer e c w).2 q) : HasFile w q := by
  rw [hasFile_iff] at hf ⊢
  obtain ⟨i, hi⟩ := hf
  have hstep := tree_answer e c w
  generalize (answer e c w).2.tree = t at hstep hi
  cases hstep with
  | same => exact ⟨i, hi⟩
  | mkdirs p => exact ⟨i, node_mkdirs_file.mp hi⟩
  | create p hf hc => exact absurd rfl (hcreate p)
  | put p d d' hc =>
    have hp : q ≠ p := fun he => hwrite d (by rw [he])
    rw [node_put hc, node_create hc, if_neg hp] at hi
    exact ⟨i, hi⟩
  | move p p' j hj hc =>
    have hp' : q ≠ p' := fun he => hrename p (by rw [he])
    rw [node_move hj hc, if_neg hp'] at hi
    by_cases hp : q = p
    · rw [if_pos hp] at hi
      cases hi
    · rw [if_neg hp] at hi
      exact ⟨i, hi⟩
  | remove_file p j hj =>
    rw [node_remove_file hj] at hi
    by_cases hp : q = p
    · rw [if_pos hp] at hi
      cases hi
    · rw [if_neg hp] at hi
      exact ⟨i, hi⟩
  | remove_dir p hd =>
    rw [node_remove] at hi
    split at hi
    · cases hi
    · exact ⟨i, hi⟩
  | append f d d' => exact ⟨i, hi⟩
  | copy_some f g d => exact ⟨i, hi⟩
  | copy_rest f g d => exact ⟨i, hi⟩

/-- After a create there is one more file at most, and then the create succeeded. -/
theorem file_of_create {p : PathBuf} (hf : HasFile (answer (.create_file p) c w).2 q) :
    HasFile w q ∨ q = p ∧ ∃ f, (answer (.create_file p) c w).1 = .ok f := by
  simp only [answer, Choice.guard] at hf ⊢
  cases hfault : c.fault with
  | some f =>
    simp only [hfault] at hf
    exact Or.inl hf
  | none =>
    simp only [hfault] at hf ⊢
    by_cases hc : w.tree.CanCreate p
    · obtain ⟨i, hi, _⟩ := node_create_self hc
      simp only [if_pos hc, hi] at hf ⊢
      by_cases hp : q = p
      · exact Or.inr ⟨hp, _, rfl⟩
      · left
        apply hasFile_of_node _ hf
        exact (node_create hc _).trans (if_neg hp)
    · simp only [if_neg hc] at hf
      exact Or.inl hf

/-- A temporary file that stands after a call stood before it, or the handler that made it is
alive now. -/
theorem file_of_call (h : x.allows cache hash e) (hn : IsTmp n)
    (hf : HasFile (answer e c w).2 (cache.entry k n)) :
    HasFile w (cache.entry k n) ∨
      (x.next e (answer e c w).1).tmp_path = some (cache.entry k n) := by
  obtain ⟨hwrite, hrename⟩ := not_put_of_allows (k := k) h hn
  by_cases hcreate : ∃ p, e = .create_file p
  · obtain ⟨p, rfl⟩ := hcreate
    rcases file_of_create hf with hold | ⟨rfl, f, hok⟩
    · exact Or.inl hold
    · -- a handler that is alive makes the body only
      cases x with
      | away =>
        right
        rw [hok]
        rfl
      | alive q =>
        have hbody : cache.entry k n = cache.entry hash "body".toList := h
        exact absurd hbody (DiskCache.entry_ne (hn.ne (by decide)))
      | transferred q => exact absurd h id
  · left
    exact file_of_old (fun p hp => hcreate ⟨p, hp⟩) hwrite hrename hf

/-- After the removal of a file there is none. -/
theorem no_file_of_removed (hc : Removes w c (.remove_file q)) :
    ¬ HasFile (answer (.remove_file q) c w).2 q := by
  have hc : HasFile w q → Calm c := hc
  by_cases hf : HasFile w q
  · obtain ⟨i, hi⟩ := hasFile_iff.mp hf
    have hfault : c.fault = none := hc hf
    simp only [answer, Choice.guard, hfault, hi, HasFile, World.setTree, content_remove_file hi]
    simp
  · refine fun hf' => hf ?_
    cases hfault : c.fault with
    | some f =>
      simp only [answer, Choice.guard, hfault] at hf'
      exact hf'
    | none =>
      simp only [answer, Choice.guard, hfault] at hf'
      cases hi : w.tree.node q with
      | none =>
        simp only [hi] at hf'
        exact hf'
      | some v =>
        cases v with
        | dir =>
          simp only [hi] at hf'
          exact hf'
        | file i => exact hasFile_iff.mpr ⟨i, hi⟩

/-- A handler whose temporary file stands after its call is alive. -/
theorem alive_of_file (h : x.allows cache hash e) (hc : Removes w c e) (hx : x.tmp_path = some q)
    (hf : HasFile (answer e c w).2 q) : (x.next e (answer e c w).1).tmp_path = some q := by
  cases x with
  | away => cases hx
  | alive q' =>
    obtain rfl : q' = q := Option.some.inj hx
    generalize hr : (answer e c w).1 = r
    cases e
    case remove_file p =>
      obtain rfl : p = q' := h
      exact absurd hf (no_file_of_removed hc)
    case copy_rest f g => cases r <;> rfl
    all_goals rfl
  | transferred q' =>
    cases e
    case remove_file p => exact hx
    all_goals exact absurd h id

end

/-! ## Whole runs -/

abbrev session_system (K M : Type) [CacheHashKey K] [CacheMeta M] (cache : DiskCache) :
    System Io Io.Reply Choice World Ending SessionNote Unit (Session K M) where
  env := answer
  start t := (t.program cache, ⟨t.hash, .away⟩)
  next n e r := { n with phase := n.phase.next e r }
  record _ _ _ _ _ _ h := h

abbrev SessionPool := Pool Io Io.Reply Ending SessionNote World Unit

/-- Nobody is at work yet. -/
def idle_pool (w : World) : SessionPool := ⟨[], w, ()⟩

/-- The handler of a session is alive, with this temporary file. -/
def Alive (p : SessionPool) (q : PathBuf) : Prop := ∃ x ∈ p.notes, x.phase.tmp_path = some q

/-- A file named `<hash>.tmp-...` stands at the path, in the directory of the key. -/
def TmpFile (cache : DiskCache) (w : World) (q : PathBuf) : Prop :=
  ∃ (hash : CombinedHash) (rest : List Char),
    q = cache.entry hash (hash.text ++ ".tmp-".toList ++ rest) ∧ HasFile w q

section
variable {K M : Type} [CacheHashKey K] [CacheMeta M]

/-- Sessions come at any time and make their calls in any order, and any call may fail but the
removal of a file that is there. -/
def Steps (p : SessionPool) : Event Choice World (Session K M) → Prop
  | .spawn _ => True
  | .call i c => ∀ x ∈ p.next_call i, Removes p.state c x.1
  | .crash => False
  | .outside _ => False

instance (p : SessionPool) : (ev : Event Choice World (Session K M)) → Decidable (Steps p ev)
  | .spawn _ => isTrue trivial
  | .call i c => inferInstanceAs (Decidable (∀ x ∈ p.next_call i, Removes p.state c x.1))
  | .crash => isFalse id
  | .outside _ => isFalse id

/-- Each temporary file is one of a handler that is alive. -/
def Owned (cache : DiskCache) (ns : List SessionNote) (w : World) : Prop :=
  ∀ q, TmpFile cache w q → ∃ x ∈ ns, x.phase.tmp_path = some q

variable {cache : DiskCache} {ns : List SessionNote} {w : World} {c : Choice} {e : Io} {i : Nat}
  {x : SessionNote}

theorem Owned.call (h : Owned cache ns w) (hi : ns[i]? = some x)
    (ha : x.phase.allows cache x.hash e) (hc : Removes w c e) :
    Owned cache (ns.set i { x with phase := x.phase.next e (answer e c w).1 })
      (answer e c w).2 := by
  have hself : { x with phase := x.phase.next e (answer e c w).1 } ∈
      ns.set i { x with phase := x.phase.next e (answer e c w).1 } :=
    List.mem_set (List.getElem?_eq_some_iff.mp hi).1 _
  rintro q ⟨hash, rest, rfl, hf⟩
  have hname : IsTmp (hash.text ++ ".tmp-".toList ++ rest) := by simp [IsTmp]
  rcases file_of_call ha hname hf with hold | hnew
  · obtain ⟨y, hy, hq⟩ := h _ ⟨hash, rest, rfl, hold⟩
    rcases mem_set_of_mem hi hy _ with rfl | hstays
    · exact ⟨_, hself, alive_of_file ha hc hq hf⟩
    · exact ⟨y, hstays, hq⟩
  · exact ⟨_, hself, hnew⟩

theorem owned_invariant (cache : DiskCache) :
    (session_system K M cache).Invariant (fun x e => x.phase.allows cache x.hash e)
      (fun _ x => x.phase = .away) Steps (fun ns w _ => Owned cache ns w) where
  start _ t _ := obeys_map (fun phase => SessionNote.mk t.hash phase) (session_obeys t)
    (fun _ _ h => h) (fun _ _ _ => rfl) fun _ _ h => h
  spawn p t _ _ hI := by
    intro q hq
    obtain ⟨x, hx, hown⟩ := hI q hq
    exact ⟨x, List.mem_append_left _ hx, hown⟩
  call p i c e k x hP hi ha hI := by
    have hnext : (e, x) ∈ p.next_call i := Pool.next_call_of hi
    exact hI.call (Pool.notes_getElem? hi) ha (hP (e, x) hnext)
  crash _ hP := absurd hP id
  outside _ _ hP := absurd hP id

/-- In every run from a disk without temporary files, whatever fails but the removal of a file,
each temporary file is one of a handler that is alive. When no handler is alive there is none,
and no handler is alive when all sessions have ended. -/
theorem no_temporary_file_outlives_its_handler (cache : DiskCache) (w : World)
    (hclean : ∀ q, ¬ TmpFile cache w q) (evs : List (Event Choice World (Session K M)))
    (p : SessionPool) (hP : (session_system K M cache).Along Steps (idle_pool w) evs)
    (hr : (session_system K M cache).run (idle_pool w) evs = some p) :
    (∀ q, TmpFile cache p.state q → Alive p q) ∧
    ((∀ q, ¬ Alive p q) → ∀ q, ¬ TmpFile cache p.state q) ∧
    (p.Quiescent → ∀ q, ¬ Alive p q) := by
  obtain ⟨hobey, hI⟩ := (owned_invariant cache).run (p := idle_pool w)
    (fun x hx => absurd hx List.not_mem_nil) (fun q hq => absurd hq (hclean q)) hP hr
  refine ⟨hI, fun hnone q hq => hnone q (hI q hq), ?_⟩
  rintro hquiet q ⟨x, hx, hq⟩
  obtain ⟨y, hy, rfl⟩ := List.mem_map.mp hx
  obtain ⟨a, ha⟩ := hquiet.done hy
  have hthread : (Program.done a, y.2) ∈ p.threads := by
    rw [← ha]
    exact hy
  have haway : y.2.phase = .away := hobey.done hthread
  rw [haway] at hq
  cases hq

end

/-! ## Two handlers and a purge -/

/-- A call that fails after one byte. -/
def broken : Choice := ⟨some ⟨⟨.Other, "Input/output error (os error 5)"⟩, some 1⟩, 0, 0⟩

/-- A write that fails, and a finish all the same. -/
def stubborn : Course := .write_body [1, 2] true fun _ => .finish

/-- Two handlers of the key are made. The first one writes, and the write fails. It finishes, and
the rename and the copy fail too. After it a purge finds half of a body. -/
def all_but_one : List (Event Choice World (Session CombinedHash Note)) :=
  [.spawn (.miss small_hash ⟨[7]⟩ stubborn),
      .spawn (.miss small_hash ⟨[8]⟩ .drop),
      .spawn (.purge small_hash .Invalidation)] ++
    Event.calls 0 6 ⟨none, 5, 0⟩ ++ Event.calls 1 6 ⟨none, 6, 0⟩ ++
    Event.calls 0 1 plain ++ Event.calls 0 1 broken ++ Event.calls 0 1 plain ++
    Event.calls 0 1 broken ++ Event.calls 0 3 plain ++ Event.calls 0 1 broken ++
    Event.calls 0 1 plain ++ Event.calls 2 9 plain

theorem the_other_handler_keeps_its_temporary_file :
    ∃ p, (session_system CombinedHash Note small_cache).run (idle_pool empty_world)
        all_but_one = some p ∧
      p.results = [some (.handled ⟨[.error ⟨.InternalError,
          "Error writing to tmp file: Input/output error (os error 5)"⟩],
          some (.error ⟨.InternalError,
            "Failed to copy tmp to cache body: Input/output error (os error 5)"⟩)⟩), none,
        some (.existed (.ok true))] ∧
      HasFile p.state (small_cache.entry small_hash "00ff.tmp-1-6".toList) ∧
      ∀ q, TmpFile small_cache p.state q → Alive p q := by
  have hclean : ∀ q, ¬ TmpFile small_cache empty_world q := by
    rintro q ⟨hash, rest, rfl, hf⟩
    obtain ⟨i, hi⟩ := hasFile_iff.mp hf
    cases hi
  have hrun : ((session_system CombinedHash Note small_cache).run (idle_pool empty_world)
      all_but_one).map (fun p => (p.results, decide (HasFile p.state (small_cache.entry small_hash
        "00ff.tmp-1-6".toList)))) =
        some ([some (.handled ⟨[.error ⟨.InternalError,
            "Error writing to tmp file: Input/output error (os error 5)"⟩],
            some (.error ⟨.InternalError,
              "Failed to copy tmp to cache body: Input/output error (os error 5)"⟩)⟩), none,
          some (.existed (.ok true))], true) := by
    decide +kernel
  obtain ⟨p, hp, hend⟩ := Option.map_eq_some_iff.mp hrun
  obtain ⟨hresults, hfile⟩ := Prod.mk.inj hend
  exact ⟨p, hp, hresults, of_decide_eq_true hfile,
    (no_temporary_file_outlives_its_handler small_cache empty_world hclean all_but_one p
      (by decide +kernel) hp).1⟩

end edge_cdn_store.tmp_files
