-- The courses of the functions of the disk cache: which call comes after which, and
-- what is returned in the end. Each function is gone through once, here. What is
-- noted of its calls elsewhere is read off from how far the function has come.
import EdgeCdnStore.Pools
import EdgeCdnStore.DiskPaths
import EdgeCdnStore.DiskCalls

open edge_cdn_store.programs edge_cdn_store.programs.Program edge_cdn_store.io
open edge_cdn_store.logger edge_cdn_store.disk_cache

namespace edge_cdn_store.courses

variable {K M : Type} [CacheHashKey K] [CacheMeta M]

/-! ## A finish -/

/-- How far a finish has come. In the manual transfer it has the numbers of its open files, and
in the end it leaves, with an object created or with an error. -/
inductive Finishing
  | begun
  | based
  | refused
  | opened (src : Nat)
  | created (src dst : Nat)
  | copying (src dst : Nat)
  | copied
  | placed
  | meta_written
  | hdr_written
  | inserted
  | leaving (made : Bool)
  | left (made : Bool)

/-- The call that comes next. -/
def Finishing.allows (m : DiskMissHandler) : Finishing → Io → Prop
  | .begun, e => e = .create_dir_all m.dir
  | .based, e => e = .rename m.tmp_path m.body_path
  | .refused, e => e = .open_file m.tmp_path
  | .opened _, e => e = .create_file m.body_path
  | .created _ _, e => e = .copy_rounds
  | .copying src dst, e => e = .copy_some src dst ∨ e = .copy_rest src dst
  | .copied, e => e = .remove_file m.tmp_path
  | .placed, e => e = .write m.meta_path m.meta_internal
  | .meta_written, e => e = .write m.hdr_path m.meta_header
  | .hdr_written, e => e = .inc_by .inserts 1
  | .inserted, e => e = .size_bytes_add m.tmp_bytes_written
  | .leaving _, e => e = .remove_file m.tmp_path
  | .left _, _ => False

def Finishing.next : Finishing → (e : Io) → e.Reply → Finishing
  | .begun, .create_dir_all _, _ => .based
  | .based, .rename _ _, .ok _ => .placed
  | .based, .rename _ _, .error _ => .refused
  | .refused, .open_file _, .ok f => .opened f
  | .refused, .open_file _, .error _ => .leaving false
  | .opened src, .create_file _, .ok f => .created src f
  | .opened _, .create_file _, .error _ => .leaving false
  | .created src dst, .copy_rounds, _ => .copying src dst
  | .copying _ _, .copy_some _ _, .error _ => .leaving false
  | .copying _ _, .copy_rest _ _, .ok _ => .copied
  | .copying _ _, .copy_rest _ _, .error _ => .leaving false
  | .copied, .remove_file _, _ => .placed
  | .placed, .write _ _, .ok _ => .meta_written
  | .placed, .write _ _, .error _ => .leaving false
  | .meta_written, .write _ _, .ok _ => .hdr_written
  | .meta_written, .write _ _, .error _ => .leaving false
  | .hdr_written, .inc_by _ _, _ => .inserted
  | .inserted, .size_bytes_add _, _ => .leaving true
  | .leaving made, .remove_file _, _ => .left made
  | x, _, _ => x

/-- What a finish returns: the object that it created, or an error. -/
def Finishing.Gives (m : DiskMissHandler) (r : Result MissFinishType) (x : Finishing) : Prop :=
  (x = .left true ∧ r = .ok (.Created m.tmp_bytes_written)) ∨
  (x = .left false ∧ ∃ e, r = .error e)

section
variable {m : DiskMissHandler}

theorem copy_loop_course {Q : Except IoError Unit → Finishing → Prop} (src dst n : Nat)
    (herr : ∀ e, Q (.error e) (.leaving false)) (hok : Q (.ok ()) .copied) :
    (copy_loop src dst n).Obeys (Finishing.allows m) Finishing.next Q (.copying src dst) := by
  induction n with
  | zero =>
    refine (obeys_perform (Io.copy_rest _ _) _ _).mpr ⟨Or.inr rfl, fun r => ?_⟩
    cases r with
    | error e => exact herr e
    | ok _ => exact hok
  | succ n ih =>
    simp only [copy_loop, obeys_bind]
    refine (obeys_perform (Io.copy_some _ _) _ _).mpr ⟨Or.inl rfl, fun r => ?_⟩
    cases r with
    | error e => exact herr e
    | ok _ => exact ih

theorem transfer_course {Q : Result Unit → Finishing → Prop}
    (herr : ∀ e, Q (.error e) (.leaving false)) (hok : Q (.ok ()) .placed) :
    m.transfer.Obeys (Finishing.allows m) Finishing.next Q .refused := by
  simp only [DiskMissHandler.transfer, trace_fn_exit_with_err, e_explain, obeys_bind]
  refine (obeys_perform (Io.open_file _) _ _).mpr ⟨rfl, fun r => ?_⟩
  cases r with
  | error e => exact herr _
  | ok f =>
    simp only [obeys_bind]
    refine (obeys_perform (Io.create_file _) _ _).mpr ⟨rfl, fun r => ?_⟩
    cases r with
    | error e => exact herr _
    | ok f' =>
      simp only [obeys_bind, copy]
      refine (obeys_perform Io.copy_rounds _ _).mpr ⟨rfl, fun n => ?_⟩
      refine copy_loop_course f f' n (fun e => herr _) ?_
      simp only [obeys_bind]
      exact (obeys_perform (Io.remove_file _) _ _).mpr ⟨rfl, fun _ => hok⟩

theorem write_meta_parts_course {Q : Result MissFinishType → Finishing → Prop}
    (herr : ∀ e, Q (.error e) (.leaving false))
    (hok : Q (.ok (.Created m.tmp_bytes_written)) (.leaving true)) :
    m.write_meta_parts.Obeys (Finishing.allows m) Finishing.next Q .placed := by
  simp only [DiskMissHandler.write_meta_parts, trace_fn_exit_with_err, e_explain, obeys_bind]
  refine (obeys_perform (Io.write _ _) _ _).mpr ⟨rfl, fun r => ?_⟩
  cases r with
  | error e => exact herr _
  | ok _ =>
    simp only [obeys_bind]
    refine (obeys_perform (Io.write _ _) _ _).mpr ⟨rfl, fun r => ?_⟩
    cases r with
    | error e => exact herr _
    | ok _ =>
      simp only [obeys_bind]
      refine (obeys_perform (Io.inc_by _ _) _ _).mpr ⟨rfl, fun _ => ?_⟩
      exact (obeys_perform (Io.size_bytes_add _) _ _).mpr ⟨rfl, fun _ => hok⟩

/-- The course of a finish. -/
theorem finish_course (m : DiskMissHandler) :
    m.finish.Obeys (Finishing.allows m) Finishing.next (Finishing.Gives m) .begun := by
  have hdrop : ∀ {r : Result MissFinishType} {made : Bool},
      Finishing.Gives m r (.left made) → Obeys (Finishing.allows m) Finishing.next
        (m.drop >>= fun _ => pure r) (Finishing.Gives m) (.leaving made) := by
    intro r made hr
    simp only [DiskMissHandler.drop, obeys_bind]
    exact (obeys_perform (Io.remove_file _) _ _).mpr ⟨rfl, fun _ => hr⟩
  have hfailed : ∀ e, Finishing.Gives m (.error e) (.left false) :=
    fun e => Or.inr ⟨rfl, e, rfl⟩
  have hrest : Obeys (Finishing.allows m) Finishing.next
      (m.write_meta_parts >>= fun result => m.drop >>= fun _ => pure result)
      (Finishing.Gives m) .placed := by
    rw [obeys_bind]
    exact write_meta_parts_course (fun e => hdrop (hfailed e)) (hdrop (Or.inl ⟨rfl, rfl⟩))
  simp only [DiskMissHandler.finish, DiskMissHandler.promote]
  rw [obeys_bind]
  refine (obeys_perform (Io.create_dir_all _) _ _).mpr ⟨rfl, fun _ => ?_⟩
  rw [obeys_bind, obeys_bind]
  refine (obeys_perform (Io.rename _ _) _ _).mpr ⟨rfl, fun r => ?_⟩
  cases r with
  | ok _ => exact hrest
  | error e => exact transfer_course (fun e => hdrop (hfailed e)) hrest

end

/-! ## A purge -/

/-- How far a purge has come, with the length that it has read of the body. From `clearing` on
it knows whether it has won the body. -/
inductive Purging
  | begun
  | attempted
  | measured (len : Nat)
  | taken (len : Nat)
  | evicted (len : Nat)
  | credited (len : Nat)
  | clearing (won : Option Nat)
  | meta_gone (won : Option Nat)
  | hdr_gone (won : Option Nat)
  | left (won : Option Nat)

def Purging.allows (cache : DiskCache) (hash : CombinedHash) : Purging → Io → Prop
  | .begun, e => e = .inc_by .purge_attempts 1
  | .attempted, e => e = .metadata (cache.body hash)
  | .measured _, e => e = .remove_file (cache.body hash)
  | .taken _, e => e = .inc_by .evictions 1
  | .evicted len, e => e = .inc_by .evicted_bytes len
  | .credited len, e => e = .size_bytes_sub len
  | .clearing _, e => e = .remove_file (cache.meta_part hash)
  | .meta_gone _, e => e = .remove_file (cache.hdr hash)
  | .hdr_gone _, e => e = .remove_dir (cache.dir hash)
  | .left _, _ => False

def Purging.next : Purging → (e : Io) → e.Reply → Purging
  | .begun, .inc_by _ _, _ => .attempted
  | .attempted, .metadata _, .ok len => .measured len
  | .attempted, .metadata _, .error _ => .measured 0
  | .measured len, .remove_file _, .ok _ => .taken len
  | .measured _, .remove_file _, .error _ => .clearing none
  | .taken len, .inc_by _ _, _ => .evicted len
  | .evicted len, .inc_by _ _, _ => .credited len
  | .credited len, .size_bytes_sub _, _ => .clearing (some len)
  | .clearing won, .remove_file _, _ => .meta_gone won
  | .meta_gone won, .remove_file _, _ => .hdr_gone won
  | .hdr_gone won, .remove_dir _, _ => .left won
  | x, _, _ => x

/-- The body that a purge has won, by its length. -/
def Purging.won : Purging → Option Nat
  | .taken len => some len
  | .evicted len => some len
  | .credited len => some len
  | .clearing won => won
  | .meta_gone won => won
  | .hdr_gone won => won
  | .left won => won
  | _ => none

/-- A purge returns whether it has won the body. -/
def Purging.Gives (r : Result Bool) (x : Purging) : Prop :=
  ∃ won, x = .left won ∧ r = .ok won.isSome

/-- The course of a purge. -/
theorem purge_course (cache : DiskCache) (key : K) (purge_type : PurgeType) :
    (cache.purge key purge_type).Obeys (Purging.allows cache (CacheHashKey.combined key))
      Purging.next Purging.Gives .begun := by
  have hrest : ∀ (r : Result Bool) (won : Option Nat), r = .ok won.isSome →
      Obeys (Purging.allows cache (CacheHashKey.combined key)) Purging.next
        (DiskCache.purge_rest (cache.dir (CacheHashKey.combined key))
          (cache.meta_part (CacheHashKey.combined key))
          (cache.hdr (CacheHashKey.combined key)) >>= fun _ => pure r)
        Purging.Gives (.clearing won) := by
    intro r won hr
    simp only [DiskCache.purge_rest, obeys_bind]
    refine (obeys_perform (Io.remove_file _) _ _).mpr ⟨rfl, fun _ => ?_⟩
    refine (obeys_perform (Io.remove_file _) _ _).mpr ⟨rfl, fun _ => ?_⟩
    exact (obeys_perform (Io.remove_dir _) _ _).mpr ⟨rfl, fun _ => ⟨won, rfl, hr⟩⟩
  simp only [DiskCache.purge, DiskCache.path_from_key, DiskCache.path_from_hash]
  rw [obeys_bind]
  refine (obeys_perform (Io.inc_by _ _) _ _).mpr ⟨rfl, fun _ => ?_⟩
  rw [obeys_bind]
  refine (obeys_perform (Io.metadata _) _ _).mpr ⟨rfl, fun r => ?_⟩
  -- the same comes after each length that was read
  cases r
  all_goals
    rw [obeys_bind]
    refine (obeys_perform (Io.remove_file _) _ _).mpr ⟨rfl, fun r => ?_⟩
    cases r with
    | error e => exact hrest _ none rfl
    | ok _ =>
      rw [obeys_bind]
      refine (obeys_perform (Io.inc_by _ _) _ _).mpr ⟨rfl, fun _ => ?_⟩
      rw [obeys_bind]
      refine (obeys_perform (Io.inc_by _ _) _ _).mpr ⟨rfl, fun _ => ?_⟩
      rw [obeys_bind]
      exact (obeys_perform (Io.size_bytes_sub _) _ _).mpr ⟨rfl, fun _ => hrest _ (some _) rfl⟩

/-! ## A lookup -/

/-- Three programs in any order. `I` is what the note says when some of them are through. -/
theorem obeys_join3 {N α β γ : Type} {allows : N → Io → Prop} {next : N → (e : Io) → e.Reply → N}
    {a : Prog α} {b : Prog β} {c : Prog γ} {I : Option α → Option β → Option γ → N → Prop}
    {Q : α × β × γ → N → Prop} {n : N}
    (ha : ∀ y z n, I none y z n → a.Obeys allows next (fun x n => I (some x) y z n) n)
    (hb : ∀ x z n, I x none z n → b.Obeys allows next (fun y n => I x (some y) z n) n)
    (hc : ∀ x y n, I x y none n → c.Obeys allows next (fun z n => I x y (some z) n) n)
    (hQ : ∀ x y z n, I (some x) (some y) (some z) n → Q (x, y, z) n)
    (horder : allows n .join_order) (hstart : ∀ r, I none none none (next n .join_order r)) :
    (join3 a b c).Obeys allows next Q n := by
  rw [join3, obeys_bind]
  refine (obeys_perform Io.join_order _ _).mpr ⟨horder, fun r => ?_⟩
  have h0 := hstart r
  split <;> simp only [obeys_bind, obeys_pure]
  · exact obeys_mono (ha _ _ _ h0) fun x _ h1 => obeys_mono (hb _ _ _ h1) fun y _ h2 =>
      obeys_mono (hc _ _ _ h2) fun z n h3 => hQ x y z n h3
  · exact obeys_mono (ha _ _ _ h0) fun x _ h1 => obeys_mono (hc _ _ _ h1) fun z _ h2 =>
      obeys_mono (hb _ _ _ h2) fun y n h3 => hQ x y z n h3
  · exact obeys_mono (hb _ _ _ h0) fun y _ h1 => obeys_mono (ha _ _ _ h1) fun x _ h2 =>
      obeys_mono (hc _ _ _ h2) fun z n h3 => hQ x y z n h3
  · exact obeys_mono (hb _ _ _ h0) fun y _ h1 => obeys_mono (hc _ _ _ h1) fun z _ h2 =>
      obeys_mono (ha _ _ _ h2) fun x n h3 => hQ x y z n h3
  · exact obeys_mono (hc _ _ _ h0) fun z _ h1 => obeys_mono (ha _ _ _ h1) fun x _ h2 =>
      obeys_mono (hb _ _ _ h2) fun y n h3 => hQ x y z n h3
  · exact obeys_mono (hc _ _ _ h0) fun z _ h1 => obeys_mono (hb _ _ _ h1) fun y _ h2 =>
      obeys_mono (ha _ _ _ h2) fun x n h3 => hQ x y z n h3

/-- The handler of a hit on a file of some length. -/
def whole (f len : Nat) : DiskHitHandler :=
  { file := f
    total_len := len
    range_start := 0
    range_end := len
    pos := 0
    pending_seek := false
    chunk := DEFAULT_READ_BUFFER_SIZE }

/-- A hit comes with metadata that was deserialised. -/
theorem eq_of_hit {mi mh : Bytes} {f len : Nat} {cache_meta : M} {hit : DiskHitHandler}
    (h : ((CacheMeta.deserialize mi mh).map fun cache_meta : M => some (cache_meta, whole f len)) =
      .ok (some (cache_meta, hit))) :
    CacheMeta.deserialize mi mh = .ok cache_meta ∧ hit = whole f len := by
  cases hd : CacheMeta.deserialize (M := M) mi mh with
  | error e =>
    rw [hd] at h
    cases h
  | ok x =>
    rw [hd] at h
    cases h
    exact ⟨rfl, rfl⟩

/-- What is to be said of each call of a lookup, where `I` says what is noted when some of the
three files were asked for. -/
structure LookupRules {N : Type} (cache : DiskCache) (hash : CombinedHash)
    (allows : N → Io → Prop) (next : N → (e : Io) → e.Reply → N)
    (Q : Result (Option (M × DiskHitHandler)) → N → Prop)
    (I : Option (Except IoError Bytes) → Option (Except IoError Bytes) →
      Option (Except IoError Nat) → N → Prop) : Prop where
  root : ∀ n, I none none none n → allows n (.create_dir_all cache.root) ∧
    (∀ e err, Q (.error err) (next n (.create_dir_all cache.root) (.error e))) ∧
    I none none none (next n (.create_dir_all cache.root) (.ok ()))
  order : ∀ n, I none none none n → allows n .join_order ∧
    ∀ r, I none none none (next n .join_order r)
  read_meta : ∀ y z n, I none y z n → allows n (.read (cache.meta_part hash)) ∧
    ∀ r, I (some r) y z (next n (.read (cache.meta_part hash)) r)
  read_hdr : ∀ x z n, I x none z n → allows n (.read (cache.hdr hash)) ∧
    ∀ r, I x (some r) z (next n (.read (cache.hdr hash)) r)
  open_body : ∀ x y n, I x y none n → allows n (.open_file (cache.body hash)) ∧
    ∀ r, I x y (some r) (next n (.open_file (cache.body hash)) r)
  miss : ∀ x y z n, I (some x) (some y) (some z) n →
    (x.isOk && y.isOk && z.isOk) = false →
    allows n (.inc_by .misses 1) ∧ Q (.ok none) (next n (.inc_by .misses 1) ())
  size : ∀ mi mh f n, I (some (.ok mi)) (some (.ok mh)) (some (.ok f)) n →
    allows n (.file_len f) ∧ ∀ e err, Q (.error err) (next n (.file_len f) (.error e))
  hit : ∀ mi mh f len n, I (some (.ok mi)) (some (.ok mh)) (some (.ok f)) n →
    allows (next n (.file_len f) (.ok len)) (.inc_by .lookup_hits 1) ∧
    Q ((CacheMeta.deserialize mi mh).map fun cache_meta => some (cache_meta, whole f len))
      (next (next n (.file_len f) (.ok len)) (.inc_by .lookup_hits 1) ())

/-- The course of a lookup. -/
theorem lookup_course {N : Type} {cache : DiskCache} {key : K} {allows : N → Io → Prop}
    {next : N → (e : Io) → e.Reply → N} {Q : Result (Option (M × DiskHitHandler)) → N → Prop}
    {I : Option (Except IoError Bytes) → Option (Except IoError Bytes) →
      Option (Except IoError Nat) → N → Prop} {n : N}
    (h : LookupRules cache (CacheHashKey.combined key) allows next Q I)
    (hn : I none none none n) : (cache.lookup (M := M) key).Obeys allows next Q n := by
  simp only [DiskCache.lookup, DiskCache.path_from_key, DiskCache.path_from_hash,
    trace_fn_exit_with_err, e_explain]
  rw [obeys_bind]
  obtain ⟨hroot, hnone, hbegin⟩ := h.root n hn
  refine (obeys_perform (Io.create_dir_all _) _ _).mpr ⟨hroot, fun r => ?_⟩
  cases r with
  | error e => exact hnone e _
  | ok _ =>
    simp only
    rw [obeys_bind]
    obtain ⟨horder, hstart⟩ := h.order _ hbegin
    refine obeys_join3 (I := I) ?_ ?_ ?_ ?_ horder hstart
    · intro y z n hI
      exact (obeys_perform (Io.read _) _ _).mpr (h.read_meta y z n hI)
    · intro x z n hI
      exact (obeys_perform (Io.read _) _ _).mpr (h.read_hdr x z n hI)
    · intro x y n hI
      exact (obeys_perform (Io.open_file _) _ _).mpr (h.open_body x y n hI)
    · intro x y z n hI
      have hmiss : (x.isOk && y.isOk && z.isOk) = false →
          (inc .misses >>= fun _ => pure (.ok none)).Obeys allows next Q n := by
        intro hlost
        obtain ⟨hcount, hQ⟩ := h.miss x y z n hI hlost
        rw [obeys_bind]
        exact (obeys_perform (Io.inc_by _ _) _ _).mpr ⟨hcount, fun _ => hQ⟩
      cases x with
      | error e => exact hmiss rfl
      | ok mi =>
        cases y with
        | error e => exact hmiss rfl
        | ok mh =>
          cases z with
          | error e => exact hmiss rfl
          | ok f =>
            simp only [DiskCache.hit_of, trace_fn_exit_with_err, e_explain]
            rw [obeys_bind]
            obtain ⟨hsize, hfail⟩ := h.size mi mh f n hI
            refine (obeys_perform (Io.file_len _) _ _).mpr ⟨hsize, fun r => ?_⟩
            cases r with
            | error e => exact hfail e _
            | ok len =>
              simp only
              rw [obeys_bind]
              obtain ⟨hcount, hQ⟩ := h.hit mi mh f len n hI
              refine (obeys_perform (Io.inc_by _ _) _ _).mpr ⟨hcount, fun _ => ?_⟩
              cases hd : CacheMeta.deserialize (M := M) mi mh with
              | error e =>
                rw [hd] at hQ
                exact hQ
              | ok cache_meta =>
                rw [hd] at hQ
                exact hQ

/-! ## What they call -/

section
variable {P : Io → Prop}

theorem calls_of_finish (m : DiskMissHandler) (h : ∀ x e, Finishing.allows m x e → P e) :
    m.finish.Calls P :=
  calls_of_obeys (finish_course m) (fun _ => True) trivial (fun _ _ _ _ => trivial)
    fun x e _ => h x e

theorem calls_of_purge {cache : DiskCache} (key : K) (purge_type : PurgeType)
    (h : ∀ x e, Purging.allows cache (CacheHashKey.combined key) x e → P e) :
    (cache.purge key purge_type).Calls P :=
  calls_of_obeys (purge_course cache key purge_type) (fun _ => True) trivial
    (fun _ _ _ _ => trivial) fun x e _ => h x e

section
variable (cache : DiskCache) (key : K) (hroot : P (.create_dir_all cache.root))
  (horder : P .join_order) (hread : ∀ n, P (.read (cache.entry (CacheHashKey.combined key) n)))
  (hopen : P (.open_file (cache.body (CacheHashKey.combined key))))
  (hlen : ∀ f, P (.file_len f)) (hinc : ∀ k, P (.inc_by k 1))
include hroot horder hread hopen hlen hinc

/-- What a lookup calls, and that a hit of it stands at the start of all that was there. -/
theorem lookup_gives : (cache.lookup (M := M) key).Obeys (fun (_ : Unit) e => P e)
    (fun _ _ _ => ()) (fun r _ => ∀ cache_meta hit, r = .ok (some (cache_meta, hit)) →
      ∃ f len, hit = whole f len) () := by
  refine lookup_course (I := fun _ _ _ _ => True) ?_ trivial
  constructor
  case root => exact fun _ _ => ⟨hroot, fun _ _ _ _ h => (by cases h), trivial⟩
  case order => exact fun _ _ => ⟨horder, fun _ => trivial⟩
  case read_meta => exact fun _ _ _ _ => ⟨hread _, fun _ => trivial⟩
  case read_hdr => exact fun _ _ _ _ => ⟨hread _, fun _ => trivial⟩
  case open_body => exact fun _ _ _ _ => ⟨hopen, fun _ => trivial⟩
  case miss => exact fun _ _ _ _ _ _ => ⟨hinc _, fun _ _ h => by cases h⟩
  case size => exact fun _ _ _ _ _ => ⟨hlen _, fun _ _ _ _ h => by cases h⟩
  case hit => exact fun mi mh f len _ _ => ⟨hinc _, fun _ _ h => ⟨f, len, (eq_of_hit h).2⟩⟩

theorem calls_of_lookup : (cache.lookup (M := M) key).Calls P :=
  calls_of_obeys (lookup_gives cache key hroot horder hread hopen hlen hinc) (fun _ => True) trivial
    (fun _ _ _ _ => trivial) fun _ _ _ h => h

end

end

end edge_cdn_store.courses
