-- Misses at the same time, over the pool that carries out their writes. Two handlers of
-- a key that read the same time have one temporary file between them. Otherwise each has
-- its own, and commits what it wrote, where the pool is through by the next call.
import EdgeCdnStore.Misses
import EdgeCdnStore.PendingWrites

open edge_cdn_store.programs edge_cdn_store.programs.Program edge_cdn_store.io
open edge_cdn_store.file_tree edge_cdn_store.file_tree.FileTree
open edge_cdn_store.logger edge_cdn_store.disk_cache edge_cdn_store.pools edge_cdn_store.sites
open edge_cdn_store.misses edge_cdn_store.write_pools
open edge_cdn_store.pending_writes (append_eq file_writes)
open edge_cdn_store.operations (small_cache small_hash)

namespace edge_cdn_store.miss_runs

/-! ## Many misses -/

/-- A body that was put in its place, and the miss that did it. -/
structure Commit where
  id : Nat
  hash : CombinedHash
  body : Bytes
  deriving DecidableEq

/-- A rename puts a body in its place. -/
def committed_by (n : MissNote) (s : Site) : (e : Io) → e.Reply → List Commit
  | .rename _ q, .ok _ => (s.tree.content q).toList.map fun d => ⟨n.id, n.hash, d⟩
  | _, _ => []

/-- Any number of misses. The history keeps the commits, the last one first. -/
def miss_system (K M : Type) [CacheHashKey K] [CacheMeta M] (cache : DiskCache) :
    System (Nat × Io) (fun e => e.2.Reply) Choice Site Ending MissNote (List Commit)
      (Nat × Miss K M) where
  env := respond
  start t := ((t.2.program cache).sent (fun e => (t.1, e)),
    ⟨t.1, CacheHashKey.combined t.2.key, .fresh⟩)
  next n e r := { n with phase := n.phase.next e.2 r }
  record _ n e r _ s h := committed_by n s e.2 r ++ h

abbrev MissPool := Pool (Nat × Io) (fun e => e.2.Reply) Ending MissNote Site (List Commit)

/-- No miss is under way. -/
def still (s : Site) : MissPool := ⟨[], s, []⟩

/-! ### The pool -/

instance : Appends Site (Nat × Nat) UInt8 := ⟨fun s f d => s.put f.1 ((s.world f.1).append f.2 d)⟩

instance : LawfulAppends Site (Nat × Nat) UInt8 where
  append_nil s f := by
    have hworld : (s.world f.1).append f.2 [] = s.world f.1 :=
      LawfulAppends.append_nil (s.world f.1) f.2
    exact (congrArg (s.put f.1) hworld).trans (put_world s f.1)
  append_append s f d d' := by
    have hworld := LawfulAppends.append_append (s.world f.1) f.2 d d'
    simp only [append_eq] at hworld
    simp only [Appends.append, Site.world_put_self, Site.put_put, hworld]

/-- A write that is accepted adds its bytes at once, as long as there is no pool. -/
theorem respond_immediate : Immediate (file_writes Nat) respond := by
  rintro ⟨i, e⟩ c s f failed d hf hd ha
  cases e
  case write_all g b =>
    cases hf
    cases hd
    unfold respond at ha ⊢
    simp only [answer] at ha ⊢
    generalize bound (.write_all g d) (s.desks i).opened c = c' at ha ⊢
    rcases c' with ⟨_ | ⟨e, _ | n⟩, now, amount⟩
    · rfl
    · cases ha
    · cases ha
  all_goals cases hd

/-- The machine with the pool. -/
abbrev PoolSite := WritePool Site (Nat × Nat) UInt8 IoError

/-- The misses over the pool. -/
def pooled_misses (K M : Type) [CacheHashKey K] [CacheMeta M] (cache : DiskCache) :
    System (Nat × Io) (fun e => e.2.Reply) (PoolChoice Choice IoError) PoolSite Ending MissNote
      (List Commit) (Nat × Miss K M) :=
  delayed_system (file_writes Nat) (miss_system K M cache)

abbrev PooledMisses := Pool (Nat × Io) (fun e => e.2.Reply) Ending MissNote PoolSite (List Commit)

/-- No miss is under way, and the pool has nothing to do. -/
def still_pool (s : Site) : PooledMisses := ⟨[], ⟨s, []⟩, []⟩

/-! ### The runs -/

/-- When a handler gets its temporary file, no handler of the key that is alive goes by the
reading that it goes by. A clock before the epoch reads as 0. -/
def OwnReading (ns : List MissNote) (n : MissNote) : Io → Prop
  | .create_file _ => ∀ m ∈ ns, m.hash = n.hash → m.phase.reading ≠ n.phase.name.map Prod.snd
  | _ => True

instance (ns : List MissNote) (n : MissNote) : (e : Io) → Decidable (OwnReading ns n e)
  | .create_file _ => inferInstanceAs (Decidable (∀ m ∈ ns, m.hash = n.hash →
      m.phase.reading ≠ n.phase.name.map Prod.snd))
  | .create_dir_all _ | .read _ | .open_file _ | .open_append _ | .file_len _ | .read_file _ _
  | .seek_file _ _ | .write_all _ _ | .flush _ | .copy_rounds | .copy_some _ _ | .copy_rest _ _
  | .write _ _ | .rename _ _ | .metadata _ | .exists_path _ | .remove_file _ | .remove_dir _
  | .now | .process_id | .join_order | .inc_by _ _ | .size_bytes_add _ | .size_bytes_sub _ =>
    isTrue trivial

section
variable {K M : Type} [CacheHashKey K] [CacheMeta M]

/-- Misses come, each with a number of its own, and make their calls in any order. No call
fails. The clock may read anything. -/
def Numbered (p : MissPool) : Event Choice Site (Nat × Miss K M) → Prop
  | .spawn t => t.1 = p.threads.length
  | .call _ c => Calm c
  | .crash => False
  | .outside _ => False

instance (p : MissPool) : (ev : Event Choice Site (Nat × Miss K M)) → Decidable (Numbered p ev)
  | .spawn t => inferInstanceAs (Decidable (t.1 = p.threads.length))
  | .call _ c => inferInstanceAs (Decidable (Calm c))
  | .crash => isFalse id
  | .outside _ => isFalse id

/-- When a handler gets its temporary file, it goes by a reading of its own. -/
def Distinct (p : MissPool) : Event Choice Site (Nat × Miss K M) → Prop
  | .call i _ => ∀ x ∈ p.next_call i, OwnReading p.notes x.2 x.1.2
  | _ => True

instance (p : MissPool) : (ev : Event Choice Site (Nat × Miss K M)) → Decidable (Distinct p ev)
  | .call i _ => inferInstanceAs (Decidable (∀ x ∈ p.next_call i, OwnReading p.notes x.2 x.1.2))
  | .spawn _ | .crash | .outside _ => isTrue trivial

/-- The body of a key: what was committed last, or else what was there before. -/
def body_after (before : CombinedHash → Option Bytes) (h : List Commit) (k : CombinedHash) :
    Option Bytes :=
  ((h.find? fun x => x.hash = k).map Commit.body).or (before k)

/-- What stands of all misses. -/
structure Unmixed (cache : DiskCache) (before : CombinedHash → Option Bytes)
    (ns : List MissNote) (s : Site) (h : List Commit) : Prop where
  laid : cache.Laid s.tree
  ids : ∀ i (n : MissNote), ns[i]? = some n → n.id = i
  own : ∀ n ∈ ns, Own cache s n
  apart : ∀ (i j : Nat) (n m : MissNote), ns[i]? = some n → ns[j]? = some m → i ≠ j →
    n.hash = m.hash → ∀ nanos, n.phase.reading = some nanos → m.phase.reading ≠ some nanos
  bodies : ∀ k, s.tree.content (cache.body k) = body_after before h k
  logged : ∀ n ∈ ns, ∀ d, n.phase.wrote = some d → Commit.mk n.id n.hash d ∈ h
  log : ∀ x ∈ h, ∃ n ∈ ns, n.id = x.id ∧ n.hash = x.hash ∧ n.phase.wrote = some x.body

variable {cache : DiskCache} {s : Site} {n : MissNote} {e : Io} {c : Choice}

/-! ## What a call does to the bodies -/

theorem body_after_cons (before : CombinedHash → Option Bytes) (x : Commit) (h : List Commit)
    (k : CombinedHash) :
    body_after before (x :: h) k = if k = x.hash then some x.body else body_after before h k := by
  unfold body_after
  by_cases hk : k = x.hash
  · rw [if_pos hk, List.find?_cons_of_pos (by simp [hk])]
    rfl
  · rw [if_neg hk, List.find?_cons_of_neg (by simp [Ne.symm hk])]

/-- The rename puts what the handler wrote in its place. -/
theorem rename_respond {pid nanos : Nat} {d : Bytes} (hlaid : cache.Laid s.tree) (hc : Calm c)
    (h : s.tree.content (tmp cache n.hash pid nanos) = some d) (k : CombinedHash) :
    (respond (n.id, .rename (tmp cache n.hash pid nanos) (cache.body n.hash)) c s).1 = .ok () ∧
    (respond (n.id, .rename (tmp cache n.hash pid nanos) (cache.body n.hash)) c s).2.tree.content
      (cache.body k) = if k = n.hash then some d else s.tree.content (cache.body k) := by
  have htmp := isTmp_tmp_name n.hash.text pid nanos
  obtain ⟨w, hput, hreply, hcontent⟩ := respond_spec
    (.rename (tmp cache n.hash pid nanos) (cache.body n.hash)) n.id
    (fun r w => r = .ok () ∧ w.tree.content (cache.body k) =
      if k = n.hash then some d else s.tree.content (cache.body k)) hc (no_handles rfl)
    (rename_spec (Leads.refl hlaid) htmp
      (fun hnone => absurd (h.symm.trans hnone) (by simp)) fun d' w hd' l => by
        obtain rfl : d' = d := Option.some.inj (hd'.symm.trans h)
        refine ⟨rfl, ?_⟩
        rw [l.content]
        by_cases hk : k = n.hash
        · subst hk
          rw [if_pos rfl]
          exact Function.update_self ..
        · have hbody : cache.body k ≠ cache.entry n.hash "body".toList :=
            DiskCache.entry_ne_of_hash hk
          have hother : cache.body k ≠ cache.entry n.hash (DiskMissHandler.tmp_name n.hash.text
              pid nanos) := DiskCache.entry_ne_of_hash hk
          rw [if_neg hk, Function.update_of_ne hbody, Function.update_of_ne hother]
          rfl)
  refine ⟨hreply, ?_⟩
  rw [hput]
  exact hcontent

/-- A call commits what its miss wrote, or it leaves all bodies as they are. -/
theorem bodies_respond (hlaid : cache.Laid s.tree) (hown : Own cache s n)
    (h : n.phase.allows cache n.hash e) (hc : Calm c) :
    let r := respond (n.id, e) c s
    (committed_by n r.2 e r.1 = [] ∧ (n.phase.next e r.1).wrote = n.phase.wrote ∧
      ∀ k, r.2.tree.content (cache.body k) = s.tree.content (cache.body k)) ∨
    (∃ d, committed_by n r.2 e r.1 = [⟨n.id, n.hash, d⟩] ∧ n.phase.wrote = none ∧
      (n.phase.next e r.1).wrote = some d ∧ ∀ k, r.2.tree.content (cache.body k) =
        if k = n.hash then some d else s.tree.content (cache.body k)) := by
  have hs : n.phase ≠ .stuck := by
    intro hphase
    unfold Own at hown
    rw [hphase] at hown
    exact hown
  have hs' : n.phase.next e (respond (n.id, e) c s).1 ≠ .stuck := by
    intro hphase
    have hnext := own_respond hlaid hown h hc
    unfold Own at hnext
    simp only [hphase] at hnext
  intro r
  rcases wrote_next h hs' with hsame | ⟨pid, nanos, d, p, q, hphase, rfl, hnext⟩
  · left
    have hno : ∀ p q, e ≠ .rename p q := by
      rintro p q rfl
      have hput := wrote_rename h hs'
      rw [hsame] at hput
      exact hput.2 hput.1
    refine ⟨?_, hsame, fun k => ?_⟩
    · cases e
      case rename p q => exact absurd rfl (hno p q)
      all_goals rfl
    · have htmp : ∀ pid nanos, n.phase.name = some (pid, nanos) →
          cache.body k ≠ tmp cache n.hash pid nanos :=
        fun pid nanos _ heq => tmp_ne (by decide) heq.symm
      apply content_of_other hown h hs htmp
      exact not_touches_of_allows h hs htmp (by decide) (by decide) (Or.inl hno)
  · right
    unfold Own at hown
    rw [hphase] at h hown
    obtain ⟨rfl, rfl⟩ := h
    refine ⟨d, ?_, by rw [hphase]; rfl, by rw [hnext]; rfl, fun k => ?_⟩
    · obtain ⟨hreply, hcontent⟩ := rename_respond hlaid hc hown.2 n.hash
      rw [if_pos rfl] at hcontent
      unfold committed_by
      simp only [r]
      rw [show cache.entry n.hash "body".toList = cache.body n.hash from rfl, hreply]
      simp only [hcontent, Option.toList_some, List.map_cons, List.map_nil]
    · exact (rename_respond hlaid hc hown.2 k).2

/-! ## All misses -/

variable {before : CombinedHash → Option Bytes} {ns : List MissNote} {h : List Commit} {i : Nat}

theorem Unmixed.not_stuck (hI : Unmixed cache before ns s h) (hn : n ∈ ns) : n.phase ≠ .stuck := by
  intro hphase
  have hown := hI.own n hn
  unfold Own at hown
  rw [hphase] at hown
  exact hown

/-- A new miss has nothing yet. -/
theorem Unmixed.spawn (hI : Unmixed cache before ns s h) (hash : CombinedHash) :
    Unmixed cache before (ns ++ [⟨ns.length, hash, .fresh⟩]) s h where
  laid := hI.laid
  ids := by
    intro j m hj
    rcases getElem?_append_cases hj with hj | ⟨rfl, rfl⟩
    · exact hI.ids j m hj
    · rfl
  own := by
    intro m hm
    rcases List.mem_append.mp hm with hm | hm
    · exact hI.own m hm
    · obtain rfl := List.mem_singleton.mp hm
      trivial
  apart := by
    intro j l m m' hj hl hjl hhash nanos hread
    rcases getElem?_append_cases hj with hj | ⟨rfl, rfl⟩
    · rcases getElem?_append_cases hl with hl | ⟨rfl, rfl⟩
      · exact hI.apart j l m m' hj hl hjl hhash nanos hread
      · exact fun hnone => by cases hnone
    · cases hread
  bodies := hI.bodies
  logged := by
    intro m hm d hd
    rcases List.mem_append.mp hm with hm | hm
    · exact hI.logged m hm d hd
    · obtain rfl := List.mem_singleton.mp hm
      cases hd
  log := by
    intro x hx
    obtain ⟨m, hm, hrest⟩ := hI.log x hx
    exact ⟨m, List.mem_append_left _ hm, hrest⟩

/-- Another handler goes by another reading. -/
theorem Unmixed.reading_ne (hI : Unmixed cache before ns s h) (hi : ns[i]? = some n)
    (ha : n.phase.allows cache n.hash e) (hread : OwnReading ns n e) {j : Nat} {m : MissNote}
    (hj : ns[j]? = some m) (hji : j ≠ i) (hhash : m.hash = n.hash) {nanos : Nat}
    (hm : m.phase.reading = some nanos) : n.phase.name.map Prod.snd ≠ some nanos := by
  intro hname
  obtain ⟨⟨pid, t⟩, hn, ht⟩ := Option.map_eq_some_iff.mp hname
  obtain rfl : t = nanos := ht
  rcases reading_of_name ha hn with hown | ⟨p, rfl⟩
  · exact hI.apart j i m n hj hi hji hhash t hm hown
  · exact hread m (List.mem_of_getElem? hj) hhash (hm.trans hname.symm)

/-- After its call the handler goes by a reading that no other one goes by. -/
theorem Unmixed.next_reading_ne (hI : Unmixed cache before ns s h) (hi : ns[i]? = some n)
    (ha : n.phase.allows cache n.hash e) (hread : OwnReading ns n e) {j : Nat} {m : MissNote}
    (hj : ns[j]? = some m) (hji : j ≠ i) (hhash : m.hash = n.hash) {r : e.Reply} {nanos : Nat}
    (hn : (n.phase.next e r).reading = some nanos) : m.phase.reading ≠ some nanos := by
  intro hm
  rcases reading_next hn with hown | ⟨_, hname⟩
  · exact hI.apart j i m n hj hi hji hhash nanos hm hown
  · exact hI.reading_ne hi ha hread hj hji hhash hm hname

/-- What a miss has put in its place is in the history, and the other way round. -/
theorem Unmixed.log_call (hI : Unmixed cache before ns s h) (hi : ns[i]? = some n) (phase : Phase)
    (new : List Commit) (hnew : (new = [] ∧ phase.wrote = n.phase.wrote) ∨
      ∃ d, new = [⟨n.id, n.hash, d⟩] ∧ n.phase.wrote = none ∧ phase.wrote = some d) :
    (∀ m ∈ ns.set i { n with phase := phase }, ∀ d, m.phase.wrote = some d →
      Commit.mk m.id m.hash d ∈ new ++ h) ∧
    ∀ x ∈ new ++ h, ∃ m ∈ ns.set i { n with phase := phase },
      m.id = x.id ∧ m.hash = x.hash ∧ m.phase.wrote = some x.body := by
  have hn : n ∈ ns := List.mem_of_getElem? hi
  have hself : { n with phase := phase } ∈ ns.set i { n with phase := phase } :=
    List.mem_set (List.getElem?_eq_some_iff.mp hi).1 _
  constructor
  · intro m hm d hd
    obtain ⟨j, hj⟩ := List.mem_iff_getElem?.mp hm
    rcases getElem?_set_cases hj with ⟨_, rfl⟩ | ⟨_, hj⟩
    · rcases hnew with ⟨rfl, hsame⟩ | ⟨d', rfl, _, hwrote⟩
      · exact hI.logged n hn d (hsame.symm.trans hd)
      · obtain rfl : d' = d := Option.some.inj (hwrote.symm.trans hd)
        exact List.mem_cons_self
    · exact List.mem_append_right _ (hI.logged m (List.mem_of_getElem? hj) d hd)
  · intro x hx
    rcases List.mem_append.mp hx with hx | hx
    · rcases hnew with ⟨rfl, _⟩ | ⟨d, rfl, _, hwrote⟩
      · cases hx
      · obtain rfl := List.mem_singleton.mp hx
        exact ⟨_, hself, rfl, rfl, hwrote⟩
    · obtain ⟨m, hm, hid, hhash, hbody⟩ := hI.log x hx
      obtain ⟨j, hj⟩ := List.mem_iff_getElem?.mp hm
      by_cases hji : j = i
      · -- the miss put it there before
        subst hji
        obtain rfl : m = n := Option.some.inj (hj.symm.trans hi)
        rcases hnew with ⟨_, hsame⟩ | ⟨_, _, hnone, _⟩
        · exact ⟨_, hself, hid, hhash, hsame.trans hbody⟩
        · rw [hnone] at hbody
          cases hbody
      · refine ⟨m, List.mem_of_getElem? (i := j) ?_, hid, hhash, hbody⟩
        rw [List.getElem?_set_ne (Ne.symm hji)]
        exact hj

/-- A call of one miss keeps all of them unmixed. -/
theorem Unmixed.call (hI : Unmixed cache before ns s h) (hi : ns[i]? = some n)
    (ha : n.phase.allows cache n.hash e) (hc : Calm c) (hread : OwnReading ns n e) :
    Unmixed cache before
      (ns.set i { n with phase := n.phase.next e (respond (n.id, e) c s).1 })
      (respond (n.id, e) c s).2
      (committed_by n (respond (n.id, e) c s).2 e (respond (n.id, e) c s).1 ++ h) := by
  have hn : n ∈ ns := List.mem_of_getElem? hi
  have hs := hI.not_stuck hn
  have hown := hI.own n hn
  have hbodies := bodies_respond hI.laid hown ha hc
  have hlog := hI.log_call hi (n.phase.next e (respond (n.id, e) c s).1)
    (committed_by n (respond (n.id, e) c s).2 e (respond (n.id, e) c s).1)
    (hbodies.imp (fun h => ⟨h.1, h.2.1⟩) fun ⟨d, h⟩ => ⟨d, h.1, h.2.1, h.2.2.1⟩)
  refine ⟨?_, ?_, ?_, ?_, ?_, hlog.1, hlog.2⟩
  · exact laid_respond hI.laid (of_key_of_allows ha hs)
  · intro j m hj
    rcases getElem?_set_cases hj with ⟨rfl, rfl⟩ | ⟨_, hj⟩
    · exact hI.ids j n hi
    · exact hI.ids j m hj
  · intro m hm
    obtain ⟨j, hj⟩ := List.mem_iff_getElem?.mp hm
    rcases getElem?_set_cases hj with ⟨_, rfl⟩ | ⟨hji, hj⟩
    · exact own_respond hI.laid hown ha hc
    · have hid : m.id ≠ n.id := by
        rw [hI.ids j m hj, hI.ids i n hi]
        exact hji
      apply own_of_other hown ha hs (hI.own m (List.mem_of_getElem? hj)) hid
      intro hhash nanos hm
      exact hI.reading_ne hi ha hread hj hji hhash hm
  · intro j l m m' hj hl hjl hhash nanos hm hm'
    rcases getElem?_set_cases hj with ⟨rfl, rfl⟩ | ⟨hji, hold⟩
    · rcases getElem?_set_cases hl with ⟨rfl, _⟩ | ⟨hli, hl⟩
      · exact hjl rfl
      · exact hI.next_reading_ne hi ha hread hl hli hhash.symm hm hm'
    · rcases getElem?_set_cases hl with ⟨rfl, rfl⟩ | ⟨_, hl⟩
      · exact hI.next_reading_ne hi ha hread hold hji hhash hm' hm
      · exact hI.apart j l m m' hold hl hjl hhash nanos hm hm'
  · intro k
    rcases hbodies with ⟨hnone, _, hsame⟩ | ⟨d, hone, _, _, hput⟩
    · rw [hnone, List.nil_append, hsame, hI.bodies]
    · rw [hone, List.singleton_append, body_after_cons, hput, hI.bodies]

/-- Misses stay unmixed in every run without faults in which no handler gets the file of
another one. -/
theorem unmixed_invariant (cache : DiskCache) (before : CombinedHash → Option Bytes) :
    (miss_system K M cache).Invariant
      (fun n e => e.1 = n.id ∧ n.phase.allows cache n.hash e.2) (fun a n => a.Fits n.hash n.phase)
      (fun p ev => Numbered p ev ∧ Distinct p ev) (Unmixed cache before) where
  start p t _ := by
    simp only [miss_system, obeys_sent]
    refine obeys_map (fun phase => MissNote.mk t.1 (CacheHashKey.combined t.2.key) phase)
      (miss_obeys t.2) ?_ ?_ ?_
    · exact fun phase e ha => ⟨rfl, ha⟩
    · exact fun phase e r => rfl
    · exact fun a phase ha => ha
  spawn p t ht _ hI := by
    have hnumber : t.1 = p.notes.length := ht.1.trans (List.length_map _).symm
    simp only [miss_system]
    rw [hnumber]
    exact hI.spawn _
  call p i c e k n hP hi ha hI := by
    have hnext : (e, n) ∈ p.next_call i := Pool.next_call_of hi
    have hread : OwnReading p.notes n e.2 := hP.2 (e, n) hnext
    obtain ⟨j, e⟩ := e
    obtain ⟨rfl, hallows⟩ := ha
    exact hI.call (Pool.notes_getElem? hi) hallows hP.1 hread
  crash _ hP := absurd hP.1 id
  outside _ _ hP := absurd hP.1 id

/-- No miss has gone into another one. Each temporary file holds what its handler wrote, each
finish succeeded and committed what its own handler wrote, and each body is what was committed
last. -/
structure OwnBodies (cache : DiskCache) (before : CombinedHash → Option Bytes) (p : MissPool) :
    Prop where
  files : ∀ n ∈ p.notes, ∀ pid nanos d, n.phase = .idle pid nanos d →
    p.state.tree.content (tmp cache n.hash pid nanos) = some d
  finished : ∀ (i : Nat) hash written r, p.results[i]? = some (some (.finished hash written r)) →
    r = .ok (.Created written.length) ∧ Commit.mk i hash written ∈ p.history
  failed : ∀ i : Nat, p.results[i]? = some (some .failed) →
    ∃ n, p.notes[i]? = some n ∧ n.phase = .fresh
  commits : ∀ x ∈ p.history, ∃ n ∈ p.notes, n.id = x.id ∧ n.hash = x.hash ∧
    n.phase.wrote = some x.body
  bodies : ∀ k, p.state.tree.content (cache.body k) = body_after before p.history k

/-- The same where every write is through when it returns. -/
theorem own_bodies (cache : DiskCache) (tree : FileTree (List Char) UInt8)
    (hlaid : cache.Laid tree) (metrics : CacheMetrics) (pid : Nat)
    (evs : List (Event Choice Site (Nat × Miss K M))) (p : MissPool)
    (hP : (miss_system K M cache).Along (fun p ev => Numbered p ev ∧ Distinct p ev)
      (still (.start tree metrics pid)) evs)
    (hr : (miss_system K M cache).run (still (.start tree metrics pid)) evs = some p) :
    OwnBodies cache (fun k => tree.content (cache.body k)) p := by
  obtain ⟨hobey, hI⟩ := (unmixed_invariant cache fun k => tree.content (cache.body k)).run
    (p := still (.start tree metrics pid)) (fun x hx => absurd hx List.not_mem_nil)
    ⟨hlaid, fun i n hi => (by cases hi), fun n hn => absurd hn List.not_mem_nil,
      fun i j n m hi => (by cases hi), fun k => rfl, fun n hn => absurd hn List.not_mem_nil,
      fun x hx => absurd hx List.not_mem_nil⟩ hP hr
  constructor
  · intro n hn pid nanos d hphase
    have hown := hI.own n hn
    unfold Own at hown
    rw [hphase] at hown
    exact hown.2
  · intro i hash written r hi
    obtain ⟨n, hdone⟩ := Pool.results_getElem? hi
    have hn : n ∈ p.notes := List.mem_of_getElem? (Pool.notes_getElem? hdone)
    rcases hobey.done (List.mem_of_getElem? hdone) with hstuck | ⟨rfl, hphase, hr⟩
    · exact absurd hstuck (hI.not_stuck hn)
    · refine ⟨hr, ?_⟩
      rw [← hI.ids i n (Pool.notes_getElem? hdone)]
      apply hI.logged n hn
      rw [hphase]
      rfl
  · intro i hi
    obtain ⟨n, hdone⟩ := Pool.results_getElem? hi
    have hn : p.notes[i]? = some n := Pool.notes_getElem? hdone
    rcases hobey.done (List.mem_of_getElem? hdone) with hstuck | hfresh
    · exact absurd hstuck (hI.not_stuck (List.mem_of_getElem? hn))
    · exact ⟨n, hn, hfresh⟩
  · exact hI.log
  · exact hI.bodies

/-- What is asked of a run: the pool is through with all writes when a call is made, no call and
no write fails, and a handler that gets its temporary file goes by a reading of its own. -/
def Orderly (p : PooledMisses) (ev : Event (PoolChoice Choice IoError) PoolSite (Nat × Miss K M)) :
    Prop :=
  Prompt p ev ∧ Numbered (behind p) (before_pool ev) ∧ Distinct (behind p) (before_pool ev)

instance (p : PooledMisses)
    (ev : Event (PoolChoice Choice IoError) PoolSite (Nat × Miss K M)) : Decidable (Orderly p ev) :=
  inferInstanceAs (Decidable (_ ∧ _))

/-- In every run without faults of any number of misses, whatever the clock reads, in which the
pool has carried out each write by the next call, and no handler creates its temporary file while
another handler of the key is alive that goes by the same reading: each temporary file holds the
chunks of its handler, each finish succeeds and gives the length of these chunks, and they are
what it committed, and each body is what was committed last. -/
theorem misses_do_not_mix_unless_a_write_is_late_or_two_live_handlers_go_by_one_reading
    (cache : DiskCache) (tree : FileTree (List Char) UInt8) (hlaid : cache.Laid tree)
    (metrics : CacheMetrics) (pid : Nat)
    (evs : List (Event (PoolChoice Choice IoError) PoolSite (Nat × Miss K M))) (p : PooledMisses)
    (hP : (pooled_misses K M cache).Along Orderly (still_pool (.start tree metrics pid)) evs)
    (hr : (pooled_misses K M cache).run (still_pool (.start tree metrics pid)) evs = some p) :
    OwnBodies cache (fun k => tree.content (cache.body k)) (behind p) := by
  have himmediate : Immediate (file_writes Nat) (miss_system K M cache).env := respond_immediate
  have hlight : (still_pool (.start tree metrics pid)).state.Light := .idle _
  have halong := along_behind (P := fun p ev => Numbered p ev ∧ Distinct p ev) himmediate hlight hP
  have hprompt : (pooled_misses K M cache).Along Prompt (still_pool (.start tree metrics pid)) evs :=
    System.along_mono (fun _ _ h => h.1) hP
  have hrun := run_behind himmediate hlight hprompt hr
  exact own_bodies cache tree hlaid metrics pid _ _ halong hrun

end

/-! ## Two misses of one key -/

/-- The pool carries out what it has, and then the call is made. -/
def prompt (now : Int) : PoolChoice Choice IoError := ⟨[.run 0 9], ⟨none, now, 0⟩⟩

abbrev SmallEvent :=
  Event (PoolChoice Choice IoError) PoolSite (Nat × Miss CombinedHash operations.Note)

abbrev small_misses := pooled_misses CombinedHash operations.Note small_cache

def small_still : PooledMisses := still_pool (.start (FileTree.empty _ _) (.new 0) 1)

/-- Handlers 0 and 1 are made when the clock reads `now` and `now'`. The first writes two bytes
and the second one byte, both of them before the first finishes. -/
def both_written (now now' : Int) : List SmallEvent :=
  [.spawn (0, ⟨small_hash, ⟨[7]⟩, [([1, 2], true)], true⟩),
    .spawn (1, ⟨small_hash, ⟨[8]⟩, [([3], true)], true⟩)] ++
    Event.calls 0 6 (prompt now) ++ Event.calls 0 3 (prompt 0) ++
    Event.calls 1 6 (prompt now') ++ Event.calls 1 3 (prompt 0) ++ Event.calls 0 7 (prompt 0)

theorem misses_with_two_readings_do_not_mix : ∃ p,
    small_misses.run small_still (both_written 5 6 ++ Event.calls 1 7 (prompt 0)) = some p ∧
    p.history = [⟨1, small_hash, [3]⟩, ⟨0, small_hash, [1, 2]⟩] ∧
    OwnBodies small_cache (fun k => (FileTree.empty _ _).content (small_cache.body k))
      (behind p) := by
  have hrun : (small_misses.run small_still (both_written 5 6 ++ Event.calls 1 7 (prompt 0))).map
      Pool.history = some [⟨1, small_hash, [3]⟩, ⟨0, small_hash, [1, 2]⟩] := by
    decide +kernel
  obtain ⟨p, hp, hhistory⟩ := Option.map_eq_some_iff.mp hrun
  exact ⟨p, hp, hhistory,
    misses_do_not_mix_unless_a_write_is_late_or_two_live_handlers_go_by_one_reading small_cache
      (FileTree.empty _ _) (operations.empty_world_laid small_cache) (.new 0) 1
      (both_written 5 6 ++ Event.calls 1 7 (prompt 0)) p (by decide +kernel) hp⟩

/-- Both readings are before the epoch, so both handlers have one temporary file. The first
commits the byte of the second one as a body of two bytes, and the second cannot finish. No call
fails, and the pool is through by each call. -/
theorem misses_before_the_epoch_mix :
    (small_misses.Along (fun p ev => Prompt p ev ∧ Numbered (behind p) (before_pool ev)) small_still
      (both_written (-2) (-1) ++ Event.calls 1 4 (prompt 0))) ∧
    (∃ e, (small_misses.run small_still
        (both_written (-2) (-1) ++ Event.calls 1 4 (prompt 0))).map
      (fun p => (p.results, p.history)) = some
        ([some (.finished small_hash [1, 2] (.ok (.Created 2))),
          some (.finished small_hash [3] (.error e))], [⟨0, small_hash, [3]⟩])) ∧
    ¬ ∀ p, small_misses.run small_still (both_written (-2) (-1) ++ Event.calls 1 4 (prompt 0)) =
        some p → OwnBodies small_cache (fun k => (FileTree.empty _ _).content (small_cache.body k))
          (behind p) := by
  have hrun : (small_misses.run small_still
      (both_written (-2) (-1) ++ Event.calls 1 4 (prompt 0))).map
      (fun p => (p.results, p.history)) = some
        ([some (.finished small_hash [1, 2] (.ok (.Created 2))),
          some (.finished small_hash [3] (.error ⟨.InternalError,
            "Can't open tmp file for append: No such file or directory (os error 2)"⟩))],
          [⟨0, small_hash, [3]⟩]) := by
    decide +kernel
  refine ⟨by decide +kernel, ⟨_, hrun⟩, fun hall => ?_⟩
  obtain ⟨p, hp, hend⟩ := Option.map_eq_some_iff.mp hrun
  obtain ⟨hresults, hhistory⟩ := Prod.mk.inj hend
  have hcommit := ((hall p hp).finished 0 small_hash [1, 2] (.ok (.Created 2)) (by
    change p.results[0]? = _
    rw [hresults]
    rfl)).2
  change _ ∈ p.history at hcommit
  rw [hhistory] at hcommit
  exact absurd hcommit (by decide)

end edge_cdn_store.miss_runs
