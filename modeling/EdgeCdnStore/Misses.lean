-- A miss from its start to its end: what it calls at each point, and what stands of
-- it on the disk while other misses make their calls. The temporary file goes by
-- the key, the process and a reading of the clock.
import EdgeCdnStore.Sites
import EdgeCdnStore.DiskSpecs
import EdgeCdnStore.Operations

open edge_cdn_store.programs edge_cdn_store.programs.Program edge_cdn_store.io
open edge_cdn_store.file_tree edge_cdn_store.file_tree.FileTree
open edge_cdn_store.logger edge_cdn_store.disk_cache edge_cdn_store.pools edge_cdn_store.sites
open edge_cdn_store.courses
open edge_cdn_store.operations (write_bodies)

namespace edge_cdn_store.misses

/-! ## The names of the temporary files -/

/-- The temporary file of a handler that process `pid` made when it read `nanos`. -/
def tmp (cache : DiskCache) (hash : CombinedHash) (pid nanos : Nat) : PathBuf :=
  cache.entry hash (DiskMissHandler.tmp_name hash.text pid nanos)

theorem tmp_name_inj {hint : List Char} {pid nanos nanos' : Nat}
    (h : DiskMissHandler.tmp_name hint pid nanos = DiskMissHandler.tmp_name hint pid nanos') :
    nanos = nanos' := by
  have hdigits : (toString nanos).toList = (toString nanos').toList := List.append_cancel_left h
  have hread := congrArg (fun l => Nat.ofDigitChars 10 l 0) hdigits
  simpa using hread

theorem tmp_inj {cache : DiskCache} {hash hash' : CombinedHash} {pid nanos nanos' : Nat}
    (h : tmp cache hash pid nanos = tmp cache hash' pid nanos') :
    hash = hash' ∧ nanos = nanos' := by
  obtain ⟨rfl, hname⟩ := DiskCache.entry_inj.mp h
  exact ⟨rfl, tmp_name_inj hname⟩

theorem tmp_ne {cache : DiskCache} {hash hash' : CombinedHash} {pid nanos : Nat} {n : List Char}
    (hn : '-' ∉ n) : tmp cache hash pid nanos ≠ cache.entry hash' n := by
  intro h
  exact (isTmp_tmp_name _ _ _).ne hn (DiskCache.entry_inj.mp h).2

/-! ## A miss from its start to its end -/

section
variable {K M : Type} [CacheHashKey K] [CacheMeta M]

/-- A miss that is to be filled, and whether its handler finishes or is only dropped. -/
structure Miss (K M : Type) where
  key : K
  cache_meta : M
  chunks : List (Bytes × Bool)
  finishes : Bool

/-- All that a miss wrote. -/
def Miss.written (x : Miss K M) : Bytes := x.chunks.flatMap Prod.fst

inductive Ending
  | failed
  | dropped
  | finished (hash : CombinedHash) (written : Bytes) (r : Result MissFinishType)
  deriving DecidableEq

def Miss.program (cache : DiskCache) (x : Miss K M) : Prog Ending := do
  match ← cache.get_miss_handler x.key x.cache_meta with
  | .error _ => return .failed
  | .ok m =>
    match ← write_bodies m x.chunks with
    | (.error _, m) =>
      m.drop
      return .failed
    | (.ok (), m) =>
      if x.finishes then
        let r ← m.finish
        return .finished (CacheHashKey.combined x.key) x.written r
      else
        m.drop
        return .dropped

/-! ## How far a miss has come -/

/-- A handler has its temporary file from `idle` on, with the bytes `d` in it, and it is dropped
when it is gone. A miss is stuck when a call failed that it needs. -/
inductive Phase
  | fresh
  | timed (nanos : Nat)
  | named (pid nanos : Nat)
  | ready (pid nanos : Nat)
  | idle (pid nanos : Nat) (d : Bytes)
  | appending (pid nanos : Nat) (d : Bytes) (f : Nat)
  | committed (pid nanos : Nat) (d : Bytes)
  | gone (d : Option Bytes)
  | stuck
  deriving DecidableEq

structure MissNote where
  id : Nat
  hash : CombinedHash
  phase : Phase
  deriving DecidableEq

/-- What a miss may call. -/
def Phase.allows (cache : DiskCache) (hash : CombinedHash) : Phase → Io → Prop
  | .fresh, .inc_by _ _ => True
  | .fresh, .create_dir_all p => p = cache.dir hash
  | .fresh, .now => True
  | .timed _, .process_id => True
  | .named _ _, .create_dir_all p => p = cache.dir hash
  | .ready pid nanos, .create_file p => p = tmp cache hash pid nanos
  | .idle pid nanos _, .open_append p => p = tmp cache hash pid nanos
  | .idle _ _ _, .flush _ => True
  | .idle _ _ _, .create_dir_all p => p = cache.dir hash
  | .idle pid nanos _, .rename p q =>
    p = tmp cache hash pid nanos ∧ q = cache.entry hash "body".toList
  | .idle pid nanos _, .remove_file p => p = tmp cache hash pid nanos
  | .appending _ _ _ f, .write_all g _ => g = f
  | .committed _ _ _, .write p _ =>
    p = cache.entry hash "meta".toList ∨ p = cache.entry hash "hdr".toList
  | .committed _ _ _, .inc_by _ _ => True
  | .committed _ _ _, .size_bytes_add _ => True
  | .committed pid nanos _, .remove_file p => p = tmp cache hash pid nanos
  | .stuck, _ => True
  | _, _ => False

def Phase.next : Phase → (e : Io) → e.Reply → Phase
  | .fresh, .now, r => .timed (Int.toNat r)
  | .timed nanos, .process_id, pid => .named pid nanos
  | .named pid nanos, .create_dir_all _, _ => .ready pid nanos
  | .ready pid nanos, .create_file _, .ok _ => .idle pid nanos []
  | .ready _ _, .create_file _, .error _ => .stuck
  | .idle pid nanos d, .open_append _, .ok f => .appending pid nanos d f
  | .idle _ _ _, .open_append _, .error _ => .stuck
  | .idle pid nanos d, .rename _ _, .ok _ => .committed pid nanos d
  | .idle _ _ _, .rename _ _, .error _ => .stuck
  | .idle _ _ _, .remove_file _, _ => .gone none
  | .appending pid nanos d _, .write_all _ b, .ok _ => .idle pid nanos (d ++ b)
  | .appending _ _ _ _, .write_all _ _, .error _ => .stuck
  | .committed _ _ _, .write _ _, .error _ => .stuck
  | .committed _ _ d, .remove_file _, _ => .gone (some d)
  | phase, _, _ => phase

/-- A finish that was not stuck gave the length of what it committed. A miss that was not
stuck failed before it asked for anything on the disk, if it failed. -/
def Ending.Fits (hash : CombinedHash) : Ending → Phase → Prop
  | .finished k written r, phase => phase = .stuck ∨
      (k = hash ∧ phase = .gone (some written) ∧ r = .ok (.Created written.length))
  | .failed, phase => phase = .stuck ∨ phase = .fresh
  | .dropped, _ => True

/-! ## What a miss calls -/

variable {cache : DiskCache} {hash : CombinedHash} {m : DiskMissHandler} {d : Bytes} {phase : Phase}

/-- From a stuck phase on, nothing is said of what comes. -/
theorem stuck_obeys {α : Type} (p : Prog α) :
    p.Obeys (Phase.allows cache hash) Phase.next (fun _ phase => phase = .stuck) .stuck := by
  induction p with
  | done a => rfl
  | call e k ih =>
    have hstuck : ∀ r, Phase.next .stuck e r = .stuck := fun r => by cases e <;> rfl
    refine ⟨by cases e <;> trivial, fun r => ?_⟩
    rw [hstuck]
    exact ih r

/-- The handler of a miss that has written `d`, unless the miss is stuck. -/
def Handles (cache : DiskCache) (hash : CombinedHash) (m : DiskMissHandler) (d : Bytes)
    (phase : Phase) : Prop :=
  phase = .stuck ∨ ∃ pid nanos, phase = .idle pid nanos d ∧ m.Of cache hash ∧
    m.tmp_path = tmp cache hash pid nanos ∧ m.tmp_bytes_written = d.length

theorem get_miss_handler_obeys (key : K) (cache_meta : M) :
    (cache.get_miss_handler key cache_meta).Obeys
      (Phase.allows cache (CacheHashKey.combined key)) Phase.next
      (fun r phase => phase = .stuck ∨ (∃ e, r = .error e) ∧ phase = .fresh ∨
        ∃ m, r = .ok m ∧ Handles cache (CacheHashKey.combined key) m [] phase) .fresh := by
  unfold DiskCache.get_miss_handler
  rw [obeys_bind]
  refine (obeys_perform (Io.inc_by _ _) _ _).mpr ⟨trivial, fun _ => ?_⟩
  simp only [DiskCache.path_from_key, DiskCache.path_from_hash]
  cases CacheMeta.serialize cache_meta with
  | error e => exact Or.inr (Or.inl ⟨⟨e, rfl⟩, rfl⟩)
  | ok parts =>
    obtain ⟨mi, mh⟩ := parts
    simp only
    rw [obeys_bind]
    refine (obeys_perform (Io.create_dir_all _) _ _).mpr ⟨rfl, fun _ => ?_⟩
    rw [obeys_bind]
    unfold DiskMissHandler.create_tmp
    rw [obeys_bind]
    refine (obeys_perform Io.now _ _).mpr ⟨trivial, fun nanos => ?_⟩
    rw [obeys_bind]
    refine (obeys_perform Io.process_id _ _).mpr ⟨trivial, fun pid => ?_⟩
    rw [obeys_bind]
    refine (obeys_perform (Io.create_dir_all _) _ _).mpr ⟨List.dropLast_concat, fun _ => ?_⟩
    rw [obeys_bind]
    refine (obeys_perform (Io.create_file _) _ _).mpr ⟨rfl, fun r => ?_⟩
    cases r with
    | error e => exact Or.inl rfl
    | ok f =>
      have htmp := isTmp_tmp_name (CacheHashKey.combined key).text pid (Int.toNat nanos)
      exact Or.inr (Or.inr ⟨_, rfl, Or.inr
        ⟨pid, Int.toNat nanos, rfl, ⟨rfl, rfl, rfl, rfl, _, htmp, rfl⟩, rfl, rfl⟩⟩)

theorem write_body_obeys (hm : Handles cache hash m d phase) (data : Bytes) (is_eof : Bool) :
    (m.write_body data is_eof).Obeys (Phase.allows cache hash) Phase.next
      (fun r phase => phase = .stuck ∨ (r.1 = .ok () ∧ Handles cache hash r.2 (d ++ data) phase))
      phase := by
  rcases hm with rfl | ⟨pid, nanos, rfl, hof, htmp, hlen⟩
  · exact obeys_mono (stuck_obeys _) fun _ _ h => Or.inl h
  · unfold DiskMissHandler.write_body
    rw [obeys_bind]
    refine (obeys_perform (Io.open_append _) _ _).mpr ⟨htmp, fun r => ?_⟩
    cases r with
    | error e => exact Or.inl rfl
    | ok f =>
      simp only
      rw [obeys_bind]
      refine (obeys_perform (Io.write_all _ _) _ _).mpr ⟨rfl, fun r => ?_⟩
      cases r with
      | error e => exact Or.inl rfl
      | ok _ =>
        have hdone : Handles cache hash
            { m with tmp_bytes_written := m.tmp_bytes_written + data.length } (d ++ data)
            (.idle pid nanos (d ++ data)) := by
          refine Or.inr ⟨pid, nanos, rfl, ?_, htmp, ?_⟩
          · exact ⟨hof.dir, hof.body_path, hof.meta_path, hof.hdr_path, hof.tmp_path⟩
          · rw [List.length_append, ← hlen]
        cases is_eof with
        | false => exact Or.inr ⟨rfl, hdone⟩
        | true =>
          simp only [if_true]
          rw [obeys_bind]
          exact (obeys_perform (Io.flush _) _ _).mpr ⟨trivial, fun _ => Or.inr ⟨rfl, hdone⟩⟩

theorem write_bodies_obeys (chunks : List (Bytes × Bool)) (hm : Handles cache hash m d phase) :
    (write_bodies m chunks).Obeys (Phase.allows cache hash) Phase.next
      (fun r phase => phase = .stuck ∨
        (r.1 = .ok () ∧ Handles cache hash r.2 (d ++ chunks.flatMap Prod.fst) phase)) phase := by
  induction chunks generalizing m d phase with
  | nil =>
    refine Or.inr ⟨rfl, ?_⟩
    rw [List.flatMap_nil, List.append_nil]
    exact hm
  | cons chunk chunks ih =>
    obtain ⟨data, is_eof⟩ := chunk
    unfold write_bodies
    rw [obeys_bind]
    refine obeys_mono (write_body_obeys hm data is_eof) fun r phase h => ?_
    rcases h with rfl | ⟨hr, hm'⟩
    · exact obeys_mono (stuck_obeys _) fun _ _ h => Or.inl h
    · obtain ⟨r, m'⟩ := r
      obtain rfl : r = .ok () := hr
      simp only [List.flatMap_cons]
      rw [← List.append_assoc]
      exact ih hm'

theorem drop_obeys {Q : Unit → Phase → Prop} (hm : Handles cache hash m d phase)
    (hstuck : Q () .stuck) (hgone : Q () (.gone none)) :
    m.drop.Obeys (Phase.allows cache hash) Phase.next Q phase := by
  rcases hm with rfl | ⟨pid, nanos, rfl, hof, htmp, hlen⟩
  · exact obeys_mono (stuck_obeys _) fun _ _ h => h ▸ hstuck
  · unfold DiskMissHandler.drop
    rw [obeys_bind]
    exact (obeys_perform (Io.remove_file _) _ _).mpr ⟨htmp, fun _ => hgone⟩

/-- The phase of a miss whose handler finishes. It is stuck on each way but that of the rename. -/
def finish_phase (pid nanos : Nat) (d : Bytes) : Finishing → Phase
  | .begun => .idle pid nanos d
  | .based => .idle pid nanos d
  | .placed => .committed pid nanos d
  | .meta_written => .committed pid nanos d
  | .hdr_written => .committed pid nanos d
  | .inserted => .committed pid nanos d
  | .leaving true => .committed pid nanos d
  | .left true => .gone (some d)
  | _ => .stuck

/-- A finish commits what was written, or it is stuck. -/
theorem finish_obeys (hm : Handles cache hash m d phase) :
    m.finish.Obeys (Phase.allows cache hash) Phase.next
      (fun r phase => phase = .stuck ∨ (phase = .gone (some d) ∧ r = .ok (.Created d.length)))
      phase := by
  rcases hm with rfl | ⟨pid, nanos, rfl, hof, htmp, hlen⟩
  · exact obeys_mono (stuck_obeys _) fun _ _ h => Or.inl h
  · apply obeys_beside (J := fun x phase => phase = .stuck ∨ phase = finish_phase pid nanos d x)
      (finish_course m) (Or.inr rfl)
    · rintro x phase e hat ha
      by_cases hstuck : phase = .stuck
      · subst hstuck
        exact ⟨by cases e <;> trivial, fun r => Or.inl (by cases e <;> rfl)⟩
      · obtain rfl := hat.resolve_left hstuck
        cases x
        case leaving made =>
          obtain rfl := ha
          cases made with
          | true => exact ⟨htmp, fun r => Or.inr rfl⟩
          | false => exact absurd rfl hstuck
        case left made => exact absurd ha id
        case begun =>
          obtain rfl := ha
          exact ⟨hof.dir, fun r => Or.inr rfl⟩
        case based =>
          obtain rfl := ha
          exact ⟨⟨htmp, hof.body_path⟩, fun r => Or.inr (by cases r <;> rfl)⟩
        case placed =>
          obtain rfl := ha
          exact ⟨Or.inl hof.meta_path, fun r => Or.inr (by cases r <;> rfl)⟩
        case meta_written =>
          obtain rfl := ha
          exact ⟨Or.inr hof.hdr_path, fun r => Or.inr (by cases r <;> rfl)⟩
        case hdr_written =>
          obtain rfl := ha
          exact ⟨trivial, fun r => Or.inr rfl⟩
        case inserted =>
          obtain rfl := ha
          exact ⟨trivial, fun r => Or.inr rfl⟩
        all_goals exact absurd rfl hstuck
    · rintro r x phase (⟨rfl, rfl⟩ | ⟨rfl, _⟩) (h | rfl)
      · exact Or.inl h
      · exact Or.inr ⟨rfl, by rw [hlen]⟩
      · exact Or.inl h
      · exact Or.inl rfl

/-- Every miss keeps to the calls of its phase. -/
theorem miss_obeys (x : Miss K M) :
    (x.program cache).Obeys (Phase.allows cache (CacheHashKey.combined x.key)) Phase.next
      (Ending.Fits (CacheHashKey.combined x.key)) .fresh := by
  unfold Miss.program
  rw [obeys_bind]
  refine obeys_mono (get_miss_handler_obeys x.key x.cache_meta) fun r phase h => ?_
  have hstuck : ∀ p : Prog Ending, p.Obeys (Phase.allows cache (CacheHashKey.combined x.key))
      Phase.next (Ending.Fits (CacheHashKey.combined x.key)) .stuck := by
    intro p
    refine obeys_mono (stuck_obeys p) fun a phase h => ?_
    cases a with
    | finished k written r => exact Or.inl h
    | failed => exact Or.inl h
    | dropped => trivial
  rcases h with rfl | ⟨⟨e, rfl⟩, rfl⟩ | ⟨m, rfl, hm⟩
  · exact hstuck _
  · exact Or.inr rfl
  · simp only
    rw [obeys_bind]
    refine obeys_mono (write_bodies_obeys x.chunks hm) fun r phase h => ?_
    obtain ⟨r, m'⟩ := r
    rcases h with rfl | ⟨hr, hm⟩
    · exact hstuck _
    · obtain rfl : r = .ok () := hr
      rw [List.nil_append] at hm
      cases x.finishes with
      | true =>
        simp only [if_true]
        rw [obeys_bind]
        exact obeys_mono (finish_obeys hm) fun r phase h => h.imp id fun h => ⟨rfl, h⟩
      | false =>
        simp only [Bool.false_eq_true, if_false]
        rw [obeys_bind]
        exact drop_obeys hm trivial trivial

end

/-! ## What a miss has on the disk -/

/-- The process and the reading that a phase goes by, from when the name is made. -/
def Phase.name : Phase → Option (Nat × Nat)
  | .ready pid nanos => some (pid, nanos)
  | .idle pid nanos _ => some (pid, nanos)
  | .appending pid nanos _ _ => some (pid, nanos)
  | .committed pid nanos _ => some (pid, nanos)
  | _ => none

/-- The reading that a handler goes by, from when it has its temporary file until it is dropped. -/
def Phase.reading : Phase → Option Nat
  | .idle _ nanos _ => some nanos
  | .appending _ nanos _ _ => some nanos
  | .committed _ nanos _ => some nanos
  | _ => none

/-- What a miss has put in place. -/
def Phase.wrote : Phase → Option Bytes
  | .committed _ _ d => some d
  | .gone d => d
  | _ => none

/-- What stands of a miss: its temporary file holds what it has written so far. -/
def Own (cache : DiskCache) (s : Site) (n : MissNote) : Prop :=
  match n.phase with
  | .named pid _ => pid = s.pid
  | .ready pid _ => pid = s.pid ∧ s.tree.node (cache.dir n.hash) = some .dir
  | .idle pid nanos d => pid = s.pid ∧ s.tree.content (tmp cache n.hash pid nanos) = some d
  | .appending pid nanos d f => pid = s.pid ∧ f < (s.desks n.id).opened ∧
      s.tree.node (tmp cache n.hash pid nanos) = some (.file ((s.desks n.id).files f).ino) ∧
      s.tree.content (tmp cache n.hash pid nanos) = some d
  | .committed pid _ _ => pid = s.pid ∧ s.tree.node (cache.dir n.hash) = some .dir
  | .stuck => False
  | _ => True

section
variable {cache : DiskCache} {hash : CombinedHash} {s : Site} {n : MissNote} {e : Io} {c : Choice}

theorem of_key_of_allows {phase : Phase} (h : phase.allows cache hash e) (hs : phase ≠ .stuck) :
    OfKey cache hash e := by
  have htmp : ∀ pid nanos, IsTmp (DiskMissHandler.tmp_name hash.text pid nanos) :=
    fun pid nanos => isTmp_tmp_name _ _ _
  cases phase with
  | stuck => exact absurd rfl hs
  | fresh =>
    cases e
    case create_dir_all p => exact Or.inr h
    all_goals trivial
  | named pid nanos =>
    cases e
    case create_dir_all p => exact Or.inr h
    all_goals exact absurd h id
  | ready pid nanos =>
    cases e
    case create_file p => exact ⟨_, Or.inl (htmp pid nanos), h⟩
    all_goals exact absurd h id
  | idle pid nanos d =>
    cases e
    case open_append p => exact ⟨_, htmp pid nanos, h⟩
    case create_dir_all p => exact Or.inr h
    case rename p q => exact ⟨⟨_, htmp pid nanos, h.1⟩, h.2⟩
    case remove_file p => exact ⟨_, h⟩
    all_goals trivial
  | committed pid nanos d =>
    cases e
    case write p d => exact h
    case remove_file p => exact ⟨_, h⟩
    all_goals trivial
  | _ => cases e <;> trivial

theorem own_pid {pid nanos : Nat} (h : Own cache s n) (hn : n.phase.name = some (pid, nanos)) :
    pid = s.pid := by
  unfold Own at h
  cases hphase : n.phase with
  | ready pid' nanos' =>
    rw [hphase] at h hn
    cases hn
    exact h.1
  | idle pid' nanos' d =>
    rw [hphase] at h hn
    cases hn
    exact h.1
  | appending pid' nanos' d f =>
    rw [hphase] at h hn
    cases hn
    exact h.1
  | committed pid' nanos' d =>
    rw [hphase] at h hn
    cases hn
    exact h.1
  | _ =>
    rw [hphase] at hn
    cases hn

theorem no_remove_dir_of_allows {phase : Phase} (h : phase.allows cache hash e)
    (hs : phase ≠ .stuck) : ∀ p, e ≠ .remove_dir p := by
  rintro p rfl
  cases phase with
  | stuck => exact hs rfl
  | _ => exact h

/-- A call of a miss goes by none of the temporary files of others, nor by the body unless it
is the rename. -/
theorem not_touches_of_allows {phase : Phase} {k : CombinedHash} {x : List Char}
    (h : phase.allows cache hash e) (hs : phase ≠ .stuck)
    (htmp : ∀ pid nanos, phase.name = some (pid, nanos) →
      cache.entry k x ≠ tmp cache hash pid nanos)
    (hmeta : x ≠ "meta".toList) (hhdr : x ≠ "hdr".toList)
    (hrename : (∀ p q, e ≠ .rename p q) ∨ cache.entry k x ≠ cache.entry hash "body".toList) :
    ¬ Touches e (cache.entry k x) := by
  intro htouch
  have hdirs : ∀ p, p = cache.dir hash → ¬ cache.entry k x <+: p := by
    rintro p rfl hpre
    have hlen := hpre.length_le
    simp only [DiskCache.entry, List.length_append, DiskCache.length_dir,
      List.length_singleton] at hlen
    omega
  cases phase with
  | stuck => exact hs rfl
  | fresh =>
    cases e
    case create_dir_all p => exact hdirs p h htouch
    all_goals first | exact htouch | exact h
  | timed nanos => cases e <;> first | exact htouch | exact h
  | named pid nanos =>
    cases e
    case create_dir_all p => exact hdirs p h htouch
    all_goals exact h
  | ready pid nanos =>
    cases e
    case create_file p => exact htmp pid nanos rfl (htouch.trans h)
    all_goals exact h
  | idle pid nanos d =>
    cases e
    case open_append p => exact htmp pid nanos rfl (htouch.trans h)
    case create_dir_all p => exact hdirs p h htouch
    case remove_file p => exact htmp pid nanos rfl (htouch.trans h)
    case rename p q =>
      rcases htouch with hp | hq
      · exact htmp pid nanos rfl (hp.trans h.1)
      · rcases hrename with hno | hne
        · exact hno p q rfl
        · exact hne (hq.trans h.2)
    all_goals first | exact htouch | exact h
  | appending pid nanos d f => cases e <;> first | exact htouch | exact h
  | committed pid nanos d =>
    cases e
    case write p d =>
      rcases h with h | h
      · exact hmeta (DiskCache.entry_inj.mp (htouch.trans h)).2
      · exact hhdr (DiskCache.entry_inj.mp (htouch.trans h)).2
    case remove_file p => exact htmp pid nanos rfl (htouch.trans h)
    all_goals first | exact htouch | exact h
  | gone d => exact h

theorem respond_flush (i f : Nat) (c : Choice) (s : Site) : (respond (i, .flush f) c s).2 = s := by
  rcases respond_cases (i, .flush f) c s with hr | ⟨_, hr⟩
  · exact hr
  · rw [hr]
    simp only [answer, Choice.guard]
    split <;> exact put_world s i

/-- What stands at another path stays as it is. -/
theorem content_of_other {k : CombinedHash} {x : List Char} (hown : Own cache s n)
    (h : n.phase.allows cache n.hash e) (hs : n.phase ≠ .stuck)
    (htmp : ∀ pid nanos, n.phase.name = some (pid, nanos) →
      cache.entry k x ≠ tmp cache n.hash pid nanos)
    (hno : ¬ Touches e (cache.entry k x)) :
    (respond (n.id, e) c s).2.tree.content (cache.entry k x) =
      s.tree.content (cache.entry k x) := by
  by_cases hf : ∃ f, e = .flush f
  · obtain ⟨f, rfl⟩ := hf
    rw [respond_flush]
  · apply content_respond hno
    intro f hmem hnode
    unfold Own at hown
    cases hphase : n.phase with
    | appending pid nanos d g =>
      rw [hphase] at h hown htmp
      cases e
      case write_all g' b =>
        obtain rfl : g' = g := h
        obtain rfl : f = g' := List.mem_singleton.mp hmem
        obtain ⟨_, _, hfile, _⟩ := hown
        exact htmp pid nanos rfl (s.tree.sound.single _ _ _ hnode hfile)
      all_goals exact h
    | idle pid nanos d =>
      rw [hphase] at h
      cases e
      case flush g => exact hf ⟨g, rfl⟩
      all_goals first | exact absurd hmem List.not_mem_nil | exact h
    | stuck => exact hs hphase
    | _ =>
      rw [hphase] at h
      cases e <;> first | exact absurd hmem List.not_mem_nil | exact h

/-! ## What a miss does next -/

/-- What a call by open numbers leads to when it does not fail. -/
theorem respond_spec (e : Io) (i : Nat) (Q : e.Reply → World → Prop) (hc : Calm c)
    (hopen : ∀ f ∈ handles e, f < (s.desks i).opened)
    (h : wp answer Calm (io.call e) Q (s.world i)) :
    ∃ w, (respond (i, e) c s).2 = s.put i w ∧ Q (respond (i, e) c s).1 w := by
  rw [respond_of_open hopen]
  exact ⟨_, rfl, h c hc⟩

theorem no_handles {i : Nat} (h : handles e = []) : ∀ f ∈ handles e, f < (s.desks i).opened := by
  rw [h]
  exact fun f hf => absurd hf List.not_mem_nil

theorem own_named {pid nanos : Nat} (hlaid : cache.Laid s.tree)
    (hphase : n.phase = .named pid nanos) (hown : Own cache s n)
    (h : n.phase.allows cache n.hash e) (hc : Calm c) :
    Own cache (respond (n.id, e) c s).2
      { n with phase := n.phase.next e (respond (n.id, e) c s).1 } := by
  unfold Own at hown
  rw [hphase] at h hown ⊢
  cases e
  case create_dir_all p =>
    obtain rfl : p = cache.dir n.hash := h
    obtain ⟨w, hput, hdir⟩ := respond_spec (.create_dir_all (cache.dir n.hash)) n.id
      (fun _ w => w.tree.node (cache.dir n.hash) = some .dir) hc (no_handles rfl)
      (create_dir_all_spec (Leads.refl hlaid) DiskCache.dir_mem_dirs fun w _ hd _ _ => hd)
    refine ⟨hown.trans pid_respond.symm, ?_⟩
    rw [hput]
    exact hdir
  all_goals exact absurd h id

/-- A handler gets a temporary file with nothing in it. -/
theorem own_ready {pid nanos : Nat} (hlaid : cache.Laid s.tree)
    (hphase : n.phase = .ready pid nanos) (hown : Own cache s n)
    (h : n.phase.allows cache n.hash e) (hc : Calm c) :
    Own cache (respond (n.id, e) c s).2
      { n with phase := n.phase.next e (respond (n.id, e) c s).1 } := by
  unfold Own at hown
  rw [hphase] at h hown ⊢
  obtain ⟨hpid, hd⟩ := hown
  cases e
  case create_file p =>
    obtain rfl : p = tmp cache n.hash pid nanos := h
    have hbody : tmp cache n.hash pid nanos ∉ cache.bodies := by
      intro hb
      exact (isTmp_tmp_name n.hash.text pid nanos).ne (by decide) (DiskCache.entry_mem_bodies.mp hb)
    have hparent : s.tree.HasParent (tmp cache n.hash pid nanos) :=
      ⟨DiskCache.entry_ne_nil, by rw [tmp, DiskCache.dropLast_entry]; exact hd⟩
    obtain ⟨w, hput, ⟨f, hf⟩, hcontent⟩ := respond_spec (.create_file (tmp cache n.hash pid nanos))
      n.id (fun r w => (∃ f, r = .ok f) ∧ w.tree.content (tmp cache n.hash pid nanos) = some [])
      hc (no_handles rfl)
      (create_spec (Leads.refl hlaid) DiskCache.entry_mem_files hbody hparent fun f w l =>
        ⟨⟨f, rfl⟩, by rw [l.content]; exact Function.update_self ..⟩)
    rw [hf]
    refine ⟨hpid.trans pid_respond.symm, ?_⟩
    rw [hput]
    exact hcontent
  all_goals exact absurd h id

/-- Where something stands in the directory of a key, the directory is there. -/
theorem dir_of_content {x : List Char} {d : Bytes}
    (h : s.tree.content (cache.entry hash x) = some d) :
    s.tree.node (cache.dir hash) = some .dir := by
  obtain ⟨i, hi⟩ := content_isSome.mp (Option.isSome_iff_exists.mpr ⟨d, h⟩)
  have hparent := (node_parent hi DiskCache.entry_ne_nil).2
  rwa [DiskCache.dropLast_entry] at hparent

/-- The temporary file is opened at its end, or becomes the body, or goes. -/
theorem own_idle {pid nanos : Nat} {d : Bytes} (hlaid : cache.Laid s.tree)
    (hphase : n.phase = .idle pid nanos d) (hown : Own cache s n)
    (h : n.phase.allows cache n.hash e) (hc : Calm c) :
    Own cache (respond (n.id, e) c s).2
      { n with phase := n.phase.next e (respond (n.id, e) c s).1 } := by
  unfold Own at hown
  rw [hphase] at h hown ⊢
  obtain ⟨hpid, hcontent⟩ := hown
  have hstart : Leads cache (s.world n.id) (s.world n.id) s.tree.content 0 := Leads.refl hlaid
  cases e
  case open_append p =>
    obtain rfl : p = tmp cache n.hash pid nanos := h
    obtain ⟨w, hput, hreply, i, hnode, rfl⟩ := respond_spec
      (.open_append (tmp cache n.hash pid nanos)) n.id
      (fun r w => r = .ok (s.desks n.id).opened ∧
        ∃ i, s.tree.node (tmp cache n.hash pid nanos) = some (.file i) ∧
          w = (s.world n.id).openIno i) hc (no_handles rfl)
      (open_append_spec hstart DiskCache.entry_mem_files
        (fun hnone => absurd (hcontent.symm.trans hnone) (by simp))
        fun i d _ hnode _ => ⟨rfl, i, hnode, rfl⟩)
    rw [hreply]
    refine ⟨hpid.trans pid_respond.symm, ?_, ?_, ?_⟩
    · rw [hput, Site.desks_put_self]
      exact Nat.lt_succ_self _
    · rw [hput, Site.desks_put_self]
      simp only [World.openIno, Site.world, Function.update_self]
      exact hnode
    · rw [hput]
      exact hcontent
  case flush f =>
    rw [respond_flush]
    exact ⟨hpid, hcontent⟩
  case create_dir_all p =>
    obtain rfl : p = cache.dir n.hash := h
    obtain ⟨w, hput, hsame⟩ := respond_spec (.create_dir_all (cache.dir n.hash)) n.id
      (fun _ w => w.tree.content = s.tree.content) hc (no_handles rfl)
      (create_dir_all_spec hstart DiskCache.dir_mem_dirs fun w l _ _ _ => l.content)
    refine ⟨hpid.trans pid_respond.symm, ?_⟩
    rw [hput, Site.tree_put, hsame]
    exact hcontent
  case rename p q =>
    obtain ⟨rfl, rfl⟩ := h
    have hdir : s.tree.node (cache.dir n.hash) = some .dir := dir_of_content hcontent
    obtain ⟨w, hput, hreply⟩ := respond_spec
      (.rename (tmp cache n.hash pid nanos) (cache.entry n.hash "body".toList)) n.id
      (fun r _ => r = .ok ()) hc (no_handles rfl)
      (rename_spec hstart (isTmp_tmp_name n.hash.text pid nanos)
        (fun hnone => absurd (hcontent.symm.trans hnone) (by simp)) fun _ _ _ _ => rfl)
    rw [hreply]
    exact ⟨hpid.trans pid_respond.symm, dir_respond (by simp) hdir⟩
  case remove_file p => trivial
  all_goals exact absurd h id

/-- A chunk comes after the ones before it. -/
theorem own_appending {pid nanos f : Nat} {d : Bytes} (hlaid : cache.Laid s.tree)
    (hphase : n.phase = .appending pid nanos d f) (hown : Own cache s n)
    (h : n.phase.allows cache n.hash e) (hc : Calm c) :
    Own cache (respond (n.id, e) c s).2
      { n with phase := n.phase.next e (respond (n.id, e) c s).1 } := by
  unfold Own at hown
  rw [hphase] at h hown ⊢
  obtain ⟨hpid, hopen, hfile, hcontent⟩ := hown
  cases e
  case write_all g b =>
    obtain rfl : g = f := h
    have hbody : tmp cache n.hash pid nanos ∉ cache.bodies := by
      intro hb
      exact (isTmp_tmp_name n.hash.text pid nanos).ne (by decide) (DiskCache.entry_mem_bodies.mp hb)
    have hstart : Leads cache (s.world n.id) (s.world n.id) s.tree.content 0 := Leads.refl hlaid
    obtain ⟨w, hput, hreply, hmore⟩ := respond_spec (.write_all g b) n.id
      (fun r w => r = .ok () ∧ w.tree.content (tmp cache n.hash pid nanos) = some (d ++ b)) hc
      (fun f hf => by rw [List.mem_singleton.mp hf]; exact hopen)
      (write_all_spec hstart hbody hfile hcontent fun w l =>
        ⟨rfl, by rw [l.content]; exact Function.update_self ..⟩)
    rw [hreply]
    refine ⟨hpid.trans pid_respond.symm, ?_⟩
    rw [hput]
    exact hmore
  all_goals exact absurd h id

theorem own_committed {pid nanos : Nat} {d : Bytes} (hlaid : cache.Laid s.tree)
    (hphase : n.phase = .committed pid nanos d) (hown : Own cache s n)
    (h : n.phase.allows cache n.hash e) (hc : Calm c) :
    Own cache (respond (n.id, e) c s).2
      { n with phase := n.phase.next e (respond (n.id, e) c s).1 } := by
  unfold Own at hown
  rw [hphase] at h hown ⊢
  obtain ⟨hpid, hdir⟩ := hown
  have hstart : Leads cache (s.world n.id) (s.world n.id) s.tree.content 0 := Leads.refl hlaid
  have hparent : ∀ x, s.tree.HasParent (cache.entry n.hash x) :=
    fun x => ⟨DiskCache.entry_ne_nil, by rw [DiskCache.dropLast_entry]; exact hdir⟩
  cases e
  case write p b =>
    have hreply : (respond (n.id, .write p b) c s).1 = .ok () := by
      rcases h with rfl | rfl
      · obtain ⟨w, _, hreply⟩ := respond_spec (.write (cache.entry n.hash "meta".toList) b) n.id
          (fun r _ => r = .ok ()) hc (no_handles rfl)
          (write_spec hstart DiskCache.entry_mem_files DiskCache.meta_not_mem_bodies (hparent _)
            fun _ _ => rfl)
        exact hreply
      · obtain ⟨w, _, hreply⟩ := respond_spec (.write (cache.entry n.hash "hdr".toList) b) n.id
          (fun r _ => r = .ok ()) hc (no_handles rfl)
          (write_spec hstart DiskCache.entry_mem_files DiskCache.hdr_not_mem_bodies (hparent _)
            fun _ _ => rfl)
        exact hreply
    rw [hreply]
    exact ⟨hpid.trans pid_respond.symm, dir_respond (by simp) hdir⟩
  case inc_by k m => exact ⟨hpid.trans pid_respond.symm, dir_respond (by simp) hdir⟩
  case size_bytes_add m => exact ⟨hpid.trans pid_respond.symm, dir_respond (by simp) hdir⟩
  case remove_file p => trivial
  all_goals exact absurd h id

/-- A call of a miss keeps what stands of it. -/
theorem own_respond (hlaid : cache.Laid s.tree) (hown : Own cache s n)
    (h : n.phase.allows cache n.hash e) (hc : Calm c) :
    Own cache (respond (n.id, e) c s).2
      { n with phase := n.phase.next e (respond (n.id, e) c s).1 } := by
  cases hphase : n.phase with
  | named pid nanos => exact hphase ▸ own_named hlaid hphase hown h hc
  | ready pid nanos => exact hphase ▸ own_ready hlaid hphase hown h hc
  | idle pid nanos d => exact hphase ▸ own_idle hlaid hphase hown h hc
  | appending pid nanos d f => exact hphase ▸ own_appending hlaid hphase hown h hc
  | committed pid nanos d => exact hphase ▸ own_committed hlaid hphase hown h hc
  | fresh =>
    rw [hphase] at h
    cases e <;> trivial
  | timed nanos =>
    rw [hphase] at h
    cases e
    case process_id =>
      have hpid : (respond (n.id, .process_id) c s).1 = s.pid := rfl
      rw [hpid]
      exact pid_respond.symm
    all_goals exact absurd h id
  | gone d =>
    rw [hphase] at h
    exact absurd h (by cases e <;> exact id)
  | stuck =>
    unfold Own at hown
    rw [hphase] at hown
    exact absurd hown id

/-- What stands of one miss stays when another one makes a call. -/
theorem own_of_other {m : MissNote} (hown : Own cache s n)
    (h : n.phase.allows cache n.hash e) (hs : n.phase ≠ .stuck) (hm : Own cache s m)
    (hid : m.id ≠ n.id) (hapart : m.hash = n.hash → ∀ nanos, m.phase.reading = some nanos →
      n.phase.name.map Prod.snd ≠ some nanos) : Own cache (respond (n.id, e) c s).2 m := by
  have hdir : s.tree.node (cache.dir m.hash) = some .dir →
      (respond (n.id, e) c s).2.tree.node (cache.dir m.hash) = some .dir :=
    dir_respond (no_remove_dir_of_allows h hs)
  -- the temporary file is another one
  have hother : ∀ pid nanos, pid = s.pid → m.phase.reading = some nanos → ∀ pid' nanos',
      n.phase.name = some (pid', nanos') →
      tmp cache m.hash pid nanos ≠ tmp cache n.hash pid' nanos' := by
    intro pid nanos hpid hread pid' nanos' hname heq
    rw [hpid, own_pid hown hname] at heq
    obtain ⟨hhash, rfl⟩ := tmp_inj heq
    exact hapart hhash nanos hread (by rw [hname]; rfl)
  have hno : ∀ pid nanos, pid = s.pid → m.phase.reading = some nanos →
      ¬ Touches e (tmp cache m.hash pid nanos) := by
    intro pid nanos hpid hread
    have htmp := isTmp_tmp_name m.hash.text pid nanos
    apply not_touches_of_allows h hs (hother pid nanos hpid hread)
    · exact htmp.ne (by decide)
    · exact htmp.ne (by decide)
    · exact Or.inr (tmp_ne (by decide))
  have hcontent : ∀ pid nanos, pid = s.pid → m.phase.reading = some nanos →
      (respond (n.id, e) c s).2.tree.content (tmp cache m.hash pid nanos) =
        s.tree.content (tmp cache m.hash pid nanos) := by
    intro pid nanos hpid hread
    exact content_of_other hown h hs (hother pid nanos hpid hread) (hno pid nanos hpid hread)
  unfold Own at hm ⊢
  cases hphase : m.phase with
  | named pid nanos =>
    rw [hphase] at hm
    exact hm.trans pid_respond.symm
  | ready pid nanos =>
    rw [hphase] at hm
    exact ⟨hm.1.trans pid_respond.symm, hdir hm.2⟩
  | idle pid nanos d =>
    rw [hphase] at hm hcontent
    exact ⟨hm.1.trans pid_respond.symm, (hcontent pid nanos hm.1 rfl).trans hm.2⟩
  | appending pid nanos d f =>
    rw [hphase] at hm hcontent hno
    obtain ⟨hpid, hopen, hfile, hd⟩ := hm
    simp only
    rw [desks_respond_of_ne hid, node_respond (hno pid nanos hpid rfl), hcontent pid nanos hpid rfl]
    exact ⟨hpid.trans pid_respond.symm, hopen, hfile, hd⟩
  | committed pid nanos d =>
    rw [hphase] at hm
    exact ⟨hm.1.trans pid_respond.symm, hdir hm.2⟩
  | stuck =>
    rw [hphase] at hm
    exact absurd hm id
  | fresh => trivial
  | timed nanos => trivial
  | gone d => trivial

/-- A handler that goes by a reading has gone by it before, or gets its file now. -/
theorem reading_next {phase : Phase} {r : e.Reply} {nanos : Nat}
    (h : (phase.next e r).reading = some nanos) : phase.reading = some nanos ∨
      ((∃ p, e = .create_file p) ∧ phase.name.map Prod.snd = some nanos) := by
  cases phase with
  | fresh => cases e <;> cases h
  | timed t => cases e <;> cases h
  | named pid t => cases e <;> cases h
  | ready pid t =>
    cases e
    case create_file p =>
      cases r with
      | ok f => exact Or.inr ⟨⟨p, rfl⟩, h⟩
      | error x => cases h
    all_goals cases h
  | idle pid t d =>
    left
    cases e
    case open_append p =>
      cases r with
      | ok f => exact h
      | error x => cases h
    case rename p q =>
      cases r with
      | ok f => exact h
      | error x => cases h
    case remove_file p => cases h
    all_goals exact h
  | appending pid t d f =>
    left
    cases e
    case write_all g b =>
      cases r with
      | ok f => exact h
      | error x => cases h
    all_goals exact h
  | committed pid t d =>
    left
    cases e
    case write p b =>
      cases r with
      | ok f => exact h
      | error x => cases h
    case remove_file p => cases h
    all_goals exact h
  | gone d => cases e <;> cases h
  | stuck => cases e <;> cases h

/-- What a phase goes by is a reading, from when it has its file on. -/
theorem reading_of_name {phase : Phase} {hash : CombinedHash} {pid nanos : Nat}
    (h : phase.allows cache hash e) (hn : phase.name = some (pid, nanos)) :
    phase.reading = some nanos ∨ ∃ p, e = .create_file p := by
  cases phase with
  | ready pid' t =>
    right
    cases e
    case create_file p => exact ⟨p, rfl⟩
    all_goals exact absurd h id
  | idle pid' t d =>
    cases hn
    exact Or.inl rfl
  | appending pid' t d f =>
    cases hn
    exact Or.inl rfl
  | committed pid' t d =>
    cases hn
    exact Or.inl rfl
  | _ => cases hn

/-- What was put in its place stays on the note, and what comes is put there now. -/
theorem wrote_next {phase : Phase} {hash : CombinedHash} {r : e.Reply}
    (h : phase.allows cache hash e) (hs : phase.next e r ≠ .stuck) :
    (phase.next e r).wrote = phase.wrote ∨
      ∃ pid nanos d p q, phase = .idle pid nanos d ∧ e = .rename p q ∧
        phase.next e r = .committed pid nanos d := by
  cases phase with
  | fresh => cases e <;> exact Or.inl rfl
  | timed t => cases e <;> exact Or.inl rfl
  | named pid t => cases e <;> exact Or.inl rfl
  | ready pid t =>
    cases e
    case create_file p => cases r <;> exact Or.inl rfl
    all_goals exact absurd h id
  | idle pid t d =>
    cases e
    case open_append p => cases r <;> exact Or.inl rfl
    case rename p q =>
      cases r with
      | ok f => exact Or.inr ⟨pid, t, d, p, q, rfl, rfl, rfl⟩
      | error x => exact absurd rfl hs
    all_goals exact Or.inl rfl
  | appending pid t d f =>
    cases e
    case write_all g b => cases r <;> exact Or.inl rfl
    all_goals exact absurd h id
  | committed pid t d =>
    cases e
    case write p b =>
      cases r with
      | ok f => exact Or.inl rfl
      | error x => exact absurd rfl hs
    all_goals exact Or.inl rfl
  | gone d => exact absurd h (by cases e <;> exact id)
  | stuck =>
    refine absurd ?_ hs
    cases e <;> rfl

theorem wrote_rename {phase : Phase} {hash : CombinedHash} {p q : PathBuf} {r : Except IoError Unit}
    (h : phase.allows cache hash (.rename p q)) (hs : phase.next (.rename p q) r ≠ .stuck) :
    phase.wrote = none ∧ (phase.next (.rename p q) r).wrote ≠ none := by
  cases phase with
  | idle pid nanos d =>
    refine ⟨rfl, ?_⟩
    cases r with
    | ok _ => exact Option.some_ne_none d
    | error x => exact absurd rfl hs
  | stuck => exact absurd rfl hs
  | _ => exact absurd h id

end

end edge_cdn_store.misses
