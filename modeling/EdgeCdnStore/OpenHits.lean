-- A hit that is being read while writers come and go. The hit has its file open, and
-- a rename or a removal takes the path away and leaves the file alone. The manual
-- transfer does not: it writes into the file that stands at the path.
import EdgeCdnStore.Sites
import EdgeCdnStore.Operations

open edge_cdn_store.programs edge_cdn_store.programs.Program edge_cdn_store.io
open edge_cdn_store.file_tree edge_cdn_store.file_tree.FileTree
open edge_cdn_store.logger edge_cdn_store.disk_cache edge_cdn_store.tasks
open edge_cdn_store.pools edge_cdn_store.sites edge_cdn_store.courses
open edge_cdn_store.operations (small_cache small_hash small_handler)

namespace edge_cdn_store.open_hits

/-! ## The reader -/

section
variable {K M : Type} [CacheHashKey K] [CacheMeta M]

/-- Call `read_body` some number of times, whatever it gives. -/
def read_bodies : Nat → DiskHitHandler → Prog (List (Result (Option Bytes)))
  | 0, _ => return []
  | n + 1, hit => do
    let (r, hit) ← hit.read_body
    let rest ← read_bodies n hit
    return r :: rest

/-- The bytes of a result. -/
def bytes_of : Result (Option Bytes) → Bytes
  | .ok (some b) => b
  | _ => []

/-- All that was delivered. -/
def delivered (rs : List (Result (Option Bytes))) : Bytes := rs.flatMap bytes_of

/-- How a session ends. -/
inductive Ending
  | written
  | missed
  | reads (rs : List (Result (Option Bytes)))
  deriving DecidableEq

/-- A lookup, and reads from the hit that it gives. -/
def reader (M : Type) [CacheMeta M] (cache : DiskCache) (key : K) (n : Nat) : Prog Ending := do
  match ← cache.lookup (M := M) key with
  | .ok (some (_, hit)) => return .reads (← read_bodies n hit)
  | _ => return .missed

/-- A hit to be read, or any other operation. -/
inductive Job (K M : Type)
  | reader (key : K) (n : Nat)
  | task (t : Task K M)

def Job.program (cache : DiskCache) : Job K M → Prog Ending
  | .reader key n => open_hits.reader M cache key n
  | .task t => do
    let _ ← t.program cache
    return .written

/-- The handler of a task is one of its key, and no task writes to a temporary file. -/
def Job.Fits (cache : DiskCache) : Job K M → Prop
  | .reader _ _ => True
  | .task (.write_body _ _ _ _) => False
  | .task t => t.Of cache

instance (cache : DiskCache) : (j : Job K M) → Decidable (j.Fits cache)
  | .reader _ _ => isTrue trivial
  | .task (.write_body _ _ _ _) => isFalse id
  | .task (.lookup key) => inferInstanceAs (Decidable ((Task.lookup key : Task K M).Of cache))
  | .task (.get_miss_handler key cache_meta) =>
    inferInstanceAs (Decidable ((Task.get_miss_handler key cache_meta : Task K M).Of cache))
  | .task (.finish hash m) => inferInstanceAs (Decidable ((Task.finish hash m : Task K M).Of cache))
  | .task (.drop_handler hash m) =>
    inferInstanceAs (Decidable ((Task.drop_handler hash m : Task K M).Of cache))
  | .task (.purge key purge_type) =>
    inferInstanceAs (Decidable ((Task.purge key purge_type : Task K M).Of cache))
  | .task (.update_meta key cache_meta) =>
    inferInstanceAs (Decidable ((Task.update_meta key cache_meta : Task K M).Of cache))

/-- How far a reader has come: it has the body open, it knows the length, and it has got some
of the bytes. It is dry when a read gave nothing. -/
inductive Phase
  | other
  | asking
  | opened (f : Nat)
  | reading (f len : Nat) (got : Bytes) (dry : Bool)
  deriving DecidableEq

def Job.phase : Job K M → Phase
  | .reader _ _ => .asking
  | .task _ => .other

/-- The calls of a key, except the writes to a temporary file. -/
def Quiet (cache : DiskCache) (e : Io) : Prop :=
  (∃ hash, OfKey cache hash e) ∧ ∀ f d, e ≠ .write_all f d

/-- What a session may call. A reader reads no more than is left. -/
def Phase.allows (cache : DiskCache) (phase : Phase) (e : Io) : Prop :=
  Quiet cache e ∧ match phase, e with
    | .other, _ => True
    | .asking, .create_dir_all _ => True
    | .asking, .read _ => True
    | .asking, .open_file p => p ∈ cache.bodies
    | .asking, .join_order => True
    | .asking, .inc_by _ _ => True
    | .opened _, .read _ => True
    | .opened f, .file_len g => g = f
    | .opened _, .inc_by _ _ => True
    | .reading _ _ _ _, .inc_by _ _ => True
    | .reading f len got dry, .read_file g n =>
      g = f ∧ dry = false ∧ 0 < n ∧ got.length + n ≤ len
    | _, _ => False

/-- A lookup that has lost one of its files gives no hit any more. -/
def Phase.next : Phase → (e : Io) → e.Reply → Phase
  | .asking, .open_file _, .ok f => .opened f
  | .asking, .read _, .error _ => .other
  | .opened _, .read _, .error _ => .other
  | .opened f, .file_len _, .ok len => .reading f len [] false
  | .opened _, .file_len _, .error _ => .other
  | .reading f len got dry, .read_file _ _, .ok d =>
    if d = [] then .reading f len got true else .reading f len (got ++ d) dry
  | phase, _, _ => phase

/-- What the results of a reader say, when it had `first` before them and has `got` of `len`
bytes after them. Where it reports the end, it has got that much before, and it has them
all, or a read gave nothing. -/
structure Says (first got : Bytes) (len : Nat) (dry : Bool) (rs : List (Result (Option Bytes))) :
    Prop where
  all : first ++ delivered rs = got
  before : ∀ pre post, rs = pre ++ .ok none :: post →
    first ++ delivered pre = got ∧ (len ≤ got.length ∨ dry = true)

def Ending.Fits : Ending → Phase → Prop
  | .reads rs, phase => ∃ f len got dry, phase = .reading f len got dry ∧ Says [] got len dry rs
  | _, _ => True

/-! ## What a reader calls -/

variable {cache : DiskCache} {hash : CombinedHash}

/-- A hit that is through gives no more bytes, and asks for none. -/
theorem read_bodies_done (n : Nat) (hit : DiskHitHandler) (hseek : hit.pending_seek = false)
    (hend : hit.range_end ≤ hit.pos) :
    read_bodies n hit = pure (List.replicate n (.ok none)) := by
  induction n with
  | zero => rfl
  | succ n ih =>
    unfold read_bodies DiskHitHandler.read_body DiskHitHandler.read_chunk
    simp only [hseek, Bool.false_eq_true, if_false, if_pos hend, pure_bind, ih]
    rfl

theorem delivered_replicate (n : Nat) : delivered (List.replicate n (.ok none)) = [] := by
  induction n with
  | zero => rfl
  | succ n ih => exact ih

theorem Says.done {got : Bytes} {len : Nat} {dry : Bool} (n : Nat)
    (h : len ≤ got.length ∨ dry = true) : Says got got len dry (List.replicate n (.ok none)) where
  all := by rw [delivered_replicate, List.append_nil]
  before pre post hpre := by
    refine ⟨?_, h⟩
    have hall := delivered_replicate n
    rw [hpre, delivered, List.flatMap_append] at hall
    rw [delivered, (List.append_eq_nil_iff.mp hall).1, List.append_nil]

theorem Says.cons {first got : Bytes} {len : Nat} {dry : Bool} {r : Result (Option Bytes)}
    {rs : List (Result (Option Bytes))} (h : Says (first ++ bytes_of r) got len dry rs)
    (hr : r ≠ .ok none) : Says first got len dry (r :: rs) where
  all := by
    rw [← h.all, delivered, List.flatMap_cons, List.append_assoc]
    rfl
  before pre post hpre := by
    cases pre with
    | nil => exact absurd (List.cons.inj hpre).1 hr
    | cons r' pre =>
      obtain ⟨rfl, hrest⟩ := List.cons.inj hpre
      have hbefore := h.before pre post hrest
      rw [List.append_assoc] at hbefore
      rw [delivered, List.flatMap_cons]
      exact hbefore

/-- What one read gives, and what is noted of it. -/
theorem read_body_obeys {hit : DiskHitHandler} {got : Bytes}
    {Q : Result (Option Bytes) × DiskHitHandler → Phase → Prop}
    (hseek : hit.pending_seek = false) (hchunk : 0 < hit.chunk) (hpos : hit.pos = got.length)
    (hleft : hit.pos < hit.range_end)
    (herror : ∀ e, Q (.error e, hit) (.reading hit.file hit.range_end got false))
    (hdry : Q (.ok none, { hit with pos := hit.range_end })
      (.reading hit.file hit.range_end got true))
    (hsome : ∀ buf, buf ≠ [] → Q (.ok (some buf), { hit with pos := hit.pos + buf.length })
      (.reading hit.file hit.range_end (got ++ buf) false)) :
    hit.read_body.Obeys (Phase.allows cache) Phase.next Q
      (.reading hit.file hit.range_end got false) := by
  unfold DiskHitHandler.read_body DiskHitHandler.read_chunk
  simp only [hseek, Bool.false_eq_true, if_false, if_neg (Nat.not_le.mpr hleft)]
  rw [obeys_bind]
  have hquiet : Quiet cache (.read_file hit.file (min hit.chunk (hit.range_end - hit.pos))) :=
    ⟨⟨⟨"0000".toList, by decide, by decide⟩, trivial⟩, by simp⟩
  have hsome_left : 0 < min hit.chunk (hit.range_end - hit.pos) := by omega
  refine (obeys_perform (Io.read_file _ _) _ _).mpr
    ⟨⟨hquiet, rfl, rfl, hsome_left, by omega⟩, fun r => ?_⟩
  cases r with
  | error e => exact herror _
  | ok buf =>
    by_cases hbuf : buf = []
    · subst hbuf
      simpa [Phase.next, hseek] using hdry
    · have hlen : buf.length ≠ 0 := fun h => hbuf (List.length_eq_zero_iff.mp h)
      simp only [if_neg hlen, obeys_pure, Phase.next, if_neg hbuf]
      simpa only [hseek] using hsome buf hbuf

theorem read_bodies_obeys (n : Nat) {hit : DiskHitHandler} {got : Bytes}
    (hseek : hit.pending_seek = false) (hchunk : 0 < hit.chunk) (hpos : hit.pos = got.length) :
    (read_bodies n hit).Obeys (Phase.allows cache) Phase.next
      (fun rs phase => ∃ got' dry, phase = .reading hit.file hit.range_end got' dry ∧
        Says got got' hit.range_end dry rs) (.reading hit.file hit.range_end got false) := by
  induction n generalizing hit got with
  | zero =>
    refine ⟨got, false, rfl, List.append_nil got, fun pre post hpre => ?_⟩
    cases pre <;> cases hpre
  | succ n ih =>
    by_cases hend : hit.range_end ≤ hit.pos
    · rw [read_bodies_done (n + 1) hit hseek hend]
      exact ⟨got, false, rfl, .done (n + 1) (Or.inl (hpos ▸ hend))⟩
    · unfold read_bodies
      rw [obeys_bind]
      apply read_body_obeys hseek hchunk hpos (Nat.not_le.mp hend)
      · intro e
        rw [obeys_bind]
        refine obeys_mono (ih hseek hchunk hpos) fun rs phase h => ?_
        obtain ⟨got', dry, hphase, hsays⟩ := h
        have hnone : got ++ bytes_of (.error e) = got := List.append_nil got
        exact ⟨got', dry, hphase, .cons (hnone.symm ▸ hsays) (by simp)⟩
      · rw [obeys_bind]
        simp only [read_bodies_done n { hit with pos := hit.range_end } hseek le_rfl]
        exact ⟨got, true, rfl, .done (n + 1) (Or.inr rfl)⟩
      · intro buf hbuf
        rw [obeys_bind]
        have hpos' : hit.pos + buf.length = (got ++ buf).length := by rw [hpos, List.length_append]
        refine obeys_mono (@ih { hit with pos := hit.pos + buf.length } _ hseek hchunk hpos')
          fun rs phase h => ?_
        obtain ⟨got', dry, hphase, hsays⟩ := h
        exact ⟨got', dry, hphase, .cons hsays (by simp)⟩

/-- Where a lookup stands that has lost none of its files so far. -/
def opened_phase (z : Option (Except IoError Nat)) : Phase :=
  (z.bind Except.toOption).elim .asking .opened

/-- Where a lookup stands, from what it has got of the metadata, the header and the body. -/
def asked_phase : Option (Except IoError Bytes) → Option (Except IoError Bytes) →
    Option (Except IoError Nat) → Phase
  | some (.error _), _, _ => .other
  | _, some (.error _), _ => .other
  | _, _, z => opened_phase z

theorem asked_phase_cases (x y : Option (Except IoError Bytes)) (z : Option (Except IoError Nat)) :
    asked_phase x y z = .other ∨ asked_phase x y z = opened_phase z := by
  unfold asked_phase
  split
  · exact Or.inl rfl
  · exact Or.inl rfl
  · exact Or.inr rfl

theorem allows_read {p : PathBuf} (hquiet : Quiet cache (.read p))
    (x y : Option (Except IoError Bytes)) (z : Option (Except IoError Nat)) :
    (asked_phase x y z).allows cache (.read p) := by
  rcases asked_phase_cases x y z with h | h
  · rw [h]
    exact ⟨hquiet, trivial⟩
  · rw [h]
    unfold opened_phase
    cases z.bind Except.toOption <;> exact ⟨hquiet, trivial⟩

theorem opened_phase_next (z : Option (Except IoError Nat)) (p : PathBuf)
    (r : Except IoError Bytes) :
    (opened_phase z).next (.read p) r = asked_phase (some r) none z := by
  unfold opened_phase
  cases r <;> cases hz : z.bind Except.toOption <;> simp [Phase.next, asked_phase, opened_phase, hz]

theorem next_part (p : PathBuf) (r : Except IoError Bytes) (y : Option (Except IoError Bytes))
    (z : Option (Except IoError Nat)) :
    (asked_phase none y z).next (.read p) r = asked_phase (some r) y z := by
  cases y with
  | none => exact opened_phase_next z p r
  | some y =>
    cases y with
    | error e => cases r <;> rfl
    | ok d => cases r <;> exact opened_phase_next z p _

theorem next_header (p : PathBuf) (r : Except IoError Bytes) (x : Option (Except IoError Bytes))
    (z : Option (Except IoError Nat)) :
    (asked_phase x none z).next (.read p) r = asked_phase x (some r) z := by
  have hlast : (opened_phase z).next (.read p) r = asked_phase none (some r) z := by
    rw [opened_phase_next]
    cases r <;> rfl
  cases x with
  | none => exact hlast
  | some x =>
    cases x with
    | error e => rfl
    | ok d => cases r <;> exact hlast

theorem next_body (p : PathBuf) (r : Except IoError Nat) (x y : Option (Except IoError Bytes)) :
    (asked_phase x y none).next (.open_file p) r = asked_phase x y (some r) := by
  rcases x with _ | _ | _ <;> rcases y with _ | _ | _ <;> cases r <;> rfl

theorem allows_open {p : PathBuf} (hquiet : Quiet cache (.open_file p)) (hp : p ∈ cache.bodies)
    (x y : Option (Except IoError Bytes)) :
    (asked_phase x y none).allows cache (.open_file p) := by
  rcases x with _ | _ | _ <;> rcases y with _ | _ | _ <;> first
    | exact ⟨hquiet, trivial⟩
    | exact ⟨hquiet, hp⟩

theorem allows_inc {k : Counter} {n : Nat} (hquiet : Quiet cache (.inc_by k n))
    (x y : Option (Except IoError Bytes)) (z : Option (Except IoError Nat)) :
    (asked_phase x y z).allows cache (.inc_by k n) := by
  rcases asked_phase_cases x y z with h | h
  · rw [h]
    exact ⟨hquiet, trivial⟩
  · rw [h]
    unfold opened_phase
    cases z.bind Except.toOption <;> exact ⟨hquiet, trivial⟩

/-- A hit that a lookup gives is at the start of its file, and the length is known. -/
def Given (r : Result (Option (M × DiskHitHandler))) (phase : Phase) : Prop :=
  ∀ cache_meta hit, r = .ok (some (cache_meta, hit)) → hit.pending_seek = false ∧ 0 < hit.chunk ∧
    hit.pos = 0 ∧ phase = .reading hit.file hit.range_end [] false

theorem lookup_obeys (key : K) :
    (cache.lookup (M := M) key).Obeys (Phase.allows cache) Phase.next Given .asking := by
  have hquiet : ∀ {e : Io}, OfKey cache (CacheHashKey.combined key) e →
      (∀ f d, e ≠ .write_all f d) → Quiet cache e := fun he hw => ⟨⟨_, he⟩, hw⟩
  have hinc : ∀ k n, Quiet cache (.inc_by k n) := fun k n => hquiet trivial (by simp)
  refine lookup_course (I := fun x y z phase => phase = asked_phase x y z) ?_ rfl
  constructor
  case root =>
    rintro _ rfl
    have hroot : Quiet cache (.create_dir_all cache.root) := hquiet (Or.inl rfl) (by simp)
    exact ⟨⟨hroot, trivial⟩, fun _ _ _ _ h => (by cases h), rfl⟩
  case order =>
    rintro _ rfl
    exact ⟨⟨hquiet trivial (by simp), trivial⟩, fun _ => rfl⟩
  case read_meta =>
    rintro y z _ rfl
    exact ⟨allows_read (hquiet ⟨_, rfl⟩ (by simp)) none y z, fun r => next_part _ r y z⟩
  case read_hdr =>
    rintro x z _ rfl
    exact ⟨allows_read (hquiet ⟨_, rfl⟩ (by simp)) x none z, fun r => next_header _ r x z⟩
  case open_body =>
    rintro x y _ rfl
    exact ⟨allows_open (hquiet ⟨_, rfl⟩ (by simp)) ⟨_, rfl⟩ x y, fun r => next_body _ r x y⟩
  case miss =>
    rintro x y z _ rfl _
    exact ⟨allows_inc (hinc _ _) _ _ _, fun _ _ h => by cases h⟩
  case size =>
    rintro mi mh f _ rfl
    exact ⟨⟨hquiet trivial (by simp), rfl⟩, fun _ _ _ _ h => by cases h⟩
  case hit =>
    rintro mi mh f len _ rfl
    refine ⟨⟨hinc _ _, trivial⟩, fun cache_meta hit h => ?_⟩
    obtain ⟨_, rfl⟩ := eq_of_hit h
    exact ⟨rfl, (by decide : 0 < DEFAULT_READ_BUFFER_SIZE), rfl, rfl⟩

theorem reader_obeys (key : K) (n : Nat) :
    (reader M cache key n).Obeys (Phase.allows cache) Phase.next Ending.Fits .asking := by
  unfold reader
  rw [obeys_bind]
  refine obeys_mono (lookup_obeys key) fun r phase h => ?_
  cases r with
  | error e => trivial
  | ok r =>
    cases r with
    | none => trivial
    | some r =>
      obtain ⟨cache_meta, hit⟩ := r
      obtain ⟨hseek, hchunk, hpos, hphase⟩ := h cache_meta hit rfl
      simp only
      rw [obeys_bind, hphase]
      refine obeys_mono (read_bodies_obeys n hseek hchunk hpos) fun rs phase h => ?_
      obtain ⟨got, dry, hphase', hsays⟩ := h
      exact ⟨hit.file, hit.range_end, got, dry, hphase', hsays⟩

/-! ## What a task calls -/

/-- Only a write of the body appends to a file. -/
theorem no_append_of_allows {n : TaskNote} {e : Io} (hn : n.phase ≠ .idle)
    (h : n.allows cache e) : ∀ f d, e ≠ .write_all f d := by
  rintro f d rfl
  obtain ⟨hash, phase⟩ := n
  unfold TaskNote.allows at h
  cases phase with
  | finish m stage => cases stage <;> exact absurd h id
  | purge stage => cases stage <;> exact absurd h id
  | update_meta mi mh stage => cases stage <;> exact absurd h id
  | lookup asked mi mh file => exact absurd h id
  | idle => exact hn rfl

theorem no_append_of_path {e : Io} (h : PathCall e) : ∀ f d, e ≠ .write_all f d := by
  rintro f d rfl
  exact h

theorem task_no_append (t : Task K M) (ht : (Job.task t).Fits cache) :
    (t.program cache).Calls (fun e => ∀ f d, e ≠ .write_all f d) := by
  have hphase : t.note.phase ≠ .idle →
      (t.program cache).Calls (fun e => ∀ f d, e ≠ .write_all f d) := by
    intro hn
    refine calls_of_obeys (task_obeys cache t) (fun n => n.phase ≠ .idle) hn ?_ ?_
    · intro n e r hn
      obtain ⟨hash, phase⟩ := n
      cases phase with
      | lookup asked mi mh file =>
        simp only [TaskNote.next]
        unfold lookup_next
        cases e
        case read p =>
          simp only
          split <;> simp
        all_goals simp
      | idle => exact absurd rfl hn
      | _ => simp [TaskNote.next]
    · intro n e hn ha
      exact no_append_of_allows hn ha
  cases t with
  | lookup key => exact hphase (by simp [Task.note])
  | get_miss_handler key cache_meta =>
    refine calls_bind (calls_mono (DiskCache.get_miss_handler_calls cache key cache_meta) ?_)
      fun _ => calls_pure _
    rintro e (he | rfl)
    · exact no_append_of_path he
    · simp
  | write_body hash m data is_eof => exact absurd ht id
  | finish hash m => exact hphase (by simp [Task.note])
  | drop_handler hash m =>
    exact calls_bind (calls_mono m.drop_calls fun _ => no_append_of_path) fun _ => calls_pure _
  | purge key purge_type => exact hphase (by simp [Task.note])
  | update_meta key cache_meta =>
    refine hphase ?_
    obtain ⟨mi, mh, h | h⟩ := note_update_meta key cache_meta
    · rw [h]
      simp
    · rw [h]
      simp

/-- Every job keeps to the calls of its phase. -/
theorem job_obeys (j : Job K M) (hj : j.Fits cache) :
    (j.program cache).Obeys (Phase.allows cache) Phase.next Ending.Fits j.phase := by
  cases j with
  | reader key n => exact reader_obeys key n
  | task t =>
    have hof : t.Of cache := by
      cases t <;> first | exact hj | exact absurd hj id
    have hobey : (t.program cache).Obeys (fun _ => OfKey cache t.hash)
        (fun (_ : Unit) _ _ => ()) (fun _ _ => True) () := task_of_key t hof ()
    have hkey : (t.program cache).Calls (OfKey cache t.hash) :=
      calls_of_obeys hobey (fun _ => True) trivial (fun _ _ _ _ => trivial) fun _ _ _ he => he
    have hquiet : (t.program cache).Calls (Quiet cache) :=
      calls_mono (calls_and hkey (task_no_append t hj)) fun _ he => ⟨⟨t.hash, he.1⟩, he.2⟩
    have hnoted : (t.program cache).Obeys (fun _ => Quiet cache) (fun (_ : Unit) _ _ => ())
        (fun _ _ => True) () := obeys_of_calls hquiet ()
    have hother : ∀ e r, Phase.next .other e r = .other := fun e r => by cases e <;> rfl
    simp only [Job.program, obeys_bind, obeys_pure]
    exact obeys_mono (obeys_fixed hnoted (fun e he => ⟨he, trivial⟩) hother) fun _ _ _ => trivial

end

/-! ## The file of a hit -/

/-- The file that a step of the manual transfer goes into: it truncates the file that it
creates anew, or it copies. -/
def transfers_into (s : Site) (e : Nat × Io) (c : Choice) : Option Nat :=
  match e.2 with
  | .create_file p =>
    match c.fault, s.tree.node p with
    | none, some (.file ino) => some ino
    | _, _ => none
  | .copy_some _ f => if f < (s.desks e.1).opened then some ((s.desks e.1).files f).ino else none
  | .copy_rest _ f => if f < (s.desks e.1).opened then some ((s.desks e.1).files f).ino else none
  | _ => none

/-- A file with some contents, which stands where bodies stand, or nowhere any more. -/
structure Sealed (cache : DiskCache) (ino : Nat) (body : Bytes)
    (t : FileTree (List Char) UInt8) : Prop where
  below : ino < t.fresh
  only : t.Only cache.bodies ino
  data : t.data ino = body

section
variable {cache : DiskCache} {ino : Nat} {body : Bytes} {t t' : FileTree (List Char) UInt8}

theorem Sealed.of_keeps {S : Set PathBuf} (h : Sealed cache ino body t) (hk : Keeps S t t')
    (hS : t.Only S ino) (hsub : S ⊆ cache.bodies) : Sealed cache ino body t' where
  below := Nat.lt_of_lt_of_le h.below hk.fresh_le
  only p hp := hsub (hk.stays ino h.below hS p hp)
  data := (hk.data ino h.below hS).trans h.data

theorem Sealed.setData {i : Nat} (h : Sealed cache ino body t) (hi : i ≠ ino) (d : Bytes) :
    Sealed cache ino body (t.setData i d) where
  below := h.below
  only := h.only
  data := (data_setData_of_ne hi.symm _ _).trans h.data

/-- A call that is no step of a transfer into the file leaves it as it is. -/
theorem Sealed.answer {i : Nat} {e : Io} {c : Choice} {s : Site}
    (h : Sealed cache ino body s.tree) (hq : Quiet cache e)
    (ht : transfers_into s (i, e) c ≠ some ino)
    (hopen : ∀ f ∈ handles e, f < (s.desks i).opened) :
    Sealed cache ino body (answer e c (s.world i)).2.tree := by
  obtain ⟨⟨hash, he⟩, hw⟩ := hq
  have hself : s.tree.Only cache.bodies ino := h.only
  have hcopy : ∀ f, f < (s.desks i).opened →
      (f < (s.desks i).opened → some ((s.desks i).files f).ino ≠ some ino) →
      ∀ d, Sealed cache ino body (s.tree.setData ((s.world i).files f).ino d) := by
    intro f hf hne d
    exact h.setData (fun hino => hne hf (congrArg some hino)) d
  have hstep := tree_answer e c (s.world i)
  generalize (io.answer e c (s.world i)).2.tree = t at hstep ⊢
  cases hstep with
  | same => exact h
  | mkdirs p => exact h.of_keeps (Keeps.mkdirs _ _ _) hself subset_rfl
  | create p hf hc =>
    -- the file stands at another path, and stays there
    have hne : ∀ q, s.tree.node q = some (.file ino) → q ≠ p := by
      rintro q hq rfl
      exact ht (by simp only [transfers_into, hf, hq])
    have hS : s.tree.Only {q | q ∈ cache.bodies ∧ q ≠ p} ino :=
      fun q hq => ⟨h.only q hq, hne q hq⟩
    have hkeeps : Keeps {q | q ∈ cache.bodies ∧ q ≠ p} s.tree (s.tree.create p) :=
      Keeps.create hc fun hp => hp.2 rfl
    exact h.of_keeps hkeeps hS fun q hq => hq.1
  | put p d d' hc =>
    have hp : p ∉ cache.bodies := by
      rcases he with rfl | rfl
      · exact DiskCache.meta_not_mem_bodies
      · exact DiskCache.hdr_not_mem_bodies
    exact h.of_keeps (Keeps.put hc hp d') hself subset_rfl
  | move p q j hj hc =>
    obtain ⟨-, rfl⟩ := he
    exact h.of_keeps (Keeps.move hj hc DiskCache.body_mem_bodies) hself subset_rfl
  | remove_file p j hj => exact h.of_keeps (Keeps.remove _ _ _) hself subset_rfl
  | remove_dir p hd => exact h.of_keeps (Keeps.remove _ _ _) hself subset_rfl
  | append f d d' => exact absurd rfl (hw f d)
  | copy_some f g d =>
    have hg := hopen g (List.mem_cons_of_mem _ (List.mem_singleton_self _))
    exact hcopy g hg (fun hlt => by simpa only [transfers_into, if_pos hlt] using ht) d
  | copy_rest f g d =>
    have hg := hopen g (List.mem_cons_of_mem _ (List.mem_singleton_self _))
    exact hcopy g hg (fun hlt => by simpa only [transfers_into, if_pos hlt] using ht) d

theorem Sealed.respond {e : Nat × Io} {c : Choice} {s : Site}
    (h : Sealed cache ino body s.tree) (hq : Quiet cache e.2)
    (ht : transfers_into s e c ≠ some ino) :
    Sealed cache ino body (respond e c s).2.tree := by
  rcases respond_cases e c s with hr | ⟨hopen, hr⟩
  · rw [hr]
    exact h
  · rw [hr]
    exact h.answer hq ht hopen

end

/-! ## Sessions that read and sessions that write -/

/-- The file that each session opened last, and what was in it then. -/
abbrev Opened := Nat → Option (Nat × Bytes)

/-- The file at a path, and what is in it. -/
def file_at (t : FileTree (List Char) UInt8) (p : PathBuf) : Option (Nat × Bytes) :=
  match t.node p with
  | some (.file ino) => some (ino, t.data ino)
  | _ => none

def Opened.record (h : Opened) (s : Site) (i : Nat) : (e : Io) → e.Reply → Opened
  | .open_file p, .ok _ => Function.update h i (file_at s.tree p)
  | _, _ => h

section
variable {K M : Type} [CacheHashKey K] [CacheMeta M]

/-- The sessions of readers and of all other operations but a write of the body. -/
def hit_system (K M : Type) [CacheHashKey K] [CacheMeta M] (cache : DiskCache) :
    System (Nat × Io) (fun e => e.2.Reply) Choice Site Ending (Nat × Phase) Opened
      (Nat × Job K M) where
  env := respond
  start t := ((t.2.program cache).sent (fun e => (t.1, e)), t.1, t.2.phase)
  next n e r := (n.1, n.2.next e.2 r)
  record _ _ e r s _ h := h.record s e.1 e.2 r

abbrev HitPool := Pool (Nat × Io) (fun e => e.2.Reply) Ending (Nat × Phase) Site Opened

/-- Nobody is there yet. -/
def quiet_site (s : Site) : HitPool := ⟨[], s, fun _ => none⟩

/-- The hit has bytes to deliver. -/
def Phase.Wants : Phase → Prop
  | .opened _ => True
  | .reading _ len got _ => got.length < len
  | _ => False

instance : (phase : Phase) → Decidable phase.Wants
  | .opened _ => isTrue trivial
  | .reading _ len got _ => inferInstanceAs (Decidable (got.length < len))
  | .other => isFalse id
  | .asking => isFalse id

/-- No session that goes on and has bytes to deliver has the file open that the call transfers
into. -/
def Spares (p : HitPool) (e : Nat × Io) (c : Choice) : Prop :=
  ∀ j < p.threads.length, ∀ x ∈ p.next_call j, x.2.2.Wants →
    ∀ y ∈ p.history j, transfers_into p.state e c ≠ some y.1

instance (p : HitPool) (e : Nat × Io) (c : Choice) : Decidable (Spares p e c) :=
  inferInstanceAs (Decidable (∀ j < p.threads.length, ∀ x ∈ p.next_call j, x.2.2.Wants →
    ∀ y ∈ p.history j, transfers_into p.state e c ≠ some y.1))

/-- Jobs come, each with a number of its own, and make their calls in any order. No step of a
manual transfer goes into a file while a hit delivers it. -/
def Undisturbed (cache : DiskCache) (p : HitPool) : Event Choice Site (Nat × Job K M) → Prop
  | .spawn t => t.1 = p.threads.length ∧ t.2.Fits cache
  | .call i c => ∀ x ∈ p.next_call i, Spares p x.1 c
  | .crash => False
  | .outside _ => False

instance (cache : DiskCache) (p : HitPool) (ev : Event Choice Site (Nat × Job K M)) :
    Decidable (Undisturbed cache p ev) :=
  match ev with
  | .spawn t => inferInstanceAs (Decidable (t.1 = p.threads.length ∧ t.2.Fits cache))
  | .call i c => inferInstanceAs (Decidable (∀ x ∈ p.next_call i, Spares p x.1 c))
  | .crash => isFalse id
  | .outside _ => isFalse id

end

/-! ## What a reader has in hand -/

/-- What a reader has got is the start of what was in its file when it was opened. -/
def Kept (last : Option (Nat × Bytes)) : Phase → Prop
  | .reading _ len got dry => ∃ ino body, last = some (ino, body) ∧ len = body.length ∧
      got <+: body ∧ (dry = true → got = body)
  | _ => True

/-- What stands of a reader that goes on: while it has bytes to deliver, its file is open where
it is, and holds what it held when it was opened. -/
def Stands (cache : DiskCache) (t : FileTree (List Char) UInt8) (d : Desk)
    (last : Option (Nat × Bytes)) : Phase → Prop
  | .opened f => ∃ ino body, last = some (ino, body) ∧ f < d.opened ∧ d.files f = ⟨ino, 0⟩ ∧
      Sealed cache ino body t
  | .reading f len got dry => ∃ ino body, last = some (ino, body) ∧ len = body.length ∧
      got <+: body ∧ (dry = true → got = body) ∧
      (got.length < len → f < d.opened ∧ d.files f = ⟨ino, got.length⟩ ∧ Sealed cache ino body t)
  | _ => True

section
variable {cache : DiskCache} {s : Site} {e : Nat × Io} {c : Choice} {h : Opened} {phase : Phase}
  {t t' : FileTree (List Char) UInt8} {d : Desk} {last : Option (Nat × Bytes)}

theorem stands_start {K M : Type} (j : Job K M) (cache : DiskCache)
    (t : FileTree (List Char) UInt8) (d : Desk) (last : Option (Nat × Bytes)) :
    Stands cache t d last j.phase := by
  cases j <;> trivial

theorem Stands.kept (hs : Stands cache t d last phase) : Kept last phase := by
  cases phase with
  | reading f len got dry =>
    obtain ⟨ino, body, hlast, hlen, hgot, hdry, -⟩ := hs
    exact ⟨ino, body, hlast, hlen, hgot, hdry⟩
  | _ => trivial

theorem Stands.of_sealed (hs : Stands cache t d last phase)
    (hkeep : phase.Wants → ∀ ino body, last = some (ino, body) → Sealed cache ino body t →
      Sealed cache ino body t') : Stands cache t' d last phase := by
  cases phase with
  | other => trivial
  | asking => trivial
  | opened f =>
    obtain ⟨ino, body, hlast, hf, hfile, hseal⟩ := hs
    exact ⟨ino, body, hlast, hf, hfile, hkeep trivial ino body hlast hseal⟩
  | reading f len got dry =>
    obtain ⟨ino, body, hlast, hlen, hgot, hdry, hleft⟩ := hs
    refine ⟨ino, body, hlast, hlen, hgot, hdry, fun hlt => ?_⟩
    obtain ⟨hf, hfile, hseal⟩ := hleft hlt
    exact ⟨hf, hfile, hkeep hlt ino body hlast hseal⟩

/-- The first call of a reader that opens something. -/
theorem stands_open {i : Nat} {p : PathBuf} {f : Nat} (hp : p ∈ cache.bodies)
    (hr : (respond (i, .open_file p) c s).1 = .ok f) :
    Stands cache (respond (i, .open_file p) c s).2.tree ((respond (i, .open_file p) c s).2.desks i)
      (h.record s i (.open_file p) (.ok f) i) (.opened f) := by
  rw [respond_of_no_handles rfl] at hr ⊢
  simp only [answer, Choice.guard] at hr ⊢
  split at hr
  · cases hr
  · split at hr
    · rename_i hno ino hn
      have hn : s.tree.node p = some (.file ino) := hn
      cases hr
      simp only [Opened.record, file_at, hn, Function.update_self]
      refine ⟨ino, s.tree.data ino, rfl, ?_, ?_, s.tree.sound.below p ino hn, ?_, rfl⟩
      · simp [World.openIno]
      · simp [World.openIno]
      · intro q hq
        rw [s.tree.sound.single q p ino hq hn]
        exact hp
    · cases hr

/-- A read goes on from where the last one stopped. -/
theorem stands_read {i f n len : Nat} {got : Bytes}
    (hs : Stands cache s.tree (s.desks i) last (.reading f len got false)) (hn : 0 < n)
    (hlen : got.length + n ≤ len) :
    Stands cache (respond (i, .read_file f n) c s).2.tree
      ((respond (i, .read_file f n) c s).2.desks i) last
      (Phase.next (.reading f len got false) (.read_file f n)
        (respond (i, .read_file f n) c s).1) := by
  obtain ⟨ino, body, hlast, hbody, hgot, hdry, hleft⟩ := hs
  have hlt : got.length < len := by omega
  obtain ⟨hf, hfile, hseal⟩ := hleft hlt
  have hbound : bound (.read_file f n) (s.desks i).opened c = c := bound_of_open rfl hf c
  have hrest : (s.world i).rest f = body.drop got.length := by
    simp only [World.rest, Site.world, hfile, hseal.data]
  have hpos : ((s.world i).files f).pos = got.length := by
    simp only [Site.world, hfile]
  simp only [respond, hbound, answer, Choice.guard]
  cases hc : c.fault with
  | some fault =>
    simp only [put_world]
    exact ⟨ino, body, hlast, hbody, hgot, hdry, hleft⟩
  | none =>
    simp only [hrest, hpos]
    obtain ⟨buf, hbuf⟩ : ∃ buf, buf = (body.drop got.length).take (min n (c.amount + 1)) :=
      ⟨_, rfl⟩
    rw [← hbuf]
    have hlen : buf.length = min (min n (c.amount + 1)) (body.length - got.length) := by
      rw [hbuf, List.length_take, List.length_drop]
    have hne : buf ≠ [] := by
      intro h
      rw [h, List.length_nil] at hlen
      omega
    -- the bytes that came are the ones that follow
    have hmore : got ++ buf <+: body := by
      obtain ⟨rest, hrest⟩ := hgot
      have hdrop : body.drop got.length = rest := by rw [← hrest, List.drop_left]
      rw [← hrest, List.prefix_append_right_inj, hbuf, hdrop]
      exact List.take_prefix _ _
    simp only [Phase.next, if_neg hne]
    refine ⟨ino, body, hlast, hbody, hmore, by simp, fun _ => ⟨?_, ?_, hseal⟩⟩
    · rw [Site.desks_put_self]
      exact hf
    · rw [Site.desks_put_self]
      simp only [World.setPos, Function.update_self, Site.world, hfile, List.length_append]

theorem respond_read (i : Nat) (p : PathBuf) (c : Choice) (s : Site) :
    (respond (i, .read p) c s).2 = s := by
  rw [respond_of_no_handles rfl]
  simp only [answer, Choice.guard]
  split <;> exact put_world s i

theorem respond_inc_by (i : Nat) (k : Counter) (n : Nat) (c : Choice) (s : Site) :
    (respond (i, .inc_by k n) c s).2.tree = s.tree ∧
      (respond (i, .inc_by k n) c s).2.desks i = s.desks i := by
  rw [respond_of_no_handles rfl]
  refine ⟨rfl, ?_⟩
  rw [Site.desks_put_self]
  rfl

/-- A file that is open has the length of what is in it. -/
theorem respond_file_len {i f : Nat} {c : Choice} {s : Site} (hf : f < (s.desks i).opened) :
    (respond (i, .file_len f) c s).2 = s ∧
      ∀ len, (respond (i, .file_len f) c s).1 = .ok len →
        len = (s.tree.data ((s.desks i).files f).ino).length := by
  have hbound : bound (.file_len f) (s.desks i).opened c = c := bound_of_open rfl hf c
  simp only [respond, hbound, answer, Choice.guard]
  split
  · exact ⟨put_world s i, fun len h => by cases h⟩
  · refine ⟨put_world s i, fun len h => ?_⟩
    cases h
    rfl

/-- A call of a session keeps what stands of it. -/
theorem Stands.own {i : Nat} {e : Io} (hs : Stands cache s.tree (s.desks i) (h i) phase)
    (ha : phase.allows cache e) :
    Stands cache (respond (i, e) c s).2.tree ((respond (i, e) c s).2.desks i)
      (h.record s i e (respond (i, e) c s).1 i) (phase.next e (respond (i, e) c s).1) := by
  obtain ⟨-, ha⟩ := ha
  cases phase with
  | other => cases e <;> trivial
  | asking =>
    cases e
    case open_file p =>
      cases hr : (respond (i, .open_file p) c s).1 with
      | ok f => exact stands_open ha hr
      | error x => trivial
    case read p => cases (respond (i, .read p) c s).1 <;> trivial
    all_goals trivial
  | opened f =>
    cases e
    case read p =>
      rw [respond_read]
      cases (respond (i, .read p) c s).1 with
      | ok d => exact hs
      | error x => trivial
    case inc_by k n =>
      rw [(respond_inc_by i k n c s).1, (respond_inc_by i k n c s).2]
      exact hs
    case file_len g =>
      obtain rfl : g = f := ha
      obtain ⟨ino, body, hlast, hf, hfile, hseal⟩ := hs
      obtain ⟨hsame, hlen⟩ := respond_file_len (c := c) hf
      rw [hsame]
      cases hr : (respond (i, .file_len g) c s).1 with
      | error x => trivial
      | ok len =>
        have hbody : len = body.length := by
          rw [hlen len hr, hfile, hseal.data]
        exact ⟨ino, body, hlast, hbody, List.nil_prefix, by simp, fun _ => ⟨hf, hfile, hseal⟩⟩
    all_goals exact absurd ha id
  | reading f len got dry =>
    cases e
    case inc_by k n =>
      rw [(respond_inc_by i k n c s).1, (respond_inc_by i k n c s).2]
      exact hs
    case read_file g n =>
      obtain ⟨rfl, rfl, hn, hlen⟩ := ha
      exact stands_read hs hn hlen
    all_goals exact absurd ha id

end

/-! ## All runs -/

section
variable {K M : Type} [CacheHashKey K] [CacheMeta M]

/-- What stands of all sessions. -/
structure AllStand (cache : DiskCache) (p : HitPool) : Prop where
  kept : ∀ i n, p.notes[i]? = some n → n.1 = i ∧ Kept (p.history i) n.2
  stands : ∀ i e n, p.next_call i = some (e, n) →
    Stands cache p.state.tree (p.state.desks i) (p.history i) n.2

theorem record_of_ne {h : Opened} {s : Site} {i j : Nat} (hij : i ≠ j) (e : Io) (r : e.Reply) :
    h.record s j e r i = h i := by
  cases e
  case open_file p =>
    cases r with
    | error x => rfl
    | ok f => exact Function.update_of_ne hij _ _
  all_goals rfl

theorem hits_obey (cache : DiskCache) : (hit_system K M cache).Invariant
    (fun n e => e.1 = n.1 ∧ n.2.allows cache e.2) (fun a n => a.Fits n.2) (Undisturbed cache)
    (fun _ _ _ => True) where
  start p t ht := by
    simp only [hit_system, obeys_sent]
    exact obeys_map (fun phase => (t.1, phase)) (job_obeys t.2 ht.2)
      (fun phase e ha => ⟨rfl, ha⟩) (fun phase e r => rfl) fun a phase ha => ha
  spawn _ _ _ _ _ := trivial
  call _ _ _ _ _ _ _ _ _ _ := trivial
  crash _ _ _ := trivial
  outside _ _ _ _ := trivial

theorem AllStand.spawn {p : HitPool} (h : AllStand cache p) {t : Nat × Job K M}
    (ht : t.1 = p.threads.length) :
    AllStand cache { p with threads := p.threads ++ [(hit_system K M cache).start t] } where
  kept i n hi := by
    simp only [Pool.notes, List.map_append, List.map_singleton] at hi
    rcases getElem?_append_cases hi with hi | ⟨hlen, rfl⟩
    · exact h.kept i n hi
    · refine ⟨?_, (stands_start t.2 cache p.state.tree (p.state.desks i) _).kept⟩
      rw [hlen, List.length_map]
      exact ht
  stands i e n hi := by
    have hn := Pool.notes_of_next_call hi
    simp only [Pool.notes, List.map_append, List.map_singleton] at hn
    rcases getElem?_append_cases hn with hold | ⟨hlen, rfl⟩
    · apply h.stands i e n
      have hlt : i < p.threads.length := by
        have := (List.getElem?_eq_some_iff.mp hold).1
        rwa [List.length_map] at this
      unfold Pool.next_call at hi ⊢
      simpa only [List.getElem?_append_left hlt] using hi
    · exact stands_start t.2 cache _ _ _

/-- A call of one session keeps what stands of all, where it transfers into no file that
another one delivers. -/
theorem AllStand.call {p : HitPool} (h : AllStand cache p) {i : Nat} {e : Nat × Io} {c : Choice}
    {k : e.2.Reply → Program (Nat × Io) (fun e => e.2.Reply) Ending} {n : Nat × Phase}
    (hi : p.threads[i]? = some (.call e k, n)) (hsession : e.1 = n.1)
    (hallows : n.2.allows cache e.2) (hspares : Spares p e c) :
    AllStand cache
      { threads := p.threads.set i (k (respond e c p.state).1,
          n.1, n.2.next e.2 (respond e c p.state).1)
        state := (respond e c p.state).2
        history := p.history.record p.state e.1 e.2 (respond e c p.state).1 } := by
  have hown := h.stands i e n (Pool.next_call_of hi)
  obtain ⟨hnumber, -⟩ := h.kept i n (Pool.notes_getElem? hi)
  obtain ⟨j, e⟩ := e
  obtain rfl : j = i := hsession.trans hnumber
  have hnext := hown.own (c := c) (s := p.state) (h := p.history) hallows
  constructor
  · intro l m hm
    simp only [Pool.notes, List.map_set] at hm
    rcases getElem?_set_cases hm with ⟨rfl, rfl⟩ | ⟨hl, hm⟩
    · exact ⟨hnumber, hnext.kept⟩
    · simp only [record_of_ne hl]
      exact h.kept l m hm
  · intro l e' m hm
    have hnote := Pool.notes_of_next_call hm
    simp only [Pool.notes, List.map_set] at hnote
    rcases getElem?_set_cases hnote with ⟨rfl, rfl⟩ | ⟨hl, hnote⟩
    · exact hnext
    · -- another session, with another desk, which goes on as before
      have hsame : p.next_call l = some (e', m) := by
        unfold Pool.next_call at hm ⊢
        rwa [List.getElem?_set_ne (Ne.symm hl)] at hm
      have hlt : l < p.threads.length := by
        have := (List.getElem?_eq_some_iff.mp hnote).1
        rwa [List.length_map] at this
      have hother := h.stands l e' m hsame
      simp only
      rw [desks_respond_of_ne (e := (j, e)) hl, record_of_ne hl]
      apply hother.of_sealed
      intro hwants ino body hlast hseal
      exact hseal.respond hallows.1 (hspares l hlt (e', m) hsame hwants (ino, body) hlast)

/-- What stands of the sessions goes on to, in every step that no transfer disturbs. -/
theorem AllStand.step {p p' : HitPool} {ev : Event Choice Site (Nat × Job K M)}
    (hP : Undisturbed cache p ev) (h : AllStand cache p)
    (ho : (hit_system K M cache).Obedient (fun n e => e.1 = n.1 ∧ n.2.allows cache e.2)
      (fun a n => a.Fits n.2) p)
    (hs : (hit_system K M cache).step p ev = some p') : AllStand cache p' := by
  cases ev with
  | spawn t =>
    cases hs
    exact h.spawn hP.1
  | call i c =>
    unfold System.step at hs
    simp only at hs
    split at hs
    · rename_i e k n hi
      cases hs
      obtain ⟨⟨hsession, hallows⟩, -⟩ := ho _ (List.mem_of_getElem? hi)
      exact h.call hi hsession hallows (hP (e, n) (Pool.next_call_of hi))
    · cases hs
  | crash => exact absurd hP id
  | outside s => exact absurd hP id

/-- In every run in which no step of a manual transfer goes into a file while a hit delivers
it, each hit delivers the body as it was when the hit was opened, from the start on, and
where it reports the end it has delivered all of it. Renames, purges, updates and lookups may
come at any point, and calls may fail. -/
theorem a_hit_delivers_what_it_opened_unless_a_transfer_disturbs_it (cache : DiskCache)
    (tree : FileTree (List Char) UInt8) (metrics : CacheMetrics) (pid : Nat)
    (evs : List (Event Choice Site (Nat × Job K M))) (p : HitPool)
    (hP : (hit_system K M cache).Along (Undisturbed cache)
      (quiet_site (.start tree metrics pid)) evs)
    (hr : (hit_system K M cache).run (quiet_site (.start tree metrics pid)) evs = some p)
    (i : Nat) (rs : List (Result (Option Bytes))) (hi : p.results[i]? = some (some (.reads rs))) :
    ∃ ino body, p.history i = some (ino, body) ∧ delivered rs <+: body ∧
      ∀ pre post, rs = pre ++ .ok none :: post → delivered pre = body := by
  have hstart : (hit_system K M cache).Obedient (fun n e => e.1 = n.1 ∧ n.2.allows cache e.2)
      (fun a n => a.Fits n.2) (quiet_site (.start tree metrics pid)) :=
    fun x hx => absurd hx List.not_mem_nil
  obtain ⟨hobey, hstand⟩ := System.run_keeps
    (J := fun p => (hit_system K M cache).Obedient (fun n e => e.1 = n.1 ∧ n.2.allows cache e.2)
      (fun a n => a.Fits n.2) p ∧ AllStand cache p)
    (fun _ _ _ hP hJ hs => ⟨((hits_obey cache).step hP hJ.1 trivial hs).1,
      hJ.2.step hP hJ.1 hs⟩)
    ⟨hstart, ⟨fun i n hi => absurd hi (by simp [quiet_site, Pool.notes]),
      fun i e n hi => absurd hi (by simp [quiet_site, Pool.next_call])⟩⟩ hP hr
  obtain ⟨n, hdone⟩ := Pool.results_getElem? hi
  obtain ⟨f, len, got, dry, hphase, hsays⟩ := hobey.done (List.mem_of_getElem? hdone)
  obtain ⟨-, hkept⟩ := hstand.kept i n (Pool.notes_getElem? hdone)
  rw [hphase] at hkept
  obtain ⟨ino, body, hlast, hlen, hgot, hdry⟩ := hkept
  have hall : delivered rs = got := hsays.all
  refine ⟨ino, body, hlast, hall ▸ hgot, fun pre post hpre => ?_⟩
  obtain ⟨hbefore, hend⟩ := hsays.before pre post hpre
  rw [List.nil_append] at hbefore
  rw [hbefore]
  rcases hend with hfull | hempty
  · exact hgot.eq_of_length (Nat.le_antisymm hgot.length_le (hlen ▸ hfull))
  · exact hdry hempty

end

/-! ## A rename, and a transfer, while a hit is read -/

/-- A disk with a body of two bytes, and another one in the temporary file of a handler. -/
def small_tree : FileTree (List Char) UInt8 :=
  (((((FileTree.empty _ _).mkdirs (small_cache.dir small_hash)).put
    (small_cache.body small_hash) [1, 2]).put (small_cache.meta_part small_hash) [7]).put
      (small_cache.hdr small_hash) []).put (small_handler [7] 2).tmp_path [3, 4]

def small_site : HitPool := quiet_site (.start small_tree (.new 0) 1)

abbrev SmallEvent := Event Choice Site (Nat × Job CombinedHash operations.Note)

/-- A lookup, as far as the body is open and its length known. -/
def lookup_events (n : Nat) : List SmallEvent :=
  [.spawn (0, .reader small_hash n)] ++ Event.calls 0 7 plain

def finish_event : SmallEvent := .spawn (1, .task (.finish small_hash (small_handler [7] 2)))

/-- The first byte is read, a finish goes through, and the rest is read. -/
def renamed_events : List SmallEvent :=
  lookup_events 3 ++ Event.calls 0 1 plain ++ [finish_event] ++ Event.calls 1 7 plain ++
    Event.calls 0 1 plain

def no_rename : Choice := ⟨some ⟨⟨.Other, "rename failed"⟩, none⟩, 0, 0⟩

/-- The rename fails, and the body is created anew. -/
def truncate_events : List SmallEvent :=
  [finish_event, .call 1 plain, .call 1 no_rename] ++ Event.calls 1 2 plain

/-- The body that a session opened last. -/
def body_of (p : HitPool) (i : Nat) : Option Bytes := (p.history i).map Prod.snd

theorem a_rename_leaves_a_hit_alone : ∃ p,
    (hit_system CombinedHash operations.Note small_cache).run small_site renamed_events = some p ∧
    p.results[0]? = some (some (.reads [.ok (some [1]), .ok (some [2]), .ok none])) ∧
    ∃ ino body, p.history 0 = some (ino, body) ∧
      delivered [.ok (some [1]), .ok (some [2]), .ok none] <+: body ∧
      ∀ pre post, [.ok (some [1]), .ok (some [2]), .ok none] = pre ++ .ok none :: post →
        delivered pre = body := by
  have hrun : ((hit_system CombinedHash operations.Note small_cache).run small_site
      renamed_events).map (fun p => p.results[0]?) =
        some (some (some (.reads [.ok (some [1]), .ok (some [2]), .ok none]))) := by
    decide +kernel
  obtain ⟨p, hp, hresults⟩ := Option.map_eq_some_iff.mp hrun
  exact ⟨p, hp, hresults, a_hit_delivers_what_it_opened_unless_a_transfer_disturbs_it small_cache
    small_tree (.new 0) 1 renamed_events p (by decide +kernel) hp 0 _ hresults⟩

/-- One hit reports the end before its first byte, and another one gets the second byte of
another body. -/
theorem a_transfer_cuts_a_hit_short_or_mixes_two_bodies :
    (Job.task (.finish small_hash (small_handler [7] 2)) :
      Job CombinedHash operations.Note).Fits small_cache ∧
    ((hit_system CombinedHash operations.Note small_cache).run small_site
      (lookup_events 1 ++ truncate_events ++ Event.calls 0 1 plain)).map
        (fun p => (p.results[0]?, body_of p 0)) =
      some (some (some (.reads [.ok none])), some [1, 2]) ∧
    ((hit_system CombinedHash operations.Note small_cache).run small_site
      (lookup_events 2 ++ Event.calls 0 1 plain ++ truncate_events ++ Event.calls 1 2 plain ++
        Event.calls 0 1 plain)).map (fun p => (p.results[0]?, body_of p 0)) =
      some (some (some (.reads [.ok (some [1]), .ok (some [4])])), some [1, 2]) :=
  ⟨by decide, by decide +kernel, by decide +kernel⟩

end edge_cdn_store.open_hits
