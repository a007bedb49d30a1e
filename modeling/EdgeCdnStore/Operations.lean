-- Runs of whole operations on a storage. The caller keeps the handlers it was
-- given and names them by their numbers. Operations of several handlers come in
-- any order, and no call fails.
import EdgeCdnStore.DiskPaths
import EdgeCdnStore.Tiered

open edge_cdn_store.programs edge_cdn_store.programs.Program edge_cdn_store.io
open edge_cdn_store.logger edge_cdn_store.disk_cache edge_cdn_store.tiered

namespace edge_cdn_store.operations

/-- One whole operation. A handler goes by its number. -/
inductive Op (K M : Type)
  | lookup (key : K)
  | get_miss_handler (key : K) (cache_meta : M)
  | write_body (h : Nat) (data : Bytes) (is_eof : Bool)
  | finish (h : Nat)
  | drop_handler (h : Nat)
  | purge (key : K) (purge_type : PurgeType)
  | update_meta (key : K) (cache_meta : M)
  | read_to_end (h : Nat)

/-- What an operation returns. A new handler goes by its number. -/
inductive Reply (M : Type)
  | found (r : Result (Option (M × Nat)))
  | handler (r : Result Nat)
  | written (r : Result Unit)
  | finished (r : Result MissFinishType)
  | dropped
  | existed (r : Result Bool)
  | bytes (r : Result Bytes)
  deriving DecidableEq

/-- The handlers that the caller has. A number that was not given out names no handler. -/
structure Handlers where
  misses : Nat → Option DiskMissHandler
  next_miss : Nat
  hits : Nat → Option DiskHitHandler
  next_hit : Nat
  unused : ∀ h, next_miss ≤ h → misses h = none

namespace Handlers

def empty : Handlers := ⟨fun _ => none, 0, fun _ => none, 0, fun _ _ => rfl⟩

/-- The handler with a number that was given out becomes another one, or goes. -/
def setMiss (t : Handlers) (h : Nat) (m : Option DiskMissHandler) : Handlers :=
  { t with
    misses := if h < t.next_miss then Function.update t.misses h m else t.misses
    unused := fun i hi => by
      split
      · rw [Function.update_of_ne (by omega)]
        exact t.unused i hi
      · exact t.unused i hi }

def addMiss (t : Handlers) (m : DiskMissHandler) : Handlers :=
  { t with
    misses := Function.update t.misses t.next_miss m
    next_miss := t.next_miss + 1
    unused := fun i hi => by
      rw [Function.update_of_ne (by omega)]
      exact t.unused i (by omega) }

def setHit (t : Handlers) (h : Nat) (hit : DiskHitHandler) : Handlers :=
  { t with hits := Function.update t.hits h hit }

def addHit (t : Handlers) (hit : DiskHitHandler) : Handlers :=
  { t with hits := Function.update t.hits t.next_hit hit, next_hit := t.next_hit + 1 }

variable {t : Handlers} {h : Nat} {m : DiskMissHandler}

theorem misses_setMiss (hm : t.misses h = some m) (m' : Option DiskMissHandler) :
    (t.setMiss h m').misses = Function.update t.misses h m' := by
  have hlt : h < t.next_miss := by
    by_contra hge
    rw [t.unused h (by omega)] at hm
    cases hm
  simp only [setMiss, if_pos hlt]

/-- Handlers that are alive at the same time have temporary files of their own. -/
def Distinct (t : Handlers) : Prop := ∀ h h' m m', t.misses h = some m →
  t.misses h' = some m' → m.tmp_path = m'.tmp_path → h = h'

/-- With one handler of a miss there is nothing to tell apart. -/
theorem distinct_of_one (ht : t.next_miss ≤ 1) : t.Distinct := by
  have hzero : ∀ i m, t.misses i = some m → i = 0 := by
    intro i m hi
    by_contra hne
    rw [t.unused i (by omega)] at hi
    cases hi
  intro i j m m' hi hj _
  rw [hzero i m hi, hzero j m' hj]

end Handlers

/-- Read until the handler gives no more, at most `n` times. -/
def read_to_end : Nat → DiskHitHandler → Prog (Result Bytes × DiskHitHandler)
  | 0, hit => return (.ok [], hit)
  | n + 1, hit => do
    match ← hit.read_body with
    | (.error e, hit) => return (.error e, hit)
    | (.ok none, hit) => return (.ok [], hit)
    | (.ok (some b), hit) =>
      match ← read_to_end n hit with
      | (.error e, hit) => return (.error e, hit)
      | (.ok rest, hit) => return (.ok (b ++ rest), hit)

/-- Write the chunks of a body, each with the word whether it is the last one, until one fails. -/
def write_bodies (m : DiskMissHandler) : List (Bytes × Bool) → Prog (Result Unit × DiskMissHandler)
  | [] => return (.ok (), m)
  | (data, is_eof) :: rest => do
    match ← m.write_body data is_eof with
    | (.error e, m) => return (.error e, m)
    | (.ok (), m) => write_bodies m rest

/-- Chunks of which the last one is the end of the body. -/
def ended : List Bytes → List (Bytes × Bool)
  | [] => []
  | data :: rest => (data, rest.isEmpty) :: ended rest

def write_chunks (m : DiskMissHandler) (chunks : List Bytes) :
    Prog (Result Unit × DiskMissHandler) := write_bodies m (ended chunks)

theorem write_chunks_cons (m : DiskMissHandler) (data : Bytes) (rest : List Bytes) :
    write_chunks m (data :: rest) = (do
      match ← m.write_body data rest.isEmpty with
      | (.error e, m) => return (.error e, m)
      | (.ok (), m) => write_chunks m rest) := rfl

/-- The program of an operation, and none when it names a handler that is not there. -/
def program {K M : Type} (s : Storage Prog K M DiskMissHandler DiskHitHandler) (t : Handlers) :
    Op K M → Option (Prog (Reply M × Handlers))
  | .lookup key => some do
    match ← s.lookup key with
    | .error e => return (.found (.error e), t)
    | .ok none => return (.found (.ok none), t)
    | .ok (some (cache_meta, hit)) =>
      return (.found (.ok (some (cache_meta, t.next_hit))), t.addHit hit)
  | .get_miss_handler key cache_meta => some do
    match ← s.get_miss_handler key cache_meta with
    | .error e => return (.handler (.error e), t)
    | .ok m => return (.handler (.ok t.next_miss), t.addMiss m)
  | .write_body h data is_eof => (t.misses h).map fun m => do
    let (r, m) ← m.write_body data is_eof
    return (.written r, t.setMiss h m)
  | .finish h => (t.misses h).map fun m => do
    let r ← m.finish
    return (.finished r, t.setMiss h none)
  | .drop_handler h => (t.misses h).map fun m => do
    m.drop
    return (.dropped, t.setMiss h none)
  | .purge key purge_type => some do
    let r ← s.purge key purge_type
    return (.existed r, t)
  | .update_meta key cache_meta => some do
    let r ← s.update_meta key cache_meta
    return (.existed r, t)
  | .read_to_end h => (t.hits h).map fun hit => do
    -- each read but the last gives a byte, so this is enough of them
    let (r, hit) ← read_to_end (hit.total_len + 1) hit
    return (.bytes r, t.setHit h hit)

section
variable {K M : Type} (s : Storage Prog K M DiskMissHandler DiskHitHandler)

/-- An operation, run with a list of choices. -/
def exec (c : Handlers × World) (o : Op K M) (cs : List Choice) :
    Option (Reply M × Handlers × World) := do
  let p ← program s c.1 o
  let ((r, t), w) ← run answer p cs c.2
  return (r, t, w)

/-- One whole operation of which no call fails. -/
def Step (c : Handlers × World) (o : Op K M) (r : Reply M) (c' : Handlers × World) : Prop :=
  ∃ cs, (∀ x ∈ cs, Calm x) ∧ exec s c o cs = some (r, c')

/-- Any number of whole operations, each of which is as `P` says. -/
inductive Runs (P : Handlers × World → Op K M → Handlers × World → Prop) :
    Handlers × World → List (Op K M × Reply M) → Handlers × World → Prop
  | nil (c : Handlers × World) : Runs P c [] c
  | snoc {c c' c'' : Handlers × World} {tr : List (Op K M × Reply M)} {o : Op K M}
      {r : Reply M} : Runs P c tr c' → Step s c' o r c'' → P c' o c'' →
      Runs P c (tr ++ [(o, r)]) c''

variable {s}

theorem exec_eq_some {c c' : Handlers × World} {o : Op K M} {cs : List Choice} {r : Reply M} :
    exec s c o cs = some (r, c') ↔
      ∃ p, program s c.1 o = some p ∧ run answer p cs c.2 = some ((r, c'.1), c'.2) := by
  simp only [exec, Option.bind_eq_bind, Option.bind_eq_some_iff, Option.pure_def,
    Option.some.injEq, Prod.mk.injEq, Prod.exists]
  constructor
  · rintro ⟨p, hp, r', t, w, hrun, rfl, rfl⟩
    exact ⟨p, hp, hrun⟩
  · rintro ⟨p, hp, hrun⟩
    exact ⟨p, hp, r, c'.1, c'.2, hrun, rfl, rfl⟩

/-- A step ends as the specification of its program says. -/
theorem Step.sound {c c' : Handlers × World} {o : Op K M} {r : Reply M}
    {Q : Reply M × Handlers → World → Prop} (h : Step s c o r c')
    (hQ : ∀ p, program s c.1 o = some p → wp answer Calm p Q c.2) : Q (r, c'.1) c'.2 := by
  obtain ⟨cs, hcs, hexec⟩ := h
  obtain ⟨p, hp, hrun⟩ := exec_eq_some.mp hexec
  exact run_sound hrun hcs (hQ p hp)

end

/-! ## A small cache -/

section
variable {K M : Type} {s : Storage Prog K M DiskMissHandler DiskHitHandler} {c : Handlers × World}
  {o : Op K M} {r : Reply M} {n : Nat}

/-- Where an operation with `n` calls leads when nothing special happens. -/
def after (s : Storage Prog K M DiskMissHandler DiskHitHandler) (c : Handlers × World) (o : Op K M)
    (n : Nat) : Handlers × World :=
  ((exec s c o (List.replicate n plain)).map Prod.snd).getD c

theorem step_after (h : (exec s c o (List.replicate n plain)).map Prod.fst = some r) :
    Step s c o r (after s c o n) := by
  rw [Option.map_eq_some_iff] at h
  obtain ⟨⟨r', c'⟩, he, rfl⟩ := h
  refine ⟨List.replicate n plain, fun x hx => by rw [List.eq_of_mem_replicate hx]; rfl, ?_⟩
  simp [after, he]

end

/-- A key is its combined hash. -/
instance : CacheHashKey CombinedHash := ⟨id⟩

/-- Metadata that goes to disk as it is, all of it in the first part. -/
structure Note where
  text : Bytes
  deriving DecidableEq, Repr

instance : CacheMeta Note where
  serialize m := .ok (m.text, [])
  deserialize m _ := .ok ⟨m⟩

theorem note_codec (m : Note) (mi mh : Bytes) (h : CacheMeta.serialize m = .ok (mi, mh)) :
    CacheMeta.deserialize mi mh = .ok m := by
  cases h
  rfl

def small_hash : CombinedHash := ⟨"00ff".toList, by decide, by decide⟩

def small_cache : DiskCache := ⟨["c".toList]⟩

/-- A handler of the small cache, made at the epoch by process 1. -/
def small_handler (meta_internal : Bytes) (n : Nat) : DiskMissHandler where
  tmp_path := small_cache.entry small_hash (DiskMissHandler.tmp_name small_hash.text 1 0)
  tmp_bytes_written := n
  dir := small_cache.dir small_hash
  body_path := small_cache.body small_hash
  meta_path := small_cache.meta_part small_hash
  hdr_path := small_cache.hdr small_hash
  meta_internal := meta_internal
  meta_header := []

theorem small_handler_of (d : Bytes) (n : Nat) : (small_handler d n).Of small_cache small_hash :=
  ⟨rfl, rfl, rfl, rfl, _, isTmp_tmp_name _ _ _, rfl⟩

/-- A disk with nothing on it. -/
def empty_world : World := ⟨.empty _ _, fun _ => ⟨0, 0⟩, 0, .new 0, 1⟩

theorem empty_world_laid (cache : DiskCache) : cache.Laid empty_world.tree :=
  ⟨fun _ _ _ h => (nomatch h), fun _ _ h => (nomatch h)⟩

end edge_cdn_store.operations
