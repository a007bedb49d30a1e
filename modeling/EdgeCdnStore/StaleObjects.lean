-- What a lookup of the tiered storage finds after a miss was stored. A miss goes into
-- the primary only, and so does an eviction: an object of the secondary that the miss
-- hid is seen again when the miss is evicted, unless an invalidation took it away.
import EdgeCdnStore.TieredRuns

open edge_cdn_store.io edge_cdn_store.logger edge_cdn_store.disk_cache edge_cdn_store.tiered
open edge_cdn_store.map_stores edge_cdn_store.overlay edge_cdn_store.tiered_runs

namespace edge_cdn_store.stale_objects

variable {S T K M Miss Hit : Type} [DecidableEq K] [DecidableEq Miss] {body_of : Hit → Bytes}

/-- What came of one key: the object that the latest finish stored, under the metadata of the
updates since then, the purges, and the metadata of the latest update of all. -/
structure Life (M : Type) where
  stored : Option (M × Bytes)
  evicted_since : Bool
  invalidated_since : Bool
  invalidated : Bool
  updated : Option M

namespace Life

/-- Nothing yet. -/
def start : Life M := ⟨none, false, false, false, none⟩

/-- A miss of the key is stored. -/
def store (l : Life M) (o : M × Bytes) : Life M :=
  { l with stored := some o, evicted_since := false, invalidated_since := false }

def evict (l : Life M) : Life M := { l with evicted_since := true }

def invalidate (l : Life M) : Life M :=
  { l with invalidated_since := true, invalidated := true }

def update (l : Life M) (m : M) : Life M :=
  { l with stored := l.stored.map fun o => (m, o.2), updated := some m }

/-- What has become of an object that no finish touched: an invalidation took it away, or the
updates left it with the metadata of the latest one. -/
def left_of (l : Life M) (old : Option (M × Bytes)) : Option (M × Bytes) :=
  if l.invalidated then none else old.map fun o => (l.updated.getD o.1, o.2)

/-- What one operation adds, in a state where the handlers have taken what `taken` says. -/
def next (key : K) (taken : Miss → Option (K × M × Bytes)) (l : Life M) : Op K M Miss → Life M
  | .finish h =>
    match taken h with
    | some (k, m, b) => if k = key then l.store (m, b) else l
    | none => l
  | .purge k .Eviction => if k = key then l.evict else l
  | .purge k .Invalidation => if k = key then l.invalidate else l
  | .update_meta k m => if k = key then l.update m else l
  | _ => l

end Life

/-! ## The two maps -/

/-- The primary has the stored object until it is purged. The secondary has what is left of the
object that it had at the start. -/
structure Remembers (key : K) (old : Option (M × Bytes)) (c : Picture K M Miss) (l : Life M) :
    Prop where
  front : ∀ o, l.stored = some o →
    c.layers.front key = if l.evicted_since || l.invalidated_since then none else some o
  back : c.layers.back key = l.left_of old
  since : l.invalidated_since = true → l.invalidated = true

omit [DecidableEq K] [DecidableEq Miss] in
theorem remembers_start (key : K) (c : Picture K M Miss) :
    Remembers key (c.layers.back key) c .start := by
  refine ⟨?_, ?_, ?_⟩
  · intro o h
    cases h
  · simp [Life.start, Life.left_of]
  · intro h
    cases h

omit [DecidableEq K] [DecidableEq Miss] in
/-- An operation that leaves the two maps at a key alone. -/
theorem Remembers.same {key : K} {old : Option (M × Bytes)} {c c' : Picture K M Miss} {l : Life M}
    (h : Remembers key old c l) (hf : c'.layers.front key = c.layers.front key)
    (hb : c'.layers.back key = c.layers.back key) : Remembers key old c' l :=
  ⟨fun o ho => hf.trans (h.front o ho), hb.trans h.back, h.since⟩

/-- One step of the overlay. -/
theorem Remembers.step {key : K} {old : Option (M × Bytes)} {c c' : Picture K M Miss} {l : Life M}
    {o : Op K M Miss} {r : Reply M Miss Bytes} (h : Remembers key old c l) (hs : c.Step o r c') :
    Remembers key old c' (l.next key c.taken o) := by
  cases o with
  | lookup k =>
    obtain ⟨_, rfl⟩ := hs
    exact h
  | get_miss_handler k m =>
    obtain ⟨i, _, _, rfl⟩ := hs
    exact h.same rfl rfl
  | write_body i d is_eof =>
    obtain ⟨k, m, b, _, _, rfl⟩ := hs
    exact h.same rfl rfl
  | drop_handler i =>
    obtain ⟨_, _, rfl⟩ := hs
    exact h.same rfl rfl
  | finish i =>
    obtain ⟨k, m, b, hi, _, rfl⟩ := hs
    simp only [Life.next, hi]
    by_cases hk : k = key
    · subst hk
      rw [if_pos rfl]
      unfold Life.store Layers.put
      refine ⟨?_, h.back, ?_⟩
      · intro o ho
        simpa using ho
      · intro hno
        cases hno
    · rw [if_neg hk]
      exact h.same (Function.update_of_ne (Ne.symm hk) _ _) rfl
  | purge k t =>
    cases t with
    | Eviction =>
      obtain ⟨_, rfl⟩ := hs
      simp only [Life.next]
      by_cases hk : k = key
      · subst hk
        rw [if_pos rfl]
        unfold Life.evict Layers.uncover
        exact ⟨fun o _ => by simp, h.back, h.since⟩
      · rw [if_neg hk]
        exact h.same (Function.update_of_ne (Ne.symm hk) _ _) rfl
    | Invalidation =>
      obtain ⟨_, rfl⟩ := hs
      simp only [Life.next]
      by_cases hk : k = key
      · subst hk
        rw [if_pos rfl]
        unfold Life.invalidate Layers.erase
        exact ⟨fun o _ => by simp, by simp [Life.left_of], fun _ => rfl⟩
      · rw [if_neg hk]
        exact h.same (Function.update_of_ne (Ne.symm hk) _ _)
          (Function.update_of_ne (Ne.symm hk) _ _)
  | update_meta k m =>
    obtain ⟨_, rfl⟩ := hs
    simp only [Life.next]
    by_cases hk : k = key
    · subst hk
      rw [if_pos rfl]
      unfold Life.update Layers.alter
      refine ⟨?_, ?_, h.since⟩
      · intro o ho
        obtain ⟨o', ho', rfl⟩ := Option.map_eq_some_iff.mp ho
        simp only [Function.update_self, h.front o' ho']
        by_cases hp : (l.evicted_since || l.invalidated_since) = true
        · simp only [if_pos hp, Option.map_none]
        · simp only [if_neg hp, Option.map_some]
      · simp only [Function.update_self, h.back, Life.left_of]
        by_cases hi : l.invalidated = true
        · simp only [if_pos hi, Option.map_none]
        · simp only [if_neg hi, Option.map_map, Function.comp_def, Option.getD_some]
    · rw [if_neg hk]
      exact h.same (Function.update_of_ne (Ne.symm hk) _ _)
        (Function.update_of_ne (Ne.symm hk) _ _)

/-! ## Whole runs -/

variable (primary : MapStore S K M Miss body_of) (secondary : Option (MapStore T K M Miss body_of))
  (write_policy : WritePolicy) (key : K)

/-- What an operation returns, where it leads, and what it adds to the life of the key. -/
def life_after (c : (S × T) × Life M) (o : Op K M Miss) :
    Reply M Miss Hit × ((S × T) × Life M) :=
  ((after primary secondary write_policy c.1 o).1,
    ((after primary secondary write_policy c.1 o).2, c.2.next key (primary.taken c.1.1) o))

/-- One whole operation, and what it adds to the life of the key. -/
def LifeStep (c : (S × T) × Life M) (o : Op K M Miss) (r : Reply M Miss Hit)
    (c' : (S × T) × Life M) : Prop :=
  Step primary secondary write_policy c.1 o r c'.1 ∧
  c'.2 = c.2.next key (primary.taken c.1.1) o

theorem remembers_runs {c c' : (S × T) × Life M} {old : Option (M × Bytes)}
    {tr : List (Op K M Miss × Reply M Miss Hit)}
    (h : Runs (LifeStep primary secondary write_policy key) c tr c')
    (hc : Remembers key old (picture primary secondary c.1) c.2) :
    Remembers key old (picture primary secondary c'.1) c'.2 := by
  induction h with
  | nil => exact hc
  | cons hs _ ih =>
    apply ih
    rw [hs.2]
    exact hc.step (hs.1.sound primary secondary write_policy)

/-- What a lookup of a key finds after a finish of it: the object that the latest finish stored,
until that is purged, and then nothing. Only an object that the secondary had at the start, with
no invalidation in the whole run, is found when the key was evicted since the finish. It has the
metadata of the latest update. -/
theorem the_latest_object_or_none_unless_an_eviction_uncovers_the_secondary
    (st : S × T) (c : (S × T) × Life M) (o : M × Bytes) (tr : List (Op K M Miss × Reply M Miss Hit))
    (h : Runs (LifeStep primary secondary write_policy key) (st, .start) tr c)
    (hstored : c.2.stored = some o) :
    let old := (picture primary secondary st).layers.back key
    let found := Finds body_of (exec ((over_maps primary secondary write_policy).lookup key) c.1).1
    ((c.2.evicted_since || c.2.invalidated_since) = false → found (some o)) ∧
    ((c.2.evicted_since || c.2.invalidated_since) = true →
      found (c.2.left_of old)) ∧
    (¬ (c.2.evicted_since = true ∧ c.2.invalidated = false ∧ old.isSome = true) →
      found (some o) ∨ found none) := by
  intro old found
  have hrem := remembers_runs primary secondary write_policy key h
    (remembers_start key (picture primary secondary st))
  have hview : found ((picture primary secondary c.1).layers.view key) :=
    (overlays primary secondary write_policy c.1).lookup key
  have hfront := hrem.front o hstored
  unfold Layers.view at hview
  by_cases hp : (c.2.evicted_since || c.2.invalidated_since) = true
  · rw [if_pos hp] at hfront
    rw [hfront, Option.none_or] at hview
    rw [hrem.back] at hview
    refine ⟨fun hno => absurd hp (by simp [hno]), fun _ => hview, ?_⟩
    intro hnot
    refine Or.inr ?_
    unfold Life.left_of at hview
    by_cases hi : c.2.invalidated = true
    · rwa [if_pos hi] at hview
    · rw [if_neg hi] at hview
      -- it was evicted since and never invalidated, so the secondary had nothing
      have hevicted : c.2.evicted_since = true := by
        cases hs : c.2.invalidated_since with
        | true => exact absurd (hrem.since hs) hi
        | false => simpa [hs] using hp
      have hold : old = none := by
        by_contra hne
        exact hnot ⟨hevicted, by simpa using hi, Option.isSome_iff_ne_none.mpr hne⟩
      rwa [show (picture primary secondary st).layers.back key = none from hold,
        Option.map_none] at hview
  · rw [if_neg hp] at hfront
    rw [hfront, Option.some_or] at hview
    exact ⟨fun _ => hview, fun h => absurd h hp, fun _ => Or.inl hview⟩

/-! ## An eviction that uncovers an older object -/

/-- A run over two maps in memory. -/
abbrev small_run (ops : List (Op Nat Nat Nat)) :
    List (Op Nat Nat Nat × Reply Nat Nat Bytes) × ((Memory Nat Nat × Memory Nat Nat) × Life Nat) :=
  trail (life_after Memory.map_store (some Memory.map_store) .WriteThroughBoth 0)
    (small_state, .start) ops

theorem small_run_runs {ops : List (Op Nat Nat Nat)}
    (h : AllOk (life_after Memory.map_store (some Memory.map_store) .WriteThroughBoth 0)
      (fun c o => o.live c.1.1.taken = true) (small_state, .start) ops) :
    Runs (LifeStep Memory.map_store (some Memory.map_store) .WriteThroughBoth 0)
      (small_state, .start) (small_run ops).1 (small_run ops).2 :=
  runs_trail (fun _ _ h => ⟨⟨h, rfl⟩, rfl⟩) h

/-- A miss, an invalidation and a second miss. -/
def invalidated_ops : List (Op Nat Nat Nat) :=
  [.get_miss_handler 0 9, .write_body 0 [2] true, .finish 0, .purge 0 .Invalidation,
    .get_miss_handler 0 8, .write_body 1 [3] true, .finish 1, .purge 0 .Eviction]

theorem an_eviction_after_an_invalidation_uncovers_nothing :
    let c := (small_run invalidated_ops).2
    let old := (picture Memory.map_store (some Memory.map_store) small_state).layers.back 0
    let found := Finds id (exec ((over_maps Memory.map_store (some Memory.map_store)
      .WriteThroughBoth).lookup 0) c.1).1
    ((c.2.evicted_since || c.2.invalidated_since) = false → found (some (8, [3]))) ∧
    ((c.2.evicted_since || c.2.invalidated_since) = true →
      found (c.2.left_of old)) ∧
    (¬ (c.2.evicted_since = true ∧ c.2.invalidated = false ∧ old.isSome = true) →
      found (some (8, [3])) ∨ found none) :=
  the_latest_object_or_none_unless_an_eviction_uncovers_the_secondary Memory.map_store
    (some Memory.map_store) .WriteThroughBoth 0 _ _ _ _
    (small_run_runs ⟨rfl, rfl, rfl, rfl, rfl, rfl, rfl, rfl, trivial⟩) rfl

/-- The latest finish stored the body `[2]`. It was evicted, and the lookup finds the body `[1]`
that the secondary had before. -/
theorem an_eviction_uncovers_an_older_object :
    Runs (LifeStep Memory.map_store (some Memory.map_store) .WriteThroughBoth 0)
      (small_state, .start) (small_run small_ops).1 (small_run small_ops).2 ∧
    (small_run small_ops).2.2.stored = some (9, [2]) ∧
    (exec ((over_maps Memory.map_store (some Memory.map_store) .WriteThroughBoth).lookup 0)
      (small_run small_ops).2.1).1 = .ok (some (7, [1])) :=
  ⟨small_run_runs ⟨rfl, rfl, rfl, rfl, trivial⟩, rfl, rfl⟩

end edge_cdn_store.stale_objects
