-- Runs of the tiered storage over two stores that behave as maps. The picture of a
-- state is the two maps, the primary in front, and what the handlers have taken.
-- Each operation of the code does to the picture what the overlay says.
import EdgeCdnStore.MapStores
import EdgeCdnStore.Overlay

open edge_cdn_store.io edge_cdn_store.logger edge_cdn_store.disk_cache edge_cdn_store.tiered
open edge_cdn_store.map_stores edge_cdn_store.overlay

namespace edge_cdn_store.tiered_runs

variable {S T K M Miss Hit : Type} [DecidableEq K] {body_of : Hit → Bytes}

/-- A lookup gives an object, or finds none. -/
def Finds (body_of : Hit → Bytes) (r : Result (Option (M × Hit))) (o : Option (M × Bytes)) : Prop :=
  ∃ found, r = .ok found ∧ found.map (fun hit => (hit.1, body_of hit.2)) = o

/-! ## Stores whose purges may fail -/

section
variable (primary : ShakyStore S K M Miss body_of) (secondary : Option (ShakyStore T K M Miss body_of))
  (write_policy : WritePolicy)

/-- The tiered storage over one store or two. -/
abbrev tiered : TieredStorage (StateM (S × T)) K M Miss Hit :=
  tiered_over primary.storage (secondary.map ShakyStore.storage) write_policy

/-- The two maps that the stores hold. -/
def layers (st : S × T) : Layers K (M × Bytes) :=
  ⟨primary.objects st.1, ShakyStore.objects_of secondary st.2⟩

/-- A lookup gives what is seen of its key, and changes nothing that is held. -/
theorem lookup_spec (key : K) (st : S × T) :
    Finds body_of (exec ((tiered primary secondary write_policy).lookup key) st).1
      ((layers primary secondary st).view key) ∧
    layers primary secondary (exec ((tiered primary secondary write_policy).lookup key) st).2 =
      layers primary secondary st := by
  obtain ⟨found, hr, hfound⟩ := primary.lookup key st.1
  have hsame := primary.lookup_objects key st.1
  unfold TieredStorage.lookup Finds Layers.view layers
  simp only [tiered, tiered_over, lift, exec_bind, exec_on_first, hr]
  cases found with
  | some hit =>
    simp only [exec_pure, hsame, ← hfound]
    exact ⟨⟨some hit, rfl, rfl⟩, trivial⟩
  | none =>
    simp only [Option.map_none] at hfound
    cases secondary with
    | none =>
      simp only [Option.map_none, exec_pure, hsame, ← hfound]
      exact ⟨⟨none, rfl, rfl⟩, trivial⟩
    | some sec =>
      obtain ⟨found2, hr2, hfound2⟩ := sec.lookup key st.2
      simp only [Option.map_some, lift, exec_on_second, hr2, hsame, ShakyStore.objects_of,
        sec.lookup_objects key st.2, ← hfound, Option.none_or]
      exact ⟨⟨found2, rfl, hfound2⟩, trivial⟩

/-- A lookup leaves the state of the primary as the lookup of the primary does. -/
theorem lookup_first (key : K) (st : S × T) :
    (exec ((tiered primary secondary write_policy).lookup key) st).2.1 =
      (exec (primary.storage.lookup key) st.1).2 := by
  obtain ⟨found, hr, _⟩ := primary.lookup key st.1
  unfold TieredStorage.lookup
  simp only [tiered, tiered_over, lift, exec_bind, exec_on_first, hr]
  cases found with
  | some hit => rfl
  | none => cases secondary <;> rfl

/-- What a purge of one store leaves: the key is gone where the purge succeeds. -/
theorem purged {S : Type} (store : ShakyStore S K M Miss body_of) (key : K) (t : PurgeType) (st : S) :
    store.objects (exec (store.storage.purge key t) st).2 =
      if (exec (store.storage.purge key t) st).1.isOk then
        Function.update (store.objects st) key none
      else store.objects st := by
  cases h : (exec (store.storage.purge key t) st).1 with
  | ok existed => exact store.purge_objects key t st existed h
  | error e => exact store.failed_purge_objects key t st e h

/-- The answer of a purge where an error counts as nothing found. -/
def existed (r : Result Bool) : Bool := r.toOption.getD false

omit [DecidableEq K] in
theorem exec_purge_or_default {S : Type} (s : Storage (StateM S) K M Miss Hit) (key : K)
    (t : PurgeType) (st : S) : exec (TieredStorage.purge_or_default s key t) st =
      (existed (exec (s.purge key t) st).1, (exec (s.purge key t) st).2) := by
  unfold TieredStorage.purge_or_default existed
  rw [exec_bind]
  cases (exec (s.purge key t) st).1 <;> rfl

/-- An eviction purges the primary only, and does not fail. -/
theorem eviction_spec (key : K) (st : S × T) :
    exec ((tiered primary secondary write_policy).purge key .Eviction) st =
      (.ok (existed (exec (primary.storage.purge key .Eviction) st.1).1),
        ((exec (primary.storage.purge key .Eviction) st.1).2, st.2)) := by
  unfold TieredStorage.purge
  simp only [exec_bind, exec_purge_or_default]
  rfl

/-- The purge of the second store, if there is one. -/
def second_purge (key : K) (t : PurgeType) (st : T) : Option (Result Bool × T) :=
  secondary.map fun sec => exec (sec.storage.purge key t) st

/-- An invalidation purges both stores, and does not fail. -/
theorem invalidation_spec (key : K) (st : S × T) :
    exec ((tiered primary secondary write_policy).purge key .Invalidation) st =
      (.ok (existed (exec (primary.storage.purge key .Invalidation) st.1).1 ||
          ((second_purge secondary key .Invalidation st.2).map fun r => existed r.1).getD false),
        ((exec (primary.storage.purge key .Invalidation) st.1).2,
          ((second_purge secondary key .Invalidation st.2).map Prod.snd).getD st.2)) := by
  unfold TieredStorage.purge second_purge
  simp only [exec_bind, exec_purge_or_default]
  cases secondary with
  | none =>
    simp only [Option.map_none, Option.getD_none, Bool.or_false]
    rfl
  | some sec =>
    simp only [tiered, tiered_over, lift, Option.map_some, exec_bind, exec_purge_or_default]
    rfl

/-- No store that holds the key fails to purge it. -/
def HoldersPurge (key : K) (st : S × T) : Prop :=
  ((primary.objects st.1 key).isSome →
    (exec (primary.storage.purge key .Invalidation) st.1).1.isOk) ∧
  ((ShakyStore.objects_of secondary st.2 key).isSome →
    ∀ r, second_purge secondary key .Invalidation st.2 = some r → r.1.isOk)

/-- What an invalidation leaves to be seen of its key. -/
theorem view_after_invalidation (key : K) (st : S × T) :
    (layers primary secondary
      (exec ((tiered primary secondary write_policy).purge key .Invalidation) st).2).view key = none ↔
    HoldersPurge primary secondary key st := by
  rw [invalidation_spec]
  unfold Layers.view layers HoldersPurge
  rw [Option.or_eq_none_iff]
  apply and_congr
  · rw [purged]
    by_cases hok : (exec (primary.storage.purge key .Invalidation) st.1).1.isOk
    · simp [hok]
    · simp [hok]
  · cases secondary with
    | none => simp [ShakyStore.objects_of]
    | some sec =>
      simp only [ShakyStore.objects_of, second_purge, Option.map_some, Option.getD_some]
      rw [purged]
      by_cases hok : (exec (sec.storage.purge key .Invalidation) st.2).1.isOk
      · simp [hok]
      · simp [hok]

/-- An invalidation always returns `Ok`. A lookup after it finds nothing exactly when no store
that held the key failed to purge it. -/
theorem an_invalidation_is_effective_exactly_when_no_holder_fails_to_purge (key : K) (st : S × T) :
    (∃ b, (exec ((tiered primary secondary write_policy).purge key .Invalidation) st).1 = .ok b) ∧
    ((∀ hit, (exec ((tiered primary secondary write_policy).lookup key)
        (exec ((tiered primary secondary write_policy).purge key .Invalidation) st).2).1 ≠
          .ok (some hit)) ↔
      HoldersPurge primary secondary key st) := by
  refine ⟨⟨_, congrArg Prod.fst (invalidation_spec primary secondary write_policy key st)⟩, ?_⟩
  rw [← view_after_invalidation primary secondary write_policy]
  obtain ⟨⟨found, hr, hfound⟩, _⟩ := lookup_spec primary secondary write_policy key
    (exec ((tiered primary secondary write_policy).purge key .Invalidation) st).2
  rw [hr, ← hfound]
  cases found <;> simp

end

/-- The primary fails to purge the key. The invalidation returns `Ok`, and the object is still
served. -/
theorem an_invalidation_that_failed_is_ok :
    let storage := tiered (S := Memory Nat Nat) (T := Memory Nat Nat) (Memory.shaky_store true)
      (some (Memory.shaky_store false)) .PrimaryOnly
    let st := (Memory.of (Function.update (fun _ => none) 0 (some (7, [1]))), Memory.of fun _ => none)
    let after := exec (storage.purge 0 .Invalidation) st
    after.1 = .ok false ∧ (exec (storage.lookup 0) after.2).1 = .ok (some (7, [1])) :=
  ⟨rfl, rfl⟩

/-! ## Whole operations -/

section
variable [DecidableEq Miss]

/-- One operation on a storage, or on a handler that it gave out. -/
inductive Op (K M Miss : Type)
  | lookup (key : K)
  | get_miss_handler (key : K) (cache_meta : M)
  | write_body (h : Miss) (data : Bytes) (is_eof : Bool)
  | finish (h : Miss)
  | drop_handler (h : Miss)
  | purge (key : K) (purge_type : PurgeType)
  | update_meta (key : K) (cache_meta : M)

/-- What an operation returns. -/
inductive Reply (M Miss Hit : Type)
  | found (r : Result (Option (M × Hit)))
  | handler (r : Result Miss)
  | written (r : Result Unit)
  | finished (r : Result MissFinishType)
  | dropped
  | existed (r : Result Bool)

def program {P : Type → Type} [Monad P] (self : TieredStorage P K M Miss Hit)
    (handlers : HandleMiss P Miss) : Op K M Miss → P (Reply M Miss Hit)
  | .lookup key => do return .found (← self.lookup key)
  | .get_miss_handler key cache_meta => do
    return .handler (← self.get_miss_handler key cache_meta)
  | .write_body h data is_eof => do return .written (← handlers.write_body h data is_eof)
  | .finish h => do return .finished (← handlers.finish h)
  | .drop_handler h => do
    handlers.drop h
    return .dropped
  | .purge key purge_type => do return .existed (← self.purge key purge_type)
  | .update_meta key cache_meta => do return .existed (← self.update_meta key cache_meta)

/-- The handler that an operation uses. -/
def Op.handler : Op K M Miss → Option Miss
  | .write_body h _ _ => some h
  | .finish h => some h
  | .drop_handler h => some h
  | _ => none

/-- The handler that an operation uses is there. -/
def Op.live (o : Op K M Miss) (taken : Miss → Option (K × M × Bytes)) : Bool :=
  o.handler.all fun h => (taken h).isSome

/-- Any number of steps, with what was asked for and what was returned at each. -/
inductive Runs {C O R : Type} (Step : C → O → R → C → Prop) : C → List (O × R) → C → Prop
  | nil (c : C) : Runs Step c [] c
  | cons {c c' c'' : C} {o : O} {r : R} {tr : List (O × R)} :
      Step c o r c' → Runs Step c' tr c'' → Runs Step c ((o, r) :: tr) c''

/-- Where some operations lead that are done one after the other, and what they return. -/
def trail {C O R : Type} (f : C → O → R × C) (c : C) : List O → List (O × R) × C
  | [] => ([], c)
  | o :: os => ((o, (f c o).1) :: (trail f (f c o).2 os).1, (trail f (f c o).2 os).2)

/-- Each of them can be done where it comes. -/
def AllOk {C O R : Type} (f : C → O → R × C) (P : C → O → Prop) (c : C) : List O → Prop
  | [] => True
  | o :: os => P c o ∧ AllOk f P (f c o).2 os

omit [DecidableEq K] [DecidableEq Miss] in
theorem runs_trail {C O R : Type} {Step : C → O → R → C → Prop} {f : C → O → R × C}
    {P : C → O → Prop} {c : C} {os : List O}
    (hf : ∀ c o, P c o → Step c o (f c o).1 (f c o).2) (h : AllOk f P c os) :
    Runs Step c (trail f c os).1 (trail f c os).2 := by
  induction os generalizing c with
  | nil => exact .nil _
  | cons o os ih => exact .cons (hf c o h.1) (ih h.2)

/-! ## The overlay -/

/-- Two maps, the primary in front, and what each handler has taken so far. -/
structure Picture (K M Miss : Type) where
  layers : Layers K (M × Bytes)
  taken : Miss → Option (K × M × Bytes)

/-- What each operation does to the overlay, and what it returns. -/
def Picture.Step (c : Picture K M Miss) : Op K M Miss → Reply M Miss Bytes → Picture K M Miss → Prop
  | .lookup key, r, c' => r = .found (.ok (c.layers.view key)) ∧ c' = c
  | .get_miss_handler key m, r, c' => ∃ h, c.taken h = none ∧ r = .handler (.ok h) ∧
      c' = ⟨c.layers, Function.update c.taken h (some (key, m, []))⟩
  | .write_body h d _, r, c' => ∃ key m b, c.taken h = some (key, m, b) ∧ r = .written (.ok ()) ∧
      c' = ⟨c.layers, Function.update c.taken h (some (key, m, b ++ d))⟩
  | .finish h, r, c' => ∃ key m b, c.taken h = some (key, m, b) ∧
      r = .finished (.ok (.Created b.length)) ∧
      c' = ⟨c.layers.put key (m, b), Function.update c.taken h none⟩
  | .drop_handler h, r, c' => c.taken h ≠ none ∧ r = .dropped ∧
      c' = ⟨c.layers, Function.update c.taken h none⟩
  | .purge key .Eviction, r, c' => r = .existed (.ok (c.layers.front key).isSome) ∧
      c' = ⟨c.layers.uncover key, c.taken⟩
  | .purge key .Invalidation, r, c' => r = .existed (.ok (c.layers.view key).isSome) ∧
      c' = ⟨c.layers.erase key, c.taken⟩
  | .update_meta key m, r, c' => r = .existed (.ok (c.layers.view key).isSome) ∧
      c' = ⟨c.layers.alter key (fun o => (m, o.2)), c.taken⟩

/-- A reply with the body that a handler gives in place of the handler. -/
def Reply.seen (body_of : Hit → Bytes) : Reply M Miss Hit → Reply M Miss Bytes
  | .found r => .found (r.map fun found => found.map fun hit => (hit.1, body_of hit.2))
  | .handler r => .handler r
  | .written r => .written r
  | .finished r => .finished r
  | .dropped => .dropped
  | .existed r => .existed r

/-! ## The code against the overlay -/

variable (primary : MapStore S K M Miss body_of) (secondary : Option (MapStore T K M Miss body_of))
  (write_policy : WritePolicy)

/-- The tiered storage over one map or two. -/
abbrev over_maps : TieredStorage (StateM (S × T)) K M Miss Hit :=
  tiered primary.toShakyStore (secondary.map MapStore.toShakyStore) write_policy

/-- The handlers are those of the primary. -/
def primary_handlers : HandleMiss (StateM (S × T)) Miss where
  write_body h data is_eof := on_first (primary.handlers.write_body h data is_eof)
  finish h := on_first (primary.handlers.finish h)
  drop h := on_first (primary.handlers.drop h)

/-- What the two stores hold. -/
def picture (st : S × T) : Picture K M Miss :=
  ⟨layers primary.toShakyStore (secondary.map MapStore.toShakyStore) st, primary.taken st.1⟩

/-- What an operation returns, and where it leads. -/
def after (st : S × T) (o : Op K M Miss) : Reply M Miss Hit × (S × T) :=
  exec (program (over_maps primary secondary write_policy) (primary_handlers primary) o) st

/-- One whole operation. A handler is used while it is there. -/
def Step (st : S × T) (o : Op K M Miss) (r : Reply M Miss Hit) (st' : S × T) : Prop :=
  o.live (primary.taken st.1) = true ∧ after primary secondary write_policy st o = (r, st')

theorem picture_get_miss_handler (key : K) (m : M) (st : S × T) :
    ∃ h, primary.taken st.1 h = none ∧
      (exec ((over_maps primary secondary write_policy).get_miss_handler key m) st).1 = .ok h ∧
      picture primary secondary
          (exec ((over_maps primary secondary write_policy).get_miss_handler key m) st).2 =
        ⟨(picture primary secondary st).layers,
          Function.update (primary.taken st.1) h (some (key, m, []))⟩ := by
  obtain ⟨h, hr, hfree, htaken⟩ := primary.get_miss_handler key m st.1
  refine ⟨h, hfree, ?_⟩
  have hrun : exec ((over_maps primary secondary write_policy).get_miss_handler key m) st =
      (.ok h, ((exec (primary.storage.get_miss_handler key m) st.1).2, st.2)) := by
    unfold TieredStorage.get_miss_handler
    simp only [over_maps, tiered, tiered_over, lift, exec_bind, exec_on_first, hr]
    cases write_policy with
    | PrimaryOnly => rfl
    | WriteThroughBoth => cases secondary <;> rfl
  rw [hrun]
  refine ⟨rfl, ?_⟩
  unfold picture layers
  rw [htaken, primary.get_miss_handler_objects]

theorem picture_eviction (key : K) (st : S × T) :
    let after := exec ((over_maps primary secondary write_policy).purge key .Eviction) st
    let l := (picture primary secondary st).layers
    after.1 = .ok (l.front key).isSome ∧
    picture primary secondary after.2 = ⟨l.uncover key, primary.taken st.1⟩ := by
  intro after l
  have hafter := eviction_spec primary.toShakyStore (secondary.map MapStore.toShakyStore)
    write_policy key st
  rw [primary.purge] at hafter
  refine ⟨congrArg Prod.fst hafter, ?_⟩
  rw [show after.2 = _ from congrArg Prod.snd hafter]
  unfold picture layers Layers.uncover
  rw [primary.purge_taken, primary.purge_objects _ _ _ _ (primary.purge key .Eviction st.1)]
  rfl

theorem picture_invalidation (key : K) (st : S × T) :
    let after := exec ((over_maps primary secondary write_policy).purge key .Invalidation) st
    let l := (picture primary secondary st).layers
    after.1 = .ok (l.view key).isSome ∧
    picture primary secondary after.2 = ⟨l.erase key, primary.taken st.1⟩ := by
  intro after l
  have hafter := invalidation_spec primary.toShakyStore (secondary.map MapStore.toShakyStore)
    write_policy key st
  rw [primary.purge] at hafter
  -- what the second store had, and what it has
  have hsecond : ((second_purge (secondary.map MapStore.toShakyStore) key .Invalidation st.2).map
        fun r => existed r.1).getD false = (l.back key).isSome ∧
      ShakyStore.objects_of (secondary.map MapStore.toShakyStore)
        (((second_purge (secondary.map MapStore.toShakyStore) key .Invalidation st.2).map
          Prod.snd).getD st.2) = Function.update l.back key none := by
    cases secondary with
    | none =>
      refine ⟨rfl, ?_⟩
      funext j
      by_cases hj : j = key <;> simp [ShakyStore.objects_of, hj, l, picture, layers]
    | some sec =>
      simp only [second_purge, Option.map_some, Option.getD_some, sec.purge]
      exact ⟨rfl, sec.purge_objects _ _ _ _ (sec.purge key .Invalidation st.2)⟩
  rw [hsecond.1] at hafter
  refine ⟨(congrArg Prod.fst hafter).trans ?_, ?_⟩
  · rw [l.isSome_view]
    rfl
  · rw [show after.2 = _ from congrArg Prod.snd hafter]
    unfold picture layers Layers.erase
    rw [primary.purge_taken, primary.purge_objects _ _ _ _ (primary.purge key .Invalidation st.1),
      hsecond.2]
    rfl

theorem picture_update_meta (key : K) (m : M) (st : S × T) :
    let after := exec ((over_maps primary secondary write_policy).update_meta key m) st
    let l := (picture primary secondary st).layers
    after.1 = .ok (l.view key).isSome ∧
    picture primary secondary after.2 =
      ⟨l.alter key (fun o => (m, o.2)), primary.taken st.1⟩ := by
  intro after l
  have hrun : after = (.ok (l.view key).isSome, ((exec (primary.storage.update_meta key m) st.1).2,
      (secondary.map fun sec => (exec (sec.storage.update_meta key m) st.2).2).getD st.2)) := by
    simp only [after, TieredStorage.update_meta, over_maps, tiered, tiered_over, lift, exec_bind,
      exec_on_first, primary.update_meta, l.isSome_view]
    cases secondary with
    | none =>
      simp only [Option.map_none, exec_pure, l, picture, layers, ShakyStore.objects_of,
        Option.isSome_none, Bool.or_false, Option.getD_none]
    | some sec =>
      simp only [Option.map_some, lift, exec_bind, exec_on_second, sec.update_meta, exec_pure]
      rfl
  rw [hrun]
  refine ⟨rfl, ?_⟩
  unfold picture layers Layers.alter
  rw [primary.update_meta_taken, primary.update_meta_objects]
  cases secondary with
  | none =>
    simp only [Option.map_none, ShakyStore.objects_of, l, picture, layers]
    congr
    funext j
    by_cases hj : j = key <;> simp [hj]
  | some sec =>
    simp only [Option.map_some, Option.getD_some, ShakyStore.objects_of, sec.update_meta_objects]
    rfl

/-- One operation of the code is one step of the overlay. -/
theorem Step.sound {st st' : S × T} {o : Op K M Miss} {r : Reply M Miss Hit}
    (h : Step primary secondary write_policy st o r st') :
    (picture primary secondary st).Step o (r.seen body_of) (picture primary secondary st') := by
  obtain ⟨hlive, hrun⟩ := h
  unfold after at hrun
  have hr : r = _ := (congrArg Prod.fst hrun).symm
  have hst : st' = _ := (congrArg Prod.snd hrun).symm
  rw [hr, hst]
  -- a handler that is there is there with what it has taken
  have htaken : ∀ h, o.handler = some h → ∃ key m b, primary.taken st.1 h = some (key, m, b) := by
    intro h ho
    simp only [Op.live, ho, Option.all_some] at hlive
    obtain ⟨x, hx⟩ := Option.isSome_iff_exists.mp hlive
    exact ⟨x.1, x.2.1, x.2.2, hx⟩
  cases o with
  | lookup key =>
    obtain ⟨⟨found, hf, hmap⟩, hlayers⟩ := lookup_spec primary.toShakyStore
      (secondary.map MapStore.toShakyStore) write_policy key st
    refine ⟨?_, ?_⟩
    · unfold program
      simp only [exec_bind, exec_pure, hf]
      exact congrArg (fun o => Reply.found (.ok o)) hmap
    · unfold picture
      refine congr (congrArg Picture.mk hlayers) ?_
      refine (congrArg primary.taken (lookup_first primary.toShakyStore
        (secondary.map MapStore.toShakyStore) write_policy key st)).trans ?_
      exact primary.lookup_taken key st.1
  | get_miss_handler key m =>
    obtain ⟨h, hfree, hh, hpic⟩ := picture_get_miss_handler primary secondary write_policy key m st
    refine ⟨h, hfree, ?_, hpic⟩
    unfold program
    simp only [exec_bind, exec_pure, hh]
    rfl
  | write_body h d is_eof =>
    obtain ⟨key, m, b, hb⟩ := htaken h rfl
    obtain ⟨hok, ht, ho⟩ := primary.write_body h d is_eof st.1 key m b hb
    refine ⟨key, m, b, hb, ?_, ?_⟩
    · unfold program primary_handlers
      simp only [exec_bind, exec_pure, exec_on_first, hok]
      rfl
    · unfold program primary_handlers picture layers
      simp only [exec_bind, exec_pure, exec_on_first, ht, ho]
  | finish h =>
    obtain ⟨key, m, b, hb⟩ := htaken h rfl
    obtain ⟨hok, ht, ho⟩ := primary.finish h st.1 key m b hb
    refine ⟨key, m, b, hb, ?_, ?_⟩
    · unfold program primary_handlers
      simp only [exec_bind, exec_pure, exec_on_first, hok]
      rfl
    · unfold program primary_handlers picture layers Layers.put
      simp only [exec_bind, exec_pure, exec_on_first, ht, ho]
  | drop_handler h =>
    have hthere : primary.taken st.1 h ≠ none := Option.isSome_iff_ne_none.mp hlive
    obtain ⟨ht, ho⟩ := primary.drop h st.1 hthere
    refine ⟨hthere, rfl, ?_⟩
    unfold program primary_handlers picture layers
    simp only [exec_bind, exec_pure, exec_on_first, ht, ho]
  | purge key t =>
    cases t with
    | Eviction =>
      obtain ⟨hok, hpic⟩ := picture_eviction primary secondary write_policy key st
      refine ⟨?_, hpic⟩
      unfold program
      simp only [exec_bind, exec_pure, hok]
      rfl
    | Invalidation =>
      obtain ⟨hok, hpic⟩ := picture_invalidation primary secondary write_policy key st
      refine ⟨?_, hpic⟩
      unfold program
      simp only [exec_bind, exec_pure, hok]
      rfl
  | update_meta key m =>
    obtain ⟨hok, hpic⟩ := picture_update_meta primary secondary write_policy key m st
    refine ⟨?_, hpic⟩
    unfold program
    simp only [exec_bind, exec_pure, hok]
    rfl

/-! ## Whole runs -/

/-- In a state with the maps `l`: what each operation of the tiered storage returns, and what a
lookup of its key finds after it. -/
structure Overlays (storage : TieredStorage (StateM (S × T)) K M Miss Hit)
    (handlers : HandleMiss (StateM (S × T)) Miss) (body_of : Hit → Bytes)
    (held : S × T → Picture K M Miss) (st : S × T) : Prop where
  lookup : ∀ key, Finds body_of (exec (storage.lookup key) st).1 ((held st).layers.view key)
  update_meta : ∀ key m,
    (exec (storage.update_meta key m) st).1 = .ok ((held st).layers.view key).isSome ∧
    Finds body_of (exec (storage.lookup key) (exec (storage.update_meta key m) st).2).1
      (((held st).layers.view key).map fun o => (m, o.2))
  invalidation : ∀ key,
    (exec (storage.purge key .Invalidation) st).1 = .ok ((held st).layers.view key).isSome ∧
    Finds body_of (exec (storage.lookup key) (exec (storage.purge key .Invalidation) st).2).1 none
  eviction : ∀ key,
    (held (exec (storage.purge key .Eviction) st).2).layers.back = (held st).layers.back ∧
    Finds body_of (exec (storage.lookup key) (exec (storage.purge key .Eviction) st).2).1
      ((held st).layers.back key)
  finish : ∀ h key m b, (held st).taken h = some (key, m, b) →
    (exec (handlers.finish h) st).1 = .ok (.Created b.length) ∧
    Finds body_of (exec (storage.lookup key) (exec (handlers.finish h) st).2).1 (some (m, b))

theorem overlays (st : S × T) : Overlays (over_maps primary secondary write_policy)
    (primary_handlers primary) body_of (picture primary secondary) st := by
  have hlookup : ∀ key st l, (picture primary secondary st).layers = l →
      Finds body_of (exec ((over_maps primary secondary write_policy).lookup key) st).1
        (l.view key) := by
    intro key st l hl
    rw [← hl]
    exact (lookup_spec primary.toShakyStore (secondary.map MapStore.toShakyStore) write_policy key
      st).1
  refine ⟨fun key => hlookup key st _ rfl, ?_, ?_, ?_, ?_⟩
  · intro key m
    obtain ⟨hok, hpic⟩ := picture_update_meta primary secondary write_policy key m st
    refine ⟨hok, ?_⟩
    have := hlookup key _ _ (congrArg Picture.layers hpic)
    rwa [Layers.view_alter, Function.update_self] at this
  · intro key
    obtain ⟨hok, hpic⟩ := picture_invalidation primary secondary write_policy key st
    refine ⟨hok, ?_⟩
    have := hlookup key _ _ (congrArg Picture.layers hpic)
    rwa [Layers.view_erase, Function.update_self] at this
  · intro key
    obtain ⟨_, hpic⟩ := picture_eviction primary secondary write_policy key st
    refine ⟨congrArg (fun c => c.layers.back) hpic, ?_⟩
    have := hlookup key _ _ (congrArg Picture.layers hpic)
    rwa [Layers.view_uncover, Function.update_self] at this
  · intro h key m b hb
    obtain ⟨hok, _, ho⟩ := primary.finish h st.1 key m b hb
    refine ⟨hok, ?_⟩
    have := hlookup key (exec ((primary_handlers primary).finish h) st).2
      ((picture primary secondary st).layers.put key (m, b)) (by
        unfold primary_handlers picture layers Layers.put
        simp only [exec_on_first, ho])
    rwa [Layers.view_put, Function.update_self] at this

/-- Every run of the tiered storage over two maps is a run of their overlay, reply for reply,
and in every state that a run comes to the storage acts as the overlay does. -/
theorem runs_of_the_tiered_storage_are_runs_of_the_overlay (st st' : S × T)
    (tr : List (Op K M Miss × Reply M Miss Hit))
    (h : Runs (Step primary secondary write_policy) st tr st') :
    Runs Picture.Step (picture primary secondary st)
      (tr.map fun x => (x.1, x.2.seen body_of)) (picture primary secondary st') ∧
    Overlays (over_maps primary secondary write_policy) (primary_handlers primary) body_of
      (picture primary secondary) st' := by
  refine ⟨?_, overlays primary secondary write_policy st'⟩
  induction h with
  | nil => exact .nil _
  | cons hs _ ih => exact .cons (hs.sound primary secondary write_policy) ih

end

/-! ## A small store -/

/-- Nothing in the first map, and one object in the second. -/
def small_state : Memory Nat Nat × Memory Nat Nat :=
  (.of fun _ => none, .of (Function.update (fun _ => none) 0 (some (7, [1]))))

/-- A miss for the key that the second store has, and the eviction of what it stored. -/
def small_ops : List (Op Nat Nat Nat) :=
  [.get_miss_handler 0 9, .write_body 0 [2] true, .finish 0, .purge 0 .Eviction]

/-- The tiered storage over two maps in memory. -/
abbrev small_after : Memory Nat Nat × Memory Nat Nat → Op Nat Nat Nat →
    Reply Nat Nat Bytes × (Memory Nat Nat × Memory Nat Nat) :=
  after Memory.map_store (some Memory.map_store) .WriteThroughBoth

theorem a_small_run_is_a_run_of_the_overlay :
    let run := trail small_after small_state small_ops
    Runs Picture.Step (picture Memory.map_store (some Memory.map_store) small_state)
      (run.1.map fun x => (x.1, x.2.seen id))
      (picture Memory.map_store (some Memory.map_store) run.2) ∧
    Overlays (over_maps Memory.map_store (some Memory.map_store) .WriteThroughBoth)
      (primary_handlers Memory.map_store) id
      (picture Memory.map_store (some Memory.map_store)) run.2 :=
  runs_of_the_tiered_storage_are_runs_of_the_overlay Memory.map_store (some Memory.map_store)
    .WriteThroughBoth _ _ _ (runs_trail (P := fun st o => o.live st.1.taken = true)
      (fun _ _ h => ⟨h, rfl⟩) ⟨rfl, rfl, rfl, rfl, trivial⟩)

end edge_cdn_store.tiered_runs
