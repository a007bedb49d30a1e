-- Stores that behave as maps, and the tiered storage over two of them. A store
-- works on a state of its own, of any kind. What it is taken to do is said of the
-- objects that it holds, and of what the handlers of its misses have taken so far.
import EdgeCdnStore.Tiered

open edge_cdn_store.io edge_cdn_store.logger edge_cdn_store.disk_cache edge_cdn_store.tiered

namespace edge_cdn_store.map_stores

/-! ## Programs on a state -/

/-- What a program gives, and where it leads. -/
def exec {S α : Type} (p : StateM S α) (st : S) : α × S := p st

section
variable {S T α β : Type}

@[simp] theorem exec_pure (a : α) (st : S) : exec (pure a : StateM S α) st = (a, st) := rfl

@[simp] theorem exec_bind (p : StateM S α) (f : α → StateM S β) (st : S) :
    exec (p >>= f) st = exec (f (exec p st).1) (exec p st).2 := rfl

/-- A program on the first of two states. -/
def on_first (p : StateM S α) : StateM (S × T) α :=
  fun st => ((exec p st.1).1, ((exec p st.1).2, st.2))

/-- A program on the second of two states. -/
def on_second (p : StateM T α) : StateM (S × T) α :=
  fun st => ((exec p st.2).1, (st.1, (exec p st.2).2))

@[simp] theorem exec_on_first (p : StateM S α) (st : S × T) :
    exec (on_first p) st = ((exec p st.1).1, ((exec p st.1).2, st.2)) := rfl

@[simp] theorem exec_on_second (p : StateM T α) (st : S × T) :
    exec (on_second p) st = ((exec p st.2).1, (st.1, (exec p st.2).2)) := rfl

end

/-! ## Stores -/

/-- `HandleMiss`. A handler goes by its box: what it has taken is part of the state. -/
structure HandleMiss (P : Type → Type) (Miss : Type) where
  write_body : Miss → Bytes → Bool → P (Result Unit)
  finish : Miss → P (Result MissFinishType)
  drop : Miss → P Unit

variable {S T K M Miss Hit : Type} [DecidableEq K] [DecidableEq Miss] {body_of : Hit → Bytes}

/-- A storage whose lookups give the objects that it holds. A purge takes the object of its
key away or fails, and one that fails changes nothing. -/
structure ShakyStore (S K M Miss : Type) {Hit : Type} [DecidableEq K] (body_of : Hit → Bytes) where
  storage : Storage (StateM S) K M Miss Hit
  objects : S → K → Option (M × Bytes)
  lookup : ∀ key st, ∃ found, (exec (storage.lookup key) st).1 = .ok found ∧
    found.map (fun hit => (hit.1, body_of hit.2)) = objects st key
  lookup_objects : ∀ key st, objects (exec (storage.lookup key) st).2 = objects st
  purge_objects : ∀ key t st existed, (exec (storage.purge key t) st).1 = .ok existed →
    objects (exec (storage.purge key t) st).2 = Function.update (objects st) key none
  failed_purge_objects : ∀ key t st e, (exec (storage.purge key t) st).1 = .error e →
    objects (exec (storage.purge key t) st).2 = objects st

/-- A store that never fails and behaves as a map from keys to metadata and bodies. A miss
comes into the map when its handler finishes. -/
structure MapStore (S K M Miss : Type) {Hit : Type} [DecidableEq K] [DecidableEq Miss]
    (body_of : Hit → Bytes) extends ShakyStore S K M Miss body_of where
  handlers : HandleMiss (StateM S) Miss
  taken : S → Miss → Option (K × M × Bytes)
  lookup_taken : ∀ key st, taken (exec (storage.lookup key) st).2 = taken st
  purge : ∀ key t st, (exec (storage.purge key t) st).1 = .ok (objects st key).isSome
  purge_taken : ∀ key t st, taken (exec (storage.purge key t) st).2 = taken st
  update_meta : ∀ key m st,
    (exec (storage.update_meta key m) st).1 = .ok (objects st key).isSome
  update_meta_objects : ∀ key m st, objects (exec (storage.update_meta key m) st).2 =
    Function.update (objects st) key ((objects st key).map fun o => (m, o.2))
  update_meta_taken : ∀ key m st, taken (exec (storage.update_meta key m) st).2 = taken st
  get_miss_handler : ∀ key m st, ∃ h, (exec (storage.get_miss_handler key m) st).1 = .ok h ∧
    taken st h = none ∧ taken (exec (storage.get_miss_handler key m) st).2 =
      Function.update (taken st) h (some (key, m, []))
  get_miss_handler_objects : ∀ key m st,
    objects (exec (storage.get_miss_handler key m) st).2 = objects st
  write_body : ∀ h d is_eof st key m b, taken st h = some (key, m, b) →
    (exec (handlers.write_body h d is_eof) st).1 = .ok () ∧
    taken (exec (handlers.write_body h d is_eof) st).2 =
      Function.update (taken st) h (some (key, m, b ++ d)) ∧
    objects (exec (handlers.write_body h d is_eof) st).2 = objects st
  finish : ∀ h st key m b, taken st h = some (key, m, b) →
    (exec (handlers.finish h) st).1 = .ok (.Created b.length) ∧
    taken (exec (handlers.finish h) st).2 = Function.update (taken st) h none ∧
    objects (exec (handlers.finish h) st).2 = Function.update (objects st) key (some (m, b))
  drop : ∀ h st, taken st h ≠ none →
    taken (exec (handlers.drop h) st).2 = Function.update (taken st) h none ∧
    objects (exec (handlers.drop h) st).2 = objects st

/-! ## Two stores -/

/-- The same storage, with each of its programs as another one. -/
def lift {P Q : Type → Type} (f : ∀ {α}, P α → Q α) (s : Storage P K M Miss Hit) :
    Storage Q K M Miss Hit :=
  ⟨fun key => f (s.lookup key), fun key m => f (s.get_miss_handler key m),
    fun key t => f (s.purge key t), fun key m => f (s.update_meta key m)⟩

/-- The tiered storage over two storages, each on its own state. -/
def tiered_over (primary : Storage (StateM S) K M Miss Hit)
    (secondary : Option (Storage (StateM T) K M Miss Hit)) (write_policy : WritePolicy) :
    TieredStorage (StateM (S × T)) K M Miss Hit :=
  ⟨lift on_first primary, secondary.map (lift on_second), write_policy⟩

/-- What the second store holds, if there is one. -/
def ShakyStore.objects_of (secondary : Option (ShakyStore T K M Miss body_of)) (st : T) :
    K → Option (M × Bytes) :=
  match secondary with
  | none => fun _ => none
  | some sec => sec.objects st

/-! ## A map in memory -/

/-- The objects, and what the handlers that were given out have taken. -/
structure Memory (K M : Type) where
  objects : K → Option (M × Bytes)
  taken : Nat → Option (K × M × Bytes)
  next : Nat
  unused : ∀ h, next ≤ h → taken h = none

namespace Memory

/-- Objects, and no handler yet. -/
def of (objects : K → Option (M × Bytes)) : Memory K M := ⟨objects, fun _ => none, 0, fun _ _ => rfl⟩

def set (self : Memory K M) (key : K) (o : Option (M × Bytes)) : Memory K M :=
  { self with objects := Function.update self.objects key o }

/-- A handler that was given out takes more, or goes. -/
def take (self : Memory K M) (h : Nat) (x : Option (K × M × Bytes)) : Memory K M :=
  { self with
    taken := if h < self.next then Function.update self.taken h x else self.taken
    unused := fun i hi => by
      split
      · rw [Function.update_of_ne (by omega)]
        exact self.unused i hi
      · exact self.unused i hi }

def give (self : Memory K M) (key : K) (m : M) : Memory K M :=
  { self with
    taken := Function.update self.taken self.next (some (key, m, []))
    next := self.next + 1
    unused := fun i hi => by
      rw [Function.update_of_ne (by omega)]
      exact self.unused i (by omega) }

omit [DecidableEq K] in
theorem taken_take {self : Memory K M} {h : Nat} (hh : self.taken h ≠ none)
    (x : Option (K × M × Bytes)) : (self.take h x).taken = Function.update self.taken h x := by
  have hlt : h < self.next := by
    by_contra hge
    exact hh (self.unused h (by omega))
  simp only [take, if_pos hlt]

/-- A purge fails always or never. -/
def storage (fails : Bool) : Storage (StateM (Memory K M)) K M Nat Bytes where
  lookup key := fun self => (.ok (self.objects key), self)
  get_miss_handler key m := fun self => (.ok self.next, self.give key m)
  purge key _ := fun self =>
    if fails then (e_explain .InternalError "purge failed", self)
    else (.ok (self.objects key).isSome, self.set key none)
  update_meta key m := fun self =>
    (.ok (self.objects key).isSome, self.set key ((self.objects key).map fun o => (m, o.2)))

def handlers : HandleMiss (StateM (Memory K M)) Nat where
  write_body h d _ := fun self =>
    (.ok (), self.take h ((self.taken h).map fun x => (x.1, x.2.1, x.2.2 ++ d)))
  finish h := fun self =>
    match self.taken h with
    | some (key, m, b) => (.ok (.Created b.length), (self.take h none).set key (some (m, b)))
    | none => (e_explain .InternalError "no such handler", self)
  drop h := fun self => ((), self.take h none)

/-- A map in memory is such a store. -/
def shaky_store (fails : Bool) : ShakyStore (Memory K M) K M Nat (id : Bytes → Bytes) where
  storage := storage fails
  objects := Memory.objects
  lookup key self := ⟨self.objects key, rfl, by cases self.objects key <;> rfl⟩
  lookup_objects _ _ := rfl
  purge_objects key t self existed h := by
    cases fails with
    | true => cases h
    | false => rfl
  failed_purge_objects key t self e h := by
    cases fails with
    | true => rfl
    | false => cases h

/-- And with purges that never fail it behaves as a map. -/
def map_store : MapStore (Memory K M) K M Nat (id : Bytes → Bytes) where
  toShakyStore := shaky_store false
  handlers := handlers
  taken := Memory.taken
  lookup_taken _ _ := rfl
  purge _ _ _ := rfl
  purge_taken _ _ _ := rfl
  update_meta _ _ _ := rfl
  update_meta_objects _ _ _ := rfl
  update_meta_taken _ _ _ := rfl
  get_miss_handler _ _ self := ⟨self.next, rfl, self.unused _ (Nat.le_refl _), rfl⟩
  get_miss_handler_objects _ _ _ := rfl
  write_body h d is_eof self key m b hh := by
    refine ⟨rfl, ?_, rfl⟩
    change (self.take h ((self.taken h).map fun x => (x.1, x.2.1, x.2.2 ++ d))).taken = _
    rw [taken_take (by simp [hh]), hh]
    rfl
  finish h self key m b hh := by
    have hrun : exec (handlers.finish h) self =
        (.ok (.Created b.length), (self.take h none).set key (some (m, b))) := by
      simp only [exec, handlers, hh]
    rw [hrun]
    exact ⟨rfl, taken_take (by simp [hh]) none, rfl⟩
  drop h self hh := ⟨taken_take hh none, rfl⟩

end Memory

end edge_cdn_store.map_stores
