-- Writes that are handed to a pool of threads. The caller goes on, and the pool works
-- on them meanwhile, in pieces and in any order, or gives up. Where the pool is
-- through by each call, nobody can tell that there is one.
import EdgeCdnStore.Pools

open edge_cdn_store.programs edge_cdn_store.programs.Program edge_cdn_store.pools

namespace edge_cdn_store.write_pools

/-! ## The pool -/

/-- A state where data `D` can be added at the end of an open file `H`. -/
class Appends (S H : Type) (D : outParam Type) where
  append : S → H → List D → S

/-- What is added in pieces is added as a whole. -/
class LawfulAppends (S H : Type) (D : outParam Type) [Appends S H D] : Prop where
  append_nil : ∀ (s : S) (f : H), Appends.append s f [] = s
  append_append : ∀ (s : S) (f : H) (d d' : List D),
    Appends.append (Appends.append s f d) f d' = Appends.append s f (d ++ d')

/-- A write that was handed to the pool: the open file it is for, the data that is not
written yet, and the error that stopped it. -/
structure PendingWrite (H D X : Type) where
  handle : H
  rest : List D
  failed : Option X
  deriving DecidableEq

/-- The state, and the writes that are on the pool, in the order of the calls. -/
structure WritePool (S H D X : Type) where
  world : S
  pending : List (PendingWrite H D X)

/-- What the pool does: it writes up to `n` items of a write, or the write fails. -/
inductive PoolEvent (X : Type)
  | run (i n : Nat)
  | fail (i : Nat) (e : X)

/-- What happens at one call: first what the pool does, then the call. -/
structure PoolChoice (C X : Type) where
  events : List (PoolEvent X)
  choice : C

section
variable {S H D X : Type} [Appends S H D]

namespace WritePool

/-- A write that is through leaves the pool. One that failed stays, for its error. -/
def event (s : WritePool S H D X) : PoolEvent X → WritePool S H D X
  | .run i n =>
    match s.pending[i]? with
    | some ⟨f, rest, none⟩ =>
      { world := Appends.append s.world f (rest.take n)
        pending := if rest.length ≤ n then s.pending.eraseIdx i
          else s.pending.set i ⟨f, rest.drop n, none⟩ }
    | _ => s
  | .fail i e =>
    match s.pending[i]? with
    | some ⟨f, rest, none⟩ => { s with pending := s.pending.set i ⟨f, rest, some e⟩ }
    | _ => s

def forget [DecidableEq H] (s : WritePool S H D X) (f : H) : WritePool S H D X :=
  { s with pending := s.pending.filter (·.handle ≠ f) }

/-- The next operation on an open file waits for the write that is on the pool, and
reports its error. A write that fails there has come so far. -/
def settle [DecidableEq H] (s : WritePool S H D X) (f : H) (fault : Option (X × Nat)) :
    Except X Unit × WritePool S H D X :=
  match s.pending.find? (·.handle = f) with
  | none => (.ok (), s)
  | some ⟨_, _, some e⟩ => (.error e, s.forget f)
  | some ⟨_, rest, none⟩ =>
    match fault with
    | none => (.ok (), { s.forget f with world := Appends.append s.world f rest })
    | some (e, n) =>
      (.error e, { s.forget f with world := Appends.append s.world f (rest.take n) })

/-- A write of nothing never comes to the pool. -/
def push (s : WritePool S H D X) (f : H) (d : List D) : WritePool S H D X :=
  if d.isEmpty then s else { s with pending := s.pending ++ [⟨f, d, none⟩] }

/-- The pool carries out all that is on it, in the order of the calls. -/
def drain (s : WritePool S H D X) : List (PoolEvent X) :=
  s.pending.map fun x => .run 0 x.rest.length

/-- The state that there is once the pool is through. -/
def through (s : WritePool S H D X) : S :=
  s.pending.foldl (fun w x => Appends.append w x.handle x.rest) s.world

/-- At most one write is on the pool, and it has not failed. -/
inductive Light : WritePool S H D X → Prop
  | idle (w : S) : Light ⟨w, []⟩
  | busy (w : S) (f : H) (d : List D) : Light ⟨w, [⟨f, d, none⟩]⟩

end WritePool

open WritePool

variable {s : WritePool S H D X}

/-- With nothing on it the pool does nothing. -/
theorem events_of_empty (h : s.pending = []) (l : List (PoolEvent X)) :
    l.foldl WritePool.event s = s := by
  induction l with
  | nil => rfl
  | cons e l ih =>
    have hone : s.event e = s := by
      cases e <;> simp [WritePool.event, h]
    rw [List.foldl_cons, hone, ih]

/-- A write that failed stays on the pool. -/
theorem events_of_failed (w : S) (f : H) (d : List D) (e : X) (l : List (PoolEvent X)) :
    l.foldl WritePool.event ⟨w, [⟨f, d, some e⟩]⟩ = ⟨w, [⟨f, d, some e⟩]⟩ := by
  induction l with
  | nil => rfl
  | cons x l ih =>
    have hone : WritePool.event ⟨w, [⟨f, d, some e⟩]⟩ x = ⟨w, [⟨f, d, some e⟩]⟩ := by
      cases x with
      | run i n => cases i <;> simp [WritePool.event]
      | fail i e' => cases i <;> simp [WritePool.event]
    rw [List.foldl_cons, hone, ih]

theorem event_run_one (w : S) (f : H) (d : List D) (n : Nat) :
    WritePool.event (⟨w, [⟨f, d, none⟩]⟩ : WritePool S H D X) (.run 0 n) =
      if d.length ≤ n then ⟨Appends.append w f d, []⟩
      else ⟨Appends.append w f (d.take n), [⟨f, d.drop n, none⟩]⟩ := by
  unfold WritePool.event
  by_cases hn : d.length ≤ n
  · simp [hn, List.take_of_length_le hn]
  · simp [hn]

/-- A pool with one write that comes to nothing more has carried it out. -/
theorem events_of_one [LawfulAppends S H D] {w : S} {f : H} {d : List D} {l : List (PoolEvent X)}
    (h : (l.foldl WritePool.event (⟨w, [⟨f, d, none⟩]⟩ : WritePool S H D X)).pending = []) :
    l.foldl WritePool.event (⟨w, [⟨f, d, none⟩]⟩ : WritePool S H D X) =
      ⟨Appends.append w f d, []⟩ := by
  induction l generalizing w d with
  | nil => cases h
  | cons e l ih =>
    rw [List.foldl_cons] at h ⊢
    cases e with
    | run i n =>
      cases i with
      | succ i => exact ih h
      | zero =>
        rw [event_run_one] at h ⊢
        by_cases hn : d.length ≤ n
        · rw [if_pos hn, events_of_empty rfl]
        · rw [if_neg hn] at h ⊢
          rw [ih h, LawfulAppends.append_append, List.take_append_drop]
    | fail i e =>
      cases i with
      | succ i => exact ih h
      | zero =>
        have hone : WritePool.event (⟨w, [⟨f, d, none⟩]⟩ : WritePool S H D X) (.fail 0 e) =
            ⟨w, [⟨f, d, some e⟩]⟩ := rfl
        rw [hone, events_of_failed] at h
        cases h

/-- A light pool that has come to its end has carried out what it had. -/
theorem WritePool.Light.events [LawfulAppends S H D] (hs : s.Light) {l : List (PoolEvent X)}
    (h : (l.foldl WritePool.event s).pending = []) :
    l.foldl WritePool.event s = ⟨s.through, []⟩ := by
  cases hs with
  | idle w => exact events_of_empty rfl l
  | busy w f d => exact events_of_one h

/-- A light pool that carries out all that it has is empty. -/
theorem WritePool.Light.drained (hs : s.Light) :
    (s.drain.foldl WritePool.event s).pending = [] := by
  cases hs with
  | idle w => rfl
  | busy w f d => simp [WritePool.drain, WritePool.event]

theorem WritePool.push_light [LawfulAppends S H D] (w : S) (f : H) (d : List D) :
    (push (⟨w, []⟩ : WritePool S H D X) f d).Light ∧
      (push (⟨w, []⟩ : WritePool S H D X) f d).through = Appends.append w f d := by
  unfold push
  cases d with
  | nil => exact ⟨.idle w, (LawfulAppends.append_nil w f).symm⟩
  | cons x d => exact ⟨.busy w f _, rfl⟩

end

/-! ## Calls that go by the pool -/

/-- Which calls wait for the write that is on the pool for an open file, and how they tell an
error of that write. What they hand over themselves, if they are accepted. -/
structure Waiting (E : Type) (R : E → Type) (C H D X : Type) where
  waits : (e : E) → Option (H × (X → R e))
  writes : E → Option (List D)
  accepted : (e : E) → R e → Bool
  fault : C → Option (X × Nat)

section
variable {E : Type} {R : E → Type} {C S H D X : Type} [Appends S H D] [DecidableEq H]
  (k : Waiting E R C H D X) (env : Environment E R C S)

/-- The environment with a pool. A call that is no part of a write does not know the pool. -/
def delayed : Environment E R (PoolChoice C X) (WritePool S H D X) := fun e c s =>
  let s := c.events.foldl WritePool.event s
  match k.waits e with
  | none => ((env e c.choice s.world).1, { s with world := (env e c.choice s.world).2 })
  | some (f, failed) =>
    match s.settle f (k.fault c.choice) with
    | (.error x, s) => (failed x, s)
    | (.ok (), s) =>
      let r := env e c.choice s.world
      match k.writes e with
      | none => (r.1, { s with world := r.2 })
      | some d => if k.accepted e r.1 then (r.1, s.push f d) else (r.1, { s with world := r.2 })

/-- The environment with a pool that carries out each write before the next call. -/
def awaited : Environment E R C (WritePool S H D X) := fun e c s => delayed k env e ⟨s.drain, c⟩ s

/-- Without a pool, a write that is accepted adds its data at once. -/
def Immediate : Prop := ∀ e c s f failed d, k.waits e = some (f, failed) →
  k.writes e = some d → k.accepted e (env e c s).1 → (env e c s).2 = Appends.append s f d

variable {k env} [LawfulAppends S H D]

/-- Where the pool is through, a call is answered as without one. -/
theorem delayed_eq (hk : Immediate k env) (e : E) {c : PoolChoice C X} {s : WritePool S H D X}
    (hs : s.Light) (hc : (c.events.foldl WritePool.event s).pending = []) :
    (delayed k env e c s).1 = (env e c.choice s.through).1 ∧
      (delayed k env e c s).2.through = (env e c.choice s.through).2 ∧
      (delayed k env e c s).2.Light := by
  unfold delayed
  simp only [hs.events hc]
  cases hf : k.waits e with
  | none => exact ⟨rfl, rfl, .idle _⟩
  | some x =>
    obtain ⟨f, failed⟩ := x
    simp only [WritePool.settle, List.find?_nil]
    cases hd : k.writes e with
    | none => exact ⟨rfl, rfl, .idle _⟩
    | some d =>
      by_cases ha : k.accepted e (env e c.choice s.through).1
      · simp only [if_pos ha]
        obtain ⟨hlight, hthrough⟩ := WritePool.push_light (X := X) s.through f d
        exact ⟨trivial, hthrough.trans (hk e c.choice s.through f failed d hf hd ha).symm, hlight⟩
      · simp only [if_neg ha]
        exact ⟨trivial, rfl, .idle _⟩

theorem awaited_eq (hk : Immediate k env) (e : E) (c : C) {s : WritePool S H D X} (hs : s.Light) :
    (awaited k env e c s).1 = (env e c s.through).1 ∧
      (awaited k env e c s).2.through = (env e c s.through).2 ∧ (awaited k env e c s).2.Light :=
  delayed_eq hk e hs hs.drained

/-- A program runs on such a pool as it does without one. -/
theorem run_awaited (hk : Immediate k env) {α : Type} (p : Program E R α) (cs : List C)
    {s : WritePool S H D X} (hs : s.Light) :
    (run (awaited k env) p cs s).map (fun x => (x.1, x.2.through)) = run env p cs s.through ∧
      ∀ x, run (awaited k env) p cs s = some x → x.2.Light := by
  induction p generalizing cs s with
  | done a =>
    cases cs with
    | nil =>
      refine ⟨rfl, fun x hx => ?_⟩
      cases hx
      exact hs
    | cons c cs => exact ⟨rfl, fun x hx => by cases hx⟩
  | call e p ih =>
    cases cs with
    | nil => exact ⟨rfl, fun x hx => by cases hx⟩
    | cons c cs =>
      obtain ⟨hr, hthrough, hlight⟩ := awaited_eq hk e c hs
      unfold run
      rw [← hthrough, ← hr]
      exact ih _ cs hlight

/-! ## Systems with a pool -/

variable {α N T G : Type}

/-- The same tasks over a pool. What is noted is what there is once the pool is through. -/
def delayed_system (k : Waiting E R C H D X) (sys : System E R C S α N G T) :
    System E R (PoolChoice C X) (WritePool S H D X) α N G T where
  env := delayed k sys.env
  start := sys.start
  next := sys.next
  record i n e r s s' := sys.record i n e r s.through s'.through

/-- The tasks, with the state that there is once the pool is through. -/
def behind (p : Pool E R α N (WritePool S H D X) G) : Pool E R α N S G :=
  ⟨p.threads, p.state.through, p.history⟩

/-- What happens, but for what the pool does. -/
def before_pool : Event (PoolChoice C X) (WritePool S H D X) T → Event C S T
  | .spawn t => .spawn t
  | .call i c => .call i c.choice
  | .crash => .crash
  | .outside s => .outside s.through

/-- When a call is made, the pool is through with all writes, and none has failed. -/
def Prompt (p : Pool E R α N (WritePool S H D X) G) :
    Event (PoolChoice C X) (WritePool S H D X) T → Prop
  | .spawn _ => True
  | .call _ c => (c.events.foldl WritePool.event p.state).pending.isEmpty = true
  | .crash => p.state.pending.isEmpty = true
  | .outside s => s.pending.isEmpty = true

instance (p : Pool E R α N (WritePool S H D X) G) :
    (ev : Event (PoolChoice C X) (WritePool S H D X) T) → Decidable (Prompt p ev)
  | .spawn _ => isTrue trivial
  | .call _ _ | .crash | .outside _ => inferInstanceAs (Decidable (_ = true))

variable {sys : System E R C S α N G T} {p q : Pool E R α N (WritePool S H D X) G}

theorem step_behind (hk : Immediate k sys.env) (hs : p.state.Light)
    {ev : Event (PoolChoice C X) (WritePool S H D X) T} (hP : Prompt p ev) :
    ((delayed_system k sys).step p ev).map behind = sys.step (behind p) (before_pool ev) ∧
      ∀ q, (delayed_system k sys).step p ev = some q → q.state.Light := by
  cases ev with
  | spawn t =>
    refine ⟨rfl, fun q hq => ?_⟩
    cases hq
    exact hs
  | crash =>
    refine ⟨rfl, fun q hq => ?_⟩
    cases hq
    exact hs
  | outside s =>
    obtain ⟨w, pending⟩ := s
    obtain rfl : pending = [] := List.isEmpty_iff.mp hP
    refine ⟨rfl, fun q hq => ?_⟩
    cases hq
    exact .idle w
  | call i c =>
    unfold System.step before_pool behind
    simp only
    cases hi : p.threads[i]? with
    | none => exact ⟨rfl, fun q hq => by cases hq⟩
    | some x =>
      obtain ⟨x, n⟩ := x
      cases x with
      | done a => exact ⟨rfl, fun q hq => by cases hq⟩
      | call e f =>
        obtain ⟨hr, hthrough, hlight⟩ := delayed_eq hk e hs (List.isEmpty_iff.mp hP)
        simp only [delayed_system, Option.map_some, hr, hthrough]
        refine ⟨trivial, fun q hq => ?_⟩
        cases hq
        exact hlight

/-- Where the pool is through by each call, the tasks run as they do without one. -/
theorem run_behind (hk : Immediate k sys.env) (hs : p.state.Light)
    {evs : List (Event (PoolChoice C X) (WritePool S H D X) T)}
    (hP : (delayed_system k sys).Along Prompt p evs)
    (hr : (delayed_system k sys).run p evs = some q) :
    sys.run (behind p) (evs.map before_pool) = some (behind q) := by
  induction evs generalizing p with
  | nil =>
    cases hr
    rfl
  | cons ev evs ih =>
    obtain ⟨hnow, hthen⟩ := hP
    obtain ⟨hstep, hlight⟩ := step_behind hk hs hnow
    unfold System.run at hr
    rw [List.map_cons]
    unfold System.run
    rw [← hstep]
    cases hp1 : (delayed_system k sys).step p ev with
    | none =>
      rw [hp1] at hr
      cases hr
    | some p1 =>
      rw [hp1] at hr hthen
      exact ih (hlight p1 hp1) hthen hr

/-- And what is said of the tasks along the way can be said of them without the pool. -/
theorem along_behind (hk : Immediate k sys.env) (hs : p.state.Light)
    {P : Pool E R α N S G → Event C S T → Prop}
    {evs : List (Event (PoolChoice C X) (WritePool S H D X) T)}
    (hP : (delayed_system k sys).Along (fun p ev => Prompt p ev ∧ P (behind p) (before_pool ev)) p
      evs) : sys.Along P (behind p) (evs.map before_pool) := by
  induction evs generalizing p with
  | nil => trivial
  | cons ev evs ih =>
    obtain ⟨⟨hnow, hp⟩, hthen⟩ := hP
    obtain ⟨hstep, hlight⟩ := step_behind hk hs hnow
    rw [List.map_cons]
    refine ⟨hp, ?_⟩
    rw [← hstep]
    cases hp1 : (delayed_system k sys).step p ev with
    | none => trivial
    | some p1 =>
      rw [hp1] at hthen
      exact ih (hlight p1 hp1) hthen

end

end edge_cdn_store.write_pools
