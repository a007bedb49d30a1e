-- The fan-out handler of `tiered/fan_out.rs`, which nothing makes yet. It has a
-- primary and a secondary handler. An error of the primary is an error of the
-- fan-out, and an error of the secondary is ignored. So what the secondary does is
-- not seen by the primary, nor by the owner.
import EdgeCdnStore.MissHandlers

open edge_cdn_store.io edge_cdn_store.logger edge_cdn_store.disk_cache
open edge_cdn_store.miss_handlers

namespace edge_cdn_store.fan_out

structure FanoutMiss (H H' : Type) where
  primary : Option H
  secondary : Option H'
  created_bytes_primary : Nat
  deriving DecidableEq

section
variable {P : Type → Type} [Monad P] {H H' : Type}

/-- What becomes of a handler that is there and that nobody takes. -/
def drop_field (i : HandleMiss P H) : Option H → P Unit
  | none => return ()
  | some h => i.drop h

namespace FanoutMiss

def write_body (i : HandleMiss P H) (j : HandleMiss P H') (self : FanoutMiss H H') (data : Bytes)
    (is_eof : Bool) : P (Result Unit × FanoutMiss H H') := do
  let fn_name := "write_body"
  match self.primary with
  | none => return (trace_fn_exit_with_err fn_name "primary miss handler missing" none false, self)
  | some p =>
    let (r, p) ← i.write_body p data is_eof
    let self := { self with primary := some p }
    match r with
    | .error e => return (.error e, self)
    | .ok () =>
      match self.secondary with
      | none => return (.ok (), self)
      | some s =>
        -- an error of the secondary is logged, and the next chunk goes to it all the same
        let (_, s) ← j.write_body s data is_eof
        return (.ok (), { self with secondary := some s })

/-- `finish` consumes the handler, so what it does not take is dropped on each way out. -/
def finish (i : HandleMiss P H) (j : HandleMiss P H') (self : FanoutMiss H H') :
    P (Result MissFinishType) := do
  let fn_name := "finish"
  match self.primary with
  | none =>
    drop_field j self.secondary
    return trace_fn_exit_with_err fn_name "primary miss handler missing at finish" none false
  | some primary =>
    let me : FanoutMiss H H' := { self with primary := none }
    match ← i.finish primary with
    | .error e =>
      drop_field j me.secondary
      return .error e
    | .ok result =>
      let me := match result with
        | .Created n => { me with created_bytes_primary := n }
        | .Appended _ => me
      match me.secondary with
      | none => return .ok result
      | some s =>
        let _ ← j.finish s
        return .ok result

/-- The fields of a handler that is dropped are dropped in their order. -/
def drop (i : HandleMiss P H) (j : HandleMiss P H') (self : FanoutMiss H H') : P Unit := do
  drop_field i self.primary
  drop_field j self.secondary

/-- `impl HandleMiss for FanoutMiss` -/
def handle_miss (i : HandleMiss P H) (j : HandleMiss P H') : HandleMiss P (FanoutMiss H H') :=
  ⟨write_body i j, finish i j, drop i j⟩

end FanoutMiss

end

/-! ## Two handlers that share nothing -/

-- A handler is any one that goes by a state of its own. What it is free to do, as
-- the operating system chooses, is in that state.

inductive Tier
  | primary
  | secondary
  deriving DecidableEq, Repr

inductive MissCall
  | write_body (data : Bytes) (is_eof : Bool)
  | finish
  | drop
  deriving DecidableEq

/-- A call on one of the two handlers, and whether it succeeded. -/
structure Entry where
  tier : Tier
  call : MissCall
  ok : Bool
  deriving DecidableEq

/-- The states of the two handlers, and all calls on them, the last one at the end. -/
structure Both (S T : Type) where
  primary : S
  secondary : T
  log : List Entry

section
variable {S T H : Type}

/-- The handler as the primary: its calls go by the state of the primary, and to the log. -/
def as_primary (i : HandleMiss (StateM S) H) : HandleMiss (StateM (Both S T)) H where
  write_body h data is_eof := fun b =>
    let x := (i.write_body h data is_eof).run b.primary
    (x.1, { b with
      primary := x.2, log := b.log ++ [⟨.primary, .write_body data is_eof, x.1.1.isOk⟩] })
  finish h := fun b =>
    let x := (i.finish h).run b.primary
    (x.1, { b with primary := x.2, log := b.log ++ [⟨.primary, .finish, x.1.isOk⟩] })
  drop h := fun b =>
    let x := (i.drop h).run b.primary
    (x.1, { b with primary := x.2, log := b.log ++ [⟨.primary, .drop, true⟩] })

/-- The handler as the secondary. -/
def as_secondary (i : HandleMiss (StateM T) H) : HandleMiss (StateM (Both S T)) H where
  write_body h data is_eof := fun b =>
    let x := (i.write_body h data is_eof).run b.secondary
    (x.1, { b with
      secondary := x.2, log := b.log ++ [⟨.secondary, .write_body data is_eof, x.1.1.isOk⟩] })
  finish h := fun b =>
    let x := (i.finish h).run b.secondary
    (x.1, { b with secondary := x.2, log := b.log ++ [⟨.secondary, .finish, x.1.isOk⟩] })
  drop h := fun b =>
    let x := (i.drop h).run b.secondary
    (x.1, { b with secondary := x.2, log := b.log ++ [⟨.secondary, .drop, true⟩] })

end

/-! ## What is called on the secondary -/

/-- What is called on the secondary after a call on the primary: nothing, or the same when the
primary succeeded. When the finish of the primary failed, the secondary is dropped with the
fan-out. -/
def Echo (e : Entry) (more : List Entry) : Prop :=
  more = [] ∨ (e.ok = true ∧ ∃ ok, more = [⟨.secondary, e.call, ok⟩]) ∨
    (e.call = .finish ∧ e.ok = false ∧ more = [⟨.secondary, .drop, true⟩])

/-- Each call on the secondary is an echo of the call on the primary just before it. -/
inductive Orderly : List Entry → Prop
  | nil : Orderly []
  | call {log more : List Entry} (h : Orderly log) (e : Entry) (he : e.tier = .primary)
      (hmore : Echo e more) : Orderly (log ++ e :: more)

/-- The calls on the primary. -/
def primary_calls (log : List Entry) : List Entry := log.filter fun e => e.tier = .primary

theorem primary_calls_append {log more : List Entry} {e : Entry} (he : e.tier = .primary)
    (hmore : Echo e more) : primary_calls (log ++ e :: more) = primary_calls log ++ [e] := by
  have hnone : primary_calls more = [] := by
    rcases hmore with rfl | ⟨_, ok, rfl⟩ | ⟨_, _, rfl⟩ <;> rfl
  unfold primary_calls at hnone ⊢
  rw [List.filter_append, List.filter_cons_of_pos (by simp [he]), hnone]

/-- A call on the primary comes to both logs, and its echo is not one on the primary. -/
theorem primary_calls_call {log log' more : List Entry} {e : Entry}
    (h : primary_calls log = primary_calls log') (he : e.tier = .primary) (hmore : Echo e more) :
    primary_calls (log ++ e :: more) = primary_calls (log' ++ [e]) := by
  rw [primary_calls_append he hmore, primary_calls_append he (Or.inl rfl), h]

/-- A program in a state goes on with what its first part gave. -/
theorem run_bind_of {σ α β : Type} {m : StateM σ α} {f : α → StateM σ β} {s s' : σ} {a : α}
    (h : m.run s = (a, s')) : (m >>= f).run s = (f a).run s' := by
  rw [StateT.run_bind, h]
  rfl

/-! ## One call -/

section
variable {S T H : Type} {i : HandleMiss (StateM S) H} {j : HandleMiss (StateM T) H} {h : H}
  {b : Both S T} {s : S} {t : T}

theorem as_primary_write_body {data : Bytes} {is_eof : Bool} {r : Result Unit} {h' : H}
    (hx : (i.write_body h data is_eof).run b.primary = ((r, h'), s)) :
    ((as_primary i).write_body h data is_eof).run b = ((r, h'), { b with
      primary := s, log := b.log ++ [⟨.primary, .write_body data is_eof, r.isOk⟩] }) := by
  change (((i.write_body h data is_eof).run b.primary).1, _) = _
  rw [hx]

theorem as_primary_finish {r : Result MissFinishType} (hx : (i.finish h).run b.primary = (r, s)) :
    ((as_primary i).finish h).run b = (r, { b with
      primary := s, log := b.log ++ [⟨.primary, .finish, r.isOk⟩] }) := by
  change (((i.finish h).run b.primary).1, _) = _
  rw [hx]

theorem as_primary_drop {u : Unit} (hx : (i.drop h).run b.primary = (u, s)) :
    ((as_primary i).drop h).run b = (u, { b with
      primary := s, log := b.log ++ [⟨.primary, .drop, true⟩] }) := by
  change (((i.drop h).run b.primary).1, _) = _
  rw [hx]

theorem as_secondary_write_body (b : Both S T) {data : Bytes} {is_eof : Bool} {r : Result Unit}
    {h' : H}
    (hx : (j.write_body h data is_eof).run b.secondary = ((r, h'), t)) :
    ((as_secondary j).write_body h data is_eof).run b = ((r, h'), { b with
      secondary := t, log := b.log ++ [⟨.secondary, .write_body data is_eof, r.isOk⟩] }) := by
  change (((j.write_body h data is_eof).run b.secondary).1, _) = _
  rw [hx]

theorem as_secondary_finish (b : Both S T) {r : Result MissFinishType}
    (hx : (j.finish h).run b.secondary = (r, t)) :
    ((as_secondary j).finish h).run b = (r, { b with
      secondary := t, log := b.log ++ [⟨.secondary, .finish, r.isOk⟩] }) := by
  change (((j.finish h).run b.secondary).1, _) = _
  rw [hx]

theorem as_secondary_drop (b : Both S T) {u : Unit} (hx : (j.drop h).run b.secondary = (u, t)) :
    ((as_secondary j).drop h).run b = (u, { b with
      secondary := t, log := b.log ++ [⟨.secondary, .drop, true⟩] }) := by
  change (((j.drop h).run b.secondary).1, _) = _
  rw [hx]

end

section
variable {S T H H' : Type} {i : HandleMiss (StateM S) H} {j : HandleMiss (StateM T) H'}
  {h : H} {o : Option H'} {n : Nat} {b : Both S T}

/-- A write gives what the primary gives, and the secondary hears of it when it succeeded. -/
theorem write_body_run {data : Bytes} {is_eof : Bool} {r : Result Unit} {h' : H} {s : S}
    (hx : (i.write_body h data is_eof).run b.primary = ((r, h'), s)) :
    ∃ o' t more, (FanoutMiss.write_body (as_primary i) (as_secondary j) ⟨some h, o, n⟩ data
        is_eof).run b = ((r, ⟨some h', o', n⟩),
          ⟨s, t, b.log ++ ⟨.primary, .write_body data is_eof, r.isOk⟩ :: more⟩) ∧
      Echo ⟨.primary, .write_body data is_eof, r.isOk⟩ more := by
  unfold FanoutMiss.write_body
  simp only
  rw [run_bind_of (as_primary_write_body hx)]
  cases r with
  | error e => exact ⟨o, b.secondary, [], rfl, Or.inl rfl⟩
  | ok u =>
    cases o with
    | none => exact ⟨none, b.secondary, [], rfl, Or.inl rfl⟩
    | some s' =>
      -- the secondary gets the same chunk, and what it answers goes nowhere
      rcases hy : (j.write_body s' data is_eof).run b.secondary with ⟨⟨r', s''⟩, t⟩
      refine ⟨some s'', t, [⟨.secondary, .write_body data is_eof, r'.isOk⟩], ?_,
        Or.inr (Or.inl ⟨rfl, _, rfl⟩)⟩
      refine (run_bind_of (as_secondary_write_body ⟨s, b.secondary, _⟩ hy)).trans ?_
      rw [List.append_assoc]
      rfl

theorem finish_run {r : Result MissFinishType} {s : S}
    (hx : (i.finish h).run b.primary = (r, s)) :
    ∃ t more, (FanoutMiss.finish (as_primary i) (as_secondary j) ⟨some h, o, n⟩).run b =
        (r, ⟨s, t, b.log ++ ⟨.primary, .finish, r.isOk⟩ :: more⟩) ∧
      Echo ⟨.primary, .finish, r.isOk⟩ more := by
  unfold FanoutMiss.finish
  simp only
  rw [run_bind_of (as_primary_finish hx)]
  cases r with
  | error e =>
    cases o with
    | none => exact ⟨b.secondary, [], rfl, Or.inl rfl⟩
    | some s' =>
      rcases hy : (j.drop s').run b.secondary with ⟨u, t⟩
      refine ⟨t, [⟨.secondary, .drop, true⟩], ?_, Or.inr (Or.inr ⟨rfl, rfl, rfl⟩)⟩
      refine (run_bind_of (as_secondary_drop ⟨s, b.secondary, _⟩ hy)).trans ?_
      rw [List.append_assoc]
      rfl
  | ok result =>
    cases o with
    | none =>
      refine ⟨b.secondary, [], ?_, Or.inl rfl⟩
      cases result <;> rfl
    | some s' =>
      rcases hy : (j.finish s').run b.secondary with ⟨r', t⟩
      refine ⟨t, [⟨.secondary, .finish, r'.isOk⟩], ?_, Or.inr (Or.inl ⟨rfl, _, rfl⟩)⟩
      cases result <;>
      · refine (run_bind_of (as_secondary_finish ⟨s, b.secondary, _⟩ hy)).trans ?_
        rw [List.append_assoc]
        rfl

theorem drop_run {s : S} {u : Unit} (hx : (i.drop h).run b.primary = (u, s)) :
    ∃ t more, (FanoutMiss.drop (as_primary i) (as_secondary j) ⟨some h, o, n⟩).run b =
        ((), ⟨s, t, b.log ++ ⟨.primary, .drop, true⟩ :: more⟩) ∧
      Echo ⟨.primary, .drop, true⟩ more := by
  unfold FanoutMiss.drop drop_field
  simp only
  rw [run_bind_of (as_primary_drop hx)]
  cases o with
  | none => exact ⟨b.secondary, [], rfl, Or.inl rfl⟩
  | some s' =>
    rcases hy : (j.drop s').run b.secondary with ⟨v, t⟩
    refine ⟨t, [⟨.secondary, .drop, true⟩], ?_, Or.inr (Or.inl ⟨rfl, _, rfl⟩)⟩
    refine (as_secondary_drop ⟨s, b.secondary, _⟩ hy).trans ?_
    rw [List.append_assoc]
    rfl

end

/-! ## Whole courses -/

/-- What is seen from the side of the primary: what the owner gets, the calls on the primary, and
the state that it is left in. -/
structure Seen (S : Type) where
  gains : Gains
  calls : List Entry
  state : S

def seen {S T : Type} (x : Gains × Both S T) : Seen S := ⟨x.1, primary_calls x.2.log, x.2.primary⟩

section
variable {S T H H' : Type}

/-- The owner of a fan-out handler takes a course with it. -/
def fan_out_run (i : HandleMiss (StateM S) H) (j : HandleMiss (StateM T) H')
    (fan : FanoutMiss H H') (course : Course) (b : Both S T) : Gains × Both S T :=
  (course.program (FanoutMiss.handle_miss (as_primary i) (as_secondary j)) fan).run b

/-- The owner of the primary alone takes it. -/
def alone_run (i : HandleMiss (StateM S) H) (h : H) (course : Course) (b : Both S Unit) :
    Gains × Both S Unit :=
  (course.program (as_primary i) h).run b

variable (i : HandleMiss (StateM S) H) (j : HandleMiss (StateM T) H')

/-- A fan-out is seen as its primary alone, and its log stays orderly. -/
theorem fan_out_run_seen (course : Course) (h : H) (o : Option H') (n : Nat) (b : Both S T)
    (b' : Both S Unit) (hs : b.primary = b'.primary)
    (hlog : primary_calls b.log = primary_calls b'.log) (horder : Orderly b.log) :
    seen (fan_out_run i j ⟨some h, o, n⟩ course b) = seen (alone_run i h course b') ∧
      Orderly (fan_out_run i j ⟨some h, o, n⟩ course b).2.log := by
  induction course generalizing h o b b' with
  | finish =>
    rcases hx : (i.finish h).run b.primary with ⟨r, s⟩
    obtain ⟨t, more, hrun, hmore⟩ := finish_run (j := j) (o := o) (n := n) hx
    have hfan : fan_out_run i j ⟨some h, o, n⟩ .finish b = (⟨[], some r⟩, _) := run_bind_of hrun
    rw [hs] at hx
    have halone : alone_run i h .finish b' = (⟨[], some r⟩, _) := run_bind_of (as_primary_finish hx)
    rw [hfan, halone]
    refine ⟨?_, .call horder _ rfl hmore⟩
    simp only [seen, Seen.mk.injEq, true_and, and_true]
    exact primary_calls_call hlog rfl hmore
  | drop =>
    rcases hx : (i.drop h).run b.primary with ⟨u, s⟩
    obtain ⟨t, more, hrun, hmore⟩ := drop_run (j := j) (o := o) (n := n) hx
    have hfan : fan_out_run i j ⟨some h, o, n⟩ .drop b = (⟨[], none⟩, _) := run_bind_of hrun
    rw [hs] at hx
    have halone : alone_run i h .drop b' = (⟨[], none⟩, _) := run_bind_of (as_primary_drop hx)
    rw [hfan, halone]
    refine ⟨?_, .call horder _ rfl hmore⟩
    simp only [seen, Seen.mk.injEq, true_and, and_true]
    exact primary_calls_call hlog rfl hmore
  | write_body data is_eof after ih =>
    rcases hx : (i.write_body h data is_eof).run b.primary with ⟨⟨r, h'⟩, s⟩
    obtain ⟨o', t, more, hrun, hmore⟩ := write_body_run (j := j) (o := o) (n := n) hx
    rw [hs] at hx
    have hfan : fan_out_run i j ⟨some h, o, n⟩ (.write_body data is_eof after) b =
        let y := fan_out_run i j ⟨some h', o', n⟩ (after r) _
        (⟨r :: y.1.writes, y.1.finish⟩, y.2) := (run_bind_of hrun).trans rfl
    have halone : alone_run i h (.write_body data is_eof after) b' =
        let y := alone_run i h' (after r) _
        (⟨r :: y.1.writes, y.1.finish⟩, y.2) := (run_bind_of (as_primary_write_body hx)).trans rfl
    -- the rest of the course starts where both have the same behind them
    have hnew := primary_calls_call hlog rfl hmore
    have horder' := Orderly.call horder _ rfl hmore
    obtain ⟨hseen, hrest⟩ := ih r h' o' ⟨s, t, _⟩ ⟨s, b'.secondary, _⟩ rfl hnew horder'
    rw [hfan, halone]
    refine ⟨?_, hrest⟩
    simp only [seen, Seen.mk.injEq] at hseen ⊢
    obtain ⟨hgains, hcalls, hstate⟩ := hseen
    refine ⟨?_, hcalls, hstate⟩
    rw [hgains]

/-- Whatever its secondary is and does, a fan-out handler gives its owner what its primary gives
alone, makes the same calls on the primary and leaves it in the same state. So two secondaries
cannot be told apart. A write or a finish of the secondary comes only after the same call of the
primary, which succeeded; after a finish of the primary that failed the secondary is dropped. -/
theorem the_secondary_cannot_disturb_the_primary {T' H'' : Type} (j' : HandleMiss (StateM T') H'')
    (h : H) (o : Option H') (o' : Option H'') (n n' : Nat) (course : Course) (s : S) (t : T)
    (t' : T') :
    seen (fan_out_run i j ⟨some h, o, n⟩ course ⟨s, t, []⟩) =
      seen (fan_out_run i j' ⟨some h, o', n'⟩ course ⟨s, t', []⟩) ∧
    seen (fan_out_run i j ⟨some h, o, n⟩ course ⟨s, t, []⟩) =
      seen (alone_run i h course ⟨s, (), []⟩) ∧
    Orderly (fan_out_run i j ⟨some h, o, n⟩ course ⟨s, t, []⟩).2.log := by
  obtain ⟨hseen, horder⟩ := fan_out_run_seen i j course h o n ⟨s, t, []⟩ ⟨s, (), []⟩ rfl rfl .nil
  obtain ⟨hseen', _⟩ := fan_out_run_seen i j' course h o' n' ⟨s, t', []⟩ ⟨s, (), []⟩ rfl rfl .nil
  exact ⟨hseen.trans hseen'.symm, hseen, horder⟩

end

end edge_cdn_store.fan_out
