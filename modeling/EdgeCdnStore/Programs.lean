-- Programs that call an environment. A program is a tree: it is done with a
-- value, or it makes one call and goes on with the reply. The environment is a
-- state that answers the calls, and at each call it is free to make a choice.
import Mathlib

namespace edge_cdn_store.programs

/-- A program over the calls `E`, where the call `e` gets a reply of type `R e`. -/
inductive Program (E : Type) (R : E → Type) (α : Type) : Type
  | done (a : α)
  | call (e : E) (k : R e → Program E R α)

/-- An environment with states `S`: it answers a call, after a choice of its own. -/
abbrev Environment (E : Type) (R : E → Type) (C S : Type) := (e : E) → C → S → R e × S

variable {E : Type} {R : E → Type} {C S α β : Type}

namespace Program

def bind : Program E R α → (α → Program E R β) → Program E R β
  | .done a, f => f a
  | .call e k, f => .call e (fun r => (k r).bind f)

/-- The program that makes one call and gives its reply. -/
def perform (e : E) : Program E R (R e) := .call e .done

instance : Monad (Program E R) where
  pure := .done
  bind := Program.bind

theorem bind_done (p : Program E R α) : p.bind .done = p := by
  induction p with
  | done a => rfl
  | call e k ih => simp only [bind, ih]

theorem bind_assoc {γ : Type} (p : Program E R α) (f : α → Program E R β)
    (g : β → Program E R γ) : (p.bind f).bind g = p.bind (fun a => (f a).bind g) := by
  induction p with
  | done a => rfl
  | call e k ih => simp only [bind, ih]

instance : LawfulMonad (Program E R) :=
  LawfulMonad.mk' (Program E R) (fun p => bind_done p) (fun _ _ => rfl)
    (fun p f g => bind_assoc p f g)

/-! ## A whole run -/

/-- Run a program to its end with a list of choices, one for each call. -/
def run (env : Environment E R C S) : Program E R α → List C → S → Option (α × S)
  | .done a, [], s => some (a, s)
  | .done _, _ :: _, _ => none
  | .call _ _, [], _ => none
  | .call e k, c :: cs, s => run env (k (env e c s).1) cs (env e c s).2

/-- The weakest precondition of `Q`: every run whose choices are all `ok` ends in `Q`. -/
def wp (env : Environment E R C S) (ok : C → Prop) :
    Program E R α → (α → S → Prop) → S → Prop
  | .done a, Q, s => Q a s
  | .call e k, Q, s => ∀ c, ok c → wp env ok (k (env e c s).1) Q (env e c s).2

variable {env : Environment E R C S} {ok : C → Prop}

@[simp] theorem wp_pure (a : α) (Q : α → S → Prop) (s : S) :
    wp env ok (pure a) Q s ↔ Q a s := Iff.rfl

@[simp] theorem wp_perform (e : E) (Q : R e → S → Prop) (s : S) :
    wp env ok (perform e) Q s ↔ ∀ c, ok c → Q (env e c s).1 (env e c s).2 := Iff.rfl

@[simp] theorem wp_bind (p : Program E R α) (f : α → Program E R β) (Q : β → S → Prop) (s : S) :
    wp env ok (p >>= f) Q s ↔ wp env ok p (fun a s' => wp env ok (f a) Q s') s := by
  change wp env ok (p.bind f) Q s ↔ _
  induction p generalizing s with
  | done a => rfl
  | call e k ih =>
    simp only [bind, wp]
    exact forall_congr' fun c => imp_congr_right fun _ => ih _ _

theorem wp_mono {p : Program E R α} {Q Q' : α → S → Prop} {s : S} (h : wp env ok p Q s)
    (hQ : ∀ a s', Q a s' → Q' a s') : wp env ok p Q' s := by
  induction p generalizing s with
  | done a => exact hQ a s h
  | call e k ih => exact fun c hc => ih _ (h c hc)

theorem wp_of_forall {Q : α → S → Prop} (h : ∀ a s, Q a s) (p : Program E R α) (s : S) :
    wp env ok p Q s := by
  induction p generalizing s with
  | done a => exact h a s
  | call e k ih => exact fun c _ => ih _ _

theorem wp_and {p : Program E R α} {Q Q' : α → S → Prop} {s : S} (h : wp env ok p Q s)
    (h' : wp env ok p Q' s) : wp env ok p (fun a s => Q a s ∧ Q' a s) s := by
  induction p generalizing s with
  | done a => exact ⟨h, h'⟩
  | call e k ih => exact fun c hc => ih _ (h c hc) (h' c hc)

/-- A run with choices that are all `ok` ends in the postcondition. -/
theorem run_sound {p : Program E R α} {Q : α → S → Prop} {cs : List C} {s s' : S} {a : α}
    (hrun : run env p cs s = some (a, s')) (hcs : ∀ c ∈ cs, ok c) (h : wp env ok p Q s) :
    Q a s' := by
  induction p generalizing cs s with
  | done b =>
    cases cs with
    | nil => simp only [run, Option.some.injEq, Prod.mk.injEq] at hrun; exact hrun.1 ▸ hrun.2 ▸ h
    | cons c cs => simp [run] at hrun
  | call e k ih =>
    cases cs with
    | nil => simp [run] at hrun
    | cons c cs =>
      exact ih _ hrun (fun d hd => hcs d (List.mem_cons_of_mem _ hd))
        (h c (hcs c List.mem_cons_self))

/-- Every program runs to an end: some list of `ok` choices is as long as it needs. -/
theorem run_exists (p : Program E R α) (s : S) (c : C) (hc : ok c) :
    ∃ cs a s', (∀ c ∈ cs, ok c) ∧ run env p cs s = some (a, s') := by
  induction p generalizing s with
  | done a => exact ⟨[], a, s, by simp, rfl⟩
  | call e k ih =>
    obtain ⟨cs, a, s', hcs, hrun⟩ := ih (env e c s).1 (env e c s).2
    refine ⟨c :: cs, a, s', ?_, hrun⟩
    intro d hd
    rcases List.mem_cons.mp hd with rfl | hd
    · exact hc
    · exact hcs d hd

/-! ## Two environments -/

/-- Every call that the program can come to is one of `P`. -/
def Calls (P : E → Prop) : Program E R α → Prop
  | .done _ => True
  | .call e k => P e ∧ ∀ r, (k r).Calls P

variable {P : E → Prop}

@[simp] theorem calls_pure (a : α) : (pure a : Program E R α).Calls P := trivial

@[simp] theorem calls_perform {e : E} : (perform e : Program E R (R e)).Calls P ↔ P e :=
  ⟨fun h => h.1, fun h => ⟨h, fun _ => trivial⟩⟩

theorem calls_bind {p : Program E R α} {f : α → Program E R β} (hp : p.Calls P)
    (hf : ∀ a, (f a).Calls P) : (p >>= f).Calls P := by
  change (p.bind f).Calls P
  induction p with
  | done a => exact hf a
  | call e k ih => exact ⟨hp.1, fun r => ih r (hp.2 r)⟩

theorem calls_and {P' : E → Prop} {p : Program E R α} (hp : p.Calls P) (hp' : p.Calls P') :
    p.Calls (fun e => P e ∧ P' e) := by
  induction p with
  | done a => trivial
  | call e k ih => exact ⟨⟨hp.1, hp'.1⟩, fun r => ih r (hp.2 r) (hp'.2 r)⟩

theorem calls_mono {P' : E → Prop} {p : Program E R α} (hp : p.Calls P)
    (h : ∀ e, P e → P' e) : p.Calls P' := by
  induction p with
  | done a => trivial
  | call e k ih => exact ⟨h e hp.1, fun r => ih r (hp.2 r)⟩

/-- What each call keeps, the program keeps. -/
theorem wp_keeps {I : S → Prop} {p : Program E R α} {s : S} (hp : p.Calls P)
    (hstep : ∀ e c s, P e → ok c → I s → I (env e c s).2) (hs : I s) :
    wp env ok p (fun _ s' => I s') s := by
  induction p generalizing s with
  | done a => exact hs
  | call e k ih =>
    intro c hc
    exact ih _ (hp.2 _) (hstep e c s hp.1 hc hs)

/-- Where each call of one environment is matched by the same call of another, what holds
after every run of the second holds after every run of the first. -/
theorem wp_of_simulation {C' S' : Type} {env' : Environment E R C' S'} {ok' : C' → Prop}
    {T : S → S' → Prop} {p : Program E R α} {Q : α → S' → Prop} {s : S} {s' : S'}
    (hstep : ∀ e c s s', P e → ok c → T s s' → ∃ c', ok' c' ∧
      (env e c s).1 = (env' e c' s').1 ∧ T (env e c s).2 (env' e c' s').2)
    (hp : p.Calls P) (ht : T s s') (h : wp env' ok' p Q s') :
    wp env ok p (fun a s => ∃ s', T s s' ∧ Q a s') s := by
  induction p generalizing s s' with
  | done a => exact ⟨s', ht, h⟩
  | call e k ih =>
    intro c hc
    obtain ⟨c', hc', hr, ht'⟩ := hstep e c s s' hp.1 hc ht
    rw [hr]
    exact ih _ (hp.2 _) ht' (h c' hc')

/-- An environment that chooses as another one could has no runs of its own. -/
theorem run_of_narrower {C' : Type} {env' : Environment E R C' S} {f : E → C' → S → C}
    (henv : ∀ e c s, env' e c s = env e (f e c s) s) {p : Program E R α} {cs : List C'} {s : S}
    {r : α × S} (h : run env' p cs s = some r) : ∃ cs', run env p cs' s = some r := by
  induction p generalizing cs s with
  | done a =>
    cases cs with
    | nil => exact ⟨[], h⟩
    | cons c cs => simp [run] at h
  | call e k ih =>
    cases cs with
    | nil => simp [run] at h
    | cons c cs =>
      simp only [run, henv] at h
      obtain ⟨cs', hcs'⟩ := ih _ h
      exact ⟨f e c s :: cs', hcs'⟩

theorem wp_of_narrower {C' : Type} {env' : Environment E R C' S} {f : E → C' → S → C}
    {ok' : C' → Prop} (henv : ∀ e c s, env' e c s = env e (f e c s) s)
    (hok : ∀ e c s, ok' c → ok (f e c s)) {p : Program E R α} {Q : α → S → Prop} {s : S}
    (h : wp env ok p Q s) : wp env' ok' p Q s := by
  induction p generalizing s with
  | done a => exact h
  | call e k ih =>
    intro c hc
    rw [henv]
    exact ih _ (h _ (hok e c s hc))

end Program

end edge_cdn_store.programs
