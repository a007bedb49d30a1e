-- Programs that run at the same time over one environment. At each step one of
-- them makes its next call, so the calls of all come in any order. Beside each
-- program stands a note of what it has done, and beside the state a history. No
-- call reads either of them.
import EdgeCdnStore.Programs

open edge_cdn_store.programs

namespace edge_cdn_store.programs.Program

variable {E : Type} {R : E → Type} {α β N : Type}

/-! ## What a program may call -/

/-- The program calls only what `allows` gives for the note beside it, where each reply
changes the note, and it ends with a value and a note as `Q` says. -/
def Obeys (allows : N → E → Prop) (next : N → (e : E) → R e → N) :
    Program E R α → (α → N → Prop) → N → Prop
  | .done a, Q, n => Q a n
  | .call e k, Q, n => allows n e ∧ ∀ r, Obeys allows next (k r) Q (next n e r)

variable {allows : N → E → Prop} {next : N → (e : E) → R e → N}

@[simp] theorem obeys_pure (a : α) (Q : α → N → Prop) (n : N) :
    Obeys allows next (pure a : Program E R α) Q n ↔ Q a n := Iff.rfl

@[simp] theorem obeys_perform (e : E) (Q : R e → N → Prop) (n : N) :
    Obeys allows next (perform e) Q n ↔ allows n e ∧ ∀ r, Q r (next n e r) := Iff.rfl

@[simp] theorem obeys_bind (p : Program E R α) (f : α → Program E R β) (Q : β → N → Prop) (n : N) :
    Obeys allows next (p >>= f) Q n ↔
      Obeys allows next p (fun a n' => Obeys allows next (f a) Q n') n := by
  change Obeys allows next (p.bind f) Q n ↔ _
  induction p generalizing n with
  | done a => rfl
  | call e k ih =>
    simp only [bind, Obeys]
    exact and_congr_right fun _ => forall_congr' fun r => ih r _

theorem obeys_mono {p : Program E R α} {Q Q' : α → N → Prop} {n : N}
    (h : Obeys allows next p Q n) (hQ : ∀ a n', Q a n' → Q' a n') :
    Obeys allows next p Q' n := by
  induction p generalizing n with
  | done a => exact hQ a n h
  | call e k ih => exact ⟨h.1, fun r => ih r (h.2 r)⟩

/-- Other notes beside the same program, each of which goes with the one that was there: then
the program keeps to what they say, if every call of it is right for both. -/
theorem obeys_beside {N' : Type} {allows' : N' → E → Prop} {next' : N' → (e : E) → R e → N'}
    {Q : α → N → Prop} {Q' : α → N' → Prop} {J : N → N' → Prop} {p : Program E R α} {n : N}
    {n' : N'} (h : Obeys allows next p Q n) (hn : J n n')
    (hstep : ∀ n n' e, J n n' → allows n e →
      allows' n' e ∧ ∀ r, J (next n e r) (next' n' e r))
    (hQ : ∀ a n n', Q a n → J n n' → Q' a n') : Obeys allows' next' p Q' n' := by
  induction p generalizing n n' with
  | done a => exact hQ a n n' h hn
  | call e k ih =>
    obtain ⟨hallows, hnext⟩ := hstep n n' e hn h.1
    exact ⟨hallows, fun r => ih r (h.2 r) (hnext r)⟩

/-- What a program may call, where `I` stays true of the note beside it. -/
theorem calls_of_obeys {p : Program E R α} {Q : α → N → Prop} {n : N} {P : E → Prop}
    (h : Obeys allows next p Q n) (I : N → Prop) (hn : I n)
    (hnext : ∀ n e r, I n → I (next n e r)) (hP : ∀ n e, I n → allows n e → P e) :
    p.Calls P := by
  induction p generalizing n with
  | done a => trivial
  | call e k ih => exact ⟨hP n e hn h.1, fun r => ih r (h.2 r) (hnext n e r hn)⟩

/-- How a program ends in an environment, where each call that is due leaves the state one that
goes with the note. -/
theorem wp_beside {C S : Type} {env : Environment E R C S} {ok : C → Prop} {p : Program E R α}
    {Q : α → N → Prop} {n : N} {s : S} (h : Obeys allows next p Q n) (I : N → S → Prop) (hs : I n s)
    (hstep : ∀ n e c s, I n s → allows n e → I (next n e (env e c s).1) (env e c s).2) :
    wp env ok p (fun a s' => ∃ n', Q a n' ∧ I n' s') s := by
  induction p generalizing n s with
  | done a => exact ⟨n, h, hs⟩
  | call e k ih => exact fun c _ => ih _ (h.2 _) (hstep n e c s hs h.1)

end edge_cdn_store.programs.Program

namespace edge_cdn_store.pools

variable {E : Type} {R : E → Type} {C S α N H T : Type}

/-! ## Pools and their runs -/

/-- The environment, the program of each task with its first note, and what is noted of a
call: beside the program that made it, and in the history, which sees the state before the
call and after it. -/
structure System (E : Type) (R : E → Type) (C S α N H T : Type) where
  env : Environment E R C S
  start : T → Program E R α × N
  next : N → (e : E) → R e → N
  record : Nat → N → (e : E) → R e → S → S → H → H

structure Pool (E : Type) (R : E → Type) (α N S H : Type) where
  threads : List (Program E R α × N)
  state : S
  history : H

def Pool.notes (p : Pool E R α N S H) : List N := p.threads.map Prod.snd

/-- The next call of a program, and the note beside it. -/
def Pool.next_call (p : Pool E R α N S H) (i : Nat) : Option (E × N) :=
  match p.threads[i]? with
  | some (.call e _, n) => some (e, n)
  | _ => none

/-- What the programs returned, each that is done. -/
def Pool.results (p : Pool E R α N S H) : List (Option α) :=
  p.threads.map fun x => match x.1 with
    | .done a => some a
    | .call _ _ => none

/-- All programs are done. -/
def Pool.Quiescent (p : Pool E R α N S H) : Prop := p.results.all Option.isSome = true

instance (p : Pool E R α N S H) : Decidable p.Quiescent := inferInstanceAs (Decidable (_ = _))

theorem Pool.Quiescent.done {p : Pool E R α N S H} (h : p.Quiescent) {x : Program E R α × N}
    (hx : x ∈ p.threads) : ∃ a, x.1 = .done a := by
  obtain ⟨y, n⟩ := x
  cases y with
  | done a => exact ⟨a, rfl⟩
  | call e k =>
    have := List.all_eq_true.mp h none (List.mem_map.mpr ⟨_, hx, rfl⟩)
    cases this

/-- A task comes, a program makes its next call, all programs are gone at once, or something
outside changes the state. -/
inductive Event (C S T : Type)
  | spawn (t : T)
  | call (i : Nat) (c : C)
  | crash
  | outside (s : S)

/-- The same program makes `n` calls, each with the choice `c`. -/
def Event.calls (i n : Nat) (c : C) : List (Event C S T) := List.replicate n (.call i c)

theorem Pool.notes_getElem? {p : Pool E R α N S H} {i : Nat} {x : Program E R α} {n : N}
    (hi : p.threads[i]? = some (x, n)) : p.notes[i]? = some n := by
  simp [Pool.notes, hi]

theorem Pool.next_call_of {p : Pool E R α N S H} {i : Nat} {e : E} {k : R e → Program E R α}
    {n : N} (hi : p.threads[i]? = some (.call e k, n)) : p.next_call i = some (e, n) := by
  unfold Pool.next_call
  rw [hi]

theorem Pool.notes_of_next_call {p : Pool E R α N S H} {i : Nat} {e : E} {n : N}
    (hi : p.next_call i = some (e, n)) : p.notes[i]? = some n := by
  unfold Pool.next_call at hi
  split at hi
  · rename_i e' k n' hthread
    cases hi
    exact Pool.notes_getElem? hthread
  · cases hi

theorem Pool.threads_of_notes {p : Pool E R α N S H} {i : Nat} {n : N}
    (hi : p.notes[i]? = some n) : ∃ x, p.threads[i]? = some (x, n) := by
  unfold Pool.notes at hi
  rw [List.getElem?_map, Option.map_eq_some_iff] at hi
  obtain ⟨⟨x, m⟩, hx, rfl⟩ := hi
  exact ⟨x, hx⟩

theorem Pool.results_of_done {p : Pool E R α N S H} {i : Nat} {a : α} {n : N}
    (hi : p.threads[i]? = some (.done a, n)) : p.results[i]? = some (some a) := by
  simp [Pool.results, hi]

/-- A program that is done has its result. -/
theorem Pool.results_getElem? {p : Pool E R α N S H} {i : Nat} {a : α}
    (h : p.results[i]? = some (some a)) : ∃ n, p.threads[i]? = some (.done a, n) := by
  unfold Pool.results at h
  rw [List.getElem?_map, Option.map_eq_some_iff] at h
  obtain ⟨⟨x, n⟩, hx, ha⟩ := h
  cases x with
  | done b =>
    cases ha
    exact ⟨n, hx⟩
  | call e k => cases ha

/-- Where a note was added, each is the new one or an old one. -/
theorem getElem?_append_cases {ns : List N} {n m : N} {j : Nat} (h : (ns ++ [n])[j]? = some m) :
    ns[j]? = some m ∨ (j = ns.length ∧ m = n) := by
  rw [List.getElem?_append] at h
  split at h
  · exact Or.inl h
  · rename_i hge
    rw [List.getElem?_singleton] at h
    split at h
    · cases h
      exact Or.inr ⟨by omega, rfl⟩
    · cases h

/-- Where a note was changed, each is the new one or an old one. -/
theorem getElem?_set_cases {ns : List N} {n m : N} {i j : Nat} (h : (ns.set i n)[j]? = some m) :
    (j = i ∧ m = n) ∨ (j ≠ i ∧ ns[j]? = some m) := by
  rw [List.getElem?_set] at h
  by_cases hij : i = j
  · rw [if_pos hij] at h
    split at h
    · cases h
      exact Or.inl ⟨hij.symm, rfl⟩
    · cases h
  · rw [if_neg hij] at h
    exact Or.inr ⟨Ne.symm hij, h⟩

/-- A note is the one that is changed, or it stays. -/
theorem getElem?_set_of {ns : List N} {n m : N} {i j : Nat} (hi : ns[i]? = some n)
    (hj : ns[j]? = some m) (n' : N) :
    (j = i ∧ m = n) ∨ (j ≠ i ∧ (ns.set i n')[j]? = some m) := by
  by_cases hji : j = i
  · subst hji
    exact Or.inl ⟨rfl, Option.some.inj (hj.symm.trans hi)⟩
  · exact Or.inr ⟨hji, (List.getElem?_set_ne (Ne.symm hji)).trans hj⟩

theorem mem_set_of_mem {ns : List N} {n x : N} {i : Nat} (hi : ns[i]? = some n) (hx : x ∈ ns)
    (n' : N) : x = n ∨ x ∈ ns.set i n' := by
  obtain ⟨j, hj⟩ := List.mem_iff_getElem?.mp hx
  rcases getElem?_set_of hi hj n' with ⟨_, h⟩ | ⟨_, h⟩
  · exact Or.inl h
  · exact Or.inr (List.mem_of_getElem? h)

/-- One note changes, and with it what it adds to a sum over all. -/
theorem sum_map_set {A : Type} [AddCommMonoid A] (f : N → A) {ns : List N} {i : Nat} {n : N}
    (hi : ns[i]? = some n) (n' : N) :
    ((ns.set i n').map f).sum + f n = (ns.map f).sum + f n' := by
  induction ns generalizing i with
  | nil => cases hi
  | cons m ns ih =>
    cases i with
    | zero =>
      cases hi
      simp only [List.set_cons_zero, List.map_cons, List.sum_cons]
      abel
    | succ i =>
      have hrest := ih (i := i) hi
      simp only [List.set_cons_succ, List.map_cons, List.sum_cons]
      rw [add_assoc, hrest, add_assoc]

namespace System

variable (sys : System E R C S α N H T)

def step (p : Pool E R α N S H) : Event C S T → Option (Pool E R α N S H)
  | .spawn t => some { p with threads := p.threads ++ [sys.start t] }
  | .call i c =>
    match p.threads[i]? with
    | some (.call e k, n) =>
      let r := (sys.env e c p.state).1
      let s := (sys.env e c p.state).2
      some
        { threads := p.threads.set i (k r, sys.next n e r)
          state := s
          history := sys.record i n e r p.state s p.history }
    | _ => none
  | .crash => some { p with threads := [] }
  | .outside s => some { p with state := s }

def run (p : Pool E R α N S H) : List (Event C S T) → Option (Pool E R α N S H)
  | [] => some p
  | ev :: evs =>
    match sys.step p ev with
    | none => none
    | some p => run p evs

/-- Every event of a run is as `P` says of it and of the pool where it comes. -/
def Along (P : Pool E R α N S H → Event C S T → Prop) (p : Pool E R α N S H) :
    List (Event C S T) → Prop
  | [] => True
  | ev :: evs =>
    P p ev ∧ match sys.step p ev with
      | none => True
      | some p => Along P p evs

instance (P : Pool E R α N S H → Event C S T → Prop) [∀ p ev, Decidable (P p ev)] :
    (p : Pool E R α N S H) → (evs : List (Event C S T)) → Decidable (sys.Along P p evs)
  | _, [] => isTrue trivial
  | p, ev :: evs =>
    have : Decidable (match sys.step p ev with
        | none => True
        | some p => sys.Along P p evs) :=
      match sys.step p ev with
      | none => isTrue trivial
      | some p => instDecidableAlong P p evs
    inferInstanceAs (Decidable (_ ∧ _))

variable {sys} in
theorem along_mono {P P' : Pool E R α N S H → Event C S T → Prop}
    (h : ∀ p ev, P p ev → P' p ev) {p : Pool E R α N S H} {evs : List (Event C S T)}
    (hP : sys.Along P p evs) : sys.Along P' p evs := by
  induction evs generalizing p with
  | nil => trivial
  | cons ev evs ih =>
    refine ⟨h p ev hP.1, ?_⟩
    have hthen := hP.2
    cases hs : sys.step p ev with
    | none => trivial
    | some q =>
      rw [hs] at hthen
      exact ih hthen

variable {sys} in
theorem along_of_prefix {P : Pool E R α N S H → Event C S T → Prop} {p : Pool E R α N S H}
    {pre evs : List (Event C S T)} (hpre : pre <+: evs) (hP : sys.Along P p evs) :
    sys.Along P p pre := by
  induction pre generalizing p evs with
  | nil => trivial
  | cons ev pre ih =>
    obtain ⟨post, rfl⟩ := hpre
    refine ⟨hP.1, ?_⟩
    have hthen := hP.2
    cases hs : sys.step p ev with
    | none => trivial
    | some q =>
      rw [hs] at hthen
      exact ih (List.prefix_append pre post) hthen

/-! ## Invariants -/

/-- Each program in the pool obeys from its note on. -/
def Obedient (allows : N → E → Prop) (Q : α → N → Prop) (p : Pool E R α N S H) : Prop :=
  ∀ x ∈ p.threads, x.1.Obeys allows sys.next Q x.2

/-- What holds of the notes, the state and the history, and is kept by every event that is
as `P` says. -/
structure Invariant (allows : N → E → Prop) (Q : α → N → Prop)
    (P : Pool E R α N S H → Event C S T → Prop) (I : List N → S → H → Prop) : Prop where
  start : ∀ p t, P p (.spawn t) → (sys.start t).1.Obeys allows sys.next Q (sys.start t).2
  spawn : ∀ p t, P p (.spawn t) → sys.Obedient allows Q p → I p.notes p.state p.history →
    I (p.notes ++ [(sys.start t).2]) p.state p.history
  call : ∀ p i c e k n, P p (.call i c) → p.threads[i]? = some (.call e k, n) → allows n e →
    I p.notes p.state p.history →
    I (p.notes.set i (sys.next n e (sys.env e c p.state).1)) (sys.env e c p.state).2
      (sys.record i n e (sys.env e c p.state).1 p.state (sys.env e c p.state).2 p.history)
  crash : ∀ p, P p .crash → I p.notes p.state p.history → I [] p.state p.history
  outside : ∀ p s, P p (.outside s) → I p.notes p.state p.history → I p.notes s p.history

variable {sys} {allows : N → E → Prop} {Q : α → N → Prop}
  {P : Pool E R α N S H → Event C S T → Prop} {I : List N → S → H → Prop}

/-- One event keeps an invariant. -/
theorem Invariant.step (h : sys.Invariant allows Q P I) {p p' : Pool E R α N S H}
    {ev : Event C S T} (hP : P p ev) (ho : sys.Obedient allows Q p)
    (hI : I p.notes p.state p.history) (hs : sys.step p ev = some p') :
    sys.Obedient allows Q p' ∧ I p'.notes p'.state p'.history := by
  cases ev with
  | spawn t =>
    cases hs
    refine ⟨fun x hx => ?_, ?_⟩
    · rcases List.mem_append.mp hx with hx | hx
      · exact ho x hx
      · rw [List.mem_singleton.mp hx]
        exact h.start p t hP
    · have := h.spawn p t hP ho hI
      rwa [show Pool.notes { p with threads := p.threads ++ [sys.start t] } =
        p.notes ++ [(sys.start t).2] by simp [Pool.notes]]
  | call i c =>
    unfold System.step at hs
    simp only at hs
    split at hs
    · rename_i e k n hi
      cases hs
      have hob : (Program.call e k).Obeys allows sys.next Q n :=
        ho _ (List.mem_of_getElem? hi)
      refine ⟨fun x hx => ?_, ?_⟩
      · rcases List.mem_or_eq_of_mem_set hx with hx | rfl
        · exact ho x hx
        · exact hob.2 _
      · have := h.call p i c e k n hP hi hob.1 hI
        rwa [show p.notes.set i (sys.next n e (sys.env e c p.state).1) =
          (p.threads.set i (k (sys.env e c p.state).1,
            sys.next n e (sys.env e c p.state).1)).map Prod.snd by
            rw [Pool.notes, List.map_set]] at this
    · cases hs
  | crash =>
    cases hs
    exact ⟨fun x hx => absurd hx List.not_mem_nil, h.crash p hP hI⟩
  | outside s =>
    cases hs
    exact ⟨ho, h.outside p s hP hI⟩

/-- What every event keeps, a whole run keeps. -/
theorem run_keeps {J : Pool E R α N S H → Prop}
    (hstep : ∀ p p' ev, P p ev → J p → sys.step p ev = some p' → J p') {p p' : Pool E R α N S H}
    {evs : List (Event C S T)} (hJ : J p) (hP : sys.Along P p evs)
    (hr : sys.run p evs = some p') : J p' := by
  induction evs generalizing p with
  | nil =>
    cases hr
    exact hJ
  | cons ev evs ih =>
    simp only [System.run, System.Along] at hr hP
    cases hs : sys.step p ev with
    | none =>
      rw [hs] at hr
      cases hr
    | some p1 =>
      rw [hs] at hr hP
      exact ih (hstep p p1 ev hP.1 hJ hs) hP.2 hr

/-- A whole run keeps an invariant. -/
theorem Invariant.run (h : sys.Invariant allows Q P I) {p p' : Pool E R α N S H}
    {evs : List (Event C S T)} (ho : sys.Obedient allows Q p)
    (hI : I p.notes p.state p.history) (hP : sys.Along P p evs) (hr : sys.run p evs = some p') :
    sys.Obedient allows Q p' ∧ I p'.notes p'.state p'.history :=
  run_keeps (J := fun p => sys.Obedient allows Q p ∧ I p.notes p.state p.history)
    (fun _ _ _ hP hJ hs => h.step hP hJ.1 hJ.2 hs) ⟨ho, hI⟩ hP hr

/-- A program that is done has ended as it should. -/
theorem Obedient.done {p : Pool E R α N S H} (h : sys.Obedient allows Q p) {a : α} {n : N}
    (hx : (Program.done a, n) ∈ p.threads) : Q a n := h _ hx

end System

end edge_cdn_store.pools
