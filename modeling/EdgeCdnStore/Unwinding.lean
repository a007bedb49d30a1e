-- Two runs of a pool, one of them without the calls of some of its programs. When
-- those calls never show to the others, the others do the same in both runs.
import EdgeCdnStore.Pools

open edge_cdn_store.programs

namespace edge_cdn_store.pools

variable {E : Type} {R : E → Type} {C S α N H T : Type}

/-- The program at place `i` is one of those that `shown` selects by its note. -/
def Pool.shows (p : Pool E R α N S H) (shown : N → Bool) (i : Nat) : Bool :=
  ((p.notes.map shown)[i]?).getD false

/-- The programs that are shown are the same in both pools, and all others are there too. -/
structure SameFor (shown : N → Bool) (p p' : Pool E R α N S H) : Prop where
  places : p'.notes.map shown = p.notes.map shown
  threads : ∀ i, p.shows shown i = true → p'.threads[i]? = p.threads[i]?

theorem SameFor.refl (shown : N → Bool) (p : Pool E R α N S H) : SameFor shown p p :=
  ⟨rfl, fun _ _ => rfl⟩

namespace System

/-- A run in which no program comes or goes: who makes the next call, with which choice. -/
def schedule (sys : System E R C S α N H T) (p : Pool E R α N S H) (evs : List (Nat × C)) :
    Option (Pool E R α N S H) :=
  sys.run p (evs.map fun x => .call x.1 x.2)

/-- What the calls of the programs do to two states and histories that are alike: a call of
a hidden one leaves them alike, and a call of a shown one gets the same reply in both. -/
structure Unwinding (sys : System E R C S α N H T) (allows : N → E → Prop) (shown : N → Bool)
    (Sim : S × H → S × H → Prop) : Prop where
  next : ∀ n e r, shown (sys.next n e r) = shown n
  hidden : ∀ i n e c s s' h h', allows n e → shown n = false → Sim (s, h) (s', h') →
    Sim ((sys.env e c s).2, sys.record i n e (sys.env e c s).1 s (sys.env e c s).2 h) (s', h')
  same : ∀ i n e c s s' h h', allows n e → shown n = true → Sim (s, h) (s', h') →
    (sys.env e c s').1 = (sys.env e c s).1 ∧
    Sim ((sys.env e c s).2, sys.record i n e (sys.env e c s).1 s (sys.env e c s).2 h)
      ((sys.env e c s').2, sys.record i n e (sys.env e c s').1 s' (sys.env e c s').2 h')

variable {sys : System E R C S α N H T} {allows : N → E → Prop} {shown : N → Bool}
  {Sim : S × H → S × H → Prop} {Q : α → N → Prop}

/-- What a call does to a pool. -/
theorem step_call_eq_some {p p1 : Pool E R α N S H} {i : Nat} {c : C}
    (h : sys.step p (.call i c) = some p1) : ∃ e k n, p.threads[i]? = some (.call e k, n) ∧
      p1 = ⟨p.threads.set i (k (sys.env e c p.state).1, sys.next n e (sys.env e c p.state).1),
        (sys.env e c p.state).2, sys.record i n e (sys.env e c p.state).1 p.state
          (sys.env e c p.state).2 p.history⟩ := by
  unfold System.step at h
  simp only at h
  split at h
  · rename_i e k n hi
    cases h
    exact ⟨e, k, n, hi, rfl⟩
  · cases h

theorem step_of_call {p : Pool E R α N S H} {i : Nat} {c : C} {e : E} {k : R e → Program E R α}
    {n : N} (hi : p.threads[i]? = some (.call e k, n)) : sys.step p (.call i c) =
      some ⟨p.threads.set i (k (sys.env e c p.state).1, sys.next n e (sys.env e c p.state).1),
        (sys.env e c p.state).2, sys.record i n e (sys.env e c p.state).1 p.state
          (sys.env e c p.state).2 p.history⟩ := by
  simp only [System.step, hi]

/-- A new note at a place shows as the old one did. -/
theorem notes_set_shown {p : Pool E R α N S H} {i : Nat} {x : Program E R α} {n n' : N}
    {y : Program E R α} (hi : p.threads[i]? = some (x, n)) (hn : shown n' = shown n) :
    ((p.threads.set i (y, n')).map Prod.snd).map shown = p.notes.map shown := by
  apply List.ext_getElem?
  intro j
  simp only [Pool.notes, List.map_map, List.getElem?_map, List.getElem?_set]
  by_cases hj : i = j
  · subst hj
    have hlt : i < p.threads.length := (List.getElem?_eq_some_iff.mp hi).1
    rw [if_pos rfl, if_pos hlt, hi]
    simp [hn]
  · rw [if_neg hj]

theorem shows_of_getElem? (shown : N → Bool) {p : Pool E R α N S H} {i : Nat}
    {x : Program E R α} {n : N} (hi : p.threads[i]? = some (x, n)) :
    p.shows shown i = shown n := by
  simp [Pool.shows, Pool.notes, hi]

/-- The run without the hidden calls goes through, and ends alike. Who is shown stays so. -/
theorem Unwinding.run (hU : sys.Unwinding allows shown Sim) {p p' q : Pool E R α N S H}
    {evs : List (Nat × C)} (ho : sys.Obedient allows Q p) (hsame : SameFor shown p p')
    (hsim : Sim (p.state, p.history) (p'.state, p'.history)) (hr : sys.schedule p evs = some q) :
    ∃ q', sys.schedule p' (evs.filter fun x => p.shows shown x.1) = some q' ∧
      SameFor shown q q' ∧ Sim (q.state, q.history) (q'.state, q'.history) ∧
      ∀ i, q.shows shown i = p.shows shown i := by
  induction evs generalizing p p' with
  | nil =>
    cases hr
    exact ⟨p', rfl, hsame, hsim, fun _ => rfl⟩
  | cons ev evs ih =>
    obtain ⟨i, c⟩ := ev
    unfold schedule at hr
    rw [List.map_cons, System.run] at hr
    cases hs : sys.step p (.call i c) with
    | none =>
      rw [hs] at hr
      cases hr
    | some p1 =>
      rw [hs] at hr
      obtain ⟨e, k, n, hi, hp1⟩ := step_call_eq_some hs
      have hob : (Program.call e k).Obeys allows sys.next Q n := ho _ (List.mem_of_getElem? hi)
      have hnotes : p1.notes.map shown = p.notes.map shown := by
        rw [hp1]
        exact notes_set_shown hi (hU.next n e _)
      have hshows : ∀ j, p1.shows shown j = p.shows shown j := by
        intro j
        unfold Pool.shows
        rw [hnotes]
      have ho1 : sys.Obedient allows Q p1 := by
        rw [hp1]
        intro x hx
        rcases List.mem_or_eq_of_mem_set hx with hx | rfl
        · exact ho x hx
        · exact hob.2 _
      have hfilter : (evs.filter fun x => p1.shows shown x.1) =
          evs.filter fun x => p.shows shown x.1 := by
        simp only [hshows]
      have hi' := shows_of_getElem? shown hi
      rw [List.filter_cons]
      cases hn : shown n with
      | false =>
        rw [hn] at hi'
        have hsame1 : SameFor shown p1 p' := by
          refine ⟨hsame.places.trans hnotes.symm, fun j hj => ?_⟩
          rw [hshows] at hj
          have hij : i ≠ j := by
            rintro rfl
            rw [hi'] at hj
            cases hj
          rw [hsame.threads j hj, hp1, List.getElem?_set_ne hij]
        have hsim1 := hU.hidden i n e c _ _ _ _ hob.1 hn hsim
        obtain ⟨q', hq', hq, hend, hstay⟩ := ih ho1 hsame1 (by rw [hp1]; exact hsim1) hr
        refine ⟨q', ?_, hq, hend, fun j => (hstay j).trans (hshows j)⟩
        simp only [hi', Bool.false_eq_true, if_false]
        rw [← hfilter]
        exact hq'
      | true =>
        rw [hn] at hi'
        obtain ⟨hreply, hsim1⟩ := hU.same i n e c _ _ _ _ hob.1 hn hsim
        have hthread : p'.threads[i]? = some (.call e k, n) := by
          rw [hsame.threads i hi']
          exact hi
        obtain ⟨p1', hp1'⟩ : ∃ p1', p1' = Pool.mk (p'.threads.set i
            (k (sys.env e c p'.state).1, sys.next n e (sys.env e c p'.state).1))
            (sys.env e c p'.state).2 (sys.record i n e (sys.env e c p'.state).1 p'.state
              (sys.env e c p'.state).2 p'.history) := ⟨_, rfl⟩
        have hs' : sys.step p' (.call i c) = some p1' := by
          rw [step_of_call hthread, hp1']
        have hsame1 : SameFor shown p1 p1' := by
          refine ⟨?_, fun j hj => ?_⟩
          · rw [hnotes, hp1']
            exact (notes_set_shown hthread (hU.next n e _)).trans hsame.places
          · rw [hshows] at hj
            rw [hp1, hp1']
            simp only [hreply, List.getElem?_set]
            by_cases hij : i = j
            · subst hij
              rw [if_pos rfl, if_pos rfl, if_pos (List.getElem?_eq_some_iff.mp hi).1,
                if_pos (List.getElem?_eq_some_iff.mp hthread).1]
            · rw [if_neg hij, if_neg hij]
              exact hsame.threads j hj
        obtain ⟨q', hq', hq, hend, hstay⟩ := ih ho1 hsame1 (by rw [hp1, hp1']; exact hsim1) hr
        refine ⟨q', ?_, hq, hend, fun j => (hstay j).trans (hshows j)⟩
        simp only [hi', if_true]
        unfold schedule
        rw [List.map_cons, System.run, hs', ← hfilter]
        exact hq'

end System

end edge_cdn_store.pools
