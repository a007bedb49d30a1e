-- The numbers of open files that a program has got. A machine that checks the
-- numbers refuses nothing to a program that goes by its own numbers only, and all
-- operations of the disk cache do.
import EdgeCdnStore.Operations
import EdgeCdnStore.Sites

open edge_cdn_store.programs edge_cdn_store.programs.Program edge_cdn_store.io
open edge_cdn_store.logger edge_cdn_store.disk_cache edge_cdn_store.tiered
open edge_cdn_store.operations edge_cdn_store.tasks edge_cdn_store.sites edge_cdn_store.courses

namespace edge_cdn_store.held_files

/-- The number that a call gives, if it gives one. -/
def got : (e : Io) → e.Reply → List Nat
  | .open_file _, .ok f => [f]
  | .open_append _, .ok f => [f]
  | .create_file _, .ok f => [f]
  | _, _ => []

/-- A call by numbers that the program has got. -/
def ByHeld (held : List Nat) (e : Io) : Prop := ∀ f ∈ handles e, f ∈ held

def hold (held : List Nat) (e : Io) (r : e.Reply) : List Nat := got e r ++ held

/-- The operating system, where a call by a number that is not open fails. -/
def bounded : Environment Io Io.Reply Choice World := fun e c w => answer e (bound e w.opened c) w

/-- A number that was given is a new one. -/
theorem got_eq (e : Io) (c : Choice) (w : World) : ∀ f ∈ got e (answer e c w).1,
    f = w.opened ∧ (answer e c w).2.opened = w.opened + 1 := by
  intro f hf
  cases e
  case open_file p =>
    simp only [answer, Choice.guard] at hf ⊢
    split at hf
    · simp [got] at hf
    · split at hf
      · simp only [got, List.mem_singleton] at hf
        exact ⟨hf, rfl⟩
      · simp [got] at hf
  case open_append p =>
    simp only [answer, Choice.guard] at hf ⊢
    split at hf
    · simp [got] at hf
    · split at hf
      · simp only [got, List.mem_singleton] at hf
        exact ⟨hf, rfl⟩
      · simp [got] at hf
  case create_file p =>
    simp only [answer, Choice.guard] at hf ⊢
    split at hf
    · simp [got] at hf
    · split at hf
      · rename_i hcan
        rw [if_pos hcan]
        split at hf
        · simp only [got, List.mem_singleton] at hf
          exact ⟨hf, rfl⟩
        · simp [got] at hf
      · simp [got] at hf
  all_goals exact absurd hf List.not_mem_nil

/-- A number that was given is open. -/
theorem got_lt (e : Io) (c : Choice) (w : World) :
    ∀ f ∈ got e (answer e c w).1, f < (answer e c w).2.opened := by
  intro f hf
  obtain ⟨hnew, hopened⟩ := got_eq e c w f hf
  omega

section
variable {α : Type} {held : List Nat} {ok : Choice → Prop} {w : World}

/-- A program that goes by its own numbers only runs as if nobody checked them. -/
theorem wp_bounded {p : Prog α} {Q : α → World → Prop} {Q' : α → List Nat → Prop}
    (h : p.Obeys ByHeld hold Q' held) (hheld : ∀ f ∈ held, f < w.opened)
    (hp : wp answer ok p Q w) :
    wp bounded ok p (fun a w' => Q a w' ∧ ∃ held', Q' a held' ∧ ∀ f ∈ held', f < w'.opened) w := by
  induction p generalizing held w with
  | done a => exact ⟨hp, held, h, hheld⟩
  | call e k ih =>
    intro c hc
    have hopen : bound e w.opened c = c := if_pos fun f hf => hheld f (h.1 f hf)
    unfold bounded
    rw [hopen]
    refine ih _ (h.2 _) ?_ (hp c hc)
    intro f hf
    rcases List.mem_append.mp hf with hf | hf
    · exact got_lt e c w f hf
    · exact Nat.lt_of_lt_of_le (hheld f hf) (answer_leaves e c w).opened_le

/-- What is held stays so. -/
theorem obeys_grows {p : Prog α} {Q : α → List Nat → Prop} (h : p.Obeys ByHeld hold Q held) :
    p.Obeys ByHeld hold (fun a held' => Q a held' ∧ held ⊆ held') held := by
  induction p generalizing held with
  | done a => exact ⟨h, fun _ hf => hf⟩
  | call e k ih =>
    refine ⟨h.1, fun r => ?_⟩
    refine obeys_mono (ih r (h.2 r)) fun a held' ha => ⟨ha.1, ?_⟩
    intro f hf
    exact ha.2 (List.mem_append_right _ hf)

theorem no_number : ∀ f ∈ ([] : List Nat), f ∈ held := fun _ hf => absurd hf List.not_mem_nil

/-- The calls that go by no number. -/
def NoHandles (e : Io) : Prop := handles e = []

theorem obeys_of_no_handles {p : Prog α} (hp : p.Calls NoHandles) (held : List Nat) :
    p.Obeys ByHeld hold (fun _ _ => True) held := by
  induction p generalizing held with
  | done a => trivial
  | call e k ih =>
    refine ⟨fun f hf => ?_, fun r => ih r (hp.2 r) _⟩
    rw [hp.1] at hf
    cases hf

end

/-! ## The functions of the disk cache -/

section
variable {held : List Nat} {cache : DiskCache} {K M : Type} [CacheHashKey K] [CacheMeta M]

theorem get_miss_handler_no_handles (key : K) (cache_meta : M) :
    (cache.get_miss_handler key cache_meta).Calls NoHandles := by
  refine calls_bind (calls_perform.mpr rfl) fun _ => ?_
  simp only [DiskCache.path_from_key, DiskCache.path_from_hash]
  cases CacheMeta.serialize cache_meta with
  | error e => exact calls_pure _
  | ok parts =>
    refine calls_bind (calls_perform.mpr rfl) fun _ => ?_
    refine calls_bind ?_ fun r => ?_
    · refine calls_bind (calls_perform.mpr rfl) fun _ => ?_
      refine calls_bind (calls_perform.mpr rfl) fun _ => ?_
      refine calls_bind (calls_perform.mpr rfl) fun _ => ?_
      refine calls_bind (calls_perform.mpr rfl) fun r => ?_
      cases r <;> exact calls_pure _
    · cases r <;> exact calls_pure _

theorem write_body_by_held (m : DiskMissHandler) (data : Bytes) (is_eof : Bool) :
    (m.write_body data is_eof).Obeys ByHeld hold (fun _ _ => True) held := by
  simp only [DiskMissHandler.write_body, trace_fn_exit_with_err, e_explain, obeys_bind]
  refine (obeys_perform (Io.open_append _) _ _).mpr ⟨no_number, fun r => ?_⟩
  cases r with
  | error e => trivial
  | ok f =>
    have hmem : ∀ g ∈ [f], g ∈ hold held (.open_append m.tmp_path) (.ok f) := by
      intro g hg
      exact List.mem_append_left _ hg
    simp only [obeys_bind]
    refine (obeys_perform (Io.write_all f data) _ _).mpr ⟨hmem, fun r => ?_⟩
    cases r with
    | error e => trivial
    | ok _ =>
      cases is_eof with
      | false => trivial
      | true =>
        simp only [if_true, obeys_bind]
        exact (obeys_perform (Io.flush f) _ _).mpr ⟨hmem, fun _ => trivial⟩

/-- The files that a finish has open are held. -/
def HoldsOpen : Finishing → List Nat → Prop
  | .opened src, held => src ∈ held
  | .created src dst, held => src ∈ held ∧ dst ∈ held
  | .copying src dst, held => src ∈ held ∧ dst ∈ held
  | _, _ => True

theorem finish_by_held (m : DiskMissHandler) :
    m.finish.Obeys ByHeld hold (fun _ _ => True) held := by
  apply obeys_beside (J := HoldsOpen) (finish_course m) trivial
  · intro x held e hx ha
    cases x
    case refused =>
      obtain rfl := ha
      refine ⟨no_number, fun r => ?_⟩
      cases r with
      | error e => trivial
      | ok f => exact List.mem_append_left _ (List.mem_singleton_self f)
    case opened src =>
      obtain rfl := ha
      refine ⟨no_number, fun r => ?_⟩
      cases r with
      | error e => trivial
      | ok f =>
        exact ⟨List.mem_append_right _ hx, List.mem_append_left _ (List.mem_singleton_self f)⟩
    case created src dst =>
      obtain rfl := ha
      exact ⟨no_number, fun _ => hx⟩
    case copying src dst =>
      have hboth : ∀ f ∈ [src, dst], f ∈ held := by
        intro f hf
        rcases List.mem_cons.mp hf with rfl | hf
        · exact hx.1
        · rw [List.mem_singleton.mp hf]
          exact hx.2
      rcases ha with rfl | rfl
      · exact ⟨hboth, fun r => by cases r with
          | error e => trivial
          | ok _ => exact hx⟩
      · exact ⟨hboth, fun r => by cases r <;> trivial⟩
    case left made => exact absurd ha id
    all_goals
      obtain rfl := ha
      exact ⟨no_number, fun r => by cases r <;> trivial⟩
  · exact fun _ _ _ _ _ => trivial

/-- A lookup has got the number of the hit that it gives. -/
theorem lookup_by_held (key : K) : (cache.lookup (M := M) key).Obeys ByHeld hold
    (fun r held' => ∀ m hit, r = .ok (some (m, hit)) → hit.file ∈ held') held := by
  refine lookup_course (I := fun _ _ z held => ∀ f, z = some (.ok f) → f ∈ held) ?_
    fun _ h => by cases h
  constructor
  case root => exact fun _ h => ⟨no_number, fun _ _ _ _ h => (by cases h), h⟩
  case order => exact fun _ h => ⟨no_number, fun _ => h⟩
  case read_meta => exact fun _ _ _ h => ⟨no_number, fun _ => h⟩
  case read_hdr => exact fun _ _ _ h => ⟨no_number, fun _ => h⟩
  case open_body =>
    intro x y held _
    refine ⟨no_number, fun r f hf => ?_⟩
    cases hf
    exact List.mem_append_left _ (List.mem_singleton_self f)
  case miss => exact fun _ _ _ _ _ _ => ⟨no_number, fun _ _ h => by cases h⟩
  case size =>
    intro mi mh f held h
    refine ⟨fun g hg => ?_, fun _ _ _ _ h => by cases h⟩
    rw [List.mem_singleton.mp hg]
    exact h f rfl
  case hit =>
    intro mi mh f len held h
    refine ⟨no_number, fun m hit hr => ?_⟩
    obtain ⟨_, rfl⟩ := eq_of_hit hr
    exact h f rfl

theorem read_body_by_held {hit : DiskHitHandler} (hf : hit.file ∈ held) :
    hit.read_body.Obeys ByHeld hold (fun r held' => r.2.file ∈ held') held := by
  have hmem : ∀ held' : List Nat, hit.file ∈ held' → ∀ f ∈ [hit.file], f ∈ held' := by
    intro held' h f hf
    rw [List.mem_singleton.mp hf]
    exact h
  have hchunk : ∀ (x : DiskHitHandler) (held' : List Nat), x.file = hit.file → hit.file ∈ held' →
      x.read_chunk.Obeys ByHeld hold (fun r held' => r.2.file ∈ held') held' := by
    intro x held' hx h
    unfold DiskHitHandler.read_chunk
    rw [hx]
    split
    · rw [← hx] at h
      exact h
    · simp only [obeys_bind]
      refine (obeys_perform (Io.read_file hit.file _) _ _).mpr ⟨hmem held' h, fun r => ?_⟩
      cases r with
      | error e =>
        simp only [trace_fn_exit_with_err, e_explain, obeys_pure, hx]
        exact h
      | ok buf =>
        simp only
        split
        · simp only [obeys_pure]
          exact h
        · simp only [obeys_pure]
          exact h
  unfold DiskHitHandler.read_body
  split
  · simp only [obeys_bind]
    refine (obeys_perform (Io.seek_file hit.file _) _ _).mpr ⟨hmem held hf, fun r => ?_⟩
    cases r with
    | error e => exact hf
    | ok _ => exact hchunk _ _ rfl hf
  · exact hchunk hit held rfl hf

theorem read_to_end_by_held (n : Nat) {hit : DiskHitHandler} (hf : hit.file ∈ held) :
    (read_to_end n hit).Obeys ByHeld hold (fun r held' => r.2.file ∈ held') held := by
  induction n generalizing hit held with
  | zero => exact hf
  | succ n ih =>
    simp only [read_to_end, obeys_bind]
    refine obeys_mono (read_body_by_held hf) fun r held' h => ?_
    obtain ⟨r, hit'⟩ := r
    cases r with
    | error e => exact h
    | ok r =>
      cases r with
      | none => exact h
      | some b =>
        simp only [obeys_bind]
        refine obeys_mono (ih h) fun r held'' h' => ?_
        obtain ⟨r, hit''⟩ := r
        cases r <;> exact h'

end

end edge_cdn_store.held_files
