-- The gauge `size_bytes` beside the books of the cache. Whether it tells the length of
-- the bodies or not, no update of it is lost: it is what it was at the start, with all
-- that a finish said it created and without all that was counted as evicted.
import EdgeCdnStore.Counters
import EdgeCdnStore.GaugeRaces
import EdgeCdnStore.FinishFaults

open edge_cdn_store.programs edge_cdn_store.programs.Program edge_cdn_store.io
open edge_cdn_store.logger edge_cdn_store.disk_cache edge_cdn_store.pools edge_cdn_store.tasks
open edge_cdn_store.operations edge_cdn_store.counters edge_cdn_store.courses
open edge_cdn_store.finish_faults (rewriting)

namespace edge_cdn_store.books

variable {K M : Type} [CacheHashKey K] [CacheMeta M]

/-! ## What a task has booked -/

/-- Whether the task may change the gauge, what it has changed it by, and how many bytes it has
counted as evicted. -/
structure Book where
  moves : Bool
  gauge : Int
  evicted : Int

/-- A finish and a purge may change the gauge. -/
def Task.moves : Task K M → Bool
  | .finish _ _ => true
  | .purge _ _ => true
  | _ => false

def Book.start (t : Task K M) : Book := ⟨Task.moves t, 0, 0⟩

def Book.next (b : Book) : (e : Io) → e.Reply → Book
  | .size_bytes_add n, _ => { b with gauge := b.gauge + n }
  | .size_bytes_sub n, _ => { b with gauge := b.gauge - n }
  | .inc_by .evicted_bytes n, _ => { b with evicted := b.evicted + n }
  | _, _ => b

/-- The calls that are booked. -/
def Booked : Io → Prop
  | .size_bytes_add _ => True
  | .size_bytes_sub _ => True
  | .inc_by .evicted_bytes _ => True
  | _ => False

def Book.allows (b : Book) (e : Io) : Prop := Booked e → b.moves = true

/-- The tasks of the disk cache, each with its book. -/
abbrev books_system (K M : Type) [CacheHashKey K] [CacheMeta M] (cache : DiskCache) :
    System Io Io.Reply Choice World (Outcome M) Book Unit (Task K M) where
  env := answer
  start t := (t.program cache, .start t)
  next := Book.next
  record _ _ _ _ _ _ h := h

abbrev BookPool (M : Type) := Pool Io Io.Reply (Outcome M) Book World Unit

/-- The length that a finish said it created. -/
def created_len : Outcome M → Nat
  | .finished (.ok (.Created n)) => n
  | _ => 0

/-- What was taken off the gauge was counted as evicted, and the rest is what was created. -/
def Closed (r : Outcome M) (b : Book) : Prop := b.gauge + b.evicted = created_len r

/-! ## The programs -/

section
variable {cache : DiskCache} {α : Type} {b : Book} {key : K}

theorem next_unbooked {e : Io} (he : ¬ Booked e) (b : Book) (r : e.Reply) : b.next e r = b := by
  cases e
  case size_bytes_add n => exact absurd trivial he
  case size_bytes_sub n => exact absurd trivial he
  case inc_by c n =>
    cases c
    case evicted_bytes => exact absurd trivial he
    all_goals rfl
  all_goals rfl

theorem unbooked_obeys {p : Prog α} {Q : α → Book → Prop} (hp : p.Calls (¬ Booked ·))
    (hQ : ∀ a, Q a b) : p.Obeys Book.allows Book.next Q b := by
  induction p with
  | done a => exact hQ a
  | call e k ih =>
    refine ⟨fun he => absurd he hp.1, fun r => ?_⟩
    rw [next_unbooked hp.1]
    exact ih r (hp.2 r)

theorem unbooked_of_path {e : Io} (h : PathCall e) : ¬ Booked e := by
  intro he
  cases e
  case inc_by c n => exact h
  all_goals first | exact he | exact h

theorem unbooked_of_append {e : Io} (h : AppendCall e) : ¬ Booked e := by
  intro he
  cases e
  case inc_by c n => exact h
  all_goals first | exact he | exact h

/-- A lookup books nothing, whatever it finds. -/
theorem lookup_books :
    (cache.lookup (M := M) key).Obeys Book.allows Book.next (fun _ n => n = b) b := by
  have hfree : ∀ {n : Book} {e : Io}, ¬ Booked e → n.allows e := fun he h => absurd h he
  refine lookup_course (I := fun _ _ _ n => n = b) ?_ rfl
  constructor
  case root => exact fun _ hn => ⟨hfree id, fun _ _ => hn, hn⟩
  case order => exact fun _ hn => ⟨hfree id, fun _ => hn⟩
  case read_meta => exact fun _ _ _ hn => ⟨hfree id, fun _ => hn⟩
  case read_hdr => exact fun _ _ _ hn => ⟨hfree id, fun _ => hn⟩
  case open_body => exact fun _ _ _ hn => ⟨hfree id, fun _ => hn⟩
  case miss => exact fun _ _ _ _ hn _ => ⟨hfree id, hn⟩
  case size => exact fun _ _ _ _ hn => ⟨hfree id, fun _ _ => hn⟩
  case hit => exact fun _ _ _ _ _ hn => ⟨hfree id, hn⟩

/-- What a finish has booked when it has come so far. -/
def finish_book (m : DiskMissHandler) : Finishing → Book
  | .leaving true => ⟨true, m.tmp_bytes_written, 0⟩
  | .left true => ⟨true, m.tmp_bytes_written, 0⟩
  | _ => ⟨true, 0, 0⟩

omit [CacheMeta M] in
/-- A finish books what it says it created, and nothing where it fails. -/
theorem finish_books (m : DiskMissHandler) :
    m.finish.Obeys Book.allows Book.next
      (fun r b => Closed (.finished r : Outcome M) b) ⟨true, 0, 0⟩ := by
  apply obeys_beside (J := fun x b => b = finish_book m x) (finish_course m) rfl
  · rintro x _ e rfl ha
    cases x
    case copying src dst =>
      rcases ha with rfl | rfl
      all_goals exact ⟨fun _ => rfl, fun r => by cases r <;> rfl⟩
    case leaving made =>
      obtain rfl := ha
      exact ⟨fun h => absurd h id, fun r => by cases made <;> rfl⟩
    case inserted =>
      obtain rfl := ha
      refine ⟨fun _ => rfl, fun r => ?_⟩
      simp [Book.next, finish_book, Finishing.next]
    case left made => exact absurd ha id
    all_goals
      obtain rfl := ha
      exact ⟨fun _ => rfl, fun r => by cases r <;> rfl⟩
  · rintro r x _ (⟨rfl, rfl⟩ | ⟨rfl, e, rfl⟩) rfl
    · simp [Closed, finish_book, created_len]
    · simp [Closed, finish_book, created_len]

/-- What a purge has booked when it knows whether it has won the body. -/
def won_book : Option Nat → Book
  | some len => ⟨true, -len, len⟩
  | none => ⟨true, 0, 0⟩

def purge_book : Purging → Book
  | .credited len => ⟨true, 0, len⟩
  | .clearing won => won_book won
  | .meta_gone won => won_book won
  | .hdr_gone won => won_book won
  | .left won => won_book won
  | _ => ⟨true, 0, 0⟩

omit [CacheMeta M] in
/-- What a purge takes off the gauge it counts as evicted. -/
theorem purge_books (purge_type : PurgeType) :
    (cache.purge key purge_type).Obeys Book.allows Book.next
      (fun r b => Closed (.existed r : Outcome M) b) ⟨true, 0, 0⟩ := by
  apply obeys_beside (J := fun x b => b = purge_book x) (purge_course cache key purge_type) rfl
  · rintro x _ e rfl ha
    cases x
    case evicted len =>
      obtain rfl := ha
      refine ⟨fun _ => rfl, fun r => ?_⟩
      simp [Book.next, purge_book, Purging.next]
    case credited len =>
      obtain rfl := ha
      refine ⟨fun _ => rfl, fun r => ?_⟩
      simp [Book.next, purge_book, won_book, Purging.next]
    case left won => exact absurd ha id
    all_goals
      obtain rfl := ha
      exact ⟨fun h => absurd h id, fun r => by cases r <;> rfl⟩
  · rintro r x _ ⟨won, rfl, rfl⟩ rfl
    cases won <;> simp [Closed, purge_book, won_book, created_len]

/-- Every task has closed its book when it is done. -/
theorem task_books (cache : DiskCache) (t : Task K M) :
    (t.program cache).Obeys Book.allows Book.next Closed (.start t) := by
  cases t with
  | lookup key =>
    simp only [Task.program, obeys_bind, obeys_pure]
    exact obeys_mono lookup_books fun _ _ h => h ▸ rfl
  | get_miss_handler key cache_meta =>
    simp only [Task.program, obeys_bind, obeys_pure]
    refine unbooked_obeys (calls_mono (cache.get_miss_handler_calls key cache_meta) ?_)
      fun _ => rfl
    rintro e (h | rfl)
    · exact unbooked_of_path h
    · exact id
  | write_body hash m data is_eof =>
    simp only [Task.program, obeys_bind, obeys_pure]
    exact unbooked_obeys (calls_mono (m.write_body_calls data is_eof)
      fun _ => unbooked_of_append) fun _ => rfl
  | finish hash m =>
    simp only [Task.program, obeys_bind, obeys_pure]
    exact finish_books m
  | drop_handler hash m =>
    simp only [Task.program, obeys_bind, obeys_pure]
    exact unbooked_obeys (calls_mono m.drop_calls fun _ => unbooked_of_path) fun _ => rfl
  | purge key purge_type =>
    simp only [Task.program, obeys_bind, obeys_pure]
    exact purge_books purge_type
  | update_meta key cache_meta =>
    simp only [Task.program, obeys_bind, obeys_pure]
    exact unbooked_obeys (calls_mono (cache.update_meta_calls key cache_meta)
      fun _ => unbooked_of_path) fun _ => rfl

end

/-! ## Whole runs -/

/-- The gauge and the bytes evicted are what they were, with all that the tasks have booked, and
a task that may not change the gauge has booked nothing. -/
structure Posted (w₀ : World) (bs : List Book) (w : World) : Prop where
  gauge : w.metrics.size_bytes = w₀.metrics.size_bytes + (bs.map Book.gauge).sum
  evicted : (w.metrics.counter .evicted_bytes : Int) =
    w₀.metrics.counter .evicted_bytes + (bs.map Book.evicted).sum
  idle : ∀ b ∈ bs, b.moves = false → b.gauge = 0 ∧ b.evicted = 0

section
variable {w₀ w : World} {bs : List Book}

theorem metrics_of_unbooked {e : Io} (he : ¬ Booked e) (c : Choice) (w : World) :
    (answer e c w).2.metrics.size_bytes = w.metrics.size_bytes ∧
    (answer e c w).2.metrics.counter .evicted_bytes = w.metrics.counter .evicted_bytes := by
  have hfree : GaugeFree e := by
    cases e <;> first | trivial | exact absurd trivial he
  refine ⟨gauge_races.gauge_of_gaugeFree hfree c w, ?_⟩
  by_cases hcount : ∃ m n, e = .inc_by m n
  · obtain ⟨m, n, rfl⟩ := hcount
    refine Function.update_of_ne (fun h => ?_) _ _
    subst h
    exact he trivial
  · rw [counter_of_uncounted (fun m n h => hcount ⟨m, n, h⟩)]

/-- One call changes the gauge and the bytes evicted by what it books. -/
theorem Posted.call (h : Posted w₀ bs w) {i : Nat} {b : Book} (hi : bs[i]? = some b) {e : Io}
    (ha : b.allows e) (c : Choice) :
    Posted w₀ (bs.set i (b.next e (answer e c w).1)) (answer e c w).2 := by
  have hg := sum_map_set Book.gauge hi (b.next e (answer e c w).1)
  have hv := sum_map_set Book.evicted hi (b.next e (answer e c w).1)
  have hgauge := h.gauge
  have hevicted := h.evicted
  by_cases he : Booked e
  · have hidle : ∀ x ∈ bs.set i (b.next e (answer e c w).1), x.moves = false →
        x.gauge = 0 ∧ x.evicted = 0 := by
      intro x hx hmoves
      rcases List.mem_or_eq_of_mem_set hx with hx | rfl
      · exact h.idle x hx hmoves
      · have hkeep : (b.next e (answer e c w).1).moves = b.moves := by
          cases e
          case inc_by m n => cases m <;> rfl
          all_goals rfl
        rw [hkeep, ha he] at hmoves
        cases hmoves
    cases e
    case size_bytes_add n =>
      refine ⟨?_, ?_, hidle⟩
      · simp only [answer, World.setMetrics, CacheMetrics.add, Book.next] at hg ⊢
        omega
      · simp only [answer, World.setMetrics, CacheMetrics.add, Book.next] at hv ⊢
        omega
    case size_bytes_sub n =>
      refine ⟨?_, ?_, hidle⟩
      · simp only [answer, World.setMetrics, CacheMetrics.add, Book.next] at hg ⊢
        omega
      · simp only [answer, World.setMetrics, CacheMetrics.add, Book.next] at hv ⊢
        omega
    case inc_by m n =>
      cases m
      case evicted_bytes =>
        refine ⟨?_, ?_, hidle⟩
        · simp only [answer, World.setMetrics, CacheMetrics.inc_by, Book.next] at hg ⊢
          omega
        · simp only [answer, World.setMetrics, CacheMetrics.inc_by, Book.next,
            Function.update_self] at hv ⊢
          omega
      all_goals exact absurd he id
    all_goals exact absurd he id
  · obtain ⟨hsize, hcounter⟩ := metrics_of_unbooked he c w
    rw [next_unbooked he] at hg hv ⊢
    refine ⟨?_, ?_, fun x hx => ?_⟩
    · omega
    · omega
    · rcases List.mem_or_eq_of_mem_set hx with hx | rfl
      · exact h.idle x hx
      · exact h.idle x (List.mem_of_getElem? hi)

end

theorem posted_start (w : World) : Posted w [] w :=
  ⟨by simp, by simp, fun b hb => absurd hb List.not_mem_nil⟩

/-- Tasks come at any time and make their calls in any order, and any call may fail. Nothing else
changes the metrics. -/
def Working (_ : BookPool M) : Event Choice World (Task K M) → Prop
  | .spawn _ => True
  | .call _ _ => True
  | .crash => False
  | .outside _ => False

instance (p : BookPool M) : (ev : Event Choice World (Task K M)) → Decidable (Working p ev)
  | .spawn _ => isTrue trivial
  | .call _ _ => isTrue trivial
  | .crash => isFalse id
  | .outside _ => isFalse id

theorem books_invariant (cache : DiskCache) (w₀ : World) :
    (books_system K M cache).Invariant Book.allows Closed Working
      (fun bs w _ => Posted w₀ bs w) where
  start _ t _ := task_books cache t
  spawn p t _ _ hI := by
    refine ⟨?_, ?_, fun b hb => ?_⟩
    · rw [hI.gauge, List.map_append, List.sum_append, List.map_singleton, List.sum_singleton]
      exact congrArg _ (Int.add_zero _).symm
    · rw [hI.evicted, List.map_append, List.sum_append, List.map_singleton, List.sum_singleton]
      exact congrArg _ (Int.add_zero _).symm
    · rcases List.mem_append.mp hb with hb | hb
      · exact hI.idle b hb
      · rw [List.mem_singleton.mp hb]
        exact fun _ => ⟨rfl, rfl⟩
  call p i c e k n hP hi ha hI := hI.call (Pool.notes_getElem? hi) ha c
  crash _ hP := absurd hP id
  outside _ _ hP := absurd hP id

/-- The bytes that the finishes of a pool said they created. -/
def created_bytes (p : BookPool M) : Nat :=
  (p.results.map fun r => (r.map created_len).getD 0).sum

omit [CacheMeta M] in
/-- Where each task has closed its book, or has none, the books come to what was created. -/
theorem books_close (threads : List (Prog (Outcome M) × Book))
    (h : ∀ x ∈ threads, (∃ r, x.1 = .done r ∧ Closed r x.2) ∨
      (∃ e k, x.1 = .call e k) ∧ x.2.gauge = 0 ∧ x.2.evicted = 0) (w : World) :
    ((threads.map Prod.snd).map Book.gauge).sum + ((threads.map Prod.snd).map Book.evicted).sum =
      created_bytes ⟨threads, w, ()⟩ := by
  unfold created_bytes Pool.results
  induction threads with
  | nil => rfl
  | cons x xs ih =>
    have hrest := ih fun y hy => h y (List.mem_cons_of_mem _ hy)
    obtain ⟨y, b⟩ := x
    simp only [List.map_cons, List.sum_cons] at hrest ⊢
    rcases h (y, b) List.mem_cons_self with ⟨r, rfl, hr⟩ | ⟨⟨e, k, rfl⟩, hg, hv⟩
    · unfold Closed at hr
      simp only [Option.map_some, Option.getD_some] at hr ⊢
      omega
    · simp only [Option.map_none, Option.getD_none] at hg hv ⊢
      omega

/-- No finish and no purge is under way. -/
def Idle (p : BookPool M) : Prop :=
  ∀ x ∈ p.results.zip p.notes, x.2.moves = true → x.1.isSome = true

instance (p : BookPool M) : Decidable (Idle p) := inferInstanceAs (Decidable (∀ x ∈ _, _))

/-- Where no finish and no purge is under way, the books come to what was created. -/
theorem Posted.balance {cache : DiskCache} {w₀ : World} {p : BookPool M}
    (h : Posted w₀ p.notes p.state)
    (ho : (books_system K M cache).Obedient Book.allows Closed p) (hidle : Idle p) :
    p.state.metrics.size_bytes = w₀.metrics.size_bytes + created_bytes p -
      (p.state.metrics.counter .evicted_bytes - w₀.metrics.counter .evicted_bytes) := by
  have hclosed : ∀ x ∈ p.threads, (∃ r, x.1 = .done r ∧ Closed r x.2) ∨
      (∃ e k, x.1 = .call e k) ∧ x.2.gauge = 0 ∧ x.2.evicted = 0 := by
    rintro ⟨y, b⟩ hx
    cases y with
    | done r => exact Or.inl ⟨r, rfl, ho.done hx⟩
    | call e k =>
      refine Or.inr ⟨⟨e, k, rfl⟩, h.idle b (List.mem_map.mpr ⟨_, hx, rfl⟩) ?_⟩
      by_contra hmoves
      have hmem : (none, b) ∈ p.results.zip p.notes := by
        unfold Pool.results Pool.notes
        rw [List.zip_map']
        exact List.mem_map.mpr ⟨_, hx, rfl⟩
      exact Bool.false_ne_true (hidle _ hmem (Bool.not_eq_false _ ▸ hmoves))
  have hbooks := books_close p.threads hclosed p.state
  have hgauge := h.gauge
  have hevicted := h.evicted
  simp only [Pool.notes] at hgauge hevicted
  have hsame : created_bytes ⟨p.threads, p.state, ()⟩ = created_bytes p := rfl
  omega

/-- No update of the gauge is lost. Whatever tasks come, in whatever order their calls are made
and whichever of these fail, whenever no finish and no purge is under way, `size_bytes` is what
it was at the start, with all that the finishes said they created, and without all the bytes that
were counted as evicted since. -/
theorem the_gauge_is_what_was_created_and_not_evicted (cache : DiskCache) (w : World)
    (evs : List (Event Choice World (Task K M))) (p : BookPool M)
    (hP : (books_system K M cache).Along Working ⟨[], w, ()⟩ evs)
    (hr : (books_system K M cache).run ⟨[], w, ()⟩ evs = some p) (hidle : Idle p) :
    p.state.metrics.size_bytes = w.metrics.size_bytes + created_bytes p -
      (p.state.metrics.counter .evicted_bytes - w.metrics.counter .evicted_bytes) := by
  obtain ⟨ho, hposted⟩ := (books_invariant cache w).run (p := ⟨[], w, ()⟩)
    (fun x hx => absurd hx List.not_mem_nil) (posted_start w) hP hr
  exact hposted.balance ho hidle

/-! ## A purge amid a finish -/

/-- A purge removes the body between the rename of a finish and the rest of it. A lookup that has
begun is not through. -/
def amid_a_finish : List (Event Choice World (Task CombinedHash Note)) :=
  [.spawn (.finish small_hash (small_handler [9] 1))] ++ Event.calls 0 2 plain ++
    [.spawn (.purge small_hash .Invalidation), .spawn (.lookup small_hash)] ++
    Event.calls 1 6 plain ++ Event.calls 2 3 plain ++ Event.calls 0 5 plain ++
    Event.calls 1 3 plain

theorem the_books_of_a_purge_amid_a_finish : ∃ p,
    (books_system CombinedHash Note small_cache).run ⟨[], rewriting.2, ()⟩ amid_a_finish = some p ∧
    p.results.map Option.isSome = [true, true, false] ∧
    p.state.metrics.size_bytes = 2 + created_bytes p -
      (p.state.metrics.counter .evicted_bytes - 0) := by
  have hsome : ((books_system CombinedHash Note small_cache).run ⟨[], rewriting.2, ()⟩
      amid_a_finish).map (fun p => (p.results.map Option.isSome, decide (Idle p))) =
        some ([true, true, false], true) := by decide +kernel
  obtain ⟨p, hrun, hp⟩ := Option.map_eq_some_iff.mp hsome
  obtain ⟨hdone, hidle⟩ := Prod.mk.inj hp
  have hstart : rewriting.2.metrics.size_bytes = 2 ∧
      rewriting.2.metrics.counter .evicted_bytes = 0 := by decide +kernel
  have hgauge := the_gauge_is_what_was_created_and_not_evicted small_cache rewriting.2
    amid_a_finish p (by decide +kernel) hrun (of_decide_eq_true hidle)
  rw [hstart.1, hstart.2] at hgauge
  exact ⟨p, hrun, hdone, hgauge⟩

end edge_cdn_store.books
