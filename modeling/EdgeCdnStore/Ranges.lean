-- A hit that is read in ranges. A seek only notes the range, and the next read goes
-- there, so the handler's cursor and the cursor of its file part for a while. What
-- the reads give is told by the seeks alone: the range, piece by piece.
import EdgeCdnStore.DiskSpecs
import EdgeCdnStore.Operations

open edge_cdn_store.programs edge_cdn_store.programs.Program edge_cdn_store.io
open edge_cdn_store.logger edge_cdn_store.disk_cache
open edge_cdn_store.operations (small_cache small_hash empty_world)

namespace edge_cdn_store.ranges

/-! ## Seeks and reads -/

inductive Op
  | seek (start : Nat) (stop : Option Nat)
  | read
  deriving DecidableEq

inductive Reply
  | sought (r : Result Unit)
  | given (r : Result (Option Bytes))
  deriving DecidableEq

def Op.exec (hit : DiskHitHandler) : Op → Prog (Reply × DiskHitHandler)
  | .seek start stop =>
    let (r, hit) := hit.seek start stop
    return (.sought r, hit)
  | .read => do
    let (r, hit) ← hit.read_body
    return (.given r, hit)

abbrev Trace := List (Op × Reply)

/-- Seeks and reads of one handler, one after the other, where no call fails. In between
anything may happen that leaves alone what the handler has open. -/
inductive Streams (a : DiskHitHandler × World) : Trace → DiskHitHandler × World → Prop
  | nil : Streams a [] a
  | op {t : Trace} {hit hit' : DiskHitHandler} {w w' : World} {o : Op} {r : Reply}
      {cs : List Choice} :
      Streams a t (hit, w) → (∀ c ∈ cs, Calm c) →
      run answer (o.exec hit) cs w = some ((r, hit'), w') → Streams a (t ++ [(o, r)]) (hit', w')
  | outside {t : Trace} {hit : DiskHitHandler} {w w' : World} :
      Streams a t (hit, w) → w'.files hit.file = w.files hit.file →
      w'.tree.data (w.files hit.file).ino = w.tree.data (w.files hit.file).ino →
      Streams a t (hit, w')

/-- A handler as a lookup makes it, for a body `d`. -/
structure Started (d : Bytes) (hit : DiskHitHandler) (w : World) : Prop where
  values : hit = ⟨hit.file, d.length, 0, d.length, 0, false, hit.chunk⟩
  cursor : (w.files hit.file).pos = 0
  data : w.tree.data (w.files hit.file).ino = d

/-! ## What a range gives -/

/-- The range that was asked for last, with what was given of it. -/
structure Window where
  start : Nat
  stop : Nat
  given : Bytes
  deriving DecidableEq

/-- The bytes of the range. -/
def Window.range (d : Bytes) (v : Window) : Bytes := (d.take v.stop).drop v.start

/-- A seek that was accepted opens a new window. One that was not changes nothing. -/
def Window.after (d : Bytes) (v : Window) : Op × Reply → Window
  | (.seek start stop, .sought (.ok _)) => ⟨start, stop.getD d.length, []⟩
  | (.read, .given (.ok (some b))) => { v with given := v.given ++ b }
  | _ => v

/-- What the seeks and reads of a trace come to. -/
def window (d : Bytes) (t : Trace) : Window := t.foldl (Window.after d) ⟨0, d.length, []⟩

/-- What an operation replies in a window. A read gives nothing exactly when the whole range
was given, and it gives at least one byte otherwise. -/
def Window.Replies (d : Bytes) (v : Window) : Op × Reply → Prop
  | (.seek start stop, .sought r) =>
    (∃ u, r = .ok u) ↔ start ≤ stop.getD d.length ∧ stop.getD d.length ≤ d.length
  | (.read, .given (.ok none)) => v.given = v.range d
  | (.read, .given (.ok (some b))) => b ≠ [] ∧ v.given ++ b <+: v.range d
  | _ => False

variable {d b : Bytes} {v : Window} {hit hit' : DiskHitHandler} {w w' : World} {t : Trace}

@[simp] theorem window_snoc (d : Bytes) (t : Trace) (x : Op × Reply) :
    window d (t ++ [x]) = (window d t).after d x := by
  simp [window]

/-! ## The handler and its window -/

/-- The handler has still to give what its window lacks. -/
structure Shows (d : Bytes) (v : Window) (hit : DiskHitHandler) (w : World) : Prop where
  serves : hit.Serves w d
  total_len : hit.total_len = d.length
  range : v.given ++ hit.remaining d = v.range d
  stop_le : v.stop ≤ d.length

theorem shows_of_started (h : Started d hit w) (hchunk : 0 < hit.chunk) :
    Shows d ⟨0, d.length, []⟩ hit w := by
  have hv := h.values
  refine ⟨⟨h.data, fun _ => ?_, ?_, hchunk⟩, ?_, ?_, Nat.le_refl _⟩
  · rw [h.cursor, hv]
  · rw [hv]
  · rw [hv]
  · rw [hv]
    simp [DiskHitHandler.remaining, Window.range]

/-- A seek is accepted exactly when it asks for a part of the body. -/
theorem seek_spec (hit : DiskHitHandler) (start : Nat) (stop : Option Nat) :
    ((start ≤ stop.getD hit.total_len ∧ stop.getD hit.total_len ≤ hit.total_len) ∧
      hit.seek start stop = (.ok (), { hit with
        range_start := start, range_end := stop.getD hit.total_len, pending_seek := true })) ∨
    (¬ (start ≤ stop.getD hit.total_len ∧ stop.getD hit.total_len ≤ hit.total_len) ∧
      ∃ e, hit.seek start stop = (.error e, hit)) := by
  have hto : ∀ (fn_name : String) (stop : Nat),
      (start ≤ stop ∧ DiskHitHandler.seek.seekTo hit start fn_name stop = (.ok (), { hit with
        range_start := start, range_end := stop, pending_seek := true })) ∨
      (stop < start ∧ ∃ e, DiskHitHandler.seek.seekTo hit start fn_name stop = (.error e, hit)) := by
    intro fn_name stop
    unfold DiskHitHandler.seek.seekTo
    by_cases h : stop < start
    · rw [if_pos h]
      exact Or.inr ⟨h, _, rfl⟩
    · rw [if_neg h]
      exact Or.inl ⟨Nat.le_of_not_lt h, rfl⟩
  unfold DiskHitHandler.seek
  cases stop with
  | none =>
    simp only [Option.getD_none]
    rcases hto "seek" hit.total_len with ⟨hle, hok⟩ | ⟨hlt, herr⟩
    · exact Or.inl ⟨⟨hle, Nat.le_refl _⟩, hok⟩
    · exact Or.inr ⟨fun h => Nat.not_le_of_lt hlt h.1, herr⟩
  | some stop =>
    simp only [Option.getD_some]
    by_cases hlen : hit.total_len < stop
    · rw [if_pos hlen]
      exact Or.inr ⟨fun h => Nat.not_le_of_lt hlen h.2, _, rfl⟩
    · rw [if_neg hlen]
      rcases hto "seek" stop with ⟨hle, hok⟩ | ⟨hlt, herr⟩
      · exact Or.inl ⟨⟨hle, Nat.le_of_not_lt hlen⟩, hok⟩
      · exact Or.inr ⟨fun h => Nat.not_le_of_lt hlt h.1, herr⟩

/-- A read leaves the length of the body as it was noted. -/
theorem read_body_total_len (ok : Choice → Prop) (hit : DiskHitHandler) (w : World) :
    wp answer ok hit.read_body (fun x _ => x.2.total_len = hit.total_len) w := by
  have hchunk : ∀ (hit : DiskHitHandler) (w : World),
      wp answer ok hit.read_chunk (fun x _ => x.2.total_len = hit.total_len) w := by
    intro hit w
    unfold DiskHitHandler.read_chunk
    by_cases hend : hit.range_end ≤ hit.pos
    · rw [if_pos hend]
      rfl
    · rw [if_neg hend, wp_bind]
      refine (wp_perform (Io.read_file _ _) _ _).mpr fun c _ => ?_
      cases (answer (.read_file hit.file (min hit.chunk (hit.range_end - hit.pos))) c w).1 with
      | error e => rfl
      | ok buf =>
        simp only
        split <;> rfl
  unfold DiskHitHandler.read_body
  by_cases hpending : hit.pending_seek = true
  · rw [if_pos hpending, wp_bind]
    intro c _
    cases (answer (.seek_file hit.file hit.range_start) c w).1 with
    | error e => rfl
    | ok _ => exact hchunk _ _
  · rw [if_neg hpending]
    exact hchunk hit w

/-- One operation replies as the window says, and goes on in the next window. -/
theorem Shows.op (h : Shows d v hit w) (o : Op) :
    wp answer Calm (o.exec hit) (fun x w' => v.Replies d (o, x.1) ∧
      Shows d (v.after d (o, x.1)) x.2 w') w := by
  cases o with
  | seek start stop =>
    simp only [Op.exec]
    rcases seek_spec hit start stop with ⟨hin, hseek⟩ | ⟨hout, e, hseek⟩
    · rw [h.total_len] at hin hseek
      rw [hseek]
      refine ⟨⟨fun _ => hin, fun _ => ⟨(), rfl⟩⟩, ⟨?_, rfl, rfl, hin.2⟩⟩
      exact ⟨h.serves.data, fun hpending => (by cases hpending), hin.2, h.serves.chunk_pos⟩
    · rw [h.total_len] at hout
      rw [hseek]
      exact ⟨⟨fun ⟨u, hu⟩ => (by cases hu), fun hin => absurd hin hout⟩, h⟩
  | read =>
    simp only [Op.exec, wp_bind, wp_pure]
    have hread : wp answer Calm hit.read_body (fun x w' => v.Replies d (.read, .given x.1) ∧
        x.2.Serves w' d ∧
        (v.after d (.read, .given x.1)).given ++ x.2.remaining d = v.range d) w := by
      refine read_body_spec h.serves rfl (fun hit' w' hs _ _ hnone hnone' => ?_)
        fun b hit' w' hs _ _ hb hmore => ?_
      · have hall : v.given = v.range d := by
          rw [← h.range, hnone, List.append_nil]
        refine ⟨hall, hs, ?_⟩
        rw [hnone', List.append_nil]
        exact hall
      · have hsplit : v.given ++ b ++ hit'.remaining d = v.range d := by
          rw [List.append_assoc, ← hmore, h.range]
        exact ⟨⟨hb, ⟨_, hsplit⟩⟩, hs, hsplit⟩
    refine wp_mono (wp_and hread (read_body_total_len Calm hit w)) fun x w' hx => ?_
    obtain ⟨⟨hreplies, hs, hrange⟩, hlen⟩ := hx
    refine ⟨hreplies, hs, hlen.trans h.total_len, ?_, ?_⟩
    · obtain ⟨r, hit'⟩ := x
      cases r with
      | error e => exact absurd hreplies id
      | ok r => cases r <;> exact hrange
    · obtain ⟨r, hit'⟩ := x
      cases r with
      | error e => exact h.stop_le
      | ok r => cases r <;> exact h.stop_le

/-- What happens elsewhere leaves a handler in its window. -/
theorem Shows.outside (h : Shows d v hit w) (hf : w'.files hit.file = w.files hit.file)
    (hd : w'.tree.data (w.files hit.file).ino = w.tree.data (w.files hit.file).ino) :
    Shows d v hit w' := by
  refine ⟨⟨?_, fun hp => ?_, h.serves.end_le, h.serves.chunk_pos⟩, h.total_len, h.range, h.stop_le⟩
  · rw [hf, hd]
    exact h.serves.data
  · rw [hf]
    exact h.serves.cursor hp

/-! ## Whole traces -/

/-- Each operation of a trace replies as the window before it says. -/
def Exact (d : Bytes) (t : Trace) : Prop :=
  ∀ pre x post, t = pre ++ x :: post → (window d pre).Replies d x

theorem exact_snoc {x : Op × Reply} (h : Exact d t) (hx : (window d t).Replies d x) :
    Exact d (t ++ [x]) := by
  intro pre y post ht
  rcases List.eq_nil_or_concat post with rfl | ⟨post, z, rfl⟩
  · obtain ⟨rfl, hy⟩ := List.append_inj' ht rfl
    cases hy
    exact hx
  · rw [List.concat_eq_append, ← List.cons_append, ← List.append_assoc] at ht
    obtain ⟨rfl, _⟩ := List.append_inj' ht rfl
    exact h pre y post rfl

theorem streams_show {a z : DiskHitHandler × World} (h : Streams a t z)
    (ha : Shows d ⟨0, d.length, []⟩ a.1 a.2) : Exact d t ∧ Shows d (window d t) z.1 z.2 := by
  induction h with
  | nil => exact ⟨fun pre x post ht => absurd ht (by simp), ha⟩
  | @op t hit hit' w w' o r cs _ hcs hrun ih =>
    obtain ⟨hexact, hshows⟩ := ih
    obtain ⟨hreplies, hnext⟩ := run_sound hrun hcs (hshows.op o)
    rw [window_snoc]
    exact ⟨exact_snoc hexact hreplies, hnext⟩
  | outside _ hf hd ih => exact ⟨ih.1, ih.2.outside hf hd⟩

/-- Reads that all give something give a byte each, and stay in their window. -/
theorem reads_give (pre post : Trace) (h : Exact d (pre ++ post)) (hread : ∀ x ∈ post, x.1 = .read)
    (hmore : (Op.read, Reply.given (.ok none)) ∉ post) :
    (window d (pre ++ post)).start = (window d pre).start ∧
    (window d (pre ++ post)).stop = (window d pre).stop ∧
    (window d pre).given.length + post.length ≤ (window d (pre ++ post)).given.length := by
  induction post generalizing pre with
  | nil => simp
  | cons x post ih =>
    obtain ⟨o, r⟩ := x
    obtain rfl : o = .read := hread (o, r) List.mem_cons_self
    have hx : (window d pre).Replies d (.read, r) := h pre (.read, r) post rfl
    cases r with
    | sought r => exact absurd hx id
    | given r =>
      cases r with
      | error e => exact absurd hx id
      | ok r =>
        cases r with
        | none => exact absurd List.mem_cons_self hmore
        | some b =>
          have hrest := ih (pre ++ [(.read, .given (.ok (some b)))]) (by simpa using h)
            (fun y hy => hread y (List.mem_cons_of_mem _ hy))
            (fun hnone => hmore (List.mem_cons_of_mem _ hnone))
          rw [window_snoc, List.append_assoc, List.singleton_append] at hrest
          obtain ⟨hstart, hstop, hlen⟩ := hrest
          have hb : 0 < b.length := List.length_pos_iff.mpr hx.1
          refine ⟨hstart, hstop, ?_⟩
          simp only [Window.after, List.length_append, List.length_cons] at hlen ⊢
          omega

theorem length_range (h : v.stop ≤ d.length) : (v.range d).length = v.stop - v.start := by
  unfold Window.range
  rw [List.length_drop, List.length_take, Nat.min_eq_left h]

/-- For every body, every size of the pieces above zero, every length of each read, and every
sequence of seeks and reads on a handler as a lookup makes it: a seek is accepted exactly when
it asks for a part of the body, and one that is not accepted leaves the window as it was. What
was given since the last seek is the start of its range. A read gives nothing exactly when all
of the range was given, and of more reads in a row than the range has bytes one gives nothing. -/
theorem every_range_is_given_from_its_start_to_its_end (d : Bytes) (hit : DiskHitHandler)
    (w : World) (h : Started d hit w) (hchunk : 0 < hit.chunk) (t : Trace)
    (z : DiskHitHandler × World) (hs : Streams (hit, w) t z) :
    (∀ pre x post, t = pre ++ x :: post → (window d pre).Replies d x) ∧
    (window d t).given <+: (window d t).range d ∧
    ∀ pre post, t = pre ++ post → (∀ x ∈ post, x.1 = .read) →
      (window d pre).stop - (window d pre).start < post.length →
      (Op.read, Reply.given (.ok none)) ∈ post := by
  obtain ⟨hexact, hshows⟩ := streams_show hs (shows_of_started h hchunk)
  have hpre : (window d t).given <+: (window d t).range d := ⟨_, hshows.range⟩
  refine ⟨hexact, hpre, ?_⟩
  rintro pre post rfl hread hlong
  by_contra hmore
  obtain ⟨hstart, hstop, hlen⟩ := reads_give pre post hexact hread hmore
  have hle := hpre.length_le
  rw [length_range hshows.stop_le, hstart, hstop] at hle
  omega

/-- A hit as a lookup returns it starts at its body. -/
theorem started_of_fresh {cache : DiskCache} {hash : CombinedHash}
    (h : hit.Fresh cache hash w d) : Started d hit w ∧ 0 < hit.chunk := by
  have hv := h.values
  refine ⟨⟨?_, h.cursor, h.data⟩, ?_⟩
  · rw [hv]
  · rw [hv]
    exact Nat.succ_pos _

/-- Every hit that a lookup returns is one that the ranges above are about. -/
theorem lookup_starts {K M : Type} [CacheHashKey K] [CacheMeta M] (cache : DiskCache) (key : K)
    (hw : cache.Laid w.tree) :
    wp answer Calm (cache.lookup (M := M) key) (fun r w' => ∀ cache_meta hit,
      r = .ok (some (cache_meta, hit)) →
        ∃ d, w.tree.content (cache.body (CacheHashKey.combined key)) = some d ∧
          Started d hit w' ∧ 0 < hit.chunk) w := by
  refine lookup_spec (Leads.refl hw) key (fun w' _ _ cache_meta hit hr => ?_)
    fun d mi mh w' hd _ _ _ => ⟨fun e _ cache_meta hit hr => ?_, fun x hit _ hf _ y hit' hr => ?_⟩
  · cases hr
  · cases hr
  · cases hr
    exact ⟨d, hd, started_of_fresh hf⟩

/-! ## A range in short reads -/

/-- A hit on a body of three bytes, which is read two bytes at a time. -/
def small_hit : DiskHitHandler := ⟨0, 3, 0, 3, 0, false, 2⟩

def small_body : World :=
  (empty_world.setTree ((empty_world.tree.mkdirs (small_cache.dir small_hash)).put
    (small_cache.body small_hash) [1, 2, 3])).openIno 0

/-- The second seek is not accepted, and the read after it goes on in the range of the first. -/
def small_trace : Trace :=
  [(.read, .given (.ok (some [1]))), (.seek 1 none, .sought (.ok ())),
    (.read, .given (.ok (some [2]))),
    (.seek 0 (some 4), .sought (.error ⟨.InternalError, "seek end > length: 4 > 3"⟩)),
    (.read, .given (.ok (some [3]))), (.read, .given (.ok none))]

/-- Where an operation with these choices leads. -/
def after (x : DiskHitHandler × World) (o : Op) (cs : List Choice) : DiskHitHandler × World :=
  ((run answer (o.exec x.1) cs x.2).map fun y => (y.1.2, y.2)).getD x

theorem streams_after {a x : DiskHitHandler × World} {o : Op} {r : Reply} (cs : List Choice)
    (h : Streams a t x) (hcs : ∀ c ∈ cs, Calm c)
    (hr : (run answer (o.exec x.1) cs x.2).map (fun y => y.1.1) = some r) :
    Streams a (t ++ [(o, r)]) (after x o cs) := by
  obtain ⟨⟨⟨r', hit'⟩, w'⟩, hrun, rfl⟩ := Option.map_eq_some_iff.mp hr
  unfold after
  rw [hrun]
  exact .op h hcs hrun

theorem small_started : Started [1, 2, 3] small_hit small_body := ⟨rfl, rfl, by decide +kernel⟩

theorem a_range_in_short_reads : ∃ z, Streams (small_hit, small_body) small_trace z ∧
    (∀ pre x post, small_trace = pre ++ x :: post → (window [1, 2, 3] pre).Replies [1, 2, 3] x) ∧
    (window [1, 2, 3] small_trace).given <+: (window [1, 2, 3] small_trace).range [1, 2, 3] ∧
    ∀ pre post, small_trace = pre ++ post → (∀ x ∈ post, x.1 = .read) →
      (window [1, 2, 3] pre).stop - (window [1, 2, 3] pre).start < post.length →
      (Op.read, Reply.given (.ok none)) ∈ post := by
  obtain ⟨z, hs⟩ : ∃ z, Streams (small_hit, small_body) small_trace z := by
    refine ⟨_, streams_after [] (streams_after [plain] (streams_after [] (streams_after
      [plain, plain] (streams_after [] (streams_after [plain] .nil ?_ ?_) ?_ ?_) ?_ ?_) ?_ ?_)
        ?_ ?_) ?_ ?_⟩
    all_goals decide +kernel
  exact ⟨z, hs, every_range_is_given_from_its_start_to_its_end [1, 2, 3] small_hit small_body
    small_started (by decide) small_trace z hs⟩

end edge_cdn_store.ranges
