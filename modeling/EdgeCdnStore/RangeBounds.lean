-- A hit whose file is not what it was. Calls fail, and the file may be cut, grow or be
-- rewritten between two reads. The bytes are then anyone's, but how many there are is
-- still told by the seeks alone, and an end that was given stays until the next seek.
import EdgeCdnStore.Ranges
import EdgeCdnStore.Counters

open edge_cdn_store.programs edge_cdn_store.programs.Program edge_cdn_store.io
open edge_cdn_store.logger edge_cdn_store.disk_cache edge_cdn_store.ranges
open edge_cdn_store.courses
open edge_cdn_store.operations (Note small_cache small_hash)
open edge_cdn_store.counters (stored_world)

namespace edge_cdn_store.range_bounds

/-! ## A lookup, and what is done with its hit -/

/-- Seeks and reads of one handler, one after the other, and what each replied. -/
def session (hit : DiskHitHandler) : List Op → Prog (Trace × DiskHitHandler)
  | [] => return ([], hit)
  | o :: ops => do
    let (r, hit) ← o.exec hit
    let (t, hit) ← session hit ops
    return ((o, r) :: t, hit)

/-- A lookup, and a session with the handler where there is one, with the weight that the
eviction manager was told. -/
def visit (K M : Type) [CacheHashKey K] [CacheMeta M] (cache : DiskCache) (key : K)
    (ops : List Op) : Prog (Option (Nat × Trace)) := do
  let r ← cache.lookup (M := M) key
  match r with
  | .ok (some (_, hit)) =>
    let (t, _) ← session hit ops
    return some (hit.get_eviction_weight, t)
  | _ => return none

/-- A read gives no more than it was asked for. Nothing else is known of the calls. -/
def ReadsAtMost {C S : Type} (env : Environment Io Io.Reply C S) (ok : C → Prop) : Prop :=
  ∀ f n c s b, ok c → (env (.read_file f n) c s).1 = .ok b → b.length ≤ n

/-! ## How much a range gives -/

/-- The range that was asked for last, how many bytes of it were given, and whether a read has
said since that there is no more. -/
structure Extent where
  start : Nat
  stop : Nat
  given : Nat
  dry : Bool
  deriving DecidableEq

/-- The range of a new handler is the whole body. -/
def Extent.whole (len : Nat) : Extent := ⟨0, len, 0, false⟩

def Extent.after (len : Nat) (v : Extent) : Op × Reply → Extent
  | (.seek start stop, .sought (.ok _)) => ⟨start, stop.getD len, 0, false⟩
  | (.read, .given (.ok (some b))) => { v with given := v.given + b.length }
  | (.read, .given (.ok none)) => { v with dry := true }
  | _ => v

/-- What an operation may reply. A seek is accepted if and only if it asks for a part of the
body. A read gives at least one byte, and none behind the range. It fails or gives a byte only
where no read has yet said that there is no more. -/
def Extent.Allows (len chunk : Nat) (v : Extent) : Op × Reply → Prop
  | (.seek start stop, .sought r) =>
    (∃ u, r = .ok u) ↔ start ≤ stop.getD len ∧ stop.getD len ≤ len
  | (.read, .given (.ok (some b))) =>
    v.dry = false ∧ b ≠ [] ∧ b.length ≤ chunk ∧ v.start + (v.given + b.length) ≤ v.stop
  | (.read, .given (.ok none)) => True
  | (.read, .given (.error _)) => v.dry = false
  | _ => False

/-- Each operation of a trace replies as the range allows that it comes in. -/
def Follows (len chunk : Nat) : Extent → Trace → Prop
  | _, [] => True
  | v, x :: t => v.Allows len chunk x ∧ Follows len chunk (v.after len x) t

/-! ## The handler and its range -/

/-- The cursor of the handler is as far into the range as bytes were given. -/
structure Keeps (len chunk : Nat) (v : Extent) (hit : DiskHitHandler) : Prop where
  total_len : hit.total_len = len
  chunk : hit.chunk = chunk
  range_start : hit.pending_seek = true → hit.range_start = v.start ∧ v.given = 0 ∧ v.dry = false
  range_end : hit.range_end = v.stop
  pos : hit.pending_seek = false → v.dry = false → hit.pos = v.start + v.given
  dry : v.dry = true → hit.range_end ≤ hit.pos
  given : v.start + v.given ≤ v.stop

section
variable {C S : Type} {env : Environment Io Io.Reply C S} {ok : C → Prop} {len chunk : Nat}
  {v : Extent} {hit : DiskHitHandler} {s : S}

/-- What an operation may reply, and that the handler keeps to the range that comes of it. -/
def Goes (len chunk : Nat) (v : Extent) (o : Op) (r : Reply) (hit : DiskHitHandler) : Prop :=
  v.Allows len chunk (o, r) ∧ Keeps len chunk (v.after len (o, r)) hit

/-- A read that says that there is no more gives up the rest of the range. -/
theorem Keeps.ends (h : Keeps len chunk v hit) (hready : hit.pending_seek = false) {pos : Nat}
    (hpos : hit.range_end ≤ pos) : Keeps len chunk { v with dry := true } { hit with pos } := by
  refine ⟨h.total_len, h.chunk, fun hp => ?_, h.range_end, fun _ hd => ?_, fun _ => hpos, h.given⟩
  · exact absurd (hready.symm.trans hp) Bool.false_ne_true
  · cases hd

/-- A read that gives bytes of the range moves the cursor behind them. -/
theorem Keeps.gives (h : Keeps len chunk v hit) (hready : hit.pending_seek = false)
    (hdry : v.dry = false) {n : Nat} (hn : hit.pos + n ≤ hit.range_end) :
    Keeps len chunk { v with given := v.given + n } { hit with pos := hit.pos + n } := by
  have hpos := h.pos hready hdry
  have hstop := h.range_end
  refine ⟨h.total_len, h.chunk, fun hp => ?_, hstop, fun _ _ => ?_, fun hd => ?_, ?_⟩
  · exact absurd (hready.symm.trans hp) Bool.false_ne_true
  · simp only
    omega
  · exact absurd (hdry.symm.trans hd) Bool.false_ne_true
  · simp only
    omega

/-- One read, where the cursor of the file is where it should be. -/
theorem Keeps.read_chunk (henv : ReadsAtMost env ok) (h : Keeps len chunk v hit)
    (hready : hit.pending_seek = false) (s : S) :
    wp env ok hit.read_chunk (fun x _ => Goes len chunk v .read (.given x.1) x.2) s := by
  unfold DiskHitHandler.read_chunk
  by_cases hend : hit.range_end ≤ hit.pos
  · rw [if_pos hend]
    exact ⟨trivial, h.ends hready hend⟩
  · have hdry : v.dry = false := by
      by_contra hd
      exact hend (h.dry (Bool.not_eq_false _ ▸ hd))
    have hpos := h.pos hready hdry
    have hstop := h.range_end
    have hchunk := h.chunk
    rw [if_neg hend, wp_bind]
    refine (wp_perform (Io.read_file _ _) _ _).mpr fun c hc => ?_
    cases hbuf : (env (.read_file hit.file (min hit.chunk (hit.range_end - hit.pos))) c s).1 with
    | error e => exact ⟨hdry, h⟩
    | ok buf =>
      have hlen := henv _ _ c s buf hc hbuf
      simp only
      by_cases hzero : buf.length = 0
      · -- the file ends before the range does
        rw [if_pos hzero]
        exact ⟨trivial, h.ends hready (Nat.le_refl _)⟩
      · rw [if_neg hzero]
        refine ⟨⟨hdry, fun hnil => hzero (congrArg List.length hnil), ?_, ?_⟩, ?_⟩
        · omega
        · omega
        · apply h.gives hready hdry
          omega

theorem Keeps.read_body (henv : ReadsAtMost env ok) (h : Keeps len chunk v hit) (s : S) :
    wp env ok hit.read_body (fun x _ => Goes len chunk v .read (.given x.1) x.2) s := by
  unfold DiskHitHandler.read_body
  by_cases hpending : hit.pending_seek = true
  · obtain ⟨hstart, hgiven, hdry⟩ := h.range_start hpending
    rw [if_pos hpending, wp_bind]
    refine (wp_perform (Io.seek_file _ _) _ _).mpr fun c _ => ?_
    cases (env (.seek_file hit.file hit.range_start) c s).1 with
    | error e => exact ⟨hdry, h⟩
    | ok _ =>
      have hsought : Keeps len chunk v { hit with
          pos := hit.range_start, pending_seek := false } := by
        refine ⟨h.total_len, h.chunk, fun hp => ?_, h.range_end, fun _ _ => ?_, fun hd => ?_,
          h.given⟩
        · cases hp
        · simp only
          omega
        · exact absurd (hdry.symm.trans hd) Bool.false_ne_true
      exact hsought.read_chunk henv rfl _
  · rw [if_neg hpending]
    exact h.read_chunk henv (Bool.not_eq_true _ ▸ hpending) s

/-- One operation replies as the range allows, and the handler keeps to the range behind it. -/
theorem Keeps.op (henv : ReadsAtMost env ok) (h : Keeps len chunk v hit) (o : Op) (s : S) :
    wp env ok (o.exec hit) (fun x _ => Goes len chunk v o x.1 x.2) s := by
  cases o with
  | seek start stop =>
    simp only [Op.exec]
    rcases seek_spec hit start stop with ⟨hin, hseek⟩ | ⟨hout, e, hseek⟩
    · rw [h.total_len] at hin hseek
      rw [hseek]
      refine ⟨⟨fun _ => hin, fun _ => ⟨(), rfl⟩⟩, rfl, h.chunk, fun _ => ⟨rfl, rfl, rfl⟩, rfl,
        fun hp => ?_, fun hd => ?_, hin.1⟩
      · cases hp
      · cases hd
    · rw [h.total_len] at hout
      rw [hseek]
      refine ⟨⟨?_, fun hin => absurd hin hout⟩, h⟩
      rintro ⟨u, hu⟩
      cases hu
  | read =>
    simp only [Op.exec, wp_bind, wp_pure]
    exact h.read_body henv s

theorem Keeps.session (henv : ReadsAtMost env ok) (ops : List Op) (h : Keeps len chunk v hit)
    (s : S) : wp env ok (session hit ops)
      (fun x _ => x.1.map Prod.fst = ops ∧ Follows len chunk v x.1) s := by
  induction ops generalizing v hit s with
  | nil => exact ⟨rfl, trivial⟩
  | cons o ops ih =>
    simp only [range_bounds.session, wp_bind, wp_pure]
    refine wp_mono (h.op henv o s) fun x s' hx => ?_
    refine wp_mono (ih hx.2 s') fun y _ hy => ?_
    exact ⟨congrArg (o :: ·) hy.1, hx.1, hy.2⟩

theorem keeps_fresh (f len : Nat) :
    Keeps len DEFAULT_READ_BUFFER_SIZE (.whole len)
      ⟨f, len, 0, len, 0, false, DEFAULT_READ_BUFFER_SIZE⟩ := by
  refine ⟨rfl, rfl, fun hp => ?_, rfl, fun _ _ => rfl, fun hd => ?_, ?_⟩
  · cases hp
  · cases hd
  · simp [Extent.whole]

end

/-! ## Whatever happens to the file -/

section
variable {K M : Type} [CacheHashKey K] [CacheMeta M] {C S : Type}

/-- The handler that a lookup gave, where it gave one, starts at a body of some length. -/
def GivesWhole (r : Result (Option (M × DiskHitHandler))) : Prop :=
  ∀ cache_meta hit, r = .ok (some (cache_meta, hit)) →
    ∃ f len, hit = ⟨f, len, 0, len, 0, false, DEFAULT_READ_BUFFER_SIZE⟩

/-- Whatever the calls reply, a lookup gives a handler for the whole of the length it read. -/
theorem lookup_fresh (env : Environment Io Io.Reply C S) (ok : C → Prop) (cache : DiskCache)
    (key : K) (s : S) :
    wp env ok (cache.lookup (M := M) key) (fun r _ => GivesWhole r) s := by
  have hgives := lookup_gives (M := M) (P := fun _ => True) cache key trivial trivial
    (fun _ => trivial) trivial (fun _ => trivial) fun _ => trivial
  refine wp_mono (wp_beside hgives (fun _ _ => True) trivial fun _ _ _ _ _ _ => trivial) ?_
  rintro r _ ⟨_, hr, -⟩
  exact hr

/-- Whatever happens to the files and whichever calls fail, a hit keeps to its ranges. A seek is
accepted if and only if it asks for a part of the length that the lookup noted. What the reads
give between two seeks never goes behind the range that was asked for, and where a read has said
that there is no more, all say so until the next seek. -/
theorem a_hit_keeps_to_its_ranges (env : Environment Io Io.Reply C S) (ok : C → Prop)
    (henv : ReadsAtMost env ok) (cache : DiskCache) (key : K) (ops : List Op) (cs : List C)
    (hcs : ∀ c ∈ cs, ok c) (s s' : S) (len : Nat) (t : Trace)
    (hrun : run env (visit K M cache key ops) cs s = some (some (len, t), s')) :
    t.map Prod.fst = ops ∧ Follows len DEFAULT_READ_BUFFER_SIZE (.whole len) t := by
  have hvisit : wp env ok (visit K M cache key ops) (fun x _ => ∀ len t, x = some (len, t) →
      t.map Prod.fst = ops ∧ Follows len DEFAULT_READ_BUFFER_SIZE (.whole len) t) s := by
    unfold visit
    rw [wp_bind]
    refine wp_mono (lookup_fresh env ok cache key s) fun r s hr => ?_
    cases r with
    | error e =>
      intro len t hx
      cases hx
    | ok r =>
      cases r with
      | none =>
        intro len t hx
        cases hx
      | some x =>
        obtain ⟨cache_meta, hit⟩ := x
        obtain ⟨f, len, rfl⟩ := hr cache_meta hit rfl
        simp only [wp_bind, wp_pure]
        refine wp_mono ((keeps_fresh f len).session henv ops s) fun y s hy => ?_
        intro len t hx
        cases hx
        exact hy
  exact run_sound hrun hcs hvisit len t rfl

end

/-! ## A file that is cut while it is read -/

/-- The files of a small disk, where something else may change them before each call. -/
def meddled : Environment Io Io.Reply (Choice × (World → World)) World :=
  fun e c w => answer e c.1 (c.2 w)

/-- Reads of the files give no more than they are asked for, however the files change. -/
theorem meddled_reads_at_most : ReadsAtMost meddled fun _ => True := by
  intro f n c w b _ hread
  simp only [meddled, answer, Choice.guard] at hread
  cases hfault : c.1.fault with
  | none =>
    rw [hfault] at hread
    cases hread
    exact Nat.le_trans (List.length_take_le _ _) (Nat.min_le_left _ _)
  | some e =>
    rw [hfault] at hread
    cases hread

/-- The three files of an object with a body of three bytes. -/
def three_bytes : World :=
  stored_world.setTree (stored_world.tree.put (small_cache.body small_hash) [1, 2, 3])

/-- The body is cut to two bytes. -/
def cut (w : World) : World := w.setTree (w.tree.put (small_cache.body small_hash) [8, 9])

/-- The lookup makes seven calls, and the body is cut before the first read. -/
def meddling : List (Choice × (World → World)) :=
  List.replicate 7 (plain, id) ++ [(plain, cut), (plain, id), (plain, id)]

def some_ops : List Op := [.seek 1 none, .read, .read, .seek 0 (some 4), .read]

theorem a_body_cut_while_it_is_read : ∃ t w,
    run meddled (visit CombinedHash Note small_cache small_hash some_ops) meddling three_bytes =
      some (some (3, t), w) ∧
    t.map Prod.snd = [.sought (.ok ()), .given (.ok (some [9])), .given (.ok none),
      .sought (.error ⟨.InternalError, "seek end > length: 4 > 3"⟩), .given (.ok none)] ∧
    Follows 3 DEFAULT_READ_BUFFER_SIZE (.whole 3) t := by
  have hsome : (run meddled (visit CombinedHash Note small_cache small_hash some_ops) meddling
      three_bytes).map (fun x => x.1.map fun y => (y.1, y.2.map Prod.snd)) = some (some (3,
        [.sought (.ok ()), .given (.ok (some [9])), .given (.ok none),
          .sought (.error ⟨.InternalError, "seek end > length: 4 > 3"⟩), .given (.ok none)])) := by
    decide +kernel
  obtain ⟨⟨x, w⟩, hrun, hx⟩ := Option.map_eq_some_iff.mp hsome
  obtain ⟨⟨len, t⟩, rfl, ht⟩ := Option.map_eq_some_iff.mp hx
  obtain ⟨rfl, hreplies⟩ := Prod.mk.inj ht
  obtain ⟨-, hfollows⟩ := a_hit_keeps_to_its_ranges meddled (fun _ => True) meddled_reads_at_most
    small_cache small_hash some_ops meddling (fun _ _ => trivial) three_bytes w 3 t hrun
  exact ⟨t, w, hrun, hreplies, hfollows⟩

end edge_cdn_store.range_bounds
