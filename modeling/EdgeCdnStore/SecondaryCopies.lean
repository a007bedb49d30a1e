-- What a fan-out handler over two disk caches commits. A write of the secondary
-- that fails is ignored, and the chunks after it and the finish go to the secondary
-- all the same. So the copy there is right exactly when the failures lost no bytes,
-- as long as the pool carries out what was accepted by the next call.
import EdgeCdnStore.FanOut
import EdgeCdnStore.Sites
import EdgeCdnStore.PendingWrites
import EdgeCdnStore.SlowCommit
import EdgeCdnStore.Counters

open edge_cdn_store.programs edge_cdn_store.programs.Program edge_cdn_store.io
open edge_cdn_store.file_tree edge_cdn_store.file_tree.FileTree
open edge_cdn_store.logger edge_cdn_store.disk_cache edge_cdn_store.operations
open edge_cdn_store.miss_handlers edge_cdn_store.fan_out edge_cdn_store.pending_writes
open edge_cdn_store.slow_commit edge_cdn_store.write_pools edge_cdn_store.courses
open edge_cdn_store.finish_faults (ioFault)

namespace edge_cdn_store.secondary_copies

/-! ## Two disks -/

/-- The machine of the primary and the machine of the secondary. -/
structure Disks where
  primary : World
  secondary : World

/-- A call of a handler of one of the two caches. -/
abbrev TierCall := Tier × Io

/-- Each disk answers the calls of its own cache. -/
def both (env env' : Environment Io Io.Reply Choice World) :
    Environment TierCall (fun e => e.2.Reply) Choice Disks
  | (.primary, e), c, d => ((env e c d.primary).1, { d with primary := (env e c d.primary).2 })
  | (.secondary, e), c, d =>
    ((env' e c d.secondary).1, { d with secondary := (env' e c d.secondary).2 })

/-- The handler of one of the two disk caches. -/
def disk_of (tier : Tier) : HandleMiss (Program TierCall fun e => e.2.Reply) DiskMissHandler where
  write_body m data is_eof := (m.write_body data is_eof).sent fun e => (tier, e)
  finish m := m.finish.sent fun e => (tier, e)
  drop m := m.drop.sent fun e => (tier, e)

abbrev Fan := FanoutMiss DiskMissHandler DiskMissHandler

/-- The fan-out handler over both. -/
def fan_miss : HandleMiss (Program TierCall fun e => e.2.Reply) Fan :=
  FanoutMiss.handle_miss (disk_of .primary) (disk_of .secondary)

section
variable {env env' : Environment Io Io.Reply Choice World} {ok : Choice → Prop} {α : Type}

theorem wp_primary (p : Prog α) (Q : α → Disks → Prop) (d : Disks) :
    wp (both env env') ok (p.sent fun e => (Tier.primary, e)) Q d ↔
      wp env ok p (fun a w => Q a { d with primary := w }) d.primary := by
  apply wp_sent Disks.primary fun d w => { d with primary := w }
  all_goals intros; rfl

theorem wp_secondary (p : Prog α) (Q : α → Disks → Prop) (d : Disks) :
    wp (both env env') ok (p.sent fun e => (Tier.secondary, e)) Q d ↔
      wp env' ok p (fun a w => Q a { d with secondary := w }) d.secondary := by
  apply wp_sent Disks.secondary fun d w => { d with secondary := w }
  all_goals intros; rfl

end

/-- Bytes at the end of a file that one of the caches has open. -/
def Disks.append (d : Disks) : Tier × Nat → Bytes → Disks
  | (.primary, f), b => { d with primary := d.primary.append f b }
  | (.secondary, f), b => { d with secondary := d.secondary.append f b }

instance : Appends Disks (Tier × Nat) UInt8 := ⟨Disks.append⟩

instance : LawfulAppends Disks (Tier × Nat) UInt8 where
  append_nil d f := by
    obtain ⟨tier, f⟩ := f
    cases tier
    · exact congrArg (fun w => Disks.mk w d.secondary) (LawfulAppends.append_nil d.primary f)
    · exact congrArg (fun w => Disks.mk d.primary w) (LawfulAppends.append_nil d.secondary f)
  append_append d f b b' := by
    obtain ⟨tier, f⟩ := f
    cases tier
    · exact congrArg (fun w => Disks.mk w d.secondary)
        (LawfulAppends.append_append d.primary f b b')
    · exact congrArg (fun w => Disks.mk d.primary w)
        (LawfulAppends.append_append d.secondary f b b')

/-- The two machines with the pool, which carries out each write by the next call. -/
abbrev PoolDisks := WritePool Disks (Tier × Nat) UInt8 IoError

abbrev prompt (env : Environment TierCall (fun e => e.2.Reply) Choice Disks) :
    Environment TierCall (fun e => e.2.Reply) Choice PoolDisks :=
  awaited (file_writes Tier) env

/-- A write that is accepted adds its bytes. -/
def Adds (env : Environment Io Io.Reply Choice World) : Prop :=
  ∀ f d c w, (env (.write_all f d) c w).1 = .ok () →
    (env (.write_all f d) c w).2 = w.append f d

theorem both_immediate {env env' : Environment Io Io.Reply Choice World} (h : Adds env)
    (h' : Adds env') : Immediate (file_writes Tier) (both env env') := by
  rintro ⟨tier, e⟩ c d f failed b hf hb ha
  cases e
  case write_all g x =>
    cases hf
    cases hb
    cases tier with
    | primary =>
      have hok : (env (.write_all g b) c d.primary).1 = .ok () := by
        cases hr : (env (.write_all g b) c d.primary).1 with
        | ok u => rfl
        | error x => simp [both, file_writes, hr] at ha
      exact congrArg (fun w => Disks.mk w d.secondary) (h g b c d.primary hok)
    | secondary =>
      have hok : (env' (.write_all g b) c d.secondary).1 = .ok () := by
        cases hr : (env' (.write_all g b) c d.secondary).1 with
        | ok u => rfl
        | error x => simp [both, file_writes, hr] at ha
      exact congrArg (fun w => Disks.mk d.primary w) (h' g b c d.secondary hok)
  all_goals cases hb

theorem answer_adds : Adds answer := by
  intro f d c w h
  rcases c with ⟨_ | ⟨e, _ | n⟩, now, amount⟩
  · rfl
  · cases h
  · cases h

/-! ## The failures of the writes -/

/-- How a write fails: its file cannot be opened, or the write stops after some bytes. -/
inductive Loss
  | not_opened (e : IoError)
  | cut_short (e : IoError) (n : Nat)
  deriving DecidableEq, Repr

/-- The bytes that a write which fails may still have appended. -/
def Loss.reached : Loss → Nat
  | .not_opened _ => 0
  | .cut_short _ n => n

/-- What the write appends of its chunk. -/
def kept (l : Option Loss) (data : Bytes) : Bytes :=
  match l with
  | none => data
  | some l => data.take l.reached

/-- What happens at one call. -/
def lossy_choice (l : Option Loss) (e : Io) (c : Choice) : Choice :=
  match e, l with
  | .open_append _, some (.not_opened e) => { c with fault := some ⟨e, none⟩ }
  | .write_all _ _, some (.cut_short e n) => { c with fault := some ⟨e, some n⟩ }
  | .open_append _, _ => c.calm
  | .write_all _ _, _ => c.calm
  | _, _ => c

/-- The operating system, where a write fails like this or, with `none`, does not fail. -/
def lossy (l : Option Loss) : Environment Io Io.Reply Choice World :=
  fun e c w => answer e (lossy_choice l e c) w

theorem lossy_adds (l : Option Loss) : Adds (lossy l) :=
  fun f d c w h => answer_adds f d (lossy_choice l (.write_all f d) c) w h

/-- A chunk as the owner of the fan-out writes it, and how its two writes fail. -/
structure Chunk where
  data : Bytes
  is_eof : Bool
  primary : Option Loss
  secondary : Option Loss
  deriving DecidableEq

namespace Chunk

/-- What comes to the file of the primary. -/
def first (x : Chunk) : Bytes := kept x.primary x.data

/-- What comes to the file of the secondary: nothing when the write of the primary failed. -/
def second (x : Chunk) : Bytes :=
  match x.primary with
  | none => kept x.secondary x.data
  | some _ => []

/-- The two files get the same: a write of the secondary that failed had appended all of its chunk,
and a write of the primary that failed had appended nothing. -/
def Whole (x : Chunk) : Prop :=
  match x.primary, x.secondary with
  | none, none => True
  | none, some l => x.data.length ≤ l.reached
  | some l, _ => x.data = [] ∨ l.reached = 0

end Chunk

theorem kept_prefix (l : Option Loss) (data : Bytes) : kept l data <+: data := by
  cases l with
  | none => exact List.prefix_rfl
  | some l => exact List.take_prefix _ _

theorem Chunk.second_prefix (x : Chunk) : x.second <+: x.first := by
  unfold Chunk.second Chunk.first
  cases x.primary with
  | none => exact kept_prefix _ _
  | some l => exact List.nil_prefix

theorem Chunk.second_eq_first_iff (x : Chunk) : x.second = x.first ↔ x.Whole := by
  obtain ⟨data, is_eof, p, s⟩ := x
  unfold Chunk.second Chunk.first Chunk.Whole
  cases p with
  | none =>
    cases s with
    | none => simp [kept]
    | some l => simp [kept]
  | some l =>
    simp only [kept]
    rw [eq_comm, List.take_eq_nil_iff, or_comm]

/-- Of pieces that each hold at least as much, the whole is the same exactly when each piece is. -/
theorem flatMap_eq_iff {α β : Type} {f g : α → List β} (h : ∀ x, f x <+: g x) (xs : List α) :
    xs.flatMap f = xs.flatMap g ↔ ∀ x ∈ xs, f x = g x := by
  have hle : ∀ ys : List α, (ys.flatMap f).length ≤ (ys.flatMap g).length := by
    intro ys
    induction ys with
    | nil => exact Nat.le_refl _
    | cons y ys ih =>
      have := (h y).length_le
      simp only [List.flatMap_cons, List.length_append]
      omega
  induction xs with
  | nil => simp
  | cons x xs ih =>
    simp only [List.flatMap_cons, List.forall_mem_cons]
    constructor
    · intro heq
      have hlen := congrArg List.length heq
      simp only [List.length_append] at hlen
      have hx := (h x).length_le
      have hxs := hle xs
      have hfx : f x = g x := (h x).eq_of_length (by omega)
      rw [hfx] at heq
      exact ⟨hfx, ih.mp (List.append_cancel_left heq)⟩
    · rintro ⟨hx, hxs⟩
      rw [hx, ih.mpr hxs]

/-! ## One handler -/

/-- A handler whose temporary file holds `d`. -/
structure Stored (cache : DiskCache) (hash : CombinedHash) (d : Bytes) (m : DiskMissHandler)
    (w : World) : Prop where
  laid : cache.Laid w.tree
  paths : m.Of cache hash
  content : w.tree.content m.tmp_path = some d

section
variable {cache : DiskCache} {hash : CombinedHash} {m : DiskMissHandler} {w : World} {d : Bytes}
  {l : Option Loss}

/-- The file is opened, or it is not and nothing changes. -/
theorem open_append_lossy {Q : Except IoError Nat → World → Prop} {i : Nat}
    (hi : w.tree.node m.tmp_path = some (.file i))
    (herr : ∀ e, l = some (.not_opened e) → Q (.error e) w)
    (hok : (∀ e, l ≠ some (.not_opened e)) → Q (.ok w.opened) (w.openIno i)) :
    wp (lossy l) (fun _ => True) (File.open_append m.tmp_path) Q w := by
  refine (wp_perform (Io.open_append _) _ _).mpr fun c _ => ?_
  unfold lossy
  rcases l with _ | ⟨e⟩ | ⟨e, n⟩
  · simp only [lossy_choice, answer, Choice.guard, Choice.calm, hi]
    exact hok (by simp)
  · simp only [lossy_choice, answer, Choice.guard]
    exact herr e rfl
  · simp only [lossy_choice, answer, Choice.guard, Choice.calm, hi]
    exact hok (by simp)

/-- What is kept of the chunk comes to the end of the file. -/
theorem write_all_lossy {Q : Except IoError Unit → World → Prop} {f : Nat} (data : Bytes)
    (hl : ∀ e, l ≠ some (.not_opened e))
    (herr : ∀ e n, l = some (.cut_short e n) → Q (.error e) (w.append f (kept l data)))
    (hok : l = none → Q (.ok ()) (w.append f data)) :
    wp (lossy l) (fun _ => True) (File.write_all f data) Q w := by
  refine (wp_perform (Io.write_all _ _) _ _).mpr fun c _ => ?_
  unfold lossy
  rcases l with _ | ⟨e⟩ | ⟨e, n⟩
  · simp only [lossy_choice, answer, Choice.calm]
    exact hok rfl
  · exact absurd rfl (hl e)
  · simp only [lossy_choice, answer]
    exact herr e n rfl

/-- A flush may fail or not, and changes nothing. -/
theorem flush_lossy {Q : Except IoError Unit → World → Prop} {f : Nat} (h : ∀ r, Q r w) :
    wp (lossy l) (fun _ => True) (File.flush f) Q w := by
  refine (wp_perform (Io.flush _) _ _).mpr fun c _ => ?_
  unfold lossy
  simp only [lossy_choice, answer, Choice.guard]
  cases c.fault <;> exact h _

theorem Stored.openIno (h : Stored cache hash d m w) (i : Nat) :
    Stored cache hash d m (w.openIno i) := ⟨h.laid, h.paths, h.content⟩

/-- More bytes at the end of the temporary file, which a handle has open. -/
theorem Stored.append {f : Nat} (h : Stored cache hash d m w)
    (hf : w.tree.node m.tmp_path = some (.file (w.files f).ino)) (data : Bytes) :
    Stored cache hash (d ++ data) m (w.append f data) := by
  have hd := h.content
  rw [content_of_file hf, Option.some.injEq] at hd
  refine ⟨h.laid.setData _ _, h.paths, ?_⟩
  unfold World.append World.setTree
  simp only
  rw [content_setData hf, if_pos rfl, hd]

theorem Stored.counted (h : Stored cache hash d m w) (n : Nat) :
    Stored cache hash d { m with tmp_bytes_written := n } w :=
  ⟨h.laid, of_counted h.paths n, h.content⟩

/-- A write appends what is kept of the chunk, and succeeds when it is to. -/
theorem write_body_lossy (h : Stored cache hash d m w) (data : Bytes) (is_eof : Bool) :
    wp (lossy l) (fun _ => True) (m.write_body data is_eof) (fun r w' =>
      (r.1.isOk = true ↔ l = none) ∧ Stored cache hash (d ++ kept l data) r.2 w') w := by
  obtain ⟨i, hi⟩ := content_isSome.mp (by rw [h.content]; rfl :
    (w.tree.content m.tmp_path).isSome)
  unfold DiskMissHandler.write_body
  rw [wp_bind]
  refine open_append_lossy hi (fun e hl => ?_) fun hl => ?_
  · subst hl
    refine ⟨by simp [trace_fn_exit_with_err, e_explain, Except.isOk, Except.toBool], ?_⟩
    simpa [kept, Loss.reached] using h
  · have hf : (w.openIno i).tree.node m.tmp_path =
        some (.file ((w.openIno i).files w.opened).ino) := by
      simp [World.openIno, hi]
    have happend := (h.openIno i).append hf (kept l data)
    simp only
    rw [wp_bind]
    refine write_all_lossy data hl (fun e n hl => ?_) fun hl => ?_
    · refine ⟨?_, happend⟩
      simp [hl, trace_fn_exit_with_err, e_explain, Except.isOk, Except.toBool]
    · subst hl
      cases is_eof with
      | false => exact ⟨by simp [Except.isOk, Except.toBool], happend.counted _⟩
      | true =>
        simp only [if_true]
        rw [wp_bind]
        refine flush_lossy fun r => ?_
        exact ⟨by simp [Except.isOk, Except.toBool], happend.counted _⟩

end

/-! ## The two handlers -/

/-- A fan-out handler with both its handlers, whose temporary files hold `d` and `d'`. -/
structure Filled (cache cache' : DiskCache) (hash : CombinedHash) (d d' : Bytes) (fan : Fan)
    (disks : Disks) : Prop where
  primary : ∃ m, fan.primary = some m ∧ Stored cache hash d m disks.primary
  secondary : ∃ m, fan.secondary = some m ∧ Stored cache' hash d' m disks.secondary

/-- The two disks, where the writes of a chunk fail as it says. -/
def lossy_disks (x : Chunk) : Environment TierCall (fun e => e.2.Reply) Choice Disks :=
  both (lossy x.primary) (lossy x.secondary)

/-- The owner writes these chunks, whatever the writes give. -/
inductive Writes {S : Type} (env : Chunk → Environment TierCall (fun e => e.2.Reply) Choice S) :
    Fan → S → List Chunk → Fan → S → Prop
  | nil (fan : Fan) (s : S) : Writes env fan s [] fan s
  | cons {fan fan1 fan2 : Fan} {s s1 s2 : S} {x : Chunk} {xs : List Chunk} {cs : List Choice}
      {r : Result Unit}
      (hrun : run (env x) (fan_miss.write_body fan x.data x.is_eof) cs s = some ((r, fan1), s1))
      (hrest : Writes env fan1 s1 xs fan2 s2) : Writes env fan s (x :: xs) fan2 s2

/-- The finish of this cache committed an object: it counted an insert. -/
def Committed (w w' : World) : Prop :=
  w.metrics.counter .inserts < w'.metrics.counter .inserts

/-- What stands in the two bodies. -/
def Bodies (cache cache' : DiskCache) (hash : CombinedHash) (d d' : Bytes) (disks : Disks) : Prop :=
  disks.primary.tree.content (cache.body hash) = some d ∧
    disks.secondary.tree.content (cache'.body hash) = some d'

/-- Whenever the owner makes these writes and a finish that succeeds, and the finish of the
secondary committed an object, both caches have the same body. Each write fails as its chunk says,
and the finish may fail anywhere. What the pool was given it has carried out by the next call. -/
def NeverDamaged (cache cache' : DiskCache) (hash : CombinedHash) (fan : Fan) (xs : List Chunk)
    (disks : Disks) : Prop :=
  ∀ fan1 s1 cs result s2, Writes (fun x => prompt (lossy_disks x)) fan ⟨disks, []⟩ xs fan1 s1 →
    run (prompt (both answer answer)) (fan_miss.finish fan1) cs s1 = some (.ok result, s2) →
    Committed s1.through.secondary s2.through.secondary →
    ∃ d, Bodies cache cache' hash d d s2.through

section
variable {cache cache' : DiskCache} {hash : CombinedHash} {fan fan' : Fan} {disks disks' : Disks}
  {d d' : Bytes}

/-- A write of the fan-out. -/
theorem fan_write_lossy (h : Filled cache cache' hash d d' fan disks) (x : Chunk) :
    wp (lossy_disks x) (fun _ => True) (fan_miss.write_body fan x.data x.is_eof)
      (fun r disks' => Filled cache cache' hash (d ++ x.first) (d' ++ x.second) r.2 disks')
      disks := by
  obtain ⟨⟨m, hm, hs⟩, ⟨m', hm', hs'⟩⟩ := h
  obtain ⟨p, s, n⟩ := fan
  cases hm
  cases hm'
  unfold fan_miss FanoutMiss.handle_miss FanoutMiss.write_body
  simp only
  rw [wp_bind]
  refine (wp_primary _ _ _).mpr (wp_mono (write_body_lossy hs x.data x.is_eof) ?_)
  rintro ⟨r, m1⟩ w ⟨hr, hs1⟩
  cases r with
  | error e =>
    -- the secondary does not hear of the chunk
    cases hx : x.primary with
    | none => exact absurd (hr.mpr hx) (by simp [Except.isOk, Except.toBool])
    | some l =>
      refine ⟨⟨m1, rfl, hs1⟩, ⟨m', rfl, ?_⟩⟩
      unfold Chunk.second
      rw [hx]
      simpa using hs'
  | ok u =>
    have hx : x.primary = none := hr.mp rfl
    simp only
    rw [wp_bind]
    refine (wp_secondary _ _ _).mpr (wp_mono (write_body_lossy hs' x.data x.is_eof) ?_)
    rintro ⟨r', m2⟩ w' ⟨_, hs2⟩
    refine ⟨⟨m1, rfl, hs1⟩, ⟨m2, rfl, ?_⟩⟩
    unfold Chunk.second
    rw [hx]
    exact hs2

/-- All writes. -/
theorem Filled.writes {xs : List Chunk} (h : Filled cache cache' hash d d' fan disks)
    (hw : Writes lossy_disks fan disks xs fan' disks') :
    Filled cache cache' hash (d ++ xs.flatMap Chunk.first) (d' ++ xs.flatMap Chunk.second) fan'
      disks' := by
  induction hw generalizing d d' with
  | nil fan disks => simpa using h
  | @cons fan fan1 fan2 disks disks1 disks2 x xs cs r hrun _ ih =>
    have hfilled : Filled cache cache' hash (d ++ x.first) (d' ++ x.second) fan1 disks1 :=
      run_sound (Q := fun r disks' => Filled cache cache' hash _ _ r.2 disks') hrun
        (fun _ _ => trivial) (fan_write_lossy h x)
    simpa [List.append_assoc] using ih hfilled

/-- The owner can write any chunks. -/
theorem writes_exist {S : Type} (env : Chunk → Environment TierCall (fun e => e.2.Reply) Choice S)
    (xs : List Chunk) (fan : Fan) (s : S) : ∃ fan' s', Writes env fan s xs fan' s' := by
  induction xs generalizing fan s with
  | nil => exact ⟨fan, s, .nil fan s⟩
  | cons x xs ih =>
    have hend : ∃ cs r s1, (∀ c ∈ cs, True) ∧
        run (env x) (fan_miss.write_body fan x.data x.is_eof) cs s = some (r, s1) :=
      run_exists _ s plain trivial
    obtain ⟨cs, ⟨r, fan1⟩, s1, _, hrun⟩ := hend
    obtain ⟨fan', s', hrest⟩ := ih fan1 s1
    exact ⟨fan', s', .cons hrun hrest⟩

/-- Writes over the pool are writes without one. -/
theorem Writes.through {s s' : PoolDisks} {xs : List Chunk} (hs : s.Light)
    (hw : Writes (fun x => prompt (lossy_disks x)) fan s xs fan' s') :
    Writes lossy_disks fan s.through xs fan' s'.through ∧ s'.Light := by
  induction hw with
  | nil fan s => exact ⟨.nil fan _, hs⟩
  | @cons fan fan1 fan2 s s1 s2 x xs cs r hrun _ ih =>
    have hk : Immediate (file_writes Tier) (lossy_disks x) :=
      both_immediate (lossy_adds _) (lossy_adds _)
    obtain ⟨hsame, hlight⟩ := run_awaited hk (fan_miss.write_body fan x.data x.is_eof) cs hs
    rw [hrun] at hsame
    obtain ⟨hrest, hend⟩ := ih (hlight _ hrun)
    exact ⟨.cons hsame.symm hrest, hend⟩

end

/-! ## New handlers -/

section
variable {K M : Type} [CacheHashKey K] [CacheMeta M]
variable {cache cache' : DiskCache} {hash : CombinedHash} {w w' : World}

/-- The calls of a key keep the disk laid out, whether they fail or not. -/
theorem laid_of_key {α : Type} {p : Prog α} (hp : p.Calls (sites.OfKey cache hash))
    (hw : cache.Laid w.tree) : wp answer (fun _ => True) p (fun _ w' => cache.Laid w'.tree) w :=
  wp_keeps (I := fun w : World => cache.Laid w.tree) hp
    (fun _ _ _ he _ hs => sites.laid_answer hs he) hw

/-- A file that is created is empty. -/
theorem create_any {Q : Except IoError Nat → World → Prop} {n : List Char}
    (hw : cache.Laid w.tree) (herr : ∀ e, Q (.error e) w)
    (hok : ∀ f w', cache.Laid w'.tree → w'.tree.content (cache.entry hash n) = some [] →
      Q (.ok f) w') :
    wp answer (fun _ => True) (File.create (cache.entry hash n)) Q w := by
  refine (wp_perform (Io.create_file _) _ _).mpr fun c _ => ?_
  cases hc : c.fault with
  | some x =>
    simp only [answer, Choice.guard, hc]
    exact herr _
  | none =>
    simp only [answer, Choice.guard, hc]
    by_cases hcan : w.tree.CanCreate (cache.entry hash n)
    · obtain ⟨i, hi, _⟩ := node_create_self hcan
      simp only [hcan, if_pos, hi]
      refine hok _ _ (hw.create hcan DiskCache.entry_not_mem_dirs) ?_
      exact (content_create hcan _).trans (if_pos rfl)
    · simp only [hcan, if_neg, not_false_eq_true]
      exact herr _

/-- A handler that is given out has an empty temporary file. -/
theorem new_handler_stored (key : K) (cache_meta : M) (hw : cache.Laid w.tree) :
    wp answer (fun _ => True) (cache.get_miss_handler key cache_meta) (fun r w' =>
      ∀ m, r = .ok m → Stored cache (CacheHashKey.combined key) [] m w') w := by
  generalize hhash : CacheHashKey.combined key = hash
  have hinc : (inc .misses).Calls (sites.OfKey cache hash) := calls_perform.mpr trivial
  have hnow : now.Calls (sites.OfKey cache hash) := calls_perform.mpr trivial
  have hpid : process_id.Calls (sites.OfKey cache hash) := calls_perform.mpr trivial
  have hdir : ∀ p, p = cache.dir hash → (fs.create_dir_all p).Calls (sites.OfKey cache hash) :=
    fun p hp => calls_perform.mpr (Or.inr hp)
  unfold DiskCache.get_miss_handler
  simp only [DiskCache.path_from_key, DiskCache.path_from_hash, hhash]
  rw [wp_bind]
  refine wp_mono (laid_of_key hinc hw) fun _ w1 h1 => ?_
  cases CacheMeta.serialize cache_meta with
  | error e =>
    intro m hm
    cases hm
  | ok parts =>
    obtain ⟨mi, mh⟩ := parts
    simp only
    rw [wp_bind]
    refine wp_mono (laid_of_key (hdir _ rfl) h1) fun _ w2 h2 => ?_
    unfold DiskMissHandler.create_tmp
    rw [wp_bind, wp_bind]
    refine wp_mono (laid_of_key hnow h2) fun nanos w3 h3 => ?_
    rw [wp_bind]
    refine wp_mono (laid_of_key hpid h3) fun pid w4 h4 => ?_
    rw [wp_bind]
    refine wp_mono (laid_of_key (hdir _ List.dropLast_concat) h4) fun _ w5 h5 => ?_
    rw [wp_bind]
    refine create_any (n := DiskMissHandler.tmp_name hash.text pid nanos.toNat) h5
      (fun e m hm => by cases hm) fun f w6 h6 hempty m hm => ?_
    cases hm
    exact ⟨h6, ⟨rfl, rfl, rfl, rfl, _, isTmp_tmp_name _ _ _, rfl⟩, hempty⟩

/-- A fan-out over two handlers that the caches have just given out, with whatever failures, has
two empty files. -/
theorem new_fan_filled {disks : Disks} {cs cs' : List Choice} {m m' : DiskMissHandler} (n : Nat)
    (key : K) (cache_meta : M) (hw : cache.Laid w.tree) (hw' : cache'.Laid w'.tree)
    (hrun : run answer (cache.get_miss_handler key cache_meta) cs w = some (.ok m, disks.primary))
    (hrun' : run answer (cache'.get_miss_handler key cache_meta) cs' w' =
      some (.ok m', disks.secondary)) :
    Filled cache cache' (CacheHashKey.combined key) [] [] ⟨some m, some m', n⟩ disks where
  primary := ⟨m, rfl, run_sound hrun (fun _ _ => trivial) (new_handler_stored key cache_meta hw)
    m rfl⟩
  secondary := ⟨m', rfl, run_sound hrun' (fun _ _ => trivial)
    (new_handler_stored key cache_meta hw') m' rfl⟩

end

/-! ## The finish -/

/-- A finish that fails has counted nothing. -/
theorem failed_finish_counts_nothing (m : DiskMissHandler) (w : World) :
    wp answer (fun _ => True) m.finish
      (fun r w' => ∀ e, r = .error e → w'.metrics.counter = w.metrics.counter) w := by
  -- the counters stay as they were until it has counted its object
  refine wp_mono (wp_beside (finish_course m) (fun x w' => x = .inserted ∨ x = .leaving true ∨
    x = .left true ∨ w'.metrics.counter = w.metrics.counter) ?_ ?_) ?_
  · exact Or.inr (Or.inr (Or.inr rfl))
  · intro x e c w' hI ha
    cases x
    case hdr_written =>
      cases ha
      exact Or.inl rfl
    case inserted =>
      cases ha
      exact Or.inr (Or.inl rfl)
    case left => exact absurd ha id
    case leaving made =>
      cases ha
      cases made with
      | true => exact Or.inr (Or.inr (Or.inl rfl))
      | false =>
        have hw : w'.metrics.counter = w.metrics.counter := by simpa using hI
        have hsame := counters.counter_of_uncounted (e := .remove_file m.tmp_path)
          (fun _ _ h => by cases h) c w'
        exact Or.inr (Or.inr (Or.inr (hsame.trans hw)))
    all_goals
      have hw : w'.metrics.counter = w.metrics.counter := by simpa using hI
      have hpath : ∀ k n, e ≠ .inc_by k n := by
        rintro k n rfl
        simp [Finishing.allows] at ha
      have hsame := counters.counter_of_uncounted hpath c w'
      exact Or.inr (Or.inr (Or.inr (hsame.trans hw)))
  · rintro r w' ⟨x, ⟨rfl, rfl⟩ | ⟨rfl, -⟩, hI⟩ e he
    · cases he
    · simpa using hI

section
variable {cache cache' : DiskCache} {hash : CombinedHash} {fan : Fan} {disks : Disks}
  {d d' : Bytes}

/-- A finish of the fan-out is a finish of the primary, and one of the secondary when the first
succeeded. -/
theorem fan_finish_spec {env env' : Environment Io Io.Reply Choice World} {m m' : DiskMissHandler}
    {n : Nat} {Q : Result MissFinishType → Disks → Prop}
    (h : wp env (fun _ => True) m.finish (fun r w => (∀ e, r = .error e → ∀ disks', Q r disks') ∧
      ∀ result, r = .ok result → wp env' (fun _ => True) m'.finish
        (fun _ w' => Q r ⟨w, w'⟩) disks.secondary) disks.primary) :
    wp (both env env') (fun _ => True) (fan_miss.finish ⟨some m, some m', n⟩) Q disks := by
  unfold fan_miss FanoutMiss.handle_miss FanoutMiss.finish
  simp only
  rw [wp_bind]
  refine (wp_primary _ _ _).mpr (wp_mono h fun r w hr => ?_)
  cases r with
  | error e =>
    simp only
    rw [wp_bind]
    exact wp_of_forall (fun _ disks' => hr.1 e rfl disks') _ _
  | ok result =>
    have hend := hr.2 result rfl
    cases result <;> exact (wp_bind _ _ _ _).mpr ((wp_secondary _ _ _).mpr hend)

/-- A finish of the fan-out, whatever fails. -/
theorem fan_finish_any (h : Filled cache cache' hash d d' fan disks) :
    wp (both answer answer) (fun _ => True) (fan_miss.finish fan) (fun r disks' =>
      ∀ result, r = .ok result → Committed disks.secondary disks'.secondary →
        Bodies cache cache' hash d d' disks') disks := by
  obtain ⟨⟨m, hm, hs⟩, ⟨m', hm', hs'⟩⟩ := h
  obtain ⟨p, s, n⟩ := fan
  cases hm
  cases hm'
  apply fan_finish_spec
  refine wp_mono (finish_any hs.paths hs.laid hs.content) fun r w h => ⟨?_, fun result hr => ?_⟩
  · rintro e rfl disks' result hr
    cases hr
  · have hbody := (h result hr).1
    refine wp_mono (wp_and (finish_any hs'.paths hs'.laid hs'.content)
      (failed_finish_counts_nothing m' disks.secondary)) fun r' w' h' _ _ hc => ?_
    cases r' with
    | error e =>
      unfold Committed at hc
      rw [h'.2 e rfl] at hc
      exact absurd hc (Nat.lt_irrefl _)
    | ok result' => exact ⟨hbody, (h'.1 result' rfl).1⟩

/-- A finish of one handler, of which no call fails, commits the body. -/
theorem finish_commits {m : DiskMissHandler} {w : World} (h : Stored cache hash d m w) :
    wp (committing none) (fun _ => True) m.finish (fun r w' => (∃ result, r = .ok result) ∧
      Committed w w' ∧ w'.tree.content (cache.body hash) = some d) w := by
  have hholds : Holds cache w.tree.content w.metrics w := ⟨h.laid, rfl, rfl⟩
  refine wp_mono (finish_committing none h.paths hholds h.content) fun r w' h' => ?_
  obtain ⟨hr, hw'⟩ := h'
  refine ⟨⟨_, hr⟩, ?_, ?_⟩
  · unfold Committed
    rw [hw'.metrics]
    unfold CacheMetrics.add CacheMetrics.inc_by
    simp
  · rw [hw'.content]
    unfold committed
    rw [DiskCache.body_eq, withFiles_body]

/-- So does a finish of the fan-out, on both disks. -/
theorem fan_finish_commits (h : Filled cache cache' hash d d' fan disks) :
    wp (both (committing none) (committing none)) (fun _ => True) (fan_miss.finish fan)
      (fun r disks' => (∃ result, r = .ok result) ∧
        Committed disks.secondary disks'.secondary ∧ Bodies cache cache' hash d d' disks')
      disks := by
  obtain ⟨⟨m, hm, hs⟩, ⟨m', hm', hs'⟩⟩ := h
  obtain ⟨p, s, n⟩ := fan
  cases hm
  cases hm'
  apply fan_finish_spec
  refine wp_mono (finish_commits hs) fun r w h => ?_
  obtain ⟨⟨result, rfl⟩, _, hbody⟩ := h
  refine ⟨fun e he => absurd he (by simp), fun _ _ => ?_⟩
  refine wp_mono (finish_commits hs') fun _ w' h' => ?_
  obtain ⟨_, hcommitted, hbody'⟩ := h'
  exact ⟨⟨result, rfl⟩, hcommitted, hbody, hbody'⟩

/-- Some finish of the fan-out succeeds and commits on both disks. -/
theorem a_finish_commits (h : Filled cache cache' hash d d' fan disks) :
    ∃ cs result disks', run (both answer answer) (fan_miss.finish fan) cs disks =
      some (.ok result, disks') ∧ Committed disks.secondary disks'.secondary ∧
        Bodies cache cache' hash d d' disks' := by
  have hend : ∃ cs r disks', (∀ c ∈ cs, True) ∧ run (both (committing none) (committing none))
      (fan_miss.finish fan) cs disks = some (r, disks') := run_exists _ disks plain trivial
  obtain ⟨cs, r, disks', _, hrun⟩ := hend
  obtain ⟨⟨result, rfl⟩, hcommitted, hbodies⟩ :=
    run_sound hrun (fun _ _ => trivial) (fan_finish_commits h)
  have henv : ∀ e c (disks : Disks), both (committing none) (committing none) e c disks =
      both answer answer e (commit_choice none e.2 c) disks := by
    rintro ⟨tier, e⟩ c disks
    cases tier <;> rfl
  obtain ⟨cs', hrun'⟩ := run_of_narrower henv hrun
  exact ⟨cs', result, disks', hrun', hcommitted, hbodies⟩

/-- A finish over the pool is one without it. -/
theorem finish_through {s s' : PoolDisks} {cs : List Choice} {r : Result MissFinishType}
    (hs : s.Light)
    (hrun : run (prompt (both answer answer)) (fan_miss.finish fan) cs s = some (r, s')) :
    run (both answer answer) (fan_miss.finish fan) cs s.through = some (r, s'.through) := by
  obtain ⟨hsame, -⟩ := run_awaited (both_immediate answer_adds answer_adds) (fan_miss.finish fan)
    cs hs
  rw [← hsame, hrun]
  rfl

/-- After any writes over the pool some finish succeeds and commits on both disks. -/
theorem a_pooled_finish_commits (h : Filled cache cache' hash d d' fan disks) (xs : List Chunk) :
    ∃ fan1 s1 cs result s2,
      Writes (fun x => prompt (lossy_disks x)) fan ⟨disks, []⟩ xs fan1 s1 ∧
      run (prompt (both answer answer)) (fan_miss.finish fan1) cs s1 = some (.ok result, s2) ∧
      Committed s1.through.secondary s2.through.secondary ∧
      Bodies cache cache' hash (d ++ xs.flatMap Chunk.first) (d' ++ xs.flatMap Chunk.second)
        s2.through := by
  obtain ⟨fan1, s1, hwrites⟩ := writes_exist (fun x => prompt (lossy_disks x)) xs fan ⟨disks, []⟩
  obtain ⟨hplain, hlight⟩ := hwrites.through (.idle disks)
  obtain ⟨cs, result, disks2, hrun, hcommitted, hbodies⟩ := a_finish_commits (h.writes hplain)
  obtain ⟨hsame, -⟩ := run_awaited (both_immediate answer_adds answer_adds) (fan_miss.finish fan1)
    cs hlight
  rw [hrun] at hsame
  obtain ⟨⟨r, s2⟩, hpooled, heq⟩ := Option.map_eq_some_iff.mp hsame
  obtain ⟨rfl, rfl⟩ := Prod.mk.inj heq
  exact ⟨fan1, s1, cs, result, s2, hwrites, hpooled, hcommitted, hbodies⟩

/-- On a pool that carries out each accepted write by the next call, the copy of the secondary is
never damaged exactly when no write treats the two files differently: where the write of the
primary succeeded, that of the secondary succeeded too, or it failed after it had appended its
whole chunk; and where the write of the primary failed, it had appended nothing. -/
theorem a_copy_is_never_damaged_exactly_when_no_write_tells_the_files_apart
    (h : Filled cache cache' hash d d fan disks) (xs : List Chunk) :
    NeverDamaged cache cache' hash fan xs disks ↔ ∀ x ∈ xs, x.Whole := by
  have hsame := flatMap_eq_iff Chunk.second_prefix xs
  constructor
  · intro hall x hx
    obtain ⟨fan1, s1, cs, result, s2, hwrites, hrun, hcommitted, hfirst, hsecond⟩ :=
      a_pooled_finish_commits h xs
    obtain ⟨d1, hd1, hd2⟩ := hall fan1 s1 cs result s2 hwrites hrun hcommitted
    rw [hfirst, Option.some.injEq] at hd1
    rw [hsecond, ← hd1, Option.some.injEq] at hd2
    exact x.second_eq_first_iff.mp (hsame.mp (List.append_cancel_left hd2) x hx)
  · intro hall fan1 s1 cs result s2 hwrites hrun hcommitted
    obtain ⟨hplain, hlight⟩ := hwrites.through (.idle disks)
    have hflat := hsame.mpr fun x hx => x.second_eq_first_iff.mpr (hall x hx)
    have hfilled := h.writes hplain
    rw [hflat] at hfilled
    exact ⟨_, run_sound (finish_through hlight hrun) (fun _ _ => trivial) (fan_finish_any hfilled)
      result rfl hcommitted⟩

end

/-! ## A chunk that the secondary loses -/

def small_disks : Disks := ⟨one_miss.2, one_miss.2⟩

def small_fan : Fan := ⟨some (small_handler [7] 0), some (small_handler [7] 0), 0⟩

theorem small_fan_filled :
    Filled small_cache small_cache small_hash [] [] small_fan small_disks := by
  have hnew : Stored small_cache small_hash [] (small_handler [7] 0) one_miss.2 :=
    ⟨new_handler_new.laid, new_handler_new.paths, new_handler_new.empty⟩
  exact ⟨⟨_, rfl, hnew⟩, ⟨_, rfl, hnew⟩⟩

/-- The write of the secondary fails after its last byte. -/
def late_failure : List Chunk :=
  [⟨[1, 2], false, none, some (.cut_short ioFault 2)⟩, ⟨[3], true, none, none⟩]

theorem a_copy_survives_a_late_failure :
    NeverDamaged small_cache small_cache small_hash small_fan late_failure small_disks :=
  (a_copy_is_never_damaged_exactly_when_no_write_tells_the_files_apart small_fan_filled
    late_failure).mpr (by simp [late_failure, Chunk.Whole, Loss.reached])

/-- The secondary cannot open its file for the first chunk, and has no failure after that. -/
def lost_chunk : List Chunk :=
  [⟨[1, 2], false, none, some (.not_opened ioFault)⟩, ⟨[3], true, none, none⟩]

theorem a_lost_chunk_is_missing_in_the_copy :
    Filled small_cache small_cache small_hash [] [] small_fan small_disks ∧
    (∃ fan s cs result s',
      Writes (fun x => prompt (lossy_disks x)) small_fan ⟨small_disks, []⟩ lost_chunk fan s ∧
      run (prompt (both answer answer)) (fan_miss.finish fan) cs s = some (.ok result, s') ∧
      Committed s.through.secondary s'.through.secondary ∧
      Bodies small_cache small_cache small_hash [1, 2, 3] [3] s'.through) ∧
    ¬ NeverDamaged small_cache small_cache small_hash small_fan lost_chunk small_disks := by
  obtain ⟨fan, s, cs, result, s', hwrites, hrun, hcommitted, hfirst, hsecond⟩ :=
    a_pooled_finish_commits small_fan_filled lost_chunk
  refine ⟨small_fan_filled,
    ⟨fan, s, cs, result, s', hwrites, hrun, hcommitted, hfirst, hsecond⟩, fun hall => ?_⟩
  obtain ⟨d, hd, hd'⟩ := hall fan s cs result s' hwrites hrun hcommitted
  rw [hfirst] at hd
  rw [hsecond, ← hd] at hd'
  exact absurd hd' (by decide)

end edge_cdn_store.secondary_copies
