-- The body of a miss under the file semantics of tokio. `write_all` returns while
-- the write may still run on a pool of threads, and only a later operation on the
-- same open file waits for it. `write_body` opens the file anew for each chunk.
import EdgeCdnStore.FinishFaults
import EdgeCdnStore.Courses
import EdgeCdnStore.WritePools

open edge_cdn_store.programs edge_cdn_store.programs.Program edge_cdn_store.io
open edge_cdn_store.file_tree edge_cdn_store.file_tree.FileTree
open edge_cdn_store.logger edge_cdn_store.disk_cache edge_cdn_store.operations
open edge_cdn_store.tiered edge_cdn_store.size_gauge edge_cdn_store.finish_faults
open edge_cdn_store.write_pools edge_cdn_store.courses

namespace edge_cdn_store.pending_writes

/-! ## The pool -/

instance : Appends World Nat UInt8 := ⟨World.append⟩

theorem append_eq (w : World) (f : Nat) (d : Bytes) : Appends.append w f d = w.append f d := rfl

instance : LawfulAppends World Nat UInt8 where
  append_nil w f := by
    simp only [append_eq, World.append, World.setTree, FileTree.setData, List.append_nil,
      Function.update_eq_self]
  append_append w f d d' := by
    simp only [append_eq, World.append, World.setTree, FileTree.setData, Function.update_self,
      Function.update_idem, List.append_assoc]

/-- The world, and the writes that are on the pool, in the order of the calls. -/
abbrev PoolWorld := WritePool World Nat UInt8 IoError

/-- What stops a write that a call waits for, and how far it came. -/
def stopped (c : Choice) : Option (IoError × Nat) :=
  c.fault.map fun x => (x.error, x.reached.getD 0)

/-- The operating system with the pool. `write_all` and `flush` are on an open file, so they
wait for the write on it. The other calls do not know the pool. -/
def pooled : Environment Io Io.Reply (PoolChoice Choice IoError) PoolWorld := fun e c s =>
  let s := c.events.foldl WritePool.event s
  match e with
  | .write_all f d =>
    match s.settle f (stopped c.choice) with
    | (.error e, s) => (.error e, s)
    | (.ok (), s) => (.ok (), s.push f d)
  | .flush f => s.settle f (stopped c.choice)
  | e => ((answer e c.choice s.world).1, { s with world := (answer e c.choice s.world).2 })

/-- The calls on an open file of a session `ι` wait for the write that is on the pool for it.
`write_all` hands its bytes over, where it does not fail at once. -/
def file_writes (ι : Type) :
    Waiting (ι × Io) (fun e => e.2.Reply) Choice (ι × Nat) UInt8 IoError where
  waits
    | (i, .write_all f _) => some ((i, f), .error)
    | (i, .flush f) => some ((i, f), .error)
    | _ => none
  writes
    | (_, .write_all _ d) => some d
    | _ => none
  accepted
    | (_, .write_all _ _), .ok _ => true
    | _, _ => false
  fault := stopped

/-- A whole miss: the chunks, the last of them as the end of the body, and the finish. -/
def fill (m : DiskMissHandler) (chunks : List Bytes) : Prog (Result MissFinishType) := do
  match ← write_chunks m chunks with
  | (.error e, m) =>
    m.drop
    return .error e
  | (.ok (), m) => m.finish

/-! ## Two kinds of pools -/

/-- What an orderly pool does before a call: it works on the oldest write, and it is through
with all of them when a call comes that is no more writing. -/
def PoolWorld.orderly (s : PoolWorld) (e : Io) (progress : List Nat) : List (PoolEvent IoError) :=
  let events := progress.map (PoolEvent.run 0)
  match e with
  | .open_append _ => events
  | .write_all _ _ => events
  | _ => events ++ (events.foldl WritePool.event s).drain

/-- The operating system with an orderly pool. -/
def orderly : Environment Io Io.Reply (List Nat × Choice) PoolWorld := fun e c s =>
  pooled e ⟨s.orderly e c.1, c.2⟩ s

/-- The operating system with a pool where every write fails at once. -/
def failing : Environment Io Io.Reply Choice PoolWorld := fun e c s =>
  pooled e ⟨(List.range s.pending.length).map fun i => .fail i ioFault, c⟩ s

/-! ## What the pool does to the world -/

variable {cache : DiskCache} {hash : CombinedHash} {p : PathBuf} {i : Nat} {s : PoolWorld}
  {d : Bytes}

/-- The open files with writes on the pool are all on file `i`, which stands at the path of a
temporary file. -/
structure AtWork (cache : DiskCache) (p : PathBuf) (i : Nat) (s : PoolWorld) : Prop where
  laid : cache.Laid s.world.tree
  at_tmp : s.world.tree.node p = some (.file i)
  handles : ∀ x ∈ s.pending, x.handle < s.world.opened ∧ (s.world.files x.handle).ino = i

/-- The temporary file and the writes on the pool make up `d`, and no write failed. -/
structure Filling (cache : DiskCache) (p : PathBuf) (i : Nat) (d : Bytes) (s : PoolWorld) :
    Prop where
  at_work : AtWork cache p i s
  unfailed : ∀ x ∈ s.pending, x.failed = none
  content : s.world.tree.data i ++ (s.pending.map PendingWrite.rest).flatten = d

/-- The pool changes contents only, and gives no open file a write that had none. -/
theorem event_frame (s : PoolWorld) (e : PoolEvent IoError) :
    (s.event e).world.files = s.world.files ∧ (s.event e).world.opened = s.world.opened ∧
    (s.event e).world.tree.node = s.world.tree.node ∧
    ∀ x ∈ (s.event e).pending, ∃ y ∈ s.pending, y.handle = x.handle := by
  have hself : ∀ x ∈ s.pending, ∃ y ∈ s.pending, y.handle = x.handle := fun x hx => ⟨x, hx, rfl⟩
  have hset : ∀ i y (z : PendingWrite Nat UInt8 IoError), s.pending[i]? = some y → y.handle = z.handle →
      ∀ x ∈ s.pending.set i z, ∃ y ∈ s.pending, y.handle = x.handle := by
    intro i y z hy he x hx
    rcases List.mem_or_eq_of_mem_set hx with hx | rfl
    · exact hself x hx
    · exact ⟨y, List.mem_of_getElem? hy, he⟩
  cases e with
  | run i n =>
    simp only [WritePool.event]
    split
    · rename_i f rest hi
      refine ⟨rfl, rfl, rfl, ?_⟩
      by_cases hn : rest.length ≤ n
      · simp only [if_pos hn]
        exact fun x hx => hself x (List.mem_of_mem_eraseIdx hx)
      · simp only [if_neg hn]
        exact hset i _ _ hi rfl
    · exact ⟨rfl, rfl, rfl, hself⟩
  | fail i e =>
    simp only [WritePool.event]
    split
    · rename_i f rest hi
      exact ⟨rfl, rfl, rfl, hset i _ _ hi rfl⟩
    · exact ⟨rfl, rfl, rfl, hself⟩

theorem AtWork.event (h : AtWork cache p i s) (e : PoolEvent IoError) : AtWork cache p i (s.event e) := by
  obtain ⟨hfiles, hopened, hnode, hhandles⟩ := event_frame s e
  refine ⟨h.laid.of_nodes fun q n hq => Or.inl (by rwa [hnode] at hq), by rw [hnode]; exact h.at_tmp,
    fun x hx => ?_⟩
  obtain ⟨y, hy, he⟩ := hhandles x hx
  rw [hfiles, hopened, ← he]
  exact h.handles y hy

theorem AtWork.events (h : AtWork cache p i s) (l : List (PoolEvent IoError)) :
    AtWork cache p i (l.foldl WritePool.event s) := by
  induction l generalizing s with
  | nil => exact h
  | cons e l ih => exact ih (h.event e)

/-- A step of the pool on the oldest write. -/
theorem Filling.run_oldest (h : Filling cache p i d s) (n : Nat) :
    Filling cache p i d (s.event (.run 0 n)) := by
  obtain ⟨w, pending⟩ := s
  cases pending with
  | nil => exact h
  | cons x xs =>
    obtain ⟨f, rest, failed⟩ := x
    obtain rfl : failed = none := h.unfailed _ List.mem_cons_self
    have hino : (w.files f).ino = i := (h.at_work.handles _ List.mem_cons_self).2
    have hdata : (w.append f (rest.take n)).tree.data i = w.tree.data i ++ rest.take n := by
      simp only [World.append, World.setTree, hino, data_setData_self]
    have hcontent := h.content
    simp only [List.map_cons, List.flatten_cons] at hcontent
    refine ⟨h.at_work.event _, ?_, ?_⟩ <;> unfold WritePool.event <;>
      simp only [List.getElem?_cons_zero, List.eraseIdx_zero, List.tail_cons, List.set_cons_zero]
    · intro x hx
      split at hx
      · exact h.unfailed x (List.mem_cons_of_mem _ hx)
      · rcases List.mem_cons.mp hx with rfl | hx
        · rfl
        · exact h.unfailed x (List.mem_cons_of_mem _ hx)
    · by_cases hn : rest.length ≤ n
      · rw [List.take_of_length_le hn] at hdata ⊢
        simp only [if_pos hn, append_eq, hdata]
        rw [List.append_assoc, hcontent]
      · simp only [if_neg hn, append_eq, hdata, List.map_cons, List.flatten_cons]
        rw [List.append_assoc, ← List.append_assoc (rest.take n), List.take_append_drop, hcontent]

theorem Filling.progress (h : Filling cache p i d s) (l : List Nat) :
    Filling cache p i d ((l.map (PoolEvent.run 0)).foldl WritePool.event s) := by
  induction l generalizing s with
  | nil => exact h
  | cons n l ih => exact ih (h.run_oldest n)

/-- A pool that carries out everything is empty. -/
theorem Filling.drained (h : Filling cache p i d s) :
    Filling cache p i d (s.drain.foldl WritePool.event s) ∧
      (s.drain.foldl WritePool.event s).pending = [] := by
  obtain ⟨w, pending⟩ := s
  induction pending generalizing w with
  | nil => exact ⟨h, rfl⟩
  | cons x xs ih =>
    obtain ⟨f, rest, failed⟩ := x
    obtain rfl : failed = none := h.unfailed _ List.mem_cons_self
    have hone : WritePool.event ⟨w, ⟨f, rest, none⟩ :: xs⟩ (.run 0 rest.length) =
        ⟨w.append f rest, xs⟩ := by
      simp [WritePool.event, append_eq]
    have h' := h.run_oldest rest.length
    rw [hone] at h'
    simp only [WritePool.drain, List.map_cons, List.foldl_cons, hone]
    exact ih _ h'

/-! ## The chunks, on any pool -/

/-- What a pool makes of the calls of `write_body`: from a state with `d` handed over, the
file is opened, the write of a chunk from `P` hands it over too, and the flush changes
nothing of that. An error is possible when `E` is. -/
structure PoolRules {C : Type} (env : Environment Io Io.Reply C PoolWorld) (ok : C → Prop)
    (p : PathBuf) (P : Bytes → Prop) (E : Prop) (Inv : Bytes → PoolWorld → Prop)
    (Open : Bytes → Nat → PoolWorld → Prop) : Prop where
  open_append : ∀ d s c, ok c → Inv d s →
    ((∃ e, (env (.open_append p) c s).1 = .error e) ∧ E) ∨
    ∃ f, (env (.open_append p) c s).1 = .ok f ∧ Open d f (env (.open_append p) c s).2
  write_all : ∀ d f s c b, ok c → P b → Open d f s →
    ((∃ e, (env (.write_all f b) c s).1 = .error e) ∧ E) ∨
    (env (.write_all f b) c s).1 = .ok () ∧ Inv (d ++ b) (env (.write_all f b) c s).2
  flush : ∀ d f s c, ok c → Inv d s → Inv d (env (.flush f) c s).2

section
variable {C : Type} {env : Environment Io Io.Reply C PoolWorld} {ok : C → Prop}
  {P : Bytes → Prop} {E : Prop} {Inv : Bytes → PoolWorld → Prop}
  {Open : Bytes → Nat → PoolWorld → Prop}

/-- A chunk is handed over, and counted. -/
theorem PoolRules.write_body {Q : Result Unit × DiskMissHandler → PoolWorld → Prop}
    {m : DiskMissHandler} {b : Bytes} (hr : PoolRules env ok p P E Inv Open)
    (hm : m.tmp_path = p) (hb : P b) (hs : Inv d s) (is_eof : Bool)
    (herr : ∀ e m' s', E → Q (.error e, m') s')
    (hok : ∀ s', Inv (d ++ b) s' →
      Q (.ok (), { m with tmp_bytes_written := m.tmp_bytes_written + b.length }) s') :
    wp env ok (m.write_body b is_eof) Q s := by
  subst hm
  unfold DiskMissHandler.write_body
  simp only [trace_fn_exit_with_err, e_explain, wp_bind]
  refine (wp_perform (Io.open_append _) _ _).mpr fun c hc => ?_
  rcases hr.open_append d s c hc hs with ⟨⟨e, he⟩, hE⟩ | ⟨f, hf, ho⟩
  · simp only [he, wp_pure]
    exact herr _ _ _ hE
  · simp only [hf, wp_bind]
    refine (wp_perform (Io.write_all _ _) _ _).mpr fun c' hc' => ?_
    rcases hr.write_all d f _ c' b hc' hb ho with ⟨⟨e, he⟩, hE⟩ | ⟨hw, hi⟩
    · simp only [he, wp_pure]
      exact herr _ _ _ hE
    · simp only [hw]
      cases is_eof with
      | false => exact hok _ hi
      | true => exact fun c'' hc'' => hok _ (hr.flush _ f _ c'' hc'' hi)

/-- All chunks are handed over, and counted. -/
theorem PoolRules.write_chunks {Q : Result Unit × DiskMissHandler → PoolWorld → Prop}
    {m : DiskMissHandler} {chunks : List Bytes} (hr : PoolRules env ok p P E Inv Open)
    (hm : m.tmp_path = p) (hP : ∀ b ∈ chunks, P b) (hs : Inv d s)
    (herr : ∀ e m' s', E → Q (.error e, m') s')
    (hok : ∀ s', Inv (d ++ chunks.flatten) s' →
      Q (.ok (), { m with tmp_bytes_written := m.tmp_bytes_written + chunks.flatten.length }) s') :
    wp env ok (write_chunks m chunks) Q s := by
  induction chunks generalizing m d s with
  | nil => exact hok s (by simpa using hs)
  | cons b rest ih =>
    simp only [write_chunks_cons, wp_bind]
    refine hr.write_body hm (hP b List.mem_cons_self) hs _ (fun e m' s' hE => ?_) fun s' hs' => ?_
    · exact herr e m' s' hE
    · refine ih hm (fun b hb => hP b (List.mem_cons_of_mem _ hb)) hs' fun s2 hs2 => ?_
      rw [List.append_assoc] at hs2
      have := hok s2 hs2
      rwa [List.flatten_cons, List.length_append, ← Nat.add_assoc] at this

end

/-! ## The three pools -/

theorem AtWork.openIno (h : AtWork cache p i s) (j : Nat) :
    AtWork cache p i { s with world := s.world.openIno j } := by
  refine ⟨h.laid, h.at_tmp, fun x hx => ?_⟩
  obtain ⟨hlt, hino⟩ := h.handles x hx
  refine ⟨Nat.lt_succ_of_lt hlt, ?_⟩
  simp only [World.openIno, Function.update_of_ne (Nat.ne_of_lt hlt)]
  exact hino

/-- The file is open once more, by a handle that has nothing on the pool. -/
structure Opened (p : PathBuf) (i f : Nat) (s : PoolWorld) : Prop where
  file : (s.world.files f).ino = i
  lt : f < s.world.opened
  unused : ∀ x ∈ s.pending, x.handle ≠ f

theorem Opened.settle {f : Nat} (h : Opened p i f s) (fault : Option (IoError × Nat)) :
    s.settle f fault = (.ok (), s) := by
  have hnone : s.pending.find? (·.handle = f) = none := by
    rw [List.find?_eq_none]
    intro x hx
    simpa using h.unused x hx
  simp only [WritePool.settle, hnone]

/-- The open of the temporary file. -/
theorem AtWork.open_append (h : AtWork cache p i s) (c : Choice) :
    (∃ f, c.fault = some f ∧ answer (.open_append p) c s.world = (.error f.error, s.world)) ∨
    (c.fault = none ∧
      answer (.open_append p) c s.world = (.ok s.world.opened, s.world.openIno i) ∧
      Opened p i s.world.opened { s with world := s.world.openIno i }) := by
  unfold answer
  simp only [Choice.guard, h.at_tmp]
  cases hc : c.fault with
  | some f => exact Or.inl ⟨f, rfl, rfl⟩
  | none =>
    refine Or.inr ⟨rfl, rfl, ?_, Nat.lt_succ_self _, fun x hx => ?_⟩
    · simp [World.openIno]
    · exact Nat.ne_of_lt (h.handles x hx).1

theorem AtWork.push {f : Nat} (h : AtWork cache p i s) (ho : Opened p i f s) (b : Bytes) :
    AtWork cache p i (s.push f b) := by
  unfold WritePool.push
  split
  · exact h
  · refine ⟨h.laid, h.at_tmp, fun x hx => ?_⟩
    rcases List.mem_append.mp hx with hx | hx
    · exact h.handles x hx
    · obtain rfl := List.mem_singleton.mp hx
      exact ⟨ho.lt, ho.file⟩

theorem Filling.push {f : Nat} (h : Filling cache p i d s) (ho : Opened p i f s) (b : Bytes) :
    Filling cache p i (d ++ b) (s.push f b) := by
  refine ⟨h.at_work.push ho b, ?_, ?_⟩
  · intro x hx
    unfold WritePool.push at hx
    split at hx
    · exact h.unfailed x hx
    · rcases List.mem_append.mp hx with hx | hx
      · exact h.unfailed x hx
      · rw [List.mem_singleton.mp hx]
  · unfold WritePool.push
    split
    · rename_i hb
      rw [List.isEmpty_iff.mp hb, List.append_nil]
      exact h.content
    · simp only [List.map_append, List.flatten_append, List.map_cons, List.map_nil,
        List.flatten_cons, List.flatten_nil, List.append_nil]
      rw [← List.append_assoc, h.content]

theorem Opened.events {f : Nat} (h : Opened p i f s) (l : List (PoolEvent IoError)) :
    Opened p i f (l.foldl WritePool.event s) := by
  induction l generalizing s with
  | nil => exact h
  | cons e l ih =>
    obtain ⟨hfiles, hopened, _, hhandles⟩ := event_frame s e
    refine ih ⟨by rw [hfiles]; exact h.file, by rw [hopened]; exact h.lt, fun x hx => ?_⟩
    obtain ⟨y, hy, he⟩ := hhandles x hx
    rw [← he]
    exact h.unused y hy

theorem Filling.openIno (h : Filling cache p i d s) (j : Nat) :
    Filling cache p i d { s with world := s.world.openIno j } :=
  ⟨h.at_work.openIno j, h.unfailed, h.content⟩

/-- On an orderly pool the file and the pool together hold all that was handed over. -/
theorem orderly_rules (cache : DiskCache) (p : PathBuf) (i : Nat) :
    PoolRules orderly (fun _ => True) p (fun _ => True) True (Filling cache p i)
      (fun d f s => Filling cache p i d s ∧ Opened p i f s) where
  open_append d s c _ hs := by
    have hs1 := hs.progress c.1
    unfold orderly pooled PoolWorld.orderly
    rcases hs1.at_work.open_append c.2 with ⟨f, _, ha⟩ | ⟨_, ha, ho⟩
    · exact Or.inl ⟨⟨_, congrArg Prod.fst ha⟩, trivial⟩
    · refine Or.inr ⟨_, congrArg Prod.fst ha, ?_⟩
      simp only [ha]
      exact ⟨hs1.openIno i, ho⟩
  write_all d f s c b _ _ hs := by
    obtain ⟨hs, ho⟩ := hs
    have ho1 := ho.events (c.1.map (PoolEvent.run 0))
    unfold orderly pooled PoolWorld.orderly
    simp only [ho1.settle (stopped c.2)]
    exact Or.inr ⟨trivial, (hs.progress c.1).push ho1 b⟩
  flush d f s c _ hs := by
    obtain ⟨hs1, hnil⟩ := (hs.progress c.1).drained
    unfold orderly pooled PoolWorld.orderly
    simp only [List.foldl_append, WritePool.settle, hnil, List.find?_nil]
    exact hs1

/-- On any pool, chunks without bytes leave the file empty. -/
theorem empty_rules (cache : DiskCache) (p : PathBuf) (i : Nat) :
    PoolRules pooled (fun _ => True) p (· = []) True
      (fun _ s => Filling cache p i [] s ∧ s.pending = [])
      (fun _ f s => Filling cache p i [] s ∧ s.pending = [] ∧ Opened p i f s) where
  open_append d s c _ hs := by
    unfold pooled
    simp only [events_of_empty hs.2]
    rcases hs.1.at_work.open_append c.choice with ⟨f, _, ha⟩ | ⟨_, ha, ho⟩
    · exact Or.inl ⟨⟨_, congrArg Prod.fst ha⟩, trivial⟩
    · refine Or.inr ⟨_, congrArg Prod.fst ha, ?_⟩
      simp only [ha]
      exact ⟨hs.1.openIno i, hs.2, ho⟩
  write_all d f s c b _ hb hs := by
    obtain ⟨hs, hnil, ho⟩ := hs
    unfold pooled
    simp only [events_of_empty hnil, ho.settle (stopped c.choice), hb, WritePool.push, List.isEmpty_nil, if_pos]
    exact Or.inr ⟨trivial, hs, hnil⟩
  flush d f s c _ hs := by
    unfold pooled
    simp only [events_of_empty hs.2, WritePool.settle, hs.2, List.find?_nil]
    exact ⟨hs.1, trivial⟩

theorem fail_up_to (s : PoolWorld) (e : IoError) (n : Nat) :
    let s' := ((List.range n).map fun i => PoolEvent.fail i e).foldl WritePool.event s
    s'.world = s.world ∧ s'.pending.length = s.pending.length ∧
      ∀ j < n, ∀ x, s'.pending[j]? = some x → x.failed ≠ none := by
  induction n with
  | zero => exact ⟨rfl, rfl, fun _ h => absurd h (Nat.not_lt_zero _)⟩
  | succ n ih =>
    rw [List.range_succ, List.map_append, List.foldl_append]
    generalize ((List.range n).map fun i => PoolEvent.fail i e).foldl WritePool.event s = s1 at ih
    obtain ⟨hw, hlen, hfail⟩ := ih
    simp only [List.map_cons, List.map_nil, List.foldl_cons, List.foldl_nil]
    unfold WritePool.event
    simp only
    split
    · rename_i f rest hn
      refine ⟨hw, by rw [List.length_set, hlen], fun j hj x hx => ?_⟩
      by_cases hjn : n = j
      · subst hjn
        rw [List.getElem?_set_self' , hn] at hx
        cases hx
        exact Option.some_ne_none _
      · rw [List.getElem?_set_ne hjn] at hx
        exact hfail j (by omega) x hx
    · rename_i hno
      refine ⟨hw, hlen, fun j hj x hx => ?_⟩
      by_cases hjn : n = j
      · subst hjn
        obtain ⟨f, rest, failed⟩ := x
        rintro rfl
        exact hno _ _ hx
      · exact hfail j (by omega) x hx

theorem fail_all (s : PoolWorld) (e : IoError) :
    let s' := ((List.range s.pending.length).map fun i => PoolEvent.fail i e).foldl WritePool.event s
    s'.world = s.world ∧ ∀ x ∈ s'.pending, x.failed ≠ none := by
  obtain ⟨hw, hlen, hfail⟩ := fail_up_to s e s.pending.length
  refine ⟨hw, fun x hx => ?_⟩
  obtain ⟨j, hj, hx⟩ := List.mem_iff_getElem.mp hx
  exact hfail j (by omega) x (List.getElem?_eq_some_iff.mpr ⟨hj, hx⟩)

/-- On a failing pool the calls of `write_body` succeed, and the file stays empty. -/
theorem failing_rules (cache : DiskCache) (p : PathBuf) (i : Nat) :
    PoolRules failing Calm p (fun _ => True) False
      (fun _ s => AtWork cache p i s ∧ s.world.tree.data i = [])
      (fun _ f s => AtWork cache p i s ∧ s.world.tree.data i = [] ∧ Opened p i f s) where
  open_append d s c hc hs := by
    have hw := (fail_all s ioFault).1
    have hs1 := hs.1.events ((List.range s.pending.length).map fun i => .fail i ioFault)
    unfold failing pooled
    rcases hs1.open_append c with ⟨f, hf, _⟩ | ⟨_, ha, ho⟩
    · rw [show c.fault = none from hc] at hf
      cases hf
    · refine Or.inr ⟨_, congrArg Prod.fst ha, ?_⟩
      simp only [ha]
      refine ⟨hs1.openIno i, ?_, ho⟩
      simp only [World.openIno, hw]
      exact hs.2
  write_all d f s c b _ _ hs := by
    obtain ⟨hs, hdata, ho⟩ := hs
    have hw := (fail_all s ioFault).1
    have hs1 := hs.events ((List.range s.pending.length).map fun i => .fail i ioFault)
    have ho1 := ho.events ((List.range s.pending.length).map fun i => .fail i ioFault)
    unfold failing pooled
    simp only [ho1.settle (stopped c)]
    refine Or.inr ⟨trivial, hs1.push ho1 b, ?_⟩
    unfold WritePool.push
    split <;> simp only [hw, hdata]
  flush d f s c _ hs := by
    obtain ⟨hw, hfail⟩ := fail_all s ioFault
    have hs1 := hs.1.events ((List.range s.pending.length).map fun i => .fail i ioFault)
    unfold failing pooled WritePool.settle
    simp only
    split
    · exact ⟨hs1, by simp only [hw]; exact hs.2⟩
    · refine ⟨⟨hs1.laid, hs1.at_tmp, fun x hx => hs1.handles x (List.mem_of_mem_filter hx)⟩, ?_⟩
      simp only [WritePool.forget, hw]
      exact hs.2
    · rename_i f' rest hfind
      exact absurd rfl (hfail _ (List.mem_of_find?_eq_some hfind))

/-! ## The finish, whatever fails -/

section
variable {w : World} {C : Contents} {f : Files} {g : Int} {n : List Char} {src dst j k : Nat}
  {m : DiskMissHandler}

/-- A copy that returns has moved all of the file. -/
theorem copy_loop_any {Q : Except IoError Unit → World → Prop} (n : Nat)
    (h : Copying cache hash C f g src dst i j d k w) (herr : ∀ e w', Q (.error e) w')
    (hok : ∀ w', Stands cache hash C { f with body := some d } g w' → Q (.ok ()) w') :
    wp answer (fun _ => True) (copy_loop src dst n) Q w := by
  induction n generalizing k w with
  | zero =>
    intro c _
    simp only [answer]
    split
    · exact hok _ h.transfer_rest
    · exact herr _ _
    · exact herr _ _
  | succ n ih =>
    simp only [copy_loop, wp_bind]
    refine (wp_perform (Io.copy_some _ _) _ _).mpr fun c _ => ?_
    rcases hc : c.fault with _ | ⟨e, _ | n⟩ <;> simp only [answer, hc]
    · exact ih (h.transfer _)
    · exact herr _ _
    · exact herr _ _

/-- The body of the key is `d`. -/
structure HasBody (cache : DiskCache) (hash : CombinedHash) (d : Bytes) (w : World) : Prop where
  laid : cache.Laid w.tree
  body : w.tree.content (cache.entry hash "body".toList) = some d

theorem write_any {Q : Except IoError Unit → World → Prop} {b : Bytes}
    (hn : n ≠ "body".toList) (h : HasBody cache hash d w)
    (hQ : ∀ r w', HasBody cache hash d w' → Q r w') :
    wp answer (fun _ => True) (fs.write (cache.entry hash n) b) Q w := by
  have hput : ∀ b', w.tree.CanCreate (cache.entry hash n) →
      HasBody cache hash d (w.setTree (w.tree.put (cache.entry hash n) b')) := by
    intro b' hcan
    refine ⟨h.laid.put hcan DiskCache.entry_not_mem_dirs b', ?_⟩
    refine (content_put hcan b' _).trans ?_
    rw [if_neg, h.body]
    exact DiskCache.entry_ne hn.symm
  intro c _
  simp only [answer]
  split
  · split
    · exact hQ _ _ (hput _ ‹_›)
    · exact hQ _ _ h
  · exact hQ _ _ h
  · split
    · exact hQ _ _ (hput _ ‹_›)
    · exact hQ _ _ h

theorem remove_tmp_any {Q : Except IoError Unit → World → Prop} (hn : IsTmp n)
    (h : HasBody cache hash d w) (hQ : ∀ r w', HasBody cache hash d w' → Q r w') :
    wp answer (fun _ => True) (fs.remove_file (cache.entry hash n)) Q w := by
  refine remove_tmp_stands hn (stands_of h.laid hash) fun r w' s => ?_
  exact hQ r w' ⟨s.laid, s.body.trans h.body⟩

/-- A transfer that returns has made the temporary file the body. -/
theorem transfer_any {Q : Result Unit → World → Prop} (hn : IsTmp n)
    (ht : m.tmp_path = cache.entry hash n) (hb : m.body_path = cache.entry hash "body".toList)
    (s : Stands cache hash C f g w) (hi : w.tree.node (cache.entry hash n) = some (.file i))
    (herr : ∀ e w', Q (.error e) w')
    (hok : ∀ w', HasBody cache hash (w.tree.data i) w' → Q (.ok ()) w') :
    wp answer (fun _ => True) m.transfer Q w := by
  simp only [DiskMissHandler.transfer, wp_bind, ht, hb, trace_fn_exit_with_err, e_explain]
  refine (wp_perform (Io.open_file _) _ _).mpr fun c _ => ?_
  cases hc : c.fault with
  | some x =>
    simp only [answer, Choice.guard, hc]
    exact herr _ _
  | none =>
    simp only [answer, Choice.guard, hc, hi, wp_bind]
    refine (wp_perform (Io.create_file _) _ _).mpr fun c _ => ?_
    have hcan := s.canCreate hi "body".toList
    obtain ⟨j, hj, _⟩ := node_create_self hcan
    have hopen : (w.openIno i).tree = w.tree := rfl
    cases hc : c.fault with
    | some x =>
      simp only [answer, Choice.guard, hc]
      exact herr _ _
    | none =>
      simp only [answer, Choice.guard, hc, hopen, hcan, if_pos, hj, wp_bind, copy]
      refine (wp_perform Io.copy_rounds _ _).mpr fun c _ => ?_
      refine copy_loop_any _ (s.start_copy hn hi hj) (fun e w' => herr _ _) fun w' s' => ?_
      simp only [wp_bind]
      exact remove_tmp_any hn ⟨s'.laid, s'.body⟩ fun _ w2 h2 => hok w2 h2

/-- The rename, and the transfer where it fails. -/
theorem promote_any {Q : Result Unit → World → Prop} (hm : m.Of cache hash)
    (s : Stands cache hash C f g w) (hd : w.tree.content m.tmp_path = some d)
    (herr : ∀ e w', Q (.error e) w') (hok : ∀ w', HasBody cache hash d w' → Q (.ok ()) w') :
    wp answer (fun _ => True) m.promote Q w := by
  obtain ⟨n, hn, ht⟩ := hm.tmp_path
  rw [ht] at hd
  obtain ⟨i, hi⟩ := content_isSome.mp (by rw [hd]; rfl :
    (w.tree.content (cache.entry hash n)).isSome)
  rw [content_of_file hi, Option.some.injEq] at hd
  subst hd
  simp only [DiskMissHandler.promote, wp_bind, ht, hm.body_path]
  refine (wp_perform (Io.rename _ _) _ _).mpr fun c _ => ?_
  cases hc : c.fault with
  | some x =>
    simp only [answer, Choice.guard, hc]
    exact transfer_any hn ht hm.body_path s hi herr hok
  | none =>
    have s' := s.move_tmp hn hi
    simp only [answer, Choice.guard, hc, hi, s.canMove hn hi, if_pos]
    exact hok _ ⟨s'.laid, s'.body⟩

/-- A finish that returns has made the temporary file the body. -/
theorem finish_any (hm : m.Of cache hash) (hw : cache.Laid w.tree)
    (hd : w.tree.content m.tmp_path = some d) :
    wp answer (fun _ => True) m.finish (fun r w' => ∀ result, r = .ok result →
      w'.tree.content (cache.body hash) = some d ∧ result = .Created m.tmp_bytes_written) w := by
  obtain ⟨n, hn, ht⟩ := hm.tmp_path
  -- the metadata and the drop leave the body alone
  have hend : ∀ {w2}, HasBody cache hash d w2 → wp answer (fun _ => True) m.write_meta_parts
      (fun r w3 => wp answer (fun _ => True) (fs.remove_file m.tmp_path)
        (fun _ w4 => ∀ result, r = .ok result →
          w4.tree.content (cache.body hash) = some d ∧ result = .Created m.tmp_bytes_written) w3)
      w2 := by
    intro w2 h2
    simp only [DiskMissHandler.write_meta_parts, wp_bind, hm.meta_path, hm.hdr_path,
      trace_fn_exit_with_err, e_explain]
    refine write_any (by decide) h2 fun r w3 h3 => ?_
    cases r with
    | error e => exact fun c _ k hk => by cases hk
    | ok _ =>
      simp only [wp_bind]
      refine write_any (by decide) h3 fun r w4 h4 => ?_
      cases r with
      | error e => exact fun c _ k hk => by cases hk
      | ok _ =>
        simp only [wp_bind, wp_pure, ht]
        intro c _ c' _
        refine remove_tmp_any hn ⟨h4.laid, h4.body⟩ fun _ w5 h5 k hk => ?_
        cases hk
        exact ⟨h5.body, rfl⟩
  simp only [DiskMissHandler.finish, wp_bind, hm.dir]
  refine create_dir_all_any (stands_of hw hash) fun _ w1 s1 hc1 => ?_
  refine promote_any hm s1 ((hc1 _).trans hd) (fun e w2 c _ k hk => by cases hk) fun w2 h2 => ?_
  simp only [DiskMissHandler.drop, wp_bind, wp_pure]
  exact hend h2

theorem finish_created (hm : m.Of cache hash) (hw : cache.Laid w.tree)
    (hd : w.tree.content m.tmp_path = some d) :
    wp answer (fun _ => True) m.finish (fun r w' => ∀ k, r = .ok (.Created k) →
      w'.tree.content (cache.body hash) = some d ∧ k = m.tmp_bytes_written) w := by
  refine wp_mono (finish_any hm hw hd) fun r w' h k hk => ?_
  obtain ⟨hbody, hcreated⟩ := h _ hk
  exact ⟨hbody, MissFinishType.Created.inj hcreated⟩

end

/-! ## The finish, on the three pools -/

/-- A call that is no part of writing a body. -/
def Elsewhere : Io → Prop
  | .open_append _ => False
  | .write_all _ _ => False
  | .flush _ => False
  | _ => True

theorem pooled_elsewhere {e : Io} (he : Elsewhere e) (c : PoolChoice Choice IoError) (s : PoolWorld) :
    pooled e c s = ((answer e c.choice (c.events.foldl WritePool.event s).world).1,
      { c.events.foldl WritePool.event s with
        world := (answer e c.choice (c.events.foldl WritePool.event s).world).2 }) := by
  cases e <;> first | rfl | exact absurd he id

theorem orderly_elsewhere {e : Io} (he : Elsewhere e) (s : PoolWorld) (l : List Nat) :
    s.orderly e l = l.map (PoolEvent.run 0) ++
      ((l.map (PoolEvent.run 0)).foldl WritePool.event s).drain := by
  cases e <;> first | rfl | exact absurd he id

theorem finish_elsewhere (m : DiskMissHandler) : m.finish.Calls Elsewhere := by
  apply calls_of_finish m
  intro x e ha
  unfold Finishing.allows at ha
  cases x <;> simp_all [Elsewhere]
  rcases ha with rfl | rfl <;> trivial

section
variable {m : DiskMissHandler} {w : World}

/-- With nothing on the pool, a program that writes no body runs as it does without one. -/
theorem wp_pooled_of_answer {α : Type} {p : Prog α} {Q : α → World → Prop}
    (hp : p.Calls Elsewhere) (h : wp answer (fun _ => True) p Q w) :
    wp pooled (fun _ => True) p (fun r s => Q r s.world) ⟨w, []⟩ := by
  refine wp_mono (wp_of_simulation (T := fun s w => s = ⟨w, []⟩) ?_ hp rfl h) ?_
  · rintro e c s w he _ rfl
    refine ⟨c.choice, trivial, ?_⟩
    rw [pooled_elsewhere he, events_of_empty rfl]
    exact ⟨rfl, rfl⟩
  · rintro r s ⟨w, rfl, hq⟩
    exact hq

theorem wp_orderly_of_answer {α : Type} {p : Prog α} {Q : α → World → Prop}
    (hp : p.Calls Elsewhere) (h : wp answer (fun _ => True) p Q w) :
    wp orderly (fun _ => True) p (fun r s => Q r s.world) ⟨w, []⟩ := by
  refine wp_mono (wp_of_simulation (T := fun s w => s = ⟨w, []⟩) ?_ hp rfl h) ?_
  · rintro e c s w he _ rfl
    refine ⟨c.2, trivial, ?_⟩
    unfold orderly
    rw [pooled_elsewhere he, events_of_empty rfl]
    exact ⟨rfl, rfl⟩
  · rintro r s ⟨w, rfl, hq⟩
    exact hq

/-- Before its first call a finish waits until an orderly pool is through. -/
theorem orderly_finish (hm : m.Of cache hash) (hs : Filling cache m.tmp_path i d s) :
    wp orderly (fun _ => True) m.finish (fun r s' => ∀ k, r = .ok (.Created k) →
      s'.world.tree.content (cache.body hash) = some d ∧ k = m.tmp_bytes_written) s := by
  obtain ⟨e, k, hk⟩ : ∃ e k, m.finish = .call e k := ⟨_, _, rfl⟩
  have hcalls := finish_elsewhere m
  rw [hk] at hcalls ⊢
  intro c _
  obtain ⟨hdone, hnil⟩ := (hs.progress c.1).drained
  rw [← List.foldl_append, ← orderly_elsewhere hcalls.1] at hdone hnil
  have hcontent := hdone.content
  rw [hnil] at hcontent
  have hfin := finish_created (d := d) hm hdone.at_work.laid (by
    rw [content_of_file hdone.at_work.at_tmp]
    simpa using hcontent)
  rw [hk] at hfin
  unfold orderly
  rw [pooled_elsewhere hcalls.1]
  simp only [hnil]
  exact wp_orderly_of_answer (hcalls.2 _) (hfin c.2 trivial)

/-- On a failing pool a finish succeeds all the same. -/
theorem failing_finish (hm : m.Of cache hash) (hw : cache.Laid s.world.tree)
    (hd : s.world.tree.content m.tmp_path = some d) :
    wp failing Calm m.finish (fun r s' => (∃ k, r = .ok (.Created k)) ∧
      s'.world.tree.content (cache.body hash) = some d) s := by
  have hfin : wp answer Calm m.finish (fun r w' => (∃ k, r = .ok (.Created k)) ∧
      w'.tree.content (cache.body hash) = some d) s.world := by
    refine finish_spec (Leads.refl hw) hm (fun e w' hnone _ => ?_) fun d' w' hd' l => ?_
    · rw [hd] at hnone
      cases hnone
    · obtain rfl : d = d' := by rw [hd] at hd'; cases hd'; rfl
      refine ⟨⟨_, rfl⟩, ?_⟩
      rw [l.content, DiskCache.body_eq, withFiles_body]
  refine wp_mono (wp_of_simulation (T := fun s w => s.world = w) ?_ (finish_elsewhere m) rfl hfin) ?_
  · rintro e c s w he hc rfl
    refine ⟨c, hc, ?_⟩
    unfold failing
    rw [pooled_elsewhere he]
    simp only [(fail_all s ioFault).1]
    exact ⟨trivial, trivial⟩
  · rintro r s ⟨w, rfl, hq⟩
    exact hq

end

/-! ## A whole miss -/

/-- A handler as `get_miss_handler` gives it out: it has counted nothing, its temporary file
is there and empty, and the pool has nothing to do. -/
structure NewHandler (cache : DiskCache) (hash : CombinedHash) (m : DiskMissHandler)
    (s : PoolWorld) : Prop where
  paths : m.Of cache hash
  counted : m.tmp_bytes_written = 0
  laid : cache.Laid s.world.tree
  empty : s.world.tree.content m.tmp_path = some []
  idle : s.pending = []

/-- A miss that returns `Created` has the chunks in the body, and has counted them. -/
def BodyIntact {C : Type} (env : Environment Io Io.Reply C PoolWorld) (cache : DiskCache)
    (hash : CombinedHash) (m : DiskMissHandler) (chunks : List Bytes) (s : PoolWorld) : Prop :=
  ∀ cs n s', run env (fill m chunks) cs s = some (.ok (.Created n), s') →
    s'.world.tree.content (cache.body hash) = some chunks.flatten ∧ chunks.flatten.length = n

section
variable {C : Type} {env : Environment Io Io.Reply C PoolWorld} {ok : C → Prop}
  {P : Bytes → Prop} {E : Prop} {Inv : Bytes → PoolWorld → Prop}
  {Open : Bytes → Nat → PoolWorld → Prop} {m : DiskMissHandler} {chunks : List Bytes}

theorem PoolRules.fill {Q : Result MissFinishType → PoolWorld → Prop}
    (hr : PoolRules env ok m.tmp_path P E Inv Open) (hP : ∀ b ∈ chunks, P b) (hs : Inv [] s)
    (herr : ∀ e s', E → Q (.error e) s')
    (hok : ∀ s', Inv chunks.flatten s' → wp env ok
      (DiskMissHandler.finish
        { m with tmp_bytes_written := m.tmp_bytes_written + chunks.flatten.length }) Q s') :
    wp env ok (fill m chunks) Q s := by
  simp only [pending_writes.fill, wp_bind]
  refine hr.write_chunks rfl hP hs (fun e m' s' hE => ?_) fun s' hs' => ?_
  · simp only [DiskMissHandler.drop, wp_bind]
    exact fun c _ => herr e _ hE
  · exact hok s' (by simpa using hs')

/-- A new handler that has nothing on the pool. -/
theorem NewHandler.filling (h : NewHandler cache hash m s) :
    ∃ i, Filling cache m.tmp_path i [] s := by
  obtain ⟨i, hi⟩ := content_isSome.mp (by rw [h.empty]; rfl :
    (s.world.tree.content m.tmp_path).isSome)
  have hdata := h.empty
  rw [content_of_file hi, Option.some.injEq] at hdata
  refine ⟨i, ⟨h.laid, hi, ?_⟩, ?_, ?_⟩
  · rw [h.idle]
    exact fun x hx => absurd hx List.not_mem_nil
  · rw [h.idle]
    exact fun x hx => absurd hx List.not_mem_nil
  · rw [h.idle, hdata]
    rfl

/-- What a handler has counted changes none of its paths. -/
theorem of_counted (hm : m.Of cache hash) (n : Nat) :
    DiskMissHandler.Of cache hash { m with tmp_bytes_written := n } :=
  ⟨hm.dir, hm.body_path, hm.meta_path, hm.hdr_path, hm.tmp_path⟩

/-- On an orderly pool the body is intact. -/
theorem intact_on_an_orderly_pool (h : NewHandler cache hash m s) (chunks : List Bytes) :
    BodyIntact orderly cache hash m chunks s := by
  intro cs n s' hrun
  obtain ⟨i, hs⟩ := h.filling
  refine run_sound (Q := fun r s' => ∀ n, r = .ok (.Created n) →
    s'.world.tree.content (cache.body hash) = some chunks.flatten ∧ chunks.flatten.length = n)
    hrun (fun _ _ => trivial) ?_ n rfl
  refine (orderly_rules cache m.tmp_path i).fill (fun _ _ => trivial) hs
    (fun e s' _ k hk => by cases hk) fun s' hs' => ?_
  refine wp_mono (orderly_finish (of_counted h.paths _) hs') fun r s2 hr k hk => ?_
  obtain ⟨hbody, rfl⟩ := hr k hk
  exact ⟨hbody, by simp [h.counted]⟩

/-- A body of no bytes is intact on every pool. -/
theorem intact_when_empty (h : NewHandler cache hash m s) (hc : chunks.flatten = []) :
    BodyIntact pooled cache hash m chunks s := by
  intro cs n s' hrun
  obtain ⟨i, hs⟩ := h.filling
  refine run_sound (Q := fun r s' => ∀ n, r = .ok (.Created n) →
    s'.world.tree.content (cache.body hash) = some chunks.flatten ∧ chunks.flatten.length = n)
    hrun (fun _ _ => trivial) ?_ n rfl
  refine (empty_rules cache m.tmp_path i).fill (List.flatten_eq_nil_iff.mp hc) ⟨hs, h.idle⟩
    (fun e s' _ k hk => by cases hk) fun s' hs' => ?_
  obtain ⟨hs', hnil⟩ := hs'
  obtain ⟨w', pending⟩ := s'
  obtain rfl : pending = [] := hnil
  have hcontent := hs'.content
  have hfin := finish_created (d := []) (of_counted h.paths (m.tmp_bytes_written + chunks.flatten.length))
    hs'.at_work.laid (by rw [content_of_file hs'.at_work.at_tmp]; simpa using hcontent)
  refine wp_mono (wp_pooled_of_answer (finish_elsewhere _) hfin) fun r s2 hr k hk => ?_
  obtain ⟨hbody, rfl⟩ := hr k hk
  exact ⟨by rw [hc]; exact hbody, by simp [h.counted]⟩

/-- On a failing pool a miss returns `Created`, and the body is empty. -/
theorem empty_on_a_failing_pool (h : NewHandler cache hash m s) (chunks : List Bytes) :
    ∃ cs n s', run pooled (fill m chunks) cs s = some (.ok (.Created n), s') ∧
      s'.world.tree.content (cache.body hash) = some [] := by
  obtain ⟨i, hs⟩ := h.filling
  have hdata : s.world.tree.data i = [] := by
    have := hs.content
    rw [h.idle] at this
    simpa using this
  have hwp : wp failing Calm (fill m chunks) (fun r s' => (∃ k, r = .ok (.Created k)) ∧
      s'.world.tree.content (cache.body hash) = some []) s := by
    refine (failing_rules cache m.tmp_path i).fill (fun _ _ => trivial) ⟨hs.at_work, hdata⟩
      (fun _ _ hE => hE.elim) fun s' hs' => ?_
    refine failing_finish (of_counted h.paths _) hs'.1.laid ?_
    change s'.world.tree.content m.tmp_path = _
    rw [content_of_file hs'.1.at_tmp, hs'.2]
  have hend : ∃ cs r s', (∀ c ∈ cs, Calm c) ∧ run failing (fill m chunks) cs s = some (r, s') :=
    run_exists _ s plain rfl
  obtain ⟨cs, r, s', hcs, hrun⟩ := hend
  obtain ⟨⟨n, rfl⟩, hbody⟩ := run_sound hrun hcs hwp
  have hfailing : ∀ e c s, failing e c s =
      pooled e ⟨(List.range s.pending.length).map fun i => .fail i ioFault, c⟩ s :=
    fun _ _ _ => rfl
  obtain ⟨cs', hrun'⟩ := run_of_narrower hfailing hrun
  exact ⟨cs', n, s', hrun', hbody⟩

/-- The body is intact on every schedule of the pool exactly when it has no bytes, and it is
intact on the schedules where the pool carries out the writes in the order of the calls, fails
none, and is through with them when the flush or the finish comes. -/
theorem the_body_is_intact_on_every_schedule_exactly_when_it_is_empty
    (h : NewHandler cache hash m s) (chunks : List Bytes) :
    (BodyIntact pooled cache hash m chunks s ↔ chunks.flatten = []) ∧
      BodyIntact orderly cache hash m chunks s := by
  refine ⟨⟨fun hall => ?_, intact_when_empty h⟩, intact_on_an_orderly_pool h chunks⟩
  obtain ⟨cs, n, s', hrun, hbody⟩ := empty_on_a_failing_pool h chunks
  have := (hall cs n s' hrun).1
  rw [hbody, Option.some.injEq] at this
  exact this.symm

end

/-! ## A write that comes late -/

/-- A handler that was just given out. -/
def one_miss : Handlers × World :=
  after small_storage (Handlers.empty, empty_world) (.get_miss_handler small_hash ⟨[7]⟩) 6

def new_pool : PoolWorld := ⟨one_miss.2, []⟩

theorem new_handler_new : NewHandler small_cache small_hash (small_handler [7] 0) new_pool := by
  have hstep : Step small_storage (Handlers.empty, empty_world)
      (.get_miss_handler small_hash ⟨[7]⟩) (.handler (.ok 0)) one_miss :=
    step_after (by decide +kernel)
  refine ⟨small_handler_of _ _, rfl, ?_, by decide +kernel, rfl⟩
  exact (step_drift (good_empty (empty_world_laid _)) hstep).1.laid

theorem two_chunks_are_intact_on_an_orderly_pool :
    BodyIntact orderly small_cache small_hash (small_handler [7] 0) [[1], [2]] new_pool :=
  (the_body_is_intact_on_every_schedule_exactly_when_it_is_empty new_handler_new [[1], [2]]).2

/-- The flush waits for the second chunk only, and the first one is written after it. -/
def late_first_chunk : List (PoolChoice Choice IoError) :=
  List.replicate 5 ⟨[], plain⟩ ++ [⟨[.run 0 1], plain⟩] ++ List.replicate 6 ⟨[], plain⟩

theorem a_late_chunk_is_out_of_order :
    one_miss.1.misses 0 = some (small_handler [7] 0) ∧
    NewHandler small_cache small_hash (small_handler [7] 0) new_pool ∧
    ¬ BodyIntact pooled small_cache small_hash (small_handler [7] 0) [[1], [2]] new_pool := by
  refine ⟨by decide +kernel, new_handler_new, fun h => ?_⟩
  have hrun : (run pooled (fill (small_handler [7] 0) [[1], [2]]) late_first_chunk new_pool).map
      (fun x => (x.1, x.2.world.tree.content (small_cache.body small_hash))) =
        some (.ok (.Created 2), some [2, 1]) := by
    decide +kernel
  obtain ⟨⟨r, s'⟩, hrun, hr⟩ := Option.map_eq_some_iff.mp hrun
  simp only [Prod.mk.injEq] at hr
  obtain ⟨rfl, hbody⟩ := hr
  have := (h _ 2 s' hrun).1
  rw [hbody] at this
  exact absurd this (by decide)

end edge_cdn_store.pending_writes
