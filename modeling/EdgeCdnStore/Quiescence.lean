-- A key once all finishes and purges on it are done. Each goes through the body,
-- the metadata and the header of the key in this order, one file at a time. Where
-- none of them passes one of the other kind on the way, the last of them has the
-- last word on all three files.
import EdgeCdnStore.KeyCalls
import EdgeCdnStore.Lanes
import EdgeCdnStore.Operations

open edge_cdn_store.programs edge_cdn_store.programs.Program edge_cdn_store.io
open edge_cdn_store.file_tree edge_cdn_store.file_tree.FileTree
open edge_cdn_store.logger edge_cdn_store.disk_cache edge_cdn_store.pools edge_cdn_store.tasks
open edge_cdn_store.slots edge_cdn_store.key_calls edge_cdn_store.lanes
open edge_cdn_store.operations

namespace edge_cdn_store.quiescence

variable {K M : Type} [CacheHashKey K] [CacheMeta M]

/-! ## The way through the three files -/

/-- A task that has dealt with the body and not yet with the metadata: `true` is for a finish,
and `false` for a purge. -/
def to_meta : Phase → Option Bool
  | .finish _ .placed => some true
  | .purge (.paying _) => some false
  | .purge .body_gone => some false
  | _ => none

/-- A task that has dealt with the metadata and not yet with the header. -/
def to_hdr : Phase → Option Bool
  | .finish _ .meta_written => some true
  | .purge .meta_gone => some false
  | _ => none

/-- A task whose next call deals with the metadata. -/
def at_meta : Phase → Option Bool
  | .finish _ .placed => some true
  | .purge .body_gone => some false
  | _ => none

/-- The tasks on their way, in the order in which they came. -/
structure Passage where
  meta_lane : Lane Nat Bool
  hdr_lane : Lane Nat Bool

def Passage.start : Passage := ⟨[], []⟩

def Passage.record (cache : DiskCache) (i : Nat) (n : TaskNote) (e : Io) (r : e.Reply)
    (_ _ : World) (h : Passage) : Passage where
  meta_lane := h.meta_lane.pass i (to_meta n.phase) (to_meta (n.next cache e r).phase)
  hdr_lane := h.hdr_lane.pass i (to_hdr n.phase) (to_hdr (n.next cache e r).phase)

/-- The next call of a task passes none of the other kind on the way to the same file. -/
def Passage.in_order (h : Passage) (i : Nat) (n : TaskNote) : Bool :=
  (at_meta n.phase).all (fun v => h.meta_lane.Clear i v) &&
    (to_hdr n.phase).all (fun v => h.hdr_lane.Clear i v)

abbrev passage_system (K M : Type) [CacheHashKey K] [CacheMeta M] (cache : DiskCache) :
    System Io Io.Reply Choice World (Outcome M) TaskNote Passage (Task K M) :=
  tasks_system cache (Passage.record cache)

abbrev PassagePool (M : Type) := Pool Io Io.Reply (Outcome M) TaskNote World Passage

/-- The finishes, purges and lookups of one key. -/
def OnKey (cache : DiskCache) (hash : CombinedHash) : Task K M → Prop
  | .lookup key => CacheHashKey.combined key = hash
  | .finish hash' m => hash' = hash ∧ m.Of cache hash
  | .purge key _ => CacheHashKey.combined key = hash
  | _ => False

instance (cache : DiskCache) (hash : CombinedHash) :
    (t : Task K M) → Decidable (OnKey cache hash t)
  | .lookup key => inferInstanceAs (Decidable (CacheHashKey.combined key = hash))
  | .get_miss_handler _ _ => isFalse id
  | .write_body _ _ _ _ => isFalse id
  | .finish hash' m => inferInstanceAs (Decidable (hash' = hash ∧ m.Of cache hash))
  | .drop_handler _ _ => isFalse id
  | .purge key _ => inferInstanceAs (Decidable (CacheHashKey.combined key = hash))
  | .update_meta _ _ => isFalse id

/-- Finishes, purges and lookups of one key come at any time and make their calls in any order, and no
call fails but where a path is absent. -/
def OneKey (cache : DiskCache) (hash : CombinedHash) (_ : PassagePool M) :
    Event Choice World (Task K M) → Prop
  | .spawn t => OnKey cache hash t
  | .call _ c => Calm c
  | .crash => False
  | .outside _ => False

instance (cache : DiskCache) (hash : CombinedHash) (p : PassagePool M) :
    (ev : Event Choice World (Task K M)) → Decidable (OneKey cache hash p ev)
  | .spawn t => inferInstanceAs (Decidable (OnKey cache hash t))
  | .call _ c => inferInstanceAs (Decidable (Calm c))
  | .crash => isFalse id
  | .outside _ => isFalse id

/-- No finish passes a purge between two files, and no purge a finish. -/
def NonePasses (p : PassagePool M) : Event Choice World (Task K M) → Prop
  | .call i _ => (p.notes[i]?).all (p.history.in_order i) = true
  | _ => True

instance (p : PassagePool M) : (ev : Event Choice World (Task K M)) → Decidable (NonePasses p ev)
  | .spawn _ => isTrue trivial
  | .call _ _ => inferInstanceAs (Decidable (_ = _))
  | .crash => isTrue trivial
  | .outside _ => isTrue trivial

/-- The start of a run. -/
def idle (M : Type) (w : World) : PassagePool M := ⟨[], w, .start⟩

/-! ## What one call does -/

/-- What a call did to the key, and where its task went from `x` to `y`. -/
inductive Effect (cache : DiskCache) (hash : CombinedHash) (w : World) (x y : Phase) : Slot → Prop
  | quiet (hm : to_meta y = to_meta x) (hh : to_hdr y = to_hdr x) :
      Effect cache hash w x y (slot_of cache hash w)
  | body (i : Option Nat) (hm : to_meta x = none) (hm' : to_meta y = some i.isSome)
      (hh : to_hdr y = to_hdr x) : Effect cache hash w x y { slot_of cache hash w with body := i }
  | cache_meta (d : Option Bytes) (hm : at_meta x = some d.isSome) (hm' : to_meta y = none)
      (hh : to_hdr x = none) (hh' : to_hdr y = some d.isSome) :
      Effect cache hash w x y { slot_of cache hash w with cache_meta := d }
  | hdr (d : Option Bytes) (hm : to_meta y = to_meta x) (hh : to_hdr x = some d.isSome)
      (hh' : to_hdr y = none) : Effect cache hash w x y { slot_of cache hash w with hdr := d }
  | no_meta (hm : at_meta x = some true) (hm' : to_meta y = none) (hh : to_hdr y = to_hdr x)
      (hs : slot_of cache hash w = ⟨none, none, none⟩) :
      Effect cache hash w x y (slot_of cache hash w)
  | no_hdr (hm : to_meta y = to_meta x) (hh : to_hdr x = some true) (hh' : to_hdr y = none)
      (hs : slot_of cache hash w = ⟨none, none, none⟩) :
      Effect cache hash w x y (slot_of cache hash w)

/-- The phases of the tasks that run here. -/
def Runs : Phase → Prop
  | .update_meta _ _ _ => False
  | _ => True

variable {cache : DiskCache} {hash : CombinedHash} {w w' : World} {e : Io}
  {x y : Phase} {s : Slot}

/-- Every call of a finish, a purge or a lookup has one of these effects. -/
theorem effect_of_call (h : KeyCall cache hash e w w' x y s) (hx : Runs x) :
    Effect cache hash w x y s ∧ Runs y := by
  cases h
  case stays => exact ⟨.quiet rfl rfl, hx⟩
  case publish m i _ _ => exact ⟨.body (some i) rfl rfl rfl, trivial⟩
  case finish_meta m => exact ⟨.cache_meta (some _) rfl rfl rfl rfl, trivial⟩
  case finish_no_meta m hs => exact ⟨.no_meta rfl rfl rfl hs, trivial⟩
  case finish_hdr m => exact ⟨.hdr (some _) rfl rfl rfl, trivial⟩
  case finish_no_hdr m hs => exact ⟨.no_hdr rfl rfl rfl hs, trivial⟩
  case purge_body len => exact ⟨.body none rfl rfl rfl, trivial⟩
  case purge_no_body len => exact ⟨.body none rfl rfl rfl, trivial⟩
  case purge_meta => exact ⟨.cache_meta none rfl rfl rfl rfl, trivial⟩
  case purge_hdr => exact ⟨.hdr none rfl rfl rfl, trivial⟩
  case found => exact absurd hx id
  case not_found => exact absurd hx id
  case update_meta => exact absurd hx id
  case update_no_meta => exact absurd hx id
  case update_hdr => exact absurd hx id
  case update_no_hdr => exact absurd hx id
  all_goals exact ⟨.quiet rfl rfl, trivial⟩

/-! ## Whole runs -/

/-- The values that the tasks have in a lane, by their numbers. -/
def on_way (ns : List TaskNote) (lane : Phase → Option Bool) (i : Nat) : Option Bool :=
  ns[i]?.bind fun n => lane n.phase

theorem on_way_of {ns : List TaskNote} {i : Nat} {n : TaskNote} (hi : ns[i]? = some n)
    (lane : Phase → Option Bool) : on_way ns lane i = lane n.phase := by
  simp [on_way, hi]

theorem on_way_set {ns : List TaskNote} {i : Nat} {n : TaskNote} (hi : ns[i]? = some n)
    (n' : TaskNote) (lane : Phase → Option Bool) :
    on_way (ns.set i n') lane = Function.update (on_way ns lane) i (lane n'.phase) := by
  obtain ⟨hlt, _⟩ := List.getElem?_eq_some_iff.mp hi
  funext j
  unfold on_way
  by_cases hj : j = i
  · subst hj
    simp [List.getElem?_set_self hlt]
  · rw [List.getElem?_set_ne (Ne.symm hj), Function.update_of_ne hj]

/-- A task that is in the lane as it was. -/
theorem on_way_set_same {ns : List TaskNote} {i : Nat} {n n' : TaskNote} (hi : ns[i]? = some n)
    {lane : Phase → Option Bool} (h : lane n'.phase = lane n.phase) :
    on_way (ns.set i n') lane = on_way ns lane := by
  rw [on_way_set hi, h, ← on_way_of hi lane, Function.update_eq_self]

theorem on_way_append {ns : List TaskNote} {n : TaskNote} {lane : Phase → Option Bool}
    (hn : lane n.phase = none) : on_way (ns ++ [n]) lane = on_way ns lane := by
  funext i
  unfold on_way
  rcases Nat.lt_trichotomy i ns.length with hlt | rfl | hgt
  · rw [List.getElem?_append_left hlt]
  · simp [hn]
  · rw [List.getElem?_eq_none (by simp; omega), List.getElem?_eq_none (by omega)]

/-- The tasks on their way account for what the three files do not agree in. -/
structure Passing (cache : DiskCache) (hash : CombinedHash) (ns : List TaskNote) (w : World)
    (h : Passage) : Prop where
  laid : cache.Laid w.tree
  tasks : ∀ n ∈ ns, n.hash = hash ∧ InPlace cache hash w n.phase ∧ Runs n.phase
  row : Row (on_way ns to_meta) (on_way ns to_hdr) h.meta_lane h.hdr_lane
    (slot_of cache hash w).body.isSome (slot_of cache hash w).cache_meta.isSome
    (slot_of cache hash w).hdr.isSome

/-- A task that is about to deal with the metadata has dealt with the body. -/
theorem to_meta_of_at_meta {v : Bool} (h : at_meta x = some v) : to_meta x = some v := by
  unfold at_meta at h
  unfold to_meta
  split at h
  · exact h
  · exact h
  · cases h

/-- What one call does to the lanes and to the files fits together. -/
theorem Passing.step {ns : List TaskNote} {h : Passage} {i : Nat} {n n' : TaskNote}
    (hI : Passing cache hash ns w h) (hi : ns[i]? = some n) (ho : h.in_order i n = true)
    (hn' : n'.hash = n.hash) (hcall : KeyCall cache hash e w w' n.phase n'.phase s)
    (hmoves : Moves cache hash w w' s) :
    Passing cache hash (ns.set i n') w' ⟨h.meta_lane.pass i (to_meta n.phase) (to_meta n'.phase),
      h.hdr_lane.pass i (to_hdr n.phase) (to_hdr n'.phase)⟩ := by
  obtain ⟨hhash, hplace, hruns⟩ := hI.tasks n (List.mem_of_getElem? hi)
  obtain ⟨he, hruns'⟩ := effect_of_call hcall hruns
  refine ⟨hmoves.laid, fun x hx => ?_, ?_⟩
  · rcases List.mem_or_eq_of_mem_set hx with hx | rfl
    · obtain ⟨hxhash, hxplace, hxruns⟩ := hI.tasks x hx
      exact ⟨hxhash, hxplace.moves hmoves, hxruns⟩
    · exact ⟨hn'.trans hhash, hcall.inPlace hplace hmoves, hruns'⟩
  have hmeta : on_way ns to_meta i = to_meta n.phase := on_way_of hi _
  have hhdr : on_way ns to_hdr i = to_hdr n.phase := on_way_of hi _
  have hrow := hI.row
  simp only [Passage.in_order, Bool.and_eq_true] at ho
  rw [hmoves.slot]
  cases he with
  | quiet hm hh =>
    rw [on_way_set_same hi hm, on_way_set_same hi hh, hm, hh, Lane.pass_self, Lane.pass_self]
    exact hrow
  | body b hm hm' hh =>
    rw [on_way_set hi n' to_meta, on_way_set_same hi hh, hm, hm', hh, Lane.pass_self]
    exact hrow.reach_first (hmeta.trans hm) b.isSome
  | cache_meta d hm hm' hh hh' =>
    rw [hm] at ho
    have hclear : h.meta_lane.Clear i d.isSome := by simpa using ho.1
    rw [on_way_set hi n' to_meta, on_way_set hi n' to_hdr, hm', hh, hh', to_meta_of_at_meta hm]
    exact hrow.reach_second (hmeta.trans (to_meta_of_at_meta hm)) (hhdr.trans hh) hclear
  | hdr d hm hh hh' =>
    rw [hh] at ho
    have hclear : h.hdr_lane.Clear i d.isSome := by simpa using ho.2
    rw [on_way_set_same hi hm, on_way_set hi n' to_hdr, hm, hh, hh', Lane.pass_self]
    exact hrow.reach_third (hhdr.trans hh) hclear
  | no_meta hm hm' hh hnone =>
    rw [on_way_set hi n' to_meta, on_way_set_same hi hh, hm', hh, Lane.pass_self,
      to_meta_of_at_meta hm]
    refine hrow.give_up_first (hmeta.trans (to_meta_of_at_meta hm)) ?_
    rw [hnone]
    decide
  | no_hdr hm hh hh' hnone =>
    rw [on_way_set_same hi hm, on_way_set hi n' to_hdr, hm, hh, hh', Lane.pass_self]
    refine hrow.give_up_second (hhdr.trans hh) ?_
    rw [hnone]
    decide

theorem passing_invariant (cache : DiskCache) (hash : CombinedHash) :
    (passage_system K M cache).Invariant (TaskNote.allows cache) Ends
      (fun p ev => OneKey cache hash p ev ∧ NonePasses p ev) (Passing cache hash) where
  start _ t _ := task_obeys cache t
  spawn p t hP _ hI := by
    have hkey : OnKey cache hash t := hP.1
    have hnew : (to_meta t.note.phase = none ∧ to_hdr t.note.phase = none) ∧
        t.note.hash = hash ∧ InPlace cache hash p.state t.note.phase ∧ Runs t.note.phase := by
      cases t with
      | lookup key => exact ⟨⟨rfl, rfl⟩, hkey, trivial, trivial⟩
      | finish hash' m => exact ⟨⟨rfl, rfl⟩, hkey.1, ⟨hkey.2, Or.inl rfl⟩, trivial⟩
      | purge key purge_type => exact ⟨⟨rfl, rfl⟩, hkey, trivial, trivial⟩
      | get_miss_handler key cache_meta => exact absurd hkey id
      | write_body hash' m data is_eof => exact absurd hkey id
      | drop_handler hash' m => exact absurd hkey id
      | update_meta key cache_meta => exact absurd hkey id
    refine ⟨hI.laid, fun x hx => ?_, ?_⟩
    · rcases List.mem_append.mp hx with hx | hx
      · exact hI.tasks x hx
      · rw [List.mem_singleton.mp hx]
        exact hnew.2
    · change Row (on_way (p.notes ++ [t.note]) to_meta) (on_way (p.notes ++ [t.note]) to_hdr) _ _
        _ _ _
      rw [on_way_append hnew.1.1, on_way_append hnew.1.2]
      exact hI.row
  call p i c e k n hP hi ha hI := by
    have hn := Pool.notes_getElem? hi
    have ho : p.history.in_order i n = true := by
      have := hP.2
      unfold NonePasses at this
      simpa [hn] using this
    obtain ⟨hhash, hplace, _⟩ := hI.tasks n (List.mem_of_getElem? hn)
    obtain ⟨s, hcall, hmoves⟩ := key_call hI.laid hP.1 hhash hplace ha
    exact hI.step hn ho (next_hash n e _) hcall hmoves
  crash _ hP := absurd hP.1 id
  outside _ _ hP := absurd hP.1 id

/-- A task that is done is on no way. -/
theorem none_of_through (h : x.through) : to_meta x = none ∧ to_hdr x = none := by
  cases x with
  | finish m stage =>
    obtain rfl : stage = .ended := h
    exact ⟨rfl, rfl⟩
  | purge stage =>
    obtain rfl : stage = .ended := h
    exact ⟨rfl, rfl⟩
  | update_meta mi mh stage => exact ⟨rfl, rfl⟩
  | lookup k mi mh f => exact ⟨rfl, rfl⟩
  | idle => exact ⟨rfl, rfl⟩

/-- In every run of finishes, purges and lookups of one key, in any order of steps, in which none of
them passes one of the other kind between two files: once all are done, the key has all three
files again or none of them. -/
theorem a_key_is_all_or_none_once_all_are_done_and_none_passed (cache : DiskCache)
    (hash : CombinedHash) (w : World) (hw : cache.Laid w.tree)
    (hs : (slot_of cache hash w).AllOrNone) (evs : List (Event Choice World (Task K M)))
    (p : PassagePool M)
    (hP : (passage_system K M cache).Along (fun p ev => OneKey cache hash p ev ∧ NonePasses p ev)
      (idle M w) evs)
    (hr : (passage_system K M cache).run (idle M w) evs = some p) (hq : p.Quiescent) :
    (slot_of cache hash p.state).AllOrNone := by
  have hstart : Passing cache hash [] w .start := by
    refine ⟨hw, fun n hn => absurd hn List.not_mem_nil, ?_⟩
    obtain ⟨b, hb, hm, hh⟩ := hs.bits
    rw [hb, hm, hh]
    exact Row.rest b
  obtain ⟨hobey, hI⟩ := (passing_invariant cache hash).run (p := idle M w)
    (fun x hx => absurd hx List.not_mem_nil) hstart hP hr
  have hthrough : ∀ n ∈ p.notes, to_meta n.phase = none ∧ to_hdr n.phase = none := by
    intro n hn
    obtain ⟨x, hx, rfl⟩ := List.mem_map.mp hn
    obtain ⟨a, ha⟩ := hq.done hx
    have hend : Ends a x.2 := hobey.done (ha ▸ hx)
    exact none_of_through hend.through
  have hnone : ∀ lane : Phase → Option Bool, (∀ n ∈ p.notes, lane n.phase = none) →
      ∀ i, on_way p.notes lane i = none := by
    intro lane hlane i
    unfold on_way
    cases hi : p.notes[i]? with
    | none => rfl
    | some n => exact hlane n (List.mem_of_getElem? hi)
  obtain ⟨hbm, hmh⟩ := hI.row.settled (hnone to_meta fun n hn => (hthrough n hn).1)
    (hnone to_hdr fun n hn => (hthrough n hn).2)
  exact Slot.allOrNone_of_bits hbm hmh

/-! ## Runs on a small cache -/

/-- A handler of a miss takes its one byte. -/
def write_tmp : Prog (Result Unit × DiskMissHandler) := do
  let _ ← small_cache.get_miss_handler small_hash (Note.mk [7])
  (small_handler [7] 0).write_body [3] true

/-- A disk with the temporary file of one handler, and no other file. -/
def one_tmp : World :=
  ((run answer write_tmp (List.replicate 9 plain) empty_world).map Prod.snd).getD empty_world

theorem one_tmp_laid : small_cache.Laid one_tmp.tree := by
  obtain ⟨⟨r, w⟩, hrun⟩ := Option.isSome_iff_exists.mp
    (by decide +kernel : (run answer write_tmp (List.replicate 9 plain) empty_world).isSome)
  have hwrite : ∀ {w' C g}, Leads small_cache empty_world w' C g →
      wp answer Calm ((small_handler [7] 0).write_body [3] true)
        (fun _ w => small_cache.Laid w.tree) w' := fun l =>
    write_body_spec l (small_handler_of [7] 0) _ _ (fun _ _ => l.laid) fun _ _ _ l' => l'.laid
  have : small_cache.Laid w.tree := by
    refine run_sound (Q := fun _ w => small_cache.Laid w.tree) hrun
      (fun c hc => (by rw [List.eq_of_mem_replicate hc]; rfl : Calm c)) ?_
    rw [write_tmp, wp_bind]
    exact get_miss_handler_spec (Q := fun _ w => wp answer Calm
        ((small_handler [7] 0).write_body [3] true) (fun _ w => small_cache.Laid w.tree) w)
      (Leads.refl (empty_world_laid _)) small_hash (Note.mk [7]) (fun _ _ _ l => hwrite l)
      fun _ _ _ _ _ _ _ _ _ l => hwrite l
  unfold one_tmp
  rw [hrun]
  exact this

abbrev SmallEvents := List (Event Choice World (Task CombinedHash Note))

/-- A finish, and a purge that comes after it to each of the three files. -/
def purge_behind_finish : SmallEvents :=
  [.spawn (.finish small_hash (small_handler [7] 1)), .spawn (.purge small_hash .Invalidation)] ++
    Event.calls 0 2 plain ++ Event.calls 1 6 plain ++ Event.calls 0 1 plain ++
    Event.calls 1 1 plain ++ Event.calls 0 1 plain ++ Event.calls 1 2 plain ++
    Event.calls 0 3 plain

theorem a_purge_behind_a_finish_leaves_none :
    ∃ p, (passage_system CombinedHash Note small_cache).run (idle Note one_tmp)
      purge_behind_finish = some p ∧ (slot_of small_cache small_hash p.state).AllOrNone := by
  have hrun : ((passage_system CombinedHash Note small_cache).run (idle Note one_tmp)
      purge_behind_finish).any (fun p => decide p.Quiescent) = true := by decide +kernel
  obtain ⟨p, hp, hquiet⟩ := (Option.any_eq_true _ _).mp hrun
  have hq : p.Quiescent := of_decide_eq_true hquiet
  exact ⟨p, hp, a_key_is_all_or_none_once_all_are_done_and_none_passed small_cache small_hash
    one_tmp one_tmp_laid (Or.inr (by decide +kernel)) purge_behind_finish p (by decide +kernel) hp hq⟩

/-- A purge that passes a finish between the body and the metadata. -/
def purge_passes_finish : SmallEvents :=
  [.spawn (.finish small_hash (small_handler [7] 1)), .spawn (.purge small_hash .Invalidation)] ++
    Event.calls 0 2 plain ++ Event.calls 1 8 plain ++ Event.calls 0 5 plain ++
    Event.calls 1 1 plain

/-- A finish that passes a purge there. -/
def finish_passes_purge : SmallEvents :=
  [.spawn (.purge small_hash .Invalidation), .spawn (.finish small_hash (small_handler [7] 1))] ++
    Event.calls 0 3 plain ++ Event.calls 1 7 plain ++ Event.calls 0 3 plain

/-- Both start from none of the three files. The first leaves metadata without a body, and the
second a body that no lookup serves, and in both the finish returns that it has created it. -/
theorem a_purge_and_a_finish_that_pass_leave_some_of_the_files :
    (slot_of small_cache small_hash one_tmp).AllOrNone ∧
    (passage_system CombinedHash Note small_cache).Along (OneKey small_cache small_hash)
      (idle Note one_tmp) purge_passes_finish ∧
    ((passage_system CombinedHash Note small_cache).run (idle Note one_tmp)
      purge_passes_finish).map (fun p => (p.results, slot_of small_cache small_hash p.state)) =
        some ([some (.finished (.ok (.Created 1))), some (.existed (.ok true))],
          ⟨none, some [7], some []⟩) ∧
    (passage_system CombinedHash Note small_cache).Along (OneKey small_cache small_hash)
      (idle Note one_tmp) finish_passes_purge ∧
    ((passage_system CombinedHash Note small_cache).run (idle Note one_tmp)
      finish_passes_purge).map (fun p => (p.results, slot_of small_cache small_hash p.state)) =
        some ([some (.existed (.ok false)), some (.finished (.ok (.Created 1)))],
          ⟨some 0, none, none⟩) := by
  refine ⟨Or.inr (by decide +kernel), by decide +kernel, by decide +kernel, by decide +kernel,
    by decide +kernel⟩

end edge_cdn_store.quiescence
