-- What the tasks of the disk cache leave alone: everything outside the directories of
-- the keys, and the temporary files that no handler goes by any more. The tasks come in
-- any number and make their calls in any order, calls fail, and the process may crash.
import EdgeCdnStore.Holders
import EdgeCdnStore.Restart
import EdgeCdnStore.FinishFaults

open edge_cdn_store.programs edge_cdn_store.programs.Program edge_cdn_store.io
open edge_cdn_store.file_tree edge_cdn_store.file_tree.FileTree
open edge_cdn_store.disk_cache edge_cdn_store.pools edge_cdn_store.tasks edge_cdn_store.sites
open edge_cdn_store.held_files edge_cdn_store.holders
open edge_cdn_store.operations (Note small_cache small_hash)
open edge_cdn_store.finish_faults (rewriting)
open edge_cdn_store.restart (CACHE_STATE_FILENAME state_path)

namespace edge_cdn_store.bystanders

/-! ## A path that no call goes by -/

section
variable {K M : Type} [CacheHashKey K] [CacheMeta M]

/-- What stands at a path is what stood there at the start, and no task has it open. -/
structure Untouched (q : PathBuf) (t : FileTree (List Char) UInt8) (notes : List Holder)
    (w : World) : Prop where
  node : w.tree.node q = t.node q
  file : ∀ i, t.node q = some (.file i) → FileAt q i (t.data i) w ∧ ∀ n ∈ notes, Apart i n.held w

theorem Untouched.content {q : PathBuf} {t : FileTree (List Char) UInt8} {notes : List Holder}
    {w : World} (h : Untouched q t notes w) : w.tree.content q = t.content q :=
  content_congr h.node fun i hi => (h.file i hi).1.data

/-- Where the notes tell that no call goes by the path, it stays untouched. -/
theorem untouched_invariant {cache : DiskCache} {q : PathBuf} (t : FileTree (List Char) UInt8)
    {P : HolderPool M → Event Choice World (Task K M) → Prop} {G : Holder → Prop}
    (hspawn : ∀ p task, P p (.spawn task) → task.Of cache ∧ G (Task.holder task))
    (hnext : ∀ n e r, G n → G (n.next e r))
    (hcall : ∀ p j c e n, P p (.call j c) → p.next_call j = some (e, n) → G n →
      n.allows cache e → ¬ Touches e q)
    (houtside : ∀ p w, ¬ P p (.outside w)) :
    (holders_system K M cache).Invariant (Holder.allows cache) (fun _ _ => True) P
      fun notes w _ => (∀ n ∈ notes, G n) ∧ Untouched q t notes w where
  start p task hP := task_holds task (hspawn p task hP).1
  spawn p task hP _ hI := by
    obtain ⟨hG, hnode, hfile⟩ := hI
    refine ⟨fun n hn => ?_, hnode, fun i hi => ⟨(hfile i hi).1, fun n hn => ?_⟩⟩
    · rcases List.mem_append.mp hn with hn | hn
      · exact hG n hn
      · rw [List.mem_singleton.mp hn]
        exact (hspawn p task hP).2
    · rcases List.mem_append.mp hn with hn | hn
      · exact (hfile i hi).2 n hn
      · rw [List.mem_singleton.mp hn]
        exact fun f hf => absurd hf List.not_mem_nil
  call p j c e k n hP hj ha hI := by
    obtain ⟨hG, hnode, hfile⟩ := hI
    have hnote := List.mem_of_getElem? (Pool.notes_getElem? hj)
    have hno := hcall p j c e n hP (Pool.next_call_of hj) (hG n hnote) ha
    refine ⟨fun m hm => ?_, ?_, fun i hi => ?_⟩
    · rcases List.mem_or_eq_of_mem_set hm with hm | rfl
      · exact hG m hm
      · exact hnext n e _ (hG n hnote)
    · exact ((answer_leaves e c p.state).node q hno).trans hnode
    · obtain ⟨hat, hall⟩ := hfile i hi
      obtain ⟨hstay, happart⟩ := hat.other ha hno (hall n hnote) (c := c)
      refine ⟨hstay, fun m hm => ?_⟩
      rcases List.mem_or_eq_of_mem_set hm with hm | rfl
      · exact (hall m hm).stay
      · exact happart
  crash _ _ hI := by
    refine ⟨fun _ hn => absurd hn List.not_mem_nil, hI.2.node, fun i hi => ⟨?_, ?_⟩⟩
    · exact (hI.2.file i hi).1
    · exact fun _ hn => absurd hn List.not_mem_nil
  outside p w hP _ := absurd hP (houtside p w)

omit [CacheHashKey K] [CacheMeta M] in
/-- Before a task has come the path is untouched. -/
theorem untouched_start (q : PathBuf) (w : World) : Untouched q w.tree [] w :=
  ⟨rfl, fun _ hi => ⟨⟨hi, rfl⟩, fun _ hn => absurd hn List.not_mem_nil⟩⟩

/-! ## Outside the cache -/

/-- The path is none of a key: not on the way to its directory, and not in it. -/
def Outside (cache : DiskCache) (q : PathBuf) : Prop :=
  ∀ hash, ¬ q <+: cache.dir hash ∧ ∀ x, q ≠ cache.entry hash x

theorem not_touched_outside {cache : DiskCache} {q : PathBuf} (hq : Outside cache q)
    {hash : CombinedHash} {e : Io} (he : OfKey cache hash e) : ¬ Touches e q := by
  intro ht
  rcases touches_of_key he ht with h | ⟨x, h⟩
  · exact (hq hash).1 h
  · exact (hq hash).2 x h

/-- The file in which a shutdown keeps the size of the cache is none of a key. -/
theorem state_path_outside (cache : DiskCache) : Outside cache (state_path cache.root) := by
  intro hash
  constructor
  · intro hpre
    unfold state_path DiskCache.dir at hpre
    rw [List.prefix_append_right_inj] at hpre
    have hname := (List.cons_prefix_cons.mp hpre).1
    have hlen := congrArg List.length hname
    have hlong : CACHE_STATE_FILENAME.length = 17 := by decide
    rw [List.length_take, hlong] at hlen
    omega
  · intro x heq
    have hlen := congrArg List.length heq
    simp only [state_path, DiskCache.entry, List.length_append, DiskCache.length_dir,
      List.length_singleton] at hlen
    omega

/-- Tasks of all keys come at any time, their calls may fail, and the process may crash. Nothing
else changes the files. -/
def OnlyTasks (cache : DiskCache) (_ : HolderPool M) : Event Choice World (Task K M) → Prop
  | .spawn t => t.Of cache
  | .call _ _ => True
  | .crash => True
  | .outside _ => False

theorem outside_untouched {cache : DiskCache} {w : World} {q : PathBuf} (hq : Outside cache q)
    {evs : List (Event Choice World (Task K M))} {p : HolderPool M}
    (hP : (holders_system K M cache).Along (OnlyTasks cache) ⟨[], w, ()⟩ evs)
    (hr : (holders_system K M cache).run ⟨[], w, ()⟩ evs = some p) :
    Untouched q w.tree p.notes p.state := by
  have hinv : (holders_system K M cache).Invariant _ _ (OnlyTasks cache) _ :=
    untouched_invariant (q := q) (G := fun _ => True) w.tree (fun _ _ h => ⟨h, trivial⟩)
      (fun _ _ _ h => h) (fun _ _ _ _ _ _ _ _ ha => not_touched_outside hq ha.2.1)
      (fun _ _ h => h)
  exact (hinv.run (p := ⟨[], w, ()⟩) (fun x hx => absurd hx List.not_mem_nil)
    ⟨fun n hn => absurd hn List.not_mem_nil, untouched_start q w⟩ hP hr).2.2

/-- Whatever the tasks do, what is outside the directories of the keys stays as it is, the state
file of the cache among it. -/
theorem nothing_outside_the_keys_changes (cache : DiskCache) (w : World)
    (evs : List (Event Choice World (Task K M))) (p : HolderPool M)
    (hP : (holders_system K M cache).Along (OnlyTasks cache) ⟨[], w, ()⟩ evs)
    (hr : (holders_system K M cache).run ⟨[], w, ()⟩ evs = some p) :
    (∀ q, Outside cache q → p.state.tree.node q = w.tree.node q ∧
      p.state.tree.content q = w.tree.content q) ∧
    p.state.tree.content (state_path cache.root) = w.tree.content (state_path cache.root) := by
  refine ⟨fun q hq => ?_, (outside_untouched (state_path_outside cache) hP hr).content⟩
  have hstay := outside_untouched hq hP hr
  exact ⟨hstay.node, hstay.content⟩

/-! ## What a crash leaves behind -/

/-- Tasks of all keys come, with handlers that have other temporary files. Any call may fail, the
process may crash again, and no new handler gets the name of the temporary file. -/
def Strangers (cache : DiskCache) (tmp : PathBuf) (p : HolderPool M) :
    Event Choice World (Task K M) → Prop
  | .spawn t => t.Of cache ∧ Task.tmp t ≠ some tmp
  | .call j _ => ∀ x ∈ p.next_call j, x.1 ≠ .create_file tmp
  | .crash => True
  | .outside _ => False

/-- A temporary file whose handler went down with the process is there for good: no task of a
later process changes it or removes it, and no purge removes the directory that it stands in. -/
theorem what_a_crash_leaves_stays (cache : DiskCache) (hash : CombinedHash) (x : List Char)
    (hx : IsTmp x) (d : Bytes) (w : World) (hw : w.tree.content (cache.entry hash x) = some d)
    (evs : List (Event Choice World (Task K M))) (p : HolderPool M)
    (hP : (holders_system K M cache).Along (Strangers cache (cache.entry hash x)) ⟨[], w, ()⟩ evs)
    (hr : (holders_system K M cache).run ⟨[], w, ()⟩ evs = some p) :
    p.state.tree.content (cache.entry hash x) = some d ∧
      p.state.tree.node (cache.dir hash) = some .dir := by
  have htemp : Temp cache (cache.entry hash x) := ⟨hash, x, hx, rfl⟩
  have hinv : (holders_system K M cache).Invariant _ _ (Strangers cache (cache.entry hash x)) _ :=
    untouched_invariant (q := cache.entry hash x) (G := fun n => n.tmp ≠ some (cache.entry hash x))
      w.tree (fun _ _ h => h) (fun _ _ _ h => h)
      (fun _ _ _ _ _ hP hmade hn ha => not_touched htemp ha hn (hP _ hmade)) (fun _ _ h => h)
  obtain ⟨-, -, hstay⟩ := hinv.run (p := ⟨[], w, ()⟩) (fun x hx => absurd hx List.not_mem_nil)
    ⟨fun n hn => absurd hn List.not_mem_nil, untouched_start _ w⟩ hP hr
  refine ⟨hstay.content.trans hw, ?_⟩
  obtain ⟨i, hnode⟩ := content_isSome.mp (Option.isSome_of_eq_some hw)
  have hparent := (node_parent (hstay.node.trans hnode) DiskCache.entry_ne_nil).2
  rw [DiskCache.dropLast_entry] at hparent
  exact hparent

end

/-! ## Runs on a small cache -/

section
variable {K M : Type} [CacheHashKey K] (cache : DiskCache)

instance (p : HolderPool M) :
    (ev : Event Choice World (Task K M)) → Decidable (OnlyTasks cache p ev)
  | .spawn t => inferInstanceAs (Decidable (t.Of cache))
  | .call _ _ => isTrue trivial
  | .crash => isTrue trivial
  | .outside _ => isFalse id

instance (tmp : PathBuf) (p : HolderPool M) :
    (ev : Event Choice World (Task K M)) → Decidable (Strangers cache tmp p ev)
  | .spawn t => inferInstanceAs (Decidable (t.Of cache ∧ Task.tmp t ≠ some tmp))
  | .call j _ => inferInstanceAs (Decidable (∀ x ∈ p.next_call j, x.1 ≠ .create_file tmp))
  | .crash => isTrue trivial
  | .outside _ => isFalse id

end

/-- Beside the object that stands there is the state file of an earlier process. -/
def restarted : World :=
  rewriting.2.setTree (rewriting.2.tree.put (state_path small_cache.root) [1])

/-- A purge fails to remove the metadata, the process crashes, and a later one has a miss. -/
def purge_crash_and_miss : List (Event Choice World (Task CombinedHash Note)) :=
  [.spawn (.purge small_hash .Invalidation)] ++ Event.calls 0 6 plain ++
    [.call 0 ⟨some ⟨notFound, none⟩, 0, 0⟩, .crash,
      .spawn (.get_miss_handler small_hash ⟨[8]⟩)] ++ Event.calls 0 6 ⟨none, 5, 0⟩

theorem the_state_file_stays : ∃ p,
    (holders_system CombinedHash Note small_cache).run ⟨[], restarted, ()⟩ purge_crash_and_miss =
      some p ∧
    p.state.tree.content (state_path small_cache.root) = some [1] ∧
    p.state.tree.content (small_cache.body small_hash) = none := by
  have hsome : ((holders_system CombinedHash Note small_cache).run ⟨[], restarted, ()⟩
      purge_crash_and_miss).map (fun p => p.state.tree.content (small_cache.body small_hash)) =
        some none := by decide +kernel
  obtain ⟨p, hrun, hbody⟩ := Option.map_eq_some_iff.mp hsome
  have hstate : restarted.tree.content (state_path small_cache.root) = some [1] := by decide +kernel
  obtain ⟨-, hstay⟩ := nothing_outside_the_keys_changes small_cache restarted purge_crash_and_miss p
    (by decide +kernel) hrun
  exact ⟨p, hrun, hstay.trans hstate, hbody⟩

/-- After a crash the key is purged, and a later process has a miss of it. -/
def after_a_crash : List (Event Choice World (Task CombinedHash Note)) :=
  [.spawn (.purge small_hash .Invalidation)] ++ Event.calls 0 9 plain ++
    [.spawn (.get_miss_handler small_hash ⟨[8]⟩)] ++ Event.calls 1 6 ⟨none, 5, 0⟩

theorem a_purge_after_a_crash_leaves_the_file : ∃ p,
    (holders_system CombinedHash Note small_cache).run ⟨[], rewriting.2, ()⟩ after_a_crash =
      some p ∧
    p.results.map Option.isSome = [true, true] ∧
    p.state.tree.content (small_cache.entry small_hash
      (DiskMissHandler.tmp_name small_hash.text 1 0)) = some [3] ∧
    p.state.tree.node (small_cache.dir small_hash) = some .dir := by
  have hsome : ((holders_system CombinedHash Note small_cache).run ⟨[], rewriting.2, ()⟩
      after_a_crash).isSome := by decide +kernel
  have hdone : ((holders_system CombinedHash Note small_cache).run ⟨[], rewriting.2, ()⟩
      after_a_crash).map (fun p => p.results.map Option.isSome) = some [true, true] := by
    decide +kernel
  obtain ⟨p, hrun⟩ := Option.isSome_iff_exists.mp hsome
  rw [hrun] at hdone
  obtain ⟨hcontent, hdir⟩ := what_a_crash_leaves_stays small_cache small_hash _
    (isTmp_tmp_name small_hash.text 1 0) [3] rewriting.2 (by decide +kernel) after_a_crash p
    (by decide +kernel) hrun
  exact ⟨p, hrun, Option.some.inj hdone, hcontent, hdir⟩

end edge_cdn_store.bystanders
