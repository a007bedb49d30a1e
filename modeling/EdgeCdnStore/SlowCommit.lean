-- The two ways in which a finish commits its body: by a rename, or, where the
-- rename fails, by a copy onto the body and a removal. What either way does to all
-- the contents and the metrics is followed here call by call.
import EdgeCdnStore.FinishFaults

open edge_cdn_store.programs edge_cdn_store.programs.Program edge_cdn_store.io
open edge_cdn_store.file_tree edge_cdn_store.file_tree.FileTree
open edge_cdn_store.logger edge_cdn_store.disk_cache edge_cdn_store.operations
open edge_cdn_store.finish_faults

namespace edge_cdn_store.slow_commit

/-- The rename fails with this error, if there is one, and no other call fails. -/
def commit_choice (rename : Option IoError) (e : Io) (c : Choice) : Choice :=
  match e with
  | .rename _ _ => { c with fault := rename.map fun x => ⟨x, none⟩ }
  | _ => c.calm

def committing (rename : Option IoError) : Environment Io Io.Reply Choice World :=
  fun e c w => answer e (commit_choice rename e c) w

/-- The contents and the metrics of a disk that is laid out as the cache lays it out. -/
structure Holds (cache : DiskCache) (C : Contents) (μ : CacheMetrics) (w : World) : Prop where
  laid : cache.Laid w.tree
  content : w.tree.content = C
  metrics : w.metrics = μ

variable {cache : DiskCache} {hash : CombinedHash} {w : World} {C : Contents} {μ : CacheMetrics}
  {rename : Option IoError} {n : List Char} {d : Bytes}

theorem Holds.setTree {t : FileTree (List Char) UInt8} {C' : Contents} (h : Holds cache C μ w)
    (ht : cache.Laid t) (hc : t.content = C') : Holds cache C' μ (w.setTree t) :=
  ⟨ht, hc, h.metrics⟩

theorem Holds.node_of_some {p : PathBuf} (h : Holds cache C μ w) (hd : C p = some d) :
    ∃ i, w.tree.node p = some (.file i) ∧ w.tree.data i = d := by
  rw [← h.content] at hd
  obtain ⟨i, hi⟩ := content_isSome.mp (by rw [hd]; rfl : (w.tree.content p).isSome)
  rw [content_of_file hi, Option.some.injEq] at hd
  exact ⟨i, hi, hd⟩

/-- Where one file of a key stands, the others can be made. -/
theorem Holds.canCreate {m : List Char} (h : Holds cache C μ w)
    (hm : C (cache.entry hash m) = some d) (n : List Char) :
    w.tree.CanCreate (cache.entry hash n) := by
  obtain ⟨i, hi, _⟩ := h.node_of_some hm
  refine ⟨h.laid.no_dir _ DiskCache.entry_mem_files, DiskCache.entry_ne_nil, ?_⟩
  have := (node_parent hi DiskCache.entry_ne_nil).2
  rwa [DiskCache.dropLast_entry] at this ⊢

/-! ## The calls -/

theorem create_dir_all_committing {Q : Except IoError Unit → World → Prop} (h : Holds cache C μ w)
    (hQ : ∀ r w', Holds cache C μ w' → Q r w') :
    wp (committing rename) (fun _ => True) (fs.create_dir_all (cache.dir hash)) Q w := by
  intro c _
  simp only [committing, commit_choice, answer, Choice.guard, Choice.calm]
  refine hQ _ _ (h.setTree (h.laid.mkdirs fun q hq => ?_) ?_)
  · exact DiskCache.not_mem_files_of_mem_dirs
      (DiskCache.mem_dirs_of_prefix DiskCache.dir_mem_dirs hq)
  · funext p
    rw [content_mkdirs, h.content]

/-- The temporary file moves over the body, or the rename fails and nothing moves. -/
theorem rename_committing {Q : Except IoError Unit → World → Prop} (hn : IsTmp n)
    (h : Holds cache C μ w) (hd : C (cache.entry hash n) = some d)
    (herr : ∀ e, rename = some e → Q (.error e) w)
    (hok : ∀ w', Holds cache (Function.update (Function.update C (cache.entry hash n) none)
      (cache.entry hash "body".toList) (some d)) μ w' → Q (.ok ()) w') :
    wp (committing rename) (fun _ => True)
      (fs.rename (cache.entry hash n) (cache.entry hash "body".toList)) Q w := by
  intro c _
  simp only [committing, commit_choice, answer, Choice.guard]
  cases rename with
  | some e => exact herr e rfl
  | none =>
    obtain ⟨i, hi, rfl⟩ := h.node_of_some hd
    have hcan : w.tree.CanMove (cache.entry hash n) (cache.entry hash "body".toList) :=
      ⟨(h.canCreate hd _).1, (h.canCreate hd _).2, entry_ne_of_tmp cache hn (by decide)⟩
    simp only [Option.map_none, hi, hcan, if_pos]
    refine hok _ (h.setTree (h.laid.move hi hcan DiskCache.entry_not_mem_dirs) ?_)
    rw [contents_move hi hcan, h.content]

/-- A removal whose reply nobody reads. -/
theorem remove_file_committing {Q : Except IoError Unit → World → Prop} (h : Holds cache C μ w)
    (hQ : ∀ r w', Holds cache (Function.update C (cache.entry hash n) none) μ w' → Q r w') :
    wp (committing rename) (fun _ => True) (fs.remove_file (cache.entry hash n)) Q w := by
  intro c _
  simp only [committing, commit_choice, answer, Choice.guard, Choice.calm]
  rcases h.laid.node_cases (p := cache.entry hash n) DiskCache.entry_mem_files with hp | ⟨i, hp⟩
  · rw [hp]
    refine hQ _ w ⟨h.laid, ?_, h.metrics⟩
    rw [Function.eq_update_iff, h.content]
    refine ⟨?_, fun _ _ => rfl⟩
    rw [← h.content]
    exact content_eq_none_of_node hp
  · rw [hp]
    refine hQ _ _ (h.setTree (h.laid.remove _) ?_)
    rw [contents_remove hp, h.content]

theorem write_committing {Q : Except IoError Unit → World → Prop} {b : Bytes}
    (h : Holds cache C μ w) (hb : C (cache.entry hash "body".toList) = some b)
    (hQ : ∀ w', Holds cache (Function.update C (cache.entry hash n) (some d)) μ w' →
      Q (.ok ()) w') :
    wp (committing rename) (fun _ => True) (fs.write (cache.entry hash n) d) Q w := by
  intro c _
  have hcan := h.canCreate hb n
  simp only [committing, commit_choice, answer, Choice.calm, hcan, if_pos]
  refine hQ _ (h.setTree (h.laid.put hcan DiskCache.entry_not_mem_dirs d) ?_)
  rw [contents_put hcan, h.content]

/-! ## The copy -/

/-- A copy on its way to the body. -/
structure Fills (cache : DiskCache) (hash : CombinedHash) (C : Contents) (μ : CacheMetrics)
    (src dst i j : Nat) (d : Bytes) (k : Nat) (w : World) : Prop where
  pours : Pours src dst i j d k w
  holds : Holds cache (Function.update C (cache.entry hash "body".toList) (some (d.take k))) μ w
  at_body : w.tree.node (cache.entry hash "body".toList) = some (.file j)

section
variable {src dst i j k : Nat}

theorem Fills.transfer (h : Fills cache hash C μ src dst i j d k w) (m : Nat) :
    Fills cache hash C μ src dst i j d (k + ((d.drop k).take m).length) (w.transfer src dst m) := by
  obtain ⟨hp, htree, hmetrics⟩ := h.pours.transfer m
  refine ⟨hp, ⟨?_, ?_, hmetrics.trans h.holds.metrics⟩, ?_⟩
  · rw [htree]
    exact h.holds.laid.setData j _
  · rw [htree, contents_setData h.at_body, h.holds.content, Function.update_idem]
  · rw [htree]
    exact h.at_body

/-- The rounds of a copy, however many there are and however much each of them moves, fill the
body with all of the file. -/
theorem copy_loop_committing {Q : Except IoError Unit → World → Prop} (m : Nat)
    (h : Fills cache hash C μ src dst i j d k w)
    (hQ : ∀ w', Holds cache (Function.update C (cache.entry hash "body".toList) (some d)) μ w' →
      Q (.ok ()) w') :
    wp (committing rename) (fun _ => True) (copy_loop src dst m) Q w := by
  induction m generalizing k w with
  | zero =>
    intro c _
    have hall : k + ((d.drop k).take (w.rest src).length).length = d.length := by
      have hrest : w.rest src = d.drop k := by
        simp only [World.rest, h.pours.src_file, h.pours.data]
      have hle := h.pours.le
      rw [hrest, List.take_length, List.length_drop]
      omega
    have hlast := (h.transfer (w.rest src).length).holds
    rw [hall, List.take_length] at hlast
    exact hQ _ hlast
  | succ m ih =>
    unfold copy_loop
    rw [wp_bind]
    intro c _
    exact ih (h.transfer c.amount)

/-- The body is created or emptied while the temporary file is open. -/
theorem Holds.fills (h : Holds cache C μ w) (hn : IsTmp n)
    (hi : w.tree.node (cache.entry hash n) = some (.file i))
    (hcan : w.tree.CanCreate (cache.entry hash "body".toList))
    (hj : (w.tree.create (cache.entry hash "body".toList)).node (cache.entry hash "body".toList) =
      some (.file j)) :
    Fills cache hash C μ w.opened (w.opened + 1) i j (w.tree.data i) 0
      (((w.openIno i).setTree (w.tree.create (cache.entry hash "body".toList))).openIno j) := by
  have hne : cache.entry hash n ≠ cache.entry hash "body".toList :=
    entry_ne_of_tmp cache hn (by decide)
  have hi' : (w.tree.create (cache.entry hash "body".toList)).node (cache.entry hash n) =
      some (.file i) := by
    rw [node_create hcan, if_neg hne, hi]
  have hnew : (w.tree.create (cache.entry hash "body".toList)).data j = [] := by
    have := content_create hcan (cache.entry hash "body".toList)
    rwa [if_pos rfl, content_of_file hj, Option.some.injEq] at this
  refine ⟨⟨?_, ?_, ?_, ?_, ?_, hnew, Nat.zero_le _⟩, ⟨?_, ?_, h.metrics⟩, hj⟩
  · simp [World.openIno, World.setTree]
  · simp [World.openIno, World.setTree]
  · simp
  · rintro rfl
    exact hne ((w.tree.create _).sound.single _ _ _ hi' hj)
  · refine data_create_of_ne (w.tree.sound.below _ _ hi) fun hb => ?_
    exact hne (w.tree.sound.single _ _ _ hi hb)
  · exact h.laid.create hcan DiskCache.entry_not_mem_dirs
  · change (w.tree.create _).content = _
    rw [contents_create hcan, h.content]
    rfl

/-- The whole of the manual transfer: the temporary file has gone to the body. -/
theorem transfer_committing {Q : Result Unit → World → Prop} {m : DiskMissHandler} (hn : IsTmp n)
    (ht : m.tmp_path = cache.entry hash n) (hb : m.body_path = cache.entry hash "body".toList)
    (h : Holds cache C μ w) (hd : C (cache.entry hash n) = some d)
    (hQ : ∀ w', Holds cache (Function.update (Function.update C (cache.entry hash n) none)
      (cache.entry hash "body".toList) (some d)) μ w' → Q (.ok ()) w') :
    wp (committing rename) (fun _ => True) m.transfer Q w := by
  obtain ⟨i, hi, rfl⟩ := h.node_of_some hd
  have hcan := h.canCreate hd "body".toList
  obtain ⟨j, hj, _⟩ := node_create_self hcan
  unfold DiskMissHandler.transfer
  simp only [ht, hb]
  rw [wp_bind]
  refine (wp_perform (Io.open_file _) _ _).mpr fun c _ => ?_
  simp only [committing, commit_choice, answer, Choice.guard, Choice.calm, hi]
  rw [wp_bind]
  refine (wp_perform (Io.create_file _) _ _).mpr fun c _ => ?_
  have hcan' : (w.openIno i).tree.CanCreate (cache.entry hash "body".toList) := hcan
  have hj' : ((w.openIno i).tree.create (cache.entry hash "body".toList)).node
      (cache.entry hash "body".toList) = some (.file j) := hj
  simp only [committing, commit_choice, answer, Choice.guard, Choice.calm, hcan', if_pos, hj']
  rw [wp_bind]
  unfold copy
  rw [wp_bind]
  refine (wp_perform Io.copy_rounds _ _).mpr fun c _ => ?_
  refine copy_loop_committing _ (h.fills hn hi hcan hj) fun w1 h1 => ?_
  simp only
  rw [wp_bind]
  refine remove_file_committing h1 fun _ w2 h2 => ?_
  apply hQ
  rwa [Function.update_comm (entry_ne_of_tmp cache hn (by decide)).symm] at h2

end

/-! ## The whole finish -/

/-- The contents after a commit of the body `d`. -/
def committed (cache : DiskCache) (hash : CombinedHash) (m : DiskMissHandler) (d : Bytes)
    (C : Contents) : Contents :=
  withFiles cache hash (Function.update C m.tmp_path none) (some d) (some m.meta_internal)
    (some m.meta_header)

/-- A finish with a temporary file commits what that holds, whether the rename fails or not. -/
theorem finish_committing (rename : Option IoError) {m : DiskMissHandler} (hm : m.Of cache hash)
    (h : Holds cache C μ w) (hd : C m.tmp_path = some d) :
    wp (committing rename) (fun _ => True) m.finish (fun r w' =>
      r = .ok (.Created m.tmp_bytes_written) ∧
      Holds cache (committed cache hash m d C) ((μ.inc_by .inserts 1).add m.tmp_bytes_written) w')
      w := by
  obtain ⟨n, hn, ht⟩ := hm.tmp_path
  unfold committed
  rw [ht] at hd ⊢
  -- the metadata, the metrics and the drop come after either way
  have hrest : ∀ w1, Holds cache (Function.update (Function.update C (cache.entry hash n) none)
        (cache.entry hash "body".toList) (some d)) μ w1 →
      wp (committing rename) (fun _ => True) (m.write_meta_parts >>= fun result =>
        m.drop >>= fun _ => pure result) (fun r w' => r = .ok (.Created m.tmp_bytes_written) ∧
          Holds cache (withFiles cache hash (Function.update C (cache.entry hash n) none) (some d)
            (some m.meta_internal) (some m.meta_header))
            ((μ.inc_by .inserts 1).add m.tmp_bytes_written) w') w1 := by
    intro w1 h1
    unfold DiskMissHandler.write_meta_parts DiskMissHandler.drop
    simp only [hm.meta_path, hm.hdr_path, ht]
    rw [wp_bind, wp_bind]
    refine write_committing h1 (Function.update_self ..) fun w2 h2 => ?_
    simp only
    rw [wp_bind]
    have hbody : (Function.update (Function.update (Function.update C (cache.entry hash n) none)
        (cache.entry hash "body".toList) (some d)) (cache.entry hash "meta".toList)
        (some m.meta_internal)) (cache.entry hash "body".toList) = some d := by
      rw [Function.update_of_ne, Function.update_self]
      exact DiskCache.entry_ne (by decide)
    refine write_committing h2 hbody fun w3 h3 => ?_
    simp only
    rw [wp_bind]
    refine (wp_perform (Io.inc_by _ _) _ _).mpr fun c _ => ?_
    rw [wp_bind]
    refine (wp_perform (Io.size_bytes_add _) _ _).mpr fun c _ => ?_
    rw [wp_pure, wp_bind, wp_bind]
    have h4 : Holds cache _ ((μ.inc_by .inserts 1).add m.tmp_bytes_written)
        ((w3.setMetrics (w3.metrics.inc_by .inserts 1)).setMetrics
          ((w3.metrics.inc_by .inserts 1).add m.tmp_bytes_written)) :=
      ⟨h3.laid, h3.content, by rw [← h3.metrics]; rfl⟩
    refine remove_file_committing h4 fun _ w5 h5 => ⟨rfl, ?_⟩
    have hdrop := withFiles_without_tmp cache hash C hn (some d) (some m.meta_internal)
      (some m.meta_header)
    rw [withFiles] at hdrop
    rwa [hdrop] at h5
  unfold DiskMissHandler.finish DiskMissHandler.promote
  simp only [hm.dir, hm.body_path, ht]
  rw [wp_bind]
  refine create_dir_all_committing h fun _ w1 h1 => ?_
  rw [wp_bind, wp_bind]
  refine rename_committing hn h1 hd (fun e he => ?_) fun w2 h2 => ?_
  · exact transfer_committing hn ht hm.body_path h1 hd fun w2 h2 => hrest w2 h2
  · exact hrest w2 h2

/-- Every run of a finish with a temporary file ends in the same way. -/
theorem finish_run {m : DiskMissHandler} {cs : List Choice} {r : Result MissFinishType} {w' : World}
    (hm : m.Of cache hash) (hw : cache.Laid w.tree) (hd : w.tree.content m.tmp_path = some d)
    (hrun : run (committing rename) m.finish cs w = some (r, w')) :
    r = .ok (.Created m.tmp_bytes_written) ∧
      w'.tree.content = committed cache hash m d w.tree.content ∧
      w'.metrics = (w.metrics.inc_by .inserts 1).add m.tmp_bytes_written := by
  obtain ⟨hr, h⟩ := run_sound hrun (fun _ _ => trivial)
    (finish_committing rename hm ⟨hw, rfl, rfl⟩ hd)
  exact ⟨hr, h.content, h.metrics⟩

/-- A finish whose rename fails, and nothing else, ends as one whose rename succeeds: with the same
result, the same contents under every path, no temporary file, and the same metrics. The copy may
split the bytes in any way, and the key may hold any body or none before. -/
theorem the_slow_commit_agrees_with_the_fast_one (cache : DiskCache) (hash : CombinedHash)
    (m : DiskMissHandler) (hm : m.Of cache hash) (w : World) (hw : cache.Laid w.tree) (d : Bytes)
    (hd : w.tree.content m.tmp_path = some d) (hlen : m.tmp_bytes_written = d.length)
    (x : IoError) (cs cs' : List Choice) (r r' : Result MissFinishType) (w1 w2 : World)
    (hslow : run (committing (some x)) m.finish cs w = some (r, w1))
    (hfast : run (committing none) m.finish cs' w = some (r', w2)) :
    r = r' ∧ r = .ok (.Created d.length) ∧ w1.metrics = w2.metrics ∧
    (∀ p, w1.tree.content p = w2.tree.content p) ∧
    files_of cache w1 hash = ⟨some d, some m.meta_internal, some m.meta_header⟩ ∧
    w1.tree.content m.tmp_path = none := by
  obtain ⟨hr, hcontent, hmetrics⟩ := finish_run hm hw hd hslow
  obtain ⟨hr', hcontent', hmetrics'⟩ := finish_run hm hw hd hfast
  refine ⟨hr.trans hr'.symm, hlen ▸ hr, hmetrics.trans hmetrics'.symm, fun p => ?_, ?_, ?_⟩
  · rw [hcontent, hcontent']
  · simp only [files_of, hcontent, committed, DiskCache.body_eq, DiskCache.meta_part_eq,
      DiskCache.hdr_eq, withFiles_body, withFiles_meta, withFiles_hdr]
  · obtain ⟨n, hn, ht⟩ := hm.tmp_path
    rw [hcontent, committed, ht, withFiles_tmp _ _ _ hn, Function.update_self]

/-- The choices of a slow commit that copies in two rounds. -/
def two_rounds : List Choice := List.replicate 4 plain ++ [⟨none, 0, 1⟩] ++ List.replicate 8 plain

theorem a_slow_commit_in_two_rounds_agrees :
    ∃ r r' w1 w2,
      run (committing (some ioFault)) (small_handler [9] 1).finish two_rounds rewriting.2 =
        some (r, w1) ∧
      run (committing none) (small_handler [9] 1).finish (List.replicate 7 plain) rewriting.2 =
        some (r', w2) ∧
      r = r' ∧ w1.metrics = w2.metrics ∧ ∀ p, w1.tree.content p = w2.tree.content p := by
  obtain ⟨⟨r, w1⟩, hslow⟩ := Option.isSome_iff_exists.mp (by decide +kernel :
    (run (committing (some ioFault)) (small_handler [9] 1).finish two_rounds rewriting.2).isSome)
  obtain ⟨⟨r', w2⟩, hfast⟩ := Option.isSome_iff_exists.mp (by decide +kernel :
    (run (committing none) (small_handler [9] 1).finish (List.replicate 7 plain)
      rewriting.2).isSome)
  obtain ⟨hr, _, hmetrics, hcontent, _⟩ := the_slow_commit_agrees_with_the_fast_one small_cache
    small_hash (small_handler [9] 1) (small_handler_of _ _) rewriting.2 rewriting_laid [3]
    (by decide +kernel) rfl ioFault _ _ _ _ _ _ hslow hfast
  exact ⟨r, r', w1, w2, hslow, hfast, hr, hmetrics, hcontent⟩

end edge_cdn_store.slow_commit
