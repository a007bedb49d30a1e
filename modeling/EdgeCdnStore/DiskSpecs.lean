-- What each operation of the disk cache does when no call of it fails: which
-- contents it changes, what the gauge gains, and what it returns.
import EdgeCdnStore.CalmCalls

open edge_cdn_store.programs edge_cdn_store.programs.Program edge_cdn_store.io
open edge_cdn_store.logger edge_cdn_store.file_tree edge_cdn_store.file_tree.FileTree

namespace edge_cdn_store.disk_cache

variable {K M : Type} [CacheHashKey K] [CacheMeta M]
variable {cache : DiskCache} {w0 w : World} {C : Contents} {g : Int} {hash : CombinedHash}

/-! ## What an operation makes of the contents -/

/-- The contents with the three files of a key as given: the body, the metadata and the
header. -/
def withFiles (cache : DiskCache) (hash : CombinedHash) (C : Contents) (b m h : Option Bytes) :
    Contents :=
  Function.update (Function.update (Function.update C (cache.entry hash "body".toList) b)
    (cache.entry hash "meta".toList) m) (cache.entry hash "hdr".toList) h

theorem entry_ne_of_tmp (cache : DiskCache) {hash hash' : CombinedHash} {n m : List Char}
    (hn : IsTmp n) (hm : '-' ∉ m) : cache.entry hash n ≠ cache.entry hash' m :=
  DiskCache.entry_ne (hn.ne hm)

section
variable (b m h : Option Bytes)

theorem withFiles_tmp {hash' : CombinedHash} {n : List Char} (hn : IsTmp n) :
    withFiles cache hash C b m h (cache.entry hash' n) = C (cache.entry hash' n) := by
  simp only [withFiles]
  rw [Function.update_of_ne (entry_ne_of_tmp cache hn (by decide)),
    Function.update_of_ne (entry_ne_of_tmp cache hn (by decide)),
    Function.update_of_ne (entry_ne_of_tmp cache hn (by decide))]

theorem withFiles_of_ne {hash' : CombinedHash} (hne : hash' ≠ hash) (n : List Char) :
    withFiles cache hash C b m h (cache.entry hash' n) = C (cache.entry hash' n) := by
  have he : ∀ n', cache.entry hash' n ≠ cache.entry hash n' :=
    fun n' => DiskCache.entry_ne_of_hash hne
  simp only [withFiles]
  rw [Function.update_of_ne (he _), Function.update_of_ne (he _), Function.update_of_ne (he _)]

theorem withFiles_body :
    withFiles cache hash C b m h (cache.entry hash "body".toList) = b := by
  have he : ∀ n', "body".toList ≠ n' →
      cache.entry hash "body".toList ≠ cache.entry hash n' :=
    fun n' hn => DiskCache.entry_ne hn
  simp only [withFiles]
  rw [Function.update_of_ne (he _ (by decide)), Function.update_of_ne (he _ (by decide)),
    Function.update_self]

theorem withFiles_meta :
    withFiles cache hash C b m h (cache.entry hash "meta".toList) = m := by
  have he : cache.entry hash "meta".toList ≠ cache.entry hash "hdr".toList :=
    DiskCache.entry_ne (by decide)
  simp only [withFiles]
  rw [Function.update_of_ne he, Function.update_self]

theorem withFiles_hdr :
    withFiles cache hash C b m h (cache.entry hash "hdr".toList) = h :=
  Function.update_self ..

end

/-- A temporary file that is gone stays gone when the three files are stored. -/
theorem withFiles_without_tmp (cache : DiskCache) (hash : CombinedHash) (C : Contents)
    {n : List Char} (hn : IsTmp n) (b m h : Option Bytes) :
    Function.update (withFiles cache hash (Function.update C (cache.entry hash n) none) b m h)
      (cache.entry hash n) none =
    withFiles cache hash (Function.update C (cache.entry hash n) none) b m h := by
  rw [Function.update_eq_self_iff, withFiles_tmp b m h hn, Function.update_self]

/-! ## The handler of a miss -/

theorem tmp_mem_files {m : DiskMissHandler} (hm : m.Of cache hash) : m.tmp_path ∈ cache.files := by
  obtain ⟨n, _, h⟩ := hm.tmp_path
  exact h ▸ DiskCache.entry_mem_files

theorem tmp_not_mem_bodies {m : DiskMissHandler} (hm : m.Of cache hash) :
    m.tmp_path ∉ cache.bodies := by
  obtain ⟨n, hn, h⟩ := hm.tmp_path
  rw [h, DiskCache.entry_mem_bodies]
  exact hn.ne (by decide)

theorem get_miss_handler_spec {Q : Result DiskMissHandler → World → Prop}
    (l : Leads cache w0 w C g) (key : K) (cache_meta : M)
    (herr : ∀ e w', CacheMeta.serialize cache_meta = .error e → Leads cache w0 w' C g →
      Q (.error e) w')
    (hok : ∀ mi mh m w', CacheMeta.serialize cache_meta = .ok (mi, mh) →
      m.Of cache (CacheHashKey.combined key) → m.tmp_bytes_written = 0 →
      m.meta_internal = mi → m.meta_header = mh →
      Leads cache w0 w' (Function.update C m.tmp_path (some [])) g → Q (.ok m) w') :
    wp answer Calm (cache.get_miss_handler key cache_meta) Q w := by
  simp only [DiskCache.get_miss_handler, DiskCache.path_from_key, DiskCache.path_from_hash, wp_bind]
  refine inc_spec l .misses fun w1 l1 _ _ _ => ?_
  cases hs : CacheMeta.serialize cache_meta with
  | error e => exact herr e _ hs l1
  | ok parts =>
    obtain ⟨mi, mh⟩ := parts
    simp only [DiskMissHandler.create_tmp, wp_bind]
    refine create_dir_all_spec l1 DiskCache.dir_mem_dirs fun w2 l2 _ _ _ => ?_
    -- the clock and the process number change nothing
    intro c _ c' _
    have hdrop : ∀ n, (cache.dir (CacheHashKey.combined key) ++ [n]).dropLast =
        cache.dir (CacheHashKey.combined key) := fun n => DiskCache.dropLast_entry
    simp only [hdrop]
    refine create_dir_all_spec l2 DiskCache.dir_mem_dirs fun w3 l3 hd _ _ => ?_
    have hn := isTmp_tmp_name (CacheHashKey.combined key).text w2.pid c.now.toNat
    refine create_spec (p := cache.entry _ _) l3 DiskCache.entry_mem_files ?_
      ⟨DiskCache.entry_ne_nil, by rw [DiskCache.dropLast_entry]; exact hd⟩ fun f w4 l4 => ?_
    · rw [DiskCache.entry_mem_bodies]
      exact hn.ne (by decide)
    · exact hok mi mh _ w4 hs ⟨rfl, rfl, rfl, rfl, _, hn, rfl⟩ rfl rfl rfl l4

theorem write_body_spec {Q : Result Unit × DiskMissHandler → World → Prop} {m : DiskMissHandler}
    (l : Leads cache w0 w C g) (hm : m.Of cache hash) (data : Bytes) (is_eof : Bool)
    (hnone : C m.tmp_path = none → ∀ e, Q (.error e, m) w)
    (hsome : ∀ d w', C m.tmp_path = some d →
      Leads cache w0 w' (Function.update C m.tmp_path (some (d ++ data))) g →
      Q (.ok (), { m with tmp_bytes_written := m.tmp_bytes_written + data.length }) w') :
    wp answer Calm (m.write_body data is_eof) Q w := by
  simp only [DiskMissHandler.write_body, wp_bind]
  refine open_append_spec l (tmp_mem_files hm) (fun hn e => hnone hn _) fun i d hd hi _ => ?_
  simp only [wp_bind]
  have hf : (w.openIno i).tree.node m.tmp_path = some (.file ((w.openIno i).files w.opened).ino) := by
    simp [World.openIno, hi]
  refine write_all_spec (l.openIno i) (tmp_not_mem_bodies hm) hf hd fun w' l' => ?_
  cases is_eof with
  | false => exact hsome d w' hd l'
  | true =>
    simp only [if_pos, wp_bind]
    exact flush_spec (hsome d w' hd l')

theorem drop_spec {Q : Unit → World → Prop} {m : DiskMissHandler} (l : Leads cache w0 w C g)
    (hm : m.Of cache hash)
    (h : ∀ w', Leads cache w0 w' (Function.update C m.tmp_path none) g → Q () w') :
    wp answer Calm m.drop Q w := by
  simp only [DiskMissHandler.drop, wp_bind]
  exact remove_file_ignored_spec l (tmp_mem_files hm) fun _ w' l' => h w' l'

/-- The bytes that the temporary file holds become the body, the metadata goes beside it,
and the gauge gains what the handler counted. Without a temporary file nothing changes. -/
theorem finish_spec {Q : Result MissFinishType → World → Prop} {m : DiskMissHandler}
    (l : Leads cache w0 w C g) (hm : m.Of cache hash)
    (hnone : ∀ e w', C m.tmp_path = none → Leads cache w0 w' C g → Q (.error e) w')
    (hsome : ∀ d w', C m.tmp_path = some d →
      Leads cache w0 w' (withFiles cache hash (Function.update C m.tmp_path none) (some d)
        (some m.meta_internal) (some m.meta_header)) (g + m.tmp_bytes_written) →
      Q (.ok (.Created m.tmp_bytes_written)) w') :
    wp answer Calm m.finish Q w := by
  obtain ⟨n, hn, ht⟩ := hm.tmp_path
  rw [ht] at hnone hsome
  simp only [DiskMissHandler.finish, DiskMissHandler.promote, DiskMissHandler.drop, wp_bind, ht,
    hm.dir, hm.body_path]
  refine create_dir_all_spec l DiskCache.dir_mem_dirs fun w1 l1 _ _ _ => ?_
  refine rename_spec l1 hn (fun hC e => ?_) fun d w2 hC l2 => ?_
  · simp only [DiskMissHandler.transfer, wp_bind, ht]
    refine open_read_spec l1 DiskCache.entry_mem_files (fun _ e' => ?_) fun i d hd => ?_
    · simp only [trace_fn_exit_with_err, e_explain, wp_pure, wp_bind]
      refine remove_file_ignored_spec l1 DiskCache.entry_mem_files fun _ w3 l3 => ?_
      rw [Function.update_eq_self_iff.mpr hC.symm] at l3
      exact hnone _ w3 hC l3
    · rw [hC] at hd
      cases hd
  · have hC2 : ∀ X : Contents, Function.update X (cache.entry hash "body".toList) (some d)
        (cache.entry hash "body".toList) = some d := fun X => Function.update_self ..
    simp only [DiskMissHandler.write_meta_parts, wp_bind, wp_pure, hm.meta_path, hm.hdr_path]
    refine write_spec l2 DiskCache.entry_mem_files DiskCache.meta_not_mem_bodies
      (l2.hasParent (hC2 _)) fun w3 l3 => ?_
    simp only [wp_bind]
    refine write_spec l3 DiskCache.entry_mem_files DiskCache.hdr_not_mem_bodies
      (l3.hasParent (Function.update_self ..)) fun w4 l4 => ?_
    simp only [wp_bind]
    refine inc_spec l4 .inserts fun w5 l5 _ _ _ => ?_
    refine size_bytes_add_spec l5 _ fun w6 l6 => ?_
    refine remove_file_ignored_spec l6 DiskCache.entry_mem_files fun _ w7 l7 => ?_
    have := withFiles_without_tmp cache hash C hn (some d) (some m.meta_internal)
      (some m.meta_header)
    exact hsome d w7 hC (by rw [withFiles] at this; rwa [this] at l7)

/-! ## The storage -/

/-- The gauge loses the length of the body, when there is one, and the three files go. -/
theorem purge_spec {Q : Result Bool → World → Prop} (l : Leads cache w0 w C g) (key : K)
    (purge_type : PurgeType)
    (h : ∀ w', Leads cache w0 w' (withFiles cache (CacheHashKey.combined key) C none none none)
        (g - ((C (cache.entry (CacheHashKey.combined key) "body".toList)).map List.length).getD 0) →
      Q (.ok (C (cache.entry (CacheHashKey.combined key) "body".toList)).isSome) w') :
    wp answer Calm (cache.purge key purge_type) Q w := by
  -- what is left to do once the body is gone
  have hrest : ∀ (w1 : World) (g' : Int) (r : Result Bool),
      Leads cache w0 w1 (Function.update C
        (cache.entry (CacheHashKey.combined key) "body".toList) none) g' →
      (∀ w', Leads cache w0 w' (withFiles cache (CacheHashKey.combined key) C none none none) g' → Q r w') →
      wp answer Calm (DiskCache.purge_rest (cache.dir (CacheHashKey.combined key))
        (cache.meta_part (CacheHashKey.combined key)) (cache.hdr (CacheHashKey.combined key)) >>=
          fun _ => pure r) Q w1 := by
    intro w1 g' r l1 hQ
    simp only [DiskCache.purge_rest, wp_bind, wp_pure, DiskCache.meta_part_eq, DiskCache.hdr_eq]
    refine remove_file_ignored_spec l1 DiskCache.entry_mem_files fun _ w2 l2 => ?_
    refine remove_file_ignored_spec l2 DiskCache.entry_mem_files fun _ w3 l3 => ?_
    exact remove_dir_spec l3 fun _ w4 l4 => hQ w4 l4
  simp only [DiskCache.purge, DiskCache.path_from_key, DiskCache.path_from_hash]
  rw [wp_bind]
  refine inc_spec l .purge_attempts fun w1 l1 _ _ _ => ?_
  rw [wp_bind, DiskCache.body_eq]
  cases hC : C (cache.entry (CacheHashKey.combined key) "body".toList) with
  | none =>
    rw [hC] at h
    refine metadata_spec l1 DiskCache.entry_mem_files (fun _ e => ?_) fun d hd => ?_
    · rw [wp_bind]
      refine remove_file_spec l1 DiskCache.entry_mem_files (fun _ e => ?_) fun d w2 hd => ?_
      · refine hrest w1 g _ ?_ fun w' l' => h w' (by simpa using l')
        rwa [Function.update_eq_self_iff.mpr hC.symm]
      · rw [hC] at hd
        cases hd
    · rw [hC] at hd
      cases hd
  | some d =>
    rw [hC] at h
    refine metadata_spec l1 DiskCache.entry_mem_files (fun hn => ?_) fun d' hd => ?_
    · rw [hC] at hn
      cases hn
    · obtain rfl : d = d' := by rw [hC] at hd; cases hd; rfl
      rw [wp_bind]
      refine remove_file_spec l1 DiskCache.entry_mem_files (fun hn => ?_) fun _ w2 _ l2 => ?_
      · rw [hC] at hn
        cases hn
      · simp only [wp_bind]
        refine inc_spec l2 .evictions fun w3 l3 _ _ _ => ?_
        refine inc_by_spec l3 .evicted_bytes _ fun w4 l4 _ _ _ => ?_
        refine size_bytes_sub_spec l4 _ fun w5 l5 => ?_
        have := hrest w5 _ (.ok true) l5 h
        rwa [wp_bind] at this

theorem update_meta_spec {Q : Result Bool → World → Prop} (l : Leads cache w0 w C g) (key : K)
    (cache_meta : M)
    (hnone : C (cache.entry (CacheHashKey.combined key) "body".toList) = none → Q (.ok false) w)
    (herr : ∀ d e, C (cache.entry (CacheHashKey.combined key) "body".toList) = some d →
      CacheMeta.serialize cache_meta = .error e → Q (.error e) w)
    (hok : ∀ d mi mh w', C (cache.entry (CacheHashKey.combined key) "body".toList) = some d →
      CacheMeta.serialize cache_meta = .ok (mi, mh) →
      Leads cache w0 w' (withFiles cache (CacheHashKey.combined key) C (some d) (some mi) (some mh)) g →
      Q (.ok true) w') :
    wp answer Calm (cache.update_meta key cache_meta) Q w := by
  simp only [DiskCache.update_meta, DiskCache.path_from_key, DiskCache.path_from_hash, wp_bind,
    DiskCache.body_eq]
  refine path_exists_spec l DiskCache.entry_mem_files ?_
  cases hC : C (cache.entry (CacheHashKey.combined key) "body".toList) with
  | none => simpa using hnone hC
  | some d =>
    simp only [Option.isSome_some, if_pos]
    cases hs : CacheMeta.serialize cache_meta with
    | error e => exact herr d e hC hs
    | ok parts =>
      obtain ⟨mi, mh⟩ := parts
      simp only [wp_bind, DiskCache.meta_part_eq, DiskCache.hdr_eq]
      refine write_spec l DiskCache.entry_mem_files DiskCache.meta_not_mem_bodies
        (l.hasParent hC) fun w1 l1 => ?_
      simp only [wp_bind]
      exact write_spec l1 DiskCache.entry_mem_files DiskCache.hdr_not_mem_bodies
        (l1.hasParent (Function.update_self ..)) fun w2 l2 =>
          hok d mi mh w2 hC hs (by rwa [withFiles, ← hC, Function.update_eq_self])

/-- What an open of the body gives, and where it leads. -/
def Opened (C : Contents) (p : PathBuf) (w w' : World) (r : Except IoError Nat) : Prop :=
  (C p = none ∧ (∃ e, r = .error e) ∧ w' = w) ∨
  (∃ i d, C p = some d ∧ w.tree.node p = some (.file i) ∧ w.tree.data i = d ∧
    r = .ok w.opened ∧ w' = w.openIno i)

/-- The three reads of a lookup, in any order. -/
theorem reads_spec {Q : Except IoError Bytes × Except IoError Bytes × Except IoError Nat →
      World → Prop} {p q r : PathBuf} (l : Leads cache w0 w C g) (hr : r ∈ cache.files)
    (h : ∀ x y z w', x.toOption = C p → y.toOption = C q → Opened C r w w' z →
      Leads cache w0 w' C g → Q (x, y, z) w') :
    wp answer Calm (join3 (fs.read p) (fs.read q) (File.open_read r)) Q w := by
  have hread : ∀ {w1 : World} {p' : PathBuf} {Q' : Except IoError Bytes → World → Prop},
      Leads cache w0 w1 C g → (∀ x, x.toOption = C p' → Q' x w1) →
      wp answer Calm (fs.read p') Q' w1 := fun l1 hQ =>
    read_spec l1 (fun hn e => hQ _ hn.symm) (fun d hd => hQ _ hd.symm)
  have hopen : ∀ {Q' : Except IoError Nat → World → Prop},
      (∀ z w', Opened C r w w' z → Leads cache w0 w' C g → Q' z w') →
      wp answer Calm (File.open_read r) Q' w := fun hQ =>
    open_read_spec l hr (fun hn e => hQ _ _ (Or.inl ⟨hn, ⟨e, rfl⟩, rfl⟩) l)
      (fun i d hd hi hdata => hQ _ _ (Or.inr ⟨i, d, hd, hi, hdata, rfl, rfl⟩) (l.openIno i))
  rw [join3, wp_bind]
  refine (wp_perform Io.join_order _ _).mpr fun c _ => ?_
  split <;> simp only [wp_bind, wp_pure]
  · exact hread l fun x hx => hread l fun y hy => hopen fun z w' hz l' => h x y z w' hx hy hz l'
  · exact hread l fun x hx => hopen fun z w' hz l' => hread l' fun y hy => h x y z w' hx hy hz l'
  · exact hread l fun y hy => hread l fun x hx => hopen fun z w' hz l' => h x y z w' hx hy hz l'
  · exact hread l fun y hy => hopen fun z w' hz l' => hread l' fun x hx => h x y z w' hx hy hz l'
  · exact hopen fun z w' hz l' => hread l' fun x hx => hread l' fun y hy => h x y z w' hx hy hz l'
  · exact hopen fun z w' hz l' => hread l' fun y hy => hread l' fun x hx => h x y z w' hx hy hz l'

/-- A new handler of a hit, at the start of a body that it has open. -/
structure DiskHitHandler.Fresh (cache : DiskCache) (hash : CombinedHash) (w : World) (d : Bytes)
    (hit : DiskHitHandler) : Prop where
  file_lt : hit.file < w.opened
  at_body : w.tree.node (cache.entry hash "body".toList) = some (.file (w.files hit.file).ino)
  data : w.tree.data (w.files hit.file).ino = d
  cursor : (w.files hit.file).pos = 0
  values : hit = ⟨hit.file, d.length, 0, d.length, 0, false, DEFAULT_READ_BUFFER_SIZE⟩

theorem lookup_spec {Q : Result (Option (M × DiskHitHandler)) → World → Prop}
    (l : Leads cache w0 w C g) (key : K)
    (hmiss : ∀ w', (C (cache.entry (CacheHashKey.combined key) "body".toList) = none ∨
        C (cache.entry (CacheHashKey.combined key) "meta".toList) = none ∨
        C (cache.entry (CacheHashKey.combined key) "hdr".toList) = none) →
      Leads cache w0 w' C g → Q (.ok none) w')
    (hhit : ∀ d mi mh w', C (cache.entry (CacheHashKey.combined key) "body".toList) = some d →
      C (cache.entry (CacheHashKey.combined key) "meta".toList) = some mi →
      C (cache.entry (CacheHashKey.combined key) "hdr".toList) = some mh →
      Leads cache w0 w' C g →
      (∀ e, CacheMeta.deserialize (M := M) mi mh = .error e → Q (.error e) w') ∧
      (∀ (cache_meta : M) (hit : DiskHitHandler), CacheMeta.deserialize mi mh = .ok cache_meta →
        hit.Fresh cache (CacheHashKey.combined key) w' d → w.opened ≤ hit.file →
        Q (.ok (some (cache_meta, hit))) w')) :
    wp answer Calm (cache.lookup key) Q w := by
  simp only [DiskCache.lookup, DiskCache.path_from_key, DiskCache.path_from_hash]
  rw [wp_bind]
  refine create_dir_all_spec l (DiskCache.root_mem_dirs cache (CacheHashKey.combined key))
    fun w1 l1 _ ho1 _ => ?_
  simp only [wp_bind]
  refine reads_spec l1 DiskCache.entry_mem_files fun x y z w2 hx hy hz l2 => ?_
  rw [DiskCache.meta_part_eq] at hx
  rw [DiskCache.hdr_eq] at hy
  rcases hz with ⟨hb, ⟨e, rfl⟩, rfl⟩ | ⟨i, d, hb, hi, hdata, rfl, rfl⟩
  · simp only [wp_bind, wp_pure]
    exact inc_spec l2 .misses fun w3 l3 _ _ _ => hmiss w3 (Or.inl hb) l3
  · cases x with
    | error e =>
      simp only [wp_bind, wp_pure]
      exact inc_spec l2 .misses fun w3 l3 _ _ _ => hmiss w3 (Or.inr (Or.inl hx.symm)) l3
    | ok mi =>
      cases y with
      | error e =>
        simp only [wp_bind, wp_pure]
        exact inc_spec l2 .misses fun w3 l3 _ _ _ => hmiss w3 (Or.inr (Or.inr hy.symm)) l3
      | ok mh =>
        simp only [DiskCache.hit_of, wp_bind]
        refine len_spec ?_
        simp only [wp_bind]
        refine inc_spec l2 .lookup_hits fun w3 l3 ht hf ho => ?_
        obtain ⟨herr, hok⟩ := hhit d mi mh w3 hb hx.symm hy.symm l3
        cases hd : CacheMeta.deserialize (M := M) mi mh with
        | error e => exact herr e hd
        | ok cache_meta =>
          refine hok cache_meta _ hd ⟨?_, ?_, ?_, ?_, ?_⟩ (Nat.le_of_eq ho1.symm)
          · simp [ho, World.openIno]
          · rw [ht, hf, ← DiskCache.body_eq]
            simpa [World.openIno] using hi
          · simpa [ht, hf, World.openIno] using hdata
          · simp [hf, World.openIno]
          · simp [World.openIno, hdata]

/-! ## The handler of a hit -/

/-- A handler of a hit whose open file holds `d`. The cursor is where the handler takes it
to be, unless a seek waits. -/
structure DiskHitHandler.Serves (w : World) (d : Bytes) (hit : DiskHitHandler) : Prop where
  data : w.tree.data (w.files hit.file).ino = d
  cursor : hit.pending_seek = false → (w.files hit.file).pos = hit.pos
  end_le : hit.range_end ≤ d.length
  chunk_pos : 0 < hit.chunk

/-- The bytes that a handler of a hit has still to give. -/
def DiskHitHandler.remaining (d : Bytes) (hit : DiskHitHandler) : Bytes :=
  (d.take hit.range_end).drop (if hit.pending_seek then hit.range_start else hit.pos)

/-- Two worlds that differ in the cursor of one open file only. -/
structure CursorOnly (f : Nat) (w w' : World) : Prop where
  tree : w'.tree = w.tree
  opened : w'.opened = w.opened
  metrics : w'.metrics = w.metrics
  pid : w'.pid = w.pid
  ino : (w'.files f).ino = (w.files f).ino
  files : ∀ f', f' ≠ f → w'.files f' = w.files f'

theorem CursorOnly.refl (f : Nat) (w : World) : CursorOnly f w w :=
  ⟨rfl, rfl, rfl, rfl, rfl, fun _ _ => rfl⟩

theorem CursorOnly.setPos {f : Nat} {w w' : World} (h : CursorOnly f w w') (pos : Nat) :
    CursorOnly f w (w'.setPos f pos) := by
  refine ⟨h.tree, h.opened, h.metrics, h.pid, ?_, ?_⟩
  · simpa [World.setPos] using h.ino
  · intro f' hf
    simp only [World.setPos, Function.update_of_ne hf]
    exact h.files f' hf

theorem CursorOnly.trans {f : Nat} {w w' w'' : World} (h : CursorOnly f w w')
    (h' : CursorOnly f w' w'') : CursorOnly f w w'' :=
  ⟨h'.tree.trans h.tree, h'.opened.trans h.opened, h'.metrics.trans h.metrics,
    h'.pid.trans h.pid, h'.ino.trans h.ino, fun f' hf => (h'.files f' hf).trans (h.files f' hf)⟩

/-- One read gives a part of what remains that is not empty, and gives nothing only when
nothing remains. -/
theorem read_chunk_spec {Q : Result (Option Bytes) × DiskHitHandler → World → Prop}
    {hit : DiskHitHandler} {d : Bytes} {f : Nat} (hs : hit.Serves w d)
    (hp : hit.pending_seek = false) (hf : hit.file = f)
    (hdone : ∀ hit' w', hit'.Serves w' d → hit'.file = f → CursorOnly f w w' →
      hit.remaining d = [] → hit'.remaining d = [] → Q (.ok none, hit') w')
    (hmore : ∀ b hit' w', hit'.Serves w' d → hit'.file = f → CursorOnly f w w' →
      b ≠ [] → hit.remaining d = b ++ hit'.remaining d → Q (.ok (some b), hit') w') :
    wp answer Calm hit.read_chunk Q w := by
  subst hf
  unfold DiskHitHandler.read_chunk
  split
  · rename_i hle
    have hnil : hit.remaining d = [] := by
      simp only [DiskHitHandler.remaining, hp, Bool.false_eq_true, if_false, List.drop_eq_nil_iff,
        List.length_take]
      omega
    exact hdone hit w hs rfl (CursorOnly.refl _ _) hnil hnil
  · rename_i hlt
    simp only [wp_bind]
    refine file_read_spec fun k => ?_
    -- what the read gives, at least one byte of the range
    have hrest : w.rest hit.file = d.drop hit.pos := by
      simp only [World.rest, hs.data, hs.cursor hp]
    obtain ⟨n, hn⟩ : ∃ n, n = min (min hit.chunk (hit.range_end - hit.pos)) (k + 1) := ⟨_, rfl⟩
    have hend := hs.end_le
    have hchunk := hs.chunk_pos
    have hlen : ((d.drop hit.pos).take n).length = n := by
      rw [List.length_take, List.length_drop]
      omega
    have hsplit : hit.remaining d = (d.drop hit.pos).take n ++
        DiskHitHandler.remaining d { hit with pos := hit.pos + n } := by
      simp only [DiskHitHandler.remaining, hp, Bool.false_eq_true, if_false, List.drop_take]
      rw [← List.take_append_drop n ((d.drop hit.pos).take (hit.range_end - hit.pos)),
        List.take_take, List.drop_take, List.drop_drop, Nat.min_eq_left (by omega)]
      congr 2
      omega
    have hpos : n ≠ 0 := by omega
    rw [hrest, ← hn, hs.cursor hp, hlen]
    simp only [hlen, if_neg hpos, wp_pure]
    refine hmore _ _ _ ⟨?_, fun _ => ?_, hend, hchunk⟩ rfl ((CursorOnly.refl _ _).setPos _) ?_ hsplit
    · simpa [World.setPos] using hs.data
    · simp [World.setPos]
    · rw [← List.length_pos_iff, hlen]
      omega

theorem read_body_spec {Q : Result (Option Bytes) × DiskHitHandler → World → Prop}
    {hit : DiskHitHandler} {d : Bytes} {f : Nat} (hs : hit.Serves w d) (hf : hit.file = f)
    (hdone : ∀ hit' w', hit'.Serves w' d → hit'.file = f → CursorOnly f w w' →
      hit.remaining d = [] → hit'.remaining d = [] → Q (.ok none, hit') w')
    (hmore : ∀ b hit' w', hit'.Serves w' d → hit'.file = f → CursorOnly f w w' →
      b ≠ [] → hit.remaining d = b ++ hit'.remaining d → Q (.ok (some b), hit') w') :
    wp answer Calm hit.read_body Q w := by
  unfold DiskHitHandler.read_body
  cases hp : hit.pending_seek with
  | false => exact read_chunk_spec hs hp hf hdone hmore
  | true =>
    simp only [if_pos, wp_bind]
    refine seek_spec ?_
    subst hf
    -- after the seek the cursor is at the start of the range
    have hrem : hit.remaining d =
        DiskHitHandler.remaining d { hit with pos := hit.range_start, pending_seek := false } := by
      simp [DiskHitHandler.remaining, hp]
    have hc0 := (CursorOnly.refl hit.file w).setPos hit.range_start
    refine read_chunk_spec (d := d) (f := hit.file) ⟨?_, fun _ => ?_, hs.end_le, hs.chunk_pos⟩
      rfl rfl ?_ ?_
    · simpa [World.setPos] using hs.data
    · simp [World.setPos]
    · exact fun hit' w' h1 h2 h3 h4 h5 => hdone hit' w' h1 h2 (hc0.trans h3) (hrem.trans h4) h5
    · exact fun b hit' w' h1 h2 h3 h4 h5 =>
        hmore b hit' w' h1 h2 (hc0.trans h3) h4 (hrem.trans h5)

end edge_cdn_store.disk_cache
