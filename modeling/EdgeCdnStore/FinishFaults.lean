-- A finish whose calls fail. A failed call may come after others that changed the
-- disk, and may have changed the disk itself before it failed. What a failed
-- finish leaves of a key decides whether the key reads as before.
import EdgeCdnStore.SizeGauge

open edge_cdn_store.programs edge_cdn_store.programs.Program edge_cdn_store.io
open edge_cdn_store.file_tree edge_cdn_store.file_tree.FileTree
open edge_cdn_store.logger edge_cdn_store.disk_cache edge_cdn_store.size_gauge
open edge_cdn_store.tiered edge_cdn_store.operations

namespace edge_cdn_store.finish_faults

/-! ## The failures -/

/-- Which steps of a finish fail. A copy fails after a number of bytes, and a write of the
metadata before or after it opened its file. -/
structure Failures where
  rename : Option IoError
  open_tmp : Option IoError
  create_body : Option IoError
  copy : Option (IoError × Nat)
  write_meta : Option Fault
  write_hdr : Option Fault

/-- What happens at one call. The calls whose replies are ignored may fail or not. -/
def Failures.choice (F : Failures) (e : Io) (c : Choice) : Choice :=
  match e with
  | .rename _ _ => { c with fault := F.rename.map fun e => ⟨e, none⟩ }
  | .open_file _ => { c with fault := F.open_tmp.map fun e => ⟨e, none⟩ }
  | .create_file _ => { c with fault := F.create_body.map fun e => ⟨e, none⟩ }
  | .copy_rounds => if F.copy.isSome then { c with amount := 0 } else c
  | .copy_some _ _ => c.calm
  | .copy_rest _ _ => { c with fault := F.copy.map fun x => ⟨x.1, some x.2⟩ }
  | .write p _ =>
    { c with fault := if p.getLast? = some "meta".toList then F.write_meta else F.write_hdr }
  | _ => c

/-- The operating system with these failures. -/
def faulty (F : Failures) : Environment Io Io.Reply Choice World :=
  fun e c w => answer e (F.choice e c) w

/-! ## What a failed finish leaves -/

/-- The three files of a key. -/
structure Files where
  body : Option Bytes
  cache_meta : Option Bytes
  hdr : Option Bytes
  deriving DecidableEq

/-- What stands of a key on disk. -/
def files_of (cache : DiskCache) (w : World) (hash : CombinedHash) : Files :=
  ⟨w.tree.content (cache.body hash), w.tree.content (cache.meta_part hash),
    w.tree.content (cache.hdr hash)⟩

/-- What a finish leaves that fails at the metadata, over body `d`. -/
def Failures.left_at_meta (F : Failures) (old : Files) (d mi mh : Bytes) : Option Files :=
  match F.write_meta with
  | some ⟨_, none⟩ => some { old with body := some d }
  | some ⟨_, some n⟩ => some { old with body := some d, cache_meta := some (mi.take n) }
  | none =>
    match F.write_hdr with
    | some ⟨_, none⟩ => some { old with body := some d, cache_meta := some mi }
    | some ⟨_, some n⟩ => some ⟨some d, some mi, some (mh.take n)⟩
    | none => none

/-- What a failed finish leaves of a key, and none when the finish succeeds. Without a
temporary file neither the rename nor the open can succeed. -/
def Failures.left (F : Failures) (old : Files) (tmp : Option Bytes) (mi mh : Bytes) :
    Option Files :=
  match tmp with
  | none => some old
  | some d =>
    if F.rename = none then F.left_at_meta old d mi mh
    else if F.open_tmp = none ∧ F.create_body = none then
      match F.copy with
      | some (_, n) => some { old with body := some (d.take n) }
      | none => F.left_at_meta old d mi mh
    else some old

/-- The finish fails before it comes to the body file. -/
def Failures.Early (F : Failures) (tmp : Option Bytes) : Prop :=
  tmp = none ∨ F.rename ≠ none ∧ (F.open_tmp ≠ none ∨ F.create_body ≠ none)

theorem Failures.left_of_early {F : Failures} {tmp : Option Bytes} (h : F.Early tmp)
    (old : Files) (mi mh : Bytes) : F.left old tmp mi mh = some old := by
  rcases h with rfl | ⟨hr, hoc⟩
  · rfl
  · cases tmp with
    | none => rfl
    | some d =>
      simp only [Failures.left, if_neg hr]
      rw [if_neg (by tauto)]

/-! ## The calls -/

variable {cache : DiskCache} {hash : CombinedHash} {F : Failures} {C : Contents} {f : Files}
  {g : Int} {w : World}

/-- A world on the way through a finish: the files of its key, and the bodies of the other
keys as they were. -/
structure Stands (cache : DiskCache) (hash : CombinedHash) (C : Contents) (f : Files) (g : Int)
    (w : World) : Prop where
  laid : cache.Laid w.tree
  body : w.tree.content (cache.entry hash "body".toList) = f.body
  cache_meta : w.tree.content (cache.entry hash "meta".toList) = f.cache_meta
  hdr : w.tree.content (cache.entry hash "hdr".toList) = f.hdr
  others : ∀ hash', hash' ≠ hash → w.tree.content (cache.body hash') = C (cache.body hash')
  gauge : w.metrics.size_bytes = g

theorem Stands.files (s : Stands cache hash C f g w) : files_of cache w hash = f := by
  obtain ⟨b, m, h⟩ := f
  simp only [files_of, Files.mk.injEq]
  exact ⟨s.body, s.cache_meta, s.hdr⟩

/-- A tree where only files other than these changed. -/
theorem Stands.setTree {t : FileTree (List Char) UInt8} (s : Stands cache hash C f g w)
    (ht : cache.Laid t)
    (hc : ∀ hash' n, '-' ∉ n →
      t.content (cache.entry hash' n) = w.tree.content (cache.entry hash' n)) :
    Stands cache hash C f g (w.setTree t) where
  laid := ht
  body := (hc hash _ (by decide)).trans s.body
  cache_meta := (hc hash _ (by decide)).trans s.cache_meta
  hdr := (hc hash _ (by decide)).trans s.hdr
  others := fun hash' hne => (hc hash' "body".toList (by decide)).trans (s.others hash' hne)
  gauge := s.gauge

/-- The open files may change. -/
theorem Stands.congr {w' : World} (s : Stands cache hash C f g w) (ht : w'.tree = w.tree)
    (hm : w'.metrics = w.metrics) : Stands cache hash C f g w' := by
  obtain ⟨laid, body, cache_meta, hdr, others, gauge⟩ := s
  rw [← ht] at laid body cache_meta hdr others
  rw [← hm] at gauge
  exact ⟨laid, body, cache_meta, hdr, others, gauge⟩

/-- A tree where the body changed. -/
theorem Stands.setBody {t : FileTree (List Char) UInt8} {d : Bytes}
    (s : Stands cache hash C f g w) (ht : cache.Laid t)
    (hself : t.content (cache.entry hash "body".toList) = some d)
    (hc : ∀ hash' n, '-' ∉ n → cache.entry hash' n ≠ cache.entry hash "body".toList →
      t.content (cache.entry hash' n) = w.tree.content (cache.entry hash' n)) :
    Stands cache hash C { f with body := some d } g (w.setTree t) where
  laid := ht
  body := hself
  cache_meta := (hc hash _ (by decide)
    (DiskCache.entry_ne (by decide))).trans s.cache_meta
  hdr := (hc hash _ (by decide)
    (DiskCache.entry_ne (by decide))).trans s.hdr
  others := fun hash' hne => (hc hash' "body".toList (by decide)
    (DiskCache.entry_ne_of_hash hne)).trans (s.others hash' hne)
  gauge := s.gauge

theorem Stands.mkdirs (s : Stands cache hash C f g w) :
    Stands cache hash C f g (w.setTree (w.tree.mkdirs (cache.dir hash))) := by
  refine s.setTree ?_ fun hash' n _ => content_mkdirs _ _ _
  exact s.laid.mkdirs fun q hq =>
    DiskCache.not_mem_files_of_mem_dirs (DiskCache.mem_dirs_of_prefix DiskCache.dir_mem_dirs hq)

section
variable {n : List Char} {i : Nat}

theorem Stands.remove_tmp (s : Stands cache hash C f g w) (hn : IsTmp n)
    (hi : w.tree.node (cache.entry hash n) = some (.file i)) :
    Stands cache hash C f g (w.setTree (w.tree.remove (cache.entry hash n))) := by
  refine s.setTree (s.laid.remove _) fun hash' m hm => ?_
  rw [content_remove_file hi, if_neg]
  exact (entry_ne_of_tmp cache hn hm).symm

/-- Where one file of a key stands, the others can be made. -/
theorem Stands.canCreate (s : Stands cache hash C f g w)
    (hi : w.tree.node (cache.entry hash n) = some (.file i)) (m : List Char) :
    w.tree.CanCreate (cache.entry hash m) := by
  refine ⟨s.laid.no_dir _ DiskCache.entry_mem_files, DiskCache.entry_ne_nil, ?_⟩
  have := (node_parent hi DiskCache.entry_ne_nil).2
  rwa [DiskCache.dropLast_entry] at this ⊢

theorem Stands.canMove (s : Stands cache hash C f g w) (hn : IsTmp n)
    (hi : w.tree.node (cache.entry hash n) = some (.file i)) :
    w.tree.CanMove (cache.entry hash n) (cache.entry hash "body".toList) :=
  ⟨(s.canCreate hi _).1, (s.canCreate hi _).2, entry_ne_of_tmp cache hn (by decide)⟩

theorem Stands.move_tmp (s : Stands cache hash C f g w) (hn : IsTmp n)
    (hi : w.tree.node (cache.entry hash n) = some (.file i)) :
    Stands cache hash C { f with body := some (w.tree.data i) } g
      (w.setTree (w.tree.move (cache.entry hash n) (cache.entry hash "body".toList))) := by
  have hcan := s.canMove hn hi
  refine s.setBody (s.laid.move hi hcan ?_) ?_ fun hash' m hm hb => ?_
  · exact DiskCache.entry_not_mem_dirs
  · rw [content_move hi hcan, if_pos rfl]
  · rw [content_move hi hcan, if_neg hb, if_neg (entry_ne_of_tmp cache hn hm).symm]

end

theorem create_dir_all_any {Q : Except IoError Unit → World → Prop}
    (s : Stands cache hash C f g w)
    (h : ∀ r w', Stands cache hash C f g w' → (∀ p, w'.tree.content p = w.tree.content p) →
      Q r w') :
    wp answer (fun _ => True) (fs.create_dir_all (cache.dir hash)) Q w := by
  intro c _
  simp only [answer, Choice.guard]
  split
  · exact h _ w s fun _ => rfl
  · exact h _ _ s.mkdirs fun p => content_mkdirs _ _ _

/-- The temporary file goes, or it stays. -/
theorem remove_tmp_stands {Q : Except IoError Unit → World → Prop} {n : List Char}
    (hn : IsTmp n) (s : Stands cache hash C f g w)
    (h : ∀ r w', Stands cache hash C f g w' → Q r w') :
    wp answer (fun _ => True) (fs.remove_file (cache.entry hash n)) Q w := by
  intro c _
  simp only [answer, Choice.guard]
  split
  · exact h _ w s
  · split
    · rename_i i hi
      exact h _ _ (s.remove_tmp hn hi)
    · exact h _ w s
    · exact h _ w s

/-- With these failures the operating system does nothing that it may not do without. -/
theorem faulty_of_any {α : Type} {p : Prog α} {Q : α → World → Prop}
    (h : wp answer (fun _ => True) p Q w) : wp (faulty F) (fun _ => True) p Q w :=
  wp_of_narrower (f := fun e c _ => F.choice e c) (fun _ _ _ => rfl) (fun _ _ _ _ => trivial) h

theorem rename_faulty {Q : Except IoError Unit → World → Prop} {n : List Char} (hn : IsTmp n)
    (s : Stands cache hash C f g w)
    (herr : ∀ e, (F.rename ≠ none ∨ w.tree.content (cache.entry hash n) = none) → Q (.error e) w)
    (hok : ∀ d w', F.rename = none → w.tree.content (cache.entry hash n) = some d →
      Stands cache hash C { f with body := some d } g w' → Q (.ok ()) w') :
    wp (faulty F) (fun _ => True)
      (fs.rename (cache.entry hash n) (cache.entry hash "body".toList)) Q w := by
  intro c _
  simp only [faulty, Failures.choice, answer, Choice.guard]
  cases hF : F.rename with
  | some e => exact herr e (Or.inl (by simp [hF]))
  | none =>
    simp only [Option.map_none]
    rcases s.laid.node_cases (p := cache.entry hash n) DiskCache.entry_mem_files with hp | ⟨i, hp⟩
    · rw [hp]
      exact herr _ (Or.inr (content_eq_none_of_node hp))
    · simp only [hp, s.canMove hn hp, if_pos]
      exact hok (w.tree.data i) _ hF (content_of_file hp) (s.move_tmp hn hp)

/-- A write of one of the two metadata files. -/
theorem write_part_faulty {Q : Except IoError Unit → World → Prop} {n : List Char} {b d : Bytes}
    (s : Stands cache hash C f g w) (hb : f.body = some b) (fault : Option Fault)
    (hfault : fault = if n = "meta".toList then F.write_meta else F.write_hdr)
    (hsame : ∀ e, fault = some ⟨e, none⟩ → Q (.error e) w)
    (hput : ∀ d' w' r, ((∃ e k, fault = some ⟨e, some k⟩ ∧ d' = d.take k ∧ r = .error e) ∨
        (fault = none ∧ d' = d ∧ r = .ok ())) →
      cache.Laid w'.tree → w'.metrics = w.metrics →
      (∀ p, w'.tree.content p = if p = cache.entry hash n then some d' else w.tree.content p) →
      Q r w') :
    wp (faulty F) (fun _ => True) (fs.write (cache.entry hash n) d) Q w := by
  intro c _
  have hlast : (cache.entry hash n).getLast? = some n := by simp [DiskCache.entry]
  simp only [faulty, Failures.choice, answer, hlast, Option.some.injEq, ← hfault]
  obtain ⟨i, hi⟩ := content_isSome.mp (by rw [s.body, hb]; rfl :
    (w.tree.content (cache.entry hash "body".toList)).isSome)
  have hcan := s.canCreate hi n
  have hlaid : ∀ d', cache.Laid (w.tree.put (cache.entry hash n) d') := fun d' =>
    s.laid.put hcan (DiskCache.entry_not_mem_dirs) d'
  rcases hf : fault with _ | ⟨e, _ | k⟩
  · simp only [hcan, if_pos]
    exact hput d _ _ (Or.inr ⟨hf, rfl, rfl⟩) (hlaid d) rfl fun p => content_put hcan d p
  · exact hsame e hf
  · simp only [hcan, if_pos]
    exact hput _ _ _ (Or.inl ⟨e, k, hf, rfl, rfl⟩) (hlaid _) rfl fun p => content_put hcan _ p

/-! ## The copy -/

theorem overwrite_at_end {old d : Bytes} {pos : Nat} (h : old.length = pos) :
    overwrite old pos d = old ++ d := by
  subst h
  simp [overwrite]

/-- The first `k` bytes of file `i` have come to file `j`, and two handles stand there. -/
structure Pours (src dst i j : Nat) (d : Bytes) (k : Nat) (w : World) : Prop where
  src_file : w.files src = ⟨i, k⟩
  dst_file : w.files dst = ⟨j, k⟩
  handles_ne : src ≠ dst
  files_ne : i ≠ j
  data : w.tree.data i = d
  filled : w.tree.data j = d.take k
  le : k ≤ d.length

/-- A round of a copy fills the other file further, and changes nothing else. -/
theorem Pours.transfer {src dst i j k : Nat} {d : Bytes} (h : Pours src dst i j d k w) (n : Nat) :
    Pours src dst i j d (k + ((d.drop k).take n).length) (w.transfer src dst n) ∧
      (w.transfer src dst n).tree =
        w.tree.setData j (d.take (k + ((d.drop k).take n).length)) ∧
      (w.transfer src dst n).metrics = w.metrics := by
  have hrest : w.rest src = d.drop k := by
    simp only [World.rest, h.src_file, h.data]
  have hlen : (d.take k).length = k := by
    rw [List.length_take]
    exact Nat.min_eq_left h.le
  obtain ⟨chunk, hchunk⟩ : ∃ chunk, chunk = (d.drop k).take n := ⟨_, rfl⟩
  have hle : k + chunk.length ≤ d.length := by
    have := h.le
    rw [hchunk, List.length_take, List.length_drop]
    omega
  have hnew : overwrite (w.tree.data j) k chunk = d.take (k + chunk.length) := by
    rw [h.filled, overwrite_at_end hlen, List.take_add, hchunk, List.length_take,
      ← List.take_eq_take_min]
  have htree : (w.transfer src dst n).tree = w.tree.setData j (d.take (k + chunk.length)) := by
    simp only [World.transfer, hrest, h.src_file, h.dst_file, World.setPos, World.setTree,
      ← hchunk, hnew]
  rw [← hchunk]
  refine ⟨⟨?_, ?_, h.handles_ne, h.files_ne, ?_, ?_, hle⟩, htree, rfl⟩
  · simp [World.transfer, World.setPos, h.handles_ne, hrest, h.src_file, ← hchunk, World.setTree]
  · simp [World.transfer, World.setPos, h.handles_ne.symm, hrest, h.dst_file, ← hchunk,
      World.setTree]
  · rw [htree, data_setData_of_ne h.files_ne]
    exact h.data
  · rw [htree, data_setData_self]

/-- A copy on its way: the first `k` bytes of `d` have come from the file of one handle to
the body, which the other handle has open. -/
structure Copying (cache : DiskCache) (hash : CombinedHash) (C : Contents) (f : Files) (g : Int)
    (src dst i j : Nat) (d : Bytes) (k : Nat) (w : World) : Prop where
  stands : Stands cache hash C { f with body := some (d.take k) } g w
  src_file : w.files src = ⟨i, k⟩
  dst_file : w.files dst = ⟨j, k⟩
  handles_ne : src ≠ dst
  files_ne : i ≠ j
  at_body : w.tree.node (cache.entry hash "body".toList) = some (.file j)
  data : w.tree.data i = d
  le : k ≤ d.length

variable {src dst i j k : Nat} {d : Bytes}

theorem Copying.rest (h : Copying cache hash C f g src dst i j d k w) :
    w.rest src = d.drop k := by
  simp only [World.rest, h.src_file, h.data]

theorem Copying.pours (h : Copying cache hash C f g src dst i j d k w) :
    Pours src dst i j d k w := by
  refine ⟨h.src_file, h.dst_file, h.handles_ne, h.files_ne, h.data, ?_, h.le⟩
  have := h.stands.body
  rwa [content_of_file h.at_body, Option.some.injEq] at this

/-- A round of a copy. -/
theorem Copying.transfer (h : Copying cache hash C f g src dst i j d k w) (n : Nat) :
    Copying cache hash C f g src dst i j d (k + ((d.drop k).take n).length)
      (w.transfer src dst n) := by
  obtain ⟨hp, htree, hmetrics⟩ := h.pours.transfer n
  have hcontent := contents_setData h.at_body (d.take (k + ((d.drop k).take n).length))
  refine ⟨?_, hp.src_file, hp.dst_file, h.handles_ne, h.files_ne, ?_, hp.data, hp.le⟩
  · have := h.stands.setBody (h.stands.laid.setData j (d.take (k + ((d.drop k).take n).length)))
      (d := d.take (k + ((d.drop k).take n).length)) (by rw [hcontent, Function.update_self])
      fun hash' m _ hb => by rw [hcontent, Function.update_of_ne hb]
    exact this.congr htree hmetrics
  · rw [htree]
    exact h.at_body

/-- The last round of a copy moves all that is left. -/
theorem Copying.transfer_rest (h : Copying cache hash C f g src dst i j d k w) :
    Stands cache hash C { f with body := some d } g (w.transfer src dst (w.rest src).length) := by
  have hall := (h.transfer (w.rest src).length).stands
  rwa [h.rest, List.take_length, List.length_drop, Nat.add_sub_cancel' h.le,
    List.take_length, ← List.length_drop, ← h.rest] at hall

/-- The body is created or emptied, while the temporary file is open, and the copy starts. -/
theorem Stands.start_copy {n : List Char} (s : Stands cache hash C f g w) (hn : IsTmp n)
    (hi : w.tree.node (cache.entry hash n) = some (.file i))
    (hj : (w.tree.create (cache.entry hash "body".toList)).node (cache.entry hash "body".toList) =
      some (.file j)) :
    Copying cache hash C f g w.opened (w.opened + 1) i j (w.tree.data i) 0
      (((w.openIno i).setTree (w.tree.create (cache.entry hash "body".toList))).openIno j) := by
  have hne : cache.entry hash n ≠ cache.entry hash "body".toList :=
    entry_ne_of_tmp cache hn (by decide)
  have hcan := s.canCreate hi "body".toList
  have hi' : (w.tree.create (cache.entry hash "body".toList)).node (cache.entry hash n) =
      some (.file i) := by
    rw [node_create hcan, if_neg hne, hi]
  refine ⟨?_, ?_, ?_, ?_, ?_, hj, ?_, Nat.zero_le _⟩
  · have := s.setBody (d := []) (s.laid.create hcan
        (DiskCache.entry_not_mem_dirs))
      (by rw [content_create hcan, if_pos rfl])
      fun hash' m _ hb => by rw [content_create hcan, if_neg hb]
    exact this.congr rfl rfl
  · simp [World.openIno, World.setTree]
  · simp [World.openIno, World.setTree]
  · simp
  · rintro rfl
    exact hne ((w.tree.create _).sound.single _ _ _ hi' hj)
  · refine data_create_of_ne (w.tree.sound.below _ _ hi) fun hb => ?_
    exact hne (w.tree.sound.single _ _ _ hi hb)

/-- The rounds move all of the file, or the copy fails on its way. -/
theorem copy_loop_faulty {Q : Except IoError Unit → World → Prop} (n : Nat)
    (h : Copying cache hash C f g src dst i j d k w) (hn : F.copy ≠ none → n = 0 ∧ k = 0)
    (herr : ∀ e n w', F.copy = some (e, n) →
      Stands cache hash C { f with body := some (d.take n) } g w' → Q (.error e) w')
    (hok : ∀ w', F.copy = none → Stands cache hash C { f with body := some d } g w' →
      Q (.ok ()) w') :
    wp (faulty F) (fun _ => True) (copy_loop src dst n) Q w := by
  induction n generalizing k w with
  | zero =>
    intro c _
    cases hF : F.copy with
    | none =>
      simp only [faulty, Failures.choice, hF, answer, Option.map_none]
      exact hok _ hF h.transfer_rest
    | some x =>
      obtain ⟨e, n⟩ := x
      obtain rfl : k = 0 := (hn (by simp [hF])).2
      simp only [faulty, Failures.choice, hF, answer, Option.map_some]
      have hpart := (h.transfer n).stands
      rw [List.drop_zero, Nat.zero_add, List.length_take, ← List.take_eq_take_min] at hpart
      exact herr e n _ hF hpart
  | succ n ih =>
    have hF : F.copy = none := by
      by_contra hne
      exact absurd (hn hne).1 (Nat.succ_ne_zero n)
    simp only [copy_loop, wp_bind]
    intro c _
    simp only [faulty, Failures.choice, answer, Choice.calm]
    exact ih (h.transfer c.amount) fun hne => absurd hF hne

theorem copy_faulty {Q : Except IoError Unit → World → Prop}
    (h : Copying cache hash C f g src dst i j d 0 w)
    (herr : ∀ e n w', F.copy = some (e, n) →
      Stands cache hash C { f with body := some (d.take n) } g w' → Q (.error e) w')
    (hok : ∀ w', F.copy = none → Stands cache hash C { f with body := some d } g w' →
      Q (.ok ()) w') :
    wp (faulty F) (fun _ => True) (copy src dst) Q w := by
  simp only [copy, wp_bind]
  intro c _
  refine copy_loop_faulty _ h (fun hne => ⟨?_, rfl⟩) herr hok
  simp [faulty, Failures.choice, answer, Option.isSome_iff_ne_none.mpr hne]

/-! ## A whole finish -/

theorem open_tmp_faulty {Q : Except IoError Nat → World → Prop} {n : List Char}
    (s : Stands cache hash C f g w)
    (herr : ∀ e, (F.open_tmp ≠ none ∨ w.tree.content (cache.entry hash n) = none) →
      Q (.error e) w)
    (hok : ∀ i, F.open_tmp = none → w.tree.node (cache.entry hash n) = some (.file i) →
      Q (.ok w.opened) (w.openIno i)) :
    wp (faulty F) (fun _ => True) (File.open_read (cache.entry hash n)) Q w := by
  intro c _
  simp only [faulty, Failures.choice, answer, Choice.guard]
  cases hF : F.open_tmp with
  | some e => exact herr e (Or.inl (by simp [hF]))
  | none =>
    rcases s.laid.node_cases (p := cache.entry hash n) DiskCache.entry_mem_files with hp | ⟨i, hp⟩
    · simp only [Option.map_none, hp]
      exact herr _ (Or.inr (content_eq_none_of_node hp))
    · simp only [Option.map_none, hp]
      exact hok i hF hp

theorem create_body_faulty {Q : Except IoError Nat → World → Prop} {n : List Char}
    (hn : IsTmp n) (s : Stands cache hash C f g w)
    (hi : w.tree.node (cache.entry hash n) = some (.file i))
    (herr : ∀ e, F.create_body ≠ none → Q (.error e) (w.openIno i))
    (hok : ∀ j w', F.create_body = none →
      Copying cache hash C f g w.opened (w.opened + 1) i j (w.tree.data i) 0 w' →
      Q (.ok (w.opened + 1)) w') :
    wp (faulty F) (fun _ => True) (File.create (cache.entry hash "body".toList)) Q
      (w.openIno i) := by
  intro c _
  have hcan := s.canCreate hi "body".toList
  obtain ⟨j, hj, _⟩ := node_create_self hcan
  simp only [faulty, Failures.choice, answer, Choice.guard]
  cases hF : F.create_body with
  | some e => exact herr e (by simp [hF])
  | none =>
    simp only [Option.map_none]
    have hopen : (w.openIno i).tree = w.tree := rfl
    simp only [hopen, hcan, if_pos, hj]
    exact hok j _ hF (s.start_copy hn hi hj)

variable {m : DiskMissHandler} {n : List Char} {old : Files}

/-- The transfer leaves a part of the body behind when the copy fails, and nothing when it
does not come to the copy. -/
theorem transfer_faulty {Q : Result Unit → World → Prop} (hn : IsTmp n)
    (ht : m.tmp_path = cache.entry hash n) (hb : m.body_path = cache.entry hash "body".toList)
    (s : Stands cache hash C f g w)
    (hsame : ∀ e w', (w.tree.content (cache.entry hash n) = none ∨ F.open_tmp ≠ none ∨
      F.create_body ≠ none) → Stands cache hash C f g w' → Q (.error e) w')
    (hpart : ∀ e d x k w', w.tree.content (cache.entry hash n) = some d → F.open_tmp = none →
      F.create_body = none → F.copy = some (x, k) →
      Stands cache hash C { f with body := some (d.take k) } g w' → Q (.error e) w')
    (hall : ∀ d w', w.tree.content (cache.entry hash n) = some d → F.open_tmp = none →
      F.create_body = none → F.copy = none →
      Stands cache hash C { f with body := some d } g w' → Q (.ok ()) w') :
    wp (faulty F) (fun _ => True) m.transfer Q w := by
  simp only [DiskMissHandler.transfer, wp_bind, ht, hb, trace_fn_exit_with_err, e_explain]
  refine open_tmp_faulty s (fun e he => ?_) fun i ho hi => ?_
  · exact hsame _ w (by tauto) s
  · have hd := content_of_file hi
    simp only [wp_bind]
    refine create_body_faulty hn s hi (fun e he => ?_) fun j w1 hc h1 => ?_
    · exact hsame _ _ (Or.inr (Or.inr he)) (s.congr rfl rfl)
    · simp only [wp_bind]
      refine copy_faulty h1 (fun e k w2 hF s2 => ?_) fun w2 hF s2 => ?_
      · exact hpart _ _ e k w2 hd ho hc hF s2
      · simp only [wp_bind]
        exact faulty_of_any (remove_tmp_stands hn s2 fun _ w3 s3 => hall _ w3 hd ho hc hF s3)

/-- Another metadata file. -/
theorem Stands.putMeta {w' : World} {d : Bytes} (s : Stands cache hash C f g w)
    (hl : cache.Laid w'.tree) (hm : w'.metrics = w.metrics)
    (hc : ∀ p, w'.tree.content p =
      if p = cache.entry hash "meta".toList then some d else w.tree.content p) :
    Stands cache hash C { f with cache_meta := some d } g w' := by
  have hne : ∀ {hash' : CombinedHash} {k : List Char}, k ≠ "meta".toList →
      cache.entry hash' k ≠ cache.entry hash "meta".toList :=
    fun hk => DiskCache.entry_ne hk
  refine ⟨hl, ?_, ?_, ?_, fun hash' hh => ?_, hm ▸ s.gauge⟩
  · rw [hc, if_neg (hne (by decide)), s.body]
  · rw [hc, if_pos rfl]
  · rw [hc, if_neg (hne (by decide)), s.hdr]
  · rw [DiskCache.body_eq, hc, if_neg (hne (by decide)), ← DiskCache.body_eq, s.others hash' hh]

theorem Stands.putHdr {w' : World} {d : Bytes} (s : Stands cache hash C f g w)
    (hl : cache.Laid w'.tree) (hm : w'.metrics = w.metrics)
    (hc : ∀ p, w'.tree.content p =
      if p = cache.entry hash "hdr".toList then some d else w.tree.content p) :
    Stands cache hash C { f with hdr := some d } g w' := by
  have hne : ∀ {hash' : CombinedHash} {k : List Char}, k ≠ "hdr".toList →
      cache.entry hash' k ≠ cache.entry hash "hdr".toList :=
    fun hk => DiskCache.entry_ne hk
  refine ⟨hl, ?_, ?_, ?_, fun hash' hh => ?_, hm ▸ s.gauge⟩
  · rw [hc, if_neg (hne (by decide)), s.body]
  · rw [hc, if_neg (hne (by decide)), s.cache_meta]
  · rw [hc, if_pos rfl]
  · rw [DiskCache.body_eq, hc, if_neg (hne (by decide)), ← DiskCache.body_eq, s.others hash' hh]

/-- The metadata goes to disk, and the metrics count it, or the finish fails here. -/
theorem write_meta_parts_faulty {Q : Result MissFinishType → World → Prop} {d : Bytes}
    (hm : m.meta_path = cache.entry hash "meta".toList)
    (hh : m.hdr_path = cache.entry hash "hdr".toList)
    (s : Stands cache hash C { old with body := some d } g w)
    (herr : ∀ e new w', F.left_at_meta old d m.meta_internal m.meta_header = some new →
      Stands cache hash C new g w' → Q (.error e) w')
    (hok : ∀ k w', F.left_at_meta old d m.meta_internal m.meta_header = none →
      Stands cache hash C ⟨some d, some m.meta_internal, some m.meta_header⟩
        (g + m.tmp_bytes_written) w' → Q (.ok k) w') :
    wp (faulty F) (fun _ => True) m.write_meta_parts Q w := by
  simp only [DiskMissHandler.write_meta_parts, wp_bind, hm, hh, trace_fn_exit_with_err, e_explain]
  refine write_part_faulty s rfl F.write_meta (by rw [if_pos rfl]) (fun e hF => ?_)
    fun d1 w1 r hr hl hmet hc => ?_
  · exact herr _ _ w (by simp only [Failures.left_at_meta, hF]) s
  · have s1 := s.putMeta hl hmet hc
    rcases hr with ⟨e, k, hF, rfl, rfl⟩ | ⟨hF, rfl, rfl⟩
    · exact herr _ _ w1 (by simp only [Failures.left_at_meta, hF]) s1
    · simp only [wp_bind]
      refine write_part_faulty s1 rfl F.write_hdr (by rw [if_neg (by decide)]) (fun e hF' => ?_)
        fun d2 w2 r hr hl hmet hc => ?_
      · exact herr _ _ w1 (by simp only [Failures.left_at_meta, hF, hF']) s1
      · have s2 := s1.putHdr hl hmet hc
        rcases hr with ⟨e, k, hF', rfl, rfl⟩ | ⟨hF', rfl, rfl⟩
        · exact herr _ _ w2 (by simp only [Failures.left_at_meta, hF, hF']) s2
        · simp only [wp_bind, wp_pure]
          intro c _ c' _
          refine hok _ _ (by simp only [Failures.left_at_meta, hF, hF']) ?_
          exact ⟨s2.laid, s2.body, s2.cache_meta, s2.hdr, s2.others, by
            rw [← s2.gauge]
            rfl⟩

/-- What a finish leaves of its key, for all ways in which it can fail. -/
theorem finish_faulty {Q : Result MissFinishType → World → Prop} (hm : m.Of cache hash)
    (s : Stands cache hash C old g w)
    (herr : ∀ e new w', F.left old (w.tree.content m.tmp_path) m.meta_internal m.meta_header =
      some new → Stands cache hash C new g w' → Q (.error e) w')
    (hok : ∀ k w', F.left old (w.tree.content m.tmp_path) m.meta_internal m.meta_header = none →
      Q (.ok k) w') :
    wp (faulty F) (fun _ => True) m.finish Q w := by
  obtain ⟨n, hn, ht⟩ := hm.tmp_path
  simp only [DiskMissHandler.finish, DiskMissHandler.promote, DiskMissHandler.drop, wp_bind, hm.dir,
    hm.body_path, ht]
  refine faulty_of_any (create_dir_all_any s fun _ w1 s1 hc1 => ?_)
  rw [ht, ← hc1] at herr hok
  -- what is left to do after the body is there, and after an error
  have hend : ∀ {e new} w2, F.left old (w1.tree.content (cache.entry hash n)) m.meta_internal
      m.meta_header = some new → Stands cache hash C new g w2 →
      wp (faulty F) (fun _ => True) (fs.remove_file (cache.entry hash n))
        (fun _ w3 => Q (.error e) w3) w2 :=
    fun w2 hl s2 => faulty_of_any (remove_tmp_stands hn s2 fun _ w3 s3 => herr _ _ w3 hl s3)
  have hmeta : ∀ {d} w2, F.left old (w1.tree.content (cache.entry hash n)) m.meta_internal
        m.meta_header = F.left_at_meta old d m.meta_internal m.meta_header →
      Stands cache hash C { old with body := some d } g w2 →
      wp (faulty F) (fun _ => True) m.write_meta_parts (fun r w3 =>
        wp (faulty F) (fun _ => True) (fs.remove_file (cache.entry hash n))
          (fun _ w4 => Q r w4) w3) w2 := by
    intro d w2 hl s2
    refine write_meta_parts_faulty hm.meta_path hm.hdr_path s2 (fun e new w3 hn' s3 => ?_)
      fun k w3 hn' s3 => ?_
    · exact hend w3 (hl.trans hn') s3
    · exact faulty_of_any (remove_tmp_stands hn s3 fun _ w4 _ => hok _ w4 (hl.trans hn'))
  refine rename_faulty hn s1 (fun e he => ?_) fun d w2 hF hd s2 => ?_
  · refine transfer_faulty hn ht hm.body_path s1 (fun e w2 hsame s2 => ?_)
      (fun e d x k w2 hd ho hb hc s2 => ?_) fun d w2 hd ho hb hc s2 => ?_
    · refine hend w2 ?_ s2
      cases hd : w1.tree.content (cache.entry hash n) with
      | none => rfl
      | some d =>
        simp only [hd, reduceCtorEq, or_false, false_or] at he hsame
        simp only [Failures.left, if_neg he]
        rw [if_neg (by tauto)]
    · refine hend w2 ?_ s2
      simp only [hd, reduceCtorEq, or_false] at he
      simp only [hd, Failures.left, if_neg he, ho, hb, and_self, if_true, hc]
    · simp only [wp_bind, wp_pure]
      refine hmeta w2 ?_ s2
      simp only [hd, reduceCtorEq, or_false] at he
      simp only [hd, Failures.left, if_neg he, ho, hb, and_self, if_true, hc]
  · simp only [wp_bind, wp_pure]
    refine hmeta w2 ?_ s2
    simp only [hd, Failures.left, hF, if_true]

/-! ## What a lookup sees of it -/

variable {K M : Type} [CacheHashKey K] [CacheMeta M]

/-- What a lookup returns, with the bytes of the body that it opened. -/
def seen (r : Result (Option (M × DiskHitHandler))) (w : World) : Result (Option (M × Bytes)) :=
  r.map (Option.map fun x => (x.1, w.tree.data (w.files x.2.file).ino))

/-- A lookup that starts in `w`, and of which no call fails, can return `x`. -/
def Looks (cache : DiskCache) (key : K) (w : World) (x : Result (Option (M × Bytes))) : Prop :=
  ∃ cs r w', (∀ c ∈ cs, Calm c) ∧ run answer (cache.lookup (M := M) key) cs w = some (r, w') ∧
    seen r w' = x

/-- What the three files of a key say. -/
def Files.decoded (M : Type) [CacheMeta M] : Files → Result (Option (M × Bytes))
  | ⟨some b, some mi, some mh⟩ => (CacheMeta.deserialize mi mh).map fun x => some (x, b)
  | _ => .ok none

def Files.body_len (f : Files) : Nat := (f.body.map List.length).getD 0

theorem lookup_decodes (hw : cache.Laid w.tree) (key : K) :
    wp answer Calm (cache.lookup (M := M) key)
      (fun r w' => seen r w' = (files_of cache w (CacheHashKey.combined key)).decoded M) w := by
  refine lookup_spec (Leads.refl hw) key (fun w' hnone _ => ?_)
    fun d mi mh w' hb hmi hmh _ => ⟨fun e he => ?_, fun x hit hx hf _ => ?_⟩
  · simp only [files_of, DiskCache.body_eq, DiskCache.meta_part_eq, DiskCache.hdr_eq]
    rcases hnone with h | h | h
    · rw [h]; rfl
    · rw [h]
      cases w.tree.content _ <;> rfl
    · rw [h]
      cases w.tree.content (cache.entry _ "body".toList) <;>
        cases w.tree.content (cache.entry _ "meta".toList) <;> rfl
  · simp only [files_of, DiskCache.body_eq, DiskCache.meta_part_eq, DiskCache.hdr_eq, hb, hmi, hmh,
      Files.decoded, he]
    rfl
  · simp only [files_of, DiskCache.body_eq, DiskCache.meta_part_eq, DiskCache.hdr_eq, hb, hmi, hmh,
      Files.decoded, hx, seen, Except.map, Option.map_some, hf.data]

/-- A lookup returns what the three files say. -/
theorem looks_iff (hw : cache.Laid w.tree) (key : K) (x : Result (Option (M × Bytes))) :
    Looks cache key w x ↔ (files_of cache w (CacheHashKey.combined key)).decoded M = x := by
  constructor
  · rintro ⟨cs, r, w', hcs, hrun, rfl⟩
    exact (run_sound hrun hcs (lookup_decodes hw key)).symm
  · rintro rfl
    have hend : ∃ cs r w', (∀ c ∈ cs, Calm c) ∧
        run answer (cache.lookup (M := M) key) cs w = some (r, w') := run_exists _ w plain rfl
    obtain ⟨cs, r, w', hcs, hrun⟩ := hend
    refine ⟨cs, r, w', hcs, hrun, ?_⟩
    exact run_sound (Q := fun r w' => seen r w' = _) hrun hcs (lookup_decodes hw key)

/-- A lookup can return this only exactly when it is what the files say. -/
theorem looks_only_iff (hw : cache.Laid w.tree) (key : K) (y : Result (Option (M × Bytes))) :
    (∀ x, Looks cache key w x ↔ x = y) ↔
      (files_of cache w (CacheHashKey.combined key)).decoded M = y := by
  simp only [looks_iff hw]
  constructor
  · exact fun h => (h y).mpr rfl
  · rintro rfl x
    exact eq_comm

/-- A finish with these failures that ends in an error leaves the key as it was: a lookup
returns the same, and a gauge that was right is right. -/
def AllOrNothing (M : Type) [CacheMeta M] (cache : DiskCache) (key : K) (F : Failures)
    (m : DiskMissHandler) (w : World) : Prop :=
  ∀ cs e w', run (faulty F) m.finish cs w = some (.error e, w') →
    (∀ x : Result (Option (M × Bytes)), Looks cache key w' x ↔ Looks cache key w x) ∧
    (Accurate cache w → Accurate cache w')

theorem stands_of (hw : cache.Laid w.tree) (hash : CombinedHash) :
    Stands cache hash w.tree.content (files_of cache w hash) w.metrics.size_bytes w :=
  ⟨hw, rfl, rfl, rfl, fun _ _ => rfl, rfl⟩

/-- Where the other bodies and the gauge stay, the gauge stays right exactly when the body
keeps its length. -/
theorem Stands.accurate_iff {w' : World}
    (s : Stands cache hash w.tree.content f w.metrics.size_bytes w') (h : Accurate cache w) :
    Accurate cache w' ↔ f.body_len = (files_of cache w hash).body_len := by
  have hlen := bodies_len_one hash s.others
  have hnew : len w'.tree.content (cache.body hash) = f.body_len := by
    simp only [len, Files.body_len, DiskCache.body_eq, s.body]
  have hold : len w.tree.content (cache.body hash) = (files_of cache w hash).body_len := rfl
  have hg := s.gauge
  unfold Accurate at h ⊢
  omega

/-- A failed finish leaves its key as it was exactly when it fails before it comes to the
body file, or what it leaves in the three files says what they said before. -/
theorem a_failed_finish_spares_the_key_exactly_when_it_fails_early_or_unnoticed
    (cache : DiskCache) (key : K) (F : Failures) (m : DiskMissHandler)
    (hm : m.Of cache (CacheHashKey.combined key)) (w : World) (hw : cache.Laid w.tree) :
    AllOrNothing M cache key F m w ↔
      F.Early (w.tree.content m.tmp_path) ∨
      ∀ new, F.left (files_of cache w (CacheHashKey.combined key)) (w.tree.content m.tmp_path)
          m.meta_internal m.meta_header = some new →
        new.decoded M = (files_of cache w (CacheHashKey.combined key)).decoded M ∧
        (Accurate cache w → new.body_len = (files_of cache w (CacheHashKey.combined key)).body_len) := by
  obtain ⟨old, hold⟩ : ∃ old, old = files_of cache w (CacheHashKey.combined key) := ⟨_, rfl⟩
  have hstart := stands_of hw (CacheHashKey.combined key)
  rw [← hold] at hstart ⊢
  -- how a run ends, by what the failures leave
  have hend : wp (faulty F) (fun _ => True) m.finish (fun r w' =>
      (∀ new, F.left old (w.tree.content m.tmp_path) m.meta_internal m.meta_header = some new →
        (∃ e, r = .error e) ∧ Stands cache (CacheHashKey.combined key) w.tree.content new
          w.metrics.size_bytes w') ∧
      (F.left old (w.tree.content m.tmp_path) m.meta_internal m.meta_header = none →
        ∃ k, r = .ok k)) w := by
    refine finish_faulty hm hstart (fun e new w' hl s => ⟨fun new' hl' => ?_, fun hl' => ?_⟩)
      fun k w' hl => ⟨fun new' hl' => ?_, fun _ => ⟨k, rfl⟩⟩
    · obtain rfl : new = new' := by rw [hl] at hl'; cases hl'; rfl
      exact ⟨⟨e, rfl⟩, s⟩
    · rw [hl] at hl'
      cases hl'
    · rw [hl] at hl'
      cases hl'
  constructor
  · intro hall
    refine Or.inr fun new hl => ?_
    have hrun : ∃ cs r w', (∀ c ∈ cs, True) ∧ run (faulty F) m.finish cs w = some (r, w') :=
      run_exists _ w plain trivial
    obtain ⟨cs, r, w', hcs, hrun⟩ := hrun
    obtain ⟨⟨e, rfl⟩, s⟩ := (run_sound hrun hcs hend).1 new hl
    obtain ⟨hlooks, hacc⟩ := hall cs e w' hrun
    refine ⟨?_, fun h => ?_⟩
    · have := (hlooks (new.decoded M)).mp ((looks_iff s.laid key _).mpr (by rw [s.files]))
      rw [looks_iff hw, ← hold] at this
      exact this.symm
    · rw [hold]
      exact (s.accurate_iff h).mp (hacc h)
  · intro hcond cs e w' hrun
    obtain ⟨herr, hok⟩ := run_sound hrun (fun _ _ => trivial) hend
    cases hl : F.left old (w.tree.content m.tmp_path) m.meta_internal m.meta_header with
    | none =>
      obtain ⟨k, hk⟩ := hok hl
      cases hk
    | some new =>
      obtain ⟨_, s⟩ := herr new hl
      have hsame : new.decoded M = old.decoded M ∧
          (Accurate cache w → new.body_len = old.body_len) := by
        rcases hcond with hearly | hcond
        · obtain rfl : old = new := by
            rw [Failures.left_of_early hearly] at hl
            exact Option.some.inj hl
          exact ⟨rfl, fun _ => rfl⟩
        · exact hcond new hl
      refine ⟨fun x => ?_, fun h => (s.accurate_iff h).mpr (by rw [hsame.2 h, hold])⟩
      rw [looks_iff s.laid, looks_iff hw, s.files, ← hold, hsame.1]

/-! ## A finish that fails late -/

/-- An object stands on disk, and a handler of its key holds another body. -/
def rewriting : Handlers × World :=
  let c := after_miss (Handlers.empty, empty_world) 0 [1, 2]
  let c1 := after small_storage c (.get_miss_handler small_hash ⟨[9]⟩) 6
  after small_storage c1 (.write_body 1 [3] true) 3

def ioFault : IoError := ⟨.Other, "Input/output error (os error 5)"⟩

/-- The write of the metadata fails, and nothing else. -/
def no_meta : Failures := ⟨none, none, none, none, some ⟨ioFault, none⟩, none⟩

/-- The rename fails, and then the open of the temporary file. -/
def no_transfer : Failures := ⟨some ioFault, some ioFault, none, none, none, none⟩

def rewriting_trace : List (Op CombinedHash Note × operations.Reply Note) :=
  replacing_trace.take 3 ++ [(.get_miss_handler small_hash ⟨[9]⟩, .handler (.ok 1))] ++
    [(.write_body 1 [3] true, .written (.ok ()))]

theorem rewriting_runs : Runs small_storage (fun _ _ _ => True) (Handlers.empty, empty_world)
    rewriting_trace rewriting := by
  refine .snoc (.snoc (.snoc (.snoc (.snoc (.nil _) (step_after ?_) trivial)
    (step_after ?_) trivial) (step_after ?_) trivial) (step_after ?_) trivial) (step_after ?_) trivial
  all_goals decide +kernel

theorem rewriting_laid : small_cache.Laid rewriting.2.tree :=
  (good_of_runs (good_empty (empty_world_laid _)) rewriting_runs).laid

theorem a_failed_transfer_spares_the_key :
    AllOrNothing Note small_cache small_hash no_transfer (small_handler [9] 1) rewriting.2 :=
  (a_failed_finish_spares_the_key_exactly_when_it_fails_early_or_unnoticed small_cache small_hash
    no_transfer (small_handler [9] 1) (small_handler_of _ _) rewriting.2 rewriting_laid).mpr
    (Or.inl (Or.inr ⟨by decide, Or.inl (by decide)⟩))

/-- The new body stands under the old metadata, and the gauge counts the old body. -/
theorem a_failed_metadata_write_mixes_two_objects :
    Runs small_storage (fun _ _ _ => True) (Handlers.empty, empty_world) rewriting_trace
      rewriting ∧
    rewriting.1.misses 1 = some (small_handler [9] 1) ∧
    ¬ AllOrNothing Note small_cache small_hash no_meta (small_handler [9] 1) rewriting.2 := by
  refine ⟨rewriting_runs, by decide +kernel, fun h => ?_⟩
  have hfiles : (run (faulty no_meta) (small_handler [9] 1).finish (List.replicate 4 plain)
      rewriting.2).map (fun x => (x.1.toOption, files_of small_cache x.2 small_hash)) =
        some (none, ⟨some [3], some [7], some []⟩) := by
    decide +kernel
  obtain ⟨⟨r, w'⟩, hrun, hr⟩ := Option.map_eq_some_iff.mp hfiles
  simp only [Prod.mk.injEq] at hr
  cases r with
  | ok k => cases hr.1
  | error e =>
    have hlaid : small_cache.Laid w'.tree :=
      run_sound (Q := fun r w' => (∃ e, r = .error e) → small_cache.Laid w'.tree) hrun
        (fun _ _ => trivial) (finish_faulty (small_handler_of _ _) (stands_of rewriting_laid _)
          (fun _ _ _ _ s _ => s.laid) fun _ _ _ he => by cases he.choose_spec) ⟨e, rfl⟩
    have hbefore : Looks small_cache small_hash rewriting.2 (.ok (some (Note.mk [7], [1, 2]))) := by
      rw [looks_iff rewriting_laid]
      decide +kernel
    have hafter := ((h _ e w' hrun).1 _).mpr hbefore
    rw [looks_iff hlaid] at hafter
    change Files.decoded Note (files_of small_cache w' small_hash) = _ at hafter
    rw [hr.2] at hafter
    exact absurd hafter (by decide)

end edge_cdn_store.finish_faults
