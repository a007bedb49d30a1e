-- What each call does when it does not fail. A stretch of such calls leads from
-- one world to another, and the rules here say where the next call leads: which
-- contents change, what the gauge gains, and that the open files stay as they are.
import EdgeCdnStore.DiskPaths

open edge_cdn_store.programs edge_cdn_store.programs.Program edge_cdn_store.io
open edge_cdn_store.file_tree edge_cdn_store.file_tree.FileTree

namespace edge_cdn_store.disk_cache

/-- The contents under all paths. -/
abbrev Contents := PathBuf → Option Bytes

/-- A stretch of calls led from `w` to `w'`: the contents are `C` now, and the gauge has
gained `g`. The bodies keep their contents for those who have them open. -/
structure Leads (cache : DiskCache) (w w' : World) (C : Contents) (g : Int) : Prop where
  laid : cache.Laid w'.tree
  content : w'.tree.content = C
  keeps : Keeps cache.bodies w.tree w'.tree
  opened_le : w.opened ≤ w'.opened
  files : ∀ f, f < w.opened → w'.files f = w.files f
  gauge : w'.metrics.size_bytes = w.metrics.size_bytes + g

variable {cache : DiskCache} {w0 w : World} {C : Contents} {g : Int} {p q : PathBuf}

theorem Leads.refl (h : cache.Laid w.tree) : Leads cache w w w.tree.content 0 :=
  ⟨h, rfl, Keeps.refl _ _, Nat.le_refl _, fun _ _ => rfl, (Int.add_zero _).symm⟩

/-- The tree changes and nothing else. -/
theorem Leads.setTree {t : FileTree (List Char) UInt8} {C' : Contents}
    (l : Leads cache w0 w C g) (ht : cache.Laid t) (hk : Keeps cache.bodies w.tree t)
    (hc : t.content = C') : Leads cache w0 (w.setTree t) C' g :=
  ⟨ht, hc, l.keeps.trans hk, l.opened_le, l.files, l.gauge⟩

/-- One more file is open. -/
theorem Leads.openIno (l : Leads cache w0 w C g) (i : Nat) :
    Leads cache w0 (w.openIno i) C g := by
  refine ⟨l.laid, l.content, l.keeps, Nat.le_succ_of_le l.opened_le, ?_, l.gauge⟩
  intro f hf
  have hne : f ≠ w.opened := Nat.ne_of_lt (Nat.lt_of_lt_of_le hf l.opened_le)
  simp only [World.openIno, Function.update_of_ne hne]
  exact l.files f hf

theorem Leads.setMetrics (l : Leads cache w0 w C g) (m : CacheMetrics) (n : Int)
    (h : m.size_bytes = w.metrics.size_bytes + n) :
    Leads cache w0 (w.setMetrics m) C (g + n) :=
  ⟨l.laid, l.content, l.keeps, l.opened_le, l.files, by
    simp only [World.setMetrics, h, l.gauge]
    omega⟩

theorem Leads.node_of_some {d : Bytes} (l : Leads cache w0 w C g) (h : C p = some d) :
    ∃ i, w.tree.node p = some (.file i) ∧ w.tree.data i = d := by
  rw [← l.content] at h
  obtain ⟨i, hi⟩ := content_isSome.mp (by rw [h]; rfl : (w.tree.content p).isSome)
  rw [content_of_file hi, Option.some.injEq] at h
  exact ⟨i, hi, h⟩

/-- Where one file of a key stands, the others have their directory. -/
theorem Leads.hasParent {hash : CombinedHash} {n m : List Char} {d : Bytes}
    (l : Leads cache w0 w C g) (h : C (cache.entry hash n) = some d) :
    w.tree.HasParent (cache.entry hash m) := by
  obtain ⟨i, hi, _⟩ := l.node_of_some h
  refine ⟨DiskCache.entry_ne_nil, ?_⟩
  have := (node_parent hi DiskCache.entry_ne_nil).2
  rwa [DiskCache.dropLast_entry] at this ⊢

theorem Leads.canCreate (l : Leads cache w0 w C g) (hp : p ∈ cache.files)
    (hpar : w.tree.HasParent p) : w.tree.CanCreate p := ⟨l.laid.no_dir p hp, hpar⟩

/-! ## The directories -/

theorem create_dir_all_spec {Q : Except IoError Unit → World → Prop}
    (l : Leads cache w0 w C g) (hp : p ∈ cache.dirs)
    (h : ∀ w', Leads cache w0 w' C g → w'.tree.node p = some .dir → w'.opened = w.opened →
      w'.files = w.files → Q (.ok ()) w') :
    wp answer Calm (fs.create_dir_all p) Q w := by
  intro c hc
  have hdir : (w.tree.mkdirs p).node p = some .dir :=
    node_mkdirs_of_above (fun r hr i => l.laid.no_file r (DiskCache.mem_dirs_of_prefix hp hr) i)
      List.prefix_rfl
  have hlaid : cache.Laid (w.tree.mkdirs p) := l.laid.mkdirs fun q hq =>
    DiskCache.not_mem_files_of_mem_dirs (DiskCache.mem_dirs_of_prefix hp hq)
  have hcont : (w.tree.mkdirs p).content = C := by
    rw [← l.content]
    funext q
    exact content_mkdirs _ _ _
  simp only [answer, Choice.guard, show c.fault = none from hc, hdir, if_pos]
  exact h _ (l.setTree hlaid (Keeps.mkdirs _ _ _) hcont) hdir rfl rfl

theorem remove_dir_spec {Q : Except IoError Unit → World → Prop} (l : Leads cache w0 w C g)
    (h : ∀ r w', Leads cache w0 w' C g → Q r w') :
    wp answer Calm (fs.remove_dir p) Q w := by
  intro c hc
  simp only [answer, Choice.guard, show c.fault = none from hc]
  split
  · rename_i hd
    split
    · refine h _ _ (l.setTree (l.laid.remove _) (Keeps.remove _ _ _) ?_)
      rw [← l.content]
      funext q
      exact content_remove_dir hd q
    · exact h _ _ l
  · exact h _ _ l
  · exact h _ _ l

/-! ## The files -/

theorem read_spec {Q : Except IoError Bytes → World → Prop} (l : Leads cache w0 w C g)
    (hnone : C p = none → ∀ e, Q (.error e) w) (hsome : ∀ d, C p = some d → Q (.ok d) w) :
    wp answer Calm (fs.read p) Q w := by
  intro c hc
  simp only [answer, Choice.guard, show c.fault = none from hc, l.content]
  cases hC : C p with
  | none => exact hnone hC _
  | some d => exact hsome d hC

theorem open_read_spec {Q : Except IoError Nat → World → Prop} (l : Leads cache w0 w C g)
    (hp : p ∈ cache.files) (hnone : C p = none → ∀ e, Q (.error e) w)
    (hsome : ∀ i d, C p = some d → w.tree.node p = some (.file i) → w.tree.data i = d →
      Q (.ok w.opened) (w.openIno i)) : wp answer Calm (File.open_read p) Q w := by
  intro c hc
  simp only [answer, Choice.guard, show c.fault = none from hc]
  rcases l.laid.node_cases hp with hn | ⟨i, hn⟩
  · rw [hn]
    exact hnone (by rw [← l.content]; exact content_eq_none_of_node hn) _
  · rw [hn]
    exact hsome i _ (by rw [← l.content]; exact content_of_file hn) hn rfl

theorem open_append_spec {Q : Except IoError Nat → World → Prop} (l : Leads cache w0 w C g)
    (hp : p ∈ cache.files) (hnone : C p = none → ∀ e, Q (.error e) w)
    (hsome : ∀ i d, C p = some d → w.tree.node p = some (.file i) → w.tree.data i = d →
      Q (.ok w.opened) (w.openIno i)) : wp answer Calm (File.open_append p) Q w :=
  open_read_spec (p := p) l hp hnone hsome

/-- A file that is created, or emptied. -/
theorem create_spec {Q : Except IoError Nat → World → Prop} (l : Leads cache w0 w C g)
    (hp : p ∈ cache.files) (hb : p ∉ cache.bodies) (hpar : w.tree.HasParent p)
    (h : ∀ f w', Leads cache w0 w' (Function.update C p (some [])) g → Q (.ok f) w') :
    wp answer Calm (File.create p) Q w := by
  intro c hc
  have hcan := l.canCreate hp hpar
  obtain ⟨i, hi, _⟩ := node_create_self hcan
  simp only [answer, Choice.guard, show c.fault = none from hc, hcan, if_pos, hi]
  refine h _ _ (Leads.openIno (l.setTree (l.laid.create hcan ?_) (Keeps.create hcan hb) ?_) i)
  · exact DiskCache.not_mem_dirs_of_mem_files hp
  · rw [contents_create hcan, l.content]

/-- A file that is written whole. -/
theorem write_spec {Q : Except IoError Unit → World → Prop} {d : Bytes}
    (l : Leads cache w0 w C g) (hp : p ∈ cache.files) (hb : p ∉ cache.bodies)
    (hpar : w.tree.HasParent p)
    (h : ∀ w', Leads cache w0 w' (Function.update C p (some d)) g → Q (.ok ()) w') :
    wp answer Calm (fs.write p d) Q w := by
  intro c hc
  have hcan := l.canCreate hp hpar
  simp only [answer, show c.fault = none from hc, hcan, if_pos]
  refine h _ (l.setTree (l.laid.put hcan ?_ d) (Keeps.put hcan hb d) ?_)
  · exact DiskCache.not_mem_dirs_of_mem_files hp
  · rw [contents_put hcan, l.content]

/-- More bytes at the end of the file that a handle has open, where it stands at `p`. -/
theorem write_all_spec {Q : Except IoError Unit → World → Prop} {f : Nat} {d d' : Bytes}
    (l : Leads cache w0 w C g) (hb : p ∉ cache.bodies)
    (hf : w.tree.node p = some (.file (w.files f).ino)) (hd : C p = some d)
    (h : ∀ w', Leads cache w0 w' (Function.update C p (some (d ++ d'))) g → Q (.ok ()) w') :
    wp answer Calm (File.write_all f d') Q w := by
  intro c hc
  have hdata : w.tree.data (w.files f).ino = d := by
    rw [← l.content, content_of_file hf, Option.some.injEq] at hd
    exact hd
  simp only [answer, show c.fault = none from hc, World.append, hdata]
  refine h _ (l.setTree (l.laid.setData _ _) (Keeps.setData hf hb _) ?_)
  rw [contents_setData hf, l.content]

theorem flush_spec {Q : Except IoError Unit → World → Prop} {f : Nat} (h : Q (.ok ()) w) :
    wp answer Calm (File.flush f) Q w := by
  intro c hc
  simp only [answer, Choice.guard, show c.fault = none from hc]
  exact h

theorem len_spec {Q : Except IoError Nat → World → Prop} {f : Nat}
    (h : Q (.ok (w.tree.data (w.files f).ino).length) w) : wp answer Calm (File.len f) Q w := by
  intro c hc
  simp only [answer, Choice.guard, show c.fault = none from hc]
  exact h

/-- A read gives at least one byte while any are left, and moves the cursor past them. -/
theorem file_read_spec {Q : Except IoError Bytes → World → Prop} {f n : Nat}
    (h : ∀ k, Q (.ok ((w.rest f).take (min n (k + 1))))
      (w.setPos f ((w.files f).pos + ((w.rest f).take (min n (k + 1))).length))) :
    wp answer Calm (File.read f n) Q w := by
  intro c hc
  simp only [answer, Choice.guard, show c.fault = none from hc]
  exact h c.amount

theorem seek_spec {Q : Except IoError Unit → World → Prop} {f pos : Nat}
    (h : Q (.ok ()) (w.setPos f pos)) : wp answer Calm (File.seek f pos) Q w := by
  intro c hc
  simp only [answer, Choice.guard, show c.fault = none from hc]
  exact h

/-- A file moves over a body. -/
theorem rename_spec {Q : Except IoError Unit → World → Prop} {hash : CombinedHash}
    {n : List Char} (l : Leads cache w0 w C g) (hn : IsTmp n)
    (hnone : C (cache.entry hash n) = none → ∀ e, Q (.error e) w)
    (hsome : ∀ d w', C (cache.entry hash n) = some d →
      Leads cache w0 w' (Function.update (Function.update C (cache.entry hash n) none)
        (cache.entry hash "body".toList) (some d)) g → Q (.ok ()) w') :
    wp answer Calm (fs.rename (cache.entry hash n) (cache.entry hash "body".toList)) Q w := by
  intro c hc
  simp only [answer, Choice.guard, show c.fault = none from hc]
  rcases l.laid.node_cases (p := cache.entry hash n) DiskCache.entry_mem_files with hp | ⟨i, hp⟩
  · rw [hp]
    exact hnone (by rw [← l.content]; exact content_eq_none_of_node hp) _
  · have hC : C (cache.entry hash n) = some (w.tree.data i) := by
      rw [← l.content]
      exact content_of_file hp
    have hcan : w.tree.CanMove (cache.entry hash n) (cache.entry hash "body".toList) := by
      refine ⟨l.laid.no_dir _ DiskCache.entry_mem_files, l.hasParent hC, ?_⟩
      exact DiskCache.entry_ne (hn.ne (by decide))
    simp only [hp, hcan, if_pos]
    refine hsome _ _ hC (l.setTree (l.laid.move hp hcan ?_) (Keeps.move hp hcan ?_) ?_)
    · exact DiskCache.entry_not_mem_dirs
    · exact DiskCache.body_mem_bodies
    · rw [contents_move hp hcan, l.content]

theorem metadata_spec {Q : Except IoError Nat → World → Prop} (l : Leads cache w0 w C g)
    (hp : p ∈ cache.files) (hnone : C p = none → ∀ e, Q (.error e) w)
    (hsome : ∀ d, C p = some d → Q (.ok d.length) w) :
    wp answer Calm (fs.metadata p) Q w := by
  intro c hc
  simp only [answer, Choice.guard, show c.fault = none from hc]
  rcases l.laid.node_cases hp with hn | ⟨i, hn⟩
  · rw [hn]
    exact hnone (by rw [← l.content]; exact content_eq_none_of_node hn) _
  · rw [hn]
    exact hsome _ (by rw [← l.content]; exact content_of_file hn)

theorem path_exists_spec {Q : Bool → World → Prop} (l : Leads cache w0 w C g)
    (hp : p ∈ cache.files) (h : Q (C p).isSome w) :
    wp answer Calm (fs.path_exists p) Q w := by
  intro c hc
  simp only [answer, show c.fault = none from hc, Option.isNone_none, Bool.true_and]
  have hsame : (w.tree.node p).isSome = (C p).isSome := by
    rw [← l.content]
    rcases l.laid.node_cases hp with hn | ⟨i, hn⟩
    · rw [hn, content_eq_none_of_node hn]
      rfl
    · rw [hn, content_of_file hn]
      rfl
  rw [hsame]
  exact h

/-- A file that goes, or was not there. -/
theorem remove_file_spec {Q : Except IoError Unit → World → Prop} (l : Leads cache w0 w C g)
    (hp : p ∈ cache.files) (hnone : C p = none → ∀ e, Q (.error e) w)
    (hsome : ∀ d w', C p = some d → Leads cache w0 w' (Function.update C p none) g →
      Q (.ok ()) w') : wp answer Calm (fs.remove_file p) Q w := by
  intro c hc
  simp only [answer, Choice.guard, show c.fault = none from hc]
  rcases l.laid.node_cases hp with hn | ⟨i, hn⟩
  · rw [hn]
    exact hnone (by rw [← l.content]; exact content_eq_none_of_node hn) _
  · rw [hn]
    refine hsome (w.tree.data i) _ (by rw [← l.content]; exact content_of_file hn)
      (l.setTree (l.laid.remove _) (Keeps.remove _ _ _) ?_)
    rw [contents_remove hn, l.content]

/-- A removal whose reply nobody reads. -/
theorem remove_file_ignored_spec {Q : Except IoError Unit → World → Prop}
    (l : Leads cache w0 w C g) (hp : p ∈ cache.files)
    (h : ∀ r w', Leads cache w0 w' (Function.update C p none) g → Q r w') :
    wp answer Calm (fs.remove_file p) Q w := by
  refine remove_file_spec l hp (fun hn e => h _ _ ?_) (fun d w' _ l' => h _ _ l')
  rwa [← hn, Function.update_eq_self]

/-! ## The metrics -/

theorem inc_by_spec {Q : Unit → World → Prop} (l : Leads cache w0 w C g) (m : Counter) (n : Nat)
    (h : ∀ w', Leads cache w0 w' C g → w'.tree = w.tree → w'.files = w.files →
      w'.opened = w.opened → Q () w') : wp answer Calm (inc_by m n) Q w := by
  intro c _
  refine h _ ?_ rfl rfl rfl
  have := l.setMetrics (w.metrics.inc_by m n) 0 (Int.add_zero _).symm
  rwa [Int.add_zero] at this

theorem inc_spec {Q : Unit → World → Prop} (l : Leads cache w0 w C g) (m : Counter)
    (h : ∀ w', Leads cache w0 w' C g → w'.tree = w.tree → w'.files = w.files →
      w'.opened = w.opened → Q () w') : wp answer Calm (inc m) Q w := inc_by_spec l m 1 h

theorem size_bytes_add_spec {Q : Unit → World → Prop} (l : Leads cache w0 w C g) (n : Int)
    (h : ∀ w', Leads cache w0 w' C (g + n) → Q () w') :
    wp answer Calm (size_bytes_add n) Q w :=
  fun _ _ => h _ (l.setMetrics (w.metrics.add n) n rfl)

theorem size_bytes_sub_spec {Q : Unit → World → Prop} (l : Leads cache w0 w C g) (n : Int)
    (h : ∀ w', Leads cache w0 w' C (g - n) → Q () w') :
    wp answer Calm (size_bytes_sub n) Q w :=
  fun _ _ => h _ (l.setMetrics (w.metrics.add (-n)) (-n) rfl)

end edge_cdn_store.disk_cache
