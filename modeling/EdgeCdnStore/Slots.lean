-- The three files of one key, while calls on other paths go on. A call moves one of
-- the three or none of them, and here it says which, for every call that the tasks
-- of the pool make and that does not fail.
import EdgeCdnStore.DiskSpecs
import EdgeCdnStore.Tasks

open edge_cdn_store.programs edge_cdn_store.io
open edge_cdn_store.file_tree edge_cdn_store.file_tree.FileTree
open edge_cdn_store.disk_cache

namespace edge_cdn_store.slots

/-- What stands of a key: the number of its body, and its metadata. -/
structure Slot where
  body : Option Nat
  cache_meta : Option Bytes
  hdr : Option Bytes
  deriving DecidableEq

/-- The number of the file at a path. -/
def ino (t : FileTree (List Char) UInt8) (p : PathBuf) : Option Nat :=
  match t.node p with
  | some (.file i) => some i
  | _ => none

def slot_of (cache : DiskCache) (hash : CombinedHash) (w : World) : Slot :=
  ⟨ino w.tree (cache.body hash), w.tree.content (cache.meta_part hash),
    w.tree.content (cache.hdr hash)⟩

/-- All three files, or none of them. -/
def Slot.AllOrNone (s : Slot) : Prop :=
  (s.body.isSome ∧ s.cache_meta.isSome ∧ s.hdr.isSome) ∨ s = ⟨none, none, none⟩

theorem Slot.AllOrNone.bits {s : Slot} (h : s.AllOrNone) :
    ∃ b, s.body.isSome = b ∧ s.cache_meta.isSome = b ∧ s.hdr.isSome = b := by
  rcases h with h | rfl
  · exact ⟨true, h⟩
  · exact ⟨false, rfl, rfl, rfl⟩

theorem Slot.allOrNone_of_bits {s : Slot} (h : s.body.isSome = s.cache_meta.isSome)
    (h' : s.cache_meta.isSome = s.hdr.isSome) : s.AllOrNone := by
  obtain ⟨b, m, d⟩ := s
  cases b with
  | none =>
    obtain rfl : m = none := by simpa using h.symm
    obtain rfl : d = none := by simpa using h'.symm
    exact Or.inr rfl
  | some i =>
    have hm : m.isSome = true := h.symm
    exact Or.inl ⟨rfl, hm, h'.symm.trans hm⟩

/-- A call led from `w` to `w'`, where the key has the files `s`. No temporary file of the
key came up, and the open files stay. -/
structure Moves (cache : DiskCache) (hash : CombinedHash) (w w' : World) (s : Slot) : Prop where
  laid : cache.Laid w'.tree
  slot : slot_of cache hash w' = s
  no_tmp : ∀ n, IsTmp n → w.tree.content (cache.entry hash n) = none →
    w'.tree.content (cache.entry hash n) = none
  opened_le : w.opened ≤ w'.opened
  files : ∀ f < w.opened, (w'.files f).ino = (w.files f).ino

variable {cache : DiskCache} {hash : CombinedHash} {w w' : World} {c : Choice} {n : List Char}
  {t : FileTree (List Char) UInt8}

theorem ino_of_file {p : PathBuf} {i : Nat} (h : t.node p = some (.file i)) : ino t p = some i := by
  unfold ino
  rw [h]

theorem ino_eq_some {p : PathBuf} {i : Nat} : ino t p = some i ↔ t.node p = some (.file i) := by
  unfold ino
  cases t.node p with
  | none => simp
  | some x => cases x <;> simp

theorem ino_congr {t' : FileTree (List Char) UInt8} {p : PathBuf}
    (h : ∀ i, t'.node p = some (.file i) ↔ t.node p = some (.file i)) : ino t' p = ino t p := by
  refine Option.ext fun i => ?_
  rw [ino_eq_some, ino_eq_some]
  exact h i

/-- The parts of a slot, by what stands under the three names. -/
theorem slot_ext {s : Slot} (hb : ino w.tree (cache.entry hash "body".toList) = s.body)
    (hm : w.tree.content (cache.entry hash "meta".toList) = s.cache_meta)
    (hh : w.tree.content (cache.entry hash "hdr".toList) = s.hdr) : slot_of cache hash w = s := by
  obtain ⟨b, m, h⟩ := s
  simp only [slot_of, Slot.mk.injEq]
  exact ⟨hb, hm, hh⟩

/-- A key that has any of its files has its directory, and can have all of them. -/
theorem canCreate_of_slot (hw : cache.Laid w.tree) (hs : slot_of cache hash w ≠ ⟨none, none, none⟩)
    (m : List Char) : w.tree.CanCreate (cache.entry hash m) := by
  have hfile : ∃ n i, w.tree.node (cache.entry hash n) = some (.file i) := by
    by_contra hno
    push Not at hno
    have hnone : ∀ n, w.tree.content (cache.entry hash n) = none := fun n => by
      rcases hw.node_cases (p := cache.entry hash n) DiskCache.entry_mem_files with hn | ⟨i, hn⟩
      · exact content_eq_none_of_node hn
      · exact absurd hn (hno n i)
    refine hs (slot_ext ?_ (hnone _) (hnone _))
    rw [← Option.not_isSome_iff_eq_none]
    intro hsome
    obtain ⟨i, hi⟩ := Option.isSome_iff_exists.mp hsome
    exact hno _ i (ino_eq_some.mp hi)
  obtain ⟨n, i, hi⟩ := hfile
  refine ⟨hw.no_dir _ DiskCache.entry_mem_files, DiskCache.entry_ne_nil, ?_⟩
  have := (node_parent hi DiskCache.entry_ne_nil).2
  rwa [DiskCache.dropLast_entry] at this ⊢

/-! ## The calls that move none of the three -/

theorem Moves.refl (hw : cache.Laid w.tree) : Moves cache hash w w (slot_of cache hash w) :=
  ⟨hw, rfl, fun _ _ h => h, Nat.le_refl _, fun _ _ => rfl⟩

theorem Moves.openIno (hw : cache.Laid w.tree) (i : Nat) :
    Moves cache hash w (w.openIno i) (slot_of cache hash w) := by
  refine ⟨hw, rfl, fun _ _ h => h, Nat.le_succ _, fun f hf => ?_⟩
  simp only [World.openIno, Function.update_of_ne (Nat.ne_of_lt hf)]

/-- The tree changes, and at most at paths that are not of the three files. -/
theorem Moves.setTree (ht : cache.Laid t)
    (hn : ∀ m, '-' ∉ m → ∀ i, t.node (cache.entry hash m) = some (.file i) ↔
      w.tree.node (cache.entry hash m) = some (.file i))
    (hd : ∀ m, '-' ∉ m → t.content (cache.entry hash m) = w.tree.content (cache.entry hash m))
    (hno : ∀ n, IsTmp n → w.tree.content (cache.entry hash n) = none →
      t.content (cache.entry hash n) = none) :
    Moves cache hash w (w.setTree t) (slot_of cache hash w) :=
  ⟨ht, slot_ext (ino_congr (hn _ (by decide))) (hd _ (by decide)) (hd _ (by decide)), hno,
    Nat.le_refl _, fun _ _ => rfl⟩

theorem Moves.mkdirs (hw : cache.Laid w.tree) {p : PathBuf} (hp : p ∈ cache.dirs) :
    Moves cache hash w (w.setTree (w.tree.mkdirs p)) (slot_of cache hash w) := by
  have hlaid : cache.Laid (w.tree.mkdirs p) := hw.mkdirs fun q hq =>
    DiskCache.not_mem_files_of_mem_dirs (DiskCache.mem_dirs_of_prefix hp hq)
  exact Moves.setTree hlaid (fun _ _ _ => node_mkdirs_file) (fun _ _ => content_mkdirs _ _ _)
    fun _ _ h => (content_mkdirs _ _ _).trans h

/-- A directory goes. -/
theorem Moves.remove_dir (hw : cache.Laid w.tree) {p : PathBuf} (hp : w.tree.node p = some .dir) :
    Moves cache hash w (w.setTree (w.tree.remove p)) (slot_of cache hash w) := by
  refine Moves.setTree (hw.remove _) (fun m _ i => ?_) (fun _ _ => content_remove_dir hp _)
    fun _ _ h => (content_remove_dir hp _).trans h
  have hne : cache.entry hash m ≠ p := by
    rintro rfl
    exact hw.no_dir _ DiskCache.entry_mem_files hp
  rw [node_remove, if_neg fun h => hne h.1]

/-- A temporary file goes. -/
theorem Moves.remove_tmp (hw : cache.Laid w.tree) (hn : IsTmp n) {i : Nat}
    (hi : w.tree.node (cache.entry hash n) = some (.file i)) :
    Moves cache hash w (w.setTree (w.tree.remove (cache.entry hash n)))
      (slot_of cache hash w) := by
  have hne : ∀ m, '-' ∉ m → cache.entry hash m ≠ cache.entry hash n :=
    fun m hm => (entry_ne_of_tmp cache hn hm).symm
  refine Moves.setTree (hw.remove _) (fun m hm j => ?_) (fun m hm => ?_) fun k _ h => ?_
  · rw [node_remove, if_neg fun h => hne m hm h.1]
  · rw [content_remove_file hi, if_neg (hne m hm)]
  · rw [content_remove_file hi, h, ite_self]

/-- The calls that move none of the three files of any key. -/
def Quiet (cache : DiskCache) (hash : CombinedHash) : Io → Prop
  | .create_dir_all p => p ∈ cache.dirs
  | .remove_file p => ∃ n, IsTmp n ∧ p = cache.entry hash n
  | .create_file _ => False
  | .read_file _ _ => False
  | .seek_file _ _ => False
  | .write_all _ _ => False
  | .copy_some _ _ => False
  | .copy_rest _ _ => False
  | .write _ _ => False
  | .rename _ _ => False
  | _ => True

theorem moves_quiet {e : Io} (he : Quiet cache hash e) (hc : Calm c) (hw : cache.Laid w.tree) :
    Moves cache hash w (answer e c w).2 (slot_of cache hash w) := by
  have hfault : c.fault = none := hc
  cases e
  case create_dir_all p =>
    simp only [answer, Choice.guard, hfault]
    exact Moves.mkdirs hw he
  case remove_file p =>
    obtain ⟨n, hn, rfl⟩ := he
    simp only [answer, Choice.guard, hfault]
    split
    · exact Moves.remove_tmp hw hn ‹_›
    · exact Moves.refl hw
    · exact Moves.refl hw
  case remove_dir p =>
    simp only [answer, Choice.guard, hfault]
    split
    · split
      · exact Moves.remove_dir hw ‹_›
      · exact Moves.refl hw
    · exact Moves.refl hw
    · exact Moves.refl hw
  case open_file p =>
    simp only [answer, Choice.guard, hfault]
    split
    · exact Moves.openIno hw _
    · exact Moves.refl hw
  case open_append p =>
    simp only [answer, Choice.guard, hfault]
    split
    · exact Moves.openIno hw _
    · exact Moves.refl hw
  all_goals first
    | exact absurd he id
    | exact Moves.refl hw
    | exact ⟨hw, rfl, fun _ _ h => h, Nat.le_refl _, fun _ _ => rfl⟩
    | (simp only [answer, Choice.guard, hfault]; exact Moves.refl hw)

/-! ## The calls that move one of the three -/

/-- The tree changes, and with it the slot. -/
theorem Moves.of_tree {s : Slot} (ht : cache.Laid t)
    (hb : ∀ i, t.node (cache.entry hash "body".toList) = some (.file i) ↔ s.body = some i)
    (hm : t.content (cache.entry hash "meta".toList) = s.cache_meta)
    (hh : t.content (cache.entry hash "hdr".toList) = s.hdr)
    (hno : ∀ n, IsTmp n → w.tree.content (cache.entry hash n) = none →
      t.content (cache.entry hash n) = none) : Moves cache hash w (w.setTree t) s := by
  refine ⟨ht, slot_ext (Option.ext fun i => ?_) hm hh, hno, Nat.le_refl _, fun _ _ => rfl⟩
  exact ino_eq_some.trans (hb i)

theorem body_eq_some {i : Nat} : (slot_of cache hash w).body = some i ↔
    w.tree.node (cache.entry hash "body".toList) = some (.file i) := ino_eq_some

/-- A temporary file becomes the body, unless it is not there. -/
theorem moves_rename (hw : cache.Laid w.tree) (hc : Calm c) (hn : IsTmp n) :
    (∃ i w', w.tree.node (cache.entry hash n) = some (.file i) ∧
        answer (.rename (cache.entry hash n) (cache.entry hash "body".toList)) c w = (.ok (), w') ∧
        Moves cache hash w w' { slot_of cache hash w with body := some i }) ∨
      (w.tree.content (cache.entry hash n) = none ∧
        ∃ e, answer (.rename (cache.entry hash n) (cache.entry hash "body".toList)) c w =
          (.error e, w)) := by
  have hfault : c.fault = none := hc
  simp only [answer, Choice.guard, hfault]
  rcases hw.node_cases (p := cache.entry hash n) DiskCache.entry_mem_files with hp | ⟨i, hp⟩
  · rw [hp]
    exact Or.inr ⟨content_eq_none_of_node hp, _, rfl⟩
  · have hparent := (node_parent hp DiskCache.entry_ne_nil).2
    have hcan : w.tree.CanMove (cache.entry hash n) (cache.entry hash "body".toList) := by
      refine ⟨hw.no_dir _ DiskCache.entry_mem_files, ⟨DiskCache.entry_ne_nil, ?_⟩, ?_⟩
      · rwa [DiskCache.dropLast_entry] at hparent ⊢
      · exact DiskCache.entry_ne (hn.ne (by decide))
    have hlaid : cache.Laid (w.tree.move (cache.entry hash n) (cache.entry hash "body".toList)) :=
      hw.move hp hcan DiskCache.entry_not_mem_dirs
    have hkeep : ∀ m, '-' ∉ m → m ≠ "body".toList →
        (w.tree.move (cache.entry hash n) (cache.entry hash "body".toList)).content
          (cache.entry hash m) = w.tree.content (cache.entry hash m) := fun m hm hne => by
      rw [content_move hp hcan, if_neg (DiskCache.entry_ne hne),
        if_neg (entry_ne_of_tmp cache hn hm).symm]
    simp only [hp, hcan, if_pos]
    refine Or.inl ⟨i, _, rfl, rfl, Moves.of_tree hlaid (fun j => ?_) (hkeep _ (by decide) (by decide))
      (hkeep _ (by decide) (by decide)) fun k hk hnone => ?_⟩
    · rw [node_move hp hcan, if_pos rfl]
      simp
    · rw [content_move hp hcan, if_neg (DiskCache.entry_ne (hk.ne (by decide))), hnone, ite_self]

/-- The same for a handler of the key. -/
theorem rename_of_handler {m : DiskMissHandler} (hm : m.Of cache hash)
    (hw : cache.Laid w.tree) (hc : Calm c) :
    (∃ i w', w.tree.node m.tmp_path = some (.file i) ∧
        answer (.rename m.tmp_path m.body_path) c w = (.ok (), w') ∧
        Moves cache hash w w' { slot_of cache hash w with body := some i }) ∨
      (w.tree.content m.tmp_path = none ∧
        ∃ e, answer (.rename m.tmp_path m.body_path) c w = (.error e, w)) := by
  obtain ⟨n, hn, htmp_path⟩ := hm.tmp_path
  rw [htmp_path, hm.body_path]
  exact moves_rename hw hc hn

/-- A file is written whole, unless the key has no directory, and so no files. -/
theorem answer_write (hw : cache.Laid w.tree) (hc : Calm c) (m : List Char) (d : Bytes) :
    (w.tree.CanCreate (cache.entry hash m) ∧
      answer (.write (cache.entry hash m) d) c w =
        (.ok (), w.setTree (w.tree.put (cache.entry hash m) d))) ∨
    (slot_of cache hash w = ⟨none, none, none⟩ ∧
      ∃ e, answer (.write (cache.entry hash m) d) c w = (.error e, w)) := by
  have hfault : c.fault = none := hc
  simp only [answer, hfault]
  by_cases hcan : w.tree.CanCreate (cache.entry hash m)
  · exact Or.inl ⟨hcan, by rw [if_pos hcan]⟩
  · refine Or.inr ⟨?_, _, by rw [if_neg hcan]⟩
    by_contra hs
    exact hcan (canCreate_of_slot hw hs m)

/-- What a write of one of the two metadata files leaves of the others. -/
theorem Moves.put {s : Slot} {m : List Char} {d : Bytes} (hw : cache.Laid w.tree)
    (hcan : w.tree.CanCreate (cache.entry hash m)) (hm : '-' ∉ m) (hbody : m ≠ "body".toList)
    (hs : s.body = (slot_of cache hash w).body)
    (hmeta : s.cache_meta = if m = "meta".toList then some d else (slot_of cache hash w).cache_meta)
    (hhdr : s.hdr = if m = "hdr".toList then some d else (slot_of cache hash w).hdr) :
    Moves cache hash w (w.setTree (w.tree.put (cache.entry hash m) d)) s := by
  have hcontent : ∀ n, (w.tree.put (cache.entry hash m) d).content (cache.entry hash n) =
      if m = n then some d else w.tree.content (cache.entry hash n) := fun n => by
    rw [content_put hcan]
    by_cases hn : m = n
    · rw [if_pos (by rw [hn]), if_pos hn]
    · rw [if_neg (DiskCache.entry_ne (Ne.symm hn)), if_neg hn]
  refine Moves.of_tree (hw.put hcan (DiskCache.not_mem_dirs_of_mem_files
    DiskCache.entry_mem_files) d) (fun i => ?_) ?_ ?_ fun n hn hnone => ?_
  · rw [node_put hcan, node_create hcan, if_neg (DiskCache.entry_ne hbody.symm), hs, body_eq_some]
  · rw [hcontent, hmeta]
    rfl
  · rw [hcontent, hhdr]
    rfl
  · rw [hcontent, if_neg (hn.ne hm).symm, hnone]

theorem moves_write_meta (hw : cache.Laid w.tree) (hc : Calm c) (d : Bytes) :
    (∃ w', answer (.write (cache.entry hash "meta".toList) d) c w = (.ok (), w') ∧
      Moves cache hash w w' { slot_of cache hash w with cache_meta := some d }) ∨
    (slot_of cache hash w = ⟨none, none, none⟩ ∧
      ∃ e, answer (.write (cache.entry hash "meta".toList) d) c w = (.error e, w)) := by
  refine (answer_write hw hc _ d).imp_left fun ⟨hcan, h⟩ => ⟨_, h, ?_⟩
  exact Moves.put hw hcan (by decide) (by decide) rfl (if_pos rfl).symm (if_neg (by decide)).symm

theorem moves_write_hdr (hw : cache.Laid w.tree) (hc : Calm c) (d : Bytes) :
    (∃ w', answer (.write (cache.entry hash "hdr".toList) d) c w = (.ok (), w') ∧
      Moves cache hash w w' { slot_of cache hash w with hdr := some d }) ∨
    (slot_of cache hash w = ⟨none, none, none⟩ ∧
      ∃ e, answer (.write (cache.entry hash "hdr".toList) d) c w = (.error e, w)) := by
  refine (answer_write hw hc _ d).imp_left fun ⟨hcan, h⟩ => ⟨_, h, ?_⟩
  exact Moves.put hw hcan (by decide) (by decide) rfl (if_neg (by decide)).symm (if_pos rfl).symm

/-- A file goes, if it was there. -/
theorem moves_remove {s : Slot} {m : List Char} (hw : cache.Laid w.tree) (hc : Calm c)
    (hbody : s.body = if m = "body".toList then none else (slot_of cache hash w).body)
    (hmeta : s.cache_meta = if m = "meta".toList then none else (slot_of cache hash w).cache_meta)
    (hhdr : s.hdr = if m = "hdr".toList then none else (slot_of cache hash w).hdr) :
    ∃ r w', answer (.remove_file (cache.entry hash m)) c w = (r, w') ∧
      Moves cache hash w w' s := by
  have hfault : c.fault = none := hc
  simp only [answer, Choice.guard, hfault]
  rcases hw.node_cases (p := cache.entry hash m) DiskCache.entry_mem_files with hp | ⟨i, hp⟩
  · -- nothing goes, and the slot had nothing there
    have hsame : slot_of cache hash w = s := by
      refine slot_ext ?_ ?_ ?_
      · rw [hbody]
        by_cases hm : m = "body".toList
        · subst hm
          rw [if_pos rfl, ino, hp]
        · rw [if_neg hm]
          rfl
      · rw [hmeta]
        by_cases hm : m = "meta".toList
        · subst hm
          rw [if_pos rfl, content_eq_none_of_node hp]
        · rw [if_neg hm]
          rfl
      · rw [hhdr]
        by_cases hm : m = "hdr".toList
        · subst hm
          rw [if_pos rfl, content_eq_none_of_node hp]
        · rw [if_neg hm]
          rfl
    simp only [hp]
    exact ⟨_, _, rfl, hsame ▸ Moves.refl hw⟩
  · have hcontent : ∀ n, (w.tree.remove (cache.entry hash m)).content (cache.entry hash n) =
        if m = n then none else w.tree.content (cache.entry hash n) := fun n => by
      rw [content_remove_file hp]
      by_cases hn : m = n
      · rw [if_pos (by rw [hn]), if_pos hn]
      · rw [if_neg (DiskCache.entry_ne (Ne.symm hn)), if_neg hn]
    simp only [hp]
    refine ⟨_, _, rfl, Moves.of_tree (hw.remove _) (fun j => ?_) ?_ ?_ fun n _ hnone => ?_⟩
    · rw [node_remove_file hp, hbody]
      by_cases hm : m = "body".toList
      · subst hm
        simp
      · rw [if_neg (DiskCache.entry_ne (Ne.symm hm)), if_neg hm, body_eq_some]
    · rw [hcontent, hmeta]
      rfl
    · rw [hcontent, hhdr]
      rfl
    · rw [hcontent, hnone, ite_self]

theorem moves_remove_body (hw : cache.Laid w.tree) (hc : Calm c) :
    ∃ r w', answer (.remove_file (cache.entry hash "body".toList)) c w = (r, w') ∧
      Moves cache hash w w' { slot_of cache hash w with body := none } :=
  moves_remove hw hc (if_pos rfl).symm (if_neg (by decide)).symm (if_neg (by decide)).symm

theorem moves_remove_meta (hw : cache.Laid w.tree) (hc : Calm c) :
    ∃ r w', answer (.remove_file (cache.entry hash "meta".toList)) c w = (r, w') ∧
      Moves cache hash w w' { slot_of cache hash w with cache_meta := none } :=
  moves_remove hw hc (if_neg (by decide)).symm (if_pos rfl).symm (if_neg (by decide)).symm

theorem moves_remove_hdr (hw : cache.Laid w.tree) (hc : Calm c) :
    ∃ r w', answer (.remove_file (cache.entry hash "hdr".toList)) c w = (r, w') ∧
      Moves cache hash w w' { slot_of cache hash w with hdr := none } :=
  moves_remove hw hc (if_neg (by decide)).symm (if_neg (by decide)).symm (if_pos rfl).symm

/-! ## The calls that look at one of the three -/

theorem answer_read (hc : Calm c) (p : PathBuf) :
    ∃ r, answer (.read p) c w = (r, w) ∧ r.toOption = w.tree.content p := by
  have hfault : c.fault = none := hc
  simp only [answer, Choice.guard, hfault]
  cases w.tree.content p with
  | none => exact ⟨_, rfl, rfl⟩
  | some d => exact ⟨_, rfl, rfl⟩

theorem answer_open_absent {p : PathBuf} (hc : Calm c) (hp : w.tree.content p = none) :
    ∃ e, answer (.open_file p) c w = (.error e, w) := by
  have hfault : c.fault = none := hc
  simp only [answer, Choice.guard, hfault]
  split
  · rename_i i hi
    rw [content_of_file hi] at hp
    cases hp
  · exact ⟨_, rfl⟩

/-- A handle on a body has the number that stands there now. -/
theorem answer_open_body (hw : cache.Laid w.tree) (hc : Calm c) :
    (∃ i, (slot_of cache hash w).body = some i ∧
      answer (.open_file (cache.entry hash "body".toList)) c w = (.ok w.opened, w.openIno i)) ∨
    ((slot_of cache hash w).body = none ∧
      ∃ e, answer (.open_file (cache.entry hash "body".toList)) c w = (.error e, w)) := by
  have hfault : c.fault = none := hc
  simp only [answer, Choice.guard, hfault]
  rcases hw.node_cases (p := cache.entry hash "body".toList) DiskCache.entry_mem_files
    with hp | ⟨i, hp⟩
  · rw [hp]
    refine Or.inr ⟨?_, _, rfl⟩
    change ino w.tree (cache.entry hash "body".toList) = none
    rw [ino, hp]
  · rw [hp]
    exact Or.inl ⟨i, body_eq_some.mpr hp, rfl⟩

theorem answer_exists_body (hw : cache.Laid w.tree) (hc : Calm c) :
    answer (.exists_path (cache.entry hash "body".toList)) c w =
      ((slot_of cache hash w).body.isSome, w) := by
  have hfault : c.fault = none := hc
  simp only [answer, hfault, Option.isNone_none, Bool.true_and]
  change (_, w) = ((ino w.tree (cache.entry hash "body".toList)).isSome, w)
  rcases hw.node_cases (p := cache.entry hash "body".toList) DiskCache.entry_mem_files
    with hp | ⟨i, hp⟩
  · rw [ino, hp]
    rfl
  · rw [ino, hp]
    rfl

end edge_cdn_store.slots
