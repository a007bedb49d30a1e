-- What a call leaves alone: the paths it does not go by, and the files that stand
-- at none of its paths and that none of its numbers has open.
import EdgeCdnStore.Io
import EdgeCdnStore.FileFrames

open edge_cdn_store.file_tree edge_cdn_store.file_tree.FileTree

namespace edge_cdn_store.io

/-- The paths where a call may make, open, write, move or remove something. -/
def Touches : Io → PathBuf → Prop
  | .create_dir_all p, q => q <+: p
  | .open_file p, q => q = p
  | .open_append p, q => q = p
  | .create_file p, q => q = p
  | .write p _, q => q = p
  | .rename p p', q => q = p ∨ q = p'
  | .remove_file p, q => q = p
  | .remove_dir p, q => q = p
  | _, _ => False

/-- The numbers that a call goes by. -/
def handles : Io → List Nat
  | .file_len f => [f]
  | .read_file f _ => [f]
  | .seek_file f _ => [f]
  | .write_all f _ => [f]
  | .flush f => [f]
  | .copy_some f g => [f, g]
  | .copy_rest f g => [f, g]
  | _ => []

/-- What stays as it is from one world to another, where the paths `T` are touched and the
files of the numbers `F` are written. -/
structure Leaves (T : PathBuf → Prop) (F : List Nat) (w w' : World) : Prop where
  node : ∀ q, ¬ T q → w'.tree.node q = w.tree.node q
  fresh_le : w.tree.fresh ≤ w'.tree.fresh
  data : ∀ i, i < w.tree.fresh → w.tree.Only {q | ¬ T q} i →
    (∀ f ∈ F, (w.files f).ino ≠ i) → w'.tree.data i = w.tree.data i
  stays : ∀ i, i < w.tree.fresh → w.tree.Only {q | ¬ T q} i → w'.tree.Only {q | ¬ T q} i
  opened_le : w.opened ≤ w'.opened
  files : ∀ f, f < w.opened → (w'.files f).ino = (w.files f).ino
  /-- A number that is new has open what stands at a path that was touched. -/
  got : ∀ f, w.opened ≤ f → f < w'.opened →
    ∃ q, T q ∧ w'.tree.node q = some (.file (w'.files f).ino)
  pid : w'.pid = w.pid

variable {T : PathBuf → Prop} {F : List Nat} {w w' : World} {c : Choice}

theorem Leaves.setMetrics (T : PathBuf → Prop) (F : List Nat) (w : World) (m : CacheMetrics) :
    Leaves T F w (w.setMetrics m) where
  node _ _ := rfl
  fresh_le := Nat.le_refl _
  data _ _ _ _ := rfl
  stays _ _ h := h
  opened_le := Nat.le_refl _
  files _ _ := rfl
  got _ hle hlt := absurd hlt (Nat.not_lt.mpr hle)
  pid := rfl

theorem Leaves.refl (T : PathBuf → Prop) (F : List Nat) (w : World) : Leaves T F w w :=
  Leaves.setMetrics T F w w.metrics

/-- A call that fails changes nothing, so it is enough to look at the other case. -/
theorem Leaves.guard {α : Type} {r : Except IoError α × World} (h : Leaves T F w r.2) :
    Leaves T F w (c.guard w r).2 := by
  unfold Choice.guard
  split
  · exact Leaves.refl T F w
  · exact h

theorem Leaves.setTree {t : FileTree (List Char) UInt8}
    (hnode : ∀ q, ¬ T q → t.node q = w.tree.node q) (h : Keeps {q | ¬ T q} w.tree t) :
    Leaves T F w (w.setTree t) where
  node := hnode
  fresh_le := h.fresh_le
  data i hi ho _ := h.data i hi ho
  stays := h.stays
  opened_le := Nat.le_refl _
  files _ _ := rfl
  got _ hle hlt := absurd hlt (Nat.not_lt.mpr hle)
  pid := rfl

/-- A number for a file that stands at a touched path. -/
theorem Leaves.openIno {q : PathBuf} {i : Nat} (h : Leaves T F w w') (hq : T q)
    (hi : w'.tree.node q = some (.file i)) (ho : w'.opened = w.opened) :
    Leaves T F w (w'.openIno i) where
  node := h.node
  fresh_le := h.fresh_le
  data := h.data
  stays := h.stays
  opened_le := Nat.le_succ_of_le h.opened_le
  files f hf := by
    have hne : f ≠ w'.opened := by omega
    simp only [World.openIno, Function.update_of_ne hne]
    exact h.files f hf
  got f hle hlt := by
    have hf : f = w'.opened := by
      simp only [World.openIno] at hlt
      omega
    refine ⟨q, hq, ?_⟩
    simp only [World.openIno, hf, Function.update_self]
    exact hi
  pid := h.pid

theorem Leaves.setPos (h : Leaves T F w w') (f pos : Nat) : Leaves T F w (w'.setPos f pos) where
  node := h.node
  fresh_le := h.fresh_le
  data := h.data
  stays := h.stays
  opened_le := h.opened_le
  files g hg := by
    rw [← h.files g hg]
    unfold World.setPos
    by_cases hgf : g = f
    · subst hgf
      simp
    · simp [Function.update_of_ne hgf]
  got g hle hlt := by
    obtain ⟨q, hq, hn⟩ := h.got g hle hlt
    refine ⟨q, hq, ?_⟩
    unfold World.setPos
    by_cases hgf : g = f
    · subst hgf
      simpa using hn
    · simpa [Function.update_of_ne hgf] using hn
  pid := h.pid

/-- New contents for the file of a number. -/
theorem Leaves.setData {f : Nat} (hf : f ∈ F) (d : Bytes) :
    Leaves T F w (w.setTree (w.tree.setData (w.files f).ino d)) where
  node _ _ := rfl
  fresh_le := Nat.le_refl _
  data _ _ _ hF := data_setData_of_ne (Ne.symm (hF f hf)) _ _
  stays _ _ h := h
  opened_le := Nat.le_refl _
  files _ _ := rfl
  got _ hle hlt := absurd hlt (Nat.not_lt.mpr hle)
  pid := rfl

theorem Leaves.transfer {src dst : Nat} (hdst : dst ∈ F) (n : Nat) :
    Leaves T F w (w.transfer src dst n) := by
  unfold World.transfer
  apply Leaves.setPos
  apply Leaves.setPos
  exact Leaves.setData hdst _

theorem Leaves.append {f : Nat} (hf : f ∈ F) (d : Bytes) : Leaves T F w (w.append f d) :=
  Leaves.setData hf _

/-- A call leaves alone what it does not go by. -/
theorem answer_leaves (e : Io) (c : Choice) (w : World) :
    Leaves (Touches e) (handles e) w (answer e c w).2 := by
  cases e
  case create_dir_all p =>
    apply Leaves.guard
    apply Leaves.setTree
    · intro q hq
      exact node_mkdirs_of_not_above hq
    · exact Keeps.mkdirs _ _ _
  case create_file p =>
    apply Leaves.guard
    split
    · rename_i hc
      obtain ⟨i, hi, _⟩ := node_create_self hc
      have hp : Touches (.create_file p) p := rfl
      have hmade : Leaves (Touches (.create_file p)) (handles (.create_file p)) w
          (w.setTree (w.tree.create p)) := by
        apply Leaves.setTree
        · intro q hq
          rw [node_create hc, if_neg (show ¬ q = p from hq)]
        · exact Keeps.create hc fun h => h rfl
      simp only [hi]
      exact hmade.openIno hp hi rfl
    · exact Leaves.refl _ _ _
  case write p d =>
    have hput : ∀ d', w.tree.CanCreate p →
        Leaves (Touches (.write p d)) (handles (.write p d)) w (w.setTree (w.tree.put p d')) := by
      intro d' hc
      have hp : Touches (.write p d) p := rfl
      apply Leaves.setTree
      · intro q hq
        rw [node_put hc, node_create hc, if_neg (show ¬ q = p from hq)]
      · have hS : p ∉ {q | ¬ Touches (.write p d) q} := fun h => h hp
        exact Keeps.put hc hS d'
    simp only [answer]
    split
    · split
      · exact hput _ ‹_›
      · exact Leaves.refl _ _ _
    · exact Leaves.refl _ _ _
    · split
      · exact hput _ ‹_›
      · exact Leaves.refl _ _ _
  case rename p p' =>
    apply Leaves.guard
    split
    · rename_i i hi
      split
      · rename_i hc
        apply Leaves.setTree
        · intro q hq
          rw [node_move hi hc, if_neg fun h => hq (Or.inr h), if_neg fun h => hq (Or.inl h)]
        · exact Keeps.move_away hi hc fun h => h (Or.inl rfl)
      · split <;> exact Leaves.refl _ _ _
    · exact Leaves.refl _ _ _
  case remove_file p =>
    apply Leaves.guard
    split
    · apply Leaves.setTree
      · intro q hq
        rw [node_remove, if_neg fun h => hq h.1]
      · exact Keeps.remove _ _ _
    · exact Leaves.refl _ _ _
    · exact Leaves.refl _ _ _
  case remove_dir p =>
    apply Leaves.guard
    split
    · split
      · apply Leaves.setTree
        · intro q hq
          rw [node_remove, if_neg fun h => hq h.1]
        · exact Keeps.remove _ _ _
      · exact Leaves.refl _ _ _
    · exact Leaves.refl _ _ _
    · exact Leaves.refl _ _ _
  case open_file p =>
    apply Leaves.guard
    split
    · rename_i i hi
      exact (Leaves.refl _ _ w).openIno (q := p) rfl hi rfl
    · exact Leaves.refl _ _ _
  case open_append p =>
    apply Leaves.guard
    split
    · rename_i i hi
      exact (Leaves.refl _ _ w).openIno (q := p) rfl hi rfl
    · exact Leaves.refl _ _ _
  case read_file f n => exact Leaves.guard (Leaves.setPos (Leaves.refl _ _ _) _ _)
  case seek_file f pos => exact Leaves.guard (Leaves.setPos (Leaves.refl _ _ _) _ _)
  case write_all f d =>
    have hf : f ∈ handles (.write_all f d) := List.mem_singleton_self f
    simp only [answer]
    split
    · exact Leaves.append hf d
    · exact Leaves.refl _ _ _
    · exact Leaves.append hf _
  case copy_some src dst =>
    have hdst : dst ∈ handles (.copy_some src dst) := List.mem_cons_of_mem _ (List.mem_singleton_self _)
    simp only [answer]
    split
    · exact Leaves.transfer hdst _
    · exact Leaves.refl _ _ _
    · exact Leaves.transfer hdst _
  case copy_rest src dst =>
    have hdst : dst ∈ handles (.copy_rest src dst) := List.mem_cons_of_mem _ (List.mem_singleton_self _)
    simp only [answer]
    split
    · exact Leaves.transfer hdst _
    · exact Leaves.refl _ _ _
    · exact Leaves.transfer hdst _
  case read p => exact Leaves.guard (Leaves.refl _ _ _)
  case file_len f => exact Leaves.guard (Leaves.refl _ _ _)
  case flush f => exact Leaves.guard (Leaves.refl _ _ _)
  case metadata p => exact Leaves.guard (Leaves.refl _ _ _)
  case inc_by k n => exact Leaves.setMetrics _ _ _ _
  case size_bytes_add n => exact Leaves.setMetrics _ _ _ _
  case size_bytes_sub n => exact Leaves.setMetrics _ _ _ _
  all_goals exact Leaves.refl _ _ _

/-! ## The trees -/

/-- What a call may do to the tree. -/
inductive TreeStep (w : World) (c : Choice) : Io → FileTree (List Char) UInt8 → Prop
  | same (e : Io) : TreeStep w c e w.tree
  | mkdirs (p : PathBuf) : TreeStep w c (.create_dir_all p) (w.tree.mkdirs p)
  | create (p : PathBuf) (hf : c.fault = none) (hc : w.tree.CanCreate p) :
      TreeStep w c (.create_file p) (w.tree.create p)
  | put (p : PathBuf) (d d' : Bytes) (hc : w.tree.CanCreate p) :
      TreeStep w c (.write p d) (w.tree.put p d')
  | move (p q : PathBuf) (i : Nat) (hi : w.tree.node p = some (.file i))
      (hc : w.tree.CanMove p q) : TreeStep w c (.rename p q) (w.tree.move p q)
  | remove_file (p : PathBuf) (i : Nat) (hi : w.tree.node p = some (.file i)) :
      TreeStep w c (.remove_file p) (w.tree.remove p)
  | remove_dir (p : PathBuf) (hd : w.tree.node p = some .dir) :
      TreeStep w c (.remove_dir p) (w.tree.remove p)
  | append (f : Nat) (d d' : Bytes) :
      TreeStep w c (.write_all f d) (w.tree.setData (w.files f).ino d')
  | copy_some (f g : Nat) (d : Bytes) :
      TreeStep w c (.copy_some f g) (w.tree.setData (w.files g).ino d)
  | copy_rest (f g : Nat) (d : Bytes) :
      TreeStep w c (.copy_rest f g) (w.tree.setData (w.files g).ino d)

theorem TreeStep.guard {α : Type} {e : Io} {r : Except IoError α × World}
    (h : c.fault = none → TreeStep w c e r.2.tree) : TreeStep w c e (c.guard w r).2.tree := by
  unfold Choice.guard
  cases hf : c.fault with
  | none => exact h hf
  | some f => exact .same e

theorem tree_answer (e : Io) (c : Choice) (w : World) : TreeStep w c e (answer e c w).2.tree := by
  cases e
  case create_dir_all p => exact TreeStep.guard fun _ => .mkdirs p
  case create_file p =>
    apply TreeStep.guard
    intro hf
    split
    · rename_i hc
      split
      · exact .create p hf hc
      · exact .same _
    · exact .same _
  case write p d =>
    simp only [answer]
    split
    · split
      · exact .put p d _ ‹_›
      · exact .same _
    · exact .same _
    · split
      · exact .put p d _ ‹_›
      · exact .same _
  case rename p q =>
    apply TreeStep.guard
    intro _
    split
    · rename_i i hi
      split
      · exact .move p q i hi ‹_›
      · split <;> exact .same _
    · exact .same _
  case remove_file p =>
    apply TreeStep.guard
    intro _
    split
    · exact .remove_file p _ ‹_›
    · exact .same _
    · exact .same _
  case remove_dir p =>
    apply TreeStep.guard
    intro _
    split
    · split
      · exact .remove_dir p ‹_›
      · exact .same _
    · exact .same _
    · exact .same _
  case open_file p =>
    apply TreeStep.guard
    intro _
    split <;> exact .same _
  case open_append p =>
    apply TreeStep.guard
    intro _
    split <;> exact .same _
  case write_all f d =>
    simp only [answer]
    split
    · exact .append f d _
    · exact .same _
    · exact .append f d _
  case copy_some f g =>
    simp only [answer]
    split
    · exact .copy_some f g _
    · exact .same _
    · exact .copy_some f g _
  case copy_rest f g =>
    simp only [answer]
    split
    · exact .copy_rest f g _
    · exact .same _
    · exact .copy_rest f g _
  case read p => exact TreeStep.guard fun _ => .same _
  case file_len f => exact TreeStep.guard fun _ => .same _
  case read_file f n => exact TreeStep.guard fun _ => .same _
  case seek_file f n => exact TreeStep.guard fun _ => .same _
  case flush f => exact TreeStep.guard fun _ => .same _
  case metadata p => exact TreeStep.guard fun _ => .same _
  all_goals exact .same _

/-- A directory stays where it is, unless it is taken away. -/
theorem dir_answer {e : Io} {q : PathBuf} (he : ∀ p, e ≠ .remove_dir p)
    (hd : w.tree.node q = some .dir) : (answer e c w).2.tree.node q = some .dir := by
  have hcreate : ∀ p, w.tree.CanCreate p → (w.tree.create p).node q = some .dir := by
    intro p hc
    have hne : q ≠ p := by
      rintro rfl
      exact hc.1 hd
    rw [node_create hc, if_neg hne]
    exact hd
  have hstep := tree_answer e c w
  generalize (answer e c w).2.tree = t at hstep ⊢
  cases hstep with
  | same => exact hd
  | mkdirs p => exact node_mkdirs_of_some hd p
  | create p hf hc => exact hcreate p hc
  | put p d d' hc =>
    rw [node_put hc]
    exact hcreate p hc
  | move p p' i hi hc =>
    have hne' : q ≠ p' := by
      rintro rfl
      exact hc.1 hd
    have hne : q ≠ p := by
      rintro rfl
      rw [hd] at hi
      cases hi
    rw [node_move hi hc, if_neg hne', if_neg hne]
    exact hd
  | remove_file p i hi =>
    have hne : q ≠ p := by
      rintro rfl
      rw [hd] at hi
      cases hi
    rw [node_remove_file hi, if_neg hne]
    exact hd
  | remove_dir p hd' => exact absurd rfl (he p)
  | append f d d' => exact hd
  | copy_some f g d => exact hd
  | copy_rest f g d => exact hd

end edge_cdn_store.io
