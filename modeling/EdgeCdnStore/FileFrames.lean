-- What the operations on a file tree leave alone. A tree keeps its shape: some
-- paths are for directories and some for files. A file that stands at sealed
-- paths only, or at no path any more, keeps its contents, as a reader that has
-- it open needs. And the contents under all paths change at one path at a time.
import EdgeCdnStore.FileTree

namespace edge_cdn_store.file_tree

variable {ν β : Type} [DecidableEq ν]

namespace FileTree

variable {t t' t'' : FileTree ν β} {p q : List ν} {dirs files : Set (List ν)}

/-! ## The shape -/

/-- No file stands at a path of `dirs`, and no directory at a path of `files`. -/
structure Shaped (dirs files : Set (List ν)) (t : FileTree ν β) : Prop where
  no_file : ∀ p ∈ dirs, ∀ i, t.node p ≠ some (.file i)
  no_dir : ∀ p ∈ files, t.node p ≠ some .dir

/-- A path for files is free, or a file stands there. -/
theorem Shaped.node_cases (h : Shaped dirs files t) (hp : p ∈ files) :
    t.node p = none ∨ ∃ i, t.node p = some (.file i) := by
  cases hn : t.node p with
  | none => exact Or.inl rfl
  | some n =>
    cases n with
    | dir => exact absurd hn (h.no_dir p hp)
    | file i => exact Or.inr ⟨i, rfl⟩

/-- The shape stays when new files stand off `dirs` and new directories off `files`. -/
theorem Shaped.of_nodes (h : Shaped dirs files t)
    (hn : ∀ p n, t'.node p = some n → t.node p = some n ∨
      (n = .dir ∧ p ∉ files) ∨ (∃ i, n = .file i ∧ p ∉ dirs)) : Shaped dirs files t' := by
  refine ⟨?_, ?_⟩
  · intro p hp i hi
    rcases hn p _ hi with h' | ⟨h', _⟩ | ⟨_, _, h'⟩
    · exact h.no_file p hp i h'
    · cases h'
    · exact h' hp
  · intro p hp hd
    rcases hn p _ hd with h' | ⟨_, h'⟩ | ⟨_, h', _⟩
    · exact h.no_dir p hp h'
    · exact h' hp
    · cases h'

theorem Shaped.mkdirs (h : Shaped dirs files t) (hp : ∀ q, q <+: p → q ∉ files) :
    Shaped dirs files (t.mkdirs p) := by
  refine h.of_nodes fun q n hq => ?_
  rcases node_mkdirs_cases hq with hq | ⟨hd, hq⟩
  · exact Or.inl hq
  · exact Or.inr (Or.inl ⟨hd, hp q hq⟩)

theorem Shaped.setData (h : Shaped dirs files t) (i : Nat) (d : List β) :
    Shaped dirs files (t.setData i d) := h.of_nodes fun _ _ hq => Or.inl hq

theorem Shaped.remove (h : Shaped dirs files t) (p : List ν) :
    Shaped dirs files (t.remove p) := by
  refine h.of_nodes fun q n hq => ?_
  rw [node_remove] at hq
  split at hq
  · cases hq
  · exact Or.inl hq

theorem Shaped.move {i : Nat} (h : Shaped dirs files t) (hp : t.node p = some (.file i))
    (hc : t.CanMove p q) (hq : q ∉ dirs) : Shaped dirs files (t.move p q) := by
  refine h.of_nodes fun r n hr => ?_
  rw [node_move hp hc] at hr
  split at hr
  · rename_i hrq
    exact Or.inr (Or.inr ⟨i, by simpa using hr.symm, hrq ▸ hq⟩)
  · split at hr
    · cases hr
    · exact Or.inl hr

theorem Shaped.create (h : Shaped dirs files t) (hc : t.CanCreate p) (hp : p ∉ dirs) :
    Shaped dirs files (t.create p) := by
  refine h.of_nodes fun r n hr => ?_
  obtain ⟨i, hi, _⟩ := node_create_self hc
  by_cases hrp : r = p
  · subst hrp
    rw [hi] at hr
    exact Or.inr (Or.inr ⟨i, by simpa using hr.symm, hp⟩)
  · rw [node_create hc, if_neg hrp] at hr
    exact Or.inl hr

theorem Shaped.put (h : Shaped dirs files t) (hc : t.CanCreate p) (hp : p ∉ dirs)
    (d : List β) : Shaped dirs files (t.put p d) :=
  (h.create hc hp).of_nodes fun q n hq => by rw [node_put hc] at hq; exact Or.inl hq

/-! ## The sealed files -/

variable {S : Set (List ν)}

/-- File `i` stands at paths of `S` only. It may stand at none. -/
def Only (S : Set (List ν)) (t : FileTree ν β) (i : Nat) : Prop :=
  ∀ p, t.node p = some (.file i) → p ∈ S

/-- The files that stand at paths of `S` only keep their contents, and go on to. -/
structure Keeps (S : Set (List ν)) (t t' : FileTree ν β) : Prop where
  fresh_le : t.fresh ≤ t'.fresh
  data : ∀ i, i < t.fresh → t.Only S i → t'.data i = t.data i
  stays : ∀ i, i < t.fresh → t.Only S i → t'.Only S i

theorem Keeps.refl (S : Set (List ν)) (t : FileTree ν β) : Keeps S t t :=
  ⟨Nat.le_refl _, fun _ _ _ => rfl, fun _ _ h => h⟩

theorem Keeps.trans (h : Keeps S t t') (h' : Keeps S t' t'') : Keeps S t t'' where
  fresh_le := Nat.le_trans h.fresh_le h'.fresh_le
  data := fun i hi ho => by
    rw [h'.data i (Nat.lt_of_lt_of_le hi h.fresh_le) (h.stays i hi ho), h.data i hi ho]
  stays := fun i hi ho => h'.stays i (Nat.lt_of_lt_of_le hi h.fresh_le) (h.stays i hi ho)

theorem Keeps.mkdirs (S : Set (List ν)) (t : FileTree ν β) (p : List ν) :
    Keeps S t (t.mkdirs p) :=
  ⟨by simp, fun _ _ _ => by simp, fun _ _ ho q hq => ho q (node_mkdirs_file.mp hq)⟩

/-- A file that stands at a path off `S` may be written. -/
theorem Keeps.setData {i : Nat} (hp : t.node p = some (.file i)) (hS : p ∉ S) (d : List β) :
    Keeps S t (t.setData i d) where
  fresh_le := Nat.le_refl _
  data := fun _ _ ho => data_setData_of_ne (by rintro rfl; exact hS (ho p hp)) _ _
  stays := fun _ _ ho => ho

theorem Keeps.remove (S : Set (List ν)) (t : FileTree ν β) (p : List ν) :
    Keeps S t (t.remove p) where
  fresh_le := by simp
  data := by simp
  stays := fun i _ ho q hq => by
    rw [node_remove] at hq
    split at hq
    · cases hq
    · exact ho q hq

theorem Keeps.move {i : Nat} (hp : t.node p = some (.file i)) (hc : t.CanMove p q)
    (hq : q ∈ S) : Keeps S t (t.move p q) where
  fresh_le := by simp
  data := by simp
  stays := fun j _ ho r hr => by
    rw [node_move hp hc] at hr
    split at hr
    · rename_i hrq
      exact hrq ▸ hq
    · split at hr
      · cases hr
      · exact ho r hr

/-- A file that is not sealed may go anywhere. -/
theorem Keeps.move_away {i : Nat} (hp : t.node p = some (.file i)) (hc : t.CanMove p q)
    (hpS : p ∉ S) : Keeps S t (t.move p q) where
  fresh_le := by simp
  data := by simp
  stays := fun j _ ho r hr => by
    rw [node_move hp hc] at hr
    split at hr
    · cases hr
      exact absurd (ho p hp) hpS
    · split at hr
      · cases hr
      · exact ho r hr

theorem Keeps.create (hc : t.CanCreate p) (hS : p ∉ S) : Keeps S t (t.create p) where
  fresh_le := fresh_le_create t p
  data := fun i hi ho => data_create_of_ne hi fun hp => hS (ho p hp)
  stays := fun i hi ho q hq => by
    obtain ⟨j, hj, hold⟩ := node_create_self hc
    by_cases hqp : q = p
    · subst hqp
      obtain rfl : j = i := by rw [hj] at hq; cases hq; rfl
      rcases hold with hold | ⟨_, rfl⟩
      · exact ho q hold
      · exact absurd hi (Nat.lt_irrefl _)
    · rw [node_create hc, if_neg hqp] at hq
      exact ho q hq

theorem Keeps.put (hc : t.CanCreate p) (hS : p ∉ S) (d : List β) : Keeps S t (t.put p d) := by
  obtain ⟨i, hi, _⟩ := node_create_self hc
  have hput : t.put p d = (t.create p).setData i d := by simp [FileTree.put, hi]
  rw [hput]
  exact (Keeps.create hc hS).trans (Keeps.setData hi hS d)

/-! ## The contents under all paths -/

theorem contents_setData {i : Nat} (hp : t.node p = some (.file i)) (d : List β) :
    (t.setData i d).content = Function.update t.content p (some d) := by
  funext q
  rw [content_setData hp, Function.update_apply]

theorem contents_remove {i : Nat} (hp : t.node p = some (.file i)) :
    (t.remove p).content = Function.update t.content p none := by
  funext q
  rw [content_remove_file hp, Function.update_apply]

theorem contents_move {i : Nat} (hp : t.node p = some (.file i)) (hc : t.CanMove p q) :
    (t.move p q).content =
      Function.update (Function.update t.content p none) q (some (t.data i)) := by
  funext r
  rw [content_move hp hc, Function.update_apply, Function.update_apply]

theorem contents_create (hc : t.CanCreate p) :
    (t.create p).content = Function.update t.content p (some []) := by
  funext q
  rw [content_create hc, Function.update_apply]

theorem contents_put (hc : t.CanCreate p) (d : List β) :
    (t.put p d).content = Function.update t.content p (some d) := by
  funext q
  rw [content_put hc, Function.update_apply]

end FileTree

end edge_cdn_store.file_tree
