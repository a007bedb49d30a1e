-- Two file trees that look the same from one directory on. The file numbers of the
-- two differ, and a map from one to the other says which file is which. What is
-- done below the directory in both trees keeps them alike.
import EdgeCdnStore.FileTree

namespace edge_cdn_store.file_tree

variable {ν β : Type} [DecidableEq ν]

/-- Which file of one tree is which of another. -/
abbrev Pairing := Nat → Option Nat

/-- Two places with the same in them. -/
inductive NodeAlike (r : Pairing) : Option Node → Option Node → Prop
  | none : NodeAlike r none none
  | dir : NodeAlike r (some .dir) (some .dir)
  | file {i j : Nat} (h : r i = some j) : NodeAlike r (some (.file i)) (some (.file j))

variable {r r' : Pairing} {a b : Option Node}

theorem NodeAlike.split (h : NodeAlike r a b) : (a = .none ∧ b = .none) ∨
    (a = some .dir ∧ b = some .dir) ∨
    ∃ i j, a = some (.file i) ∧ b = some (.file j) ∧ r i = some j := by
  cases h with
  | none => exact Or.inl ⟨rfl, rfl⟩
  | dir => exact Or.inr (Or.inl ⟨rfl, rfl⟩)
  | file h => exact Or.inr (Or.inr ⟨_, _, rfl, rfl, h⟩)

theorem NodeAlike.none_iff (h : NodeAlike r a b) : a = .none ↔ b = .none := by
  cases h <;> simp

theorem NodeAlike.dir_iff (h : NodeAlike r a b) : a = some .dir ↔ b = some .dir := by
  cases h <;> simp

theorem NodeAlike.mono (h : NodeAlike r a b) (hr : ∀ i j, r i = some j → r' i = some j) :
    NodeAlike r' a b := by
  cases h with
  | none => exact .none
  | dir => exact .dir
  | file h => exact .file (hr _ _ h)

namespace FileTree

variable {t t' : FileTree ν β} {top p q : List ν}

/-- What stands at a path: a directory, or a file with its contents. -/
def view (t : FileTree ν β) (p : List ν) : Option (Option (List β)) :=
  match t.node p with
  | none => none
  | some .dir => some none
  | some (.file i) => some (some (t.data i))

/-- The two trees look the same from `top` on, up to the numbers of the files. A file on the
way to `top` is in the way in both. -/
structure Alike (top : List ν) (r : Pairing) (t t' : FileTree ν β) : Prop where
  node : ∀ p, top <+: p → NodeAlike r (t.node p) (t'.node p)
  above : ∀ q, q <+: top → ((∃ i, t.node q = some (.file i)) ↔ ∃ j, t'.node q = some (.file j))
  below : ∀ i j, r i = some j → i < t.fresh ∧ j < t'.fresh
  data : ∀ i j, r i = some j → t'.data j = t.data i
  inj : ∀ i i' j, r i = some j → r i' = some j → i = i'

theorem Alike.content (h : Alike top r t t') (hp : top <+: p) : t'.content p = t.content p := by
  rcases (h.node p hp).split with ⟨hn, hn'⟩ | ⟨hn, hn'⟩ | ⟨i, j, hn, hn', hij⟩
  · rw [content_eq_none_of_node hn, content_eq_none_of_node hn']
  · simp only [FileTree.content, hn, hn']
  · rw [content_of_file hn, content_of_file hn', h.data i j hij]

theorem Alike.view (h : Alike top r t t') (hp : top <+: p) : t'.view p = t.view p := by
  unfold FileTree.view
  rcases (h.node p hp).split with ⟨hn, hn'⟩ | ⟨hn, hn'⟩ | ⟨i, j, hn, hn', hij⟩
  · rw [hn, hn']
  · rw [hn, hn']
  · simp only [hn, hn', h.data i j hij]

theorem Alike.hasParent (h : Alike top r t t') (hp : top <+: p.dropLast) :
    t.HasParent p ↔ t'.HasParent p := by
  unfold HasParent
  rw [(h.node _ hp).dir_iff]

theorem Alike.canCreate (h : Alike top r t t') (hp : top <+: p) (hpar : top <+: p.dropLast) :
    t.CanCreate p ↔ t'.CanCreate p := by
  unfold CanCreate
  rw [h.hasParent hpar, ne_eq, ne_eq, (h.node p hp).dir_iff]

theorem Alike.canMove (h : Alike top r t t') (hq : top <+: q) (hpar : top <+: q.dropLast) :
    t.CanMove p q ↔ t'.CanMove p q := by
  unfold CanMove
  rw [h.hasParent hpar, ne_eq, ne_eq, (h.node q hq).dir_iff]

/-- New contents for a file and for its counterpart. -/
theorem Alike.setData {i j : Nat} (h : Alike top r t t') (hij : r i = some j) (d : List β) :
    Alike top r (t.setData i d) (t'.setData j d) where
  node := h.node
  above := h.above
  below := h.below
  data k l hkl := by
    by_cases hk : k = i
    · subst hk
      rw [hij] at hkl
      cases hkl
      rw [data_setData_self, data_setData_self]
    · have hl : l ≠ j := by
        rintro rfl
        exact hk (h.inj _ _ _ hkl hij)
      rw [data_setData_of_ne hk, data_setData_of_ne hl]
      exact h.data k l hkl
  inj := h.inj

/-- More pairs, and none of the old ones changed. -/
structure Extends (t : FileTree ν β) (r r' : Pairing) : Prop where
  keeps : ∀ i j, r i = some j → r' i = some j
  fresh : ∀ i j, r' i = some j → r i = some j ∨ t.fresh ≤ i

theorem Extends.refl (t : FileTree ν β) (r : Pairing) : Extends t r r :=
  ⟨fun _ _ h => h, fun _ _ h => Or.inl h⟩

/-- A file made anew in both trees. -/
theorem Alike.newFile (h : Alike top r t t') (hp : top <+: p) (hnone : t.node p = none)
    (hpar : t.HasParent p) (hpart : top <+: p.dropLast) :
    ∃ r', Extends t r r' ∧ Alike top r' (t.newFile p) (t'.newFile p) ∧
      r' t.fresh = some t'.fresh := by
  have hnone' : t'.node p = none := (h.node p hp).none_iff.mp hnone
  have hpar' : t'.HasParent p := (h.hasParent hpart).mp hpar
  have hfree : r t.fresh = none := by
    cases hr : r t.fresh with
    | none => rfl
    | some j => exact absurd (h.below _ _ hr).1 (Nat.lt_irrefl _)
  have hold : ∀ i j, r i = some j → Function.update r t.fresh (some t'.fresh) i = some j := by
    intro i j hij
    rw [Function.update_of_ne (Nat.ne_of_lt (h.below i j hij).1)]
    exact hij
  have hcases : ∀ i j, Function.update r t.fresh (some t'.fresh) i = some j →
      (i = t.fresh ∧ j = t'.fresh) ∨ r i = some j := by
    intro i j hij
    by_cases hi : i = t.fresh
    · rw [hi, Function.update_self, Option.some.injEq] at hij
      exact Or.inl ⟨hi, hij.symm⟩
    · rw [Function.update_of_ne hi] at hij
      exact Or.inr hij
  have hfresh : (t.newFile p).fresh = t.fresh + 1 := by
    unfold FileTree.newFile
    rw [dif_pos ⟨hnone, hpar⟩]
  have hfresh' : (t'.newFile p).fresh = t'.fresh + 1 := by
    unfold FileTree.newFile
    rw [dif_pos ⟨hnone', hpar'⟩]
  have hdata : (t.newFile p).data t.fresh = [] := by
    unfold FileTree.newFile
    rw [dif_pos ⟨hnone, hpar⟩]
    exact Function.update_self ..
  have hdata' : (t'.newFile p).data t'.fresh = [] := by
    unfold FileTree.newFile
    rw [dif_pos ⟨hnone', hpar'⟩]
    exact Function.update_self ..
  refine ⟨Function.update r t.fresh (some t'.fresh), ⟨hold, ?_⟩, ?_, Function.update_self ..⟩
  · intro i j hij
    rcases hcases i j hij with ⟨hi, _⟩ | hij
    · exact Or.inr (Nat.le_of_eq hi.symm)
    · exact Or.inl hij
  · refine ⟨?_, ?_, ?_, ?_, ?_⟩
    · intro q hq
      rw [node_newFile, node_newFile]
      by_cases hqp : q = p
      · rw [if_pos ⟨hqp, hnone, hpar⟩, if_pos ⟨hqp, hnone', hpar'⟩]
        exact .file (Function.update_self ..)
      · rw [if_neg fun hc => hqp hc.1, if_neg fun hc => hqp hc.1]
        exact (h.node q hq).mono hold
    · intro q hq
      rw [node_newFile, node_newFile]
      by_cases hqp : q = p
      · rw [if_pos ⟨hqp, hnone, hpar⟩, if_pos ⟨hqp, hnone', hpar'⟩]
        exact ⟨fun _ => ⟨_, rfl⟩, fun _ => ⟨_, rfl⟩⟩
      · rw [if_neg fun hc => hqp hc.1, if_neg fun hc => hqp hc.1]
        exact h.above q hq
    · intro i j hij
      rw [hfresh, hfresh']
      rcases hcases i j hij with ⟨rfl, rfl⟩ | hij
      · exact ⟨Nat.lt_succ_self _, Nat.lt_succ_self _⟩
      · have hlt := h.below i j hij
        exact ⟨Nat.lt_succ_of_lt hlt.1, Nat.lt_succ_of_lt hlt.2⟩
    · intro i j hij
      rcases hcases i j hij with ⟨rfl, rfl⟩ | hij
      · rw [hdata, hdata']
      · have hlt := h.below i j hij
        rw [data_newFile_of_lt hlt.1, data_newFile_of_lt hlt.2]
        exact h.data i j hij
    · intro i i' j hij hij'
      rcases hcases i j hij with ⟨rfl, rfl⟩ | hij
      · rcases hcases i' _ hij' with ⟨rfl, _⟩ | hij'
        · rfl
        · exact absurd (h.below _ _ hij').2 (Nat.lt_irrefl _)
      · rcases hcases i' j hij' with ⟨rfl, rfl⟩ | hij'
        · exact absurd (h.below _ _ hij).2 (Nat.lt_irrefl _)
        · exact h.inj i i' j hij hij'

/-- A file opened for writing from its start, in both trees. -/
theorem Alike.create (h : Alike top r t t') (hp : top <+: p) (hpart : top <+: p.dropLast)
    (hc : t.CanCreate p) :
    ∃ r' i j, Extends t r r' ∧ Alike top r' (t.create p) (t'.create p) ∧ r' i = some j ∧
      (t.create p).node p = some (.file i) ∧ (t'.create p).node p = some (.file j) := by
  have hc' : t'.CanCreate p := (h.canCreate hp hpart).mp hc
  have hcreate : ∀ {u : FileTree ν β} {i : Nat}, u.node p = some (.file i) →
      u.create p = u.setData i [] := by
    intro u i hu
    simp only [FileTree.create, hu]
  have hnew : ∀ {u : FileTree ν β}, u.node p = none → u.create p = u.newFile p := by
    intro u hu
    simp only [FileTree.create, hu]
  rcases (h.node p hp).split with ⟨hn, hn'⟩ | ⟨hn, _⟩ | ⟨i, j, hn, hn', hij⟩
  · obtain ⟨r', hext, halike, hnumber⟩ := h.newFile hp hn hc.2 hpart
    refine ⟨r', t.fresh, t'.fresh, hext, ?_, hnumber, ?_, ?_⟩
    · rw [hnew hn, hnew hn']
      exact halike
    · rw [hnew hn, node_newFile, if_pos ⟨rfl, hn, hc.2⟩]
    · rw [hnew hn', node_newFile, if_pos ⟨rfl, hn', hc'.2⟩]
  · exact absurd hn hc.1
  · refine ⟨r, i, j, .refl t r, ?_, hij, ?_, ?_⟩
    · rw [hcreate hn, hcreate hn']
      exact h.setData hij []
    · rw [hcreate hn]
      exact hn
    · rw [hcreate hn']
      exact hn'

/-- A file written whole, in both trees. -/
theorem Alike.put (h : Alike top r t t') (hp : top <+: p) (hpart : top <+: p.dropLast)
    (hc : t.CanCreate p) (d : List β) :
    ∃ r', Extends t r r' ∧ Alike top r' (t.put p d) (t'.put p d) := by
  obtain ⟨r', i, j, hext, halike, hij, hi, hj⟩ := h.create hp hpart hc
  refine ⟨r', hext, ?_⟩
  simp only [FileTree.put, hi, hj]
  exact halike.setData hij d

/-- A file moved, in both trees. -/
theorem Alike.move {i : Nat} (h : Alike top r t t') (hp : top <+: p) (hq : top <+: q)
    (hpart : top <+: q.dropLast) (hi : t.node p = some (.file i)) (hc : t.CanMove p q) :
    Alike top r (t.move p q) (t'.move p q) := by
  have hc' : t'.CanMove p q := (h.canMove hq hpart).mp hc
  obtain ⟨j, hj, hij⟩ : ∃ j, t'.node p = some (.file j) ∧ r i = some j := by
    rcases (h.node p hp).split with ⟨hn, _⟩ | ⟨hn, _⟩ | ⟨i', j, hn, hn', hij⟩
    · rw [hi] at hn
      cases hn
    · rw [hi] at hn
      cases hn
    · rw [hi] at hn
      cases hn
      exact ⟨j, hn', hij⟩
  refine ⟨?_, ?_, ?_, ?_, h.inj⟩
  · intro x hx
    rw [node_move hi hc, node_move hj hc']
    by_cases hxq : x = q
    · rw [if_pos hxq, if_pos hxq]
      exact .file hij
    · rw [if_neg hxq, if_neg hxq]
      by_cases hxp : x = p
      · rw [if_pos hxp, if_pos hxp]
        exact .none
      · rw [if_neg hxp, if_neg hxp]
        exact h.node x hx
  · intro x hx
    rw [node_move hi hc, node_move hj hc']
    by_cases hxq : x = q
    · rw [if_pos hxq, if_pos hxq]
      exact ⟨fun _ => ⟨_, rfl⟩, fun _ => ⟨_, rfl⟩⟩
    · rw [if_neg hxq, if_neg hxq]
      by_cases hxp : x = p
      · rw [if_pos hxp, if_pos hxp]
      · rw [if_neg hxp, if_neg hxp]
        exact h.above x hx
  · intro k l hkl
    rw [fresh_move, fresh_move]
    exact h.below k l hkl
  · intro k l hkl
    rw [data_move, data_move]
    exact h.data k l hkl

/-- What has no node below `top` has none in the other tree. -/
theorem Alike.childless (h : Alike top r t t') (hp : top <+: p) :
    Childless t.nodes p ↔ Childless t'.nodes p := by
  have hkey : ∀ {u : FileTree ν β} {q : List ν}, q ∈ u.nodes.keys ↔ u.node q ≠ none := by
    intro u q
    rw [Finmap.mem_keys, ne_eq, FileTree.node, Finmap.lookup_eq_none, not_not]
  have hsame : ∀ q, q ≠ [] → q.dropLast = p → (q ∈ t.nodes.keys ↔ q ∈ t'.nodes.keys) := by
    intro q _ hq
    rw [hkey, hkey, ne_eq, ne_eq,
      (h.node q (hp.trans (hq ▸ List.dropLast_prefix q))).none_iff]
  constructor
  · intro hc q hmem hne hq
    exact hc q ((hsame q hne hq).mpr hmem) hne hq
  · intro hc q hmem hne hq
    exact hc q ((hsame q hne hq).mp hmem) hne hq

/-- A node taken away, in both trees. -/
theorem Alike.remove (h : Alike top r t t') (hp : top <+: p) :
    Alike top r (t.remove p) (t'.remove p) := by
  refine ⟨?_, ?_, ?_, ?_, h.inj⟩
  · intro x hx
    rw [node_remove, node_remove]
    by_cases hc : x = p ∧ Childless t.nodes p
    · rw [if_pos hc, if_pos ⟨hc.1, (h.childless hp).mp hc.2⟩]
      exact .none
    · rw [if_neg hc, if_neg fun hc' => hc ⟨hc'.1, (h.childless hp).mpr hc'.2⟩]
      exact h.node x hx
  · intro x hx
    rw [node_remove, node_remove]
    by_cases hc : x = p ∧ Childless t.nodes p
    · rw [if_pos hc, if_pos ⟨hc.1, (h.childless hp).mp hc.2⟩]
    · rw [if_neg hc, if_neg fun hc' => hc ⟨hc'.1, (h.childless hp).mpr hc'.2⟩]
      exact h.above x hx
  · intro k l hkl
    rw [fresh_remove, fresh_remove]
    exact h.below k l hkl
  · intro k l hkl
    rw [data_remove, data_remove]
    exact h.data k l hkl

/-- What is above a node is a directory. -/
theorem node_prefix {n : Node} (hq : q <+: p) (h : t.node p = some n) :
    q = p ∨ t.node q = some .dir := by
  obtain ⟨rest, rfl⟩ := hq
  induction rest using List.reverseRecOn generalizing n with
  | nil => exact Or.inl (List.append_nil q).symm
  | append_singleton rest x ih =>
    right
    rw [← List.append_assoc] at h
    have hdir := (node_parent h (by simp)).2
    rw [List.dropLast_concat] at hdir
    rcases ih hdir with heq | hq
    · rw [heq]
      exact hdir
    · exact hq

/-- The way to a path can be made exactly when no file stands on it. -/
theorem node_mkdirs_self_iff (t : FileTree ν β) (p : List ν) :
    (t.mkdirs p).node p = some .dir ↔ ∀ q, q <+: p → ∀ i, t.node q ≠ some (.file i) := by
  constructor
  · intro hdir q hq i hi
    -- a file on the way stays, and then nothing stands below it
    have hstays := node_mkdirs_of_some hi p
    rcases node_prefix hq hdir with rfl | hq
    · rw [hdir] at hstays
      cases hstays
    · rw [hq] at hstays
      cases hstays
  · intro h
    exact node_mkdirs_of_above h List.prefix_rfl

theorem Alike.mkdirs_dir_iff (h : Alike top r t t') (hp : p <+: top) :
    (t.mkdirs p).node p = some .dir ↔ (t'.mkdirs p).node p = some .dir := by
  have hfile : ∀ q, q <+: p → ((∀ i, t.node q ≠ some (.file i)) ↔
      ∀ j, t'.node q ≠ some (.file j)) := by
    intro q hq
    have habove := h.above q (hq.trans hp)
    constructor
    · intro hno j hj
      obtain ⟨i, hi⟩ := habove.mpr ⟨j, hj⟩
      exact hno i hi
    · intro hno i hi
      obtain ⟨j, hj⟩ := habove.mp ⟨i, hi⟩
      exact hno j hj
  rw [node_mkdirs_self_iff, node_mkdirs_self_iff]
  constructor
  · intro hno q hq
    exact (hfile q hq).mp (hno q hq)
  · intro hno q hq
    exact (hfile q hq).mpr (hno q hq)

theorem node_mkdirs_self_of_none (hn : t.node p = none) :
    (t.mkdirs p).node p = if (t.mkdirs p).node p = some .dir then some .dir else none := by
  split
  · assumption
  · rename_i hno
    cases hm : (t.mkdirs p).node p with
    | none => rfl
    | some n =>
      rcases node_mkdirs_cases hm with h | ⟨rfl, _⟩
      · rw [hn] at h
        cases h
      · exact absurd hm hno

/-- The directories on the way to `top`, in both trees. -/
theorem Alike.mkdirs (h : Alike top r t t') (hp : p <+: top) :
    Alike top r (t.mkdirs p) (t'.mkdirs p) := by
  refine ⟨?_, ?_, ?_, ?_, h.inj⟩
  · intro x hx
    by_cases hxp : x <+: p
    · obtain rfl : x = p := hxp.eq_of_length (Nat.le_antisymm hxp.length_le
        (hp.trans hx).length_le)
      rcases (h.node x hx).split with ⟨hn, hn'⟩ | ⟨hn, hn'⟩ | ⟨i, j, hn, hn', hij⟩
      · have hiff := h.mkdirs_dir_iff hp
        rw [node_mkdirs_self_of_none hn, node_mkdirs_self_of_none hn']
        by_cases hdir : (t.mkdirs x).node x = some .dir
        · rw [if_pos hdir, if_pos (hiff.mp hdir)]
          exact .dir
        · rw [if_neg hdir, if_neg fun hdir' => hdir (hiff.mpr hdir')]
          exact .none
      · rw [node_mkdirs_of_some hn, node_mkdirs_of_some hn']
        exact .dir
      · rw [node_mkdirs_of_some hn, node_mkdirs_of_some hn']
        exact .file hij
    · rw [node_mkdirs_of_not_above hxp, node_mkdirs_of_not_above hxp]
      exact h.node x hx
  · intro x hx
    have hfile : ∀ u : FileTree ν β, (∃ i, (u.mkdirs p).node x = some (.file i)) ↔
        ∃ i, u.node x = some (.file i) := fun u => exists_congr fun i => node_mkdirs_file
    rw [hfile, hfile]
    exact h.above x hx
  · intro k l hkl
    rw [fresh_mkdirs, fresh_mkdirs]
    exact h.below k l hkl
  · intro k l hkl
    rw [data_mkdirs, data_mkdirs]
    exact h.data k l hkl

end FileTree

end edge_cdn_store.file_tree
