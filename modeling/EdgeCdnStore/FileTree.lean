-- A tree of directories and files. A path names a directory or a file number,
-- and the contents hang on the number, so an open file outlives its path. The
-- tree keeps three facts about itself: every parent is a directory, the next
-- number is free, and no two paths name one file.
import Mathlib

namespace edge_cdn_store.file_tree

inductive Node
  | dir
  | file (ino : Nat)
  deriving DecidableEq, Repr

variable {ν β : Type} [DecidableEq ν]

/-- What stands under which path. -/
abbrev Nodes (ν : Type) := Finmap (fun _ : List ν => Node)

/-- No node has `p` as its parent. -/
def Childless (m : Nodes ν) (p : List ν) : Prop := ∀ q ∈ m.keys, q ≠ [] → q.dropLast ≠ p

instance (m : Nodes ν) (p : List ν) : Decidable (Childless m p) :=
  inferInstanceAs (Decidable (∀ q ∈ m.keys, q ≠ [] → q.dropLast ≠ p))

/-- The facts that every tree keeps. -/
structure Sound (m : Nodes ν) (fresh : Nat) : Prop where
  closed : ∀ p n, m.lookup p = some n → p ≠ [] → m.lookup p.dropLast = some .dir
  below : ∀ p i, m.lookup p = some (.file i) → i < fresh
  single : ∀ p q i, m.lookup p = some (.file i) → m.lookup q = some (.file i) → p = q

omit [DecidableEq ν] in
theorem dropLast_ne_self {p : List ν} (h : p ≠ []) : p.dropLast ≠ p := by
  intro he
  have := congrArg List.length he
  have := List.length_pos_iff.mpr h
  simp only [List.length_dropLast] at *
  omega

/-- A node may be put at a path that is no directory and has a directory as its parent,
when no other path names the same file. -/
theorem Sound.insert {m : Nodes ν} {fresh fresh' : Nat} {p : List ν} {n : Node}
    (h : Sound m fresh) (hp : m.lookup p ≠ some .dir)
    (hpar : (p = [] ∧ n = .dir) ∨ m.lookup p.dropLast = some .dir)
    (hn : ∀ i, n = .file i → i < fresh' ∧ ∀ q, q ≠ p → m.lookup q ≠ some (.file i))
    (hf : fresh ≤ fresh') : Sound (m.insert p n) fresh' := by
  have hpd : p ≠ [] → p.dropLast ≠ p := dropLast_ne_self
  refine ⟨?_, ?_, ?_⟩
  · intro q k hq hne
    by_cases hqp : q = p
    · subst hqp
      rw [Finmap.lookup_insert_of_ne _ (hpd hne)]
      exact hpar.resolve_left (fun h => hne h.1)
    · rw [Finmap.lookup_insert_of_ne _ hqp] at hq
      have hd := h.closed q k hq hne
      have hqd : q.dropLast ≠ p := by rintro rfl; exact hp hd
      rw [Finmap.lookup_insert_of_ne _ hqd]
      exact hd
  · intro q i hq
    by_cases hqp : q = p
    · subst hqp
      rw [Finmap.lookup_insert, Option.some.injEq] at hq
      exact (hn i hq).1
    · rw [Finmap.lookup_insert_of_ne _ hqp] at hq
      exact Nat.lt_of_lt_of_le (h.below q i hq) hf
  · intro q r i hq hr
    by_cases hqp : q = p <;> by_cases hrp : r = p
    · rw [hqp, hrp]
    · subst hqp
      rw [Finmap.lookup_insert, Option.some.injEq] at hq
      rw [Finmap.lookup_insert_of_ne _ hrp] at hr
      exact absurd hr ((hn i hq).2 r hrp)
    · subst hrp
      rw [Finmap.lookup_insert, Option.some.injEq] at hr
      rw [Finmap.lookup_insert_of_ne _ hqp] at hq
      exact absurd hq ((hn i hr).2 q hqp)
    · rw [Finmap.lookup_insert_of_ne _ hqp] at hq
      rw [Finmap.lookup_insert_of_ne _ hrp] at hr
      exact h.single q r i hq hr

theorem lookup_erase_some {m : Nodes ν} {p q : List ν} {n : Node}
    (h : (m.erase p).lookup q = some n) : q ≠ p ∧ m.lookup q = some n := by
  have hqp : q ≠ p := by rintro rfl; simp at h
  exact ⟨hqp, by rwa [Finmap.lookup_erase_ne hqp] at h⟩

/-- A node without children may be taken away. -/
theorem Sound.erase {m : Nodes ν} {fresh : Nat} {p : List ν} (h : Sound m fresh)
    (hp : Childless m p) : Sound (m.erase p) fresh := by
  refine ⟨?_, ?_, ?_⟩
  · intro q n hq hne
    have hq' := (lookup_erase_some hq).2
    have hmem : q ∈ m.keys := Finmap.mem_keys.mpr (Finmap.mem_iff.mpr ⟨n, hq'⟩)
    rw [Finmap.lookup_erase_ne (hp q hmem hne)]
    exact h.closed q n hq' hne
  · intro q i hq
    exact h.below q i (lookup_erase_some hq).2
  · intro q r i hq hr
    exact h.single q r i (lookup_erase_some hq).2 (lookup_erase_some hr).2

/-- A file has no children. -/
theorem Sound.childless_of_file {m : Nodes ν} {fresh i : Nat} {p : List ν} (h : Sound m fresh)
    (hp : m.lookup p = some (.file i)) : Childless m p := by
  intro q hq hne he
  obtain ⟨n, hn⟩ := Finmap.mem_iff.mp (Finmap.mem_keys.mp hq)
  have := h.closed q n hn hne
  rw [he, hp] at this
  cases this

/-- A file tree with path components `ν` and contents of type `β`. -/
structure FileTree (ν β : Type) [DecidableEq ν] where
  nodes : Nodes ν
  data : Nat → List β
  fresh : Nat
  sound : Sound nodes fresh

namespace FileTree

/-- The tree with nothing in it. -/
def empty (ν β : Type) [DecidableEq ν] : FileTree ν β where
  nodes := ∅
  data := fun _ => []
  fresh := 0
  sound := ⟨by simp, by simp, by simp⟩

/-- What stands at a path. -/
def node (t : FileTree ν β) (p : List ν) : Option Node := t.nodes.lookup p

/-- The contents of the file at a path. -/
def content (t : FileTree ν β) (p : List ν) : Option (List β) :=
  match t.node p with
  | some (.file i) => some (t.data i)
  | _ => none

/-- The parent of a path is a directory. -/
def HasParent (t : FileTree ν β) (p : List ν) : Prop := p ≠ [] ∧ t.node p.dropLast = some .dir

instance (t : FileTree ν β) (p : List ν) : Decidable (t.HasParent p) :=
  inferInstanceAs (Decidable (_ ∧ _))

/-! ## The operations -/

/-- A new directory, when nothing stands at the path and its parent is a directory. The
empty path is the root of the tree and needs no parent. -/
def mkdir (t : FileTree ν β) (p : List ν) : FileTree ν β :=
  if h : t.node p = none ∧ (p = [] ∨ t.HasParent p) then
    { t with
      nodes := t.nodes.insert p .dir
      sound := t.sound.insert (by rw [show t.nodes.lookup p = none from h.1]; simp)
        (h.2.imp (fun h => ⟨h, rfl⟩) (fun h => h.2)) (by simp) (Nat.le_refl _) }
  else t

/-- The directories at the first `n` steps of the way to `p`, the root first. -/
def mkdirsUpTo (t : FileTree ν β) (p : List ν) : Nat → FileTree ν β
  | 0 => t.mkdir []
  | n + 1 => (t.mkdirsUpTo p n).mkdir (p.take (n + 1))

/-- Every directory on the way to `p`, and `p` itself. -/
def mkdirs (t : FileTree ν β) (p : List ν) : FileTree ν β := t.mkdirsUpTo p p.length

/-- A new empty file, when nothing stands at the path and its parent is a directory. -/
def newFile (t : FileTree ν β) (p : List ν) : FileTree ν β :=
  if h : t.node p = none ∧ t.HasParent p then
    { nodes := t.nodes.insert p (.file t.fresh)
      data := Function.update t.data t.fresh []
      fresh := t.fresh + 1
      sound := t.sound.insert (by rw [show t.nodes.lookup p = none from h.1]; simp)
        (Or.inr h.2.2)
        (by
          rintro i hi
          cases hi
          exact ⟨Nat.lt_succ_self _, fun q _ hq => Nat.lt_irrefl _ (t.sound.below q _ hq)⟩)
        (Nat.le_succ _) }
  else t

/-- New contents for file number `i`, under whatever path it stands. -/
def setData (t : FileTree ν β) (i : Nat) (d : List β) : FileTree ν β :=
  { t with data := Function.update t.data i d }

/-- Take away the node at `p`, when it has no children. -/
def remove (t : FileTree ν β) (p : List ν) : FileTree ν β :=
  if h : Childless t.nodes p then
    { t with nodes := t.nodes.erase p, sound := t.sound.erase h }
  else t

/-- A file can be moved over a file, or to a free place in a directory. -/
def CanMove (t : FileTree ν β) (p q : List ν) : Prop :=
  t.node q ≠ some .dir ∧ t.HasParent q ∧ p ≠ q

instance (t : FileTree ν β) (p q : List ν) : Decidable (t.CanMove p q) :=
  inferInstanceAs (Decidable (_ ∧ _))

/-- Move the file at `p` to `q`. What file `q` named before stands under no path. -/
def move (t : FileTree ν β) (p q : List ν) : FileTree ν β :=
  match hp : t.node p with
  | some (.file i) =>
    if h : t.CanMove p q then
      { t with
        nodes := (t.nodes.erase p).insert q (.file i)
        sound := by
          have hpar : q.dropLast ≠ p := fun he => by
            have hd := h.2.1.2
            rw [he, hp] at hd
            cases hd
          refine (t.sound.erase (t.sound.childless_of_file hp)).insert ?_ ?_ ?_ (Nat.le_refl _)
          · rw [Finmap.lookup_erase_ne (Ne.symm h.2.2)]
            exact h.1
          · rw [Finmap.lookup_erase_ne hpar]
            exact Or.inr h.2.1.2
          · rintro j hj
            cases hj
            refine ⟨t.sound.below p i hp, fun r _ hr => ?_⟩
            obtain ⟨hrp, hr⟩ := lookup_erase_some hr
            exact hrp (t.sound.single r p i hr hp) }
    else t
  | _ => t

/-! ## What stands where after an operation -/

variable {t : FileTree ν β} {p q : List ν}

theorem content_of_file {i : Nat} (h : t.node p = some (.file i)) :
    t.content p = some (t.data i) := by
  simp [content, h]

theorem content_isSome : (t.content p).isSome ↔ ∃ i, t.node p = some (.file i) := by
  unfold content
  split
  · simp [*]
  · rename_i h
    simp only [Option.isSome_none, Bool.false_eq_true, false_iff, not_exists]
    exact fun i hi => h i hi

theorem content_eq_none_of_node (h : t.node p = none) : t.content p = none := by
  simp [content, h]

/-- Two trees with the same node at a path, and the same contents of that file, have the
same contents at the path. -/
theorem content_congr {t' : FileTree ν β} (hn : t'.node p = t.node p)
    (hd : ∀ i, t.node p = some (.file i) → t'.data i = t.data i) :
    t'.content p = t.content p := by
  unfold content
  rw [hn]
  split
  · rename_i i hi
    rw [hd i hi]
  · rfl

theorem node_parent {n : Node} (h : t.node p = some n) (hp : p ≠ []) : t.HasParent p :=
  ⟨hp, t.sound.closed p n h hp⟩

/-! ## Directories made -/

@[simp] theorem data_mkdir (t : FileTree ν β) (p : List ν) : (t.mkdir p).data = t.data := by
  unfold mkdir; split <;> rfl

@[simp] theorem fresh_mkdir (t : FileTree ν β) (p : List ν) : (t.mkdir p).fresh = t.fresh := by
  unfold mkdir; split <;> rfl

theorem node_mkdir (t : FileTree ν β) (p q : List ν) : (t.mkdir p).node q =
    if q = p ∧ t.node p = none ∧ (p = [] ∨ t.HasParent p) then some .dir else t.node q := by
  unfold mkdir
  split
  · rename_i h
    simp only [node]
    by_cases hqp : q = p
    · subst hqp; simp [h.2, show t.nodes.lookup q = none from h.1]
    · simp [hqp, Finmap.lookup_insert_of_ne _ hqp]
  · rename_i h
    rw [if_neg (fun hc => h hc.2)]

theorem node_mkdir_of_some {n : Node} (h : t.node q = some n) (p : List ν) :
    (t.mkdir p).node q = some n := by
  rw [node_mkdir, if_neg, h]
  rintro ⟨rfl, hn, _⟩
  rw [h] at hn
  cases hn

@[simp] theorem data_mkdirsUpTo (t : FileTree ν β) (p : List ν) (n : Nat) :
    (t.mkdirsUpTo p n).data = t.data := by
  induction n with
  | zero => simp [mkdirsUpTo]
  | succ n ih => simp [mkdirsUpTo, ih]

@[simp] theorem fresh_mkdirsUpTo (t : FileTree ν β) (p : List ν) (n : Nat) :
    (t.mkdirsUpTo p n).fresh = t.fresh := by
  induction n with
  | zero => simp [mkdirsUpTo]
  | succ n ih => simp [mkdirsUpTo, ih]

theorem node_mkdirsUpTo_of_some {m : Node} (h : t.node q = some m) (p : List ν) (n : Nat) :
    (t.mkdirsUpTo p n).node q = some m := by
  induction n with
  | zero => exact node_mkdir_of_some h []
  | succ n ih => exact node_mkdir_of_some ih _

theorem node_mkdirsUpTo_cases {m : Node} {n : Nat} (h : (t.mkdirsUpTo p n).node q = some m) :
    t.node q = some m ∨ (m = .dir ∧ q <+: p) := by
  induction n with
  | zero =>
    rw [mkdirsUpTo, node_mkdir] at h
    split at h
    · rename_i hq
      exact Or.inr ⟨by simpa using h.symm, hq.1 ▸ List.nil_prefix⟩
    · exact Or.inl h
  | succ n ih =>
    rw [mkdirsUpTo, node_mkdir] at h
    split at h
    · rename_i hq
      exact Or.inr ⟨by simpa using h.symm, hq.1 ▸ List.take_prefix _ _⟩
    · exact ih h

/-- With no file in the way, every step of the way is a directory. -/
theorem node_mkdirsUpTo_take (h : ∀ r, r <+: p → ∀ i, t.node r ≠ some (.file i)) (n k : Nat)
    (hk : k ≤ n) : (t.mkdirsUpTo p n).node (p.take k) = some .dir := by
  -- what stands on the way is a directory, before and after any number of steps
  have hdir : ∀ r m n, r <+: p → (t.mkdirsUpTo p n).node r = some m → m = .dir := by
    intro r m n hr hm
    rcases node_mkdirsUpTo_cases hm with hm | hm
    · cases m with
      | dir => rfl
      | file i => exact absurd hm (h r hr i)
    · exact hm.1
  induction n generalizing k with
  | zero =>
    obtain rfl : k = 0 := by omega
    simp only [mkdirsUpTo, List.take_zero, node_mkdir]
    cases hn : t.node [] with
    | none => simp
    | some m =>
      cases m with
      | dir => simp
      | file i => exact absurd hn (h [] List.nil_prefix i)
  | succ n ih =>
    rcases Nat.lt_or_ge n k with hlt | hge
    · obtain rfl : k = n + 1 := by omega
      have hpar : (t.mkdirsUpTo p n).node (p.take n) = some .dir := ih n (Nat.le_refl n)
      rw [mkdirsUpTo, node_mkdir]
      split
      · rfl
      · rename_i hno
        cases hm : (t.mkdirsUpTo p n).node (p.take (n + 1)) with
        | some m => rw [hdir _ m n (List.take_prefix _ _) hm]
        | none =>
          exfalso
          refine hno ⟨rfl, hm, ?_⟩
          rcases Nat.lt_or_ge n p.length with hl | hl
          · refine Or.inr ⟨by simp; rintro rfl; simp at hl, ?_⟩
            have hdrop : (p.take (n + 1)).dropLast = p.take n := by
              rw [List.dropLast_eq_take, List.take_take, List.length_take]
              congr 1
              omega
            rw [hdrop]
            exact hpar
          · rw [List.take_of_length_le hl] at hpar
            rw [List.take_of_length_le (by omega), hpar] at hm
            cases hm
    · exact node_mkdir_of_some (ih k hge) _

@[simp] theorem data_mkdirs (t : FileTree ν β) (p : List ν) : (t.mkdirs p).data = t.data :=
  data_mkdirsUpTo t p p.length

@[simp] theorem fresh_mkdirs (t : FileTree ν β) (p : List ν) : (t.mkdirs p).fresh = t.fresh :=
  fresh_mkdirsUpTo t p p.length

theorem node_mkdirs_of_some {n : Node} (h : t.node q = some n) (p : List ν) :
    (t.mkdirs p).node q = some n := node_mkdirsUpTo_of_some h p p.length

theorem node_mkdirs_cases {n : Node} (h : (t.mkdirs p).node q = some n) :
    t.node q = some n ∨ (n = .dir ∧ q <+: p) := node_mkdirsUpTo_cases h

theorem node_mkdirs_file {i : Nat} :
    (t.mkdirs p).node q = some (.file i) ↔ t.node q = some (.file i) := by
  refine ⟨fun h => ?_, fun h => node_mkdirs_of_some h p⟩
  rcases node_mkdirs_cases h with h | h
  · exact h
  · cases h.1

theorem node_mkdirs_of_above (h : ∀ r, r <+: p → ∀ i, t.node r ≠ some (.file i))
    (hq : q <+: p) : (t.mkdirs p).node q = some .dir := by
  rw [List.prefix_iff_eq_take.mp hq]
  exact node_mkdirsUpTo_take h _ _ hq.length_le

theorem node_mkdirs_of_not_above (h : ¬ q <+: p) : (t.mkdirs p).node q = t.node q := by
  cases hn : t.node q with
  | some n => exact node_mkdirs_of_some hn p
  | none =>
    cases hm : (t.mkdirs p).node q with
    | none => rfl
    | some n =>
      rcases node_mkdirs_cases hm with hm | hm
      · rw [hn] at hm; cases hm
      · exact absurd hm.2 h

/-- Making directories changes no contents. -/
@[simp] theorem content_mkdirs (t : FileTree ν β) (p q : List ν) :
    (t.mkdirs p).content q = t.content q := by
  cases hc : t.content q with
  | some d =>
    obtain ⟨i, hi⟩ := content_isSome.mp (by rw [hc]; rfl : (t.content q).isSome)
    rw [content_of_file (node_mkdirs_file.mpr hi), data_mkdirs, ← content_of_file hi, hc]
  | none =>
    cases hm : (t.mkdirs p).content q with
    | none => rfl
    | some d =>
      obtain ⟨i, hi⟩ := content_isSome.mp (by rw [hm]; rfl : ((t.mkdirs p).content q).isSome)
      rw [content_of_file (node_mkdirs_file.mp hi)] at hc
      cases hc

/-! ## Files made, written, removed and moved -/

theorem node_newFile (t : FileTree ν β) (p q : List ν) : (t.newFile p).node q =
    if q = p ∧ t.node p = none ∧ t.HasParent p then some (.file t.fresh) else t.node q := by
  unfold newFile
  split
  · rename_i h
    simp only [node]
    by_cases hqp : q = p
    · subst hqp; simp [h.2, show t.nodes.lookup q = none from h.1]
    · simp [hqp, Finmap.lookup_insert_of_ne _ hqp]
  · rename_i h
    rw [if_neg (fun hc => h hc.2)]

theorem data_newFile_of_lt {i : Nat} (h : i < t.fresh) (p : List ν) :
    (t.newFile p).data i = t.data i := by
  unfold newFile
  split
  · exact Function.update_of_ne (Nat.ne_of_lt h) _ _
  · rfl

theorem fresh_le_newFile (t : FileTree ν β) (p : List ν) : t.fresh ≤ (t.newFile p).fresh := by
  unfold newFile
  split
  · exact Nat.le_succ _
  · exact Nat.le_refl _

@[simp] theorem node_setData (t : FileTree ν β) (i : Nat) (d : List β) (p : List ν) :
    (t.setData i d).node p = t.node p := rfl

@[simp] theorem fresh_setData (t : FileTree ν β) (i : Nat) (d : List β) :
    (t.setData i d).fresh = t.fresh := rfl

@[simp] theorem data_setData_self (t : FileTree ν β) (i : Nat) (d : List β) :
    (t.setData i d).data i = d := Function.update_self ..

theorem data_setData_of_ne {i j : Nat} (h : j ≠ i) (t : FileTree ν β) (d : List β) :
    (t.setData i d).data j = t.data j := Function.update_of_ne h _ _

theorem content_setData {i : Nat} (h : t.node p = some (.file i)) (d : List β) (q : List ν) :
    (t.setData i d).content q = if q = p then some d else t.content q := by
  split
  · rename_i hq
    subst hq
    rw [content_of_file (t := t.setData i d) h, data_setData_self]
  · rename_i hq
    refine content_congr rfl (fun j hj => data_setData_of_ne ?_ _ _)
    rintro rfl
    exact hq (t.sound.single q p j hj h)

theorem node_remove (t : FileTree ν β) (p q : List ν) : (t.remove p).node q =
    if q = p ∧ Childless t.nodes p then none else t.node q := by
  unfold remove
  split
  · rename_i h
    simp only [node]
    by_cases hqp : q = p
    · subst hqp; simp [h]
    · simp [hqp, Finmap.lookup_erase_ne hqp]
  · rename_i h
    rw [if_neg (fun hc => h hc.2)]

@[simp] theorem data_remove (t : FileTree ν β) (p : List ν) : (t.remove p).data = t.data := by
  unfold remove; split <;> rfl

@[simp] theorem fresh_remove (t : FileTree ν β) (p : List ν) : (t.remove p).fresh = t.fresh := by
  unfold remove; split <;> rfl

theorem node_remove_file {i : Nat} (h : t.node p = some (.file i)) (q : List ν) :
    (t.remove p).node q = if q = p then none else t.node q := by
  simp [node_remove, t.sound.childless_of_file h]

theorem content_remove_file {i : Nat} (h : t.node p = some (.file i)) (q : List ν) :
    (t.remove p).content q = if q = p then none else t.content q := by
  split
  · rename_i hq
    exact content_eq_none_of_node (by rw [node_remove_file h, if_pos hq])
  · rename_i hq
    exact content_congr (by rw [node_remove_file h, if_neg hq]) (by simp)

/-- Removing a directory changes no contents. -/
theorem content_remove_dir (h : t.node p = some .dir) (q : List ν) :
    (t.remove p).content q = t.content q := by
  by_cases hq : q = p ∧ Childless t.nodes p
  · obtain ⟨rfl, hc⟩ := hq
    simp [content, node_remove, hc, h]
  · exact content_congr (by rw [node_remove, if_neg hq]) (by simp)

theorem node_move {i : Nat} (hp : t.node p = some (.file i)) (h : t.CanMove p q) (r : List ν) :
    (t.move p q).node r =
      if r = q then some (.file i) else if r = p then none else t.node r := by
  unfold move
  split
  · rename_i j hj
    obtain rfl : j = i := by rw [hp] at hj; cases hj; rfl
    rw [dif_pos h]
    simp only [node]
    by_cases hrq : r = q
    · subst hrq; simp
    · rw [if_neg hrq, Finmap.lookup_insert_of_ne _ hrq]
      by_cases hrp : r = p
      · subst hrp; simp
      · rw [if_neg hrp, Finmap.lookup_erase_ne hrp]
  · rename_i hno
    exact absurd hp (hno i)

@[simp] theorem data_move (t : FileTree ν β) (p q : List ν) : (t.move p q).data = t.data := by
  unfold move
  split
  · split <;> rfl
  · rfl

@[simp] theorem fresh_move (t : FileTree ν β) (p q : List ν) : (t.move p q).fresh = t.fresh := by
  unfold move
  split
  · split <;> rfl
  · rfl

theorem content_move {i : Nat} (hp : t.node p = some (.file i)) (h : t.CanMove p q)
    (r : List ν) : (t.move p q).content r =
      if r = q then some (t.data i) else if r = p then none else t.content r := by
  have hr := node_move hp h r
  split
  · rename_i hrq
    rw [if_pos hrq] at hr
    rw [content_of_file hr, data_move]
  · rename_i hrq
    rw [if_neg hrq] at hr
    split
    · rename_i hrp
      rw [if_pos hrp] at hr
      exact content_eq_none_of_node hr
    · rename_i hrp
      rw [if_neg hrp] at hr
      exact content_congr hr (by simp)

/-! ## A file created or emptied, and a file written whole -/

/-- Open a file for writing from its start: an old file is emptied, a free place gets a
new file. -/
def create (t : FileTree ν β) (p : List ν) : FileTree ν β :=
  match t.node p with
  | some (.file i) => t.setData i []
  | _ => t.newFile p

/-- A file stands at `p`, or can be made there. -/
def CanCreate (t : FileTree ν β) (p : List ν) : Prop :=
  t.node p ≠ some .dir ∧ t.HasParent p

instance (t : FileTree ν β) (p : List ν) : Decidable (t.CanCreate p) :=
  inferInstanceAs (Decidable (_ ∧ _))

/-- The file at `p`, written whole. -/
def put (t : FileTree ν β) (p : List ν) (d : List β) : FileTree ν β :=
  match (t.create p).node p with
  | some (.file i) => (t.create p).setData i d
  | _ => t.create p

theorem node_create (h : t.CanCreate p) (q : List ν) : (t.create p).node q =
    if q = p then some ((t.node p).getD (.file t.fresh)) else t.node q := by
  unfold create
  split
  · rename_i i hi
    rw [node_setData]
    split
    · rename_i hq; subst hq; rw [hi]; rfl
    · rfl
  · rename_i hno
    have hnone : t.node p = none := by
      cases hn : t.node p with
      | none => rfl
      | some n =>
        cases n with
        | dir => exact absurd hn h.1
        | file i => exact absurd hn (hno i)
    simp [node_newFile, hnone, h.2]

/-- After a create a file stands at the path. -/
theorem node_create_self (h : t.CanCreate p) : ∃ i, (t.create p).node p = some (.file i) ∧
    (t.node p = some (.file i) ∨ (t.node p = none ∧ i = t.fresh)) := by
  rw [node_create h, if_pos rfl]
  cases hn : t.node p with
  | none => exact ⟨t.fresh, rfl, Or.inr ⟨rfl, rfl⟩⟩
  | some n =>
    cases n with
    | dir => exact absurd hn h.1
    | file i => exact ⟨i, rfl, Or.inl rfl⟩

theorem data_create_of_ne {j : Nat} (hj : j < t.fresh) (h : t.node p ≠ some (.file j)) :
    (t.create p).data j = t.data j := by
  unfold create
  split
  · rename_i i hi
    exact data_setData_of_ne (by rintro rfl; exact h hi) _ _
  · exact data_newFile_of_lt hj p

theorem content_create (h : t.CanCreate p) (q : List ν) :
    (t.create p).content q = if q = p then some [] else t.content q := by
  obtain ⟨i, hi, hold⟩ := node_create_self h
  split
  · rename_i hq
    subst hq
    rw [content_of_file hi]
    unfold create
    rcases hold with hold | ⟨hold, rfl⟩
    · simp [hold]
    · have hnew : t.node q = none ∧ t.HasParent q := ⟨hold, h.2⟩
      simp [hold, newFile, hnew]
  · rename_i hq
    have hn : (t.create p).node q = t.node q := by rw [node_create h, if_neg hq]
    refine content_congr hn (fun j hj => data_create_of_ne (t.sound.below q j hj) ?_)
    exact fun hp => hq (t.sound.single q p j hj hp)

theorem fresh_le_create (t : FileTree ν β) (p : List ν) : t.fresh ≤ (t.create p).fresh := by
  unfold create
  split
  · exact Nat.le_refl _
  · exact fresh_le_newFile t p

theorem node_put (h : t.CanCreate p) (d : List β) (q : List ν) :
    (t.put p d).node q = (t.create p).node q := by
  obtain ⟨i, hi, _⟩ := node_create_self h
  simp [put, hi]

theorem content_put (h : t.CanCreate p) (d : List β) (q : List ν) :
    (t.put p d).content q = if q = p then some d else t.content q := by
  obtain ⟨i, hi, _⟩ := node_create_self h
  simp only [put, hi]
  rw [content_setData hi, content_create h]
  split <;> rfl

theorem fresh_le_put (t : FileTree ν β) (p : List ν) (d : List β) :
    t.fresh ≤ (t.put p d).fresh := by
  unfold put
  split
  · exact fresh_le_create t p
  · exact fresh_le_create t p

/-! ## The length of all files of a kind -/

/-- The length of the file at a path, and 0 when there is none. -/
def size (t : FileTree ν β) (p : List ν) : Nat := ((t.content p).map List.length).getD 0

/-- The length of all the files whose paths `sel` selects. -/
def total (t : FileTree ν β) (sel : List ν → Bool) : Nat :=
  ∑ p ∈ t.nodes.keys.filter (fun p => sel p = true), t.size p

theorem size_eq_zero_of_not_mem (h : p ∉ t.nodes.keys) : t.size p = 0 := by
  have hn : t.node p = none := by
    rw [Finmap.mem_keys] at h
    exact Finmap.lookup_eq_none.mpr h
  simp [size, content_eq_none_of_node hn]

theorem total_eq_sum (t : FileTree ν β) (sel : List ν → Bool) (s : Finset (List ν))
    (h : t.nodes.keys ⊆ s) : t.total sel = ∑ p ∈ s.filter (fun p => sel p = true), t.size p := by
  refine Finset.sum_subset (Finset.filter_subset_filter _ h) ?_
  intro p hp hno
  apply size_eq_zero_of_not_mem
  intro hk
  exact hno (Finset.mem_filter.mpr ⟨hk, (Finset.mem_filter.mp hp).2⟩)

/-- An operation that changes at most one selected file changes the total by the change
of that file. -/
theorem total_change (t t' : FileTree ν β) (sel : List ν → Bool) (p : List ν)
    (hp : sel p = true) (h : ∀ q, sel q = true → q ≠ p → t'.size q = t.size q) :
    t'.total sel + t.size p = t.total sel + t'.size p := by
  let s := insert p (t.nodes.keys ∪ t'.nodes.keys)
  have hs : t.nodes.keys ⊆ s := fun q hq => by simp [s, hq]
  have hs' : t'.nodes.keys ⊆ s := fun q hq => by simp [s, hq]
  have hmem : p ∈ s.filter (fun p => sel p = true) := by simp [s, hp]
  rw [total_eq_sum t sel s hs, total_eq_sum t' sel s hs', ← Finset.add_sum_erase _ _ hmem,
    ← Finset.add_sum_erase _ _ hmem]
  have hrest : ∑ q ∈ (s.filter (fun p => sel p = true)).erase p, t'.size q =
      ∑ q ∈ (s.filter (fun p => sel p = true)).erase p, t.size q := by
    apply Finset.sum_congr rfl
    intro q hq
    rw [Finset.mem_erase, Finset.mem_filter] at hq
    exact h q hq.2.2 hq.1
  rw [hrest]
  omega

theorem total_congr (t t' : FileTree ν β) (sel : List ν → Bool)
    (h : ∀ q, sel q = true → t'.size q = t.size q) : t'.total sel = t.total sel := by
  have hs : t.nodes.keys ⊆ t.nodes.keys ∪ t'.nodes.keys := Finset.subset_union_left
  have hs' : t'.nodes.keys ⊆ t.nodes.keys ∪ t'.nodes.keys := Finset.subset_union_right
  rw [total_eq_sum t sel _ hs, total_eq_sum t' sel _ hs']
  exact Finset.sum_congr rfl (fun q hq => h q (Finset.mem_filter.mp hq).2)

end FileTree

end edge_cdn_store.file_tree
