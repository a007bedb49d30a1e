-- Path texts as `std::path` reads them, and a file system with symbolic links:
-- what the kernel finds at a path, and where that really is.
import Mathlib

namespace edge_cdn_store.linked_tree

/-- The bytes of a path or of a name. -/
abbrev OsStr := List UInt8

def slash : UInt8 := 47

def dot : OsStr := [46]

def dotdot : OsStr := [46, 46]

/-! ## The text of a path -/

/-- `std::path::Component`, without the prefixes of other systems. -/
inductive Component
  | RootDir
  | CurDir
  | ParentDir
  | Normal (name : OsStr)
deriving DecidableEq

/-- `Path::is_absolute` -/
def is_absolute (p : OsStr) : Bool := p.head? = some slash

/-- What one segment of a text counts for: nothing, where it is empty or a dot. -/
def component (s : OsStr) : Option Component :=
  if s = [] ∨ s = dot then none else if s = dotdot then some .ParentDir else some (.Normal s)

/-- `Path::components`: a dot counts only where the text begins with it. -/
def components (p : OsStr) : List Component :=
  (if is_absolute p then [.RootDir]
    else if (p.splitOn slash).head? = some dot then [.CurDir] else []) ++
    (p.splitOn slash).filterMap component

/-- `Path::starts_with`: by whole components. -/
def starts_with (p base : OsStr) : Bool := decide (components base <+: components p)

/-- `Path::join`: an absolute tail takes the place of all that is there. -/
def join (root tail : OsStr) : OsStr :=
  if is_absolute tail then tail
  else if root = [] ∨ root.getLast? = some slash then root ++ tail
  else root ++ slash :: tail

/-- A name that a directory may hold. -/
def Proper (n : OsStr) : Prop := n ≠ [] ∧ n ≠ dot ∧ n ≠ dotdot ∧ slash ∉ n ∧ 0 ∉ n

instance (n : OsStr) : Decidable (Proper n) := by unfold Proper; infer_instance

theorem component_proper {n : OsStr} (h : Proper n) : component n = some (.Normal n) := by
  obtain ⟨h1, h2, h3, -, -⟩ := h
  simp [component, h1, h2, h3]

/-! ## The tree -/

/-- A place in the tree: the names on the way from its root, and no link among them. -/
abbrev Loc := List OsStr

inductive FileType
  | dir
  | file
  | symlink
deriving DecidableEq

/-- `std::fs::DirEntry`. The type of an entry may be out of reach. -/
structure DirEntry where
  file_name : OsStr
  file_type : Option FileType
deriving DecidableEq

/-- What is at a place. A directory that cannot be read has no entries to give, and a read
of one may fail at any entry. A file that cannot be read has no contents to give. -/
inductive Node
  | dir (searchable : Bool) (entries : Option (List (Option DirEntry)))
  | file (contents : Option (List UInt8))
  | link (target : OsStr)
deriving DecidableEq

def Node.file_type : Node → FileType
  | .dir _ _ => .dir
  | .file _ => .file
  | .link _ => .symlink

/-- A file system that does not change. -/
structure LinkedTree where
  node : Loc → Option Node
  cwd : Loc
  /-- The links that one path may go through. -/
  max_links : Nat
  /-- The path texts that the kernel takes at all: not too long, and with no null byte. -/
  admits : OsStr → Bool
  root_dir : (node []).map Node.file_type = some .dir
  cwd_dir : (node cwd).map Node.file_type = some .dir
  parent_dir : ∀ l n, node (l ++ [n]) ≠ none → (node l).map Node.file_type = some .dir
  proper : ∀ l n, node (l ++ [n]) ≠ none → Proper n
  listed : ∀ l searchable entries e, node l = some (.dir searchable (some entries)) →
    some e ∈ entries → ∃ nd, node (l ++ [e.file_name]) = some nd ∧
      ∀ t ∈ e.file_type, t = nd.file_type

/-! ## Resolution -/

/-- Go on from `cur` by the segments of a path. A link hands over to `follow`, with its
own segments before those that are left. -/
def walk_with (node : Loc → Option Node) (follow : Loc → List OsStr → Option Loc) :
    Loc → List OsStr → Option Loc
  | cur, [] => some cur
  | cur, s :: rest =>
    match node cur with
    | some (.dir searchable _) =>
      if s = [] then walk_with node follow cur rest
      else if !searchable then none
      else if s = dot then walk_with node follow cur rest
      else if s = dotdot then walk_with node follow cur.dropLast rest
      else match node (cur ++ [s]) with
        | none => none
        | some (.link target) =>
          if target = [] then none
          else follow (if is_absolute target then [] else cur) (target.splitOn slash ++ rest)
        | some _ => walk_with node follow (cur ++ [s]) rest
    | _ => none

/-- A walk through so many links at most. -/
def walk (node : Loc → Option Node) : Nat → Loc → List OsStr → Option Loc
  | 0 => walk_with node fun _ _ => none
  | k + 1 => walk_with node (walk node k)

/-- The text of a place, as `canonicalize` gives it. -/
def text (l : Loc) : OsStr := slash :: [slash].intercalate l

namespace LinkedTree

variable (fs : LinkedTree)

/-- The place that a path leads to, the last link followed as well. -/
def locate (p : OsStr) : Option Loc :=
  if p = [] ∨ fs.admits p = false then none
  else walk fs.node fs.max_links (if is_absolute p then [] else fs.cwd) (p.splitOn slash)

/-- `Path::canonicalize` -/
def canonicalize (p : OsStr) : Option OsStr := (fs.locate p).map text

/-- `fs::metadata`, of which only the type is of use. -/
def metadata (p : OsStr) : Option FileType :=
  ((fs.locate p).bind fs.node).map Node.file_type

/-- `fs::read` -/
def read (p : OsStr) : Option (List UInt8) :=
  match (fs.locate p).bind fs.node with
  | some (.file contents) => contents
  | _ => none

/-- `fs::read_dir` -/
def read_dir (p : OsStr) : Option (List (Option DirEntry)) :=
  match (fs.locate p).bind fs.node with
  | some (.dir _ entries) => entries
  | _ => none

variable {fs}

/-- What is above a place is a directory. -/
theorem above_dir {l m : Loc} (h : fs.node (l ++ m) ≠ none) (hm : m ≠ []) :
    (fs.node l).map Node.file_type = some .dir := by
  induction m using List.reverseRecOn with
  | nil => exact absurd rfl hm
  | append_singleton m n ih =>
    rw [← List.append_assoc] at h
    have hdir := fs.parent_dir _ _ h
    by_cases hnil : m = []
    · simpa [hnil] using hdir
    · apply ih
      · intro hnone
        rw [hnone] at hdir
        cases hdir
      · exact hnil

/-- Each name of a place is a proper one. -/
theorem proper_of_mem {l : Loc} (h : fs.node l ≠ none) {n : OsStr} (hn : n ∈ l) : Proper n := by
  obtain ⟨before, after, rfl⟩ := List.append_of_mem hn
  apply fs.proper before n
  by_cases hnil : after = []
  · simpa [hnil] using h
  · intro hnone
    have happ : before ++ n :: after = (before ++ [n]) ++ after := by simp
    rw [happ] at h
    have hdir := above_dir h hnil
    rw [hnone] at hdir
    cases hdir

/-- An empty segment leads nowhere else. -/
theorem walk_empty {k : Nat} {cur c : Loc} {rest : List OsStr}
    (h : walk fs.node k cur ([] :: rest) = some c) : walk fs.node k cur rest = some c := by
  cases k with
  | zero =>
    unfold walk walk_with at h
    split at h
    · exact h
    · cases h
  | succ k =>
    unfold walk walk_with at h
    split at h
    · exact h
    · cases h

theorem walk_with_to_place {follow : Loc → List OsStr → Option Loc} {cur segs c : Loc} {nd : Node}
    (hend : fs.node (cur ++ segs) = some nd) (hlink : nd.file_type ≠ .symlink)
    (h : walk_with fs.node follow cur segs = some c) : c = cur ++ segs := by
  induction segs generalizing cur with
  | nil => simpa [walk_with] using h.symm
  | cons s rest ih =>
    have happ : cur ++ s :: rest = (cur ++ [s]) ++ rest := by simp
    have hthere : fs.node (cur ++ s :: rest) ≠ none := by simp [hend]
    obtain ⟨h1, h2, h3, -, -⟩ : Proper s := proper_of_mem hthere (by simp)
    rw [happ] at hend hthere ⊢
    unfold walk_with at h
    split at h
    · rw [if_neg h1] at h
      split at h
      · cases h
      · split at h
        · cases h
        · -- a link here would be the end, or have the end below it
          rename_i hnode
          exfalso
          by_cases hnil : rest = []
          · rw [hnil, List.append_nil, hnode] at hend
            cases hend
            exact hlink rfl
          · have hdir := above_dir hthere hnil
            rw [hnode] at hdir
            cases hdir
        · exact ih hend h
    · cases h

/-- A walk by the names of a place that is there, and is no link, can only come to it. -/
theorem walk_to_place {k : Nat} {cur segs c : Loc} {nd : Node}
    (hend : fs.node (cur ++ segs) = some nd) (hlink : nd.file_type ≠ .symlink)
    (h : walk fs.node k cur segs = some c) : c = cur ++ segs := by
  cases k with
  | zero => exact walk_with_to_place hend hlink h
  | succ k => exact walk_with_to_place hend hlink h

/-- A step of a walk begins in a directory. -/
theorem dropLast_dir {l : Loc} (h : (fs.node l).map Node.file_type = some .dir) :
    (fs.node l.dropLast).map Node.file_type = some .dir := by
  rcases List.eq_nil_or_concat l with rfl | ⟨l, n, rfl⟩
  · exact h
  · rw [List.concat_eq_append] at h ⊢
    rw [List.dropLast_concat]
    apply fs.parent_dir l n
    intro hnone
    rw [hnone] at h
    cases h

/-- What a walk comes to is there, and it is no link. -/
def There (node : Loc → Option Node) (l : Loc) : Prop :=
  ∃ nd, node l = some nd ∧ nd.file_type ≠ .symlink

theorem There.proper {l : Loc} (h : There fs.node l) : ∀ n ∈ l, Proper n := by
  obtain ⟨nd, hnd, -⟩ := h
  have hthere : fs.node l ≠ none := by simp [hnd]
  intro n hn
  exact proper_of_mem hthere hn

theorem there_of_dir {l : Loc} (h : (fs.node l).map Node.file_type = some .dir) :
    There fs.node l := by
  obtain ⟨nd, hnd, htype⟩ := Option.map_eq_some_iff.mp h
  exact ⟨nd, hnd, by simp [htype]⟩

theorem walk_with_there {follow : Loc → List OsStr → Option Loc} {cur segs : Loc} {c : Loc}
    (hfollow : ∀ cur segs c, There fs.node cur → follow cur segs = some c → There fs.node c)
    (hcur : There fs.node cur) (h : walk_with fs.node follow cur segs = some c) :
    There fs.node c := by
  induction segs generalizing cur with
  | nil =>
    simp only [walk_with, Option.some.injEq] at h
    exact h ▸ hcur
  | cons s rest ih =>
    unfold walk_with at h
    split at h
    · rename_i hdir
      split at h
      · exact ih hcur h
      · split at h
        · cases h
        · split at h
          · exact ih hcur h
          · split at h
            · apply ih _ h
              apply there_of_dir
              apply dropLast_dir
              simp [hdir, Node.file_type]
            · split at h
              · cases h
              · split at h
                · cases h
                · apply hfollow _ _ _ _ h
                  split
                  · exact there_of_dir fs.root_dir
                  · exact hcur
              · rename_i nd hlink hnode
                apply ih _ h
                refine ⟨nd, hnode, ?_⟩
                intro htype
                cases nd with
                | link target => exact hlink target rfl
                | dir searchable entries => cases htype
                | file contents => cases htype
    · cases h

theorem walk_there {k : Nat} {cur segs c : Loc} (hcur : There fs.node cur)
    (h : walk fs.node k cur segs = some c) : There fs.node c := by
  induction k generalizing cur segs c with
  | zero => exact walk_with_there (fun _ _ _ _ hf => by cases hf) hcur h
  | succ k ih => exact walk_with_there (fun _ _ _ hthere hf => ih hthere hf) hcur h

theorem locate_there {p : OsStr} {c : Loc} (h : fs.locate p = some c) : There fs.node c := by
  unfold locate at h
  split at h
  · cases h
  · apply walk_there _ h
    split
    · exact there_of_dir fs.root_dir
    · exact there_of_dir fs.cwd_dir

/-! ## The text of a place -/

theorem splitOn_text {l : Loc} (h : ∀ n ∈ l, slash ∉ n) (hl : l ≠ []) :
    (text l).splitOn slash = [] :: l := by
  have hcons := List.splitOn_append_cons_self (a := slash) [] ([slash].intercalate l)
  rw [List.nil_append] at hcons
  unfold text
  rw [hcons, List.splitOn_intercalate slash h hl, List.splitOn_nil]
  rfl

theorem is_absolute_text (l : Loc) : is_absolute (text l) = true := by
  simp [is_absolute, text]

/-- The components of the text of a place are its names. -/
theorem components_text {l : Loc} (h : ∀ n ∈ l, Proper n) :
    components (text l) = .RootDir :: l.map .Normal := by
  by_cases hl : l = []
  · subst hl
    decide
  · unfold components
    rw [is_absolute_text, splitOn_text (fun n hn => (h n hn).2.2.2.1) hl]
    have hmap : l.filterMap component = l.map .Normal := by
      clear hl
      induction l with
      | nil => rfl
      | cons n rest ih =>
        rw [List.filterMap_cons, component_proper (h n (by simp))]
        simp [ih fun m hm => h m (by simp [hm])]
    simp [component, hmap]

/-- The text of a place, where the kernel can go by it, leads back to the place. -/
theorem locate_text {l c : Loc} (hl : There fs.node l) (h : fs.locate (text l) = some c) :
    c = l := by
  have hproper := hl.proper
  obtain ⟨nd, hnd, htype⟩ := hl
  have hwalk : walk fs.node fs.max_links [] ((text l).splitOn slash) = some c := by
    unfold locate at h
    split at h
    · cases h
    · rwa [is_absolute_text, if_pos rfl] at h
  by_cases hnil : l = []
  · subst hnil
    -- the text of the root is one slash, and its two segments are empty
    have hsplit : (text []).splitOn slash = [[], []] := by decide
    rw [hsplit] at hwalk
    have hend : fs.node ([] ++ []) = some nd := hnd
    exact walk_to_place hend htype (walk_empty (walk_empty hwalk))
  · rw [splitOn_text (fun n hn => (hproper n hn).2.2.2.1) hnil] at hwalk
    exact walk_to_place hnd htype (walk_empty hwalk)

/-- By its text a place starts with another only where it is that one or below it. -/
theorem below_of_starts_with {l top : Loc} (hl : There fs.node l) (htop : There fs.node top)
    (h : starts_with (text l) (text top) = true) : top <+: l := by
  unfold starts_with at h
  rw [components_text hl.proper, components_text htop.proper, decide_eq_true_iff,
    List.cons_prefix_cons] at h
  have hinj : Function.Injective Component.Normal := fun a b hab => by cases hab; rfl
  obtain ⟨top', hpre, hmap⟩ := List.prefix_map_iff.mp h.2
  rw [hinj.list_map hmap]
  exact hpre

end LinkedTree

/-! ## A tree from a table -/

/-- The entries that a read of a directory gives before its end, failures left out. -/
def Node.entries : Node → List DirEntry
  | .dir _ (some entries) => entries.filterMap id
  | _ => []

/-- Each place of the table is in a directory of the table, under a proper name, and each
entry of a directory is there with its type. -/
def IsTree (t : List (Loc × Node)) : Prop :=
  (t.lookup []).map Node.file_type = some .dir ∧
  (∀ p ∈ t, p.1 ≠ [] → (t.lookup p.1.dropLast).map Node.file_type = some .dir ∧
    ∀ n ∈ p.1.getLast?, Proper n) ∧
  ∀ p ∈ t, ∀ e ∈ p.2.entries, ∃ nd ∈ t.lookup (p.1 ++ [e.file_name]),
    ∀ ft ∈ e.file_type, ft = nd.file_type

instance (t : List (Loc × Node)) : Decidable (IsTree t) := by unfold IsTree; infer_instance

theorem mem_of_lookup {t : List (Loc × Node)} {l : Loc} {nd : Node}
    (h : t.lookup l = some nd) : (l, nd) ∈ t := by
  obtain ⟨l1, l2, rfl, -⟩ := List.lookup_eq_some_iff.mp h
  simp

/-- The tree of a table, seen from its root. -/
def LinkedTree.of_table (t : List (Loc × Node)) (max_links : Nat) (admits : OsStr → Bool)
    (h : IsTree t) : LinkedTree where
  node l := t.lookup l
  cwd := []
  max_links := max_links
  admits := admits
  root_dir := h.1
  cwd_dir := h.1
  parent_dir l n hl := by
    obtain ⟨nd, hnd⟩ := Option.ne_none_iff_exists'.mp hl
    have hp := (h.2.1 _ (mem_of_lookup hnd) (by simp)).1
    rwa [List.dropLast_concat] at hp
  proper l n hl := by
    obtain ⟨nd, hnd⟩ := Option.ne_none_iff_exists'.mp hl
    exact (h.2.1 _ (mem_of_lookup hnd) (by simp)).2 n (by simp)
  listed l searchable entries e hl he := by
    have hmem : e ∈ (Node.dir searchable (some entries)).entries := by
      simpa [Node.entries] using he
    obtain ⟨nd, hnd, htype⟩ := h.2.2 _ (mem_of_lookup hl) e hmem
    exact ⟨nd, hnd, htype⟩

end edge_cdn_store.linked_tree
