-- The place that a tail leads to, and what a request shows that gets there. The tail of a
-- listing leads on from the listing with the name of an entry behind it, and back to it with
-- one slash at its end.
import EdgeCdnStore.Inspector

open edge_cdn_store.programs edge_cdn_store.programs.Program edge_cdn_store.linked_tree
open edge_cdn_store.utils edge_cdn_store.inspector

namespace edge_cdn_store.linked_tree.LinkedTree

/-! ## Walks in parts -/

variable {fs : LinkedTree} {node : Loc → Option Node}

/-- What a segment does, whatever comes after it: the walk ends, or goes on from another place,
or is handed over with the segments of a link. -/
theorem walk_with_step (node : Loc → Option Node) (follow : Loc → List OsStr → Option Loc)
    (cur : Loc) (s : OsStr) :
    (∀ rest, walk_with node follow cur (s :: rest) = none) ∨
    (∃ cur', ∀ rest, walk_with node follow cur (s :: rest) = walk_with node follow cur' rest) ∨
    ∃ cur' segs, ∀ rest, walk_with node follow cur (s :: rest) = follow cur' (segs ++ rest) := by
  cases hcur : node cur with
  | none => exact Or.inl fun rest => by simp [walk_with, hcur]
  | some nd =>
    cases nd with
    | file contents => exact Or.inl fun rest => by simp [walk_with, hcur]
    | link target => exact Or.inl fun rest => by simp [walk_with, hcur]
    | dir searchable entries =>
      by_cases h1 : s = []
      · exact Or.inr (Or.inl ⟨cur, fun rest => by simp [walk_with, hcur, h1]⟩)
      by_cases h2 : searchable = false
      · exact Or.inl fun rest => by simp [walk_with, hcur, h1, h2]
      by_cases h3 : s = dot
      · exact Or.inr (Or.inl ⟨cur, fun rest => by simp [walk_with, hcur, h3]; simp_all⟩)
      by_cases h4 : s = dotdot
      · exact Or.inr (Or.inl ⟨cur.dropLast, fun rest => by simp [walk_with, hcur, h4]; simp_all⟩)
      cases hs : node (cur ++ [s]) with
      | none => exact Or.inl fun rest => by simp [walk_with, hcur, h1, h2, h3, h4, hs]
      | some nd =>
        cases nd with
        | file contents =>
          exact Or.inr (Or.inl ⟨cur ++ [s], fun rest => by
            simp [walk_with, hcur, h1, h2, h3, h4, hs]⟩)
        | dir searchable' entries' =>
          exact Or.inr (Or.inl ⟨cur ++ [s], fun rest => by
            simp [walk_with, hcur, h1, h2, h3, h4, hs]⟩)
        | link target =>
          by_cases h5 : target = []
          · exact Or.inl fun rest => by simp [walk_with, hcur, h1, h2, h3, h4, hs, h5]
          · exact Or.inr (Or.inr ⟨if is_absolute target then [] else cur, target.splitOn slash,
              fun rest => by simp [walk_with, hcur, h1, h2, h3, h4, hs, h5]⟩)

theorem walk_with_append {K : Nat} {follow : Loc → List OsStr → Option Loc} {cur m : Loc}
    {a : List OsStr} (hwalk : walk node K = walk_with node follow)
    (hfollow : ∀ cur a m, follow cur a = some m →
      ∃ j, ∀ b, follow cur (a ++ b) = walk node j m b)
    (h : walk_with node follow cur a = some m) :
    ∃ j, ∀ b, walk_with node follow cur (a ++ b) = walk node j m b := by
  induction a generalizing cur with
  | nil =>
    cases h
    exact ⟨K, fun b => by rw [hwalk, List.nil_append]⟩
  | cons s rest ih =>
    rcases walk_with_step node follow cur s with hend | ⟨cur', hgoes⟩ | ⟨cur', segs, hlink⟩
    · rw [hend] at h
      cases h
    · rw [hgoes] at h
      obtain ⟨j, hj⟩ := ih h
      exact ⟨j, fun b => by rw [List.cons_append, hgoes, hj]⟩
    · rw [hlink] at h
      obtain ⟨j, hj⟩ := hfollow _ _ _ h
      exact ⟨j, fun b => by rw [List.cons_append, hlink, ← List.append_assoc, hj]⟩

/-- A walk that comes to an end has first come to where its first segments lead. -/
theorem walk_with_split {follow : Loc → List OsStr → Option Loc} {cur c : Loc} {a b : List OsStr}
    (hfollow : ∀ cur a b c, follow cur (a ++ b) = some c → ∃ m, follow cur a = some m)
    (h : walk_with node follow cur (a ++ b) = some c) :
    ∃ m, walk_with node follow cur a = some m := by
  induction a generalizing cur with
  | nil => exact ⟨cur, rfl⟩
  | cons s rest ih =>
    rw [List.cons_append] at h
    rcases walk_with_step node follow cur s with hend | ⟨cur', hgoes⟩ | ⟨cur', segs, hlink⟩
    · rw [hend] at h
      cases h
    · rw [hgoes] at h ⊢
      exact ih h
    · rw [hlink] at h ⊢
      rw [← List.append_assoc] at h
      exact hfollow _ _ _ _ h

/-- A walk goes on from where its first segments lead, with some of its links left. -/
theorem walk_append {k : Nat} {cur m : Loc} {a : List OsStr}
    (h : walk node k cur a = some m) :
    ∃ j, ∀ b, walk node k cur (a ++ b) = walk node j m b := by
  induction k generalizing cur a m with
  | zero => exact walk_with_append (K := 0) rfl (fun _ _ _ hf => by cases hf) h
  | succ k ih => exact walk_with_append (K := k + 1) rfl (fun _ _ _ hf => ih hf) h

theorem walk_split {k : Nat} {cur c : Loc} {a b : List OsStr}
    (h : walk node k cur (a ++ b) = some c) : ∃ m, walk node k cur a = some m := by
  induction k generalizing cur a b c with
  | zero => exact walk_with_split (fun _ _ _ _ hf => by cases hf) h
  | succ k ih => exact walk_with_split (fun _ _ _ _ hf => ih hf) h

/-- Empty segments at the end lead nowhere else. -/
theorem walk_empties {k n : Nat} {cur c : Loc} {a : List OsStr}
    (h : walk fs.node k cur (a ++ List.replicate n []) = some c) :
    walk fs.node k cur a = some c := by
  obtain ⟨m, hm⟩ := walk_split h
  obtain ⟨j, hj⟩ := walk_append hm
  rw [hj] at h
  have hsame : m = c := by
    clear hj
    induction n with
    | zero =>
      cases j <;> exact Option.some.inj h
    | succ n ih => exact ih (walk_empty h)
  rw [hm, hsame]

/-- A name leads from a directory to what stands there under it, if that is no link. -/
theorem walk_name {k : Nat} {l : Loc} {name : OsStr} {entries : Option (List (Option DirEntry))}
    {nd : Node} {n : Nat} (hdir : fs.node l = some (.dir true entries))
    (hnode : fs.node (l ++ [name]) = some nd) (hlink : nd.file_type ≠ .symlink)
    (hn : n = 0 ∨ nd.file_type = .dir) :
    walk fs.node k l (name :: List.replicate n []) = some (l ++ [name]) := by
  obtain ⟨h1, h2, h3, -, -⟩ := fs.proper l name (by simp [hnode])
  -- the empty segments stay in the directory
  have hstay : ∀ follow, walk_with fs.node follow (l ++ [name]) (List.replicate n []) =
      some (l ++ [name]) := by
    intro follow
    rcases hn with rfl | hn
    · rfl
    · cases nd with
      | dir searchable entries' =>
        induction n with
        | zero => rfl
        | succ n ih => simpa [List.replicate_succ, walk_with, hnode] using ih
      | file contents => cases hn
      | link target => cases hn
  have hfrom : ∀ follow, walk_with fs.node follow l (name :: List.replicate n []) =
      some (l ++ [name]) := by
    intro follow
    cases nd with
    | dir searchable entries' => simpa [walk_with, hdir, h1, h2, h3, hnode] using hstay follow
    | file contents => simpa [walk_with, hdir, h1, h2, h3, hnode] using hstay follow
    | link target => exact absurd rfl hlink
  cases k <;> exact hfrom _

end edge_cdn_store.linked_tree.LinkedTree

namespace edge_cdn_store.places

/-! ## The tails of the links -/

/-- The tail of the way up from an entry: that of the listing, with one slash at its end. -/
def up (tail : Text) : Text :=
  if trim_end_matches '/' tail = [] then [] else trim_end_matches '/' tail ++ ['/']

/-- The tail of the link to an entry of a listing. -/
def link (tail name : Text) (is_dir : Bool) : Text :=
  up tail ++ name ++ if is_dir then ['/'] else []

theorem trim_end_append (c : Char) (s : Text) :
    ∃ n, s = trim_end_matches c s ++ List.replicate n c := by
  induction s using List.reverseRecOn with
  | nil => exact ⟨0, rfl⟩
  | append_singleton s x ih =>
    unfold trim_end_matches at ih ⊢
    by_cases hx : x = c
    · obtain ⟨n, hn⟩ := ih
      refine ⟨n + 1, ?_⟩
      rw [List.rdropWhile_concat_pos _ _ _ (by simpa using hx), List.replicate_succ',
        ← List.append_assoc, ← hn, hx]
    · refine ⟨0, ?_⟩
      rw [List.rdropWhile_concat_neg _ _ _ (by simpa using hx)]
      simp

@[simp] theorem as_bytes_append (s t : Text) : as_bytes (s ++ t) = as_bytes s ++ as_bytes t :=
  List.flatMap_append

@[simp] theorem as_bytes_slash : as_bytes ['/'] = [slash] := by decide

theorem as_bytes_slashes (n : Nat) : as_bytes (List.replicate n '/') = List.replicate n slash := by
  induction n with
  | zero => rfl
  | succ n ih =>
    rw [List.replicate_succ', as_bytes_append, ih, as_bytes_slash, ← List.replicate_succ']

/-- Slashes at the end give empty segments. -/
theorem splitOn_slashes (p : OsStr) (n : Nat) :
    (p ++ List.replicate n slash).splitOn slash = p.splitOn slash ++ List.replicate n [] := by
  induction n with
  | zero => simp
  | succ n ih =>
    rw [List.replicate_succ', ← List.append_assoc, List.splitOn_append_cons_self, ih,
      List.replicate_succ', List.splitOn_nil, List.append_assoc]

/-- Only the slash is encoded with the byte of a slash. -/
theorem eq_slash_of_mem {c : Char} (h : slash ∈ String.utf8EncodeChar c) : c = '/' := by
  have hbyte : ∀ x : Nat, slash = UInt8.ofNat x → x % 256 = 47 := by
    intro x hx
    have hnat := congrArg UInt8.toNat hx
    rw [UInt8.toNat_ofNat'] at hnat
    exact hnat.symm
  have hval : c.toNat = 47 := by
    unfold String.utf8EncodeChar at h
    unfold Char.toNat
    generalize c.val.toNat = v at h ⊢
    dsimp only at h
    -- the bytes of a longer encoding are all from 128 on
    split at h
    · have := hbyte _ (List.mem_singleton.mp h)
      omega
    · split at h
      · simp only [List.mem_cons, List.not_mem_nil, or_false] at h
        rcases h with h | h <;> have := hbyte _ h <;> omega
      · split at h
        · simp only [List.mem_cons, List.not_mem_nil, or_false] at h
          rcases h with h | h | h <;> have := hbyte _ h <;> omega
        · simp only [List.mem_cons, List.not_mem_nil, or_false] at h
          rcases h with h | h | h | h <;> have := hbyte _ h <;> omega
  apply Char.toNat_inj.mp
  rw [hval]
  rfl

/-- A tail is absolute where it begins with a slash. -/
theorem is_absolute_as_bytes {s : Text} (h : s.head? ≠ some '/') :
    is_absolute (as_bytes s) = false := by
  cases s with
  | nil => rfl
  | cons c s =>
    cases hc : String.utf8EncodeChar c with
    | nil => exact absurd hc String.utf8EncodeChar_ne_nil
    | cons b bs =>
      have hne : b ≠ slash := by
        rintro rfl
        have hslash := eq_slash_of_mem (c := c) (by simp [hc])
        exact h (by simp [hslash])
      simp [is_absolute, as_bytes, hc, hne]

theorem as_bytes_eq_nil {s : Text} (h : as_bytes s = []) : s = [] := by
  cases s with
  | nil => rfl
  | cons c s =>
    unfold as_bytes at h
    rw [List.flatMap_cons] at h
    exact absurd (List.append_eq_nil_iff.mp h).1 String.utf8EncodeChar_ne_nil

/-- The segments of a path with a tail that is not absolute: some for the root, and then those
of the tail. -/
theorem join_segments (root : OsStr) : ∃ pre, ∀ tail, is_absolute tail = false →
    (join root tail).splitOn slash = pre ++ tail.splitOn slash ∧
    is_absolute (join root tail) = is_absolute root ∧
    (join root tail = [] ↔ root = [] ∧ tail = []) := by
  by_cases hnil : root = []
  · refine ⟨[], fun tail htail => ?_⟩
    subst hnil
    simp [join, is_absolute] at htail ⊢
    exact htail
  · by_cases hlast : root.getLast? = some slash
    · obtain ⟨r, rfl⟩ := List.getLast?_eq_some_iff.mp hlast
      refine ⟨r.splitOn slash, fun tail htail => ?_⟩
      have hjoin : join (r ++ [slash]) tail = r ++ slash :: tail := by
        simp [join, htail]
      rw [hjoin, List.splitOn_append_cons_self]
      refine ⟨rfl, ?_, by simp⟩
      cases r <;> rfl
    · refine ⟨root.splitOn slash, fun tail htail => ?_⟩
      have hjoin : join root tail = root ++ slash :: tail := by
        simp [join, htail, hnil, hlast]
      rw [hjoin, List.splitOn_append_cons_self]
      refine ⟨rfl, ?_, by simp [hnil]⟩
      cases root with
      | nil => exact absurd rfl hnil
      | cons b root => rfl

section
variable {fs : LinkedTree} {root : OsStr} {tail : Text} {l : Loc}

/-- Where a walk by a path begins. -/
def start (fs : LinkedTree) (p : OsStr) : Loc := if is_absolute p then [] else fs.cwd

theorem head_up (h : tail.head? ≠ some '/') (rest : Text) (hrest : rest.head? ≠ some '/') :
    (up tail ++ rest).head? ≠ some '/' := by
  obtain ⟨n, hn⟩ := trim_end_append '/' tail
  unfold up
  split
  · exact hrest
  · rename_i hne
    cases ht : trim_end_matches '/' tail with
    | nil => exact absurd ht hne
    | cons c t =>
      rw [hn, ht] at h
      exact h

/-- What leads to a listing leads on from there, with the same segments before those of the rest
of the tail. -/
theorem locate_up (hl : fs.locate (join root (as_bytes tail)) = some l)
    (hhead : tail.head? ≠ some '/') : ∃ pre,
    walk fs.node fs.max_links (start fs root) pre = some l ∧
    ∀ rest : Text, rest.head? ≠ some '/' → fs.admits (join root (as_bytes (up tail ++ rest))) →
      fs.locate (join root (as_bytes (up tail ++ rest))) =
        walk fs.node fs.max_links (start fs root) (pre ++ (as_bytes rest).splitOn slash) := by
  obtain ⟨pre, hpre⟩ := join_segments root
  obtain ⟨n, hn⟩ := trim_end_append '/' tail
  -- the walk of the tail, cut before its last slashes
  have hwalk : join root (as_bytes tail) ≠ [] ∧
      walk fs.node fs.max_links (start fs root) (pre ++ (as_bytes tail).splitOn slash) =
        some l := by
    obtain ⟨hsegs, habs, -⟩ := hpre _ (is_absolute_as_bytes hhead)
    unfold LinkedTree.locate at hl
    split at hl
    · cases hl
    · rename_i hok
      rw [hsegs, habs] at hl
      exact ⟨fun h => hok (Or.inl h), hl⟩
  have hlocate : ∀ rest : Text, rest.head? ≠ some '/' →
      fs.admits (join root (as_bytes (up tail ++ rest))) →
      fs.locate (join root (as_bytes (up tail ++ rest))) =
        walk fs.node fs.max_links (start fs root)
          (pre ++ (as_bytes (up tail ++ rest)).splitOn slash) := by
    intro rest hrest hadmits
    obtain ⟨hsegs, habs, hempty⟩ := hpre _ (is_absolute_as_bytes (head_up hhead rest hrest))
    have hne : join root (as_bytes (up tail ++ rest)) ≠ [] := by
      intro hnil
      obtain ⟨hroot, hbytes⟩ := hempty.mp hnil
      have hup := (List.append_eq_nil_iff.mp (as_bytes_eq_nil hbytes)).1
      unfold up at hup
      split at hup
      · rename_i htrim
        rw [htrim, List.nil_append] at hn
        have hn0 : n = 0 := by
          cases n with
          | zero => rfl
          | succ n =>
            rw [hn] at hhead
            exact absurd rfl hhead
        apply hwalk.1
        rw [(hpre _ (is_absolute_as_bytes hhead)).2.2]
        exact ⟨hroot, by rw [hn, hn0]; rfl⟩
      · simp at hup
    have hok : ¬ (join root (as_bytes (up tail ++ rest)) = [] ∨
        fs.admits (join root (as_bytes (up tail ++ rest))) = false) := by
      rintro (h | h)
      · exact hne h
      · rw [hadmits] at h
        cases h
    unfold LinkedTree.locate
    rw [if_neg hok, hsegs, habs]
    rfl
  by_cases htrim : trim_end_matches '/' tail = []
  · -- the tail is empty, and its one segment is
    rw [htrim, List.nil_append] at hn
    refine ⟨pre, ?_, ?_⟩
    · have hslashes := splitOn_slashes [] n
      rw [List.nil_append, ← as_bytes_slashes, ← hn] at hslashes
      have hone : pre ++ (as_bytes tail).splitOn slash = pre ++ List.replicate (n + 1) [] := by
        rw [hslashes, List.splitOn_nil, List.replicate_succ]
        rfl
      rw [hone] at hwalk
      exact LinkedTree.walk_empties hwalk.2
    · intro rest hrest hadmits
      have hup : up tail = [] := if_pos htrim
      rw [hlocate rest hrest hadmits, hup, List.nil_append]
  · have hup : up tail = trim_end_matches '/' tail ++ ['/'] := if_neg htrim
    refine ⟨pre ++ (as_bytes (trim_end_matches '/' tail)).splitOn slash, ?_, ?_⟩
    · have hsegs : (as_bytes tail).splitOn slash =
          (as_bytes (trim_end_matches '/' tail)).splitOn slash ++ List.replicate n [] := by
        conv_lhs => rw [hn]
        rw [as_bytes_append, as_bytes_slashes, splitOn_slashes]
      rw [hsegs, ← List.append_assoc] at hwalk
      exact LinkedTree.walk_empties hwalk.2
    · intro rest hrest hadmits
      rw [hlocate rest hrest hadmits, hup, as_bytes_append, as_bytes_append, as_bytes_slash,
        List.append_assoc, List.singleton_append, List.splitOn_append_cons_self, List.append_assoc]

/-- The way up leads back to the listing. -/
theorem locate_of_up (hl : fs.locate (join root (as_bytes tail)) = some l)
    (hhead : tail.head? ≠ some '/') {searchable : Bool}
    {entries : Option (List (Option DirEntry))} (hdir : fs.node l = some (.dir searchable entries))
    (hadmits : fs.admits (join root (as_bytes (up tail)))) :
    fs.locate (join root (as_bytes (up tail))) = some l := by
  obtain ⟨pre, hpre, hrest⟩ := locate_up hl hhead
  have hup := hrest [] (by simp) (by rwa [List.append_nil])
  rw [List.append_nil] at hup
  obtain ⟨j, hj⟩ := LinkedTree.walk_append hpre
  rw [hup, hj]
  cases j <;> simp [walk, walk_with, hdir, as_bytes]

/-- A link leads to its entry. -/
theorem locate_link (hl : fs.locate (join root (as_bytes tail)) = some l)
    (hhead : tail.head? ≠ some '/') {entries : Option (List (Option DirEntry))}
    (hdir : fs.node l = some (.dir true entries)) {name : Text} {nd : Node}
    (hnode : fs.node (l ++ [as_bytes name]) = some nd) (hlink : nd.file_type ≠ .symlink)
    {is_dir : Bool} (his : is_dir = true → nd.file_type = .dir)
    (hadmits : fs.admits (join root (as_bytes (link tail name is_dir)))) :
    fs.locate (join root (as_bytes (link tail name is_dir))) = some (l ++ [as_bytes name]) := by
  obtain ⟨pre, hpre, hrest⟩ := locate_up hl hhead
  obtain ⟨hempty, -, -, hslash, -⟩ := fs.proper l (as_bytes name) (by simp [hnode])
  have hname : (name ++ if is_dir then ['/'] else []).head? ≠ some '/' := by
    cases name with
    | nil => exact absurd rfl hempty
    | cons c name =>
      rintro h
      cases h
      exact hslash (List.mem_flatMap.mpr ⟨'/', List.mem_cons_self, by decide⟩)
  have hsegs : (as_bytes (name ++ if is_dir then ['/'] else [])).splitOn slash =
      as_bytes name :: List.replicate is_dir.toNat [] := by
    have hone : (as_bytes name).splitOn slash = [as_bytes name] := List.splitOn_eq_singleton hslash
    cases is_dir with
    | false => simpa using hone
    | true =>
      have hslashes := splitOn_slashes (as_bytes name) 1
      rw [hone] at hslashes
      simpa using hslashes
  obtain ⟨j, hj⟩ := LinkedTree.walk_append hpre
  unfold link at hadmits ⊢
  rw [List.append_assoc] at hadmits ⊢
  rw [hrest _ hname hadmits, hj, hsegs]
  apply LinkedTree.walk_name hdir hnode hlink
  cases is_dir with
  | false => exact Or.inl rfl
  | true => exact Or.inr (his rfl)

end

/-! ## What a request shows -/

/-- What a request answers that leads to a place. -/
def shown (fs : LinkedTree) (x : Texts) (tail : Text) (l : Loc) : Except Rejection WarpResponse :=
  match fs.node l with
  | some (.dir _ (some entries)) =>
    match collect_items x entries with
    | .ok items => .ok (.html (listing_html x tail (sort_items x items)))
    | .error _ => .error .not_found
  | some (.file (some data)) => .ok (.with_header data (x.mime (text l)))
  | _ => .error .not_found

/-- The tail leads to a place under the root, and so does the text of that place. -/
structure Leads (fs : LinkedTree) (root : OsStr) (tail : Text) (l : Loc) : Prop where
  joined : fs.locate (join root (as_bytes tail)) = some l
  back : fs.locate (text l) = some l
  under : ∃ top, fs.locate root = some top ∧ top <+: l

section
variable {fs : LinkedTree} {x : Texts} {root : OsStr} {tail : Text} {l : Loc}

theorem starts_with_text {top : Loc} (hl : LinkedTree.There fs.node l)
    (htop : LinkedTree.There fs.node top) (h : top <+: l) :
    starts_with (text l) (text top) = true := by
  unfold starts_with
  rw [LinkedTree.components_text hl.proper, LinkedTree.components_text htop.proper,
    decide_eq_true_iff, List.cons_prefix_cons]
  exact ⟨rfl, h.map _⟩

/-- A request whose tail leads to a place shows it, and opens nothing else. -/
theorem handle_req_at (h : Leads fs root tail l) :
    run (serve fs) (handle_req x tail root) (List.replicate 5 ()) [] =
      some (shown fs x tail l, [text l]) := by
  obtain ⟨top, htop, hpre⟩ := h.under
  have hthere := LinkedTree.locate_there h.joined
  obtain ⟨nd, hnd, hlink⟩ := hthere
  have hroot : reply fs (.canonicalize root) = .ok (text top) := by
    simp [reply, LinkedTree.canonicalize, htop]
  have hmeta : reply fs (.metadata (join root (as_bytes tail))) = .ok nd.file_type := by
    simp [reply, LinkedTree.metadata, h.joined, hnd]
  have hcanon : reply fs (.canonicalize (join root (as_bytes tail))) = .ok (text l) := by
    simp [reply, LinkedTree.canonicalize, h.joined]
  have hstarts := starts_with_text (LinkedTree.locate_there h.joined)
    (LinkedTree.locate_there htop) hpre
  have htype : reply fs (.metadata (text l)) = .ok nd.file_type := by
    simp [reply, LinkedTree.metadata, h.back, hnd]
  have hread : ∀ contents, nd = .file contents →
      reply fs (.read (text l)) = contents.elim (.error .Os) .ok := by
    rintro contents rfl
    simp [reply, LinkedTree.read, h.back, hnd]
  have hdir : ∀ searchable entries, nd = .dir searchable entries →
      reply fs (.read_dir (text l)) = entries.elim (.error .Os) .ok := by
    rintro searchable entries rfl
    simp [reply, LinkedTree.read_dir, h.back, hnd]
  unfold handle_req resolve_under_root full_path is_dir render_dir_listing shown
  cases nd with
  | link target => exact absurd rfl hlink
  | file contents =>
    have hread := hread contents rfl
    cases contents with
    | none =>
      simp [Bind.bind, Pure.pure, perform, Program.bind, run, List.replicate, serve, opened, hroot,
        hmeta, hcanon, hstarts, htype, hread, hnd, Node.file_type]
    | some data =>
      simp [Bind.bind, Pure.pure, perform, Program.bind, run, List.replicate, serve, opened, hroot,
        hmeta, hcanon, hstarts, htype, hread, hnd, Node.file_type]
  | dir searchable entries =>
    have hdir := hdir searchable entries rfl
    cases entries with
    | none =>
      simp [Bind.bind, Pure.pure, perform, Program.bind, run, List.replicate, serve, opened, hroot,
        hmeta, hcanon, hstarts, htype, hdir, hnd, Node.file_type]
    | some entries =>
      cases hitems : collect_items x entries <;>
        simp [Bind.bind, Pure.pure, perform, Program.bind, run, List.replicate, serve, opened,
          hroot, hmeta, hcanon, hstarts, htype, hdir, hnd, Node.file_type, hitems]

/-- The text of an entry of a place leads to the entry, where that of the place leads to the
place. -/
theorem locate_entry (hback : fs.locate (text l) = some l)
    {entries : Option (List (Option DirEntry))} (hdir : fs.node l = some (.dir true entries))
    {name : OsStr} {nd : Node} (hnode : fs.node (l ++ [name]) = some nd)
    (hlink : nd.file_type ≠ .symlink) (hadmits : fs.admits (text (l ++ [name]))) :
    fs.locate (text (l ++ [name])) = some (l ++ [name]) := by
  have hproper := LinkedTree.There.proper ⟨nd, hnode, hlink⟩
  have hsegs : (text (l ++ [name])).splitOn slash = ([] :: l) ++ [name] :=
    LinkedTree.splitOn_text (fun m hm => (hproper m hm).2.2.2.1) (by simp)
  have hwalk : walk fs.node fs.max_links [] ([] :: l) = some l := by
    unfold LinkedTree.locate at hback
    split at hback
    · cases hback
    · rw [LinkedTree.is_absolute_text, if_pos rfl] at hback
      by_cases hnil : l = []
      · subst hnil
        have hroot : (text []).splitOn slash = [[]] ++ List.replicate 1 [] := by decide
        rw [hroot] at hback
        exact LinkedTree.walk_empties hback
      · have hbelow : ∀ m ∈ l, slash ∉ m := fun m hm =>
          (hproper m (List.mem_append_left _ hm)).2.2.2.1
        rwa [LinkedTree.splitOn_text hbelow hnil] at hback
  obtain ⟨j, hj⟩ := LinkedTree.walk_append hwalk
  have hok : ¬ (text (l ++ [name]) = [] ∨ fs.admits (text (l ++ [name])) = false) := by
    rintro (h | h)
    · cases h
    · rw [hadmits] at h
      cases h
  unfold LinkedTree.locate
  rw [if_neg hok, LinkedTree.is_absolute_text, if_pos rfl, hsegs, hj]
  exact LinkedTree.walk_name (n := 0) hdir hnode hlink (Or.inl rfl)

/-- What a page comes from: its tail leads to a directory, and the page lists its entries. -/
def Page (fs : LinkedTree) (x : Texts) (root : OsStr) (tail html : Text) (seen : List OsStr) :
    Prop :=
  ∃ l searchable entries items, Leads fs root tail l ∧
    fs.node l = some (.dir searchable (some entries)) ∧ collect_items x entries = .ok items ∧
    html = listing_html x tail (sort_items x items) ∧ seen = [text l]

theorem resolve_leads (root : OsStr) (tail : Text) (seen : List OsStr) :
    wp (serve fs) (fun _ => True) (resolve_under_root root tail)
      (fun r seen' => seen' = seen ∧ ∀ full, r = .ok full → fs.locate full = none ∨
        ∃ l top, fs.locate (join root (as_bytes tail)) = some l ∧ full = text l ∧
          fs.locate root = some top ∧ top <+: l) seen := by
  unfold resolve_under_root
  rw [wp_bind]
  apply wp_serve
  rw [show seen ++ (opened (.canonicalize root)).toList = seen from List.append_nil _]
  cases hroot : reply fs (.canonicalize root) with
  | error e => exact ⟨rfl, fun _ hr => by cases hr⟩
  | ok root_canon =>
    obtain ⟨top, htop, rfl⟩ := canonicalize_ok hroot
    rw [wp_bind]
    apply wp_mono (full_path_spec (join root (as_bytes tail)) seen)
    rintro r seen' ⟨rfl, hr⟩
    cases r with
    | error e => exact ⟨rfl, fun _ hr => by cases hr⟩
    | ok full =>
      by_cases hstarts : starts_with full (text top) = true
      · simp only [hstarts, if_true, wp_pure, true_and]
        intro _ heq
        cases heq
        rcases hr full rfl with ⟨l, hl, rfl⟩ | hnone
        · have hbelow := LinkedTree.below_of_starts_with (LinkedTree.locate_there hl)
            (LinkedTree.locate_there htop) hstarts
          exact Or.inr ⟨l, top, hl, rfl, htop, hbelow⟩
        · exact Or.inl hnone
      · simp only [hstarts]
        exact ⟨rfl, fun _ heq => by cases heq⟩

theorem render_page (path : OsStr) (tail : Text) (seen : List OsStr) :
    wp (serve fs) (fun _ => True) (render_dir_listing x path tail)
      (fun r seen' => ∀ html, r = .ok html → seen' = seen ++ [path] ∧ ∃ entries items,
        fs.read_dir path = some entries ∧ collect_items x entries = .ok items ∧
        html = listing_html x tail (sort_items x items)) seen := by
  unfold render_dir_listing
  rw [wp_bind]
  apply wp_serve
  cases hread : reply fs (.read_dir path) with
  | error e => exact fun _ hr => by cases hr
  | ok entries =>
    have hentries : fs.read_dir path = some entries := by
      cases hr : fs.read_dir path with
      | none => simp [reply, hr] at hread
      | some es =>
        simp only [reply, hr, Option.elim_some, Except.ok.injEq] at hread
        rw [hread]
    cases hitems : collect_items x entries with
    | error e =>
      simp only [hitems, wp_pure]
      exact fun _ hr => by cases hr
    | ok items =>
      simp only [hitems, wp_pure]
      intro html hr
      cases hr
      exact ⟨rfl, entries, items, hentries, hitems, rfl⟩

theorem handle_req_page (x : Texts) (tail : Text) (root : OsStr) :
    wp (serve fs) (fun _ => True) (handle_req x tail root)
      (fun r seen => ∀ html, r = .ok (.html html) → Page fs x root tail html seen) [] := by
  unfold handle_req
  rw [wp_bind]
  apply wp_mono (resolve_leads root tail [])
  rintro r seen ⟨rfl, hr⟩
  cases r with
  | error e => exact fun _ heq => by cases heq
  | ok path =>
    rw [wp_bind]
    apply wp_mono (is_dir_spec path [])
    rintro b seen rfl
    cases b with
    | true =>
      simp only [if_true, wp_bind]
      apply wp_mono (render_page path tail [])
      intro r seen hlist
      cases r with
      | error e => exact fun _ heq => by cases heq
      | ok html =>
        intro html' heq
        cases heq
        obtain ⟨rfl, entries, items, hread, hitems, rfl⟩ := hlist html rfl
        rcases hr path rfl with hnone | ⟨l, top, hl, rfl, htop, hpre⟩
        · simp [LinkedTree.read_dir, hnone] at hread
        · cases hback : fs.locate (text l) with
          | none => simp [LinkedTree.read_dir, hback] at hread
          | some l' =>
            obtain rfl := LinkedTree.locate_text (LinkedTree.locate_there hl) hback
            unfold LinkedTree.read_dir at hread
            rw [hback, Option.bind_some] at hread
            split at hread
            · rename_i searchable entries' hnode
              subst hread
              exact ⟨_, searchable, _, items, ⟨hl, hback, top, htop, hpre⟩, hnode, hitems, rfl, rfl⟩
            · cases hread
    | false =>
      simp only [Bool.false_eq_true, if_false, wp_bind]
      apply wp_serve
      cases reply fs (.read path) with
      | error e => exact fun _ heq => by cases heq
      | ok data => exact fun _ heq => by cases heq

end

/-- An entry of a page, seen from where the page leads. -/
theorem entry_leads {fs : LinkedTree} {root : OsStr} {tail : Text} {l : Loc}
    {entries : List (Option DirEntry)}
    (hleads : Leads fs root tail l) (hhead : tail.head? ≠ some '/')
    (hdir : fs.node l = some (.dir true (some entries))) {name : Text} {t : FileType}
    (he : some ⟨as_bytes name, some t⟩ ∈ entries)
    (ht : t ≠ .symlink)
    (hjoined : fs.admits (join root (as_bytes (link tail name (decide (t = .dir))))))
    (htext : fs.admits (text (l ++ [as_bytes name]))) :
    Leads fs root (link tail name (decide (t = .dir))) (l ++ [as_bytes name]) := by
  obtain ⟨nd, hnode, htype⟩ := fs.listed l true entries _ hdir he
  obtain rfl : t = nd.file_type := htype t rfl
  obtain ⟨top, htop, hpre⟩ := hleads.under
  exact
    { joined := locate_link hleads.joined hhead hdir hnode ht of_decide_eq_true hjoined
      back := locate_entry hleads.back hdir hnode ht htext
      under := ⟨top, htop, hpre.trans (List.prefix_append _ _)⟩ }

end edge_cdn_store.places
