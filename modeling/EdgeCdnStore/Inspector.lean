-- The page of the inspector that shows the cache directory. It takes the tail of
-- a request as a path below the root, and it must not show anything else,
-- whatever the tail says and wherever the links of the file system lead.
import EdgeCdnStore.Programs
import EdgeCdnStore.LinkedTree
import EdgeCdnStore.Utils

open edge_cdn_store.programs edge_cdn_store.programs.Program edge_cdn_store.linked_tree
open edge_cdn_store.utils

namespace edge_cdn_store.inspector

abbrev Text := List Char

/-- The text functions of other crates, and those that rest on the tables of Unicode. -/
structure Texts where
  /-- `urlencoding::encode` -/
  encode : Text → Text
  /-- `mime_guess::from_path`, with `first_or_octet_stream` -/
  mime : OsStr → Text
  to_lowercase : Text → Text
  to_string_lossy : OsStr → Text

/-- The bytes of a `str`. -/
def as_bytes (s : Text) : OsStr := s.flatMap String.utf8EncodeChar

/-! ## The calls -/

inductive FsCall
  | canonicalize (p : OsStr)
  | metadata (p : OsStr)
  | read (p : OsStr)
  | read_dir (p : OsStr)
deriving DecidableEq

inductive Error
  | Os
  | PermissionDenied (text : String)
deriving DecidableEq

abbrev FsReply : FsCall → Type
  | .canonicalize _ => Except Error OsStr
  | .metadata _ => Except Error FileType
  | .read _ => Except Error (List UInt8)
  | .read_dir _ => Except Error (List (Option DirEntry))

/-- What a request can do: a program over the calls to the file system. -/
abbrev Request := Program FsCall FsReply

/-- What `handle_req` answers. -/
inductive WarpResponse
  | html (body : Text)
  | with_header (data : List UInt8) (content_type : Text)
deriving DecidableEq

inductive Rejection
  | not_found
deriving DecidableEq

/-! ## The listing -/

/-- The name of an entry, and whether it is a directory. -/
abbrev Item := Text × Bool

/-- The loop over `next_entry`. -/
def collect_items (x : Texts) : List (Option DirEntry) → Except Error (List Item)
  | [] => .ok []
  | none :: _ => .error .Os
  | some e :: rest =>
    (collect_items x rest).map
      ((x.to_string_lossy e.file_name, decide (e.file_type = some .dir)) :: ·)

/-- The comparison that the items are sorted by. -/
def item_cmp (x : Texts) (a b : Item) : Ordering :=
  ((compare b.2 a.2).then (compare (x.to_lowercase a.1) (x.to_lowercase b.1))).swap

/-- `sort_by`, which keeps the order of items that compare as equal. -/
def sort_items (x : Texts) (items : List Item) : List Item :=
  items.insertionSort fun a b => item_cmp x a b ≠ .gt

/-- One line of the listing. -/
def item_line (x : Texts) (base : Text) (item : Item) : Text :=
  let enc := x.encode item.1
  let sep := if base.getLast? = some '/' then [] else ['/']
  let href := base ++ sep ++ enc ++ if item.2 then ['/'] else []
  let display := if item.2 then item.1 ++ ['/'] else item.1
  let icon := if item.2 then "📁".toList else "📄".toList
  let class_ := if item.2 then "class='dir'".toList else []
  "<li>".toList ++ icon ++ " <a ".toList ++ class_ ++ " href='".toList ++ href ++ "'>".toList ++
    html_escape display ++ "</a></li>".toList

/-- The line that leads to the parent, where the tail is not empty. -/
def parent_line (tail_norm : Text) : Text :=
  if tail_norm = [] then []
  else
    -- up to the last slash, and with it
    let head := (trim_end_matches '/' tail_norm).rdropWhile (· ≠ '/')
    let parent_href :=
      if 1 < head.length then "/cache/".toList ++ head.dropLast ++ ['/'] else "/cache/".toList
    "<li>📁 <a class='dir' href='".toList ++ parent_href ++ "'>../</a></li>".toList

def listing_html (x : Texts) (tail : Text) (items : List Item) : Text :=
  let tail_norm := tail.dropWhile (· = '/')
  let base :=
    if tail_norm = [] then "/cache".toList
    else "/cache/".toList ++ trim_end_matches '/' tail_norm
  "<!doctype html><meta charset=utf-8>".toList ++
    "<style>body\x7bfont:14px system-ui;margin:2rem\x7d a\x7btext-decoration:none\x7d ".toList ++
    ".dir\x7bfont-weight:600\x7d</style>".toList ++
    "<h1>Index of /".toList ++ html_escape tail_norm ++ "</h1><ul>".toList ++
    parent_line tail_norm ++ items.flatMap (item_line x base) ++ "</ul>".toList

def render_dir_listing (x : Texts) (path : OsStr) (tail : Text) :
    Request (Except Error Text) := do
  match ← perform (FsCall.read_dir path) with
  | .error e => pure (.error e)
  | .ok entries =>
    match collect_items x entries with
    | .error e => pure (.error e)
    | .ok items => pure (.ok (listing_html x tail (sort_items x items)))

/-! ## The request -/

/-- The path that `resolve_under_root` checks: canonical, where `joined` is there. -/
def full_path (joined : OsStr) : Request (Except Error OsStr) := do
  match ← perform (FsCall.metadata joined) with
  | .ok _ => perform (FsCall.canonicalize joined)
  | .error _ => pure (.ok joined)

def resolve_under_root (root : OsStr) (tail : Text) : Request (Except Error OsStr) := do
  let joined := join root (as_bytes tail)
  match ← perform (FsCall.canonicalize root) with
  | .error e => pure (.error e)
  | .ok root_canon =>
    match ← full_path joined with
    | .error e => pure (.error e)
    | .ok full =>
      if starts_with full root_canon then pure (.ok full)
      else pure (.error (.PermissionDenied "path escapes outside root"))

/-- `fs::metadata(path)` as an answer to whether this is a directory. -/
def is_dir (path : OsStr) : Request Bool := do
  match ← perform (FsCall.metadata path) with
  | .ok m => pure (decide (m = .dir))
  | .error _ => pure false

def handle_req (x : Texts) (tail : Text) (root : OsStr) :
    Request (Except Rejection WarpResponse) := do
  match ← resolve_under_root root tail with
  | .error _ => pure (.error .not_found)
  | .ok path =>
    if ← is_dir path then
      match ← render_dir_listing x path tail with
      | .error _ => pure (.error .not_found)
      | .ok html => pure (.ok (.html html))
    else
      match ← perform (FsCall.read path) with
      | .error _ => pure (.error .not_found)
      | .ok data => pure (.ok (.with_header data (x.mime path)))

/-! ## What a request gets to see -/

/-- The reply of a file system that stays as it is. -/
def reply (fs : LinkedTree) : (e : FsCall) → FsReply e
  | .canonicalize p => (fs.canonicalize p).elim (.error .Os) .ok
  | .metadata p => (fs.metadata p).elim (.error .Os) .ok
  | .read p => (fs.read p).elim (.error .Os) .ok
  | .read_dir p => (fs.read_dir p).elim (.error .Os) .ok

/-- The path of a call that gives contents or entries. -/
def opened : FsCall → Option OsStr
  | .canonicalize _ => none
  | .metadata _ => none
  | .read p => some p
  | .read_dir p => some p

/-- A file system that stays as it is, with the paths opened so far. -/
def serve (fs : LinkedTree) : Environment FsCall FsReply Unit (List OsStr) :=
  fun e _ seen => (reply fs e, seen ++ (opened e).toList)

variable {fs : LinkedTree}

theorem canonicalize_ok {p c : OsStr} (h : reply fs (.canonicalize p) = .ok c) :
    ∃ l, fs.locate p = some l ∧ c = text l := by
  unfold reply LinkedTree.canonicalize at h
  cases hl : fs.locate p with
  | none => simp [hl] at h
  | some l =>
    simp only [hl, Option.map_some, Option.elim_some, Except.ok.injEq] at h
    exact ⟨l, rfl, h.symm⟩

/-- Where there is no type to give, nothing is there. -/
theorem metadata_error {p : OsStr} {e : Error} (h : reply fs (.metadata p) = .error e) :
    fs.locate p = none := by
  cases hl : fs.locate p with
  | none => rfl
  | some l =>
    obtain ⟨nd, hnd, -⟩ := LinkedTree.locate_there hl
    simp [reply, LinkedTree.metadata, hl, hnd] at h

theorem read_ok {p : OsStr} {data : List UInt8} (h : reply fs (.read p) = .ok data) :
    ∃ l, fs.locate p = some l := by
  cases hl : fs.locate p with
  | none => simp [reply, LinkedTree.read, hl] at h
  | some l => exact ⟨l, rfl⟩

theorem read_dir_ok {p : OsStr} {entries : List (Option DirEntry)}
    (h : reply fs (.read_dir p) = .ok entries) : ∃ l, fs.locate p = some l := by
  cases hl : fs.locate p with
  | none => simp [reply, LinkedTree.read_dir, hl] at h
  | some l => exact ⟨l, rfl⟩

/-- Where a path leads, if it leads anywhere, is the root or below it. -/
def Under (fs : LinkedTree) (root p : OsStr) : Prop :=
  ∀ l, fs.locate p = some l → ∃ top, fs.locate root = some top ∧ top <+: l

/-- A place that shows under the root by its text is there. -/
theorem under_of_text {root joined : OsStr} {top l : Loc} (htop : fs.locate root = some top)
    (hl : fs.locate joined = some l) (h : starts_with (text l) (text top) = true) :
    Under fs root (text l) := by
  have hthere := LinkedTree.locate_there hl
  intro l' hl'
  have hsame : l' = l := LinkedTree.locate_text hthere hl'
  exact ⟨top, htop, hsame ▸
    LinkedTree.below_of_starts_with hthere (LinkedTree.locate_there htop) h⟩

theorem wp_serve {e : FsCall} {Q : FsReply e → List OsStr → Prop} {seen : List OsStr}
    (h : Q (reply fs e) (seen ++ (opened e).toList)) :
    wp (serve fs) (fun _ => True) (perform e) Q seen := fun _ _ => h

/-- A path that is not there for the first look is not there for a later one. -/
theorem full_path_spec (joined : OsStr) (seen : List OsStr) :
    wp (serve fs) (fun _ => True) (full_path joined)
      (fun r seen' => seen' = seen ∧ ∀ full, r = .ok full →
        (∃ l, fs.locate joined = some l ∧ full = text l) ∨ fs.locate full = none) seen := by
  unfold full_path
  rw [wp_bind]
  apply wp_serve
  rw [show seen ++ (opened (.metadata joined)).toList = seen from List.append_nil _]
  cases hmeta : reply fs (.metadata joined) with
  | ok m =>
    apply wp_serve
    refine ⟨List.append_nil _, ?_⟩
    intro full hfull
    exact Or.inl (canonicalize_ok hfull)
  | error e =>
    refine ⟨rfl, ?_⟩
    intro full hfull
    cases hfull
    exact Or.inr (metadata_error hmeta)

/-- A path that resolves leads to the root or below it, if it leads anywhere. -/
theorem resolve_spec (root : OsStr) (tail : Text) (seen : List OsStr) :
    wp (serve fs) (fun _ => True) (resolve_under_root root tail)
      (fun r seen' => seen' = seen ∧ ∀ full, r = .ok full → Under fs root full) seen := by
  unfold resolve_under_root
  rw [wp_bind]
  apply wp_serve
  rw [show seen ++ (opened (.canonicalize root)).toList = seen from List.append_nil _]
  cases hroot : reply fs (.canonicalize root) with
  | error e => exact ⟨rfl, fun _ hr => by cases hr⟩
  | ok root_canon =>
    obtain ⟨top, htop, rfl⟩ := canonicalize_ok hroot
    rw [wp_bind]
    apply wp_mono (full_path_spec (join root (as_bytes tail)) seen)
    rintro r seen' ⟨rfl, hr⟩
    cases r with
    | error e => exact ⟨rfl, fun _ hr => by cases hr⟩
    | ok full =>
      by_cases hstarts : starts_with full (text top) = true
      · simp only [hstarts, if_true, wp_pure, true_and]
        intro _ heq
        cases heq
        rcases hr full rfl with ⟨l, hl, rfl⟩ | hnone
        · exact under_of_text htop hl hstarts
        · intro l hl
          rw [hnone] at hl
          cases hl
      · simp only [hstarts]
        exact ⟨rfl, fun _ heq => by cases heq⟩

theorem is_dir_spec (path : OsStr) (seen : List OsStr) :
    wp (serve fs) (fun _ => True) (is_dir path) (fun _ seen' => seen' = seen) seen := by
  unfold is_dir
  rw [wp_bind]
  apply wp_serve
  cases reply fs (.metadata path) with
  | ok m => exact List.append_nil _
  | error e => exact List.append_nil _

theorem render_spec (x : Texts) (path : OsStr) (tail : Text) (seen : List OsStr) :
    wp (serve fs) (fun _ => True) (render_dir_listing x path tail)
      (fun r seen' => ∀ html, r = .ok html →
        seen' = seen ++ [path] ∧ ∃ l, fs.locate path = some l) seen := by
  unfold render_dir_listing
  rw [wp_bind]
  apply wp_serve
  cases hread : reply fs (.read_dir path) with
  | error e => exact fun _ hr => by cases hr
  | ok entries =>
    have hl := read_dir_ok hread
    cases hitems : collect_items x entries with
    | error e =>
      simp only [hitems, wp_pure]
      exact fun _ hr => by cases hr
    | ok items =>
      simp only [hitems, wp_pure]
      exact fun _ _ => ⟨rfl, hl⟩

/-- What an answer comes from: one path was opened, and it leads to the root or below. -/
def Answered (fs : LinkedTree) (root : OsStr) (seen : List OsStr) : Prop :=
  ∃ path l top, seen = [path] ∧ fs.canonicalize path = some (text l) ∧
    fs.canonicalize root = some (text top) ∧ top <+: l

theorem answered_of_under {root path : OsStr} {l : Loc} (h : Under fs root path)
    (hl : fs.locate path = some l) : Answered fs root [path] := by
  obtain ⟨top, htop, hpre⟩ := h l hl
  refine ⟨path, l, top, rfl, ?_, ?_, hpre⟩
  · simp [LinkedTree.canonicalize, hl]
  · simp [LinkedTree.canonicalize, htop]

theorem handle_req_spec (x : Texts) (tail : Text) (root : OsStr) :
    wp (serve fs) (fun _ => True) (handle_req x tail root)
      (fun r seen => ∀ answer, r = .ok answer → Answered fs root seen) [] := by
  unfold handle_req
  rw [wp_bind]
  apply wp_mono (resolve_spec root tail [])
  rintro r seen ⟨rfl, hr⟩
  cases r with
  | error e => exact fun _ heq => by cases heq
  | ok path =>
    have hunder := hr path rfl
    rw [wp_bind]
    apply wp_mono (is_dir_spec path [])
    rintro b seen rfl
    cases b with
    | true =>
      simp only [if_true, wp_bind]
      apply wp_mono (render_spec x path tail [])
      intro r seen hlist
      cases r with
      | error e => exact fun _ heq => by cases heq
      | ok html =>
        obtain ⟨rfl, l, hl⟩ := hlist html rfl
        exact fun _ _ => answered_of_under hunder hl
    | false =>
      simp only [Bool.false_eq_true, if_false, wp_bind]
      apply wp_serve
      cases hread : reply fs (.read path) with
      | error e => exact fun _ heq => by cases heq
      | ok data =>
        obtain ⟨l, hl⟩ := read_ok hread
        exact fun _ _ => answered_of_under hunder hl

/-- Whenever a request is answered, by contents or by a listing, the one path that was read
is, in its canonical form, the canonical root or below it. -/
theorem inspector_stays_under_root (fs : LinkedTree) (x : Texts) (root : OsStr) (tail : Text)
    (n : List Unit) (answer : WarpResponse) (seen : List OsStr)
    (h : run (serve fs) (handle_req x tail root) n [] = some (.ok answer, seen)) :
    ∃ path l top, seen = [path] ∧ fs.canonicalize path = some (text l) ∧
      fs.canonicalize root = some (text top) ∧ top <+: l :=
  run_sound h (fun _ _ => trivial) (handle_req_spec x tail root) answer rfl

/-- A disk where the cache is reached by a link, and has a link that leads out of it. -/
def linked_disk : List (Loc × Node) :=
  let name (s : String) : OsStr := as_bytes s.toList
  [([], .dir true none),
    ([name "cache"], .link (name "srv")),
    ([name "srv"], .dir true (some [some ⟨name "out", some .symlink⟩])),
    ([name "srv", name "out"], .link (name "/etc")),
    ([name "srv", name "body"], .file (some [1, 2])),
    ([name "etc"], .dir true none),
    ([name "etc", name "passwd"], .file (some [3]))]

def linked_tree : LinkedTree := .of_table linked_disk 40 (fun _ => true) (by decide +kernel)

/-- Texts as they are. -/
def plain : Texts where
  encode := id
  mime _ := "application/octet-stream".toList
  to_lowercase := id
  to_string_lossy name := name.map fun b => Char.ofNat b.toNat

/-- A tail that goes out by a link and comes back is answered, from below the root. -/
theorem inspector_stays_under_root_out_and_back :
    ∃ answer seen, run (serve linked_tree)
        (handle_req plain "out/../cache/body".toList (as_bytes "/cache".toList))
        (List.replicate 5 ()) [] = some (.ok answer, seen) ∧
      ∃ path l top, seen = [path] ∧ linked_tree.canonicalize path = some (text l) ∧
        linked_tree.canonicalize (as_bytes "/cache".toList) = some (text top) ∧ top <+: l := by
  have hrun : run (serve linked_tree)
      (handle_req plain "out/../cache/body".toList (as_bytes "/cache".toList))
      (List.replicate 5 ()) [] =
        some (.ok (.with_header [1, 2] "application/octet-stream".toList),
          [as_bytes "/srv/body".toList]) := by decide +kernel
  exact ⟨_, _, hrun, inspector_stays_under_root _ _ _ _ _ _ _ hrun⟩

/-- And one that ends outside is not. -/
example : run (serve linked_tree)
    (handle_req plain "out/passwd".toList (as_bytes "/cache".toList)) (List.replicate 3 ()) [] =
      some (.error .not_found, []) := by decide +kernel

end edge_cdn_store.inspector
