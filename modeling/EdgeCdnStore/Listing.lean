-- The order of the entries in a directory listing. The comment in the code promises
-- directories first and then names in ascending order. The comparator puts the two
-- directories the other way round and then reverses the whole comparison.
import EdgeCdnStore.Comparators
import EdgeCdnStore.Inspector

open edge_cdn_store.programs edge_cdn_store.programs.Program edge_cdn_store.linked_tree
open edge_cdn_store.utils edge_cdn_store.inspector edge_cdn_store.comparators

namespace edge_cdn_store.listing

/-! ## The order that the comment promises -/

/-- Directories first, then files, and each by the lower-cased name. -/
def listing_cmp (x : Texts) (a b : Item) : Ordering :=
  (compare b.2 a.2).then (compare (x.to_lowercase a.1) (x.to_lowercase b.1))

instance (x : Texts) : Std.TransCmp (listing_cmp x) :=
  inferInstanceAs (Std.TransCmp (compareLex (fun a b : Item => compareOn Prod.snd b a)
    (compareOn fun a : Item => x.to_lowercase a.1)))

/-- The emitted items are the items of the directory, directories before files, and each of the
two kinds in the ascending order of its lower-cased names. -/
structure InOrder (x : Texts) (items emitted : List Item) : Prop where
  perm : emitted.Perm items
  directories_first : emitted.Pairwise fun a b => b.2 = true → a.2 = true
  ascending : emitted.Pairwise fun a b => a.2 = b.2 → x.to_lowercase a.1 ≤ x.to_lowercase b.1

theorem compare_text (s t : Text) : compare s t ≠ .gt ↔ s ≤ t := by
  rw [compare_ne_gt_iff]
  exact not_lt

theorem listing_cmp_ne_gt (x : Texts) (a b : Item) :
    listing_cmp x a b ≠ .gt ↔
      (b.2 = true → a.2 = true) ∧ (a.2 = b.2 → x.to_lowercase a.1 ≤ x.to_lowercase b.1) := by
  obtain ⟨name, is_dir⟩ := a
  obtain ⟨name', is_dir'⟩ := b
  unfold listing_cmp
  cases is_dir <;> cases is_dir'
  · simpa using compare_text (x.to_lowercase name) (x.to_lowercase name')
  · simp [show compare true false = .gt from rfl]
  · simp [show compare false true = .lt from rfl]
  · simpa using compare_text (x.to_lowercase name) (x.to_lowercase name')

theorem in_order_iff {x : Texts} {items emitted : List Item} :
    InOrder x items emitted ↔ emitted.Perm items ∧ Sorted (listing_cmp x) emitted := by
  have hboth : Sorted (listing_cmp x) emitted ↔
      emitted.Pairwise (fun a b => b.2 = true → a.2 = true) ∧
      emitted.Pairwise (fun a b => a.2 = b.2 → x.to_lowercase a.1 ≤ x.to_lowercase b.1) := by
    unfold Sorted
    rw [← List.pairwise_and_iff]
    simp only [listing_cmp_ne_gt]
  rw [hboth]
  constructor
  · rintro ⟨hperm, hfirst, hascending⟩
    exact ⟨hperm, hfirst, hascending⟩
  · rintro ⟨hperm, hfirst, hascending⟩
    exact ⟨hperm, hfirst, hascending⟩

/-! ## The order of the code -/

/-- The comparator of the code is the promised one with its sides exchanged. -/
theorem item_cmp_eq (x : Texts) : item_cmp x = fun a b => listing_cmp x b a := by
  funext a b
  have hswap : listing_cmp x b a = (listing_cmp x a b).swap := Std.OrientedCmp.eq_swap
  rw [hswap]
  rfl

theorem sort_items_perm (x : Texts) (items : List Item) : (sort_items x items).Perm items :=
  List.perm_insertionSort _ items

theorem sort_items_sorted (x : Texts) (items : List Item) :
    Sorted (fun a b => listing_cmp x b a) (sort_items x items) := by
  have htrans : Std.TransCmp (item_cmp x) := by
    rw [item_cmp_eq]
    infer_instance
  rw [← item_cmp_eq]
  exact sorted_insertionSort (item_cmp x) items

/-- The listing is in the promised order when it is read from its end. -/
theorem the_listing_is_in_order_backwards (x : Texts) (items : List Item) :
    InOrder x items (sort_items x items).reverse := by
  rw [in_order_iff]
  constructor
  · exact (List.reverse_perm _).trans (sort_items_perm x items)
  · rw [sorted_reverse]
    exact sort_items_sorted x items

/-- Both are directories or none is, and their lower-cased names are equal. -/
def Alike (x : Texts) (a b : Item) : Prop := a.2 = b.2 ∧ x.to_lowercase a.1 = x.to_lowercase b.1

theorem alike_iff {x : Texts} {a b : Item} : Alike x a b ↔ listing_cmp x a b = .eq := by
  unfold Alike listing_cmp
  rw [Ordering.then_eq_eq, Std.LawfulEqCmp.compare_eq_iff_eq, Std.LawfulEqCmp.compare_eq_iff_eq,
    eq_comm (a := a.2)]

theorem sort_items_in_order_iff (x : Texts) (items : List Item) :
    InOrder x items (sort_items x items) ↔ ∀ a ∈ items, ∀ b ∈ items, Alike x a b := by
  have hperm := sort_items_perm x items
  have hback := sort_items_sorted x items
  rw [in_order_iff]
  constructor
  · rintro ⟨_, hsorted⟩ a ha b hb
    rw [alike_iff]
    exact sorted_both_ways.mp ⟨hsorted, hback⟩ a (hperm.mem_iff.mpr ha) b (hperm.mem_iff.mpr hb)
  · intro halike
    refine ⟨hperm, ?_⟩
    have hequal : ∀ a ∈ sort_items x items, ∀ b ∈ sort_items x items, listing_cmp x a b = .eq := by
      intro a ha b hb
      exact alike_iff.mp (halike a (hperm.mem_iff.mp ha) b (hperm.mem_iff.mp hb))
    exact (sorted_both_ways.mpr hequal).1

/-! ## The page -/

/-- The item of an entry. -/
def item (x : Texts) (e : DirEntry) : Item :=
  (x.to_string_lossy e.file_name, decide (e.file_type = some .dir))

theorem collect_items_some (x : Texts) (entries : List DirEntry) :
    collect_items x (entries.map some) = .ok (entries.map (item x)) := by
  induction entries with
  | nil => rfl
  | cons e entries ih =>
    rw [List.map_cons, List.map_cons, collect_items, ih]
    rfl

/-- The page of a directory that can be read lists its items as they are sorted. -/
theorem render_run {C S : Type} (env : Environment FsCall FsReply C S) (c : C) (s : S)
    (x : Texts) (path : OsStr) (tail : Text) {entries : List DirEntry}
    (hread : (env (.read_dir path) c s).1 = .ok (entries.map some)) :
    run env (render_dir_listing x path tail) [c] s =
      some (.ok (listing_html x tail (sort_items x (entries.map (item x)))),
        (env (.read_dir path) c s).2) := by
  unfold render_dir_listing
  simp only [Bind.bind, perform, Program.bind, run, hread, collect_items_some]
  rfl

/-- Whatever the entries of a directory are, its page lists them in the promised order exactly
when all of them are directories, or none is, and all have one lower-cased name. -/
theorem a_listing_is_in_order_exactly_when_its_items_are_alike {C S : Type}
    (env : Environment FsCall FsReply C S) (c : C) (s : S) (x : Texts) (path : OsStr)
    (tail : Text) (entries : List DirEntry)
    (hread : (env (.read_dir path) c s).1 = .ok (entries.map some)) :
    run env (render_dir_listing x path tail) [c] s =
      some (.ok (listing_html x tail (sort_items x (entries.map (item x)))),
        (env (.read_dir path) c s).2) ∧
    (InOrder x (entries.map (item x)) (sort_items x (entries.map (item x))) ↔
      ∀ a ∈ entries.map (item x), ∀ b ∈ entries.map (item x), Alike x a b) :=
  ⟨render_run env c s x path tail hread, sort_items_in_order_iff x _⟩

/-- Texts as they are, and lower-cased in ASCII. -/
def ascii : Texts := { plain with to_lowercase := to_ascii_lowercase }

/-- A directory with these entries, as a file system that answers every call with it. -/
def one_directory (entries : List DirEntry) : Environment FsCall FsReply Unit Unit
  | .canonicalize _, _, _ => (.error .Os, ())
  | .metadata _, _, _ => (.ok .dir, ())
  | .read _, _, _ => (.error .Os, ())
  | .read_dir _, _, _ => (.ok (entries.map some), ())

def entry (name : String) (file_type : FileType) : DirEntry :=
  ⟨as_bytes name.toList, some file_type⟩

theorem names_that_differ_in_case_are_in_order :
    let entries := [entry "README" .file, entry "readme" .file]
    InOrder ascii (entries.map (item ascii)) (sort_items ascii (entries.map (item ascii))) := by
  intro entries
  apply (a_listing_is_in_order_exactly_when_its_items_are_alike (one_directory entries) () ()
    ascii [] [] entries rfl).2.mpr
  unfold Alike
  decide +kernel

/-- Files come first, and the names in descending order. -/
theorem a_file_is_listed_before_a_directory :
    let entries := [entry "sub" .dir, entry "a.txt" .file, entry "B.txt" .file]
    let emitted := [("B.txt".toList, false), ("a.txt".toList, false), ("sub".toList, true)]
    run (one_directory entries) (render_dir_listing ascii [] []) [()] () =
      some (.ok (listing_html ascii [] emitted), ()) ∧
    sort_items ascii (entries.map (item ascii)) = emitted ∧
    ¬ InOrder ascii (entries.map (item ascii)) emitted := by
  intro entries emitted
  have hsort : sort_items ascii (entries.map (item ascii)) = emitted := by decide +kernel
  refine ⟨?_, hsort, ?_⟩
  · rw [render_run (one_directory entries) () () ascii [] [] rfl, hsort]
  · intro h
    have hfirst := h.directories_first
    revert hfirst
    decide +kernel

end edge_cdn_store.listing
