-- Where the links of a listing lead. A request takes its tail as it stands in the
-- address, so a link leads to its entry where the name of the entry is its own
-- encoding, and the names that the cache gives are such names.
import EdgeCdnStore.Listing
import EdgeCdnStore.Pages

open edge_cdn_store.programs edge_cdn_store.programs.Program edge_cdn_store.linked_tree
open edge_cdn_store.utils edge_cdn_store.inspector edge_cdn_store.listing
open edge_cdn_store.places edge_cdn_store.pages edge_cdn_store.markup

namespace edge_cdn_store.navigation

/-! ## The addresses of a page -/

/-- The address that a tail has. -/
def address (tail : Text) : Text := "/cache/".toList ++ tail

section
variable {x : Texts} {tail name : Text} {is_dir : Bool}

theorem trim_end_ne_nil {c : Char} {s : Text} (hs : s ≠ []) (h : s.head? ≠ some c) :
    trim_end_matches c s ≠ [] := by
  obtain ⟨n, hn⟩ := trim_end_append c s
  intro hnil
  rw [hnil, List.nil_append] at hn
  cases n with
  | zero => exact hs hn
  | succ n =>
    rw [hn] at h
    exact h rfl

theorem last_of_trim_end (c : Char) (s : Text) : (trim_end_matches c s).getLast? ≠ some c := by
  unfold trim_end_matches
  intro h
  have hne : s.rdropWhile (fun d => decide (d = c)) ≠ [] := by
    intro hnil
    rw [hnil] at h
    cases h
  have hnot := List.rdropWhile_last_not (fun d => decide (d = c)) s hne
  rw [List.getLast?_eq_some_getLast hne, Option.some.injEq] at h
  rw [h] at hnot
  simp at hnot

/-- A name that is text, and needs no encoding in an address. -/
def Plain (x : Texts) (name : Text) : Prop :=
  x.to_string_lossy (as_bytes name) = name ∧ x.encode name = name

/-- The address of an item is that of the tail that leads there. -/
theorem item_href_eq (hhead : tail.head? ≠ some '/') (hname : x.encode name = name) :
    item_href x (base_of tail) (name, is_dir) = address (link tail name is_dir) := by
  unfold item_href base_of address link up
  by_cases htail : tail = []
  · subst htail
    have hcache : "/cache".toList.getLast? ≠ some '/' := by decide
    have hslash : "/cache".toList ++ ['/'] = "/cache/".toList := rfl
    have htrim : trim_end_matches '/' [] = [] := rfl
    rw [if_pos rfl, if_neg hcache, hslash, hname, if_pos htrim, List.nil_append,
      List.append_assoc]
  · have htrim := trim_end_ne_nil htail hhead
    have hlast : ("/cache/".toList ++ trim_end_matches '/' tail).getLast? ≠ some '/' := by
      rw [List.getLast?_append_of_ne_nil _ htrim]
      exact last_of_trim_end '/' tail
    rw [if_neg htail, if_neg hlast, hname, if_neg htrim]
    simp only [List.append_assoc]

theorem rdropWhile_append {α : Type} {p : α → Bool} (s : List α) {t : List α}
    (h : ∀ c ∈ t, p c = true) : (s ++ t).rdropWhile p = s.rdropWhile p := by
  induction t using List.reverseRecOn with
  | nil => rw [List.append_nil]
  | append_singleton t c ih =>
    rw [← List.append_assoc, List.rdropWhile_concat_pos _ _ _ (h c (by simp))]
    exact ih fun d hd => h d (by simp [hd])

theorem head_link (hhead : tail.head? ≠ some '/') (hname : name ≠ []) (hslash : '/' ∉ name) :
    (link tail name true).head? ≠ some '/' := by
  have hrest : (name ++ ['/']).head? ≠ some '/' := by
    cases name with
    | nil => exact absurd rfl hname
    | cons c name =>
      intro h
      cases h
      exact hslash List.mem_cons_self
  have hup := head_up hhead _ hrest
  rwa [← List.append_assoc] at hup

/-- The way up from the page of an entry has the address of the listing. -/
theorem parent_href_eq (hname : name ≠ []) (hslash : '/' ∉ name) :
    parent_href (link tail name true) = address (up tail) := by
  have htrim : trim_end_matches '/' (link tail name true) = up tail ++ name := by
    unfold link trim_end_matches
    rw [if_pos rfl, List.rdropWhile_concat_pos _ _ _ (by simp), List.rdropWhile_eq_self_iff]
    intro hne' hlast
    rw [List.getLast_append_of_ne_nil _ hname] at hlast
    have hmem := List.getLast_mem hname
    rw [of_decide_eq_true hlast] at hmem
    exact hslash hmem
  have hcut : (up tail ++ name).rdropWhile (· ≠ '/') = up tail := by
    have hall : ∀ c ∈ name, decide (c ≠ '/') = true := by
      intro c hc
      apply decide_eq_true
      rintro rfl
      exact hslash hc
    rw [rdropWhile_append _ hall]
    unfold up
    split
    · rfl
    · rw [List.rdropWhile_concat_neg _ _ _ (by simp)]
  unfold parent_href
  simp only [htrim, hcut]
  unfold address up
  by_cases htail : trim_end_matches '/' tail = []
  · rw [if_pos htail, if_neg (by decide)]
    rfl
  · have hlen : 1 < (trim_end_matches '/' tail ++ ['/']).length := by
      have := List.length_pos_iff.mpr htail
      rw [List.length_append, List.length_singleton]
      omega
    rw [if_neg htail, if_pos hlen, List.dropLast_concat, List.append_assoc]

theorem mem_collect_items {entries : List (Option DirEntry)} {items : List Item}
    (h : collect_items x entries = .ok items) {e : DirEntry} (he : some e ∈ entries) :
    item x e ∈ items := by
  induction entries generalizing items with
  | nil => cases he
  | cons o entries ih =>
    cases o with
    | none => cases h
    | some e' =>
      unfold collect_items at h
      cases hrest : collect_items x entries with
      | error err =>
        rw [hrest] at h
        cases h
      | ok rest =>
        rw [hrest] at h
        cases h
        rcases List.mem_cons.mp he with heq | he
        · cases heq
          exact List.mem_cons_self
        · exact List.mem_cons_of_mem _ (ih hrest he)

end

/-! ## There and back -/

section
variable {x : Texts} {tail name : Text} {is_dir : Bool}

theorem dropWhile_of_head {s : Text} (h : s.head? ≠ some '/') : s.dropWhile (· = '/') = s := by
  cases s with
  | nil => rfl
  | cons c s =>
    rw [List.dropWhile_cons_of_neg]
    intro hc
    exact h (by simpa using hc)

/-- The links of the page of a listing. -/
theorem links_listing (hx : Encodes x) (hclean : Clean tail) (hhead : tail.head? ≠ some '/')
    (items : List Item) : ∃ ts, tokens (listing_html x tail items) = some ts ∧
      links ts = links_of x tail items := by
  refine ⟨_, tokens_listing hx hclean, ?_⟩
  rw [dropWhile_of_head hhead]
  exact links_page hx hclean

theorem clean_up (h : Clean tail) : Clean (up tail) := by
  unfold up
  split
  · decide
  · exact clean_append.mpr ⟨clean_trim_end h, by decide⟩

theorem clean_link (h : Clean tail) (hname : Clean name) : Clean (link tail name is_dir) := by
  unfold link
  refine clean_append.mpr ⟨clean_append.mpr ⟨clean_up h, hname⟩, ?_⟩
  cases is_dir <;> decide

end

section
variable (fs : LinkedTree) (x : Texts)

/-- Whatever page a request gets: for every entry whose name is text and needs no encoding a
reader of the page finds a link with that name, and the request for its address shows that entry
and opens nothing else. -/
theorem a_link_leads_to_its_entry (hx : Encodes x) (root : OsStr) (tail : Text)
    (hclean : Clean tail) (hhead : tail.head? ≠ some '/')
    (n : List Unit) (html : Text) (seen : List OsStr)
    (hpage : run (serve fs) (handle_req x tail root) n [] = some (.ok (.html html), seen)) :
    ∃ l searchable entries ts, seen = [text l] ∧
      fs.node l = some (.dir searchable (some entries)) ∧ tokens html = some ts ∧
      ∀ name t, some ⟨as_bytes name, some t⟩ ∈ entries → Plain x name → t ≠ .symlink →
        let is_dir := decide (t = .dir)
        let tail' := link tail name is_dir
        (address tail', shown_name (name, is_dir)) ∈ links ts ∧
        (searchable = true → fs.admits (join root (as_bytes tail')) →
          fs.admits (text (l ++ [as_bytes name])) →
          run (serve fs) (handle_req x tail' root) (List.replicate 5 ()) [] =
            some (shown fs x tail' (l ++ [as_bytes name]), [text (l ++ [as_bytes name])])) := by
  obtain ⟨l, searchable, entries, items, hleads, hdir, hitems, rfl, hseen⟩ :=
    run_sound hpage (fun _ _ => trivial) (handle_req_page x tail root) html rfl
  obtain ⟨ts, hts, hlinks⟩ := links_listing hx hclean hhead (sort_items x items)
  refine ⟨l, searchable, entries, ts, hseen, hdir, hts, ?_⟩
  rintro name t he ⟨hlossy, hencode⟩ ht is_dir tail'
  constructor
  · have hitem := mem_collect_items hitems he
    unfold item at hitem
    simp only [hlossy, Option.some.injEq] at hitem
    rw [hlinks, ← item_href_eq hhead hencode]
    apply List.mem_append_right
    exact List.mem_map_of_mem ((sort_items_perm x items).mem_iff.mpr hitem)
  · rintro rfl hjoined htext
    exact handle_req_at (entry_leads hleads hhead hdir he ht hjoined htext)

/-- And back: the first link on the page of a directory that was reached by its own link is the
way up, and the request for its address shows the items of the first page again. -/
theorem the_way_up_leads_back (hx : Encodes x) (root : OsStr) (tail : Text)
    (hclean : Clean tail) (hhead : tail.head? ≠ some '/')
    (n : List Unit) (html : Text) (seen : List OsStr)
    (hpage : run (serve fs) (handle_req x tail root) n [] = some (.ok (.html html), seen)) :
    ∃ l searchable entries items, seen = [text l] ∧
      fs.node l = some (.dir searchable (some entries)) ∧ html = listing_html x tail items ∧
      ∀ name t n' html' seen', some ⟨as_bytes name, t⟩ ∈ entries → Clean name →
        run (serve fs) (handle_req x (link tail name true) root) n' [] =
          some (.ok (.html html'), seen') →
        (∃ ts, tokens html' = some ts ∧
          (links ts).head? = some (address (up tail), "../".toList)) ∧
        (fs.admits (join root (as_bytes (up tail))) →
          run (serve fs) (handle_req x (up tail) root) (List.replicate 5 ()) [] =
            some (.ok (.html (listing_html x (up tail) items)), [text l])) := by
  obtain ⟨l, searchable, entries, items, hleads, hdir, hitems, rfl, hseen⟩ :=
    run_sound hpage (fun _ _ => trivial) (handle_req_page x tail root) html rfl
  refine ⟨l, searchable, entries, sort_items x items, hseen, hdir, rfl, ?_⟩
  intro name t n' html' seen' he hname hpage'
  constructor
  · obtain ⟨_, _, _, items', -, -, -, rfl, -⟩ :=
      run_sound hpage' (fun _ _ => trivial) (handle_req_page x _ root) html' rfl
    obtain ⟨nd, hnode, -⟩ := fs.listed l searchable entries _ hdir he
    obtain ⟨hempty, -, -, hslash, -⟩ := fs.proper l (as_bytes name) (by simp [hnode])
    have hnil : name ≠ [] := by
      rintro rfl
      exact hempty rfl
    have hno : '/' ∉ name := fun hmem =>
      hslash (List.mem_flatMap.mpr ⟨'/', hmem, by decide⟩)
    obtain ⟨ts, hts, hlinks⟩ := links_listing hx (clean_link hclean hname)
      (head_link hhead hnil hno) (sort_items x items')
    refine ⟨ts, hts, ?_⟩
    have hne : link tail name true ≠ [] := by simp [link]
    rw [hlinks]
    unfold links_of
    rw [if_neg hne, parent_href_eq hnil hno]
    rfl
  · intro hadmits
    have hup : Leads fs root (up tail) l :=
      ⟨locate_of_up hleads.joined hhead hdir hadmits, hleads.back, hleads.under⟩
    have hshown : shown fs x (up tail) l =
        .ok (.html (listing_html x (up tail) (sort_items x items))) := by
      simp only [shown, hdir, hitems]
    rw [handle_req_at hup, hshown]

end

/-! ## A small disk -/

/-- A cache with one directory, and a file in it. -/
def small_disk : List (Loc × Node) :=
  let name (s : String) : OsStr := as_bytes s.toList
  [([], .dir true none),
    ([name "c"], .dir true (some [some ⟨name "00", some .dir⟩])),
    ([name "c", name "00"], .dir true (some [some ⟨name "body", some .file⟩])),
    ([name "c", name "00", name "body"], .file (some [1, 2]))]

def small_tree : LinkedTree := .of_table small_disk 40 (fun _ => true) (by decide +kernel)

/-- What a request for a tail shows on the small disk. -/
abbrev small_request (tail : Text) : Option (Except Rejection WarpResponse × List OsStr) :=
  run (serve small_tree) (handle_req percent_texts tail (as_bytes "/c".toList))
    (List.replicate 5 ()) []

/-- The page of the directory, which has one file. -/
def small_page (tail : Text) : Text := listing_html percent_texts tail [("body".toList, false)]

/-- The page of the cache, which has one directory. -/
def small_cache : Text := listing_html percent_texts [] [("00".toList, true)]

/-- The directories of the small disk that can be read. -/
theorem small_dir {l : Loc} {searchable : Bool} {entries : List (Option DirEntry)}
    (h : small_tree.node l = some (.dir searchable (some entries))) :
    l = [as_bytes "c".toList] ∧ searchable = true ∧
      entries = [some ⟨as_bytes "00".toList, some .dir⟩] ∨
    l = [as_bytes "c".toList, as_bytes "00".toList] ∧ searchable = true ∧
      entries = [some ⟨as_bytes "body".toList, some .file⟩] := by
  have hmem := mem_of_lookup h
  simp only [small_disk, List.mem_cons, List.not_mem_nil, or_false, Prod.mk.injEq] at hmem
  rcases hmem with ⟨rfl, h⟩ | ⟨rfl, h⟩ | ⟨rfl, h⟩ | ⟨rfl, h⟩ <;> cases h
  · exact Or.inl ⟨rfl, rfl, rfl⟩
  · exact Or.inr ⟨rfl, rfl, rfl⟩

theorem the_link_to_the_body_shows_the_body :
    small_request "00".toList = some (.ok (.html (small_page "00".toList)),
      [as_bytes "/c/00".toList]) ∧
    (∃ ts, tokens (small_page "00".toList) = some ts ∧
      ("/cache/00/body".toList, "body".toList) ∈ links ts) ∧
    small_request "00/body".toList = some (.ok (.with_header [1, 2]
      "application/octet-stream".toList), [as_bytes "/c/00/body".toList]) := by
  have hpage : small_request "00".toList = some (.ok (.html (small_page "00".toList)),
      [as_bytes "/c/00".toList]) := by decide +kernel
  obtain ⟨l, searchable, entries, ts, hseen, hnode, hts, hlink⟩ := a_link_leads_to_its_entry
    small_tree percent_texts percent_texts_encodes (as_bytes "/c".toList) "00".toList (by decide)
    (by decide) _ _ _ hpage
  rcases small_dir hnode with ⟨rfl, -⟩ | ⟨rfl, rfl, rfl⟩
  · exact absurd hseen (by decide +kernel)
  · have hplain : Plain percent_texts "body".toList := by
      unfold Plain
      decide +kernel
    obtain ⟨hthere, hshows⟩ := hlink "body".toList .file (by simp) hplain (by decide)
    exact ⟨hpage, ⟨ts, hts, hthere⟩, hshows rfl rfl rfl⟩

theorem the_way_up_from_the_directory :
    small_request "00/".toList = some (.ok (.html (small_page "00/".toList)),
      [as_bytes "/c/00".toList]) ∧
    (∃ ts, tokens (small_page "00/".toList) = some ts ∧
      (links ts).head? = some ("/cache/".toList, "../".toList)) ∧
    small_request [] = some (.ok (.html small_cache), [as_bytes "/c".toList]) := by
  have hpage : small_request [] = some (.ok (.html small_cache), [as_bytes "/c".toList]) := by
    decide +kernel
  have hpage' : small_request "00/".toList = some (.ok (.html (small_page "00/".toList)),
      [as_bytes "/c/00".toList]) := by decide +kernel
  obtain ⟨l, searchable, entries, items, hseen, hnode, hhtml, hup⟩ := the_way_up_leads_back
    small_tree percent_texts percent_texts_encodes (as_bytes "/c".toList) [] (by decide)
    (by decide) _ _ _ hpage
  rcases small_dir hnode with ⟨rfl, rfl, rfl⟩ | ⟨rfl, -⟩
  · obtain ⟨hlink, hback⟩ := hup "00".toList (some .dir) _ _ _ (by simp) (by decide) hpage'
    refine ⟨hpage', hlink, ?_⟩
    rw [hhtml]
    exact hback rfl
  · exact absurd hseen (by decide +kernel)

end edge_cdn_store.navigation
