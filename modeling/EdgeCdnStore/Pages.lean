-- The page of a directory, as a browser takes it. Whatever the names of the entries, the
-- page falls apart into the tags that the inspector meant, and its links are one for each
-- entry, in order, with the address and the name of the entry.
import EdgeCdnStore.Markup
import EdgeCdnStore.Places

open edge_cdn_store.programs edge_cdn_store.programs.Program
open edge_cdn_store.utils edge_cdn_store.linked_tree edge_cdn_store.inspector
open edge_cdn_store.places edge_cdn_store.markup

namespace edge_cdn_store.pages

/-! ## The page in pieces -/

/-- The inspector escapes what the reader takes back. -/
theorem html_escape_eq (s : Text) : html_escape s = escape s := by
  unfold html_escape replace escape
  rw [List.flatMap_assoc, List.flatMap_assoc]
  congr 1
  funext c
  unfold escape_char
  by_cases hamp : c = '&'
  · rw [hamp]
    decide
  · rw [if_neg hamp, if_neg hamp, List.flatMap_singleton]
    by_cases hlt : c = '<'
    · rw [hlt]
      decide
    · rw [if_neg hlt, if_neg hlt, List.flatMap_singleton]

/-- A tag with no value. -/
def bare (s : Text) : Tag := ⟨[], s⟩

/-- The address that the way up has, where the tail is not empty. -/
def parent_href (tail_norm : Text) : Text :=
  let head := (trim_end_matches '/' tail_norm).rdropWhile (· ≠ '/')
  if 1 < head.length then "/cache/".toList ++ head.dropLast ++ ['/'] else "/cache/".toList

def parent_pieces (tail_norm : Text) : List Piece :=
  if tail_norm = [] then []
  else
    [(bare "li".toList, "📁 ".toList),
      (⟨[("a class=".toList, "dir".toList), (" href=".toList, parent_href tail_norm)], []⟩,
        "../".toList),
      (bare "/a".toList, []), (bare "/li".toList, [])]

/-- The address of an item. -/
def item_href (x : Texts) (base : Text) (item : Item) : Text :=
  base ++ (if base.getLast? = some '/' then [] else ['/']) ++ x.encode item.1 ++
    if item.2 then ['/'] else []

/-- The name of an item as it is shown. -/
def shown_name (item : Item) : Text := if item.2 then item.1 ++ ['/'] else item.1

def item_pieces (x : Texts) (base : Text) (item : Item) : List Piece :=
  let values :=
    if item.2 then
      [("a class=".toList, "dir".toList), (" href=".toList, item_href x base item)]
    else [("a  href=".toList, item_href x base item)]
  let icon := if item.2 then "📁 ".toList else "📄 ".toList
  [(bare "li".toList, icon), (⟨values, []⟩, html_escape (shown_name item)),
    (bare "/a".toList, []), (bare "/li".toList, [])]

/-- The part of the path that all addresses of a page have in common. -/
def base_of (tail_norm : Text) : Text :=
  if tail_norm = [] then "/cache".toList
  else "/cache/".toList ++ trim_end_matches '/' tail_norm

/-- The tags before the heading, which are those of every page. -/
def head_pieces : List Piece :=
  [(bare "!doctype html".toList, []), (bare "meta charset=utf-8".toList, []),
    (bare "style".toList,
      "body\x7bfont:14px system-ui;margin:2rem\x7d a\x7btext-decoration:none\x7d ".toList ++
        ".dir\x7bfont-weight:600\x7d".toList),
    (bare "/style".toList, [])]

/-- The heading, and the tag that begins the list. -/
def heading_pieces (tail_norm : Text) : List Piece :=
  [(bare "h1".toList, "Index of /".toList ++ html_escape tail_norm), (bare "/h1".toList, []),
    (bare "ul".toList, [])]

def page_pieces (x : Texts) (tail_norm : Text) (items : List Item) : List Piece :=
  head_pieces ++ heading_pieces tail_norm ++ parent_pieces tail_norm ++
    items.flatMap (item_pieces x (base_of tail_norm)) ++ [(bare "/ul".toList, [])]

theorem head_eq : "<!doctype html><meta charset=utf-8>".toList ++
    "<style>body\x7bfont:14px system-ui;margin:2rem\x7d a\x7btext-decoration:none\x7d ".toList ++
    ".dir\x7bfont-weight:600\x7d</style>".toList = head_pieces.flatMap Piece.render := by
  decide +kernel

theorem heading_eq (tail_norm : Text) :
    "<h1>Index of /".toList ++ html_escape tail_norm ++ "</h1><ul>".toList =
      (heading_pieces tail_norm).flatMap Piece.render := by
  simp [heading_pieces, Piece.render, Tag.inside, bare]

theorem item_line_eq (x : Texts) (base : Text) (item : Item) :
    item_line x base item = (item_pieces x base item).flatMap Piece.render := by
  obtain ⟨name, is_dir⟩ := item
  unfold item_line item_pieces item_href shown_name
  cases is_dir with
  | true => simp [Piece.render, Tag.inside, bare]
  | false => simp [Piece.render, Tag.inside, bare]

theorem parent_line_eq (tail_norm : Text) :
    parent_line tail_norm = (parent_pieces tail_norm).flatMap Piece.render := by
  unfold parent_line parent_pieces
  split
  · rfl
  · change _ ++ parent_href tail_norm ++ _ = _
    generalize parent_href tail_norm = address
    simp [Piece.render, Tag.inside, bare]

/-- The page is put together from its pieces. -/
theorem listing_html_eq (x : Texts) (tail : Text) (items : List Item) :
    listing_html x tail items =
      render [] (page_pieces x (tail.dropWhile (· = '/')) items) := by
  have hlines : ∀ base, items.flatMap (item_line x base) =
      (items.flatMap (item_pieces x base)).flatMap Piece.render := by
    intro base
    rw [List.flatMap_assoc]
    congr 1
    funext item
    exact item_line_eq x base item
  have hlast : "</ul>".toList = [(bare "/ul".toList, [])].flatMap Piece.render := by decide
  unfold listing_html render page_pieces base_of
  simp only [List.flatMap_append, ← head_eq, ← heading_eq, ← parent_line_eq, ← hlines, ← hlast,
    List.append_assoc, List.nil_append]

/-! ## What a reader makes of it -/

/-- The value of the attribute `href`. -/
def is_href (v : Text × Text) : Bool := decide (" href=".toList <:+ v.1)

/-- The address of a link. -/
def href_of (t : Tag) : Option Text := (t.values.find? is_href).map fun v => unescape v.2

/-- The links of a page, each with its address and the text behind it. -/
def links : List Token → List (Text × Text)
  | .tag t :: .text s :: rest => ((href_of t).map fun h => (h, unescape s)).toList ++ links rest
  | .tag _ :: rest => links rest
  | .text _ :: rest => links rest
  | [] => []

/-- The text behind the first tag of a name. -/
def text_behind (name : Text) : List Token → Option Text
  | .tag t :: .text s :: rest => if t = bare name then some (unescape s) else text_behind name rest
  | .tag _ :: rest => text_behind name rest
  | .text _ :: rest => text_behind name rest
  | [] => none

@[simp] theorem href_of_bare (name : Text) : href_of (bare name) = none := rfl

theorem href_of_dir (v : Text) :
    href_of ⟨[("a class=".toList, "dir".toList), (" href=".toList, v)], []⟩ =
      some (unescape v) := by
  have hclass : is_href ("a class=".toList, "dir".toList) = false := by decide
  have hhref : is_href (" href=".toList, v) = true := decide_eq_true List.suffix_rfl
  simp only [href_of, List.find?_cons, hclass, hhref, Option.map_some]

theorem href_of_file (v : Text) : href_of ⟨[("a  href=".toList, v)], []⟩ = some (unescape v) := by
  have hsuffix : " href=".toList <:+ "a  href=".toList := by decide
  have hhref : is_href ("a  href=".toList, v) = true := decide_eq_true hsuffix
  simp only [href_of, List.find?_cons, hhref, Option.map_some]

theorem links_tokens_of (first : Text) (pieces : List Piece) :
    links (tokens_of first pieces) =
      pieces.flatMap fun x => ((href_of x.1).map fun h => (h, unescape x.2)).toList := by
  unfold tokens_of
  rw [links]
  induction pieces with
  | nil => rfl
  | cons x pieces ih => rw [List.flatMap_cons, List.flatMap_cons, ← ih]; rfl

/-! ## No name gets out of its place -/

/-- `urlencoding::encode` leaves letters, digits and four other characters as they are, and writes
the rest with percent signs. -/
def Encodes (x : Texts) : Prop :=
  ∀ s, ∀ c ∈ x.encode s, c.isAlphanum = true ∨ c ∈ "-._~%".toList

/-- No quote that ends a value, and nothing that reads as an entity. -/
def Clean (s : Text) : Prop := '\'' ∉ s ∧ '&' ∉ s

instance (s : Text) : Decidable (Clean s) := inferInstanceAs (Decidable (_ ∧ _))

theorem clean_append {s t : Text} : Clean (s ++ t) ↔ Clean s ∧ Clean t := by
  unfold Clean
  simp only [List.mem_append, not_or]
  tauto

theorem Clean.subset {s t : Text} (h : Clean t) (hs : s ⊆ t) : Clean s :=
  ⟨fun hc => h.1 (hs hc), fun hc => h.2 (hs hc)⟩

theorem clean_encode {x : Texts} (hx : Encodes x) (s : Text) : Clean (x.encode s) := by
  constructor
  · intro hc
    rcases hx s _ hc with h | h
    · exact absurd h (by decide)
    · exact absurd h (by decide)
  · intro hc
    rcases hx s _ hc with h | h
    · exact absurd h (by decide)
    · exact absurd h (by decide)

/-- The links that a page is meant to have: the way up, where there is one, and one for each
item. -/
def links_of (x : Texts) (tail_norm : Text) (items : List Item) : List (Text × Text) :=
  (if tail_norm = [] then [] else [(parent_href tail_norm, "../".toList)]) ++
    items.map fun item => (item_href x (base_of tail_norm) item, shown_name item)

section
variable {x : Texts} {tail_norm : Text} {items : List Item}

theorem clean_trim_end (h : Clean tail_norm) : Clean (trim_end_matches '/' tail_norm) := by
  apply h.subset
  exact (List.rdropWhile_prefix _ _).subset

theorem clean_parent_href (h : Clean tail_norm) : Clean (parent_href tail_norm) := by
  unfold parent_href
  have hcache : Clean "/cache/".toList := by decide
  simp only
  split
  · refine clean_append.mpr ⟨clean_append.mpr ⟨hcache, ?_⟩, by decide⟩
    apply (clean_trim_end h).subset
    exact List.Subset.trans (List.dropLast_subset _) (List.rdropWhile_prefix _ _).subset
  · exact hcache

theorem clean_item_href (hx : Encodes x) (h : Clean tail_norm) (item : Item) :
    Clean (item_href x (base_of tail_norm) item) := by
  unfold item_href
  refine clean_append.mpr ⟨clean_append.mpr ⟨clean_append.mpr ⟨?_, ?_⟩, clean_encode hx _⟩, ?_⟩
  · unfold base_of
    split
    · decide
    · exact clean_append.mpr ⟨by decide, clean_trim_end h⟩
  · split <;> decide
  · split <;> decide

theorem bare_fits {name text : Text} (h : '>' ∉ name ∧ '\'' ∉ name) (ht : '<' ∉ text) :
    Piece.Fits (bare name, text) :=
  ⟨⟨fun _ hv => absurd hv List.not_mem_nil, h⟩, ht⟩

/-- The pieces of a page are what they are meant to be, whatever the names. -/
theorem page_fits (hx : Encodes x) (h : Clean tail_norm) :
    ∀ p ∈ page_pieces x tail_norm items, p.Fits := by
  have hshown : ∀ s, '<' ∉ html_escape s := by
    intro s
    rw [html_escape_eq]
    exact not_mem_escape s
  have hlink : ∀ {vs : List (Text × Text)} {s : Text},
      (∀ v ∈ vs, '>' ∉ v.1 ∧ '\'' ∉ v.1 ∧ '\'' ∉ v.2) → '<' ∉ s → Piece.Fits (⟨vs, []⟩, s) :=
    fun hvs hs => ⟨⟨hvs, List.not_mem_nil, List.not_mem_nil⟩, hs⟩
  have hhref : '>' ∉ " href=".toList ∧ '\'' ∉ " href=".toList := by decide
  have hhref' : '>' ∉ "a  href=".toList ∧ '\'' ∉ "a  href=".toList := by decide
  intro p hp
  simp only [page_pieces, List.mem_append, List.mem_singleton, List.mem_flatMap] at hp
  rcases hp with (((hp | hp) | hp) | ⟨item, -, hp⟩) | rfl
  · simp only [head_pieces, List.mem_cons, List.not_mem_nil, or_false] at hp
    rcases hp with rfl | rfl | rfl | rfl <;> exact bare_fits (by decide) (by decide +kernel)
  · simp only [heading_pieces, List.mem_cons, List.not_mem_nil, or_false] at hp
    rcases hp with rfl | rfl | rfl
    · apply bare_fits (by decide)
      rw [List.mem_append, not_or]
      exact ⟨by decide, hshown _⟩
    · exact bare_fits (by decide) (by decide)
    · exact bare_fits (by decide) (by decide)
  · unfold parent_pieces at hp
    split at hp
    · cases hp
    · simp only [List.mem_cons, List.not_mem_nil, or_false] at hp
      rcases hp with rfl | rfl | rfl | rfl
      · exact bare_fits (by decide) (by decide)
      · apply hlink _ (by decide)
        intro v hv
        simp only [List.mem_cons, List.not_mem_nil, or_false] at hv
        rcases hv with rfl | rfl
        · decide
        · exact ⟨hhref.1, hhref.2, (clean_parent_href h).1⟩
      · exact bare_fits (by decide) (by decide)
      · exact bare_fits (by decide) (by decide)
  · have haddress := (clean_item_href hx h item).1
    simp only [item_pieces, List.mem_cons, List.not_mem_nil, or_false] at hp
    rcases hp with rfl | rfl | rfl | rfl
    · refine bare_fits (by decide) ?_
      split <;> decide
    · apply hlink _ (hshown _)
      intro v hv
      split at hv
      · simp only [List.mem_cons, List.not_mem_nil, or_false] at hv
        rcases hv with rfl | rfl
        · decide
        · exact ⟨hhref.1, hhref.2, haddress⟩
      · rw [List.mem_singleton.mp hv]
        exact ⟨hhref'.1, hhref'.2, haddress⟩
    · exact bare_fits (by decide) (by decide)
    · exact bare_fits (by decide) (by decide)
  · exact bare_fits (by decide) (by decide)

theorem links_page (hx : Encodes x) (h : Clean tail_norm) :
    links (tokens_of [] (page_pieces x tail_norm items)) = links_of x tail_norm items := by
  have hparent : (parent_pieces tail_norm).flatMap
      (fun x => ((href_of x.1).map fun h => (h, unescape x.2)).toList) =
        if tail_norm = [] then [] else [(parent_href tail_norm, "../".toList)] := by
    unfold parent_pieces
    split
    · rfl
    · have haddress := unescape_plain (clean_parent_href h).2
      have hup : unescape "../".toList = "../".toList := by decide
      simp only [List.flatMap_cons, List.flatMap_nil, href_of_dir, href_of_bare, haddress, hup,
        Option.map_some, Option.map_none, Option.toList_some, Option.toList_none, List.nil_append,
        List.append_nil]
  have hitem : ∀ item, (item_pieces x (base_of tail_norm) item).flatMap
      (fun x => ((href_of x.1).map fun h => (h, unescape x.2)).toList) =
        [(item_href x (base_of tail_norm) item, shown_name item)] := by
    intro item
    have haddress := unescape_plain (clean_item_href hx h item).2
    have hname : unescape (html_escape (shown_name item)) = shown_name item := by
      rw [html_escape_eq, unescape_escape]
    have hlink : ∀ values, href_of ⟨values, []⟩ = some (item_href x (base_of tail_norm) item) →
        (href_of ⟨values, []⟩).map (fun h => (h, unescape (html_escape (shown_name item)))) =
          some (item_href x (base_of tail_norm) item, shown_name item) := by
      intro values hvalues
      rw [hvalues, Option.map_some, hname]
    unfold item_pieces
    simp only [List.flatMap_cons, List.flatMap_nil, href_of_bare, Option.map_none,
      Option.toList_none, List.nil_append, List.append_nil]
    rw [hlink, Option.toList_some]
    split
    · rw [href_of_dir, haddress]
    · rw [href_of_file, haddress]
  rw [links_tokens_of]
  unfold page_pieces links_of
  simp only [List.flatMap_append, List.flatMap_assoc, hparent, hitem]
  rw [List.map_eq_flatMap]
  simp [head_pieces, heading_pieces]

theorem text_behind_cons (name first : Text) (p : Piece) (pieces : List Piece) :
    text_behind name (tokens_of first (p :: pieces)) =
      if p.1 = bare name then some (unescape p.2) else text_behind name (tokens_of p.2 pieces) :=
  rfl

/-- The heading of a page has the path that was asked for. -/
theorem heading_page : text_behind "h1".toList (tokens_of [] (page_pieces x tail_norm items)) =
    some ("Index of /".toList ++ tail_norm) := by
  have htext : unescape ("Index of /".toList ++ html_escape tail_norm) =
      "Index of /".toList ++ tail_norm := by
    rw [unescape_plain_append (by decide), html_escape_eq, unescape_escape]
  unfold page_pieces head_pieces heading_pieces
  simp only [List.cons_append, List.nil_append]
  rw [text_behind_cons, if_neg (by decide), text_behind_cons, if_neg (by decide), text_behind_cons,
    if_neg (by decide), text_behind_cons, if_neg (by decide), text_behind_cons, if_pos rfl, htext]

/-- A page falls apart into its pieces. -/
theorem tokens_listing {tail : Text} (hx : Encodes x) (h : Clean tail) :
    tokens (listing_html x tail items) =
      some (tokens_of [] (page_pieces x (tail.dropWhile (· = '/')) items)) := by
  rw [listing_html_eq]
  apply tokens_render List.not_mem_nil
  exact page_fits hx (h.subset (List.dropWhile_subset _))

end

/-- A page of the inspector lists the directory that it shows: whatever the names of its entries,
a reader of the page finds the path in the heading, and the way up and one link for each entry,
with the address and the name of the entry, and no other link. -/
theorem a_page_lists_its_directory (fs : LinkedTree) (x : Texts) (hx : Encodes x) (root : OsStr)
    (tail : Text) (htail : Clean tail) (n : List Unit) (html : Text) (seen : List OsStr)
    (hpage : run (serve fs) (handle_req x tail root) n [] = some (.ok (.html html), seen)) :
    ∃ l searchable entries items ts, seen = [text l] ∧
      fs.node l = some (.dir searchable (some entries)) ∧ collect_items x entries = .ok items ∧
      tokens html = some ts ∧
      text_behind "h1".toList ts = some ("Index of /".toList ++ tail.dropWhile (· = '/')) ∧
      links ts = links_of x (tail.dropWhile (· = '/')) (sort_items x items) := by
  obtain ⟨l, searchable, entries, items, -, hdir, hitems, rfl, hseen⟩ :=
    run_sound hpage (fun _ _ => trivial) (handle_req_page x tail root) html rfl
  have hclean : Clean (tail.dropWhile (· = '/')) := htail.subset (List.dropWhile_subset _)
  exact ⟨l, searchable, entries, items, _, hseen, hdir, hitems, tokens_listing hx htail,
    heading_page, links_page hx hclean⟩

/-! ## A name with markup in it -/

def hex_digit (n : Nat) : Char := "0123456789ABCDEF".toList.getD n '0'

/-- Two digits behind a percent sign. -/
def percent (b : UInt8) : Text := ['%', hex_digit (b.toNat / 16), hex_digit (b.toNat % 16)]

/-- The texts of a small disk, where names are encoded byte by byte. -/
def percent_texts : Texts where
  encode s := s.flatMap fun c =>
    if c.isAlphanum ∨ c ∈ "-._~%".toList.dropLast then [c] else (as_bytes [c]).flatMap percent
  mime := plain.mime
  to_lowercase := plain.to_lowercase
  to_string_lossy := plain.to_string_lossy

theorem percent_texts_encodes : Encodes percent_texts := by
  have hdigit : ∀ n < 16, (hex_digit n).isAlphanum = true := by decide +kernel
  intro s c hc
  obtain ⟨d, -, hd⟩ := List.mem_flatMap.mp hc
  split at hd
  · rename_i h
    rw [List.mem_singleton.mp hd]
    exact h.imp_right fun h => List.dropLast_subset _ h
  · obtain ⟨b, -, hb⟩ := List.mem_flatMap.mp hd
    have hlt := b.toNat_lt
    simp only [percent, List.mem_cons, List.not_mem_nil, or_false] at hb
    rcases hb with rfl | rfl | rfl
    · exact Or.inr (by decide)
    · exact Or.inl (hdigit _ (by omega))
    · exact Or.inl (hdigit _ (by omega))

/-- A cache with a directory in which a file has markup for its name. -/
def odd_disk : List (Loc × Node) :=
  let name (s : String) : OsStr := as_bytes s.toList
  [([], .dir true none),
    ([name "c"], .dir true (some [some ⟨name "00", some .dir⟩])),
    ([name "c", name "00"], .dir true (some [some ⟨name "<b>'&", some .file⟩])),
    ([name "c", name "00", name "<b>'&"], .file (some [1, 2]))]

def odd_tree : LinkedTree := .of_table odd_disk 40 (fun _ => true) (by decide +kernel)

theorem a_name_with_markup_in_it_is_listed : ∃ html seen ts,
    run (serve odd_tree) (handle_req percent_texts "00".toList (as_bytes "/c".toList))
      (List.replicate 5 ()) [] = some (.ok (.html html), seen) ∧
    tokens html = some ts ∧
    links ts = [("/cache/".toList, "../".toList),
      ("/cache/00/%3Cb%3E%27%26".toList, "<b>'&".toList)] := by
  let html := listing_html percent_texts "00".toList [("<b>'&".toList, false)]
  have hpage : run (serve odd_tree) (handle_req percent_texts "00".toList (as_bytes "/c".toList))
      (List.replicate 5 ()) [] = some (.ok (.html html), [as_bytes "/c/00".toList]) := by
    decide +kernel
  obtain ⟨l, searchable, entries, items, ts, hseen, hnode, hitems, htokens, -, hlinks⟩ :=
    a_page_lists_its_directory odd_tree percent_texts percent_texts_encodes
      (as_bytes "/c".toList) "00".toList (by decide) _ _ _ hpage
  have hmem := mem_of_lookup hnode
  simp only [odd_disk, List.mem_cons, List.not_mem_nil, or_false, Prod.mk.injEq] at hmem
  rcases hmem with ⟨rfl, h⟩ | ⟨rfl, h⟩ | ⟨rfl, h⟩ | ⟨rfl, h⟩ <;> cases h
  · exact absurd hseen (by decide +kernel)
  · cases hitems
    exact ⟨html, _, ts, hpage, htokens, hlinks.trans (by decide +kernel)⟩

end edge_cdn_store.pages
