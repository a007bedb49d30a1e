-- A small markup language: tags between `<` and `>`, with values in single quotes, and
-- text between the tags, in which three characters are written as entities. A page that
-- is put together from tags and text reads back as these, where the text is escaped and
-- no value has a quote in it.
import Mathlib.Data.List.Basic

namespace edge_cdn_store.markup

/-! ## Entities -/

def escape_char (c : Char) : List Char :=
  if c = '&' then "&amp;".toList
  else if c = '<' then "&lt;".toList
  else if c = '>' then "&gt;".toList
  else [c]

def escape (s : List Char) : List Char := s.flatMap escape_char

def unescape : List Char → List Char
  | '&' :: 'a' :: 'm' :: 'p' :: ';' :: rest => '&' :: unescape rest
  | '&' :: 'l' :: 't' :: ';' :: rest => '<' :: unescape rest
  | '&' :: 'g' :: 't' :: ';' :: rest => '>' :: unescape rest
  | c :: rest => c :: unescape rest
  | [] => []

theorem unescape_cons {c : Char} (h : c ≠ '&') (s : List Char) :
    unescape (c :: s) = c :: unescape s := by
  rw [unescape] <;> simp_all

/-- One entity reads as its character. -/
theorem unescape_append (c : Char) (s : List Char) :
    unescape (escape_char c ++ s) = c :: unescape s := by
  unfold escape_char
  split
  · rename_i h
    rw [h]
    rfl
  · rename_i h
    split
    · rename_i h
      rw [h]
      rfl
    · split
      · rename_i h
        rw [h]
        rfl
      · exact unescape_cons h s

/-- What is escaped reads back. -/
theorem unescape_escape (s : List Char) : unescape (escape s) = s := by
  unfold escape
  induction s with
  | nil => rfl
  | cons c s ih => rw [List.flatMap_cons, unescape_append, ih]

/-- Text with no entity in it reads as it is. -/
theorem unescape_plain_append {s : List Char} (h : '&' ∉ s) (t : List Char) :
    unescape (s ++ t) = s ++ unescape t := by
  induction s with
  | nil => rfl
  | cons c s ih =>
    rw [List.mem_cons, not_or] at h
    rw [List.cons_append, unescape_cons (Ne.symm h.1), ih h.2, List.cons_append]

theorem unescape_plain {s : List Char} (h : '&' ∉ s) : unescape s = s := by
  have hnil := unescape_plain_append h []
  rwa [List.append_nil, unescape, List.append_nil] at hnil

/-- Escaped text begins no tag. -/
theorem not_mem_escape (s : List Char) : '<' ∉ escape s := by
  intro h
  obtain ⟨c, -, hc⟩ := List.mem_flatMap.mp h
  unfold escape_char at hc
  split at hc
  · exact absurd hc (by decide)
  · split at hc
    · exact absurd hc (by decide)
    · split at hc
      · exact absurd hc (by decide)
      · rename_i hlt _
        exact hlt (List.mem_singleton.mp hc).symm

/-! ## Tags and text -/

/-- The inside of a tag: each quoted value behind what stands before it, and what stands last. -/
structure Tag where
  values : List (List Char × List Char)
  last : List Char
  deriving DecidableEq, Repr

def Tag.inside (t : Tag) : List Char :=
  (t.values.flatMap fun x => x.1 ++ '\'' :: x.2 ++ ['\'']) ++ t.last

inductive Token
  | tag (t : Tag)
  | text (s : List Char)
  deriving DecidableEq, Repr

/-- A tag with the text behind it. -/
abbrev Piece := Tag × List Char

def Piece.render (x : Piece) : List Char := '<' :: x.1.inside ++ '>' :: x.2

def render (first : List Char) (pieces : List Piece) : List Char :=
  first ++ pieces.flatMap Piece.render

/-- The tokens that a page is made of. -/
def tokens_of (first : List Char) (pieces : List Piece) : List Token :=
  .text first :: pieces.flatMap fun x => [.tag x.1, .text x.2]

/-! ## A reader -/

/-- Between tags, in a tag, or in a value of a tag. -/
inductive Mode
  | text
  | tag
  | value
  deriving DecidableEq

/-- Where a reader has come: what it has read since the last change, the values of the tag that
it is in, and the tokens behind it. -/
structure Reader where
  mode : Mode
  run : List Char
  before : List Char
  values : List (List Char × List Char)
  tokens : List Token

namespace Reader

def step (r : Reader) (c : Char) : Reader :=
  match r.mode with
  | .text =>
    if c = '<' then ⟨.tag, [], [], [], r.tokens ++ [.text r.run]⟩
    else { r with run := r.run ++ [c] }
  | .tag =>
    if c = '>' then ⟨.text, [], [], [], r.tokens ++ [.tag ⟨r.values, r.run⟩]⟩
    else if c = '\'' then { r with mode := .value, run := [], before := r.run }
    else { r with run := r.run ++ [c] }
  | .value =>
    if c = '\'' then
      { r with mode := .tag, run := [], before := [], values := r.values ++ [(r.before, r.run)] }
    else { r with run := r.run ++ [c] }

def read (r : Reader) (s : List Char) : Reader := s.foldl step r

theorem read_append (r : Reader) (s t : List Char) : r.read (s ++ t) = (r.read s).read t :=
  List.foldl_append

@[simp] theorem read_nil (r : Reader) : r.read [] = r := rfl

@[simp] theorem read_cons (r : Reader) (c : Char) (s : List Char) :
    r.read (c :: s) = (r.step c).read s := rfl

/-- Where no character is one that changes the mode, all are added to the run. -/
theorem read_run {r : Reader} {s : List Char} (h : ∀ c ∈ s, ∀ run,
    step { r with run } c = { r with run := run ++ [c] }) :
    r.read s = { r with run := r.run ++ s } := by
  induction s generalizing r with
  | nil => rw [read_nil, List.append_nil]
  | cons c s ih =>
    have hc : r.step c = { r with run := r.run ++ [c] } := h c List.mem_cons_self r.run
    have hrest := ih (r := { r with run := r.run ++ [c] })
      fun d hd run => h d (List.mem_cons_of_mem _ hd) run
    rw [read_cons, hc, hrest, List.append_assoc, List.singleton_append]

variable {before run s : List Char} {values : List (List Char × List Char)} {tokens : List Token}

theorem read_text (h : '<' ∉ s) : Reader.read ⟨.text, run, before, values, tokens⟩ s =
    ⟨.text, run ++ s, before, values, tokens⟩ := by
  apply read_run
  intro c hc run'
  have hne : c ≠ '<' := fun he => h (he ▸ hc)
  simp [step, hne]

theorem read_tag (h : '>' ∉ s) (h' : '\'' ∉ s) :
    Reader.read ⟨.tag, run, before, values, tokens⟩ s =
      ⟨.tag, run ++ s, before, values, tokens⟩ := by
  apply read_run
  intro c hc run'
  have hne : c ≠ '>' := fun he => h (he ▸ hc)
  have hne' : c ≠ '\'' := fun he => h' (he ▸ hc)
  simp [step, hne, hne']

theorem read_value (h : '\'' ∉ s) : Reader.read ⟨.value, run, before, values, tokens⟩ s =
    ⟨.value, run ++ s, before, values, tokens⟩ := by
  apply read_run
  intro c hc run'
  have hne : c ≠ '\'' := fun he => h (he ▸ hc)
  simp [step, hne]

end Reader

/-- The tokens of a page, where its last tag is closed. -/
def tokens (s : List Char) : Option (List Token) :=
  match Reader.read ⟨.text, [], [], [], []⟩ s with
  | ⟨.text, run, _, _, tokens⟩ => some (tokens ++ [.text run])
  | _ => none

/-! ## Round trip -/

/-- Outside of its values a tag has no quote and no end, and no value has a quote. -/
structure Tag.Fits (t : Tag) : Prop where
  values : ∀ x ∈ t.values, '>' ∉ x.1 ∧ '\'' ∉ x.1 ∧ '\'' ∉ x.2
  last : '>' ∉ t.last ∧ '\'' ∉ t.last

def Piece.Fits (x : Piece) : Prop := x.1.Fits ∧ '<' ∉ x.2

/-- The values of a tag, one after the other. -/
theorem Reader.read_values {vs : List (List Char × List Char)}
    (h : ∀ x ∈ vs, '>' ∉ x.1 ∧ '\'' ∉ x.1 ∧ '\'' ∉ x.2)
    (values : List (List Char × List Char)) (tokens : List Token) :
    Reader.read ⟨.tag, [], [], values, tokens⟩
      (vs.flatMap fun x => x.1 ++ '\'' :: x.2 ++ ['\'']) =
        ⟨.tag, [], [], values ++ vs, tokens⟩ := by
  induction vs generalizing values with
  | nil => rw [List.flatMap_nil, read_nil, List.append_nil]
  | cons x vs ih =>
    obtain ⟨hend, hquote, hvalue⟩ := h x List.mem_cons_self
    have hopen : step ⟨.tag, x.1, [], values, tokens⟩ '\'' = ⟨.value, [], x.1, values, tokens⟩ := by
      simp [step]
    have hclose : step ⟨.value, x.2, x.1, values, tokens⟩ '\'' =
        ⟨.tag, [], [], values ++ [x], tokens⟩ := by
      simp [step]
    have hrest := ih (fun y hy => h y (List.mem_cons_of_mem _ hy)) (values ++ [x])
    simp only [List.flatMap_cons, read_append, read_tag hend hquote, List.nil_append, read_cons,
      hopen, read_value hvalue, hclose, read_nil]
    rw [hrest, List.append_assoc, List.singleton_append]

/-- A tag that is closed, with the text behind it. -/
theorem Reader.read_piece {x : Piece} (h : x.Fits) (run : List Char) (tokens : List Token) :
    Reader.read ⟨.text, run, [], [], tokens⟩ x.render =
      ⟨.text, x.2, [], [], tokens ++ [.text run, .tag x.1]⟩ := by
  obtain ⟨⟨hvalues, hend, hquote⟩, htext⟩ := h
  have hopen : step ⟨.text, run, [], [], tokens⟩ '<' =
      ⟨.tag, [], [], [], tokens ++ [.text run]⟩ := by
    simp [step]
  have hclose : ∀ tokens', step ⟨.tag, x.1.last, [], x.1.values, tokens'⟩ '>' =
      ⟨.text, [], [], [], tokens' ++ [.tag x.1]⟩ := by
    simp [step]
  unfold Piece.render Tag.inside
  simp only [List.cons_append, read_cons, hopen, read_append, read_values hvalues, List.nil_append,
    read_tag hend hquote, hclose, read_text htext]
  rw [List.append_assoc, List.singleton_append]

theorem Reader.read_pieces {pieces : List Piece} (h : ∀ x ∈ pieces, x.Fits) (run : List Char)
    (tokens : List Token) : ∃ last done,
    Reader.read ⟨.text, run, [], [], tokens⟩ (pieces.flatMap Piece.render) =
      ⟨.text, last, [], [], done⟩ ∧
    done ++ [.text last] = tokens ++ tokens_of run pieces := by
  induction pieces generalizing run tokens with
  | nil => exact ⟨run, tokens, rfl, rfl⟩
  | cons x pieces ih =>
    obtain ⟨last, done, hread, hdone⟩ := ih (fun y hy => h y (List.mem_cons_of_mem _ hy)) x.2
      (tokens ++ [.text run, .tag x.1])
    refine ⟨last, done, ?_, ?_⟩
    · rw [List.flatMap_cons, read_append, read_piece (h x List.mem_cons_self), hread]
    · rw [hdone]
      simp [tokens_of]

/-- A page reads as the tags and the text that it was put together from. -/
theorem tokens_render {first : List Char} {pieces : List Piece} (hfirst : '<' ∉ first)
    (h : ∀ x ∈ pieces, x.Fits) : tokens (render first pieces) = some (tokens_of first pieces) := by
  obtain ⟨last, done, hread, hdone⟩ := Reader.read_pieces h first []
  unfold tokens render
  rw [Reader.read_append, Reader.read_text hfirst, List.nil_append, hread]
  rw [List.nil_append] at hdone
  exact congrArg some hdone

end edge_cdn_store.markup
