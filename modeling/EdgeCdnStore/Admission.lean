-- The directive that keeps a response out of the cache. A response may have any number
-- of Cache-Control lines, and each is a comma-separated list. `response_cache_filter`
-- looks at the first line only, and only where it is a text.
import EdgeCdnStore.Proxy

open edge_cdn_store.logger edge_cdn_store.utils edge_cdn_store.proxy

namespace edge_cdn_store.admission

/-! ## Comma-separated lists -/

/-- What a text is split into are parts of the text. -/
theorem within_of_mem_splitOn {α : Type} [BEq α] [LawfulBEq α] {c : α} {s piece : List α}
    (h : piece ∈ s.splitOn c) : piece <:+: s := by
  obtain ⟨i, hi⟩ := List.mem_iff_getElem?.mp h
  have hmem : piece ∈ (s.splitOn c).intersperse [c] := by
    apply List.mem_of_getElem? (i := 2 * i)
    rw [List.getElem?_intersperse_two_mul, hi]
  have hjoin : ((s.splitOn c).intersperse [c]).flatten = s := List.intercalate_splitOn c
  rw [← hjoin]
  exact List.infix_of_mem_flatten hmem

/-- A space or a tab. -/
def is_blank (c : Char) : Bool := c == ' ' || c == '\t'

/-- The name of a directive: what is in front of its argument, without blanks around it. -/
def directive_name (entry : List Char) : List Char :=
  ((entry.takeWhile (· ≠ '=')).dropWhile is_blank).rdropWhile is_blank

/-- A line carries a directive: some entry of its list has the name, in any letter case. -/
def Carries (line name : List Char) : Prop :=
  ∃ entry ∈ line.splitOn ',', eq_ignore_ascii_case (directive_name entry) name = true

instance (line name : List Char) : Decidable (Carries line name) :=
  inferInstanceAs (Decidable (∃ entry ∈ line.splitOn ',', _))

theorem directive_name_within (entry : List Char) : directive_name entry <:+: entry := by
  unfold directive_name
  calc ((entry.takeWhile (· ≠ '=')).dropWhile is_blank).rdropWhile is_blank
      <:+: (entry.takeWhile (· ≠ '=')).dropWhile is_blank := (List.rdropWhile_prefix _ _).isInfix
    _ <:+: entry.takeWhile (· ≠ '=') := (List.dropWhile_suffix _).isInfix
    _ <:+: entry := (List.takeWhile_prefix _).isInfix

/-- The name of a directive that a line carries is somewhere in the line. -/
theorem Carries.occurs {line name : List Char} (h : Carries line name) :
    to_ascii_lowercase name <:+: to_ascii_lowercase line := by
  obtain ⟨entry, hentry, hname⟩ := h
  unfold eq_ignore_ascii_case at hname
  rw [← eq_of_beq hname]
  apply List.IsInfix.map
  exact (directive_name_within entry).trans (within_of_mem_splitOn hentry)

/-! ## The lines of a response -/

/-- The values under a name, in any letter case, in their order. -/
def values (resp : ResponseHeader) (name : List Char) : List (List UInt8) :=
  (resp.headers.filter (fun h => eq_ignore_ascii_case h.1 name)).map Prod.snd

/-- `get` has the first of them. -/
theorem get_eq_head (resp : ResponseHeader) (name : List Char) :
    resp.get name = (values resp name).head? := by
  unfold ResponseHeader.get values
  rw [List.head?_map, List.head?_filter]

/-- The bytes of a value, each as a character. -/
def as_text (value : List UInt8) : List Char := value.map fun b => Char.ofNat b.toNat

theorem to_str_eq_some {value : List UInt8} {cc : List Char} :
    to_str value = some cc ↔ (to_str value).isSome = true ∧ cc = as_text value := by
  unfold to_str as_text
  split
  · simp [eq_comm]
  · simp

def cache_control : List Char := "cache-control".toList
def no_store : List Char := "no-store".toList

/-- Some Cache-Control line carries the directive `no-store`. -/
def Forbidden (resp : ResponseHeader) : Prop :=
  ∃ value ∈ values resp cache_control, Carries (as_text value) no_store

instance (resp : ResponseHeader) : Decidable (Forbidden resp) :=
  inferInstanceAs (Decidable (∃ value ∈ values resp cache_control, _))

/-- The text `no-store` is somewhere in a value, in any letter case. -/
def Mentions (value : List UInt8) : Prop := no_store <:+: to_ascii_lowercase (as_text value)

instance (value : List UInt8) : Decidable (Mentions value) :=
  inferInstanceAs (Decidable (no_store <:+: _))

/-- The first Cache-Control line is a text with `no-store` somewhere in it. -/
def Noticed (resp : ResponseHeader) : Prop :=
  ∃ value, (values resp cache_control).head? = some value ∧ (to_str value).isSome = true ∧
    Mentions value

/-! ## The filter -/

theorem get_to_str_iff {resp : ResponseHeader} {cc : List Char} :
    (resp.get cache_control).bind to_str = some cc ↔
      ∃ value, (values resp cache_control).head? = some value ∧ (to_str value).isSome = true ∧
        cc = as_text value := by
  rw [get_eq_head, Option.bind_eq_some_iff]
  constructor
  · rintro ⟨value, hvalue, hcc⟩
    exact ⟨value, hvalue, to_str_eq_some.mp hcc⟩
  · rintro ⟨value, hvalue, hcc⟩
    exact ⟨value, hvalue, to_str_eq_some.mpr hcc⟩

/-- What the filter decides: a status other than 2xx first, then what it notices. -/
theorem response_cache_filter_eq (self : EdgeCdnProxy) (now : Nat) (resp : ResponseHeader) :
    (resp.is_success = false → self.response_cache_filter now resp =
      .ok (.Uncacheable (.Custom "non-2xx response"))) ∧
    (resp.is_success = true → Noticed resp → self.response_cache_filter now resp =
      .ok (.Uncacheable .OriginNotCache)) ∧
    (resp.is_success = true → ¬ Noticed resp → self.response_cache_filter now resp =
      .ok (.Cacheable ⟨now + ONE_HOUR, now, 0, 0, resp⟩)) := by
  unfold EdgeCdnProxy.response_cache_filter
  rw [show "cache-control".toList = cache_control from rfl]
  refine ⟨?_, ?_, ?_⟩
  · intro hstatus
    rw [hstatus]
    rfl
  · rintro hstatus ⟨value, hvalue, htext, hmentions⟩
    have hcc := get_to_str_iff.mpr ⟨value, hvalue, htext, rfl⟩
    have hcontains : contains (to_ascii_lowercase (as_text value)) "no-store".toList = true :=
      decide_eq_true hmentions
    simp only [hstatus, hcc, hcontains, Bool.not_true, Bool.false_eq_true, if_false, if_true]
  · intro hstatus hnot
    cases hcc : (resp.get cache_control).bind to_str with
    | none => simp only [hstatus, Bool.not_true, Bool.false_eq_true, if_false]
    | some cc =>
      obtain ⟨value, hvalue, htext, rfl⟩ := get_to_str_iff.mp hcc
      have hcontains : contains (to_ascii_lowercase (as_text value)) "no-store".toList = false := by
        apply decide_eq_false
        intro hmentions
        exact hnot ⟨value, hvalue, htext, hmentions⟩
      simp only [hstatus, hcontains, Bool.not_true, Bool.false_eq_true, if_false]

/-- A response that must not be stored is not. Any other is, unless the text `no-store` is
somewhere in its Cache-Control lines. -/
def Honoured (self : EdgeCdnProxy) (now : Nat) (resp : ResponseHeader) : Prop :=
  (Forbidden resp ∨ resp.is_success = false →
    ∃ reason, self.response_cache_filter now resp = .ok (.Uncacheable reason)) ∧
  (¬ (Forbidden resp ∨ resp.is_success = false) →
    (∀ value ∈ values resp cache_control, ¬ Mentions value) →
    ∃ cache_meta, self.response_cache_filter now resp = .ok (.Cacheable cache_meta))

/-- The filter keeps to the Cache-Control lines exactly when a response with a status 2xx that
carries `no-store` has it noticed: the first line is a text, and `no-store` is in it. -/
theorem no_store_is_honoured_exactly_when_the_first_line_shows_it (self : EdgeCdnProxy)
    (now : Nat) (resp : ResponseHeader) :
    Honoured self now resp ↔ (resp.is_success = true → Forbidden resp → Noticed resp) := by
  obtain ⟨hother, hnoticed, hmissed⟩ := response_cache_filter_eq self now resp
  constructor
  · rintro ⟨hmust, _⟩ hstatus hforbidden
    by_contra hnot
    obtain ⟨reason, hreason⟩ := hmust (Or.inl hforbidden)
    rw [hmissed hstatus hnot] at hreason
    cases hreason
  · intro hshown
    refine ⟨?_, ?_⟩
    · intro hmust
      by_cases hstatus : resp.is_success = true
      · have hforbidden : Forbidden resp := by
          rcases hmust with hforbidden | hfalse
          · exact hforbidden
          · rw [hstatus] at hfalse
            cases hfalse
        exact ⟨_, hnoticed hstatus (hshown hstatus hforbidden)⟩
      · exact ⟨_, hother (Bool.eq_false_iff.mpr hstatus)⟩
    · intro hfree hsilent
      have hstatus : resp.is_success = true := by
        by_contra hfalse
        exact hfree (Or.inr (Bool.eq_false_iff.mpr hfalse))
      refine ⟨_, hmissed hstatus ?_⟩
      rintro ⟨value, hvalue, _, hmentions⟩
      exact hsilent value (List.mem_of_head? hvalue) hmentions

/-- A response with one Cache-Control line, and no more, is honoured if the line is a text. -/
theorem one_line_is_honoured (self : EdgeCdnProxy) (now : Nat) {resp : ResponseHeader}
    {value : List UInt8} (hone : values resp cache_control = [value])
    (htext : (to_str value).isSome = true) (hstatus : resp.is_success = true)
    (hforbidden : Forbidden resp) :
    self.response_cache_filter now resp = .ok (.Uncacheable .OriginNotCache) := by
  obtain ⟨carrier, hcarrier, hcarries⟩ := hforbidden
  rw [hone, List.mem_singleton] at hcarrier
  subst hcarrier
  apply (response_cache_filter_eq self now resp).2.1 hstatus
  refine ⟨carrier, ?_, htext, ?_⟩
  · rw [hone]
    rfl
  · exact hcarries.occurs

/-- A response with these Cache-Control lines. -/
def response (status : UInt16) (lines : List String) : ResponseHeader where
  status := status
  headers := lines.map fun line =>
    ("Cache-Control".toList, line.toList.map fun c => UInt8.ofNat c.toNat)

/-- A second Cache-Control line is not looked at, nor is a line that is no text: the response
is stored for one hour. -/
theorem a_second_line_and_a_line_that_is_no_text_are_not_looked_at :
    let split := response 200 ["public", "max-age=0, No-Store"]
    let foreign := response 200 ["no-store, note=é"]
    Forbidden split ∧ Forbidden foreign ∧
    (EdgeCdnProxy.new 6188 6143).response_cache_filter 0 split =
      .ok (.Cacheable ⟨3600, 0, 0, 0, split⟩) ∧
    (EdgeCdnProxy.new 6188 6143).response_cache_filter 0 foreign =
      .ok (.Cacheable ⟨3600, 0, 0, 0, foreign⟩) ∧
    ¬ Honoured (EdgeCdnProxy.new 6188 6143) 0 split ∧
    ¬ Honoured (EdgeCdnProxy.new 6188 6143) 0 foreign := by
  intro split foreign
  have hsplit : Forbidden split := by decide +kernel
  have hforeign : Forbidden foreign := by decide +kernel
  have hstored : (EdgeCdnProxy.new 6188 6143).response_cache_filter 0 split =
      .ok (.Cacheable ⟨3600, 0, 0, 0, split⟩) := by decide +kernel
  have hstored' : (EdgeCdnProxy.new 6188 6143).response_cache_filter 0 foreign =
      .ok (.Cacheable ⟨3600, 0, 0, 0, foreign⟩) := by decide +kernel
  refine ⟨hsplit, hforeign, hstored, hstored', ?_, ?_⟩
  · intro h
    obtain ⟨reason, hreason⟩ := h.1 (Or.inl hsplit)
    rw [hstored] at hreason
    cases hreason
  · intro h
    obtain ⟨reason, hreason⟩ := h.1 (Or.inl hforeign)
    rw [hstored'] at hreason
    cases hreason

end edge_cdn_store.admission
