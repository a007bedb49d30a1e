-- Requests aimed at the proxy itself. `upstream_peer` finds them with the parser of the
-- Host header, which reads one address in many spellings, and `request_cache_filter` by
-- comparing the text with one spelling only.
import EdgeCdnStore.Authority

open edge_cdn_store.logger edge_cdn_store.utils edge_cdn_store.proxy edge_cdn_store.numerals
open edge_cdn_store.authority

namespace edge_cdn_store.self_requests

/-! ## Numerals -/

theorem decimal_eq (p : UInt16) : decimal p = Nat.toDigits 10 p.toNat := by
  unfold decimal
  rw [Nat.toString_eq_ofList_toDigits, String.toList_ofList]

/-- The numerals of a port are its decimal text with zeros in front. -/
theorem numeral_iff {s : List Char} {p : UInt16} :
    Numeral s p ↔ ∃ k, s = List.replicate k '0' ++ decimal p := by
  unfold Numeral
  rw [decimal_eq]
  exact digits_iff

/-- What parses to a port: a numeral of it, with a plus sign in front or without. -/
theorem parse_u16_iff {s : List Char} {p : UInt16} :
    parse_u16 s = some p ↔ Numeral s p ∨ ∃ rest, s = '+' :: rest ∧ Numeral rest p := by
  by_cases hsign : s.head? = some '+'
  · obtain ⟨rest, rfl⟩ := List.head?_eq_some_iff.mp hsign
    have hparse : parse_u16 ('+' :: rest) =
        if rest = [] then none else (parse_digits 0 rest).map UInt16.ofNat := rfl
    rw [hparse, unsigned_eq_some]
    constructor
    · exact fun h => Or.inr ⟨rest, rfl, h⟩
    · rintro (h | ⟨_, heq, h⟩)
      · exact absurd (h.2.1 '+' List.mem_cons_self) (by decide)
      · cases heq
        exact h
  · rw [parse_u16_unsigned hsign, unsigned_eq_some]
    constructor
    · exact Or.inl
    · rintro (h | ⟨_, rfl, _⟩)
      · exact h
      · exact absurd rfl hsign

/-! ## The spellings of an authority -/

/-- One way to write a host with a port. -/
structure Spelling where
  front : List Char
  brackets : Bool
  plus : Bool
  zeros : Nat
  slashes : Nat
  back : List Char
  front_blank : ∀ c ∈ front, is_whitespace c = true
  back_blank : ∀ c ∈ back, is_whitespace c = true

namespace Spelling

def host_text (s : Spelling) (host : List Char) : List Char :=
  if s.brackets then '[' :: (host ++ [']']) else host

def numeral_text (s : Spelling) (p : UInt16) : List Char :=
  (if s.plus then ['+'] else []) ++ (List.replicate s.zeros '0' ++ decimal p)

/-- What is left when the whitespace around and the slashes behind are gone. -/
def core (s : Spelling) (host : List Char) (p : UInt16) : List Char :=
  s.host_text host ++ ':' :: s.numeral_text p

def written (s : Spelling) (host : List Char) (p : UInt16) : List Char :=
  s.front ++ (s.core host p ++ List.replicate s.slashes '/') ++ s.back

/-- The spelling `host:PORT`, and nothing more. -/
def Bare (s : Spelling) : Prop :=
  s.front = [] ∧ s.brackets = false ∧ s.plus = false ∧ s.zeros = 0 ∧ s.slashes = 0 ∧ s.back = []

end Spelling

/-- A host that may stand in brackets or without them. -/
structure PlainHost (host : List Char) : Prop where
  ne_nil : host ≠ []
  no_whitespace : ∀ c ∈ host, is_whitespace c = false
  no_slash : '/' ∉ host
  no_colon : ':' ∉ host
  no_bracket : '[' ∉ host ∧ ']' ∉ host

theorem localhost_plain : PlainHost LOCALHOST := by
  refine ⟨by decide, fun c hc => ?_, by decide, by decide, by decide, by decide⟩
  have hchar : c = '0' ∨ c = '1' ∨ c = '2' ∨ c = '7' ∨ c = '.' := by
    rw [show LOCALHOST = ['1', '2', '7', '.', '0', '.', '0', '.', '1'] from rfl] at hc
    simp only [List.mem_cons, List.not_mem_nil, or_false] at hc
    tauto
  rcases hchar with rfl | rfl | rfl | rfl | rfl <;> decide

/-- A text is the part that the parser looks at, with whitespace around it and slashes behind. -/
theorem raw_eq (raw : List Char) : ∃ ws ws' n, (∀ c ∈ ws, is_whitespace c = true) ∧
    (∀ c ∈ ws', is_whitespace c = true) ∧
    raw = ws ++ (text raw ++ List.replicate n '/') ++ ws' := by
  have hslashes : ∀ c ∈ (trim raw).rtakeWhile (· = '/'), c = '/' := by
    intro c hc
    simpa using List.mem_rtakeWhile_imp hc
  refine ⟨raw.takeWhile is_whitespace, (raw.dropWhile is_whitespace).rtakeWhile is_whitespace,
    ((trim raw).rtakeWhile (· = '/')).length, ?_, ?_, ?_⟩
  · exact fun c hc => List.mem_takeWhile_imp hc
  · exact fun c hc => List.mem_rtakeWhile_imp hc
  · rw [← List.eq_replicate_of_mem hslashes]
    unfold text trim_end_matches
    rw [List.rdropWhile_append_rtakeWhile]
    unfold trim
    rw [List.append_assoc, List.rdropWhile_append_rtakeWhile, List.takeWhile_append_dropWhile]

/-- The numerals that the parser reads as a port are the ones of the spellings. -/
theorem numeral_text_iff {t : List Char} {p : UInt16} :
    parse_u16 t = some p ↔
      ∃ (plus : Bool) (k : Nat),
        t = (if plus then ['+'] else []) ++ (List.replicate k '0' ++ decimal p) := by
  rw [parse_u16_iff, numeral_iff]
  constructor
  · rintro (⟨k, rfl⟩ | ⟨rest, rfl, hrest⟩)
    · exact ⟨false, k, rfl⟩
    · obtain ⟨k, rfl⟩ := numeral_iff.mp hrest
      exact ⟨true, k, rfl⟩
  · rintro ⟨plus, k, rfl⟩
    cases plus with
    | false => exact Or.inl ⟨k, rfl⟩
    | true => exact Or.inr ⟨_, rfl, numeral_iff.mpr ⟨k, rfl⟩⟩

theorem port_of_iff {after : List Char} {p : UInt16} :
    port_of after = some p ↔ ∃ t, after = ':' :: t ∧ parse_u16 t = some p := by
  unfold port_of
  rw [Option.bind_eq_some_iff]
  constructor
  · rintro ⟨t, ht, hp⟩
    exact ⟨t, strip_prefix_eq_some.mp ht, hp⟩
  · rintro ⟨t, rfl, hp⟩
    exact ⟨t, strip_prefix_eq_some.mpr rfl, hp⟩

namespace Spelling

theorem zeros_numeral (s : Spelling) (p : UInt16) :
    Numeral (List.replicate s.zeros '0' ++ decimal p) p := numeral_iff.mpr ⟨s.zeros, rfl⟩

theorem numeral_text_plain (s : Spelling) (p : UInt16) {c : Char} (hc : c ∈ s.numeral_text p) :
    is_whitespace c = false ∧ c ≠ '/' := by
  unfold numeral_text at hc
  rcases List.mem_append.mp hc with hc | hc
  · cases hplus : s.plus with
    | false =>
      rw [hplus] at hc
      cases hc
    | true =>
      rw [hplus] at hc
      rw [List.mem_singleton.mp hc]
      decide
  · exact digit_plain ((s.zeros_numeral p).2.1 c hc)

theorem numeral_text_last (s : Spelling) (p : UInt16) {c : Char}
    (hc : (s.numeral_text p).getLast? = some c) : c.isDigit = true := by
  unfold numeral_text at hc
  rw [List.getLast?_append_of_ne_nil _ (s.zeros_numeral p).1] at hc
  exact (s.zeros_numeral p).2.1 c (List.mem_of_getLast? hc)

theorem numeral_text_ne_nil (s : Spelling) (p : UInt16) : s.numeral_text p ≠ [] := by
  intro h
  unfold numeral_text at h
  exact (s.zeros_numeral p).1 (List.append_eq_nil_iff.mp h).2

variable {host : List Char}

theorem core_first (hh : PlainHost host) (s : Spelling) (p : UInt16) {c : Char}
    (hc : (s.core host p).head? = some c) : is_whitespace c = false := by
  unfold core host_text at hc
  cases hb : s.brackets with
  | true =>
    rw [hb] at hc
    cases hc
    decide
  | false =>
    rw [hb] at hc
    cases host with
    | nil => exact absurd rfl hh.ne_nil
    | cons d host =>
      cases hc
      exact hh.no_whitespace c List.mem_cons_self

theorem core_last (host : List Char) (s : Spelling) (p : UInt16) {c : Char}
    (hc : (s.core host p).getLast? = some c) : is_whitespace c = false ∧ c ≠ '/' := by
  unfold core at hc
  rw [List.getLast?_append_of_ne_nil _ (List.cons_ne_nil _ _),
    List.getLast?_cons_of_ne_nil (s.numeral_text_ne_nil p)] at hc
  exact digit_plain (s.numeral_text_last p hc)

/-- The parser cuts a spelling behind its host. -/
theorem core_cut (hh : PlainHost host) (s : Spelling) (p : UInt16) :
    Cut (s.core host p) host (':' :: s.numeral_text p) := by
  unfold core host_text
  cases s.brackets with
  | true =>
    rw [if_pos rfl, List.cons_append, List.append_assoc]
    exact .bracket hh.no_bracket.2
  | false =>
    rw [if_neg Bool.false_ne_true]
    have hnot : ∀ c, c = '/' ∨ c = ' ' → c ∉ host ++ ':' :: s.numeral_text p := by
      intro c hc hmem
      have hplain : is_whitespace c = false ∧ c ≠ '/' := by
        rcases List.mem_append.mp hmem with hmem | hmem
        · refine ⟨hh.no_whitespace c hmem, ?_⟩
          rintro rfl
          exact hh.no_slash hmem
        · rcases List.mem_cons.mp hmem with rfl | hmem
          · decide
          · exact s.numeral_text_plain p hmem
      rcases hc with rfl | rfl
      · exact hplain.2 rfl
      · exact absurd hplain.1 (by decide)
    refine .colon ?_ ?_ (hnot _ (Or.inl rfl)) (hnot _ (Or.inr rfl)) ?_ (Or.inr rfl)
    · intro hhead
      cases host with
      | nil => exact hh.ne_nil rfl
      | cons d host =>
        cases hhead
        exact hh.no_bracket.1 List.mem_cons_self
    · simp
    · exact hh.no_colon

theorem core_ne_nil (host : List Char) (s : Spelling) (p : UInt16) : s.core host p ≠ [] := by
  unfold core
  simp

theorem text_written (hh : PlainHost host) (s : Spelling) (p : UInt16) :
    text (s.written host p) = s.core host p := by
  unfold written
  apply text_padded s.front_blank s.back_blank
  · exact fun c hc => core_first hh s p hc
  · exact core_ne_nil host s p
  · exact fun c hc => core_last host s p hc

end Spelling

/-- The texts that the parser reads as a host and a port are the spellings of the two. -/
theorem parse_iff_written {host : List Char} (hh : PlainHost host) {raw : List Char} {p : UInt16} :
    parse_host_authority raw = .ok (host, some p) ↔ ∃ s : Spelling, raw = s.written host p := by
  rw [parse_ok_iff]
  constructor
  · rintro ⟨after, hcut, hp⟩
    obtain ⟨t, rfl, ht⟩ := port_of_iff.mp hp.symm
    obtain ⟨plus, k, rfl⟩ := numeral_text_iff.mp ht
    obtain ⟨ws, ws', n, hws, hws', hraw⟩ := raw_eq raw
    generalize text raw = content at hcut hraw
    cases hcut with
    | bracket _ =>
      refine ⟨⟨ws, true, plus, k, n, ws', hws, hws'⟩, ?_⟩
      rw [hraw]
      simp [Spelling.written, Spelling.core, Spelling.host_text, Spelling.numeral_text]
    | colon _ _ _ _ _ _ =>
      refine ⟨⟨ws, false, plus, k, n, ws', hws, hws'⟩, ?_⟩
      rw [hraw]
      simp [Spelling.written, Spelling.core, Spelling.host_text, Spelling.numeral_text]
  · rintro ⟨s, rfl⟩
    refine ⟨':' :: s.numeral_text p, ?_, ?_⟩
    · rw [Spelling.text_written hh]
      exact Spelling.core_cut hh s p
    · exact (port_of_iff.mpr ⟨_, rfl, numeral_text_iff.mpr ⟨_, _, rfl⟩⟩).symm

example : parse_host_authority "\t[127.0.0.1]:+06188//".toList = .ok (LOCALHOST, some 6188) := by
  decide +kernel

/-- Every spelling of an address is routed to the address. -/
theorem upstream_peer_of_written (self : EdgeCdnProxy) {session : Session} {host : List Char}
    (hh : PlainHost host) {s : Spelling} {p : UInt16}
    (hs : session.host = some (s.written host p)) :
    ∃ peer, self.upstream_peer session = .ok peer ∧ peer.host = host ∧ peer.port = p := by
  have hparse : parse_host_authority (s.written host p) = .ok (host, some p) :=
    (parse_iff_written hh).mpr ⟨s, rfl⟩
  unfold EdgeCdnProxy.upstream_peer
  simp only [hs, parse_host_authority_trim, hparse]
  exact ⟨_, rfl, rfl, rfl⟩

/-! ## The filter -/

theorem written_bare {host : List Char} {s : Spelling} {p : UInt16} :
    s.written host p = host ++ ':' :: decimal p ↔ s.Bare := by
  unfold Spelling.Bare
  constructor
  · intro h
    have hlen := congrArg List.length h
    unfold Spelling.written Spelling.core Spelling.host_text Spelling.numeral_text at hlen
    simp only [List.length_append, List.length_cons, List.length_replicate] at hlen
    cases hb : s.brackets <;> cases hplus : s.plus <;>
      simp only [hb, hplus, if_true, Bool.false_eq_true, if_false, List.length_append,
        List.length_cons, List.length_nil] at hlen
    · refine ⟨List.length_eq_zero_iff.mp ?_, rfl, rfl, ?_, ?_, List.length_eq_zero_iff.mp ?_⟩ <;>
        omega
    all_goals omega
  · rintro ⟨hfront, hbrackets, hplus, hzeros, hslashes, hback⟩
    unfold Spelling.written Spelling.core Spelling.host_text Spelling.numeral_text
    simp [hfront, hbrackets, hplus, hzeros, hslashes, hback]

theorem address_eq (p : UInt16) : EdgeCdnProxy.address p = LOCALHOST ++ ':' :: decimal p := rfl

/-- An address of the proxy has one port only, and is no other spelling of it. -/
theorem bare_of_written {s : Spelling} {p q : UInt16}
    (h : s.written LOCALHOST p = EdgeCdnProxy.address q) : p = q ∧ s.Bare := by
  have hp : parse_host_authority (EdgeCdnProxy.address q) = .ok (LOCALHOST, some p) :=
    (parse_iff_written localhost_plain).mpr ⟨s, h.symm⟩
  have hq : parse_host_authority (EdgeCdnProxy.address q) = .ok (LOCALHOST, some q) := by
    apply (parse_iff_written localhost_plain).mpr
    refine ⟨⟨[], false, false, 0, 0, [], by simp, by simp⟩, ?_⟩
    rw [address_eq, eq_comm]
    apply written_bare.mpr
    exact ⟨rfl, rfl, rfl, rfl, rfl, rfl⟩
  rw [hp] at hq
  cases hq
  exact ⟨rfl, written_bare.mp h⟩

section

variable {Storage Eviction : Type} (tiered_cache : Storage) (eviction_manager : Eviction)

/-- With a Host header that the parser reads as an address of the proxy itself, the filter
leaves the cache of the session disabled. -/
def NeverCached (http https : UInt16) (session : Session) (raw : List Char) : Prop :=
  ∀ p, p = http ∨ p = https → parse_host_authority raw = .ok (LOCALHOST, some p) →
    (EdgeCdnProxy.new http https).request_cache_filter tiered_cache eviction_manager session
      .Disabled = .ok .Disabled

/-- The filter knows the proxy by two texts. -/
theorem filter_disabled_iff {http https : UInt16} {session : Session} {raw : List Char}
    (hs : session.host = some raw) :
    (EdgeCdnProxy.new http https).request_cache_filter tiered_cache eviction_manager session
      .Disabled = .ok .Disabled ↔
      raw = EdgeCdnProxy.address http ∨ raw = EdgeCdnProxy.address https := by
  unfold EdgeCdnProxy.request_cache_filter
  simp only [hs, Option.getD_some]
  have hany : (EdgeCdnProxy.new http https).self_addresses.any (fun addr => addr == raw) = true ↔
      raw = EdgeCdnProxy.address http ∨ raw = EdgeCdnProxy.address https := by
    unfold EdgeCdnProxy.new
    rw [eq_comm (a := raw), eq_comm (a := raw)]
    simp only [List.any_cons, List.any_nil, Bool.or_eq_true, beq_iff_eq, Bool.false_eq_true]
    tauto
  rw [← hany]
  by_cases hself : (EdgeCdnProxy.new http https).self_addresses.any (fun addr => addr == raw) = true
  · simp [hself]
  · simp [hself, HttpCache.enable]

/-- A request for the proxy itself leaves the cache disabled exactly when its Host header, where
it spells an address of the proxy, is the bare spelling: no whitespace around it, no brackets,
no plus sign, no zero in front of the port and no slash behind it. -/
theorem self_requests_are_never_cached_exactly_when_the_address_is_bare (http https : UInt16)
    (session : Session) (raw : List Char) (hs : session.host = some raw) :
    NeverCached tiered_cache eviction_manager http https session raw ↔
      ∀ p, p = http ∨ p = https → ∀ s : Spelling, raw = s.written LOCALHOST p → s.Bare := by
  constructor
  · intro h p hp s hraw
    have hparse : parse_host_authority raw = .ok (LOCALHOST, some p) :=
      (parse_iff_written localhost_plain).mpr ⟨s, hraw⟩
    rcases (filter_disabled_iff tiered_cache eviction_manager hs).mp (h p hp hparse) with hq | hq
    · exact (bare_of_written (hraw.symm.trans hq)).2
    · exact (bare_of_written (hraw.symm.trans hq)).2
  · intro h p hp hparse
    obtain ⟨s, hraw⟩ := (parse_iff_written localhost_plain).mp hparse
    have haddress : raw = EdgeCdnProxy.address p := by
      rw [hraw, address_eq]
      exact written_bare.mpr (h p hp s hraw)
    apply (filter_disabled_iff tiered_cache eviction_manager hs).mpr
    rcases hp with rfl | rfl
    · exact Or.inl haddress
    · exact Or.inr haddress

end

/-- The bare address of one listener is never cached. -/
theorem the_bare_address_is_never_cached :
    NeverCached () () 6188 6143 (request "127.0.0.1:6143".toList "/a".toList)
      "127.0.0.1:6143".toList := by
  have hs : (request "127.0.0.1:6143".toList "/a".toList).host = some "127.0.0.1:6143".toList := by
    decide
  apply (self_requests_are_never_cached_exactly_when_the_address_is_bare () () 6188 6143 _ _
    hs).mpr
  intro p _ s hraw
  have haddress : "127.0.0.1:6143".toList = EdgeCdnProxy.address 6143 := by decide
  exact (bare_of_written (hraw.symm.trans haddress)).2

/-- A slash behind the address, which the parser takes off, is enough: the request goes to the
proxy itself, and the cache is enabled for it. -/
theorem a_slash_behind_the_address_enables_the_cache :
    let session := request "127.0.0.1:6188/".toList "/a".toList
    session.host = some "127.0.0.1:6188/".toList ∧
    parse_host_authority "127.0.0.1:6188/".toList = .ok (LOCALHOST, some 6188) ∧
    (EdgeCdnProxy.new 6188 6143).upstream_peer session = .ok ⟨LOCALHOST, 6188, false, []⟩ ∧
    (EdgeCdnProxy.new 6188 6143).request_cache_filter () () session .Disabled =
      .ok (.Enabled () (some ())) ∧
    ¬ NeverCached () () 6188 6143 session "127.0.0.1:6188/".toList := by
  intro session
  have hparse : parse_host_authority "127.0.0.1:6188/".toList = .ok (LOCALHOST, some 6188) := by
    decide +kernel
  have hfilter : (EdgeCdnProxy.new 6188 6143).request_cache_filter () () session .Disabled =
      .ok (.Enabled () (some ())) := by
    decide +kernel
  refine ⟨by decide, hparse, by rfl, hfilter, ?_⟩
  intro h
  have hdisabled := h 6188 (Or.inl rfl) hparse
  rw [hfilter] at hdisabled
  cases hdisabled

end edge_cdn_store.self_requests
