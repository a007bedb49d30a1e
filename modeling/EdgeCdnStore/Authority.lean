-- What the parser of the Host header takes. It cuts the text at its first bracket or
-- its first colon, and what it cannot read behind the cut it drops. A well-formed
-- authority comes back as it was put together.
import EdgeCdnStore.CacheKeys
import EdgeCdnStore.Numerals

open edge_cdn_store.logger edge_cdn_store.utils edge_cdn_store.proxy edge_cdn_store.numerals

namespace edge_cdn_store.authority

/-! ## Decimal numerals -/

/-- A text of digits only that stands for a port. -/
def Numeral (s : List Char) (p : UInt16) : Prop :=
  s ≠ [] ∧ (∀ c ∈ s, c.isDigit = true) ∧ Nat.ofDigitChars 10 s 0 = p.toNat

/-- The check for overflow at each digit comes to one check at the end. -/
theorem parse_digits_eq_some {s : List Char} {acc n : Nat} (hacc : acc ≤ 65535) :
    parse_digits acc s = some n ↔
      (∀ c ∈ s, c.isDigit = true) ∧ Nat.ofDigitChars 10 s acc = n ∧ n ≤ 65535 := by
  induction s generalizing acc with
  | nil =>
    simp only [parse_digits, Option.some.injEq, List.not_mem_nil, false_imp_iff, implies_true,
      true_and, Nat.ofDigitChars, List.foldl_nil]
    omega
  | cons c s ih =>
    have hle := le_ofDigitChars s (10 * acc + (c.toNat - '0'.toNat))
    rw [Nat.ofDigitChars_cons]
    simp only [parse_digits, List.mem_cons, forall_eq_or_imp]
    rw [Nat.mul_comm acc 10]
    by_cases hc : c.isDigit = true
    · rw [if_pos hc]
      by_cases hfits : 10 * acc + (c.toNat - '0'.toNat) ≤ 65535
      · rw [if_pos hfits, ih hfits]
        tauto
      · rw [if_neg hfits]
        constructor
        · intro h
          cases h
        · intro h
          omega
    · rw [if_neg hc]
      constructor
      · intro h
        cases h
      · intro h
        exact absurd h.1.1 hc

theorem parse_u16_unsigned {s : List Char} (h : s.head? ≠ some '+') :
    parse_u16 s = if s = [] then none else (parse_digits 0 s).map UInt16.ofNat := by
  cases s with
  | nil => rfl
  | cons c rest =>
    have hc : c ≠ '+' := fun heq => h (by rw [heq]; rfl)
    unfold parse_u16
    split
    · simp_all
    · simp_all

/-- Without a sign, the texts that parse to a port are its numerals. -/
theorem unsigned_eq_some {s : List Char} {p : UInt16} :
    (if s = [] then none else (parse_digits 0 s).map UInt16.ofNat) = some p ↔ Numeral s p := by
  unfold Numeral
  by_cases hnil : s = []
  · simp [hnil]
  · rw [if_neg hnil, Option.map_eq_some_iff]
    constructor
    · rintro ⟨n, hn, rfl⟩
      obtain ⟨hs, hval, hle⟩ := (parse_digits_eq_some (Nat.zero_le _)).mp hn
      refine ⟨hnil, hs, ?_⟩
      rw [hval, UInt16.toNat_ofNat_of_lt' (Nat.lt_succ_of_le hle)]
    · rintro ⟨_, hs, hval⟩
      have hlt := p.toNat_lt
      exact ⟨p.toNat, (parse_digits_eq_some (Nat.zero_le _)).mpr ⟨hs, hval, by omega⟩,
        UInt16.ofNat_toNat⟩

/-- A text of digits parses to the port that it stands for. -/
theorem parse_u16_of_digits {s : List Char} (hs : ∀ c ∈ s, c.isDigit = true) (p : UInt16) :
    parse_u16 s = some p ↔ Numeral s p := by
  have hsign : s.head? ≠ some '+' := by
    intro h
    exact absurd (hs '+' (List.mem_of_head? h)) (by decide)
  rw [parse_u16_unsigned hsign, unsigned_eq_some]

/-- The decimal text of a port. -/
def decimal (p : UInt16) : List Char := (toString p.toNat).toList

theorem decimal_digits (p : UInt16) : ∀ c ∈ decimal p, c.isDigit = true := by
  intro c hc
  unfold decimal at hc
  rw [Nat.toString_eq_ofList_toDigits, String.toList_ofList] at hc
  exact Nat.isDigit_of_mem_toDigits (by decide) (by decide) hc

theorem numeral_decimal (p : UInt16) : Numeral (decimal p) p := by
  refine ⟨?_, decimal_digits p, ?_⟩
  · unfold decimal
    rw [Nat.toString_eq_ofList_toDigits, String.toList_ofList]
    exact Nat.toDigits_ne_nil
  · unfold decimal
    rw [Nat.toString_eq_ofList_toDigits, String.toList_ofList,
      Nat.ofDigitChars_toDigits (by decide) (by decide)]

/-! ## The two cuts -/

/-- The text that the parser looks at. -/
def text (raw : List Char) : List Char := trim_end_matches '/' (trim raw)

/-- The port behind a host: whatever is no port is dropped. -/
def port_of (after : List Char) : Option UInt16 := strip_prefix ':' after |>.bind parse_u16

theorem strip_prefix_eq_some {c : Char} {s rest : List Char} :
    strip_prefix c s = some rest ↔ s = c :: rest := by
  unfold strip_prefix
  cases s with
  | nil => simp
  | cons d s =>
    simp only [List.cons.injEq]
    by_cases hd : d = c
    · simp [hd]
    · simp [hd]

theorem strip_prefix_eq_none {c : Char} {s : List Char} :
    strip_prefix c s = none ↔ s.head? ≠ some c := by
  unfold strip_prefix
  cases s with
  | nil => simp
  | cons d s => simp

/-- Where a character is found first, the text is cut. -/
theorem cut_at {c : Char} {s : List Char} {i : Nat} (h : s.findIdx? (· = c) = some i) :
    s = s.take i ++ c :: s.drop (i + 1) ∧ c ∉ s.take i := by
  obtain ⟨hlt, hat, hbefore⟩ := List.findIdx?_eq_some_iff_getElem.mp h
  have hc : s[i] = c := by simpa using hat
  constructor
  · rw [← hc, List.getElem_cons_drop, List.take_append_drop]
  · intro hmem
    obtain ⟨j, hj, hjeq⟩ := List.getElem_of_mem hmem
    rw [List.length_take] at hj
    rw [List.getElem_take] at hjeq
    exact hbefore j (by omega) (by simp [hjeq])

/-- What is behind the first part without a character begins with the character. -/
theorem rest_at (c : Char) (s : List Char) :
    s.dropWhile (· ≠ c) = [] ∨ (s.dropWhile (· ≠ c)).head? = some c := by
  induction s with
  | nil => exact Or.inl rfl
  | cons d s ih =>
    by_cases hd : d = c
    · right
      simp [hd]
    · rw [List.dropWhile_cons_of_pos (by simp [hd])]
      exact ih

theorem findIdx_of_not_mem {c : Char} {s t : List Char} (h : c ∉ s) :
    (s ++ c :: t).findIdx? (· = c) = some s.length := by
  rw [List.findIdx?_eq_some_iff_getElem]
  refine ⟨by simp, by simp, fun j hj => ?_⟩
  rw [List.getElem_append_left hj]
  simp only [decide_eq_true_eq]
  intro heq
  exact h (heq ▸ List.getElem_mem hj)

/-- A text with a bracket in front is cut at its first closing bracket. -/
theorem parse_bracketed {raw content after : List Char}
    (ht : text raw = '[' :: (content ++ ']' :: after)) (hc : ']' ∉ content) :
    parse_host_authority raw = .ok (content, port_of after) := by
  unfold parse_host_authority
  rw [show trim_end_matches '/' (trim raw) = text raw from rfl, ht]
  have hstrip : strip_prefix '[' ('[' :: (content ++ ']' :: after)) =
      some (content ++ ']' :: after) := rfl
  simp only [reduceCtorEq, if_false, hstrip, findIdx_of_not_mem hc, port_of]
  rw [List.take_left, show (content ++ ']' :: after).drop (content.length + 1) = after by simp]

/-- Any other text is cut at its first colon. -/
theorem parse_plain {raw host after : List Char} (ht : text raw = host ++ after)
    (hne : host ++ after ≠ []) (hb : (host ++ after).head? ≠ some '[')
    (hs : '/' ∉ host ++ after ∧ ' ' ∉ host ++ after) (hc : ':' ∉ host)
    (ha : after = [] ∨ after.head? = some ':') :
    parse_host_authority raw = .ok (host, port_of after) := by
  have hstrip : strip_prefix '[' (host ++ after) = none := strip_prefix_eq_none.mpr hb
  have hcut : ∀ c ∈ host, decide (c ≠ ':') = true := by
    intro c hmem
    rw [decide_eq_true_eq]
    rintro rfl
    exact hc hmem
  have hstop : after.takeWhile (· ≠ ':') = [] ∧ after.dropWhile (· ≠ ':') = after := by
    cases after with
    | nil => exact ⟨rfl, rfl⟩
    | cons c rest =>
      rcases ha with ha | ha
      · cases ha
      · cases ha
        simp
  unfold parse_host_authority
  rw [show trim_end_matches '/' (trim raw) = text raw from rfl, ht]
  simp only [if_neg hne, hstrip]
  rw [if_neg (by tauto), List.takeWhile_append_of_pos hcut, List.dropWhile_append_of_pos hcut,
    hstop.1, hstop.2, List.append_nil]
  rfl

/-! ## An authority is read back -/

theorem rdropWhile_append {p : Char → Bool} {s t : List Char} (h : ∀ c ∈ t, p c = true) :
    (s ++ t).rdropWhile p = s.rdropWhile p := by
  unfold List.rdropWhile
  rw [List.reverse_append, List.dropWhile_append_of_pos]
  intro c hc
  exact h c (List.mem_reverse.mp hc)

theorem rdropWhile_of_last {p : Char → Bool} {s : List Char}
    (h : ∀ c, s.getLast? = some c → p c = false) : s.rdropWhile p = s := by
  rw [List.rdropWhile_eq_self_iff]
  intro hne hp
  have := h _ (List.getLast?_eq_some_getLast hne)
  rw [hp] at this
  cases this

theorem dropWhile_of_head {p : Char → Bool} {s : List Char}
    (h : ∀ c, s.head? = some c → p c = false) : s.dropWhile p = s := by
  cases s with
  | nil => rfl
  | cons c s => rw [List.dropWhile_cons_of_neg (by simp [h c rfl])]

/-- The whitespace around a text and the slashes behind it are no part of it. -/
theorem text_padded {ws ws' s : List Char} {n : Nat} (hws : ∀ c ∈ ws, is_whitespace c = true)
    (hws' : ∀ c ∈ ws', is_whitespace c = true)
    (hfirst : ∀ c, s.head? = some c → is_whitespace c = false) (hne : s ≠ [])
    (hlast : ∀ c, s.getLast? = some c → is_whitespace c = false ∧ c ≠ '/') :
    text (ws ++ (s ++ List.replicate n '/') ++ ws') = s := by
  have hfront : (ws ++ (s ++ List.replicate n '/') ++ ws').dropWhile is_whitespace =
      s ++ List.replicate n '/' ++ ws' := by
    rw [List.append_assoc, List.dropWhile_append_of_pos hws]
    apply dropWhile_of_head
    intro c hc
    apply hfirst
    cases s with
    | nil => exact absurd rfl hne
    | cons d s => exact hc
  have hback : (s ++ List.replicate n '/').rdropWhile is_whitespace =
      s ++ List.replicate n '/' := by
    apply rdropWhile_of_last
    intro c hc
    cases n with
    | zero =>
      rw [List.replicate_zero, List.append_nil] at hc
      exact (hlast c hc).1
    | succ n =>
      rw [List.replicate_succ', ← List.append_assoc, List.getLast?_concat, Option.some.injEq] at hc
      rw [← hc]
      decide
  have hslashes : ∀ c ∈ List.replicate n '/', decide (c = '/') = true := by
    intro c hc
    rw [List.eq_of_mem_replicate hc]
    decide
  unfold text trim trim_end_matches
  rw [hfront, rdropWhile_append hws', hback, rdropWhile_append hslashes]
  apply rdropWhile_of_last
  intro c hc
  simpa using (hlast c hc).2

/-- An authority, with the host as it is or in brackets. -/
inductive Host
  | plain (host : List Char)
  | bracketed (content : List Char)
  deriving DecidableEq

namespace Host

def name : Host → List Char
  | .plain host => host
  | .bracketed content => content

def WellFormed : Host → Prop
  | .plain host => host ≠ [] ∧ host.head? ≠ some '[' ∧
      ∀ c ∈ host, is_whitespace c = false ∧ c ≠ '/' ∧ c ≠ ':'
  | .bracketed content => content ≠ [] ∧ ∀ c ∈ content, is_whitespace c = false ∧ c ≠ ']'

def written : Host → List Char
  | .plain host => host
  | .bracketed content => '[' :: (content ++ [']'])

end Host

/-- A colon and a port in decimal, or nothing. -/
def port_text : Option UInt16 → List Char
  | none => []
  | some p => ':' :: decimal p

theorem port_of_port_text (port : Option UInt16) : port_of (port_text port) = port := by
  cases port with
  | none => rfl
  | some p => exact (parse_u16_of_digits (decimal_digits p) p).mpr (numeral_decimal p)

theorem digit_plain {c : Char} (h : c.isDigit = true) : is_whitespace c = false ∧ c ≠ '/' := by
  have hn := digit_range h
  constructor
  · simp [is_whitespace]
    omega
  · rintro rfl
    exact absurd hn.1 (by decide)

/-- The last character of an authority is a digit of its port, or the last one of its host. -/
theorem last_of_written {s : List Char} (port : Option UInt16) {c : Char}
    (h : (s ++ port_text port).getLast? = some c) : c.isDigit = true ∨ s.getLast? = some c := by
  cases port with
  | none =>
    rw [port_text, List.append_nil] at h
    exact Or.inr h
  | some p =>
    left
    have hne : decimal p ≠ [] := (numeral_decimal p).1
    rw [port_text, List.getLast?_append_of_ne_nil _ (List.cons_ne_nil _ _),
      List.getLast?_cons_of_ne_nil hne] at h
    exact decimal_digits p c (List.mem_of_getLast? h)

theorem Host.WellFormed.first {h : Host} (hh : h.WellFormed) (port : Option UInt16) :
    h.written ++ port_text port ≠ [] ∧
    ∀ c, (h.written ++ port_text port).head? = some c → is_whitespace c = false := by
  cases h with
  | plain host =>
    obtain ⟨hne, _, hchars⟩ := hh
    cases host with
    | nil => exact absurd rfl hne
    | cons d host =>
      refine ⟨List.cons_ne_nil _ _, fun c hc => ?_⟩
      cases hc
      exact (hchars d List.mem_cons_self).1
  | bracketed content =>
    refine ⟨List.cons_ne_nil _ _, fun c hc => ?_⟩
    cases hc
    decide

theorem Host.WellFormed.last {h : Host} (hh : h.WellFormed) (port : Option UInt16) {c : Char}
    (hc : (h.written ++ port_text port).getLast? = some c) :
    is_whitespace c = false ∧ c ≠ '/' := by
  rcases last_of_written port hc with hdigit | hlast
  · exact digit_plain hdigit
  · cases h with
    | plain host =>
      obtain ⟨_, _, hchars⟩ := hh
      have := hchars c (List.mem_of_getLast? hlast)
      exact ⟨this.1, this.2.1⟩
    | bracketed content =>
      simp only [Host.written] at hlast
      rw [← List.cons_append, List.getLast?_concat, Option.some.injEq] at hlast
      rw [← hlast]
      decide

/-- A well-formed host with a port or without one is read back, with any whitespace around it
and any number of slashes behind it. -/
theorem a_written_authority_is_read_back (h : Host) (hh : h.WellFormed) (port : Option UInt16)
    (ws ws' : List Char) (hws : ∀ c ∈ ws, is_whitespace c = true)
    (hws' : ∀ c ∈ ws', is_whitespace c = true) (n : Nat) :
    parse_host_authority
      (ws ++ (h.written ++ port_text port ++ List.replicate n '/') ++ ws') =
      .ok (h.name, port) := by
  obtain ⟨hne, hfirst⟩ := hh.first port
  have ht := text_padded (n := n) hws hws' hfirst hne fun c hc => hh.last port hc
  cases h with
  | bracketed content =>
    obtain ⟨_, hchars⟩ := hh
    have hcut : ']' ∉ content := fun hmem => (hchars ']' hmem).2 rfl
    have hwritten : (Host.bracketed content).written ++ port_text port =
        '[' :: (content ++ ']' :: port_text port) := by
      simp [Host.written]
    rw [hwritten] at ht ⊢
    rw [parse_bracketed ht hcut, port_of_port_text]
    rfl
  | plain host =>
    obtain ⟨hhost, hb, hchars⟩ := hh
    -- neither a slash nor a space is in the host or among the digits
    have hplain : ∀ d, d = '/' ∨ d = ' ' → d ∉ host ++ port_text port := by
      intro d hd hmem
      rcases List.mem_append.mp hmem with hmem | hmem
      · have := hchars d hmem
        rcases hd with rfl | rfl
        · exact this.2.1 rfl
        · exact absurd this.1 (by decide)
      · cases port with
        | none => cases hmem
        | some p =>
          rcases List.mem_cons.mp hmem with rfl | hmem
          · rcases hd with hd | hd <;> cases hd
          · have := decimal_digits p d hmem
            rcases hd with rfl | rfl <;> exact absurd this (by decide)
    have hhead : (host ++ port_text port).head? ≠ some '[' := by
      cases host with
      | nil => exact absurd rfl hhost
      | cons d host => exact hb
    have hafter : port_text port = [] ∨ (port_text port).head? = some ':' := by
      cases port with
      | none => exact Or.inl rfl
      | some p => exact Or.inr rfl
    rw [parse_plain ht hne hhead ⟨hplain _ (Or.inl rfl), hplain _ (Or.inr rfl)⟩
      (fun hmem => (hchars ':' hmem).2.2 rfl) hafter, port_of_port_text]
    rfl

theorem a_bracketed_address_is_read_back :
    parse_host_authority " [::1]:6143//\t".toList = .ok ([':', ':', '1'], some 6143) := by
  have htext : [' '] ++ ((Host.bracketed [':', ':', '1']).written ++ port_text (some 6143) ++
      List.replicate 2 '/') ++ ['\t'] = " [::1]:6143//\t".toList := by
    decide +kernel
  have hwell : (Host.bracketed [':', ':', '1']).WellFormed := by
    refine ⟨List.cons_ne_nil _ _, ?_⟩
    simp only [List.forall_mem_cons, List.not_mem_nil, false_imp_iff, implies_true]
    decide
  have hspace : ∀ c, is_whitespace c = true → ∀ d ∈ [c], is_whitespace d = true := by
    intro c hc d hd
    rw [List.mem_singleton.mp hd]
    exact hc
  rw [← htext]
  exact a_written_authority_is_read_back (.bracketed [':', ':', '1']) hwell (some 6143)
    [' '] ['\t'] (hspace _ (by decide)) (hspace _ (by decide)) 2

/-! ## The grammar -/

/-- What may stand behind a host: nothing, or a colon and a port in digits. -/
inductive Behind : List Char → Option UInt16 → Prop
  | nothing : Behind [] none
  | port {digits : List Char} {p : UInt16} : Numeral digits p → Behind (':' :: digits) (some p)

def HostText (host : List Char) : Prop := host ≠ [] ∧ '/' ∉ host ∧ ' ' ∉ host

/-- The grammar: `host`, `host:PORT`, `[host]` or `[host]:PORT`. -/
inductive Reads : List Char → List Char → Option UInt16 → Prop
  | plain {host after : List Char} {port : Option UInt16} :
      HostText host → ':' ∉ host → Behind after port → Reads (host ++ after) host port
  | bracketed {host after : List Char} {port : Option UInt16} :
      HostText host → Behind after port → Reads ('[' :: (host ++ ']' :: after)) host port

/-- What is behind the host is dropped unless it is in the grammar. -/
theorem behind_iff {after : List Char} :
    Behind after (port_of after) ↔ ∃ port, Behind after port := by
  constructor
  · exact fun h => ⟨_, h⟩
  · rintro ⟨port, h⟩
    cases h with
    | nothing => exact .nothing
    | @port digits p hp =>
      have hport : port_of (':' :: digits) = some p := (parse_u16_of_digits hp.2.1 p).mpr hp
      rw [hport]
      exact .port hp

/-- Where a text is cut, with what is in front and what is behind: at the first closing bracket
when it begins with a bracket, else at the first colon, or at the end. -/
inductive Cut : List Char → List Char → List Char → Prop
  | bracket {host after : List Char} : ']' ∉ host → Cut ('[' :: (host ++ ']' :: after)) host after
  | colon {host after : List Char} : (host ++ after).head? ≠ some '[' → host ++ after ≠ [] →
      '/' ∉ host ++ after → ' ' ∉ host ++ after → ':' ∉ host →
      (after = [] ∨ after.head? = some ':') → Cut (host ++ after) host after

/-- The parser takes a text by one of its two cuts. -/
theorem parse_ok_iff {raw host : List Char} {port : Option UInt16} :
    parse_host_authority raw = .ok (host, port) ↔
      ∃ after, Cut (text raw) host after ∧ port = port_of after := by
  constructor
  · intro h
    unfold parse_host_authority at h
    rw [show trim_end_matches '/' (trim raw) = text raw from rfl] at h
    simp only at h
    by_cases hnil : text raw = []
    · rw [if_pos hnil] at h
      cases h
    · rw [if_neg hnil] at h
      cases hstrip : strip_prefix '[' (text raw) with
      | some rest =>
        simp only [hstrip] at h
        cases hfind : rest.findIdx? (· = ']') with
        | none =>
          rw [hfind] at h
          cases h
        | some stop =>
          rw [hfind] at h
          cases h
          obtain ⟨hrest, hcut⟩ := cut_at hfind
          refine ⟨rest.drop (stop + 1), ?_, rfl⟩
          rw [strip_prefix_eq_some.mp hstrip]
          nth_rewrite 1 [hrest]
          exact .bracket hcut
      | none =>
        simp only [hstrip] at h
        by_cases hbad : '/' ∈ text raw ∨ ' ' ∈ text raw
        · rw [if_pos hbad] at h
          cases h
        · rw [if_neg hbad] at h
          cases h
          refine ⟨(text raw).dropWhile (· ≠ ':'), ?_, rfl⟩
          have hsplit : (text raw).takeWhile (· ≠ ':') ++ (text raw).dropWhile (· ≠ ':') =
              text raw := List.takeWhile_append_dropWhile
          have hcolon : ':' ∉ (text raw).takeWhile (· ≠ ':') := by
            intro hmem
            have := List.mem_takeWhile_imp hmem
            simp at this
          have hcut : Cut ((text raw).takeWhile (· ≠ ':') ++ (text raw).dropWhile (· ≠ ':'))
              ((text raw).takeWhile (· ≠ ':')) ((text raw).dropWhile (· ≠ ':')) := by
            apply Cut.colon _ _ _ _ hcolon (rest_at ':' _)
            · rw [hsplit]
              exact strip_prefix_eq_none.mp hstrip
            · rw [hsplit]
              exact hnil
            · rw [hsplit]
              exact fun hs => hbad (Or.inl hs)
            · rw [hsplit]
              exact fun hs => hbad (Or.inr hs)
          rwa [hsplit] at hcut
  · rintro ⟨after, hcut, rfl⟩
    generalize ht : text raw = t at hcut
    cases hcut with
    | bracket hb => exact parse_bracketed ht hb
    | colon hhead hnil hslash hspace hc hafter =>
      exact parse_plain ht hnil hhead ⟨hslash, hspace⟩ hc hafter

/-- A host that has no colon does not stand before its own text in brackets. -/
theorem shifted_ne {host after after' : List Char} {port : Option UInt16} (hc : ':' ∉ host)
    (hb : Behind after' port) : host ++ after' ≠ '[' :: (host ++ ']' :: after) := by
  intro h
  cases hb with
  | nothing =>
    have := congrArg List.length h
    simp only [List.length_append, List.length_cons, List.length_nil] at this
    omega
  | @port digits p hp =>
    have hat := congrArg (fun s => s[host.length]?) h
    simp only [List.getElem?_append_right (Nat.le_refl _), Nat.sub_self,
      List.getElem?_cons_zero] at hat
    cases host with
    | nil =>
      simp at hat
    | cons d host =>
      rw [List.length_cons, List.getElem?_cons_succ,
        List.getElem?_append_left (Nat.lt_succ_self _)] at hat
      exact hc (List.mem_of_getElem? hat.symm)

/-- Where the text was cut, the host is right exactly when it is one and nothing behind it was
dropped. -/
theorem reads_iff {s host after : List Char} (hcut : Cut s host after) :
    Reads s host (port_of after) ↔ HostText host ∧ ∃ port, Behind after port := by
  rw [← behind_iff]
  constructor
  · intro h
    generalize hport : port_of after = port at h ⊢
    cases hcut with
    | bracket hb =>
      generalize hs : '[' :: (host ++ ']' :: after) = s at h
      cases h with
      | plain hhost hc hbehind => exact absurd hs.symm (shifted_ne hc hbehind)
      | bracketed hhost hbehind =>
        cases List.append_cancel_left (List.cons.inj hs).2
        exact ⟨hhost, hbehind⟩
    | colon hhead _ _ _ hc _ =>
      generalize hs : host ++ after = s at h hhead
      cases h with
      | plain hhost _ hbehind =>
        cases List.append_cancel_left hs
        exact ⟨hhost, hbehind⟩
      | bracketed hhost hbehind => exact absurd rfl hhead
  · rintro ⟨hhost, hbehind⟩
    cases hcut with
    | bracket _ => exact .bracketed hhost hbehind
    | colon _ _ _ _ hc _ => exact .plain hhost hc hbehind

/-- What the parser returns is in the grammar. -/
def Kept (raw : List Char) : Prop :=
  ∀ host port, parse_host_authority raw = .ok (host, port) → Reads (text raw) host port

/-- A request with this Host header outside the grammar gets the answer 400. -/
def Refused (self : EdgeCdnProxy) (session : Session) (raw : List Char) : Prop :=
  (¬ ∃ host port, Reads (text raw) host port) →
    ∃ e, self.upstream_peer session = .error e ∧ e.etype = .HTTPStatus 400

theorem kept_iff {raw : List Char} : Kept raw ↔
    ∀ host after, Cut (text raw) host after → HostText host ∧ ∃ port, Behind after port := by
  constructor
  · intro h host after hcut
    exact (reads_iff hcut).mp (h host _ (parse_ok_iff.mpr ⟨after, hcut, rfl⟩))
  · intro h host port hp
    obtain ⟨after, hcut, rfl⟩ := parse_ok_iff.mp hp
    exact (reads_iff hcut).mpr (h host after hcut)

/-- Every error that comes of a Host header is an internal one. -/
theorem upstream_error {self : EdgeCdnProxy} {session : Session} {raw : List Char} {e : Error}
    (hs : session.host = some raw) (h : self.upstream_peer session = .error e) :
    e.etype = .InternalError := by
  unfold EdgeCdnProxy.upstream_peer at h
  simp only [hs] at h
  cases hp : parse_host_authority (trim raw) with
  | error ha_err =>
    rw [hp] at h
    cases h
    rfl
  | ok x =>
    rw [hp] at h
    cases h

theorem refused_iff {self : EdgeCdnProxy} {session : Session} {raw : List Char}
    (hs : session.host = some raw) :
    Refused self session raw ↔ ∃ host port, Reads (text raw) host port := by
  constructor
  · intro h
    by_contra hno
    obtain ⟨e, he, h400⟩ := h hno
    rw [upstream_error hs he] at h400
    cases h400
  · exact fun h hno => absurd h hno

/-- The parser returns what the grammar has exactly when the host that it cuts off is a host
and what it drops behind it is nothing. The answer 400 never comes, so that all is as promised
only where the Host header is in the grammar. -/
theorem the_grammar_is_kept_exactly_when_the_cut_leaves_a_host_and_drops_nothing
    (raw : List Char) :
    (Kept raw ↔
      ∀ host after, Cut (text raw) host after → HostText host ∧ ∃ port, Behind after port) ∧
    ∀ (self : EdgeCdnProxy) (session : Session), session.host = some raw →
      (Refused self session raw ↔ ∃ host port, Reads (text raw) host port) :=
  ⟨kept_iff, fun _ _ hs => refused_iff hs⟩

theorem a_host_with_a_port_is_kept :
    Kept ['a', ':', '8'] ∧
    Refused default_proxy (request ['a', ':', '8'] ['/']) ['a', ':', '8'] := by
  have htext : text ['a', ':', '8'] = ['a', ':', '8'] := by decide
  have hport : Behind [':', '8'] (some 8) :=
    .port ⟨List.cons_ne_nil _ _, by simp, by decide⟩
  have hhost : HostText ['a'] := ⟨List.cons_ne_nil _ _, by decide, by decide⟩
  obtain ⟨hkept, hrefused⟩ :=
    the_grammar_is_kept_exactly_when_the_cut_leaves_a_host_and_drops_nothing ['a', ':', '8']
  constructor
  · rw [hkept, htext]
    intro host after hcut
    have hparse : parse_host_authority ['a', ':', '8'] = .ok (['a'], some 8) := by decide
    have hagain := parse_ok_iff.mpr ⟨after, htext.symm ▸ hcut, rfl⟩
    rw [hparse, Except.ok.injEq, Prod.mk.injEq] at hagain
    obtain ⟨rfl, _⟩ := hagain
    generalize hs : ['a', ':', '8'] = s at hcut
    cases hcut with
    | bracket _ => cases hs
    | colon _ _ _ _ _ _ =>
      cases hs
      exact ⟨hhost, _, hport⟩
  · rw [hrefused _ _ (by decide), htext]
    exact ⟨_, _, .plain hhost (by decide) hport⟩

/-- A port that is none is dropped without an error, and a text that is refused is answered
with an error of another type than 400. -/
theorem a_port_that_is_none_is_dropped_and_a_space_is_no_bad_request :
    parse_host_authority "a:b".toList = .ok (['a'], none) ∧ ¬ Kept "a:b".toList ∧
    (request "a b".toList ['/']).host = some "a b".toList ∧
    ¬ Refused default_proxy (request "a b".toList ['/']) "a b".toList := by
  have hparse : parse_host_authority "a:b".toList = .ok (['a'], none) := by decide
  have hhost : (request "a b".toList ['/']).host = some "a b".toList := by decide
  refine ⟨hparse, fun hkept => ?_, hhost, fun hrefused => ?_⟩
  · have hreads := hkept _ _ hparse
    generalize hs : text "a:b".toList = s at hreads
    rw [show text "a:b".toList = ['a', ':', 'b'] by decide] at hs
    generalize hnone : (none : Option UInt16) = port at hreads
    cases hreads with
    | plain _ _ hbehind =>
      cases hbehind with
      | nothing => cases hs
      | port _ => cases hnone
    | bracketed _ _ => cases hs
  · obtain ⟨host, port, hreads⟩ := (refused_iff hhost).mp hrefused
    generalize hs : text "a b".toList = s at hreads
    rw [show text "a b".toList = ['a', ' ', 'b'] by decide] at hs
    cases hreads with
    | @plain host after port hhost hc hbehind =>
      have hspace : ' ' ∈ host ++ after := by
        rw [← hs]
        decide
      rcases List.mem_append.mp hspace with hmem | hmem
      · exact hhost.2.2 hmem
      · cases hbehind with
        | nothing => cases hmem
        | port hnumeral =>
          rcases List.mem_cons.mp hmem with hmem | hmem
          · cases hmem
          · exact absurd (hnumeral.2.1 ' ' hmem) (by decide)
    | bracketed _ _ => cases hs

end edge_cdn_store.authority
