-- The text functions of `utils.rs`, and of the standard library where it uses
-- them: a text is its list of characters.
import EdgeCdnStore.Logger

open edge_cdn_store.logger

namespace edge_cdn_store.utils

/-- `char::is_whitespace`: the Unicode property White_Space. -/
def is_whitespace (c : Char) : Bool :=
  let n := c.toNat
  (9 ≤ n && n ≤ 13) || n == 0x20 || n == 0x85 || n == 0xA0 || n == 0x1680 ||
    (0x2000 ≤ n && n ≤ 0x200A) || n == 0x2028 || n == 0x2029 || n == 0x202F || n == 0x205F ||
    n == 0x3000

/-- `str::trim` -/
def trim (s : List Char) : List Char := (s.dropWhile is_whitespace).rdropWhile is_whitespace

/-- `str::trim_end_matches` -/
def trim_end_matches (c : Char) (s : List Char) : List Char := s.rdropWhile (· = c)

/-- `str::strip_prefix` -/
def strip_prefix (c : Char) : List Char → Option (List Char)
  | [] => none
  | x :: rest => if x = c then some rest else none

/-- `str::to_ascii_lowercase` -/
def to_ascii_lowercase (s : List Char) : List Char := s.map Char.toLower

/-- `str::eq_ignore_ascii_case` -/
def eq_ignore_ascii_case (a b : List Char) : Bool := to_ascii_lowercase a == to_ascii_lowercase b

/-- `str::contains` -/
def contains (s pat : List Char) : Bool := decide (pat <:+: s)

/-- The decimal digits of a `u16`, with the check for overflow at each digit. -/
def parse_digits : Nat → List Char → Option Nat
  | acc, [] => some acc
  | acc, c :: cs =>
    if c.isDigit then
      let acc := acc * 10 + (c.toNat - '0'.toNat)
      if acc ≤ 65535 then parse_digits acc cs else none
    else none

/-- `str::parse::<u16>`: one plus sign may lead, and at least one digit must follow. -/
def parse_u16 (s : List Char) : Option UInt16 :=
  let digits := match s with
    | '+' :: rest => rest
    | _ => s
  if digits = [] then none else (parse_digits 0 digits).map UInt16.ofNat

/-- A host with its port, from `host[:port]` or `[IPv6]:port`. -/
def parse_host_authority (raw : List Char) : Result (List Char × Option UInt16) :=
  let s := trim_end_matches '/' (trim raw)
  if s = [] then
    e_explain (.HTTPStatus 400) "Host header empty"
  else
    match strip_prefix '[' s with
    | some rest =>
      match rest.findIdx? (· = ']') with
      | some stop =>
        let host := rest.take stop
        let after := rest.drop (stop + 1)
        let port := strip_prefix ':' after |>.bind parse_u16
        .ok (host, port)
      | none => e_explain (.HTTPStatus 400) "Malformed IPv6 address in Host"
    | none =>
      if '/' ∈ s ∨ ' ' ∈ s then
        e_explain (.HTTPStatus 400) "Invalid characters in Host"
      else
        -- `splitn(2, ':')`
        let host := s.takeWhile (· ≠ ':')
        let port := strip_prefix ':' (s.dropWhile (· ≠ ':')) |>.bind parse_u16
        .ok (host, port)

/-- `str::replace`, of one character. -/
def replace (c : Char) (by_ : List Char) (s : List Char) : List Char :=
  s.flatMap fun x => if x = c then by_ else [x]

def html_escape (s : List Char) : List Char :=
  replace '>' "&gt;".toList (replace '<' "&lt;".toList (replace '&' "&amp;".toList s))

/-! ## Whitespace -/

theorem dropWhile_rdropWhile_comm {α : Type} (p : α → Bool) (l : List α)
    (h : l.dropWhile p = l) : (l.rdropWhile p).dropWhile p = l.rdropWhile p := by
  rw [List.dropWhile_eq_self_iff] at h ⊢
  intro hl hp
  have hpre : l.rdropWhile p <+: l := List.rdropWhile_prefix p l
  have hlen : 0 < l.length := Nat.lt_of_lt_of_le hl hpre.length_le
  have hget : (l.rdropWhile p)[0] = l[0] := hpre.getElem hl
  exact h hlen (hget ▸ hp)

/-- A text that is trimmed has nothing left to trim. -/
theorem trim_trim (s : List Char) : trim (trim s) = trim s := by
  unfold trim
  rw [dropWhile_rdropWhile_comm _ _ (List.dropWhile_idempotent _ s), List.rdropWhile_idempotent]

end edge_cdn_store.utils
