-- Decimal numerals as lists of characters: reading one from the left never loses value,
-- and a list of digits is the numeral of its value but for zeros in front.
import Mathlib

namespace edge_cdn_store.numerals

theorem digit_range {c : Char} (h : c.isDigit = true) : 48 ≤ c.toNat ∧ c.toNat ≤ 57 := by
  simpa [Char.isDigit, Char.le_def, UInt32.le_iff_toNat_le] using h

theorem digit_of_isDigit {c : Char} (hc : c.isDigit = true) :
    c.toNat - '0'.toNat < 10 ∧ Nat.digitChar (c.toNat - '0'.toNat) = c := by
  have hn := digit_range hc
  have hzero : '0'.toNat = 48 := rfl
  have hlt : c.toNat - '0'.toNat < 10 := by omega
  refine ⟨hlt, Char.toNat_inj.mp ?_⟩
  rw [Nat.toNat_digitChar_of_lt_ten hlt]
  omega

theorem le_ofDigitChars (s : List Char) (acc : Nat) : acc ≤ Nat.ofDigitChars 10 s acc := by
  induction s generalizing acc with
  | nil => exact Nat.le_refl _
  | cons c s ih =>
    rw [Nat.ofDigitChars_cons]
    have := ih (10 * acc + (c.toNat - '0'.toNat))
    omega

/-- Digits behind the numeral of a number that is not zero make the numeral of another. -/
theorem toDigits_append {s : List Char} (hs : ∀ c ∈ s, c.isDigit = true) {n : Nat} (hn : 0 < n) :
    Nat.toDigits 10 n ++ s = Nat.toDigits 10 (Nat.ofDigitChars 10 s n) := by
  induction s generalizing n with
  | nil => rw [List.append_nil, Nat.ofDigitChars_nil]
  | cons c s ih =>
    obtain ⟨hlt, hchar⟩ := digit_of_isDigit (hs c List.mem_cons_self)
    have hstep := Nat.toDigits_append_toDigits (b := 10) (by decide) hn hlt
    rw [Nat.toDigits_of_lt_base hlt, hchar] at hstep
    rw [Nat.ofDigitChars_cons, ← ih (fun d hd => hs d (List.mem_cons_of_mem _ hd)) (by omega),
      ← hstep, List.append_assoc, List.singleton_append]

/-- A text of digits is the numeral of its value, with any number of zeros in front. -/
theorem zeros_and_toDigits {s : List Char} (hne : s ≠ []) (hs : ∀ c ∈ s, c.isDigit = true) :
    ∃ k, s = List.replicate k '0' ++ Nat.toDigits 10 (Nat.ofDigitChars 10 s 0) := by
  induction s with
  | nil => exact absurd rfl hne
  | cons c s ih =>
    have htail : ∀ d ∈ s, d.isDigit = true := fun d hd => hs d (List.mem_cons_of_mem _ hd)
    obtain ⟨hlt, hchar⟩ := digit_of_isDigit (hs c List.mem_cons_self)
    rw [Nat.ofDigitChars_cons]
    by_cases hzero : c = '0'
    · subst hzero
      rw [Nat.mul_zero, Nat.zero_add, Nat.sub_self]
      by_cases hnil : s = []
      · refine ⟨0, ?_⟩
        rw [hnil]
        rfl
      · obtain ⟨k, hk⟩ := ih hnil htail
        refine ⟨k + 1, ?_⟩
        rw [List.replicate_succ, List.cons_append, ← hk]
    · have hpos : 0 < c.toNat - '0'.toNat := by
        apply Nat.pos_of_ne_zero
        intro heq
        apply hzero
        rw [← hchar, heq]
        rfl
      refine ⟨0, ?_⟩
      rw [Nat.mul_zero, Nat.zero_add, ← toDigits_append htail hpos, Nat.toDigits_of_lt_base hlt,
        hchar]
      rfl

/-- The digit texts of a number: its numeral, with any number of zeros in front. -/
theorem digits_iff {s : List Char} {n : Nat} :
    (s ≠ [] ∧ (∀ c ∈ s, c.isDigit = true) ∧ Nat.ofDigitChars 10 s 0 = n) ↔
      ∃ k, s = List.replicate k '0' ++ Nat.toDigits 10 n := by
  constructor
  · rintro ⟨hne, hs, hval⟩
    rw [← hval]
    exact zeros_and_toDigits hne hs
  · rintro ⟨k, rfl⟩
    refine ⟨?_, ?_, ?_⟩
    · intro hnil
      exact Nat.toDigits_ne_nil (List.append_eq_nil_iff.mp hnil).2
    · intro c hc
      rcases List.mem_append.mp hc with hc | hc
      · rw [List.eq_of_mem_replicate hc]
        decide
      · exact Nat.isDigit_of_mem_toDigits (by decide) (by decide) hc
    · rw [Nat.ofDigitChars_append, Nat.ofDigitChars_replicate_zero, Nat.mul_zero,
        Nat.ofDigitChars_toDigits (by decide) (by decide)]

end edge_cdn_store.numerals
