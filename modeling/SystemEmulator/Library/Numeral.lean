import Mathlib.Data.Nat.Notation
import Mathlib.Data.List.Basic

/-!
# Numerals

Unsigned numbers in a text.  `Nat.toDigits` writes one as `printf` does, and `scan` reads the digits
at the start of a text as `strtoull` does.
-/

namespace Numeral

/-- The value of a digit, with letters in either case. -/
def digitValue (c : Char) : Option ℕ :=
  if '0' ≤ c ∧ c ≤ '9' then some (c.toNat - '0'.toNat)
  else if 'a' ≤ c ∧ c ≤ 'f' then some (c.toNat - 'a'.toNat + 10)
  else if 'A' ≤ c ∧ c ≤ 'F' then some (c.toNat - 'A'.toNat + 10)
  else none

def digit (b : ℕ) (c : Char) : Option ℕ := (digitValue c).filter fun d ↦ decide (d < b)

/-- Reads the digits at the start of a text behind those of `acc`. -/
def scan (b : ℕ) : ℕ → List Char → ℕ × List Char
  | acc, [] => (acc, [])
  | acc, c :: cs =>
      match digit b c with
      | some d => scan b (acc * b + d) cs
      | none => (acc, c :: cs)

variable {b : ℕ}

theorem scan_cons_of_some {c : Char} {d : ℕ} (h : digit b c = some d) (acc : ℕ) (cs : List Char) :
    scan b acc (c :: cs) = scan b (acc * b + d) cs := by
  rw [scan, h]

theorem scan_cons_of_none {c : Char} (h : digit b c = none) (acc : ℕ) (cs : List Char) :
    scan b acc (c :: cs) = (acc, c :: cs) := by
  rw [scan, h]

theorem digit_digitChar (hb : b ≤ 16) {d : ℕ} (hd : d < b) : digit b d.digitChar = some d := by
  have hvalue : ∀ d < 16, digitValue (Nat.digitChar d) = some d := by decide
  rw [digit, hvalue d (by omega), Option.filter_some, if_pos (decide_eq_true hd)]

/-- Reading a number that has been written. -/
theorem scan_toDigits (hb : 2 ≤ b) (hb' : b ≤ 16) (n : ℕ) (rest : List Char) :
    scan b 0 (Nat.toDigits b n ++ rest) = scan b n rest := by
  induction n using Nat.strongRecOn generalizing rest with
  | ind n ih =>
    rcases Nat.lt_or_ge n b with hlt | hge
    · rw [Nat.toDigits_of_lt_base hlt, List.singleton_append,
        scan_cons_of_some (digit_digitChar hb' hlt), Nat.zero_mul, Nat.zero_add]
    · have hdiv : n / b < n := Nat.div_lt_self (by omega) hb
      have hmod : n % b < b := Nat.mod_lt n (by omega)
      rw [Nat.toDigits_of_base_le hb hge, List.append_assoc, ih _ hdiv, List.singleton_append,
        scan_cons_of_some (digit_digitChar hb' hmod), Nat.div_add_mod']

/-- Leading zeros. -/
theorem scan_replicate_zero (hb : 0 < b) (k : ℕ) (rest : List Char) :
    scan b 0 (List.replicate k '0' ++ rest) = scan b 0 rest := by
  have hzero : digit b '0' = some 0 := by
    rw [digit, show digitValue '0' = some 0 from rfl, Option.filter_some,
      if_pos (decide_eq_true hb)]
  induction k with
  | zero => rfl
  | succ k ih =>
    rw [List.replicate_succ, List.cons_append, scan_cons_of_some hzero, Nat.zero_mul]
    exact ih

/-- Digits and what follows them are told apart. -/
theorem toDigits_append_inj (hb : 2 ≤ b) (hb' : b ≤ 16) {n m : ℕ} {c c' : Char}
    (hc : digit b c = none) (hc' : digit b c' = none) {rest rest' : List Char}
    (h : Nat.toDigits b n ++ c :: rest = Nat.toDigits b m ++ c' :: rest') :
    n = m ∧ c :: rest = c' :: rest' := by
  have hscan := congrArg (scan b 0) h
  rw [scan_toDigits hb hb', scan_toDigits hb hb', scan_cons_of_none hc,
    scan_cons_of_none hc'] at hscan
  exact Prod.mk.inj hscan

theorem isSome_digit_of_mem (hb : 2 ≤ b) (hb' : b ≤ 16) {n : ℕ} {c : Char}
    (h : c ∈ Nat.toDigits b n) : (digit b c).isSome = true := by
  induction n using Nat.strongRecOn with
  | ind n ih =>
    rcases Nat.lt_or_ge n b with hlt | hge
    · rw [Nat.toDigits_of_lt_base hlt, List.mem_singleton] at h
      rw [h, digit_digitChar hb' hlt]
      rfl
    · have hdiv : n / b < n := Nat.div_lt_self (by omega) hb
      have hmod : n % b < b := Nat.mod_lt n (by omega)
      rw [Nat.toDigits_of_base_le hb hge, List.mem_append, List.mem_singleton] at h
      rcases h with hmem | hlast
      · exact ih _ hdiv hmem
      · rw [hlast, digit_digitChar hb' hmod]
        rfl

end Numeral
