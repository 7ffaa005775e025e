import Mathlib.Data.Nat.Notation
import Mathlib.Tactic.Ring

/-!
# Little-endian words

The 64-bit word spelled by a sequence of bytes, and the bytes of a word.
-/

namespace LittleEndian

/-- The word whose low `n` bytes are `f 0, …, f (n - 1)` and whose other bytes are zero. -/
def word (f : ℕ → BitVec 8) : ℕ → BitVec 64
  | 0 => 0
  | n + 1 => word f n ||| ((f n).setWidth 64 <<< (8 * n))

def byte (v : BitVec 64) (i : ℕ) : BitVec 8 := (v >>> (8 * i)).setWidth 8

theorem word_getLsbD (f : ℕ → BitVec 8) (n i : ℕ) :
    (word f n).getLsbD i = (decide (i < 64 ∧ i < 8 * n) && (f (i / 8)).getLsbD (i % 8)) := by
  induction n with
  | zero => simp [word]
  | succ n ih =>
    simp only [word, BitVec.getLsbD_or, ih, BitVec.getLsbD_shiftLeft, BitVec.getLsbD_setWidth]
    by_cases hword : i < 64
    · by_cases hlow : i < 8 * n
      · simp [hword, hlow, show i < 8 * (n + 1) by omega]
      · by_cases hbyte : i < 8 * (n + 1)
        · have hdiv : i / 8 = n := by omega
          have hmod : i % 8 = i - 8 * n := by omega
          simp [hword, hlow, hbyte, hdiv, hmod, show i - 8 * n < 64 by omega]
        · have hzero : (f n).getLsbD (i - 8 * n) = false :=
            BitVec.getLsbD_of_ge _ _ (by omega)
          simp [hlow, hbyte, hzero]
    · simp [hword]

theorem byte_getLsbD (v : BitVec 64) (i j : ℕ) :
    (byte v i).getLsbD j = (decide (j < 8) && v.getLsbD (8 * i + j)) := by
  simp [byte]

/-- The low bytes of a word are the bytes that spell it. -/
theorem byte_word (f : ℕ → BitVec 8) {n i : ℕ} (hi : i < n) (hn : n ≤ 8) :
    byte (word f n) i = f i := by
  apply BitVec.eq_of_getLsbD_eq
  intro j hj
  rw [byte_getLsbD, word_getLsbD, show (8 * i + j) / 8 = i by omega,
    show (8 * i + j) % 8 = j by omega]
  simp [hj, show 8 * i + j < 64 by omega, show 8 * i + j < 8 * n by omega]

/-- A word is spelled by its own bytes, up to truncation. -/
theorem word_byte_getLsbD (v : BitVec 64) (n i : ℕ) :
    (word (byte v) n).getLsbD i = (decide (i < 8 * n) && v.getLsbD i) := by
  rw [word_getLsbD, byte_getLsbD, show 8 * (i / 8) + i % 8 = i by omega]
  by_cases hword : i < 64
  · simp [hword, Nat.mod_lt]
  · simp [hword, BitVec.getLsbD_of_ge v i (by omega)]

theorem word_byte (v : BitVec 64) : word (byte v) 8 = v := by
  apply BitVec.eq_of_getLsbD_eq
  intro i hi
  rw [word_byte_getLsbD]
  simp [hi]

/-- Only the first `n` bytes matter. -/
theorem word_congr {f g : ℕ → BitVec 8} {n : ℕ} (h : ∀ i < n, f i = g i) : word f n = word g n := by
  induction n with
  | zero => rfl
  | succ n ih =>
    rw [word, word, ih (fun i hi ↦ h i (by omega)), h n (by omega)]

/-- Shifting in a byte from below is a disjunction. -/
theorem shift_add (v : BitVec 64) (b : BitVec 8) :
    (v <<< 8) + b.setWidth 64 = (v <<< 8) ||| b.setWidth 64 := by
  apply BitVec.add_eq_or_of_and_eq_zero
  apply BitVec.eq_of_getLsbD_eq
  intro i hi
  by_cases hlow : i < 8
  · simp [hlow]
  · simp [BitVec.getLsbD_of_ge b i (by omega)]

end LittleEndian
