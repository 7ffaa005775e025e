import SystemEmulator.Cache.Cache
import SystemEmulator.Library.Recency
import Mathlib.Tactic.IntervalCases

/-!
# The LRU matrix

`lru` keeps the recency order of the lines of a set in a packed bit matrix: bit `(r, c)` is set when
line `r` was accessed more recently than line `c`.
-/

namespace SystemEmulator

open Recency

def matrixBit (A : ℕ) (m : BitVec 64) (r c : ℕ) : Bool := m.getLsbD (r * A + c)

/-- The matrix holds the recency order of the lines below `A`. -/
def MatrixOf (A : ℕ) (order : List ℕ) (m : BitVec 64) : Prop :=
  ∀ r < A, ∀ c < A, matrixBit A m r c = before order r c

theorem matrixOf_zero (A : ℕ) : MatrixOf A [] 0 := fun r _ c _ ↦ by simp [matrixBit, before]

/-! ## The masks -/

theorem rowMask_getLsbD {A : ℕ} (hA : A ≤ 8) (k : ℕ) : (rowMask A).getLsbD k = decide (k < A) := by
  have hmask : rowMask A = BitVec.ofNat 64 (2 ^ A - 1) := by interval_cases A <;> rfl
  rw [hmask, BitVec.getLsbD_ofNat, Nat.testBit_two_pow_sub_one]
  by_cases hk : k < A
  · simp [hk, show k < 64 by omega]
  · simp [hk]

theorem foldl_or_getLsbD (A access : ℕ) (rows : List ℕ) (mask : BitVec 64) (k : ℕ) :
    (rows.foldl (fun mask r ↦ mask ||| (1#64 <<< (r * A + access))) mask).getLsbD k =
      (mask.getLsbD k || (decide (k < 64) && rows.any fun r ↦ k == r * A + access)) := by
  induction rows generalizing mask with
  | nil => simp
  | cons r rows ih =>
    have hbit : (1#64 <<< (r * A + access)).getLsbD k =
        (decide (k < 64) && k == r * A + access) := by
      rw [BitVec.getLsbD_shiftLeft, BitVec.getLsbD_one]
      by_cases hk : k = r * A + access
      · simp [hk]
      · by_cases hlt : k < r * A + access
        · simp [hk, hlt]
        · simp [hk, show k - (r * A + access) ≠ 0 by omega]
    rw [List.foldl_cons, ih, BitVec.getLsbD_or, hbit, List.any_cons, Bool.and_or_distrib_left,
      Bool.or_assoc]

theorem index_mod {A r c : ℕ} (hc : c < A) : (r * A + c) % A = c := by
  rw [Nat.add_comm, Nat.add_mul_mod_self_right, Nat.mod_eq_of_lt hc]

theorem index_lt {A r c : ℕ} (hA : A ≤ 8) (hr : r < A) (hc : c < A) : r * A + c < 64 := by
  have h : r * A ≤ 7 * 8 := Nat.mul_le_mul (by omega) hA
  omega

/-- The column mask selects one column. -/
theorem matrixBit_colMask {A : ℕ} (hA : A ≤ 8) {access r c : ℕ} (hi : access < A) (hr : r < A)
    (hc : c < A) : matrixBit A (colMask A access) r c = decide (c = access) := by
  unfold matrixBit colMask
  rw [foldl_or_getLsbD]
  simp only [index_lt hA hr hc, decide_true, Bool.true_and]
  rw [show (0 : BitVec 64).getLsbD (r * A + c) = false from BitVec.getLsbD_zero, Bool.false_or]
  by_cases hca : c = access
  · have hany : ((List.range A).any fun r' ↦ r * A + c == r' * A + access) = true :=
      List.any_eq_true.mpr ⟨r, List.mem_range.mpr hr, by simp [hca]⟩
    rw [hany, decide_eq_true hca]
  · have hany : ((List.range A).any fun r' ↦ r * A + c == r' * A + access) = false := by
      refine List.any_eq_false.mpr fun r' _ h ↦ hca ?_
      have hmod := congrArg (· % A) (beq_iff_eq.mp h)
      simpa only [index_mod hc, index_mod hi] using hmod
    rw [hany, decide_eq_false hca]

/-- The shifted row mask selects one row. -/
theorem matrixBit_rowMask {A : ℕ} (hA : A ≤ 8) {r c : ℕ} (hr : r < A) (hc : c < A)
    (access : ℕ) : matrixBit A (rowMask A <<< (access * A)) r c = decide (r = access) := by
  unfold matrixBit
  rw [BitVec.getLsbD_shiftLeft, rowMask_getLsbD hA]
  by_cases hra : r = access
  · subst hra
    simp [index_lt hA hr hc, hc]
  · by_cases hlt : r * A + c < access * A
    · simp [hra, hlt]
    · have hle : access + 1 ≤ r := by
        by_contra hcontra
        have hmul : (r + 1) * A ≤ access * A := Nat.mul_le_mul_right A (by omega)
        rw [Nat.add_mul] at hmul
        omega
      have hmul : (access + 1) * A ≤ r * A := Nat.mul_le_mul_right A hle
      rw [Nat.add_mul] at hmul
      simp [hra, show ¬r * A + c - access * A < A by omega]

/-! ## The two steps of `lru` -/

/-- Accessing a line sets its row and clears its column. -/
theorem matrixBit_lruUpdate {A : ℕ} (hA : A ≤ 8) {access r c : ℕ} (hi : access < A) (hr : r < A)
    (hc : c < A) (m : BitVec 64) : matrixBit A (lruUpdate A access m) r c =
      if c = access then false else if r = access then true else matrixBit A m r c := by
  have hcol := matrixBit_colMask hA hi hr hc
  have hrow := matrixBit_rowMask hA hr hc access
  unfold matrixBit at hcol hrow ⊢
  unfold lruUpdate
  rw [BitVec.getLsbD_and, BitVec.getLsbD_or, BitVec.getLsbD_not, hrow, hcol]
  by_cases hca : c = access
  · simp [hca]
  · by_cases hra : r = access
    · simp [hca, hra, index_lt hA hi hc]
    · simp [hca, hra, index_lt hA hr hc]

/-- `lru` moves the accessed line to the front of the order. -/
theorem MatrixOf.lruUpdate {A : ℕ} (hA : A ≤ 8) {order : List ℕ} {m : BitVec 64}
    (h : MatrixOf A order m) {access : ℕ} (hi : access < A) :
    MatrixOf A (touch access order) (lruUpdate A access m) := by
  intro r hr c hc
  rw [matrixBit_lruUpdate hA hi hr hc, before_touch, h r hr c hc]

theorem row_eq_zero_iff {A : ℕ} (hA : A ≤ 8) (m : BitVec 64) (r : ℕ) :
    (((m >>> (r * A)) &&& rowMask A) == 0) = true ↔ ∀ c < A, matrixBit A m r c = false := by
  rw [beq_iff_eq]
  constructor
  · intro hzero c hc
    have hbit := congrArg (fun v ↦ v.getLsbD c) hzero
    simpa [matrixBit, rowMask_getLsbD hA, hc] using hbit
  · intro hrow
    apply BitVec.eq_of_getLsbD_eq
    intro c _
    by_cases hc : c < A
    · simpa [matrixBit, rowMask_getLsbD hA, hc] using hrow c hc
    · simp [rowMask_getLsbD hA, hc]

/-- When all lines have been accessed, `lru` selects the one accessed least recently. -/
theorem MatrixOf.lruSelect {A : ℕ} (hA : A ≤ 8) {front : List ℕ} {last : ℕ} {m : BitVec 64}
    (h : MatrixOf A (front ++ [last]) m) (hlast : last ∉ front)
    (hall : ∀ i, i ∈ front ++ [last] ↔ i < A) : lruSelect A m = last := by
  have hrow : ∀ r < A, (((m >>> (r * A)) &&& rowMask A) == 0) = true ↔ r = last := by
    intro r hr
    rw [row_eq_zero_iff hA, ← row_zero_iff hlast ((hall r).mpr hr)]
    constructor
    · intro hz c hc
      rw [← h r hr c ((hall c).mp hc), hz c ((hall c).mp hc)]
    · intro hz c hc
      rw [h r hr c hc, hz c ((hall c).mpr hc)]
  have hlt : last < A := (hall last).mp (by simp)
  unfold SystemEmulator.lruSelect
  cases hfind : (List.range A).find? fun r ↦ ((m >>> (r * A)) &&& rowMask A) == 0 with
  | none =>
    have hnone := List.find?_eq_none.mp hfind last (List.mem_range.mpr hlt)
    exact absurd ((hrow last hlt).mpr rfl) hnone
  | some r =>
    have hmem := List.mem_range.mp (List.mem_of_find?_eq_some hfind)
    have hzero := List.find?_some hfind
    exact (hrow r hmem).mp hzero

/-- The last of `A` different lines is the one that `lru` selects. -/
theorem MatrixOf.lruSelect_last {A : ℕ} (hA : A ≤ 8) {order front : List ℕ} {last : ℕ}
    {m : BitVec 64} (h : MatrixOf A order m) (hnodup : order.Nodup)
    (hall : ∀ i, i ∈ order ↔ i < A) (hsplit : order = front ++ [last]) :
    SystemEmulator.lruSelect A m = last := by
  subst hsplit
  have hlast : last ∉ front := fun hmem ↦
    (List.nodup_append.mp hnodup).2.2 last hmem last (List.mem_singleton_self last) rfl
  exact h.lruSelect hA hlast hall

/-- As long as a line has not been accessed, `lru` selects the first such line. -/
theorem MatrixOf.lruSelect_of_notMem {A : ℕ} (hA : A ≤ 8) {order : List ℕ} {m : BitVec 64}
    (h : MatrixOf A order m) {i : ℕ} (hi : i < A) (hnot : i ∉ order)
    (hbelow : ∀ j < i, j ∈ order) : SystemEmulator.lruSelect A m = i := by
  have hzero : (((m >>> (i * A)) &&& rowMask A) == 0) = true := by
    refine (row_eq_zero_iff hA m i).mpr fun c hc ↦ ?_
    rw [h i hi c hc, before_of_notMem hnot]
  have hone : ∀ j < i, ¬(((m >>> (j * A)) &&& rowMask A) == 0) = true := by
    intro j hj hrow
    have hbit := (row_eq_zero_iff hA m j).mp hrow i hi
    rw [h j (hj.trans hi) i hi, before_of_mem_of_notMem (hbelow j hj) hnot] at hbit
    cases hbit
  have hfind : (List.range A).find? (fun r ↦ ((m >>> (r * A)) &&& rowMask A) == 0) = some i :=
    List.find?_range_eq_some.mpr ⟨hzero, List.mem_range.mpr hi, fun j hj ↦ by simpa using hone j hj⟩
  rw [SystemEmulator.lruSelect, hfind, Option.getD_some]

end SystemEmulator
