import SystemEmulator.Replacement.SetInvariant
import Mathlib.Order.Bounds.Defs

/-!
# The history of a set

Applied to one access after the other, `lru` keeps in its matrix which lines have been accessed
since the last access to a line, and returns the line whose last access is oldest.
-/

namespace SystemEmulator

open Recency

/-- `lru` on one access after the other, from the sentinel and the zero matrix of `create_cache`. -/
def lruRun (A : ℕ) (accesses : List ℕ) : Except Crash (ℕ × BitVec 64) :=
  accesses.foldlM (fun state access ↦ lru A access state.2) (2 ^ 64 - 1, 0)

/-! ## The bits outside the matrix -/

/-- The bits from `A * A` on, which are not entries of the matrix, are zero. -/
def HighZero (A : ℕ) (m : BitVec 64) : Prop := ∀ k, A * A ≤ k → m.getLsbD k = false

theorem highZero_zero (A : ℕ) : HighZero A 0 := fun _ _ ↦ BitVec.getLsbD_zero

/-- The row of a line ends below `A * A`. -/
theorem row_end_le {A access : ℕ} (hi : access < A) : access * A + A ≤ A * A := by
  rw [← Nat.succ_mul]
  exact Nat.mul_le_mul_right A hi

/-- Setting a row of the matrix sets no bit outside it; clearing a column sets no bit at all. -/
theorem HighZero.lruUpdate {A : ℕ} (hA : A ≤ 8) {access : ℕ} (hi : access < A) {m : BitVec 64}
    (h : HighZero A m) : HighZero A (lruUpdate A access m) := by
  intro k hk
  have hend := row_end_le hi
  have hrow : (rowMask A <<< (access * A)).getLsbD k = false := by
    rw [BitVec.getLsbD_shiftLeft, rowMask_getLsbD hA]
    simp [show ¬k - access * A < A by omega]
  rw [SystemEmulator.lruUpdate, BitVec.getLsbD_and, BitVec.getLsbD_or, h k hk, hrow]
  rfl

/-! ## The run -/

/-- What a sequence of accesses has left: the matrix of their order, and the line selected last. -/
structure LruState (A : ℕ) (accesses : List ℕ) (next : ℕ) (m : BitVec 64) : Prop where
  matrix : MatrixOf A (order accesses) m
  high : HighZero A m
  next : accesses ≠ [] → next = lruSelect A m

/-- No access is rejected, and each one adds to the history. -/
theorem lruRun_state {A : ℕ} (hA : A ≤ 8) {accesses : List ℕ} (hlt : ∀ i ∈ accesses, i < A) :
    ∃ next m, lruRun A accesses = .ok (next, m) ∧ LruState A accesses next m := by
  induction accesses using List.reverseRecOn with
  | nil => exact ⟨_, _, rfl, matrixOf_zero A, highZero_zero A, fun hne ↦ absurd rfl hne⟩
  | append_singleton accesses i ih =>
    obtain ⟨next, m, hrun, hstate⟩ := ih fun j hj ↦ hlt j (List.mem_append_left _ hj)
    have hi : i < A := hlt i (List.mem_append_right _ (List.mem_singleton_self i))
    refine ⟨lruSelect A (lruUpdate A i m), lruUpdate A i m, ?_, ?_, ?_, fun _ ↦ rfl⟩
    · rw [lruRun] at hrun ⊢
      rw [List.foldlM_append, hrun]
      simp only [List.foldlM_cons, List.foldlM_nil, lru, if_pos hA]
      rfl
    · rw [order_concat]
      exact hstate.matrix.lruUpdate hA hi
    · exact hstate.high.lruUpdate hA hi

namespace LruState

variable {A : ℕ} {accesses : List ℕ} {next : ℕ} {m : BitVec 64} (h : LruState A accesses next m)
include h

theorem matrixBit_iff {r c : ℕ} (hr : r < A) (hc : c < A) :
    matrixBit A m r c = true ↔ r ≠ c ∧ r ∈ accesses ∧ c ∉ since accesses r := by
  rw [h.matrix r hr c hc]
  exact before_order_iff accesses r c

/-- The first line that has not been accessed is returned. -/
theorem next_of_untouched (hA : A ≤ 8) (hne : accesses ≠ []) (hsome : ∃ i < A, i ∉ accesses) :
    IsLeast {i | i < A ∧ i ∉ accesses} next := by
  classical
  obtain ⟨hi, hnot⟩ := Nat.find_spec hsome
  have hbelow : ∀ j < Nat.find hsome, j ∈ order accesses := by
    intro j hj
    by_contra hcontra
    exact Nat.find_min hsome hj ⟨hj.trans hi, fun hmem ↦ hcontra (mem_order.mpr hmem)⟩
  have hselect := h.matrix.lruSelect_of_notMem hA hi (fun hmem ↦ hnot (mem_order.mp hmem)) hbelow
  rw [h.next hne, hselect]
  exact ⟨⟨hi, hnot⟩, fun j hj ↦ Nat.find_min' hsome hj⟩

/-- Once every line has been accessed, the one that is returned was accessed before all others. -/
theorem next_of_touched (hA : A ≤ 8) (hne : accesses ≠ []) (hlt : ∀ i ∈ accesses, i < A)
    (hall : ∀ i < A, i ∈ accesses) : next < A ∧
      ∀ j < A, j ≠ next → (since accesses j).length < (since accesses next).length := by
  have hmem : ∀ i, i ∈ order accesses ↔ i < A :=
    fun i ↦ mem_order.trans ⟨hlt i, hall i⟩
  rcases List.eq_nil_or_concat (order accesses) with hnil | ⟨front, last, hsplit⟩
  · obtain ⟨i, hi⟩ := List.exists_mem_of_ne_nil accesses hne
    have hcontra := mem_order.mpr hi
    rw [hnil] at hcontra
    cases hcontra
  · rw [List.concat_eq_append] at hsplit
    have hnodup := nodup_order accesses
    have hnext : next = last := by
      rw [h.next hne]
      exact h.matrix.lruSelect_last hA hnodup hmem hsplit
    have hlast : last ∉ front := by
      rw [hsplit] at hnodup
      exact fun hcontra ↦
        List.disjoint_of_nodup_append hnodup hcontra (List.mem_singleton_self last)
    subst hnext
    refine ⟨(hmem next).mp (hsplit ▸ List.mem_append_right _ (List.mem_singleton_self next)), ?_⟩
    intro j hj hjn
    have hfront : j ∈ front := by
      have hj' := (hmem j).mpr hj
      rw [hsplit, List.mem_append, List.mem_singleton] at hj'
      exact hj'.resolve_right hjn
    apply since_lt_of_before
    rw [hsplit]
    exact before_of_mem_front hfront hlast

/-- The line whose last access is oldest is unique. -/
theorem oldest_iff (hA : A ≤ 8) (hne : accesses ≠ []) (hlt : ∀ i ∈ accesses, i < A)
    (hall : ∀ i < A, i ∈ accesses) {i : ℕ} (hi : i < A) :
    (∀ j < A, (since accesses j).length ≤ (since accesses i).length) ↔ i = next := by
  obtain ⟨hnext, hoff⟩ := h.next_of_touched hA hne hlt hall
  constructor
  · intro holdest
    by_contra hcontra
    exact absurd (hoff i hi hcontra) (not_lt.mpr (holdest next hnext))
  · rintro rfl j hj
    by_cases hji : j = i
    · rw [hji]
    · exact (hoff j hj hji).le

end LruState

/-- From a zero matrix, `lru` keeps true recency: entry `(r, c)` is set exactly when line `r` has
been accessed and line `c` has not been accessed since, no other bit is ever set, and the line that
is returned is the first one never accessed, or else the one whose last access is oldest. -/
theorem lruRun_recency {A : ℕ} (hA : A ≤ 8) {accesses : List ℕ} (hlt : ∀ i ∈ accesses, i < A) :
    ∃ next m, lruRun A accesses = .ok (next, m) ∧
      (∀ r < A, ∀ c < A,
        matrixBit A m r c = true ↔ r ≠ c ∧ r ∈ accesses ∧ c ∉ since accesses r) ∧
      (∀ k, A * A ≤ k → m.getLsbD k = false) ∧
      (accesses ≠ [] →
        ((∃ i < A, i ∉ accesses) → IsLeast {i | i < A ∧ i ∉ accesses} next) ∧
        ((∀ i < A, i ∈ accesses) → next < A ∧
          ∀ i < A,
            (∀ j < A, (since accesses j).length ≤ (since accesses i).length) ↔ i = next)) := by
  obtain ⟨next, m, hrun, hstate⟩ := lruRun_state hA hlt
  refine ⟨next, m, hrun, fun r hr c hc ↦ hstate.matrixBit_iff hr hc, hstate.high, fun hne ↦ ?_⟩
  refine ⟨hstate.next_of_untouched hA hne, fun hall ↦ ?_⟩
  refine ⟨(hstate.next_of_touched hA hne hlt hall).1, fun i hi ↦ ?_⟩
  exact hstate.oldest_iff hA hne hlt hall hi

theorem lruRun_recency_two : ∃ next m, lruRun 2 [0, 1, 0] = .ok (next, m) ∧
    matrixBit 2 m 0 1 = true ∧ matrixBit 2 m 1 0 = false ∧ next = 1 := by
  have hlt : ∀ i ∈ [0, 1, 0], i < 2 := by decide
  obtain ⟨next, m, hrun, hbit, -, hnext⟩ := lruRun_recency (show 2 ≤ 8 by decide) hlt
  refine ⟨next, m, hrun, (hbit 0 (by decide) 1 (by decide)).mpr (by decide), ?_, ?_⟩
  · refine Bool.eq_false_iff.mpr fun hcontra ↦ ?_
    exact absurd ((hbit 1 (by decide) 0 (by decide)).mp hcontra) (by decide)
  · obtain ⟨-, holdest⟩ := (hnext (by decide)).2 (by decide)
    exact ((holdest 1 (by decide)).mp (by decide)).symm

end SystemEmulator
