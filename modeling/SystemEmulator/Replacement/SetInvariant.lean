import SystemEmulator.Replacement.LruMatrix
import Mathlib.Data.List.Range
import Mathlib.Data.Finset.Card

/-!
# The invariant of a cache set

The valid lines of a set, listed by recency, determine which line holds an address, which line is
replaced next, and the contents of the LRU matrix.
-/

namespace SystemEmulator

open Recency

/-- `A` different numbers below `A` are all of them. -/
theorem mem_of_length_eq {A : ℕ} {order : List ℕ} (hnodup : order.Nodup) (hlt : ∀ i ∈ order, i < A)
    (hlength : order.length = A) {i : ℕ} (hi : i < A) : i ∈ order := by
  have hsub : order.toFinset ⊆ Finset.range A := by
    intro j hj
    exact Finset.mem_range.mpr (hlt j (List.mem_toFinset.mp hj))
  have heq : order.toFinset = Finset.range A := by
    apply Finset.eq_of_subset_of_card_le hsub
    rw [Finset.card_range, List.toFinset_card_of_nodup hnodup, hlength]
  exact List.mem_toFinset.mp (heq ▸ Finset.mem_range.mpr hi)

/-- `order` lists the valid lines of a set, most recently accessed first. -/
structure SetInv (A : ℕ) (set : CacheSet) (order : List ℕ) : Prop where
  nodup : order.Nodup
  mem_iff : ∀ i, i ∈ order ↔ i < A ∧ (set.lines i).valid = true
  tag_inj : ∀ i ∈ order, ∀ j ∈ order, (set.lines i).tag = (set.lines j).tag → i = j
  matrix : MatrixOf A order set.lru_matrix
  next_lru : ∀ front last, order = front ++ [last] → order.length = A → set.next_lru = last

theorem setInv_empty (A : ℕ) : SetInv A {} [] where
  nodup := List.nodup_nil
  mem_iff := fun i ↦ by simp
  tag_inj := fun i hi ↦ by cases hi
  matrix := matrixOf_zero A
  next_lru := fun front last h ↦ by simp at h

/-- The set after line `i` has been replaced by `line` and passed to `lru`. -/
def CacheSet.touchLine (set : CacheSet) (A i : ℕ) (line : CacheLine) : CacheSet :=
  { set.putLine i line with
    next_lru := lruSelect A (lruUpdate A i set.lru_matrix)
    lru_matrix := lruUpdate A i set.lru_matrix }

@[simp]
theorem CacheSet.touchLine_lines (set : CacheSet) (A i : ℕ) (line : CacheLine) :
    (set.touchLine A i line).lines = Function.update set.lines i line := rfl

namespace SetInv

variable {A : ℕ} {set : CacheSet} {order : List ℕ}

theorem lt (h : SetInv A set order) {i : ℕ} (hi : i ∈ order) : i < A := ((h.mem_iff i).mp hi).1

theorem toFinset_subset (h : SetInv A set order) : order.toFinset ⊆ Finset.range A := by
  intro i hi
  exact Finset.mem_range.mpr (h.lt (List.mem_toFinset.mp hi))

theorem length_le (h : SetInv A set order) : order.length ≤ A := by
  have hcard := Finset.card_le_card h.toFinset_subset
  rwa [List.toFinset_card_of_nodup h.nodup, Finset.card_range] at hcard

/-- A full set has every line in its order. -/
theorem mem_of_full (h : SetInv A set order) (hfull : order.length = A) {i : ℕ} (hi : i < A) :
    i ∈ order :=
  mem_of_length_eq h.nodup (fun _ hj ↦ h.lt hj) hfull hi

theorem exists_invalid (h : SetInv A set order) (hlt : order.length < A) :
    ∃ i < A, (set.lines i).valid = false := by
  by_contra hcontra
  have hsub : Finset.range A ⊆ order.toFinset := by
    intro i hi
    rw [Finset.mem_range] at hi
    refine List.mem_toFinset.mpr ((h.mem_iff i).mpr ⟨hi, ?_⟩)
    by_contra hinvalid
    exact hcontra ⟨i, hi, by simpa using hinvalid⟩
  have hcard := Finset.card_le_card hsub
  rw [List.toFinset_card_of_nodup h.nodup, Finset.card_range] at hcard
  omega

/-- Accessing a line keeps the invariant, as long as its tag is not used by another line. -/
theorem touchLine (h : SetInv A set order) (hA : A ≤ 8) {i : ℕ} (hi : i < A) {line : CacheLine}
    (hvalid : line.valid = true)
    (htag : ∀ j ∈ order, j ≠ i → (set.lines j).tag ≠ line.tag) :
    SetInv A (set.touchLine A i line) (touch i order) where
  nodup := nodup_touch h.nodup i
  mem_iff := by
    intro j
    rw [mem_touch, h.mem_iff j]
    by_cases hj : j = i
    · simp [hj, hi, hvalid]
    · simp [hj]
  tag_inj := by
    intro j hj k hk heq
    rw [mem_touch] at hj hk
    by_cases hji : j = i <;> by_cases hki : k = i
    · rw [hji, hki]
    · have hk' := hk.resolve_left hki
      simp [hji, Function.update_of_ne hki] at heq
      exact absurd heq.symm (htag k hk' hki)
    · have hj' := hj.resolve_left hji
      simp [hki, Function.update_of_ne hji] at heq
      exact absurd heq (htag j hj' hji)
    · simp [Function.update_of_ne hji, Function.update_of_ne hki] at heq
      exact h.tag_inj j (hj.resolve_left hji) k (hk.resolve_left hki) heq
  matrix := h.matrix.lruUpdate hA hi
  next_lru := by
    intro front last hsplit hlength
    have hnodup := nodup_touch h.nodup i
    have hlt : ∀ j ∈ touch i order, j < A := by
      intro j hj
      rcases mem_touch.mp hj with rfl | hj
      · exact hi
      · exact h.lt hj
    have hall : ∀ j, j ∈ touch i order ↔ j < A :=
      fun j ↦ ⟨hlt j, mem_of_length_eq hnodup hlt hlength⟩
    exact (h.matrix.lruUpdate hA hi).lruSelect_last hA hnodup hall hsplit

end SetInv

/-! ## Finding a line -/

theorem getLine_eq_some {cache : Cache} {addr : BitVec 64} {order : List ℕ}
    (h : SetInv cache.A (cache.getSet addr) order) {i : ℕ} :
    getLine cache addr = some i ↔
      i ∈ order ∧ ((cache.getSet addr).lines i).tag = cache.tagOf addr := by
  unfold getLine
  constructor
  · intro hfind
    have hmem := List.mem_range.mp (List.mem_of_find?_eq_some hfind)
    have hline := List.find?_some hfind
    simp only [Bool.and_eq_true, beq_iff_eq] at hline
    exact ⟨(h.mem_iff i).mpr ⟨hmem, hline.1⟩, hline.2⟩
  · rintro ⟨hi, htag⟩
    obtain ⟨hlt, hvalid⟩ := (h.mem_iff i).mp hi
    cases hfind : (List.range cache.A).find? fun j ↦
        ((cache.getSet addr).lines j).valid &&
          ((cache.getSet addr).lines j).tag == cache.tagOf addr with
    | none =>
      have hnone := List.find?_eq_none.mp hfind i (List.mem_range.mpr hlt)
      simp [hvalid, htag] at hnone
    | some j =>
      have hmem := List.mem_range.mp (List.mem_of_find?_eq_some hfind)
      have hline := List.find?_some hfind
      simp only [Bool.and_eq_true, beq_iff_eq] at hline
      have hj : j ∈ order := (h.mem_iff j).mpr ⟨hmem, hline.1⟩
      rw [h.tag_inj j hj i hi (hline.2.trans htag.symm)]

theorem getLine_eq_none {cache : Cache} {addr : BitVec 64} {order : List ℕ}
    (h : SetInv cache.A (cache.getSet addr) order) :
    getLine cache addr = none ↔
      ∀ i ∈ order, ((cache.getSet addr).lines i).tag ≠ cache.tagOf addr := by
  constructor
  · intro hnone i hi htag
    rw [(getLine_eq_some h).mpr ⟨hi, htag⟩] at hnone
    cases hnone
  · intro hall
    cases hline : getLine cache addr with
    | none => rfl
    | some i =>
      obtain ⟨hi, htag⟩ := (getLine_eq_some h).mp hline
      exact absurd htag (hall i hi)

/-- A set that is not full offers an invalid line. -/
theorem selectLine_of_lt {cache : Cache} {addr : BitVec 64} {order : List ℕ}
    (h : SetInv cache.A (cache.getSet addr) order) (hlt : order.length < cache.A) :
    selectLine cache addr < cache.A ∧ selectLine cache addr ∉ order := by
  unfold selectLine
  obtain ⟨i, hi, hinvalid⟩ := h.exists_invalid hlt
  cases hfind : (List.range cache.A).find? fun j ↦ !((cache.getSet addr).lines j).valid with
  | none =>
    have hnone := List.find?_eq_none.mp hfind i (List.mem_range.mpr hi)
    simp [hinvalid] at hnone
  | some j =>
    have hmem := List.mem_range.mp (List.mem_of_find?_eq_some hfind)
    have hline := List.find?_some hfind
    refine ⟨hmem, fun hj ↦ ?_⟩
    have hvalid := ((h.mem_iff j).mp hj).2
    simp [hvalid] at hline

/-- A full set offers the line accessed least recently. -/
theorem selectLine_of_full {cache : Cache} {addr : BitVec 64} {order : List ℕ}
    (h : SetInv cache.A (cache.getSet addr) order) (hA : 1 ≤ cache.A)
    (hfull : order.length = cache.A) : ∃ front, order = front ++ [selectLine cache addr] := by
  have hnone :
      (List.range cache.A).find? (fun j ↦ !((cache.getSet addr).lines j).valid) = none := by
    refine List.find?_eq_none.mpr fun j hj ↦ ?_
    have hvalid := ((h.mem_iff j).mp (h.mem_of_full hfull (List.mem_range.mp hj))).2
    simp [hvalid]
  rcases List.eq_nil_or_concat order with hnil | ⟨front, last, hsplit⟩
  · rw [hnil] at hfull
    simp at hfull
    omega
  · rw [List.concat_eq_append] at hsplit
    refine ⟨front, ?_⟩
    unfold selectLine
    rw [hnone, Option.getD_none, h.next_lru front last hsplit hfull]
    exact hsplit

theorem selectLine_lt {cache : Cache} {addr : BitVec 64} {order : List ℕ}
    (h : SetInv cache.A (cache.getSet addr) order) (hA : 1 ≤ cache.A) :
    selectLine cache addr < cache.A := by
  rcases Nat.lt_or_ge order.length cache.A with hlt | hge
  · exact (selectLine_of_lt h hlt).1
  · obtain ⟨front, hsplit⟩ := selectLine_of_full h hA (le_antisymm h.length_le hge)
    exact h.lt (hsplit ▸ List.mem_append_right _ (List.mem_singleton_self _))

/-! ## The two outcomes of an access -/

def CacheLine.access (line : CacheLine) (operation : Operation) : CacheLine :=
  { line with dirty := line.dirty || operation == .write }

theorem checkHit_of_some {cache : Cache} (hA : cache.A ≤ 8) {addr : BitVec 64} {i : ℕ}
    (h : getLine cache addr = some i) (n : Counters) (operation : Operation) :
    checkHit cache n addr operation =
      .ok (true,
        cache.putSet addr ((cache.getSet addr).touchLine cache.A i
          (((cache.getSet addr).lines i).access operation)),
        { n with hit_count := n.hit_count + 1 }) := by
  unfold checkHit lru
  rw [h]
  simp only [hA, ↓reduceIte]
  rfl

theorem checkHit_of_none {cache : Cache} {addr : BitVec 64} (h : getLine cache addr = none)
    (n : Counters) (operation : Operation) :
    checkHit cache n addr operation =
      .ok (false, cache, { n with miss_count := n.miss_count + 1 }) := by
  unfold checkHit
  rw [h]

/-- The line that `handle_miss` evicts, with the block address it reconstructs. -/
def evictedLine (cache : Cache) (addr : BitVec 64) : EvictedLine where
  valid := ((cache.getSet addr).lines (selectLine cache addr)).valid
  dirty := ((cache.getSet addr).lines (selectLine cache addr)).dirty
  block_addr :=
    (((cache.getSet addr).lines (selectLine cache addr)).tag <<< (cache.b + cache.s)) |||
      (((addr >>> cache.b) &&& cache.setMask) <<< cache.b)
  data := ((cache.getSet addr).lines (selectLine cache addr)).data

def missCache (cache : Cache) (addr : BitVec 64) (operation : Operation) (data : ℕ → BitVec 8) :
    Cache :=
  cache.putSet addr ((cache.getSet addr).touchLine cache.A (selectLine cache addr)
    { valid := true, tag := cache.tagOf addr, dirty := operation == .write, data := data })

theorem handleMiss_eq {cache : Cache} (hA : cache.A ≤ 8) (n : Counters) (addr : BitVec 64)
    (operation : Operation) (data : ℕ → BitVec 8) :
    handleMiss cache n addr operation data =
      .ok (evictedLine cache addr, missCache cache addr operation data,
        countEviction n ((cache.getSet addr).lines (selectLine cache addr))) := by
  unfold handleMiss lru
  simp only [hA, ↓reduceIte]
  rfl

end SystemEmulator
