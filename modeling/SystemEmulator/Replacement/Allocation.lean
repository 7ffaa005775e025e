import SystemEmulator.Replacement.Ownership

/-!
# Allocation

The loops of `create_cache` and `create_checkpoint` build a cache from allocations of its own: the
memory that was there before stays as it is, and the new cache has the lines that the loops ask for.
-/

namespace SystemEmulator

namespace Heap

/-- What was allocated in the first memory is still there in the second. -/
structure Extends (heap heap' : Heap) : Prop where
  sets : ∀ p < heap.sets_end, heap'.sets p = heap.sets p
  lines : ∀ p < heap.lines_end, heap'.lines p = heap.lines p
  data : ∀ p < heap.data_end, heap'.data p = heap.data p
  sets_end : heap.sets_end ≤ heap'.sets_end
  lines_end : heap.lines_end ≤ heap'.lines_end
  data_end : heap.data_end ≤ heap'.data_end

namespace Extends

variable {heap heap' : Heap} {cell : CacheCell}

theorem linesPtr_eq (h : heap.Extends heap') (hown : heap.Owns cell) (i : ℕ) :
    heap'.linesPtr cell i = heap.linesPtr cell i := by
  rw [linesPtr, linesPtr, h.sets _ hown.sets_lt]

theorem dataPtr_eq (h : heap.Extends heap') (hown : heap.Owns cell) {i : ℕ} (hi : i < cell.S)
    (j : ℕ) : heap'.dataPtr cell i j = heap.dataPtr cell i j := by
  rw [dataPtr, dataPtr, h.linesPtr_eq hown, h.lines _ (hown.lines_lt i hi)]

/-- The lines of a cache are still there. -/
theorem lineAt_eq (h : heap.Extends heap') (hown : heap.Owns cell) {i j : ℕ} (hi : i < cell.S)
    (hj : j < cell.A) :
    heap'.lineAt (heap'.linesPtr cell i) j = heap.lineAt (heap.linesPtr cell i) j := by
  unfold lineAt
  rw [h.linesPtr_eq hown, h.lines _ (hown.lines_lt i hi)]
  congr 1
  exact h.data _ (hown.data_lt i hi j hj)

theorem cache_eq (h : heap.Extends heap') (hown : heap.Owns cell) :
    heap'.cache cell = heap.cache cell := by
  refine cache_congr fun i hi ↦ setAt_congr (congrFun (h.sets _ hown.sets_lt) i) fun j hj ↦ ?_
  rw [← h.lineAt_eq hown hi hj, h.linesPtr_eq hown]

theorem owns (h : heap.Extends heap') (hown : heap.Owns cell) : heap'.Owns cell where
  sets_lt := lt_of_lt_of_le hown.sets_lt h.sets_end
  lines_lt := by
    intro i hi
    rw [h.linesPtr_eq hown]
    exact lt_of_lt_of_le (hown.lines_lt i hi) h.lines_end
  data_lt := by
    intro i hi j hj
    rw [h.dataPtr_eq hown hi]
    exact lt_of_lt_of_le (hown.data_lt i hi j hj) h.data_end
  lines_inj := by
    intro i hi i' hi' heq
    rw [h.linesPtr_eq hown, h.linesPtr_eq hown] at heq
    exact hown.lines_inj i hi i' hi' heq
  data_inj := by
    intro i hi j hj i' hi' j' hj' heq
    rw [h.dataPtr_eq hown hi, h.dataPtr_eq hown hi'] at heq
    exact hown.data_inj i hi j hj i' hi' j' hj' heq

end Extends

/-! ## The inner loop -/

/-- The memory after `n` rounds of the inner loop. -/
def withLines (heap : Heap) (lines n : ℕ) (content : ℕ → CacheLine) : Heap :=
  { heap with
    lines := Function.update heap.lines lines fun j ↦
      if j < n then
        { valid := (content j).valid, tag := (content j).tag, dirty := (content j).dirty,
          data := heap.data_end + j }
      else heap.lines lines j
    data := fun p ↦
      if heap.data_end ≤ p ∧ p < heap.data_end + n then (content (p - heap.data_end)).data
      else heap.data p
    data_end := heap.data_end + n }

theorem withLines_zero (heap : Heap) (lines : ℕ) (content : ℕ → CacheLine) :
    heap.withLines lines 0 content = heap := by
  unfold withLines
  simp only [Nat.not_lt_zero, ↓reduceIte, Function.update_eq_self, Nat.add_zero]
  congr 1
  funext p
  exact if_neg (by omega)

theorem withLines_data_of_lt (heap : Heap) (lines n : ℕ) (content : ℕ → CacheLine) {p : ℕ}
    (hp : p < heap.data_end) : (heap.withLines lines n content).data p = heap.data p :=
  if_neg (by omega)

theorem withLines_data (heap : Heap) (lines : ℕ) (content : ℕ → CacheLine) {j n : ℕ} (hj : j < n) :
    (heap.withLines lines n content).data (heap.data_end + j) = (content j).data := by
  refine (if_pos (by omega)).trans ?_
  rw [Nat.add_sub_cancel_left]

theorem withLines_lines_of_ne (heap : Heap) {lines p : ℕ} (hp : p ≠ lines) (n : ℕ)
    (content : ℕ → CacheLine) : (heap.withLines lines n content).lines p = heap.lines p :=
  Function.update_of_ne hp _ _

theorem withLines_lines (heap : Heap) (lines : ℕ) (content : ℕ → CacheLine) {j n : ℕ}
    (hj : j < n) : (heap.withLines lines n content).lines lines j =
      { valid := (content j).valid, tag := (content j).tag, dirty := (content j).dirty,
        data := heap.data_end + j } :=
  (congrFun (Function.update_self _ _ _) j).trans (if_pos hj)

theorem allocLine_withLines (heap : Heap) (lines n : ℕ) (content : ℕ → CacheLine) :
    (heap.withLines lines n content).allocLine lines n (content n) =
      heap.withLines lines (n + 1) content := by
  unfold allocLine withLines
  dsimp only
  congr 1
  · rw [Function.update_idem]
    congr 1
    funext j
    rw [Function.update_self]
    rcases Nat.lt_trichotomy j n with hj | rfl | hj
    · rw [Function.update_of_ne (by omega), if_pos hj, if_pos (by omega)]
    · rw [Function.update_self, if_pos (by omega)]
    · rw [Function.update_of_ne (by omega), if_neg (by omega), if_neg (by omega)]
  · funext p
    by_cases hp : p = heap.data_end + n
    · rw [hp, Function.update_self, if_pos (by omega), Nat.add_sub_cancel_left]
    · rw [Function.update_of_ne hp]
      by_cases hold : heap.data_end ≤ p ∧ p < heap.data_end + n
      · rw [if_pos hold, if_pos (by omega)]
      · rw [if_neg hold, if_neg (by omega)]

theorem allocLines_eq {heap : Heap} {lines n : ℕ} {line : Heap → ℕ → CacheLine}
    {content : ℕ → CacheLine}
    (hline : ∀ j < n, line (heap.withLines lines j content) j = content j) :
    heap.allocLines lines n line = heap.withLines lines n content := by
  unfold allocLines
  induction n with
  | zero => exact (withLines_zero heap lines content).symm
  | succ n ih =>
    rw [List.range_succ, List.foldl_append, ih fun j hj ↦ hline j (by omega)]
    rw [List.foldl_cons, List.foldl_nil, hline n (by omega), allocLine_withLines]

/-! ## The outer loop -/

/-- The memory after `n` rounds of the outer loop: the sets have arrays of lines of their own, and
the lines have buffers of their own, numbered in the order of their allocation. -/
structure Built (heap : Heap) (A next_lru : ℕ) (content : ℕ → ℕ → CacheLine) (n : ℕ)
    (heap' : Heap) : Prop where
  kept : heap.Extends heap'
  sets_end : heap'.sets_end = heap.sets_end + 1
  lines_end : heap'.lines_end = heap.lines_end + n
  data_end : heap'.data_end = heap.data_end + n * A
  set : ∀ i < n, heap'.sets heap.sets_end i =
    { lines := heap.lines_end + i, lru_matrix := 0, next_lru := next_lru }
  line : ∀ i < n, ∀ j < A, heap'.lines (heap.lines_end + i) j =
    { valid := (content i j).valid, tag := (content i j).tag, dirty := (content i j).dirty,
      data := heap.data_end + (i * A + j) }
  data : ∀ i < n, ∀ j < A, heap'.data (heap.data_end + (i * A + j)) = (content i j).data

variable {heap heap' : Heap} {A next_lru n : ℕ} {content : ℕ → ℕ → CacheLine}

theorem built_zero (heap : Heap) (A next_lru : ℕ) (content : ℕ → ℕ → CacheLine) :
    heap.Built A next_lru content 0 heap.callocSets where
  kept :=
    { sets := fun p hp ↦ Function.update_of_ne (by omega) _ _
      lines := fun _ _ ↦ rfl
      data := fun _ _ ↦ rfl
      sets_end := Nat.le_succ _
      lines_end := le_rfl
      data_end := le_rfl }
  sets_end := rfl
  lines_end := rfl
  data_end := by rw [Nat.zero_mul]; rfl
  set := fun i hi ↦ by omega
  line := fun i hi ↦ by omega
  data := fun i hi ↦ by omega

/-- The buffers of one set come before those of the next one. -/
theorem buffer_lt {A i j n : ℕ} (hi : i < n) (hj : j < A) : i * A + j < n * A := by
  have hmul : (i + 1) * A ≤ n * A := Nat.mul_le_mul_right A hi
  rw [Nat.add_mul] at hmul
  omega

theorem Built.allocSet (h : heap.Built A next_lru content n heap')
    {line : Heap → ℕ → CacheLine}
    (hline : ∀ heap'', heap.Extends heap'' → ∀ j < A, line heap'' j = content n j) :
    heap.Built A next_lru content (n + 1)
      (heap'.allocSet heap.sets_end A n next_lru line) := by
  have hsets := h.sets_end
  have hlines := h.lines_end
  have hdata := h.data_end
  have hmul : (n + 1) * A = n * A + A := by rw [Nat.add_mul, Nat.one_mul]
  have holdLines : ∀ p ≠ heap'.lines_end,
      (heap'.allocArray heap.sets_end n next_lru).lines p = heap'.lines p :=
    fun p hp ↦ Function.update_of_ne hp _ _
  have hkept : ∀ j, heap.Extends ((heap'.allocArray heap.sets_end n next_lru).withLines
      heap'.lines_end j (content n)) := fun j ↦
    { sets := fun p hp ↦ (Function.update_of_ne (by omega) _ _).trans (h.kept.sets p hp)
      lines := fun p hp ↦ by
        have hne : p ≠ heap'.lines_end := by omega
        rw [withLines_lines_of_ne _ hne, holdLines p hne, h.kept.lines p hp]
      data := fun p hp ↦ by
        have hlt : p < (heap'.allocArray heap.sets_end n next_lru).data_end :=
          lt_of_lt_of_le hp h.kept.data_end
        rw [withLines_data_of_lt _ _ _ _ hlt]
        exact h.kept.data p hp
      sets_end := h.kept.sets_end
      lines_end := le_trans h.kept.lines_end (Nat.le_succ _)
      data_end := le_trans h.kept.data_end (Nat.le_add_right _ _) }
  have hround : heap'.allocSet heap.sets_end A n next_lru line =
      (heap'.allocArray heap.sets_end n next_lru).withLines heap'.lines_end A (content n) :=
    allocLines_eq fun j hj ↦ hline _ (hkept j) j hj
  rw [hround]
  refine ⟨hkept A, hsets, ?_, ?_, ?_, ?_, ?_⟩
  · change heap'.lines_end + 1 = _
    omega
  · change heap'.data_end + A = _
    omega
  · intro i hi
    change Function.update heap'.sets _ _ heap.sets_end i = _
    rw [Function.update_self]
    by_cases hin : i = n
    · rw [hin, Function.update_self, hlines]
    · rw [Function.update_of_ne hin, h.set i (by omega)]
  · intro i hi j hj
    by_cases hin : i = n
    · rw [hin, ← hlines, withLines_lines _ _ _ hj]
      change LineCell.mk _ _ _ (heap'.data_end + j) = _
      rw [hdata, Nat.add_assoc]
    · have hne : heap.lines_end + i ≠ heap'.lines_end := by omega
      rw [withLines_lines_of_ne _ hne, holdLines _ hne, h.line i (by omega) j hj]
  · intro i hi j hj
    by_cases hin : i = n
    · have hnew := withLines_data (heap'.allocArray heap.sets_end n next_lru) heap'.lines_end
        (content n) hj
      rw [hin, ← Nat.add_assoc, ← hdata]
      exact hnew
    · have hlt := buffer_lt (show i < n by omega) hj
      have hold : heap.data_end + (i * A + j) <
          (heap'.allocArray heap.sets_end n next_lru).data_end := by
        change _ < heap'.data_end
        omega
      rw [withLines_data_of_lt _ _ _ _ hold]
      exact h.data i (by omega) j hj

/-- The loops build the lines they ask for; the induction is on the number of sets. -/
theorem built_allocSets {S : ℕ} {line : Heap → ℕ → ℕ → CacheLine}
    (hline : ∀ heap', heap.Extends heap' → ∀ i < S, ∀ j < A, line heap' i j = content i j) :
    heap.Built A next_lru content S (heap.allocSets A S next_lru line) := by
  unfold allocSets
  induction S with
  | zero => exact built_zero heap A next_lru content
  | succ S ih =>
    rw [List.range_succ, List.foldl_append, List.foldl_cons, List.foldl_nil]
    exact (ih fun heap'' h i hi ↦ hline heap'' h i (by omega)).allocSet
      fun heap'' h ↦ hline heap'' h S (by omega)

/-! ## The cache that has been built -/

namespace Built

variable {cell : CacheCell} (h : heap.Built cell.A next_lru content cell.S heap')
  (hsets : cell.sets = heap.sets_end)
include h hsets

theorem linesPtr_eq {i : ℕ} (hi : i < cell.S) : heap'.linesPtr cell i = heap.lines_end + i := by
  rw [linesPtr, hsets, h.set i hi]

theorem dataPtr_eq {i j : ℕ} (hi : i < cell.S) (hj : j < cell.A) :
    heap'.dataPtr cell i j = heap.data_end + (i * cell.A + j) := by
  rw [dataPtr, h.linesPtr_eq hsets hi, h.line i hi j hj]

theorem owns : heap'.Owns cell where
  sets_lt := by
    rw [hsets, h.sets_end]
    exact Nat.lt_succ_self _
  lines_lt := by
    intro i hi
    rw [h.linesPtr_eq hsets hi, h.lines_end]
    omega
  data_lt := by
    intro i hi j hj
    have hlt := buffer_lt hi hj
    rw [h.dataPtr_eq hsets hi hj, h.data_end]
    omega
  lines_inj := by
    intro i hi i' hi' heq
    rw [h.linesPtr_eq hsets hi, h.linesPtr_eq hsets hi'] at heq
    omega
  data_inj := by
    intro i hi j hj i' hi' j' hj' heq
    rw [h.dataPtr_eq hsets hi hj, h.dataPtr_eq hsets hi' hj'] at heq
    rcases Nat.lt_trichotomy i i' with hlt | rfl | hgt
    · have hbuffer := buffer_lt hlt hj
      omega
    · exact ⟨rfl, by omega⟩
    · have hbuffer := buffer_lt hgt hj'
      omega

/-- The allocations of the new cache are no other cache's. -/
theorem separate {cell' : CacheCell} (hown : heap.Owns cell') : heap'.Separate cell' cell where
  sets := by
    rw [hsets]
    exact Nat.ne_of_lt hown.sets_lt
  lines := by
    intro i hi i' hi'
    have hlt := hown.lines_lt i hi
    rw [h.kept.linesPtr_eq hown, h.linesPtr_eq hsets hi']
    omega
  data := by
    intro i hi j hj i' hi' j' hj'
    have hlt := hown.data_lt i hi j hj
    rw [h.kept.dataPtr_eq hown hi, h.dataPtr_eq hsets hi' hj']
    omega

theorem setAt_eq {i : ℕ} (hi : i < cell.S) : heap'.setAt cell i =
    { lines := fun j ↦ if j < cell.A then (content i j).clip cell.B else {}
      lru_matrix := 0
      next_lru := next_lru } := by
  have hset : heap'.sets cell.sets i = _ := hsets ▸ h.set i hi
  unfold setAt
  rw [hset]
  congr 1
  funext j
  by_cases hj : j < cell.A
  · rw [if_pos hj, if_pos hj, lineAt, h.line i hi j hj, h.data i hi j hj]
  · rw [if_neg hj, if_neg hj]

end Built

/-! ## The two functions -/

theorem createCache_built (heap : Heap) (A B C d : ℕ) :
    heap.Built A (2 ^ 64 - 1) (fun _ _ ↦ {}) (numSets A B C) (heap.createCache A B C d).2 :=
  built_allocSets fun _ _ _ _ _ _ ↦ rfl

theorem owns_createCache (heap : Heap) (A B C d : ℕ) :
    (heap.createCache A B C d).2.Owns (heap.createCache A B C d).1 :=
  Built.owns (heap.createCache_built A B C d) rfl

/-- `create_cache` builds an empty cache. -/
theorem cache_createCache (heap : Heap) (A B C d : ℕ) :
    (heap.createCache A B C d).2.cache (heap.createCache A B C d).1 =
      SystemEmulator.createCache A B C d := by
  unfold cache SystemEmulator.createCache
  congr 1
  funext i
  by_cases hi : i < numSets A B C
  · have hset : (heap.createCache A B C d).2.setAt (heap.createCache A B C d).1 i = {} := by
      rw [Built.setAt_eq (heap.createCache_built A B C d) rfl hi]
      congr 1
      funext j
      rw [CacheLine.clip_empty, ite_self]
    exact (if_pos hi).trans hset
  · exact if_neg hi

end Heap

/-- The cache that `create_checkpoint` builds. -/
def Cache.checkpoint (cache : Cache) : Cache :=
  { cache with
    sets := fun i ↦
      if i < cache.S then
        { lines := fun j ↦ ((cache.sets i).lines j).clip 1, lru_matrix := 0, next_lru := 0 }
      else {} }

namespace Heap

variable {heap : Heap} {cell : CacheCell} (hown : heap.Owns cell)
include hown

theorem createCheckpoint_built : heap.Built (heap.createCheckpoint cell).1.A 0
    (fun i j ↦ (heap.lineAt (heap.linesPtr cell i) j).clip 1) (heap.createCheckpoint cell).1.S
    (heap.createCheckpoint cell).2 := by
  refine built_allocSets fun heap' hkept i hi j hj ↦ ?_
  exact congrArg (CacheLine.clip 1) (hkept.lineAt_eq hown hi hj)

theorem owns_createCheckpoint :
    (heap.createCheckpoint cell).2.Owns (heap.createCheckpoint cell).1 :=
  Built.owns (createCheckpoint_built hown) rfl

theorem separate_createCheckpoint :
    (heap.createCheckpoint cell).2.Separate cell (heap.createCheckpoint cell).1 :=
  Built.separate (createCheckpoint_built hown) rfl hown

/-- `create_checkpoint` leaves the original as it is. -/
theorem cache_of_createCheckpoint :
    (heap.createCheckpoint cell).2.cache cell = heap.cache cell :=
  (createCheckpoint_built hown).kept.cache_eq hown

theorem cache_createCheckpoint (hB : 1 ≤ cell.B) :
    (heap.createCheckpoint cell).2.cache (heap.createCheckpoint cell).1 =
      (heap.cache cell).checkpoint := by
  unfold Cache.checkpoint
  change Cache.mk _ _ _ _ _ = Cache.mk _ _ _ _ _
  congr 1
  funext i
  by_cases hi : i < cell.S
  · have hset := Built.setAt_eq (createCheckpoint_built hown) rfl hi
    refine ((if_pos hi).trans hset).trans (Eq.trans ?_ (if_pos hi).symm)
    congr 1
    funext j
    have hsource : (heap.cache cell).sets i = heap.setAt cell i := if_pos hi
    rw [hsource]
    by_cases hj : j < cell.A
    · have hline : (heap.setAt cell i).lines j =
          (heap.lineAt (heap.linesPtr cell i) j).clip cell.B := if_pos hj
      rw [hline, CacheLine.clip_clip_of_ge hB]
      exact (if_pos hj).trans (CacheLine.clip_clip_of_le hB _)
    · have hline : (heap.setAt cell i).lines j = {} := if_neg hj
      rw [hline, CacheLine.clip_empty]
      exact if_neg hj
  · exact (if_neg hi).trans (if_neg hi).symm

end Heap

end SystemEmulator
