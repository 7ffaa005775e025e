import SystemEmulator.Cache.Heap
import SystemEmulator.Replacement.LruCalls
import SystemEmulator.Replacement.Resident

/-!
# Ownership

A cache owns the arrays and buffers it points to.  An allocation belongs to at most one cache, so a
function that writes through the pointers of one cache changes that cache as the model without
pointers says, and no other cache.
-/

namespace SystemEmulator

namespace CacheLine

@[simp]
theorem clip_clip (n : ℕ) (line : CacheLine) : (line.clip n).clip n = line.clip n := by
  unfold clip
  congr 1
  funext k
  by_cases hk : k < n
  · simp [hk]
  · simp [hk]

theorem clip_clip_of_le {m n : ℕ} (h : m ≤ n) (line : CacheLine) :
    (line.clip m).clip n = line.clip m := by
  unfold clip
  congr 1
  funext k
  by_cases hk : k < m
  · simp [hk, show k < n by omega]
  · simp [hk]

theorem clip_clip_of_ge {m n : ℕ} (h : n ≤ m) (line : CacheLine) :
    (line.clip m).clip n = line.clip n := by
  unfold clip
  congr 1
  funext k
  by_cases hk : k < n
  · simp [hk, show k < m by omega]
  · simp [hk]

@[simp]
theorem clip_empty (n : ℕ) : ({} : CacheLine).clip n = {} := by
  unfold clip
  congr 1
  funext k
  exact ite_self _

end CacheLine

namespace Heap

def linesPtr (heap : Heap) (cell : CacheCell) (i : ℕ) : ℕ := (heap.sets cell.sets i).lines

def dataPtr (heap : Heap) (cell : CacheCell) (i j : ℕ) : ℕ :=
  (heap.lines (heap.linesPtr cell i) j).data

/-- What a cache points to has been allocated, and no two of its pointers are the same. -/
structure Owns (heap : Heap) (cell : CacheCell) : Prop where
  sets_lt : cell.sets < heap.sets_end
  lines_lt : ∀ i < cell.S, heap.linesPtr cell i < heap.lines_end
  data_lt : ∀ i < cell.S, ∀ j < cell.A, heap.dataPtr cell i j < heap.data_end
  lines_inj : ∀ i < cell.S, ∀ i' < cell.S,
    heap.linesPtr cell i = heap.linesPtr cell i' → i = i'
  data_inj : ∀ i < cell.S, ∀ j < cell.A, ∀ i' < cell.S, ∀ j' < cell.A,
    heap.dataPtr cell i j = heap.dataPtr cell i' j' → i = i' ∧ j = j'

/-- Two caches point to nothing in common. -/
structure Separate (heap : Heap) (cell cell' : CacheCell) : Prop where
  sets : cell.sets ≠ cell'.sets
  lines : ∀ i < cell.S, ∀ i' < cell'.S, heap.linesPtr cell i ≠ heap.linesPtr cell' i'
  data : ∀ i < cell.S, ∀ j < cell.A, ∀ i' < cell'.S, ∀ j' < cell'.A,
    heap.dataPtr cell i j ≠ heap.dataPtr cell' i' j'

theorem Separate.symm {heap : Heap} {cell cell' : CacheCell} (h : heap.Separate cell cell') :
    heap.Separate cell' cell where
  sets := h.sets.symm
  lines := fun i hi i' hi' ↦ (h.lines i' hi' i hi).symm
  data := fun i hi j hj i' hi' j' hj' ↦ (h.data i' hi' j' hj' i hi j hj).symm

/-! ## Stores leave the pointers alone -/

structure SamePointers (heap heap' : Heap) : Prop where
  sets_end : heap'.sets_end = heap.sets_end
  lines_end : heap'.lines_end = heap.lines_end
  data_end : heap'.data_end = heap.data_end
  linesPtr : heap'.linesPtr = heap.linesPtr
  dataPtr : heap'.dataPtr = heap.dataPtr

namespace SamePointers

variable {heap heap' heap'' : Heap}

theorem trans (h : heap.SamePointers heap') (h' : heap'.SamePointers heap'') :
    heap.SamePointers heap'' where
  sets_end := h'.sets_end.trans h.sets_end
  lines_end := h'.lines_end.trans h.lines_end
  data_end := h'.data_end.trans h.data_end
  linesPtr := h'.linesPtr.trans h.linesPtr
  dataPtr := h'.dataPtr.trans h.dataPtr

theorem owns (h : heap.SamePointers heap') {cell : CacheCell} (hown : heap.Owns cell) :
    heap'.Owns cell where
  sets_lt := h.sets_end ▸ hown.sets_lt
  lines_lt := by
    rw [h.linesPtr, h.lines_end]
    exact hown.lines_lt
  data_lt := by
    rw [h.dataPtr, h.data_end]
    exact hown.data_lt
  lines_inj := by
    rw [h.linesPtr]
    exact hown.lines_inj
  data_inj := by
    rw [h.dataPtr]
    exact hown.data_inj

theorem separate (h : heap.SamePointers heap') {cell cell' : CacheCell}
    (hsep : heap.Separate cell cell') : heap'.Separate cell cell' where
  sets := hsep.sets
  lines := by
    rw [h.linesPtr]
    exact hsep.lines
  data := by
    rw [h.dataPtr]
    exact hsep.data

end SamePointers

theorem samePointers_writeLine (heap : Heap) (cell : CacheCell) (idx i : ℕ) (line : CacheLine) :
    heap.SamePointers (heap.writeLine cell idx i line) where
  sets_end := rfl
  lines_end := rfl
  data_end := rfl
  linesPtr := rfl
  dataPtr := by
    funext cell' i' j'
    change (Function.update heap.lines _ _ (heap.linesPtr cell' i') j').data = _
    by_cases hlines : heap.linesPtr cell' i' = heap.linesPtr cell idx
    · change (Function.update heap.lines (heap.linesPtr cell idx) _ _ j').data = _
      rw [dataPtr, hlines, Function.update_self]
      by_cases hj : j' = i
      · rw [hj, Function.update_self]
        rfl
      · rw [Function.update_of_ne hj]
        rfl
    · change (Function.update heap.lines (heap.linesPtr cell idx) _ _ j').data = _
      rw [Function.update_of_ne hlines]
      rfl

theorem samePointers_writeLru (heap : Heap) (cell : CacheCell) (idx next_lru : ℕ)
    (matrix : BitVec 64) : heap.SamePointers (heap.writeLru cell idx next_lru matrix) := by
  have hlines : (heap.writeLru cell idx next_lru matrix).linesPtr = heap.linesPtr := by
    funext cell' i'
    change (Function.update heap.sets cell.sets _ cell'.sets i').lines = _
    by_cases hsets : cell'.sets = cell.sets
    · rw [linesPtr, hsets, Function.update_self]
      by_cases hi : i' = idx
      · rw [hi, Function.update_self]
      · rw [Function.update_of_ne hi]
    · rw [Function.update_of_ne hsets]
      rfl
  refine ⟨rfl, rfl, rfl, hlines, ?_⟩
  funext cell' i' j'
  change (heap.lines ((heap.writeLru cell idx next_lru matrix).linesPtr cell' i') j').data = _
  rw [hlines]
  rfl

/-! ## What a store changes -/

theorem lineAt_writeLine_of_ne {heap : Heap} {cell : CacheCell} {idx i lines j : ℕ}
    (hne : lines = heap.linesPtr cell idx → j ≠ i)
    (hdata : (heap.lines lines j).data ≠ heap.dataPtr cell idx i) (line : CacheLine) :
    (heap.writeLine cell idx i line).lineAt lines j = heap.lineAt lines j := by
  have hcell : (heap.writeLine cell idx i line).lines lines j = heap.lines lines j := by
    change Function.update heap.lines (heap.linesPtr cell idx) _ lines j = _
    by_cases hlines : lines = heap.linesPtr cell idx
    · rw [hlines, Function.update_self, Function.update_of_ne (hne hlines)]
      rfl
    · rw [Function.update_of_ne hlines]
  have hbuffer : (heap.writeLine cell idx i line).data (heap.lines lines j).data =
      heap.data (heap.lines lines j).data :=
    Function.update_of_ne hdata _ _
  rw [lineAt, lineAt, hcell, hbuffer]

theorem lineAt_writeLine_self (heap : Heap) (cell : CacheCell) (idx i : ℕ) (line : CacheLine) :
    ((heap.writeLine cell idx i line).lineAt (heap.linesPtr cell idx) i).clip cell.B =
      line.clip cell.B := by
  have hcell : (heap.writeLine cell idx i line).lines (heap.linesPtr cell idx) i =
      { valid := line.valid, tag := line.tag, dirty := line.dirty,
        data := heap.dataPtr cell idx i } := by
    change Function.update heap.lines (heap.linesPtr cell idx) _ _ i = _
    rw [Function.update_self, Function.update_self]
    rfl
  have hbuffer : (heap.writeLine cell idx i line).data (heap.dataPtr cell idx i) = fun k ↦
      if k < cell.B then line.data k else heap.data (heap.dataPtr cell idx i) k :=
    Function.update_self _ _ _
  rw [lineAt, hcell]
  unfold CacheLine.clip
  simp only [hbuffer]
  congr 1
  funext k
  by_cases hk : k < cell.B
  · simp [hk]
  · simp [hk]

/-- A cache in which one set has changed. -/
theorem cache_eq_of_setAt {heap heap' : Heap} {cell : CacheCell} {idx : ℕ} {set : CacheSet}
    (hidx : idx < cell.S) (hself : heap'.setAt cell idx = set)
    (hother : ∀ i < cell.S, i ≠ idx → heap'.setAt cell i = heap.setAt cell i) :
    heap'.cache cell =
      { heap.cache cell with sets := Function.update (heap.cache cell).sets idx set } := by
  unfold cache
  congr 1
  funext i
  by_cases hi : i = idx
  · rw [hi, if_pos hidx, Function.update_self]
    exact hself
  · rw [Function.update_of_ne hi]
    by_cases hlt : i < cell.S
    · rw [if_pos hlt, hother i hlt hi]
      exact (if_pos hlt).symm
    · rw [if_neg hlt]
      exact (if_neg hlt).symm

theorem cache_congr {heap heap' : Heap} {cell : CacheCell}
    (h : ∀ i < cell.S, heap'.setAt cell i = heap.setAt cell i) :
    heap'.cache cell = heap.cache cell := by
  unfold cache
  congr 1
  funext i
  by_cases hlt : i < cell.S
  · rw [if_pos hlt, if_pos hlt, h i hlt]
  · rw [if_neg hlt, if_neg hlt]

theorem setAt_congr {heap heap' : Heap} {cell : CacheCell} {i : ℕ}
    (hset : heap'.sets cell.sets i = heap.sets cell.sets i)
    (hlines : ∀ j < cell.A,
      heap'.lineAt (heap.linesPtr cell i) j = heap.lineAt (heap.linesPtr cell i) j) :
    heap'.setAt cell i = heap.setAt cell i := by
  unfold setAt
  rw [hset]
  congr 1
  funext j
  by_cases hj : j < cell.A
  · rw [if_pos hj, if_pos hj]
    exact congrArg _ (hlines j hj)
  · rw [if_neg hj, if_neg hj]

theorem getSet_cache {heap : Heap} {cell : CacheCell} {addr : BitVec 64}
    (hidx : (heap.cache cell).setIndex addr < cell.S) :
    (heap.cache cell).getSet addr = heap.setAt cell ((heap.cache cell).setIndex addr) :=
  if_pos hidx

section

variable {heap : Heap} {cell : CacheCell} (hown : heap.Owns cell) {addr : BitVec 64}
  (hidx : (heap.cache cell).setIndex addr < cell.S) {i : ℕ} (hi : i < cell.A)
include hown hidx hi

theorem cache_writeLine (line : CacheLine) :
    (heap.writeLine cell ((heap.cache cell).setIndex addr) i line).cache cell =
      (heap.cache cell).putSet addr
        (((heap.cache cell).getSet addr).putLine i (line.clip cell.B)) := by
  rw [getSet_cache hidx]
  refine cache_eq_of_setAt hidx ?_ ?_
  · unfold setAt CacheSet.putLine
    congr 1
    funext j
    by_cases hj : j = i
    · rw [hj, if_pos hi, Function.update_self]
      exact lineAt_writeLine_self heap cell _ i line
    · rw [Function.update_of_ne hj]
      by_cases hjA : j < cell.A
      · have hline := lineAt_writeLine_of_ne (fun _ ↦ hj)
          (fun hdata ↦ hj (hown.data_inj _ hidx j hjA _ hidx i hi hdata).2) line
        rw [if_pos hjA]
        exact (congrArg _ hline).trans (if_pos hjA).symm
      · rw [if_neg hjA]
        exact (if_neg hjA).symm
  · intro i' hi' hne
    refine setAt_congr rfl fun j hj ↦ lineAt_writeLine_of_ne ?_ ?_ line
    · exact fun hlines ↦ absurd (hown.lines_inj i' hi' _ hidx hlines) hne
    · exact fun hdata ↦ hne (hown.data_inj i' hi' j hj _ hidx i hi hdata).1

omit hown in
/-- A store to one cache leaves a separate one as it is. -/
theorem cache_writeLine_of_separate {cell' : CacheCell} (hsep : heap.Separate cell' cell)
    (line : CacheLine) :
    (heap.writeLine cell ((heap.cache cell).setIndex addr) i line).cache cell' =
      heap.cache cell' := by
  refine cache_congr fun i' hi' ↦ setAt_congr rfl fun j hj ↦ lineAt_writeLine_of_ne ?_ ?_ line
  · exact fun hlines ↦ absurd hlines (hsep.lines i' hi' _ hidx)
  · exact hsep.data i' hi' j hj _ hidx i hi

end

theorem cache_writeLru {heap : Heap} {cell : CacheCell} {addr : BitVec 64}
    (hidx : (heap.cache cell).setIndex addr < cell.S) (next_lru : ℕ) (matrix : BitVec 64) :
    (heap.writeLru cell ((heap.cache cell).setIndex addr) next_lru matrix).cache cell =
      (heap.cache cell).putSet addr { (heap.cache cell).getSet addr with
        next_lru := next_lru, lru_matrix := matrix } := by
  rw [getSet_cache hidx]
  have hsets : (heap.writeLru cell ((heap.cache cell).setIndex addr) next_lru matrix).sets
      cell.sets = Function.update (heap.sets cell.sets) ((heap.cache cell).setIndex addr)
      { lines := heap.linesPtr cell ((heap.cache cell).setIndex addr)
        lru_matrix := matrix, next_lru := next_lru } :=
    Function.update_self _ _ _
  refine cache_eq_of_setAt hidx ?_ ?_
  · unfold setAt
    rw [hsets, Function.update_self]
    rfl
  · intro i hi hne
    refine setAt_congr ?_ fun _ _ ↦ rfl
    rw [hsets, Function.update_of_ne hne]

theorem cache_writeLru_of_separate {heap : Heap} {cell cell' : CacheCell}
    (hsep : heap.Separate cell' cell) (idx next_lru : ℕ) (matrix : BitVec 64) :
    (heap.writeLru cell idx next_lru matrix).cache cell' = heap.cache cell' := by
  refine cache_congr fun i _ ↦ setAt_congr ?_ fun _ _ ↦ rfl
  exact congrFun (Function.update_of_ne hsep.sets _ _) i

end Heap

end SystemEmulator
