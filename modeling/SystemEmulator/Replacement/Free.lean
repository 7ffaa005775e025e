import SystemEmulator.Cache.Free
import SystemEmulator.Replacement.Checkpoint

/-!
# Programs that use caches

Whatever a program creates, copies, calls and frees, `free_cache` finds every allocation of a cache
in place and frees it once, and what has been allocated for a cache has been freed or belongs to one
cache that is still in use.  The evicted lines that `handle_miss` allocates are not counted.
-/

namespace SystemEmulator

open Heap Relation Release

namespace Heap

/-- The allocations of the cache that `p` points to. -/
def Holds (heap : Heap) (p : ℕ) (cell : CacheCell) : Block → Prop
  | .cache q => q = p
  | .sets q => q = cell.sets
  | .lines q => ∃ i < cell.S, heap.linesPtr cell i = q
  | .data q => ∃ i < cell.S, ∃ j < cell.A, heap.dataPtr cell i j = q

/-- The allocations in the order in which `free_cache` frees them. -/
def blocks (heap : Heap) (p : ℕ) (cell : CacheCell) : List Block :=
  ((List.range cell.S).flatMap fun i ↦
    ((List.range cell.A).flatMap fun j ↦ [.data (heap.dataPtr cell i j)]) ++
      [.lines (heap.linesPtr cell i)]) ++ ([.sets cell.sets] ++ [.cache p])

variable {heap heap' : Heap} {p : ℕ} {cell : CacheCell}

theorem mem_blocks {block : Block} : block ∈ heap.blocks p cell ↔ heap.Holds p cell block := by
  cases block with
  | cache q => simp [blocks, Holds]
  | sets q => simp [blocks, Holds]
  | lines q => simp [blocks, Holds, eq_comm]
  | data q => simp [blocks, Holds, eq_comm]

theorem nodup_data (hown : heap.Owns cell) {i : ℕ} (hi : i < cell.S) :
    ((List.range cell.A).flatMap fun j ↦ [Block.data (heap.dataPtr cell i j)]).Nodup := by
  refine List.nodup_flatMap.mpr ⟨fun j _ ↦ List.nodup_singleton _, ?_⟩
  refine List.nodup_range.pairwise_of_forall_ne fun j hj j' hj' hne ↦ ?_
  have hdata : heap.dataPtr cell i j ≠ heap.dataPtr cell i j' := fun heq ↦
    hne (hown.data_inj i hi j (List.mem_range.mp hj) i hi j' (List.mem_range.mp hj') heq).2
  simpa using hdata.symm

theorem nodup_blocks (hown : heap.Owns cell) : (heap.blocks p cell).Nodup := by
  refine List.nodup_append'.mpr ⟨List.nodup_flatMap.mpr ⟨fun i hi ↦ ?_, ?_⟩, by simp, by simp⟩
  · have hdata := nodup_data hown (List.mem_range.mp hi)
    exact List.nodup_append'.mpr ⟨hdata, List.nodup_singleton _, by simp⟩
  · refine List.nodup_range.pairwise_of_forall_ne fun i hi i' hi' hne ↦ ?_
    rw [List.mem_range] at hi hi'
    have hlines : heap.linesPtr cell i ≠ heap.linesPtr cell i' := fun heq ↦
      hne (hown.lines_inj i hi i' hi' heq)
    have hdata : ∀ j < cell.A, ∀ j' < cell.A,
        heap.dataPtr cell i j ≠ heap.dataPtr cell i' j' := fun j hj j' hj' heq ↦
      hne (hown.data_inj i hi j hj i' hi' j' hj' heq).1
    intro block hblock hblock'
    cases block with
    | cache q => simp at hblock
    | sets q => simp at hblock
    | lines q =>
      have hq : q = heap.linesPtr cell i := by simpa using hblock
      have hq' : q = heap.linesPtr cell i' := by simpa using hblock'
      exact hlines (hq.symm.trans hq')
    | data q =>
      obtain ⟨j, hj, hq⟩ : ∃ j < cell.A, heap.dataPtr cell i j = q := by
        simpa [eq_comm] using hblock
      obtain ⟨j', hj', hq'⟩ : ∃ j < cell.A, heap.dataPtr cell i' j = q := by
        simpa [eq_comm] using hblock'
      exact hdata j hj j' hj' (hq.trans hq'.symm)

/-! ## `free_cache` -/

theorem frees_freeLines (heap : Heap) (p : ℕ) (cell : CacheCell) (i : ℕ) :
    Frees (heap.freeLines p cell i) [.cache p, .sets cell.sets, .lines (heap.linesPtr cell i)]
      ((List.range cell.A).flatMap fun j ↦ [.data (heap.dataPtr cell i j)]) := by
  refine Frees.foldlM (fun j _ ↦ ?_) fun j _ ↦ by simp
  have hfree := Frees.free [.cache p, .sets cell.sets, .lines (heap.linesPtr cell i)]
    (Block.data (heap.dataPtr cell i j))
  have hlines := hfree.use (a := .lines (heap.linesPtr cell i)) (by simp)
  exact (hlines.use (a := .sets cell.sets) (by simp)).use (a := .cache p) (by simp)

/-- The array of lines is still there when it is freed. -/
theorem frees_freeSets (heap : Heap) (p : ℕ) (cell : CacheCell) :
    Frees (heap.freeSets p cell) [.cache p, .sets cell.sets]
      ((List.range cell.S).flatMap fun i ↦
        ((List.range cell.A).flatMap fun j ↦ [.data (heap.dataPtr cell i j)]) ++
          [.lines (heap.linesPtr cell i)]) := by
  refine Frees.foldlM (fun i _ ↦ ?_) fun i _ ↦ by simp
  have hfree := Frees.free [.cache p, .sets cell.sets, .lines (heap.linesPtr cell i)]
    (Block.lines (heap.linesPtr cell i))
  have hlast := (hfree.use (a := .sets cell.sets) (by simp)).use (a := .cache p) (by simp)
  exact ((heap.frees_freeLines p cell i).bind hlast (by simp)).of_subset (by simp)

/-- `free_cache` frees the allocations of the cache. -/
theorem frees_freeCache (heap : Heap) (p : ℕ) (cell : CacheCell) :
    Frees (heap.freeCache p cell) [] (heap.blocks p cell) := by
  have hfree := (Frees.free [Block.cache p] (.sets cell.sets)).bind (Frees.free _ (.cache p))
    (by simp)
  have hlast := hfree.use (a := .cache p) (by simp)
  have hsets := (heap.frees_freeSets p cell).bind (hlast.of_subset (by simp)) (by simp)
  exact (hsets.use (a := .cache p) (by simp)).of_subset (by simp)

/-- A cache that owns its allocations can be freed when none of them has been freed. -/
theorem freeCache_ok (hown : heap.Owns cell) {freed : List Block} (hfreed : freed.Nodup)
    (hlive : ∀ block, heap.Holds p cell block → block ∉ freed) :
    ∃ freed', heap.freeCache p cell freed = .ok freed' ∧
      freed'.Perm (heap.blocks p cell ++ freed) := by
  have hdisjoint : (heap.blocks p cell).Disjoint freed := fun block hblock ↦
    hlive block (mem_blocks.mp hblock)
  exact heap.frees_freeCache p cell freed (List.disjoint_nil_left freed)
    (List.nodup_append'.mpr ⟨nodup_blocks hown, hfreed, hdisjoint⟩)

/-! ## The allocations of a cache -/

theorem holds_of_samePointers (h : heap.SamePointers heap') (p : ℕ) (cell : CacheCell)
    (block : Block) : heap'.Holds p cell block ↔ heap.Holds p cell block := by
  cases block with
  | cache q => rfl
  | sets q => rfl
  | lines q => rw [Holds, Holds, h.linesPtr]
  | data q => rw [Holds, Holds, h.dataPtr]

theorem holds_of_extends (h : heap.Extends heap') (hown : heap.Owns cell) (p : ℕ) (block : Block) :
    heap'.Holds p cell block ↔ heap.Holds p cell block := by
  cases block with
  | cache q => rfl
  | sets q => rfl
  | lines q =>
    refine exists_congr fun i ↦ and_congr_right fun _ ↦ ?_
    rw [h.linesPtr_eq hown]
  | data q =>
    refine exists_congr fun i ↦ and_congr_right fun hi ↦ ?_
    refine exists_congr fun j ↦ and_congr_right fun _ ↦ ?_
    rw [h.dataPtr_eq hown hi]

/-- Two caches hold nothing in common. -/
theorem not_holds_of_separate {cell' : CacheCell} {q : ℕ} (h : heap.Separate cell cell')
    (hne : p ≠ q) {block : Block} (hblock : heap.Holds p cell block) :
    ¬heap.Holds q cell' block := by
  cases block with
  | cache r => exact fun hblock' ↦ hne (hblock.symm.trans hblock')
  | sets r => exact fun hblock' ↦ h.sets (hblock.symm.trans hblock')
  | lines r =>
    obtain ⟨i, hi, hr⟩ := hblock
    rintro ⟨i', hi', hr'⟩
    exact h.lines i hi i' hi' (hr.trans hr'.symm)
  | data r =>
    obtain ⟨i, hi, j, hj, hr⟩ := hblock
    rintro ⟨i', hi', j', hj', hr'⟩
    exact h.data i hi j hj i' hi' j' hj' (hr.trans hr'.symm)

structure Grown (heap heap' : Heap) : Prop where
  sets_end : heap.sets_end ≤ heap'.sets_end
  lines_end : heap.lines_end ≤ heap'.lines_end
  data_end : heap.data_end ≤ heap'.data_end

theorem Grown.trans {heap'' : Heap} (h : heap.Grown heap') (h' : heap'.Grown heap'') :
    heap.Grown heap'' where
  sets_end := Nat.le_trans h.sets_end h'.sets_end
  lines_end := Nat.le_trans h.lines_end h'.lines_end
  data_end := Nat.le_trans h.data_end h'.data_end

theorem Extends.grown (h : heap.Extends heap') : heap.Grown heap' :=
  ⟨h.sets_end, h.lines_end, h.data_end⟩

theorem SamePointers.grown (h : heap.SamePointers heap') : heap.Grown heap' :=
  ⟨h.sets_end.ge, h.lines_end.ge, h.data_end.ge⟩

/-- The allocations that have been made since `memory`, of which `caches_end` are caches. -/
def Allocated (memory heap : Heap) (caches_end : ℕ) : Block → Prop
  | .cache p => p < caches_end
  | .sets p => memory.sets_end ≤ p ∧ p < heap.sets_end
  | .lines p => memory.lines_end ≤ p ∧ p < heap.lines_end
  | .data p => memory.data_end ≤ p ∧ p < heap.data_end

/-- What the loops allocate belongs to the new cache. -/
theorem Built.allocated_iff {memory : Heap} {next_lru n : ℕ} {content : ℕ → ℕ → CacheLine}
    (h : heap.Built cell.A next_lru content cell.S heap') (hsets : cell.sets = heap.sets_end)
    (hmemory : memory.Grown heap) (block : Block) :
    memory.Allocated heap' (n + 1) block ↔
      memory.Allocated heap n block ∨ heap'.Holds n cell block := by
  cases block with
  | cache p => exact Nat.lt_succ_iff_lt_or_eq
  | sets p =>
    have hend := hmemory.sets_end
    simp only [Allocated, Holds, hsets, h.sets_end]
    omega
  | lines p =>
    have hend := hmemory.lines_end
    have hholds : heap'.Holds n cell (.lines p) ↔
        heap.lines_end ≤ p ∧ p < heap.lines_end + cell.S := by
      constructor
      · rintro ⟨i, hi, rfl⟩
        rw [h.linesPtr_eq hsets hi]
        omega
      · rintro ⟨hge, hlt⟩
        refine ⟨p - heap.lines_end, by omega, ?_⟩
        rw [h.linesPtr_eq hsets (by omega)]
        omega
    rw [hholds]
    simp only [Allocated, h.lines_end]
    omega
  | data p =>
    have hend := hmemory.data_end
    have hholds : heap'.Holds n cell (.data p) ↔
        heap.data_end ≤ p ∧ p < heap.data_end + cell.S * cell.A := by
      constructor
      · rintro ⟨i, hi, j, hj, rfl⟩
        have hlt := buffer_lt hi hj
        rw [h.dataPtr_eq hsets hi hj]
        omega
      · rintro ⟨hge, hlt⟩
        have hA : 0 < cell.A := Nat.pos_of_ne_zero fun hzero ↦ by
          rw [hzero, Nat.mul_zero] at hlt
          omega
        have hi : (p - heap.data_end) / cell.A < cell.S :=
          (Nat.div_lt_iff_lt_mul hA).mpr (by omega)
        have hj := Nat.mod_lt (p - heap.data_end) hA
        have hsplit := Nat.div_add_mod' (p - heap.data_end) cell.A
        refine ⟨_, hi, _, hj, ?_⟩
        rw [h.dataPtr_eq hsets hi hj]
        omega
    rw [hholds]
    simp only [Allocated, h.data_end]
    omega

/-- The allocations of a new cache are new. -/
theorem Built.not_holds {memory : Heap} {next_lru n : ℕ} {content : ℕ → ℕ → CacheLine}
    (h : heap.Built cell.A next_lru content cell.S heap') (hsets : cell.sets = heap.sets_end)
    {block : Block} (hblock : memory.Allocated heap n block) : ¬heap'.Holds n cell block := by
  cases block with
  | cache p => exact Nat.ne_of_lt hblock
  | sets p => exact fun hp ↦ Nat.ne_of_lt hblock.2 (hp.trans hsets)
  | lines p =>
    rintro ⟨i, hi, hp⟩
    rw [h.linesPtr_eq hsets hi] at hp
    have hlt := hblock.2
    omega
  | data p =>
    rintro ⟨i, hi, j, hj, hp⟩
    rw [h.dataPtr_eq hsets hi hj] at hp
    have hlt := hblock.2
    omega

theorem Extends.sound {b s : ℕ} (h : heap.Extends heap') (hsound : heap.Sound cell b s) :
    heap'.Sound cell b s := by
  have hcache := h.cache_eq hsound.owns
  refine ⟨h.owns hsound.owns, ?_, ?_⟩
  · rw [hcache]
    exact hsound.valid
  · rw [hcache]
    exact hsound.lruSafe

theorem Extends.separate {cell' : CacheCell} (h : heap.Extends heap') (hown : heap.Owns cell)
    (hown' : heap.Owns cell') (hsep : heap.Separate cell cell') : heap'.Separate cell cell' where
  sets := hsep.sets
  lines := by
    intro i hi i' hi'
    rw [h.linesPtr_eq hown, h.linesPtr_eq hown']
    exact hsep.lines i hi i' hi'
  data := by
    intro i hi j hj i' hi' j' hj'
    rw [h.dataPtr_eq hown hi, h.dataPtr_eq hown' hi']
    exact hsep.data i hi j hj i' hi' j' hj'

theorem SamePointers.allocated_iff (h : heap.SamePointers heap') (memory : Heap) (n : ℕ)
    (block : Block) : memory.Allocated heap' n block ↔ memory.Allocated heap n block := by
  cases block with
  | cache p => rfl
  | sets p => rw [Allocated, Allocated, h.sets_end]
  | lines p => rw [Allocated, Allocated, h.lines_end]
  | data p => rw [Allocated, Allocated, h.data_end]

end Heap

/-! ## Programs -/

/-- A program that uses caches: the caches that it has and the allocations that have been freed. -/
structure CacheProgram where
  heap : Heap
  caches : ℕ → Option CacheCell
  caches_end : ℕ
  freed : List Block

namespace CacheProgram

def start (memory : Heap) : CacheProgram where
  heap := memory
  caches := fun _ ↦ none
  caches_end := 0
  freed := []

def add (program : CacheProgram) (cell : CacheCell) (heap : Heap) : CacheProgram :=
  { program with
    heap := heap
    caches := Function.update program.caches program.caches_end (some cell)
    caches_end := program.caches_end + 1 }

/-- The program calls one of the functions of `cache.h` on a cache that it has. -/
inductive Step (program : CacheProgram) : CacheProgram → Prop where
  | create (config : CacheConfig) :
      Step program (program.add
        (program.heap.createCache config.A config.B config.C config.d).1
        (program.heap.createCache config.A config.B config.C config.d).2)
  | checkpoint {p : ℕ} {cell : CacheCell} (hcell : program.caches p = some cell) :
      Step program (program.add
        (program.heap.createCheckpoint cell).1 (program.heap.createCheckpoint cell).2)
  | call {p : ℕ} {cell : CacheCell} {op : CacheOp} {r : CacheResult} {heap : Heap}
      (hcell : program.caches p = some cell) (hop : op.InBlock cell.B)
      (hcall : program.heap.step cell op = .ok (r, heap)) :
      Step program { program with heap := heap }
  | free {p : ℕ} {cell : CacheCell} {freed : List Block} (hcell : program.caches p = some cell)
      (hfree : program.heap.freeCache p cell program.freed = .ok freed) :
      Step program { program with
        caches := Function.update program.caches p none
        freed := freed }

/-- The caches of a program are in use and have nothing in common, and what has been allocated has
been freed or belongs to one of them. -/
structure Accounted (memory : Heap) (program : CacheProgram) : Prop where
  grown : memory.Grown program.heap
  lt : ∀ p cell, program.caches p = some cell → p < program.caches_end
  sound : ∀ p cell, program.caches p = some cell → ∃ b s, program.heap.Sound cell b s
  separate : ∀ p cell q cell', program.caches p = some cell → program.caches q = some cell' →
    p ≠ q → program.heap.Separate cell cell'
  nodup : program.freed.Nodup
  live : ∀ p cell, program.caches p = some cell →
    ∀ block, program.heap.Holds p cell block → block ∉ program.freed
  account : ∀ block, memory.Allocated program.heap program.caches_end block ↔
    block ∈ program.freed ∨
      ∃ p cell, program.caches p = some cell ∧ program.heap.Holds p cell block

variable {program : CacheProgram} {cell cell' : CacheCell} {heap : Heap} {p q : ℕ}

theorem caches_add (h : (program.add cell heap).caches q = some cell') :
    (q = program.caches_end ∧ cell' = cell) ∨ program.caches q = some cell' := by
  by_cases hq : q = program.caches_end
  · refine .inl ⟨hq, ?_⟩
    have hnew : (program.add cell heap).caches q = some cell := by
      rw [hq]
      exact Function.update_self _ _ _
    exact Option.some.inj (h.symm.trans hnew)
  · exact .inr ((Function.update_of_ne hq _ _).symm.trans h)

theorem caches_free (h : Function.update program.caches p none q = some cell) :
    q ≠ p ∧ program.caches q = some cell := by
  by_cases hq : q = p
  · rw [hq, Function.update_self] at h
    nomatch h
  · rw [Function.update_of_ne hq] at h
    exact ⟨hq, h⟩

namespace Accounted

variable {memory : Heap} {program program' : CacheProgram}

theorem start (memory : Heap) : (start memory).Accounted memory where
  grown := ⟨Nat.le_refl _, Nat.le_refl _, Nat.le_refl _⟩
  lt := fun _ _ h ↦ (nomatch h)
  sound := fun _ _ h ↦ (nomatch h)
  separate := fun _ _ _ _ h ↦ (nomatch h)
  nodup := List.nodup_nil
  live := fun _ _ h ↦ (nomatch h)
  account := by
    intro block
    have hnone : ¬memory.Allocated memory 0 block := by
      cases block with
      | cache p => exact Nat.not_lt_zero p
      | sets p => exact fun hp ↦ Nat.not_lt_of_le hp.1 hp.2
      | lines p => exact fun hp ↦ Nat.not_lt_of_le hp.1 hp.2
      | data p => exact fun hp ↦ Nat.not_lt_of_le hp.1 hp.2
    refine iff_of_false hnone ?_
    rintro (hfreed | ⟨p, cell, hcell, -⟩)
    · exact List.not_mem_nil hfreed
    · nomatch hcell

/-- What has been freed was allocated. -/
theorem allocated_of_mem (h : program.Accounted memory) {block : Block}
    (hblock : block ∈ program.freed) :
    memory.Allocated program.heap program.caches_end block :=
  (h.account block).mpr (.inl hblock)

theorem owns (h : program.Accounted memory) {p : ℕ} {cell : CacheCell}
    (hcell : program.caches p = some cell) : program.heap.Owns cell := by
  obtain ⟨b, s, hsound⟩ := h.sound p cell hcell
  exact hsound.owns

/-- A new cache has been built. -/
theorem add (h : program.Accounted memory) {cell : CacheCell} {heap : Heap} {next_lru : ℕ}
    {content : ℕ → ℕ → CacheLine}
    (hbuilt : program.heap.Built cell.A next_lru content cell.S heap)
    (hsets : cell.sets = program.heap.sets_end) (hsound : ∃ b s, heap.Sound cell b s) :
    (program.add cell heap).Accounted memory where
  grown := h.grown.trans hbuilt.kept.grown
  lt := by
    intro q cell' hcell'
    rcases caches_add hcell' with ⟨rfl, -⟩ | hold
    · exact Nat.lt_succ_self _
    · exact Nat.lt_succ_of_lt (h.lt q cell' hold)
  sound := by
    intro q cell' hcell'
    rcases caches_add hcell' with ⟨-, rfl⟩ | hold
    · exact hsound
    · obtain ⟨b, s, hsound'⟩ := h.sound q cell' hold
      exact ⟨b, s, hbuilt.kept.sound hsound'⟩
  separate := by
    intro q cell' r cell'' hcell' hcell'' hne
    rcases caches_add hcell' with ⟨rfl, rfl⟩ | hold
    · rcases caches_add hcell'' with ⟨rfl, -⟩ | hold'
      · exact absurd rfl hne
      · exact (hbuilt.separate hsets (h.owns hold')).symm
    · rcases caches_add hcell'' with ⟨-, rfl⟩ | hold'
      · exact hbuilt.separate hsets (h.owns hold)
      · exact hbuilt.kept.separate (h.owns hold) (h.owns hold')
          (h.separate q cell' r cell'' hold hold' hne)
  nodup := h.nodup
  live := by
    intro q cell' hcell' block hblock hfreed
    rcases caches_add hcell' with ⟨rfl, rfl⟩ | hold
    · exact hbuilt.not_holds hsets (h.allocated_of_mem hfreed) hblock
    · have hblock' := (holds_of_extends hbuilt.kept (h.owns hold) q block).mp hblock
      exact h.live q cell' hold block hblock' hfreed
  account := by
    intro block
    refine (hbuilt.allocated_iff hsets h.grown block).trans ?_
    rw [h.account block]
    constructor
    · rintro ((hfreed | ⟨q, cell', hcell', hblock⟩) | hblock)
      · exact .inl hfreed
      · have hne : q ≠ program.caches_end := Nat.ne_of_lt (h.lt q cell' hcell')
        have hblock' := (holds_of_extends hbuilt.kept (h.owns hcell') q block).mpr hblock
        exact .inr ⟨q, cell', (Function.update_of_ne hne _ _).trans hcell', hblock'⟩
      · exact .inr ⟨program.caches_end, cell, Function.update_self _ _ _, hblock⟩
    · rintro (hfreed | ⟨q, cell', hcell', hblock⟩)
      · exact .inl (.inl hfreed)
      · rcases caches_add hcell' with ⟨rfl, rfl⟩ | hold
        · exact .inr hblock
        · have hblock' := (holds_of_extends hbuilt.kept (h.owns hold) q block).mp hblock
          exact .inl (.inr ⟨q, cell', hold, hblock'⟩)

theorem call (h : program.Accounted memory) {p : ℕ} {cell : CacheCell} {cache : Cache} {heap : Heap}
    (hcell : program.caches p = some cell) (hsound : ∃ b s, heap.Sound cell b s)
    (hstores : program.heap.Stores cell heap cache) :
    ({ program with heap := heap } : CacheProgram).Accounted memory where
  grown := h.grown.trans hstores.pointers.grown
  lt := h.lt
  sound := by
    intro q cell' hcell'
    by_cases hq : q = p
    · obtain rfl : cell' = cell := Option.some.inj (hcell'.symm.trans (hq ▸ hcell))
      exact hsound
    · obtain ⟨b, s, hsound'⟩ := h.sound q cell' hcell'
      exact ⟨b, s, hsound'.of_stores hstores (h.separate q cell' p cell hcell' hcell hq)⟩
  separate := fun q cell' r cell'' hcell' hcell'' hne ↦
    hstores.pointers.separate (h.separate q cell' r cell'' hcell' hcell'' hne)
  nodup := h.nodup
  live := fun q cell' hcell' block hblock ↦
    h.live q cell' hcell' block ((holds_of_samePointers hstores.pointers q cell' block).mp hblock)
  account := by
    intro block
    refine (hstores.pointers.allocated_iff memory _ block).trans ((h.account block).trans ?_)
    refine or_congr_right (exists_congr fun q ↦ exists_congr fun cell' ↦ and_congr_right fun _ ↦ ?_)
    exact (holds_of_samePointers hstores.pointers q cell' block).symm

theorem free (h : program.Accounted memory) {p : ℕ} {cell : CacheCell} {freed : List Block}
    (hcell : program.caches p = some cell)
    (hperm : freed.Perm (program.heap.blocks p cell ++ program.freed)) :
    ({ program with caches := Function.update program.caches p none, freed := freed } :
      CacheProgram).Accounted memory where
  grown := h.grown
  lt := fun q cell' hcell' ↦ h.lt q cell' (caches_free hcell').2
  sound := fun q cell' hcell' ↦ h.sound q cell' (caches_free hcell').2
  separate := fun q cell' r cell'' hcell' hcell'' ↦
    h.separate q cell' r cell'' (caches_free hcell').2 (caches_free hcell'').2
  nodup := by
    refine hperm.nodup_iff.mpr (List.nodup_append'.mpr ⟨nodup_blocks (h.owns hcell), h.nodup, ?_⟩)
    exact fun block hblock ↦ h.live p cell hcell block (mem_blocks.mp hblock)
  live := by
    intro q cell' hcell' block hblock hfreed
    obtain ⟨hne, hold⟩ := caches_free hcell'
    rcases List.mem_append.mp (hperm.mem_iff.mp hfreed) with hnew | hfreed
    · exact not_holds_of_separate (h.separate q cell' p cell hold hcell hne) hne hblock
        (mem_blocks.mp hnew)
    · exact h.live q cell' hold block hblock hfreed
  account := by
    intro block
    refine (h.account block).trans ?_
    have hmem : block ∈ freed ↔ program.heap.Holds p cell block ∨ block ∈ program.freed := by
      rw [hperm.mem_iff, List.mem_append, mem_blocks]
    constructor
    · rintro (hfreed | ⟨q, cell', hcell', hblock⟩)
      · exact .inl (hmem.mpr (.inr hfreed))
      · by_cases hq : q = p
        · obtain rfl : cell' = cell := Option.some.inj (hcell'.symm.trans (hq ▸ hcell))
          exact .inl (hmem.mpr (.inl (hq ▸ hblock)))
        · exact .inr ⟨q, cell', (Function.update_of_ne hq _ _).trans hcell', hblock⟩
    · rintro (hfreed | ⟨q, cell', hcell', hblock⟩)
      · rcases hmem.mp hfreed with hblock | hfreed
        · exact .inr ⟨p, cell, hcell, hblock⟩
        · exact .inl hfreed
      · exact .inr ⟨q, cell', (caches_free hcell').2, hblock⟩

/-- Every step keeps the account. -/
theorem step (h : program.Accounted memory) (hstep : program.Step program') :
    program'.Accounted memory := by
  cases hstep with
  | create config =>
    exact h.add (createCache_built _ _ _ _ _) rfl ⟨_, _, sound_createCache config _⟩
  | checkpoint hcell =>
    obtain ⟨b, s, hsound⟩ := h.sound _ _ hcell
    exact h.add (createCheckpoint_built hsound.owns) rfl ⟨b, s, sound_createCheckpoint hsound⟩
  | call hcell hop hcall =>
    obtain ⟨b, s, hsound⟩ := h.sound _ _ hcell
    obtain ⟨hstores, hsound'⟩ := hsound.step_ok hop hcall
    exact h.call hcell ⟨b, s, hsound'⟩ hstores
  | free hcell hfree =>
    obtain ⟨freed', hfree', hperm⟩ := freeCache_ok (h.owns hcell) h.nodup (h.live _ _ hcell)
    obtain rfl := Except.ok.inj (hfree.symm.trans hfree')
    exact h.free hcell hperm

end Accounted

end CacheProgram

end SystemEmulator
