import SystemEmulator.Library.Transducer
import SystemEmulator.Replacement.Ownership

/-!
# Operations on caches in memory

The four functions through which a cache is used, as the steps of a machine: once on the allocations
of a cache, and once on the cache as a value.  The first machine simulates the second.
-/

namespace SystemEmulator

open Relation Result Transducer

inductive CacheOp where
  | checkHit (addr : BitVec 64) (operation : Operation)
  | handleMiss (addr : BitVec 64) (operation : Operation) (incoming_data : ℕ → BitVec 8)
  | getWord (addr : BitVec 64)
  | setWord (addr val : BitVec 64)

inductive CacheResult where
  | hit (hit : Bool)
  | evicted (valid dirty : Bool) (block_addr : BitVec 64) (data : List (BitVec 8))
  | word (val : BitVec 64)
  | stored
  deriving DecidableEq, Repr

/-- The evicted line as the caller sees it: its flags, its block address and its `B` bytes. -/
def EvictedLine.result (line : EvictedLine) (B : ℕ) : CacheResult :=
  .evicted line.valid line.dirty line.block_addr ((List.range B).map line.data)

namespace CacheOp

/-- A word that is read or written does not reach over the end of its line. -/
def InBlock (B : ℕ) : CacheOp → Prop
  | checkHit _ _ | handleMiss _ _ _ => True
  | getWord addr | setWord addr _ => (addr &&& BitVec.ofNat 64 (B - 1)).toNat + 8 ≤ B

/-- The call that passes on only the `B` bytes of incoming data that `handle_miss` reads. -/
def clip (B : ℕ) : CacheOp → CacheOp
  | handleMiss addr operation incoming_data =>
      handleMiss addr operation fun k ↦ if k < B then incoming_data k else 0
  | op => op

end CacheOp

def CacheLine.store (line : CacheLine) (offset : ℕ) (val : BitVec 64) : CacheLine :=
  { line with data := putWord line.data offset val, dirty := true }

def Cache.step (state : Cache × Counters) :
    CacheOp → Except Crash (CacheResult × (Cache × Counters))
  | .checkHit addr operation => (SystemEmulator.checkHit state.1 state.2 addr operation).map
      fun r ↦ (.hit r.1, r.2)
  | .handleMiss addr operation incoming_data =>
      (SystemEmulator.handleMiss state.1 state.2 addr operation incoming_data).map
        fun r ↦ (r.1.result state.1.B, r.2)
  | .getWord addr => (getWordCache state.1 addr).map fun val ↦ (.word val, state)
  | .setWord addr val => (SystemEmulator.setWordCache state.1 addr val).map
      fun cache ↦ (.stored, (cache, state.2))

namespace Cache

theorem putSet_putSet (cache : Cache) (addr : BitVec 64) (set set' : CacheSet) :
    (cache.putSet addr set).putSet addr set' = cache.putSet addr set' := by
  change { cache with sets := Function.update (Function.update _ _ _) (cache.setIndex addr) _ } = _
  rw [Function.update_idem]
  rfl

end Cache

namespace Heap

def step (cell : CacheCell) (heap : Heap) : CacheOp → Except Crash (CacheResult × Heap)
  | .checkHit addr operation => (heap.checkHit cell addr operation).map fun r ↦ (.hit r.1, r.2)
  | .handleMiss addr operation incoming_data =>
      (heap.handleMiss cell addr operation incoming_data).map fun r ↦ (r.1.result cell.B, r.2)
  | .getWord addr => (getWordCache (heap.cache cell) addr).map fun val ↦ (.word val, heap)
  | .setWord addr val => (heap.setWordCache cell addr val).map fun heap' ↦ (.stored, heap')

/-- A cache that can be used: it owns what it points to, its parameters are valid, and `lru` has
chosen a line in every set that is in use. -/
structure Sound (heap : Heap) (cell : CacheCell) (b s : ℕ) : Prop where
  owns : heap.Owns cell
  valid : (heap.cache cell).Valid b s
  lruSafe : (heap.cache cell).LruSafe

/-- The pointers stay, the cache becomes `cache'`, and every separate cache stays as it is. -/
structure Stores (heap : Heap) (cell : CacheCell) (heap' : Heap) (cache' : Cache) : Prop where
  pointers : heap.SamePointers heap'
  self : heap'.cache cell = cache'
  others : ∀ cell', heap.Separate cell' cell → heap'.cache cell' = heap.cache cell'

theorem stores_counters (heap : Heap) (cell : CacheCell) (n : Counters) :
    heap.Stores cell { heap with counters := n } (heap.cache cell) where
  pointers := ⟨rfl, rfl, rfl, rfl, rfl⟩
  self := rfl
  others := fun _ _ ↦ rfl

theorem Stores.trans {heap heap' heap'' : Heap} {cell : CacheCell} {cache' cache'' : Cache}
    (h : heap.Stores cell heap' cache') (h' : heap'.Stores cell heap'' cache'') :
    heap.Stores cell heap'' cache'' where
  pointers := h.pointers.trans h'.pointers
  self := h'.self
  others := fun cell' hsep ↦
    (h'.others cell' (h.pointers.separate hsep)).trans (h.others cell' hsep)

variable {heap : Heap} {cell : CacheCell} {b s : ℕ}

theorem Sound.setIndex_lt (h : heap.Sound cell b s) (addr : BitVec 64) :
    (heap.cache cell).setIndex addr < cell.S := by
  have hS : cell.S = 2 ^ s := h.valid.S_eq_two_pow
  rw [h.valid.setIndex_eq, hS]
  exact Nat.mod_lt _ (by positivity)

section

variable (h : heap.Sound cell b s) (addr : BitVec 64) {i : ℕ} (hi : i < cell.A)
include h hi

theorem Sound.stores_writeLine (line : CacheLine) :
    heap.Stores cell (heap.writeLine cell ((heap.cache cell).setIndex addr) i line)
      ((heap.cache cell).putSet addr
        (((heap.cache cell).getSet addr).putLine i (line.clip cell.B))) where
  pointers := samePointers_writeLine heap cell _ i line
  self := cache_writeLine h.owns (h.setIndex_lt addr) hi line
  others := fun _ hsep ↦ cache_writeLine_of_separate (h.setIndex_lt addr) hi hsep line

/-- A line is replaced and then passed to `lru`. -/
theorem Sound.stores_touch (line : CacheLine) (next_lru : ℕ) (matrix : BitVec 64) :
    heap.Stores cell
      ((heap.writeLine cell ((heap.cache cell).setIndex addr) i line).writeLru cell
        ((heap.cache cell).setIndex addr) next_lru matrix)
      ((heap.cache cell).putSet addr
        { ((heap.cache cell).getSet addr).putLine i (line.clip cell.B) with
          next_lru := next_lru, lru_matrix := matrix }) := by
  have hline := h.stores_writeLine addr hi line
  refine hline.trans ⟨samePointers_writeLru _ _ _ _ _, ?_,
    fun cell' hsep ↦ cache_writeLru_of_separate hsep _ _ _⟩
  have hidx : ((heap.writeLine cell ((heap.cache cell).setIndex addr) i line).cache cell).setIndex
      addr < cell.S := h.setIndex_lt addr
  have hlru := cache_writeLru hidx next_lru matrix
  rw [hline.self] at hlru
  refine hlru.trans ?_
  rw [Cache.getSet_putSet_of_eq rfl, Cache.putSet_putSet]

end

theorem Sound.counters (h : heap.Sound cell b s) (n : Counters) :
    ({ heap with counters := n } : Heap).Sound cell b s :=
  ⟨(stores_counters heap cell n).pointers.owns h.owns, h.valid, h.lruSafe⟩

/-! ## The functions -/

/-- The bytes behind the end of a buffer are not part of a cache. -/
theorem clip_lines (heap : Heap) (cell : CacheCell) (idx j : ℕ) :
    (((heap.cache cell).sets idx).lines j).clip cell.B = ((heap.cache cell).sets idx).lines j := by
  change ((if idx < cell.S then heap.setAt cell idx else {} : CacheSet).lines j).clip _ = _
  unfold cache
  by_cases hidx : idx < cell.S
  · simp only [hidx, ↓reduceIte]
    by_cases hj : j < cell.A
    · simp only [setAt, hj, ↓reduceIte, CacheLine.clip_clip]
    · simp only [setAt, hj, ↓reduceIte, CacheLine.clip_empty]
  · simp only [hidx, ↓reduceIte, CacheLine.clip_empty]

/-- The lines behind the end of a set are not part of a cache. -/
theorem lines_of_ge (heap : Heap) (cell : CacheCell) (idx j : ℕ) (hj : cell.A ≤ j) :
    ((heap.cache cell).sets idx).lines j = {} := by
  unfold cache
  by_cases hidx : idx < cell.S
  · simp only [hidx, ↓reduceIte]
    exact if_neg (Nat.not_lt_of_le hj)
  · simp only [hidx, ↓reduceIte]

/-- A store inside a line does not reach behind its end. -/
theorem clip_store {n offset : ℕ} (h : offset + 8 ≤ n) {line : CacheLine}
    (hline : line.clip n = line) (val : BitVec 64) :
    (line.store offset val).clip n = line.store offset val := by
  unfold CacheLine.store CacheLine.clip
  congr 1
  funext k
  by_cases hk : k < n
  · simp [hk]
  · have hzero : line.data k = 0 := by
      rw [← hline]
      exact if_neg hk
    simp [hk, putWord, hzero, show ¬k < offset + 8 by omega]

/-- `check_hit` does to the allocations what it does to the cache. -/
theorem Sound.checkHit_rel (h : heap.Sound cell b s) (addr : BitVec 64) (operation : Operation) :
    Rel (fun r r' ↦ r.1 = r'.1 ∧ heap.Stores cell r.2 r'.2.1 ∧ r.2.counters = r'.2.2)
      (heap.checkHit cell addr operation)
      (SystemEmulator.checkHit (heap.cache cell) heap.counters addr operation) := by
  unfold Heap.checkHit
  cases hline : getLine (heap.cache cell) addr with
  | none =>
    rw [checkHit_of_none hline]
    simp only [hline]
    exact .ok ⟨rfl, stores_counters _ _ _, rfl⟩
  | some i =>
    have hA : cell.A ≤ 8 := h.lruSafe.A_le
    have hclip : ((((heap.cache cell).getSet addr).lines i).access operation).clip cell.B =
        (((heap.cache cell).getSet addr).lines i).access operation :=
      congrArg (CacheLine.access · operation) (clip_lines heap cell _ i)
    have hstores := (h.counters { heap.counters with
      hit_count := heap.counters.hit_count + 1 }).stores_touch addr (getLine_lt hline)
      ((((heap.cache cell).getSet addr).lines i).access operation)
    rw [hclip] at hstores
    rw [checkHit_of_some hA hline]
    simp only [lru, hA, ↓reduceIte, hline]
    exact .ok ⟨rfl, (stores_counters _ _ _).trans (hstores _ _), rfl⟩

/-- `handle_miss` does to the allocations what it does to the cache. -/
theorem Sound.handleMiss_rel (h : heap.Sound cell b s) (addr : BitVec 64) (operation : Operation)
    (incoming_data : ℕ → BitVec 8) :
    Rel (fun r r' ↦ r.1 = r'.1 ∧ heap.Stores cell r.2 r'.2.1 ∧ r.2.counters = r'.2.2)
      (heap.handleMiss cell addr operation incoming_data)
      (SystemEmulator.handleMiss (heap.cache cell) heap.counters addr operation
        fun k ↦ if k < cell.B then incoming_data k else 0) := by
  have hA : cell.A ≤ 8 := h.lruSafe.A_le
  have hstores := (h.counters (countEviction heap.counters
    (((heap.cache cell).getSet addr).lines (selectLine (heap.cache cell) addr)))).stores_touch addr
    (h.lruSafe.selectLine_lt addr)
    { valid := true, tag := (heap.cache cell).tagOf addr, dirty := operation == .write,
      data := incoming_data }
  rw [handleMiss_eq hA]
  unfold Heap.handleMiss
  simp only [lru, hA, ↓reduceIte]
  exact .ok ⟨rfl, (stores_counters _ _ _).trans (hstores _ _), rfl⟩

/-- `set_word_cache` does to the allocations what it does to the cache. -/
theorem Sound.setWordCache_rel (h : heap.Sound cell b s) {addr : BitVec 64}
    (hblock : (heap.cache cell).offset addr + 8 ≤ cell.B) (val : BitVec 64) :
    Rel (fun heap' cache' ↦ heap.Stores cell heap' cache' ∧ heap'.counters = heap.counters)
      (heap.setWordCache cell addr val)
      (SystemEmulator.setWordCache (heap.cache cell) addr val) := by
  unfold Heap.setWordCache SystemEmulator.setWordCache
  cases hline : getLine (heap.cache cell) addr with
  | none =>
    simp only [hline]
    exact .error _
  | some i =>
    have hstores := h.stores_writeLine addr (getLine_lt hline)
      ((((heap.cache cell).getSet addr).lines i).store ((heap.cache cell).offset addr) val)
    have hclip : (((heap.cache cell).getSet addr).lines i).clip cell.B =
        ((heap.cache cell).getSet addr).lines i := clip_lines heap cell _ i
    rw [clip_store hblock hclip val] at hstores
    simp only [hline]
    exact .ok ⟨hstores, rfl⟩

/-! ## The simulation -/

/-- A call does to the allocations what it does to the cache, and leaves separate caches alone. -/
theorem Sound.step_matches (h : heap.Sound cell b s) {op : CacheOp} (hop : op.InBlock cell.B) :
    Matches (fun heap' state ↦ heap.Stores cell heap' state.1 ∧ heap'.counters = state.2)
      (heap.step cell op) (Cache.step (heap.cache cell, heap.counters) (op.clip cell.B)) := by
  cases op with
  | checkHit addr operation =>
    refine (h.checkHit_rel addr operation).map ?_
    rintro r r' ⟨hhit, hstores⟩
    exact ⟨congrArg _ hhit, hstores⟩
  | handleMiss addr operation incoming_data =>
    refine (h.handleMiss_rel addr operation incoming_data).map ?_
    rintro r r' ⟨hevicted, hstores⟩
    exact ⟨congrArg (EvictedLine.result · cell.B) hevicted, hstores⟩
  | getWord addr =>
    refine (Rel.refl (R := Eq) (fun _ ↦ rfl) (getWordCache (heap.cache cell) addr)).map ?_
    rintro val _ rfl
    exact ⟨rfl, stores_counters heap cell heap.counters, rfl⟩
  | setWord addr val =>
    refine (h.setWordCache_rel hop val).map ?_
    intro heap' cache' hstores
    exact ⟨rfl, hstores⟩

end Heap

/-- A call on a cache is one of the calls that change it, or leaves it as it is. -/
theorem Cache.step_call {state state' : Cache × Counters} {op : CacheOp} {r : CacheResult}
    (h : Cache.step state op = .ok (r, state')) :
    ReflTransGen CacheCall state.1 state'.1 := by
  cases op with
  | checkHit addr operation =>
    obtain ⟨r', hcall, hr'⟩ := map_eq_ok.mp h
    cases hr'
    exact .single (.checkHit hcall)
  | handleMiss addr operation incoming_data =>
    obtain ⟨r', hcall, hr'⟩ := map_eq_ok.mp h
    cases hr'
    exact .single (.handleMiss hcall)
  | getWord addr =>
    obtain ⟨val, -, hval⟩ := map_eq_ok.mp h
    cases hval
    exact .refl
  | setWord addr val =>
    obtain ⟨cache, hcall, hcache⟩ := map_eq_ok.mp h
    cases hcache
    exact .single (.setWordCache hcall)

namespace Heap

variable {heap heap' : Heap} {cell : CacheCell} {b s : ℕ}

/-- A call that succeeds has changed the cache as the value machine does, and nothing else. -/
theorem Sound.step_ok (h : heap.Sound cell b s) {op : CacheOp} (hop : op.InBlock cell.B)
    {r : CacheResult} (hok : heap.step cell op = .ok (r, heap')) :
    heap.Stores cell heap' (heap'.cache cell) ∧ heap'.Sound cell b s := by
  obtain ⟨⟨r', state⟩, hstep, -, hstores, -⟩ := (h.step_matches hop).exists_of_ok hok
  have hcalls := Cache.step_call hstep
  have hself := hstores.self
  refine ⟨⟨hstores.pointers, rfl, hstores.others⟩, hstores.pointers.owns h.owns, ?_, ?_⟩
  · rw [hself]
    exact h.valid.of_geometry (geometry_of_calls hcalls)
  · rw [hself]
    exact h.lruSafe.calls hcalls

/-- A call on one cache leaves a separate one in use. -/
theorem Sound.of_stores {cell' : CacheCell} {cache' : Cache} (h : heap.Sound cell' b s)
    (hstores : heap.Stores cell heap' cache') (hsep : heap.Separate cell' cell) :
    heap'.Sound cell' b s := by
  have hcache := hstores.others cell' hsep
  refine ⟨hstores.pointers.owns h.owns, ?_, ?_⟩
  · rw [hcache]
    exact h.valid
  · rw [hcache]
    exact h.lruSafe

end Heap

end SystemEmulator
