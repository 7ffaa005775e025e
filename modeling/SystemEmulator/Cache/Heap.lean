import SystemEmulator.Cache.Cache

/-!
# Caches in memory

`cache.c` keeps a cache in several allocations: an array of sets, an array of lines for each set and
a buffer of `B` bytes for each line.  `create_cache` and `create_checkpoint` are modelled with these
allocations and the pointers between them, and so are the functions that change a cache.  Other
allocations are left out.
-/

namespace SystemEmulator

/-- `cache_line_t`; `data` is a pointer to a buffer. -/
structure LineCell where
  valid : Bool := false
  tag : BitVec 64 := 0
  dirty : Bool := false
  data : ℕ := 0

/-- `cache_set_t`; `lines` is a pointer to an array. -/
structure SetCell where
  lines : ℕ := 0
  lru_matrix : BitVec 64 := 0
  next_lru : ℕ := 0

/-- `cache_t`; `sets` is a pointer to an array. -/
structure CacheCell where
  sets : ℕ
  A : ℕ
  B : ℕ
  C : ℕ
  d : ℕ

/-- The arrays of sets, the arrays of lines and the buffers that have been allocated.  A pointer is
the number of an allocation of its kind, and `sets_end`, `lines_end` and `data_end` are the numbers
that the next allocations get. -/
structure Heap where
  sets : ℕ → ℕ → SetCell
  lines : ℕ → ℕ → LineCell
  data : ℕ → ℕ → BitVec 8
  sets_end : ℕ
  lines_end : ℕ
  data_end : ℕ
  counters : Counters

namespace CacheCell

def S (cell : CacheCell) : ℕ := numSets cell.A cell.B cell.C

end CacheCell

/-- The line of which only the first `n` bytes of the buffer are kept. -/
def CacheLine.clip (n : ℕ) (line : CacheLine) : CacheLine :=
  { line with data := fun k ↦ if k < n then line.data k else 0 }

namespace Heap

/-! ## Reading through the pointers -/

def lineAt (heap : Heap) (lines j : ℕ) : CacheLine where
  valid := (heap.lines lines j).valid
  tag := (heap.lines lines j).tag
  dirty := (heap.lines lines j).dirty
  data := heap.data (heap.lines lines j).data

def setAt (heap : Heap) (cell : CacheCell) (i : ℕ) : CacheSet where
  lines := fun j ↦
    if j < cell.A then (heap.lineAt (heap.sets cell.sets i).lines j).clip cell.B else {}
  lru_matrix := (heap.sets cell.sets i).lru_matrix
  next_lru := (heap.sets cell.sets i).next_lru

/-- The cache that a `cache_t` describes. -/
def cache (heap : Heap) (cell : CacheCell) : Cache where
  sets := fun i ↦ if i < cell.S then heap.setAt cell i else {}
  A := cell.A
  B := cell.B
  C := cell.C
  d := cell.d

/-! ## Allocation -/

def callocSets (heap : Heap) : Heap :=
  { heap with
    sets := Function.update heap.sets heap.sets_end fun _ ↦ {}
    sets_end := heap.sets_end + 1 }

def callocLines (heap : Heap) : Heap :=
  { heap with
    lines := Function.update heap.lines heap.lines_end fun _ ↦ {}
    lines_end := heap.lines_end + 1 }

/-- `calloc` of a buffer, into which the bytes of `line` are copied, and the line that points to
it. -/
def allocLine (heap : Heap) (lines j : ℕ) (line : CacheLine) : Heap :=
  { heap with
    lines := Function.update heap.lines lines (Function.update (heap.lines lines) j
      { valid := line.valid, tag := line.tag, dirty := line.dirty, data := heap.data_end })
    data := Function.update heap.data heap.data_end line.data
    data_end := heap.data_end + 1 }

/-- The inner loops of `create_cache` and `create_checkpoint`, over the lines of one set. -/
def allocLines (heap : Heap) (lines A : ℕ) (line : Heap → ℕ → CacheLine) : Heap :=
  (List.range A).foldl (fun heap j ↦ heap.allocLine lines j (line heap j)) heap

/-- Set `i` gets an array of lines. -/
def allocArray (heap : Heap) (sets i next_lru : ℕ) : Heap :=
  { heap.callocLines with
    sets := Function.update heap.sets sets (Function.update (heap.sets sets) i
      { lines := heap.lines_end, lru_matrix := 0, next_lru := next_lru }) }

/-- One round of the outer loops. -/
def allocSet (heap : Heap) (sets A i next_lru : ℕ) (line : Heap → ℕ → CacheLine) : Heap :=
  (heap.allocArray sets i next_lru).allocLines heap.lines_end A line

/-- The outer loops, on a new array of sets. -/
def allocSets (heap : Heap) (A S : ℕ) (next_lru : ℕ) (line : Heap → ℕ → ℕ → CacheLine) : Heap :=
  (List.range S).foldl (fun heap' i ↦ heap'.allocSet heap.sets_end A i next_lru (line · i))
    heap.callocSets

/-- `create_cache`. -/
def createCache (heap : Heap) (A_in B_in C_in d_in : ℕ) : CacheCell × Heap :=
  let cell : CacheCell := { sets := heap.sets_end, A := A_in, B := B_in, C := C_in, d := d_in }
  (cell, heap.allocSets cell.A cell.S (2 ^ 64 - 1) fun _ _ _ ↦ {})

/-- `create_checkpoint`.  Only `sizeof(byte_t)` bytes of each buffer are copied, and the matrix and
`next_lru` of a set stay as `calloc` leaves them. -/
def createCheckpoint (heap : Heap) (cell : CacheCell) : CacheCell × Heap :=
  ({ cell with sets := heap.sets_end },
    heap.allocSets cell.A cell.S 0 fun heap' i j ↦
      (heap'.lineAt (heap'.sets cell.sets i).lines j).clip 1)

/-! ## Writing through the pointers -/

/-- Stores a line: its flags in the array of lines and its `B` bytes in its buffer. -/
def writeLine (heap : Heap) (cell : CacheCell) (idx i : ℕ) (line : CacheLine) : Heap :=
  let lines := (heap.sets cell.sets idx).lines
  let data := (heap.lines lines i).data
  { heap with
    lines := Function.update heap.lines lines (Function.update (heap.lines lines) i
      { valid := line.valid, tag := line.tag, dirty := line.dirty, data := data })
    data := Function.update heap.data data fun k ↦
      if k < cell.B then line.data k else heap.data data k }

/-- Stores what `lru` has computed for a set. -/
def writeLru (heap : Heap) (cell : CacheCell) (idx next_lru : ℕ) (matrix : BitVec 64) : Heap :=
  { heap with
    sets := Function.update heap.sets cell.sets (Function.update (heap.sets cell.sets) idx
      { lines := (heap.sets cell.sets idx).lines, lru_matrix := matrix, next_lru := next_lru }) }

/-- `check_hit`. -/
def checkHit (heap : Heap) (cell : CacheCell) (addr : BitVec 64) (operation : Operation) :
    Except Crash (Bool × Heap) :=
  let cache := heap.cache cell
  let n := heap.counters
  match getLine cache addr with
  | none => .ok (false, { heap with counters := { n with miss_count := n.miss_count + 1 } })
  | some line_idx => do
      let idx := cache.setIndex addr
      let line := (cache.getSet addr).lines line_idx
      let heap := { heap with counters := { n with hit_count := n.hit_count + 1 } }
      let heap := heap.writeLine cell idx line_idx
        { line with dirty := line.dirty || operation == .write }
      let (next_lru, matrix) ← lru cell.A line_idx (cache.getSet addr).lru_matrix
      pure (true, heap.writeLru cell idx next_lru matrix)

/-- `handle_miss`.  The evicted line is a value: the `evicted_line_t` and the bytes that are
allocated for it go to the caller and belong to no cache. -/
def handleMiss (heap : Heap) (cell : CacheCell) (addr : BitVec 64) (operation : Operation)
    (incoming_data : ℕ → BitVec 8) : Except Crash (EvictedLine × Heap) := do
  let cache := heap.cache cell
  let idx := cache.setIndex addr
  let line_idx := selectLine cache addr
  let line := (cache.getSet addr).lines line_idx
  let evicted_line : EvictedLine :=
    { valid := line.valid
      dirty := line.dirty
      block_addr := (line.tag <<< (cache.b + cache.s)) |||
        (((addr >>> cache.b) &&& cache.setMask) <<< cache.b)
      data := line.data }
  let heap := { heap with counters := countEviction heap.counters line }
  let heap := heap.writeLine cell idx line_idx
    { valid := true, tag := cache.tagOf addr, dirty := operation == .write, data := incoming_data }
  let (next_lru, matrix) ← lru cell.A line_idx (cache.getSet addr).lru_matrix
  pure (evicted_line, heap.writeLru cell idx next_lru matrix)

/-- `set_word_cache`. -/
def setWordCache (heap : Heap) (cell : CacheCell) (addr val : BitVec 64) : Except Crash Heap :=
  let cache := heap.cache cell
  match getLine cache addr with
  | none => .error .nullDeref
  | some i =>
      let line := (cache.getSet addr).lines i
      .ok (heap.writeLine cell (cache.setIndex addr) i
        { line with data := putWord line.data (cache.offset addr) val, dirty := true })

end Heap

end SystemEmulator
