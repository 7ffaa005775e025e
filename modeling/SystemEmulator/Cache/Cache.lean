import Mathlib.Algebra.Group.Int.Defs
import Mathlib.Algebra.Group.Nat.Defs
import Mathlib.Logic.Function.Basic
import Mathlib.Data.List.Basic

/-!
# Cache

`cache.c`: a set-associative write-back cache whose replacement order is kept in a packed bit
matrix.  Arrays are functions on `ℕ`; the indices below `A`, below `S` and below `B` are the
elements of the source's arrays.
-/

namespace SystemEmulator

/-- The ways a run of the emulator can be cut short by the host. -/
inductive Crash where
  /-- `exit(EXIT_FAILURE)` after a fatal log message. -/
  | exitFailure
  /-- A failed `assert`. -/
  | assertFailed
  /-- A `NULL` pointer is dereferenced. -/
  | nullDeref
  deriving DecidableEq, Repr

/-- `cache_line_t`. -/
structure CacheLine where
  valid : Bool := false
  tag : BitVec 64 := 0
  dirty : Bool := false
  data : ℕ → BitVec 8 := fun _ ↦ 0

/-- `cache_set_t`. -/
structure CacheSet where
  lines : ℕ → CacheLine := fun _ ↦ {}
  lru_matrix : BitVec 64 := 0
  next_lru : ℕ := 2 ^ 64 - 1

/-- `cache_t`.  The four parameters are `unsigned int` in the source. -/
structure Cache where
  sets : ℕ → CacheSet
  A : ℕ
  B : ℕ
  C : ℕ
  d : ℕ

/-- `operation_t`. -/
inductive Operation where
  | read | write
  deriving DecidableEq, Repr

/-- `evicted_line_t`. -/
structure EvictedLine where
  valid : Bool
  dirty : Bool
  block_addr : BitVec 64
  data : ℕ → BitVec 8

/-- The four statistics counters, as mathematical integers. -/
structure Counters where
  miss_count : ℕ := 0
  hit_count : ℕ := 0
  dirty_eviction_count : ℕ := 0
  clean_eviction_count : ℕ := 0
  deriving DecidableEq, Repr

/-- The loop of `_log`; a `size_t` is exhausted after 64 shifts. -/
def logLoop : ℕ → ℕ → ℕ → ℕ
  | 0, _, result => result
  | fuel + 1, x, result => if x / 2 = 0 then result else logLoop fuel (x / 2) (result + 1)

/-- `_log`. -/
def log (x : ℕ) : ℕ := logLoop 64 x 0

/-- `C / (A * B)` in `unsigned int` arithmetic. -/
def numSets (A B C : ℕ) : ℕ := C / (A * B % 2 ^ 32)

/-- `create_cache`. -/
def createCache (A_in B_in C_in d_in : ℕ) : Cache where
  sets := fun _ ↦ {}
  A := A_in
  B := B_in
  C := C_in
  d := d_in

namespace Cache

/-- The number of sets `S`. -/
def S (cache : Cache) : ℕ := numSets cache.A cache.B cache.C

/-- `_log(B)`. -/
def b (cache : Cache) : ℕ := log cache.B

/-- `_log(S)`. -/
def s (cache : Cache) : ℕ := log cache.S

/-- `(uword_t) (S - 1)`, the subtraction wrapping in `unsigned int`. -/
def setMask (cache : Cache) : BitVec 64 := BitVec.ofNat 64 ((cache.S + 2 ^ 32 - 1) % 2 ^ 32)

/-- The index that `get_set` computes. -/
def setIndex (cache : Cache) (addr : BitVec 64) : ℕ :=
  ((addr >>> cache.b) &&& cache.setMask).toNat

/-- The tag that `get_line` and `handle_miss` compute. -/
def tagOf (cache : Cache) (addr : BitVec 64) : BitVec 64 := addr >>> (cache.b + cache.s)

/-- `addr & (B - 1)`. -/
def offset (cache : Cache) (addr : BitVec 64) : ℕ :=
  (addr &&& BitVec.ofNat 64 (cache.B - 1)).toNat

/-- `addr & ~(B - 1)`. -/
def blockAddress (cache : Cache) (addr : BitVec 64) : BitVec 64 :=
  addr &&& ~~~BitVec.ofNat 64 (cache.B - 1)

/-- `get_set`. -/
def getSet (cache : Cache) (addr : BitVec 64) : CacheSet := cache.sets (cache.setIndex addr)

/-- Writes back the set that `get_set` returned a pointer to. -/
def putSet (cache : Cache) (addr : BitVec 64) (set : CacheSet) : Cache :=
  { cache with sets := Function.update cache.sets (cache.setIndex addr) set }

variable {cache : Cache} {addr a : BitVec 64}

theorem getSet_of_eq (hset : cache.setIndex a = cache.setIndex addr) :
    cache.getSet a = cache.getSet addr :=
  congrArg cache.sets hset

theorem getSet_putSet_of_eq (hset : cache.setIndex a = cache.setIndex addr) (set : CacheSet) :
    (cache.putSet addr set).getSet a = set := by
  change Function.update cache.sets _ _ (cache.setIndex a) = _
  rw [hset, Function.update_self]

theorem getSet_putSet_of_ne (hset : cache.setIndex a ≠ cache.setIndex addr) (set : CacheSet) :
    (cache.putSet addr set).getSet a = cache.getSet a :=
  Function.update_of_ne hset _ _

end Cache

def CacheSet.putLine (set : CacheSet) (i : ℕ) (line : CacheLine) : CacheSet :=
  { set with lines := Function.update set.lines i line }

/-- `get_line`: the index of the line that holds the address, `none` for `NULL`. -/
def getLine (cache : Cache) (addr : BitVec 64) : Option ℕ :=
  (List.range cache.A).find? fun i ↦
    ((cache.getSet addr).lines i).valid && ((cache.getSet addr).lines i).tag == cache.tagOf addr

/-- The mask of one row of the matrix, `((uword_t) 1 << A) - 1`. -/
def rowMask (A : ℕ) : BitVec 64 := (1#64 <<< A) - 1

/-- The mask of column `access`. -/
def colMask (A access : ℕ) : BitVec 64 :=
  (List.range A).foldl (fun mask r ↦ mask ||| (1#64 <<< (r * A + access))) 0

/-- The matrix after `access`: its row is set, then its column is cleared. -/
def lruUpdate (A access : ℕ) (m : BitVec 64) : BitVec 64 :=
  (m ||| (rowMask A <<< (access * A))) &&& ~~~colMask A access

/-- The first row that is all zeros, or `0`. -/
def lruSelect (A : ℕ) (m : BitVec 64) : ℕ :=
  ((List.range A).find? fun r ↦ ((m >>> (r * A)) &&& rowMask A) == 0).getD 0

/-- `lru`: the returned line index and the updated matrix. -/
def lru (A access : ℕ) (matrix : BitVec 64) : Except Crash (ℕ × BitVec 64) :=
  if A ≤ 8 then
    let m := lruUpdate A access matrix
    .ok (lruSelect A m, m)
  else .error .assertFailed

/-- `select_line`: the first invalid line, or the least recently used one. -/
def selectLine (cache : Cache) (addr : BitVec 64) : ℕ :=
  ((List.range cache.A).find? fun i ↦ !((cache.getSet addr).lines i).valid).getD
    (cache.getSet addr).next_lru

/-- `check_hit`. -/
def checkHit (cache : Cache) (n : Counters) (addr : BitVec 64) (operation : Operation) :
    Except Crash (Bool × Cache × Counters) :=
  match getLine cache addr with
  | none => .ok (false, cache, { n with miss_count := n.miss_count + 1 })
  | some line_idx => do
      let set := cache.getSet addr
      let line := set.lines line_idx
      let set := set.putLine line_idx { line with dirty := line.dirty || operation == .write }
      let (next_lru, matrix) ← lru cache.A line_idx set.lru_matrix
      pure (true, cache.putSet addr { set with next_lru := next_lru, lru_matrix := matrix },
        { n with hit_count := n.hit_count + 1 })

/-- The counters after a line is evicted in `handle_miss`. -/
def countEviction (n : Counters) (line : CacheLine) : Counters :=
  if line.valid && line.dirty then
    { n with dirty_eviction_count := n.dirty_eviction_count + 1 }
  else if line.valid then
    { n with clean_eviction_count := n.clean_eviction_count + 1 }
  else n

/-- `handle_miss`; `incoming_data` is zero when the source passes `NULL`. -/
def handleMiss (cache : Cache) (n : Counters) (addr : BitVec 64) (operation : Operation)
    (incoming_data : ℕ → BitVec 8) : Except Crash (EvictedLine × Cache × Counters) := do
  let set := cache.getSet addr
  let line_idx := selectLine cache addr
  let line := set.lines line_idx
  let evicted_line : EvictedLine :=
    { valid := line.valid
      dirty := line.dirty
      block_addr := (line.tag <<< (cache.b + cache.s)) |||
        (((addr >>> cache.b) &&& cache.setMask) <<< cache.b)
      data := line.data }
  let set := set.putLine line_idx
    { valid := true, tag := cache.tagOf addr, dirty := operation == .write, data := incoming_data }
  let (next_lru, matrix) ← lru cache.A line_idx set.lru_matrix
  pure (evicted_line, cache.putSet addr { set with next_lru := next_lru, lru_matrix := matrix },
    countEviction n line)

/-- The eight bytes from `offset` on, as `memcpy` puts them in a little-endian word. -/
def wordAt (data : ℕ → BitVec 8) (offset : ℕ) : BitVec 64 :=
  (List.range 8).foldr (fun i word ↦ (word <<< 8) ||| (data (offset + i)).setWidth 64) 0

/-- The bytes of a line after `memcpy` of a word to `offset`. -/
def putWord (data : ℕ → BitVec 8) (offset : ℕ) (val : BitVec 64) : ℕ → BitVec 8 := fun j ↦
  if offset ≤ j ∧ j < offset + 8 then (val >>> (8 * (j - offset))).setWidth 8 else data j

/-- `get_word_cache`. -/
def getWordCache (cache : Cache) (addr : BitVec 64) : Except Crash (BitVec 64) :=
  match getLine cache addr with
  | none => .error .nullDeref
  | some i => .ok (wordAt ((cache.getSet addr).lines i).data (cache.offset addr))

/-- `set_word_cache`. -/
def setWordCache (cache : Cache) (addr val : BitVec 64) : Except Crash Cache :=
  match getLine cache addr with
  | none => .error .nullDeref
  | some i =>
      let set := cache.getSet addr
      let line := set.lines i
      .ok (cache.putSet addr (set.putLine i
        { line with data := putWord line.data (cache.offset addr) val, dirty := true }))

/-- `access_data`. -/
def accessData (cache : Cache) (n : Counters) (addr : BitVec 64) (operation : Operation) :
    Except Crash (Cache × Counters) := do
  let (hit, cache, n) ← checkHit cache n addr operation
  if hit then pure (cache, n)
  else
    let (_, cache, n) ← handleMiss cache n addr operation (fun _ ↦ 0)
    pure (cache, n)

/-! ## The trace simulator -/

/-- The kind of a trace line of `csim.c`. -/
inductive TraceOp where
  | S | L | M
  deriving DecidableEq, Repr

def TraceOp.operations : TraceOp → List Operation
  | .S => [.write]
  | .L => [.read]
  | .M => [.read, .write]

def traceAccesses (trace : List (TraceOp × BitVec 64)) : List (Operation × BitVec 64) :=
  trace.flatMap fun line ↦ line.1.operations.map fun operation ↦ (operation, line.2)

/-- `replayTrace` on the accesses of a trace. -/
def replayTrace (cache : Cache) (n : Counters) (accesses : List (Operation × BitVec 64)) :
    Except Crash (Cache × Counters) :=
  accesses.foldlM (fun state access ↦ accessData state.1 state.2 access.2 access.1) (cache, n)

end SystemEmulator
