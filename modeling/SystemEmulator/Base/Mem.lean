import SystemEmulator.Base.Ptable
import SystemEmulator.Cache.Cache

/-!
# Memory

`mem.c`: routing of an access to the special addresses, to the cache, or to the page table.  The
state gathers `guest.mem`, the page table, `guest.cache` with its statistics, and the globals that
time a cache miss.

Standard input is the stream of values that successive `scanf` calls store, and `output` collects
the values written to `IO_CHAR_ADDR`.  Log messages are left out, and what is written to the
checkpoint file is in `Base/MachineLog`.
-/

namespace SystemEmulator

/-- `seg_t`. -/
inductive Seg where
  | noaccess | text | data | heap | so | stack | kernel
  deriving DecidableEq, Repr

/-- `mem_status_t`. -/
inductive MemStatus where
  | ready | inFlight | error
  deriving DecidableEq, Repr

/-- Everything that a memory access reads or writes. -/
structure Mem where
  seg_start_addr : Seg → BitVec 64
  ptable : Ptable
  cache : Option Cache
  counters : Counters
  inflight : Bool
  inflight_addr : BitVec 64
  inflight_cycles : BitVec 64
  dmem_status : MemStatus
  stdin : ℕ → BitVec 64
  stdin_pos : ℕ
  output : List (BitVec 64)
  /-- The checkpoint file is open. -/
  checkpoint : Bool
  /-- The source has executed an operation that C leaves undefined: a read behind the end of
  `block`, or a division by zero.  The process may end there; the model goes on. -/
  undefined : Bool

def NULL_ADDR : BitVec 64 := 0

def IO_CHAR_ADDR : BitVec 64 := 0xFFFFFFFFFFFFFFFF

def CHECKPOINT_ADDR : BitVec 64 := 0xFFFFFFFFFFFFFFFF - 8

/-- `seg_starts`, before the ELF loader moves the text and data segments. -/
def segStarts : Seg → BitVec 64
  | .noaccess => 0x0
  | .text => 0x400000
  | .data => 0x800000
  | .heap => 0x10000000
  | .so => 0x400000000
  | .stack => 0x800000000
  | .kernel => 0x1000000000000

/-- `addr_in_imem`. -/
def addrInImem (m : Mem) (addr : BitVec 64) : Bool :=
  m.seg_start_addr .text ≤ addr && addr < m.seg_start_addr .data

/-- `addr_in_dmem`. -/
def addrInDmem (m : Mem) (addr : BitVec 64) : Bool :=
  m.seg_start_addr .data ≤ addr && addr < m.seg_start_addr .kernel

/-- `is_special_addr`.  `RET_FROM_MAIN_ADDR` is `NULL_ADDR`. -/
def isSpecialAddr (addr : BitVec 64) : Bool :=
  addr == NULL_ADDR || addr == IO_CHAR_ADDR || addr == CHECKPOINT_ADDR

/-- The value a `scanf` of the given width stores, widened as the `return` statements do. -/
def scanValue (data : BitVec 64) : ℕ → Except Crash (BitVec 64)
  | 1 => .ok ((data.setWidth 8).signExtend 64)
  | 2 => .ok ((data.setWidth 16).signExtend 64)
  | 4 => .ok ((data.setWidth 32).signExtend 64)
  | 8 => .ok data
  | _ => .error .assertFailed

/-- The value a write of the given width prints. -/
def printValue (data : BitVec 64) : ℕ → Except Crash (BitVec 64)
  | 1 => .ok (data &&& 0xFF)
  | 2 => .ok (data &&& 0xFFFF)
  | 4 => .ok (data &&& 0xFFFFFFFF)
  | 8 => .ok data
  | _ => .error .assertFailed

/-- `log_machine_state` divides by `d` when the checkpoint file is open and there is a cache. -/
def logTraps (m : Mem) : Bool := m.checkpoint && m.cache.elim false fun cache ↦ cache.d == 0

/-- `_mem_read_special`.  A read of `CHECKPOINT_ADDR` runs `log_machine_state`, which leaves the
memory alone, and yields zero. -/
def memReadSpecial (m : Mem) (addr : BitVec 64) (width : ℕ) : Except Crash (Mem × BitVec 64) :=
  if addr = NULL_ADDR then .error .exitFailure
  else if addr = IO_CHAR_ADDR then do
    let value ← scanValue (m.stdin m.stdin_pos) width
    pure ({ m with stdin_pos := m.stdin_pos + 1 }, value)
  else if addr = CHECKPOINT_ADDR then
    .ok ({ m with undefined := m.undefined || logTraps m }, 0)
  else .error .assertFailed

/-- `_mem_write_special`.  `CHECKPOINT_ADDR` runs into the closing `assert(false)`. -/
def memWriteSpecial (m : Mem) (addr data : BitVec 64) (width : ℕ) : Except Crash Mem :=
  if addr = NULL_ADDR then .ok m
  else if addr = IO_CHAR_ADDR then do
    let value ← printValue data width
    pure { m with output := m.output ++ [value] }
  else .error .assertFailed

/-! ## The cached path -/

/-- The loop that fills `block` from memory: bytes `B - remaining` to `B - 1`. -/
def fillBlock (base : BitVec 64) (B : ℕ) : ℕ → Ptable → (ℕ → BitVec 8) → Ptable × (ℕ → BitVec 8)
  | 0, pt, block => (pt, block)
  | remaining + 1, pt, block =>
      let j := B - (remaining + 1)
      let r := memReadLE pt (base + BitVec.ofNat 64 j) 1
      fillBlock base B remaining r.1 (Function.update block j (r.2.setWidth 8))

/-- The loop that writes the changes of a dirty evicted line back to memory. -/
def writeBack (pt : Ptable) (evicted : EvictedLine) (B : ℕ) : Ptable :=
  (List.range B).foldl
    (fun pt j ↦ memWriteLE pt (evicted.block_addr + BitVec.ofNat 64 j)
      ((evicted.data j).setWidth 64) 1) pt

/-- The first cycle of a miss records the block and arms the delay. -/
def armInflight (m : Mem) (block_address : BitVec 64) (d : ℕ) : Mem :=
  if m.inflight_addr ≠ block_address ∨ ¬m.inflight then
    { m with
      inflight_addr := block_address
      inflight_cycles := BitVec.ofNat 64 d
      inflight := true }
  else m

/-- How an access handles the `block` of a miss: it is filled from `base` on, and a read takes the
word at index `word` from it. -/
structure BlockFill where
  base : BitVec 64
  word : Option ℕ

/-- `_mem_read_cache` fills a missing block from `addr & ~(B - 1)`, whatever byte missed, and
evaluates `*((uint64_t *) block + (addr & (B - 1)))`: the index that is added to the pointer counts
words of eight bytes. -/
def readFill (addr : BitVec 64) (cache : Cache) (_current : BitVec 64) : BlockFill :=
  ⟨cache.blockAddress addr, some (cache.offset addr)⟩

/-- `_mem_write_cache` fills a missing block from its own block address. -/
def writeFill (cache : Cache) (current : BitVec 64) : BlockFill :=
  ⟨cache.blockAddress current, none⟩

/-- The word does not lie inside the `B` bytes of `block`. -/
def BlockFill.overruns (fill : BlockFill) (B : ℕ) : Bool := fill.word.any fun i ↦ B < 8 * i + 8

/-- The end of the delay: the block is fetched and installed, and a dirty victim is written back. -/
def installBlock (m : Mem) (cache : Cache) (block_address : BitVec 64) (fill : BlockFill)
    (operation : Operation) : Except Crash Mem := do
  let (pt, block) := fillBlock fill.base cache.B cache.B m.ptable (fun _ ↦ 0)
  let (evicted, cache', counters) ← handleMiss cache m.counters block_address operation block
  let pt := if evicted.valid && evicted.dirty then writeBack pt evicted cache.B else pt
  pure { m with
    ptable := pt
    cache := some cache'
    counters := counters
    inflight := false
    undefined := m.undefined || fill.overruns cache.B }

/-- One iteration of the byte loop shared by `_mem_read_cache` and `_mem_write_cache`.  The
Boolean tells whether the loop goes on; `false` is the early return with `IN_FLIGHT`. -/
def cacheByte (m : Mem) (cache : Cache) (current_address : BitVec 64)
    (fill : BlockFill) (operation : Operation) : Except Crash (Bool × Mem) := do
  let (hit, cache, counters) ← checkHit cache m.counters current_address operation
  let m := { m with cache := some cache, counters := counters }
  if hit then pure (true, m)
  else
    let block_address := cache.blockAddress current_address
    let m := armInflight m block_address cache.d
    let m := { m with inflight_cycles := m.inflight_cycles - 1 }
    if m.inflight_cycles > 0 then pure (false, { m with dmem_status := .inFlight })
    else
      let m ← installBlock m cache block_address fill operation
      pure (true, m)

/-- The byte loop over the `remaining` last bytes of the access. -/
def cacheLoop (fill : Cache → BitVec 64 → BlockFill) (operation : Operation) :
    ℕ → BitVec 64 → Mem → Except Crash (Bool × Mem)
  | 0, _, m => .ok (true, m)
  | remaining + 1, current_address, m =>
      match m.cache with
      | none => .error .nullDeref
      | some cache => do
          let (continue_, m) ← cacheByte m cache current_address
            (fill cache current_address) operation
          if continue_ then cacheLoop fill operation remaining (current_address + 1) m
          else pure (false, m)

/-- `_mem_read_cache`.  The word that a miss reads from `block` into `data` is overwritten by
`get_word_cache` before it is returned. -/
def memReadCache (m : Mem) (addr : BitVec 64) (width : ℕ) : Except Crash (Mem × BitVec 64) := do
  let (done, m) ← cacheLoop (readFill addr) .read width addr m
  if done then
    match m.cache with
    | none => .error .nullDeref
    | some cache => do
        let data ← getWordCache cache addr
        pure ({ m with dmem_status := .ready }, data)
  else pure (m, 0)

/-- `_mem_write_cache`. -/
def memWriteCache (m : Mem) (addr data : BitVec 64) (width : ℕ) : Except Crash Mem := do
  let (done, m) ← cacheLoop writeFill .write width addr m
  if done then
    match m.cache with
    | none => .error .nullDeref
    | some cache => do
        let cache ← setWordCache cache addr data
        pure { m with cache := some cache, dmem_status := .ready }
  else pure m

/-! ## The access functions -/

/-- The routing test of `_mem_read` and `_mem_write`. -/
def usesCache (m : Mem) (addr : BitVec 64) : Bool :=
  m.cache.isSome && m.seg_start_addr .data ≤ addr

/-- `_mem_read`. -/
def memRead (m : Mem) (addr : BitVec 64) (width : ℕ) : Except Crash (Mem × BitVec 64) :=
  if isSpecialAddr addr then memReadSpecial m addr width
  else if usesCache m addr then memReadCache m addr width
  else
    let r := memReadLE m.ptable addr width
    .ok ({ m with ptable := r.1 }, r.2)

/-- `_mem_write`. -/
def memWrite (m : Mem) (addr data : BitVec 64) (width : ℕ) : Except Crash Mem :=
  if isSpecialAddr addr then memWriteSpecial m addr data width
  else if usesCache m addr then memWriteCache m addr data width
  else .ok { m with ptable := memWriteLE m.ptable addr data width }

/-- `mem_read_I`, before the conversion to `uint32_t` in `imem`. -/
def memReadI (m : Mem) (addr : BitVec 64) : Except Crash (Mem × BitVec 32) := do
  let (m, value) ← memRead m addr 4
  pure (m, value.setWidth 32)

/-- `mem_read_L`. -/
def memReadL (m : Mem) (addr : BitVec 64) : Except Crash (Mem × BitVec 64) := memRead m addr 8

/-- `mem_write_L`. -/
def memWriteL (m : Mem) (addr data : BitVec 64) : Except Crash Mem := memWrite m addr data 8

/-- `init_machine`: the memory before anything is loaded.  `cache` is what `create_cache` returns,
or `none` when a cache argument is missing. -/
def initMem (cache : Option Cache) (stdin : ℕ → BitVec 64) : Mem where
  seg_start_addr := segStarts
  ptable := Ptable.empty
  cache := cache
  counters := {}
  inflight := false
  inflight_addr := 0
  inflight_cycles := cache.elim 0 fun c ↦ BitVec.ofNat 64 c.d
  dmem_status := .ready
  stdin := stdin
  stdin_pos := 0
  output := []
  checkpoint := false
  undefined := false

end SystemEmulator
