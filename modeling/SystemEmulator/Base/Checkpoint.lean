import Mathlib.Data.Int.Notation
import SystemEmulator.Base.Mem

/-!
# Checkpoints

`log_machine_state` of `machine.c`: the words of the four segments and the cache statistics.  A line
`Address 0x%lx: 0x%lx` is the pair of an address and a word.  The text of the lines and the
processor section are in `Base/MachineLog`.
-/

namespace SystemEmulator

/-- The loop over one page: `i` runs from `start` to `PAGESIZE` in steps of eight. -/
def logPage (page : Pte) (addr : BitVec 64) (start : ℕ) : List (BitVec 64 × BitVec 64) :=
  (List.range' start ((PAGESIZE - start + 7) / 8) 8).filterMap fun i ↦
    let data := wordAt page.p_data i
    if data ≠ 0 then some (addr + BitVec.ofNat 64 i, data) else none

/-- A loop `while ((page = get_page(pnum)))`, with the value of `pnum` it ends with.  It may go on
forever.  `next` moves `addr` by a page, and `start` is the first offset in the page. -/
def Ptable.logPages (pt : Ptable) (next : BitVec 64 → BitVec 64) (start : BitVec 64 → ℕ)
    (addr pnum : BitVec 64) : Option (List (BitVec 64 × BitVec 64) × BitVec 64) :=
  match getPage pt pnum with
  | none => some ([], pnum)
  | some page => do
      let (lines, pnum') ← pt |>.logPages next start (next addr) (pageNum (next addr))
      pure (logPage page addr (start addr) ++ lines, pnum')
partial_fixpoint

export Ptable (logPages)

structure MemoryLog where
  text : List (BitVec 64 × BitVec 64)
  data : List (BitVec 64 × BitVec 64)
  heap : List (BitVec 64 × BitVec 64)
  stack : List (BitVec 64 × BitVec 64)

/-- `addr -= addr % PAGESIZE`. -/
def pageBase (addr : BitVec 64) : BitVec 64 := addr - addr % BitVec.ofNat 64 PAGESIZE

/-- `addr += PAGESIZE`. -/
def nextPage (addr : BitVec 64) : BitVec 64 := addr + BitVec.ofNat 64 PAGESIZE

/-- `addr -= PAGESIZE`. -/
def prevPage (addr : BitVec 64) : BitVec 64 := addr - BitVec.ofNat 64 PAGESIZE

/-- The memory section of `log_machine_state`.  The heap loop starts with the `pnum` that the loop
over the data segment has left. -/
def logMemory (m : Mem) : Option MemoryLog := do
  let addr := pageBase (m.seg_start_addr .text)
  let (text, _) ← logPages m.ptable nextPage (fun _ ↦ 0) addr (pageNum addr)
  let addr := pageBase (m.seg_start_addr .data)
  let (data, pnum) ← logPages m.ptable nextPage (fun _ ↦ 0) addr (pageNum addr)
  let addr := m.seg_start_addr .heap
  let (heap, _) ← logPages m.ptable nextPage pageOff addr pnum
  let addr := pageBase (m.seg_start_addr .stack - BitVec.ofNat 64 PAGESIZE)
  let (stack, _) ← logPages m.ptable prevPage pageOff addr (pageNum addr)
  pure { text, data, heap, stack }

/-- The numbers of hits and misses that `log_machine_state` prints when there is a cache, `none`
when the division by `d` traps. -/
def logStatistics (n : Counters) (d : ℕ) : Option (ℤ × ℤ) :=
  if d = 0 then none
  else
    let misses : ℤ := (n.miss_count / d : ℕ)
    let hits : ℤ := n.hit_count - misses
    some (hits, misses)

end SystemEmulator
