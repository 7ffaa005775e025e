import SystemEmulator.Cache.Heap
import SystemEmulator.Library.Release

/-!
# Freeing caches

`free_cache` gives back the allocations of a cache.  A program that uses the functions of `cache.h`
is a machine: it creates caches, copies them, calls functions on them and frees them.
-/

namespace SystemEmulator

open Release

/-- An allocation of a cache: a `cache_t`, an array of sets, an array of lines, or the buffer of a
line. -/
inductive Block where
  | cache (p : ℕ)
  | sets (p : ℕ)
  | lines (p : ℕ)
  | data (p : ℕ)
  deriving DecidableEq, Repr

namespace Heap

/-- The inner loop of `free_cache`, over the lines of one set. -/
def freeLines (heap : Heap) (p : ℕ) (cell : CacheCell) (i : ℕ) (freed : List Block) :
    Except (Fault Block) (List Block) :=
  (List.range cell.A).foldlM (fun freed j ↦ do
    use freed (.cache p)
    use freed (.sets cell.sets)
    let lines := (heap.sets cell.sets i).lines
    use freed (.lines lines)
    free freed (.data (heap.lines lines j).data)) freed

/-- The outer loop, over the sets. -/
def freeSets (heap : Heap) (p : ℕ) (cell : CacheCell) (freed : List Block) :
    Except (Fault Block) (List Block) :=
  (List.range cell.S).foldlM (fun freed i ↦ do
    let freed ← heap.freeLines p cell i freed
    use freed (.cache p)
    use freed (.sets cell.sets)
    free freed (.lines (heap.sets cell.sets i).lines)) freed

/-- `free_cache`; `p` is the pointer to the cache. -/
def freeCache (heap : Heap) (p : ℕ) (cell : CacheCell) (freed : List Block) :
    Except (Fault Block) (List Block) := do
  use freed (.cache p)
  let freed ← heap.freeSets p cell freed
  use freed (.cache p)
  let freed ← free freed (.sets cell.sets)
  free freed (.cache p)

end Heap

end SystemEmulator
