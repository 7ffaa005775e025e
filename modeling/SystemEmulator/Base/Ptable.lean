import Mathlib.Logic.Function.Basic
import Mathlib.Data.List.Basic

/-!
# Page table

`ptable.c`: pages are materialised on first touch and kept in 128 chains indexed by a hash of the
page number.  The protection bits of an entry are never read by the emulator and are left out.
-/

namespace SystemEmulator

def PAGESIZE : ℕ := 4096

def HASHSIZE : ℕ := 128

/-- `pte_t`.  The payload is indexed by offsets below `PAGESIZE`. -/
structure Pte where
  p_num : BitVec 64
  p_data : ℕ → BitVec 8

/-- The array `ptable` of chains, indexed below `HASHSIZE`. -/
structure Ptable where
  chain : ℕ → List Pte

/-- The page table before anything is loaded. -/
def Ptable.empty : Ptable := ⟨fun _ ↦ []⟩

/-- One round of `ptable_hash` on the signed character `c`. -/
def ptableHashStep (h : BitVec 64) (c : BitVec 8) : BitVec 64 :=
  let h := (h <<< 4) + c.signExtend 64
  let high := h &&& 0xF0000000#64
  let h := if high ≠ 0 then h ^^^ (high >>> 24) else h
  h &&& ~~~high

/-- `ptable_hash`: the seven low bytes of the page number are hashed. -/
def ptableHash (pnum : BitVec 64) : ℕ :=
  ((List.range 7).foldl (fun h i ↦ ptableHashStep h ((pnum >>> (8 * i)).setWidth 8)) 0).toNat %
    HASHSIZE

/-- `get_page`: the first entry of the chain with this page number. -/
def getPage (pt : Ptable) (pnum : BitVec 64) : Option Pte :=
  (pt.chain (ptableHash pnum)).find? (fun p ↦ p.p_num == pnum)

/-- `add_page`: a zeroed page at the head of its chain. -/
def addPage (pt : Ptable) (num : BitVec 64) : Ptable :=
  ⟨Function.update pt.chain (ptableHash num) (⟨num, fun _ ↦ 0⟩ :: pt.chain (ptableHash num))⟩

/-- The store `page->p_data[poff] = data` through the pointer `get_page` returns. -/
def setPageByte (num : BitVec 64) (poff : ℕ) (data : BitVec 8) : List Pte → List Pte
  | [] => []
  | p :: chain =>
      if p.p_num = num then { p with p_data := Function.update p.p_data poff data } :: chain
      else p :: setPageByte num poff data chain

/-- `addr / PAGESIZE`. -/
def pageNum (addr : BitVec 64) : BitVec 64 := addr / BitVec.ofNat 64 PAGESIZE

/-- `addr % PAGESIZE`. -/
def pageOff (addr : BitVec 64) : ℕ := (addr % BitVec.ofNat 64 PAGESIZE).toNat

/-- The lookup that both byte accessors of `mem.c` start with: the page is added when missing. -/
def touchPage (pt : Ptable) (pnum : BitVec 64) : Ptable :=
  match getPage pt pnum with
  | some _ => pt
  | none => addPage pt pnum

/-- `_mem_read_byte`. -/
def memReadByte (pt : Ptable) (addr : BitVec 64) : Ptable × BitVec 8 :=
  let pt := touchPage pt (pageNum addr)
  (pt, ((getPage pt (pageNum addr)).elim 0 fun page ↦ page.p_data (pageOff addr)))

/-- `_mem_write_byte`. -/
def memWriteByte (pt : Ptable) (addr : BitVec 64) (data : BitVec 8) : Ptable :=
  let pt := touchPage pt (pageNum addr)
  ⟨Function.update pt.chain (ptableHash (pageNum addr))
    (setPageByte (pageNum addr) (pageOff addr) data (pt.chain (ptableHash (pageNum addr))))⟩

/-- The loop of `_mem_read_LE` from byte `i - 1` down to byte `0`. -/
def memReadLELoop (addr : BitVec 64) : ℕ → Ptable → BitVec 64 → Ptable × BitVec 64
  | 0, pt, retval => (pt, retval)
  | i + 1, pt, retval =>
      let r := memReadByte pt (addr + BitVec.ofNat 64 i)
      memReadLELoop addr i r.1 ((retval <<< 8) + r.2.setWidth 64)

/-- `_mem_read_LE`. -/
def memReadLE (pt : Ptable) (addr : BitVec 64) (width : ℕ) : Ptable × BitVec 64 :=
  memReadLELoop addr width pt 0

/-- `_mem_write_LE`: bytes `0` to `width - 1` in this order. -/
def memWriteLE (pt : Ptable) (addr data : BitVec 64) (width : ℕ) : Ptable :=
  (List.range width).foldl
    (fun pt i ↦ memWriteByte pt (addr + BitVec.ofNat 64 i) ((data >>> (8 * i)).setWidth 8)) pt

/-- The byte a guest address holds: a page that is not mapped reads as zero. -/
def byteAt (pt : Ptable) (addr : BitVec 64) : BitVec 8 :=
  (getPage pt (pageNum addr)).elim 0 fun page ↦ page.p_data (pageOff addr)

end SystemEmulator
