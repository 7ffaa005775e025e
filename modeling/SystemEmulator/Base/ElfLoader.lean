import SystemEmulator.Base.Mem

/-!
# ELF loader

`elf_loader.c`: the program headers of an executable are copied to the page table, and its section
headers move the text and data segments.  The protection bits of a segment are left out with those
of the pages.
-/

namespace SystemEmulator

/-- An executable file, as `mmap` maps it. -/
structure ElfFile where
  size : ℕ
  byte : ℕ → BitVec 8

/-- The ways `loadElf` can be cut short once the file is mapped. -/
inductive LoadFault where
  /-- The file is not an `ET_EXEC` file. -/
  | assertFailed
  /-- A byte behind the last page of the mapping is read. -/
  | busError
  deriving DecidableEq, Repr

def PT_LOAD : BitVec 64 := 1

def ET_EXEC : BitVec 64 := 2

/-- `Elf64_Phdr`. -/
structure Phdr where
  p_type : BitVec 64
  p_offset : BitVec 64
  p_vaddr : BitVec 64
  p_filesz : BitVec 64
  p_memsz : BitVec 64
  deriving DecidableEq, Repr

namespace ElfFile

/-- A byte of the mapping, whose last page is filled up with zeros. -/
def readByte (file : ElfFile) (i : ℕ) : Except LoadFault (BitVec 8) :=
  if i < file.size then .ok (file.byte i)
  else if i < (file.size + (PAGESIZE - 1)) / PAGESIZE * PAGESIZE then .ok 0
  else .error .busError

/-- A little-endian field of `width` bytes. -/
def field (file : ElfFile) (offset : ℕ) : ℕ → Except LoadFault (BitVec 64)
  | 0 => .ok 0
  | width + 1 => do
      let low ← file.readByte offset
      let high ← file.field (offset + 1) width
      pure ((high <<< 8) ||| low.setWidth 64)

/-- `strcmp(name, s) == 0` for the string at an offset of the file. -/
def streq (file : ElfFile) (offset : ℕ) : List (BitVec 8) → Except LoadFault Bool
  | [] => do
      let c ← file.readByte offset
      pure (c == 0)
  | c' :: s => do
      let c ← file.readByte offset
      if c = c' then file.streq (offset + 1) s else pure false

def phdrAt (file : ElfFile) (offset : ℕ) : Except LoadFault Phdr := do
  let p_type ← file.field offset 4
  let p_offset ← file.field (offset + 8) 8
  let p_vaddr ← file.field (offset + 16) 8
  let p_filesz ← file.field (offset + 32) 8
  let p_memsz ← file.field (offset + 40) 8
  pure { p_type, p_offset, p_vaddr, p_filesz, p_memsz }

/-- The program headers, in the order of the loop. -/
def programHeaders (file : ElfFile) : Except LoadFault (List Phdr) := do
  let e_phoff ← file.field 32 8
  let e_phentsize ← file.field 54 2
  let e_phnum ← file.field 56 2
  (List.range e_phnum.toNat).mapM fun i ↦ file.phdrAt (e_phoff.toNat + i * e_phentsize.toNat)

end ElfFile

namespace Phdr

/-- `v_align`. -/
def vAlign (ph : Phdr) : BitVec 64 := ph.p_vaddr % BitVec.ofNat 64 PAGESIZE

/-- `f_align`. -/
def fAlign (ph : Phdr) : BitVec 64 :=
  ph.p_filesz +
    (BitVec.ofNat 64 PAGESIZE - (ph.p_filesz + ph.p_vaddr) % BitVec.ofNat 64 PAGESIZE)

end Phdr

/-- The page table while the segments are loaded, with the file offsets that the copy loops have
read. -/
structure LoadState where
  ptable : Ptable
  reads : List ℕ

/-- One iteration of the copy loop. -/
def copyByte (file : ElfFile) (ph : Phdr) (st : LoadState) (j : ℕ) :
    Except LoadFault LoadState := do
  let byte ← file.readByte (ph.p_offset.toNat + j)
  pure
    { ptable := memWriteByte st.ptable (ph.p_vaddr + BitVec.ofNat 64 j) byte
      reads := st.reads ++ [ph.p_offset.toNat + j] }

/-- The loop that maps the zero-initialised part of a segment. -/
def mapBss (ph : Phdr) (pt : Ptable) : Ptable :=
  if ph.p_memsz > ph.p_filesz then
    (List.range (ph.p_memsz - ph.p_filesz).toNat).foldl
      (fun pt j ↦ touchPage pt (pageNum (ph.p_vaddr + ph.fAlign + BitVec.ofNat 64 j))) pt
  else pt

/-- The body of the loop over the program headers. -/
def loadSegment (file : ElfFile) (st : LoadState) (ph : Phdr) : Except LoadFault LoadState :=
  if ph.p_type = PT_LOAD then do
    let st ← (List.range (ph.p_filesz + ph.vAlign).toNat).foldlM (copyByte file ph) st
    pure { st with ptable := mapBss ph st.ptable }
  else .ok st

def sectionName (s : String) : List (BitVec 8) := s.toList.map fun c ↦ BitVec.ofNat 8 c.toNat

/-- The body of the loop over the section headers: the section at `offset` may move a segment. -/
def moveSegment (file : ElfFile) (strings : ℕ) (seg_start_addr : Seg → BitVec 64) (offset : ℕ) :
    Except LoadFault (Seg → BitVec 64) := do
  let sh_name ← file.field offset 4
  let sh_addr ← file.field (offset + 16) 8
  let isText ← file.streq (strings + sh_name.toNat) (sectionName ".text")
  let isData ← file.streq (strings + sh_name.toNat) (sectionName ".data")
  let seg_start_addr :=
    if isText then Function.update seg_start_addr .text sh_addr else seg_start_addr
  pure (if isData then Function.update seg_start_addr .data sh_addr else seg_start_addr)

/-- The loop over the section headers. -/
def moveSegments (file : ElfFile) (seg_start_addr : Seg → BitVec 64) :
    Except LoadFault (Seg → BitVec 64) := do
  let e_shoff ← file.field 40 8
  let e_shentsize ← file.field 58 2
  let e_shnum ← file.field 60 2
  let e_shstrndx ← file.field 62 2
  let strings ← file.field (e_shoff.toNat + e_shstrndx.toNat * e_shentsize.toNat + 24) 8
  (List.range e_shnum.toNat).foldlM
    (fun seg_start_addr i ↦
      moveSegment file strings.toNat seg_start_addr (e_shoff.toNat + i * e_shentsize.toNat))
    seg_start_addr

/-- What `loadElf` leaves behind: the entry point it returns, the page table, the segment starts,
and the file offsets that the copy loops have read. -/
structure Loaded where
  entry : BitVec 64
  ptable : Ptable
  seg_start_addr : Seg → BitVec 64
  reads : List ℕ

/-- `loadElf`, on a page table and segment starts. -/
def loadElf (file : ElfFile) (pt : Ptable) (seg_start_addr : Seg → BitVec 64) :
    Except LoadFault Loaded := do
  let e_type ← file.field 16 2
  if e_type ≠ ET_EXEC then .error .assertFailed
  else do
    let entry ← file.field 24 8
    let phdrs ← file.programHeaders
    let st ← phdrs.foldlM (loadSegment file) ⟨pt, []⟩
    let seg_start_addr ← moveSegments file seg_start_addr
    pure { entry, ptable := st.ptable, seg_start_addr, reads := st.reads }

end SystemEmulator
