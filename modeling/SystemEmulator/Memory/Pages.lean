import SystemEmulator.Base.Ptable
import SystemEmulator.Library.LittleEndian
import Mathlib.Tactic.Common

/-!
# The page table as a flat byte array

`byteAt` is the content of the page table.  Reading, and the pages it materialises, leave the
content unchanged; writing changes the bytes of the access and no others.
-/

namespace SystemEmulator

open LittleEndian

theorem pageNum_toNat (addr : BitVec 64) : (pageNum addr).toNat = addr.toNat / 4096 := by
  simp [pageNum, PAGESIZE]

theorem pageOff_eq (addr : BitVec 64) : pageOff addr = addr.toNat % 4096 := by
  simp [pageOff, PAGESIZE]

/-- An address is determined by its page number and its page offset. -/
theorem eq_of_page_eq {a b : BitVec 64} (hnum : pageNum a = pageNum b)
    (hoff : pageOff a = pageOff b) : a = b := by
  have hnum' := congrArg BitVec.toNat hnum
  rw [pageNum_toNat, pageNum_toNat] at hnum'
  rw [pageOff_eq, pageOff_eq] at hoff
  apply BitVec.eq_of_toNat_eq
  omega

/-! ## Lookups -/

/-- An added page is found under its own number and hides nothing else. -/
theorem getPage_addPage (pt : Ptable) (num num' : BitVec 64) :
    getPage (addPage pt num) num' =
      if num' = num then some ⟨num, fun _ ↦ 0⟩ else getPage pt num' := by
  unfold getPage addPage
  by_cases hnum : num' = num
  · subst hnum
    simp
  · by_cases hhash : ptableHash num' = ptableHash num
    · simp [hhash, hnum, Ne.symm hnum]
    · simp [hhash, hnum]

theorem getPage_touchPage (pt : Ptable) (num num' : BitVec 64) :
    getPage (touchPage pt num) num' =
      if num' = num then some ((getPage pt num).getD ⟨num, fun _ ↦ 0⟩) else getPage pt num' := by
  unfold touchPage
  cases hpage : getPage pt num with
  | some page =>
    by_cases hnum : num' = num
    · simp [hnum, hpage]
    · simp [hnum]
  | none => simp [getPage_addPage]

/-- Materialising a page does not change the content. -/
theorem byteAt_touchPage (pt : Ptable) (num addr : BitVec 64) :
    byteAt (touchPage pt num) addr = byteAt pt addr := by
  unfold byteAt
  rw [getPage_touchPage]
  by_cases hnum : pageNum addr = num
  · subst hnum
    cases hpage : getPage pt (pageNum addr) <;> simp
  · simp [hnum]

/-- A store through the page pointer changes the first entry with this number. -/
theorem find?_setPageByte (num num' : BitVec 64) (poff : ℕ) (data : BitVec 8) (chain : List Pte) :
    (setPageByte num poff data chain).find? (fun p ↦ p.p_num == num') =
      if num' = num then
        (chain.find? (fun p ↦ p.p_num == num')).map
          fun p ↦ { p with p_data := Function.update p.p_data poff data }
      else chain.find? (fun p ↦ p.p_num == num') := by
  induction chain with
  | nil => simp [setPageByte]
  | cons p chain ih =>
    by_cases hp : p.p_num = num
    · by_cases hnum : num' = num
      · simp [setPageByte, hp, hnum]
      · have hne : ¬num = num' := fun h ↦ hnum h.symm
        simp [setPageByte, hp, hnum, hne]
    · have hstep : setPageByte num poff data (p :: chain) =
          p :: setPageByte num poff data chain := if_neg hp
      rw [hstep, List.find?_cons, List.find?_cons, ih]
      by_cases hnum : num' = num
      · have hfst : (p.p_num == num) = false := beq_false_of_ne hp
        simp [hnum, hfst]
      · rw [if_neg hnum, if_neg hnum]

/-- Writing a byte changes exactly this byte. -/
theorem byteAt_memWriteByte (pt : Ptable) (addr : BitVec 64) (data : BitVec 8) (a : BitVec 64) :
    byteAt (memWriteByte pt addr data) a = if a = addr then data else byteAt pt a := by
  have hlookup : ∀ num, getPage (memWriteByte pt addr data) num =
      if num = pageNum addr then
        (getPage (touchPage pt (pageNum addr)) num).map
          fun p ↦ { p with p_data := Function.update p.p_data (pageOff addr) data }
      else getPage (touchPage pt (pageNum addr)) num := by
    intro num
    unfold memWriteByte getPage
    by_cases hhash : ptableHash num = ptableHash (pageNum addr)
    · simp [hhash, find?_setPageByte]
    · have hnum : num ≠ pageNum addr := fun h ↦ hhash (by rw [h])
      simp [hhash, hnum]
  by_cases haddr : a = addr
  · subst haddr
    simp [byteAt, hlookup, getPage_touchPage]
  · rw [if_neg haddr, ← byteAt_touchPage pt (pageNum addr) a, byteAt, hlookup, byteAt]
    by_cases hnum : pageNum a = pageNum addr
    · have hoff : pageOff a ≠ pageOff addr := fun h ↦ haddr (eq_of_page_eq hnum h)
      rw [hnum, if_pos rfl]
      cases getPage (touchPage pt (pageNum addr)) (pageNum addr) <;>
        simp [Function.update_of_ne hoff]
    · rw [if_neg hnum]

/-! ## Little-endian accesses -/

theorem memReadByte_snd (pt : Ptable) (addr : BitVec 64) :
    (memReadByte pt addr).2 = byteAt pt addr := by
  rw [← byteAt_touchPage pt (pageNum addr) addr]
  rfl

theorem byteAt_memReadByte (pt : Ptable) (addr a : BitVec 64) :
    byteAt (memReadByte pt addr).1 a = byteAt pt a :=
  byteAt_touchPage pt (pageNum addr) a

theorem byteAt_memReadLELoop (addr : BitVec 64) (n : ℕ) (pt : Ptable) (retval a : BitVec 64) :
    byteAt (memReadLELoop addr n pt retval).1 a = byteAt pt a := by
  induction n generalizing pt retval with
  | zero => rfl
  | succ n ih => rw [memReadLELoop, ih, byteAt_memReadByte]

/-- Reading leaves the content unchanged. -/
@[simp]
theorem byteAt_memReadLE (pt : Ptable) (addr : BitVec 64) (width : ℕ) (a : BitVec 64) :
    byteAt (memReadLE pt addr width).1 a = byteAt pt a :=
  byteAt_memReadLELoop addr width pt 0 a

theorem memReadLELoop_snd (addr : BitVec 64) (n : ℕ) (pt : Ptable) (retval : BitVec 64) :
    (memReadLELoop addr n pt retval).2 =
      (retval <<< (8 * n)) ||| word (fun i ↦ byteAt pt (addr + BitVec.ofNat 64 i)) n := by
  induction n generalizing pt retval with
  | zero => simp [memReadLELoop, word]
  | succ n ih =>
    rw [memReadLELoop, ih, memReadByte_snd, shift_add]
    have hbytes : word (fun i ↦ byteAt (memReadByte pt (addr + BitVec.ofNat 64 n)).1
        (addr + BitVec.ofNat 64 i)) n = word (fun i ↦ byteAt pt (addr + BitVec.ofNat 64 i)) n :=
      word_congr fun i _ ↦ byteAt_memReadByte _ _ _
    rw [hbytes, word, BitVec.shiftLeft_or_distrib, ← BitVec.shiftLeft_add, Nat.mul_add,
      Nat.mul_one, Nat.add_comm 8, BitVec.or_assoc, BitVec.or_comm (word _ n)]

/-- The value read is spelled by the bytes of the range. -/
theorem memReadLE_snd (pt : Ptable) (addr : BitVec 64) (width : ℕ) :
    (memReadLE pt addr width).2 = word (fun i ↦ byteAt pt (addr + BitVec.ofNat 64 i)) width := by
  rw [memReadLE, memReadLELoop_snd]
  simp

/-- A one-byte read. -/
theorem memReadLE_one (pt : Ptable) (addr : BitVec 64) :
    (memReadLE pt addr 1).2.setWidth 8 = byteAt pt addr := by
  have hbyte := byte_word (fun i ↦ byteAt pt (addr + BitVec.ofNat 64 i)) (n := 1) (i := 0)
    (by omega) (by omega)
  rw [memReadLE_snd]
  simpa [byte] using hbyte

theorem memWriteLE_succ (pt : Ptable) (addr data : BitVec 64) (n : ℕ) :
    memWriteLE pt addr data (n + 1) =
      memWriteByte (memWriteLE pt addr data n) (addr + BitVec.ofNat 64 n) (byte data n) := by
  simp [memWriteLE, List.range_succ, byte]

/-- The distance of an address from the start of an access. -/
theorem eq_add_ofNat_iff {a addr : BitVec 64} {i : ℕ} (hi : i < 2 ^ 64) :
    a = addr + BitVec.ofNat 64 i ↔ (a - addr).toNat = i := by
  constructor
  · rintro rfl
    rw [BitVec.add_comm, BitVec.add_sub_cancel, BitVec.toNat_ofNat, Nat.mod_eq_of_lt hi]
  · intro h
    rw [← h, BitVec.ofNat_toNat, BitVec.setWidth_eq, BitVec.add_comm, BitVec.sub_add_cancel]

/-- Writing changes exactly the bytes of the range, which spell the data. -/
theorem byteAt_memWriteLE (pt : Ptable) (addr data : BitVec 64) {width : ℕ} (hwidth : width ≤ 8)
    (a : BitVec 64) :
    byteAt (memWriteLE pt addr data width) a =
      if (a - addr).toNat < width then byte data (a - addr).toNat else byteAt pt a := by
  induction width with
  | zero => simp [memWriteLE]
  | succ n ih =>
    rw [memWriteLE_succ, byteAt_memWriteByte, ih (by omega)]
    simp only [eq_add_ofNat_iff (show n < 2 ^ 64 by omega)]
    by_cases hlast : (a - addr).toNat = n
    · rw [if_pos hlast, if_pos (by omega), hlast]
    · rw [if_neg hlast]
      by_cases hlow : (a - addr).toNat < n
      · rw [if_pos hlow, if_pos (by omega)]
      · rw [if_neg hlow, if_neg (by omega)]

theorem byteAt_memWriteLE_one (pt : Ptable) (addr : BitVec 64) (data : BitVec 8) (a : BitVec 64) :
    byteAt (memWriteLE pt addr (data.setWidth 64) 1) a =
      if a = addr then data else byteAt pt a := by
  rw [memWriteLE_succ, byteAt_memWriteByte]
  simp [memWriteLE, byte]

end SystemEmulator
