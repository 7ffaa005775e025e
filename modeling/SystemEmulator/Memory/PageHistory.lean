import SystemEmulator.Memory.Loading

/-!
# Histories of the page table

Whatever has been loaded, read and written, the page table behaves as a flat array of bytes, and no
chain holds a page twice.
-/

namespace SystemEmulator

open LittleEndian Result

inductive PageOp where
  | read (addr : BitVec 64) (width : ℕ)
  | write (addr data : BitVec 64) (width : ℕ)
  | load (file : ElfFile)

namespace PageOp

def Step : PageOp → Ptable → Ptable → Prop
  | read addr width, pt, pt' => pt' = (memReadLE pt addr width).1
  | write addr data width, pt, pt' => pt' = memWriteLE pt addr data width
  | load file, pt, pt' => ∃ starts r, loadElf file pt starts = .ok r ∧ pt' = r.ptable

def Writes : PageOp → BitVec 64 → Prop
  | read _ _, _ => False
  | write addr _ width, a => (a - addr).toNat < width
  | load file, a => ∃ phdrs, file.programHeaders = .ok phdrs ∧ ∃ ph ∈ loads phdrs, ph.Copies a

end PageOp

/-- The page table after the operations, in order, from the empty one. -/
inductive PageRun : List PageOp → Ptable → Prop
  | nil : PageRun [] Ptable.empty
  | snoc {ops : List PageOp} {pt pt' : Ptable} {op : PageOp} (run : PageRun ops pt)
      (step : op.Step pt pt') : PageRun (ops ++ [op]) pt'

/-! ## No page is held twice -/

/-- No chain holds two entries with the same page number. -/
def Ptable.NoDuplicate (pt : Ptable) : Prop := ∀ idx, ((pt.chain idx).map Pte.p_num).Nodup

theorem Ptable.noDuplicate_empty : Ptable.empty.NoDuplicate := fun _ ↦ List.nodup_nil

theorem getPage_eq_none_iff (pt : Ptable) (num : BitVec 64) :
    getPage pt num = none ↔ num ∉ (pt.chain (ptableHash num)).map Pte.p_num := by
  unfold getPage
  rw [List.find?_eq_none, List.mem_map]
  constructor
  · rintro h ⟨p, hp, hnum⟩
    exact h p hp (beq_iff_eq.mpr hnum)
  · intro h p hp hnum
    exact h ⟨p, hp, beq_iff_eq.mp hnum⟩

/-- A page is added only where the lookup has failed. -/
theorem Ptable.NoDuplicate.touchPage {pt : Ptable} (h : pt.NoDuplicate) (num : BitVec 64) :
    (touchPage pt num).NoDuplicate := by
  unfold SystemEmulator.touchPage
  cases hpage : getPage pt num with
  | some page => exact h
  | none =>
    intro idx
    by_cases hidx : idx = ptableHash num
    · subst hidx
      change (List.map Pte.p_num (Function.update pt.chain _ _ (ptableHash num))).Nodup
      rw [Function.update_self, List.map_cons, List.nodup_cons]
      exact ⟨(getPage_eq_none_iff pt num).mp hpage, h _⟩
    · change (List.map Pte.p_num (Function.update pt.chain _ _ idx)).Nodup
      rw [Function.update_of_ne hidx]
      exact h idx

/-- A store keeps the page numbers of its chain. -/
theorem map_p_num_setPageByte (num : BitVec 64) (poff : ℕ) (data : BitVec 8) (chain : List Pte) :
    (setPageByte num poff data chain).map Pte.p_num = chain.map Pte.p_num := by
  induction chain with
  | nil => rfl
  | cons p chain ih =>
    unfold setPageByte
    split
    · rfl
    · rw [List.map_cons, List.map_cons, ih]

theorem Ptable.NoDuplicate.memWriteByte {pt : Ptable} (h : pt.NoDuplicate) (addr : BitVec 64)
    (data : BitVec 8) : (memWriteByte pt addr data).NoDuplicate := by
  have htouch := h.touchPage (pageNum addr)
  intro idx
  by_cases hidx : idx = ptableHash (pageNum addr)
  · subst hidx
    change (List.map Pte.p_num
      (Function.update (SystemEmulator.touchPage pt (pageNum addr)).chain _ _
        (ptableHash (pageNum addr)))).Nodup
    rw [Function.update_self, map_p_num_setPageByte]
    exact htouch _
  · change (List.map Pte.p_num
      (Function.update (SystemEmulator.touchPage pt (pageNum addr)).chain _ _ idx)).Nodup
    rw [Function.update_of_ne hidx]
    exact htouch idx

theorem Ptable.NoDuplicate.memReadLE {pt : Ptable} (h : pt.NoDuplicate) (addr : BitVec 64)
    (width : ℕ) : (memReadLE pt addr width).1.NoDuplicate := by
  have hloop : ∀ (n : ℕ) (pt : Ptable) (retval : BitVec 64), pt.NoDuplicate →
      (memReadLELoop addr n pt retval).1.NoDuplicate := by
    intro n
    induction n with
    | zero => exact fun _ _ h ↦ h
    | succ n ih => exact fun pt retval h ↦ ih _ _ (h.touchPage _)
  exact hloop width pt 0 h

theorem Ptable.NoDuplicate.memWriteLE {pt : Ptable} (h : pt.NoDuplicate) (addr data : BitVec 64)
    (width : ℕ) : (memWriteLE pt addr data width).NoDuplicate := by
  induction width with
  | zero => exact h
  | succ n ih =>
    rw [memWriteLE_succ]
    exact ih.memWriteByte _ _

theorem Ptable.NoDuplicate.mapBss {pt : Ptable} (h : pt.NoDuplicate) (ph : Phdr) :
    (mapBss ph pt).NoDuplicate := by
  unfold SystemEmulator.mapBss
  split
  · exact List.foldlRecOn (motive := Ptable.NoDuplicate) _ _ h fun _ hpt _ _ ↦ hpt.touchPage _
  · exact h

/-- A computation that folds over a list keeps what each of its steps keeps. -/
theorem foldlM_ensures {ε α β : Type} {f : β → α → Except ε β} {P : β → Prop} (l : List α)
    (hstep : ∀ b, P b → ∀ x ∈ l, Ensures (f b x) P) {b : β} (hb : P b) :
    Ensures (l.foldlM f b) P := by
  induction l generalizing b with
  | nil => exact Ensures.ok hb
  | cons x l ih =>
    rw [List.foldlM_cons]
    exact (hstep b hb x List.mem_cons_self).bind fun b' hb' ↦
      ih (fun b hb x hx ↦ hstep b hb x (List.mem_cons_of_mem _ hx)) hb'

theorem loadSegment_noDuplicate (file : ElfFile) (ph : Phdr) {st : LoadState}
    (h : st.ptable.NoDuplicate) :
    Ensures (loadSegment file st ph) fun st' ↦ st'.ptable.NoDuplicate := by
  unfold loadSegment
  split
  · refine (foldlM_ensures (P := fun st : LoadState ↦ st.ptable.NoDuplicate) _
      (fun st hst j _ ↦ ?_) h).bind fun st' hst' ↦ Ensures.ok (hst'.mapBss ph)
    unfold copyByte
    exact Ensures.bind (P := fun _ ↦ True) (fun _ _ ↦ trivial) fun byte _ ↦
      Ensures.ok (hst.memWriteByte _ byte)
  · exact Ensures.ok h

/-- What a load that succeeds has done to the page table. -/
theorem loadElf_ok {file : ElfFile} {pt : Ptable} {starts : Seg → BitVec 64} {r : Loaded}
    (h : loadElf file pt starts = .ok r) : ∃ phdrs st, file.programHeaders = .ok phdrs ∧
      phdrs.foldlM (loadSegment file) ⟨pt, []⟩ = .ok st ∧ r.ptable = st.ptable := by
  unfold loadElf at h
  obtain ⟨e_type, -, h⟩ := bind_eq_ok.mp h
  by_cases hexec : e_type = ET_EXEC
  · rw [if_neg (not_not.mpr hexec)] at h
    obtain ⟨entry, -, h⟩ := bind_eq_ok.mp h
    obtain ⟨phdrs, hphdrs, h⟩ := bind_eq_ok.mp h
    obtain ⟨st, hst, h⟩ := bind_eq_ok.mp h
    obtain ⟨starts', -, h⟩ := bind_eq_ok.mp h
    cases h
    exact ⟨phdrs, st, hphdrs, hst, rfl⟩
  · rw [if_pos hexec] at h
    cases h

theorem PageOp.Step.noDuplicate {op : PageOp} {pt pt' : Ptable} (hstep : op.Step pt pt')
    (h : pt.NoDuplicate) : pt'.NoDuplicate := by
  cases op with
  | read addr width => exact hstep ▸ h.memReadLE addr width
  | write addr data width => exact hstep ▸ h.memWriteLE addr data width
  | load file =>
    obtain ⟨starts, r, hr, rfl⟩ := hstep
    obtain ⟨phdrs, st, -, hst, hpt⟩ := loadElf_ok hr
    rw [hpt]
    exact foldlM_ensures (P := fun st : LoadState ↦ st.ptable.NoDuplicate) phdrs
      (fun _ hst ph _ ↦ loadSegment_noDuplicate file ph hst) h st hst

theorem PageRun.noDuplicate {ops : List PageOp} {pt : Ptable} (h : PageRun ops pt) :
    pt.NoDuplicate := by
  induction h with
  | nil => exact Ptable.noDuplicate_empty
  | snoc _ hstep ih => exact hstep.noDuplicate ih

/-! ## Bytes that are not written -/

/-- A write of any width keeps the bytes outside its range. -/
theorem byteAt_memWriteLE_of_not_lt (pt : Ptable) (addr data : BitVec 64) {width : ℕ}
    {a : BitVec 64} (ha : ¬(a - addr).toNat < width) :
    byteAt (memWriteLE pt addr data width) a = byteAt pt a := by
  induction width with
  | zero => rfl
  | succ n ih =>
    have hne : a ≠ addr + BitVec.ofNat 64 n := by
      rintro rfl
      rw [BitVec.add_comm, BitVec.add_sub_cancel, BitVec.toNat_ofNat] at ha
      exact ha (Nat.lt_succ_of_le (Nat.mod_le n _))
    rw [memWriteLE_succ, byteAt_memWriteByte, if_neg hne, ih (by omega)]

theorem PageOp.Step.byteAt {op : PageOp} {pt pt' : Ptable} (hstep : op.Step pt pt') {a : BitVec 64}
    (ha : ¬op.Writes a) : SystemEmulator.byteAt pt' a = SystemEmulator.byteAt pt a := by
  cases op with
  | read addr width => exact hstep ▸ byteAt_memReadLE pt addr width a
  | write addr data width => exact hstep ▸ byteAt_memWriteLE_of_not_lt pt addr data ha
  | load file =>
    obtain ⟨starts, r, hr, rfl⟩ := hstep
    obtain ⟨phdrs, st, hphdrs, hst, hpt⟩ := loadElf_ok hr
    rw [foldlM_loads] at hst
    rw [hpt]
    exact loadSegments_untouched (fun _ ↦ p_type_of_mem_loads) hst
      fun ph hmem hcopies ↦ ha ⟨phdrs, hphdrs, ph, hmem, hcopies⟩

theorem PageRun.byteAt_eq_zero {ops : List PageOp} {pt : Ptable} (h : PageRun ops pt)
    {a : BitVec 64} (ha : ∀ op ∈ ops, ¬op.Writes a) : byteAt pt a = 0 := by
  induction h with
  | nil => rfl
  | @snoc ops pt pt' op _ hstep ih =>
    rw [hstep.byteAt (ha op (by simp))]
    exact ih fun op hmem ↦ ha op (by simp [hmem])

/-! ## The flat array -/

/-- The low bytes of a word, as a number. -/
theorem word_byte_toNat (v : BitVec 64) (n : ℕ) :
    (word (byte v) n).toNat = v.toNat % 2 ^ (8 * n) := by
  have hword : word (byte v) n = (v.setWidth (8 * n)).setWidth 64 := by
    apply BitVec.eq_of_getLsbD_eq
    intro i hi
    rw [word_byte_getLsbD, BitVec.getLsbD_setWidth, BitVec.getLsbD_setWidth]
    simp [hi]
  have hlt : v.toNat % 2 ^ (8 * n) < 2 ^ 64 := lt_of_le_of_lt (Nat.mod_le _ _) v.isLt
  rw [hword, BitVec.toNat_setWidth, BitVec.toNat_setWidth, Nat.mod_eq_of_lt hlt]

/-- The page table behaves as a flat little-endian array of bytes. -/
structure Ptable.Flat (pt : Ptable) (ops : List PageOp) : Prop where
  read_write : ∀ (addr data : BitVec 64) (width : ℕ), width ≤ 8 →
    (memReadLE (memWriteLE pt addr data width) addr width).2.toNat = data.toNat % 2 ^ (8 * width)
  write_frame : ∀ (addr data : BitVec 64) (width : ℕ) (a : BitVec 64) (width' : ℕ),
    (∀ i < width', ¬(a + BitVec.ofNat 64 i - addr).toNat < width) →
      (memReadLE (memWriteLE pt addr data width) a width').2 = (memReadLE pt a width').2
  read_frame : ∀ (addr : BitVec 64) (width : ℕ) (a : BitVec 64) (width' : ℕ),
    (memReadLE (memReadLE pt addr width).1 a width').2 = (memReadLE pt a width').2
  unwritten : ∀ a, (∀ op ∈ ops, ¬op.Writes a) → (memReadLE pt a 1).2 = 0
  no_duplicate : pt.NoDuplicate
  hash_lt : ∀ num, ptableHash num < HASHSIZE

/-- Every page table that loads, reads and writes can reach behaves as a flat array. -/
theorem pageRun_flat {ops : List PageOp} {pt : Ptable} (h : PageRun ops pt) : pt.Flat ops where
  read_write := by
    intro addr data width hwidth
    rw [← word_byte_toNat data width, memReadLE_snd]
    congr 1
    refine word_congr fun i hi ↦ ?_
    have hi' : (addr + BitVec.ofNat 64 i - addr).toNat = i := (eq_add_ofNat_iff (by omega)).mp rfl
    rw [byteAt_memWriteLE pt addr data hwidth, hi', if_pos hi]
  write_frame := by
    intro addr data width a width' hout
    rw [memReadLE_snd, memReadLE_snd]
    exact word_congr fun i hi ↦ byteAt_memWriteLE_of_not_lt pt addr data (hout i hi)
  read_frame := by
    intro addr width a width'
    rw [memReadLE_snd, memReadLE_snd]
    exact word_congr fun i _ ↦ byteAt_memReadLE pt addr width _
  unwritten := by
    intro a ha
    have hzero := h.byteAt_eq_zero ha
    rw [memReadLE_snd, word, word, BitVec.ofNat_eq_ofNat, BitVec.add_zero, hzero]
    rfl
  no_duplicate := h.noDuplicate
  hash_lt := fun _ ↦ Nat.mod_lt _ (by decide)

/-- A word is written and read across the end of a page. -/
theorem pageRun_flat_crossing :
    (memReadLE (memWriteLE (memReadLE Ptable.empty 0x400FFC 8).1 0x400FFC 0x1122334455667788 8)
      0x400FFC 8).2.toNat = 0x1122334455667788 := by
  have hrun : PageRun [.read 0x400FFC 8] (memReadLE Ptable.empty 0x400FFC 8).1 :=
    PageRun.snoc .nil rfl
  exact (pageRun_flat hrun).read_write 0x400FFC 0x1122334455667788 8 (by decide)

end SystemEmulator
