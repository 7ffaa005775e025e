import SystemEmulator.Base.ElfLoader
import SystemEmulator.Library.Result
import SystemEmulator.Memory.Pages
import Mathlib.Data.List.Pairwise

/-!
# What the ELF loader leaves in memory

The copy loop of a segment goes on for `v_align` bytes behind the end of the file part.  A byte of
the guest memory comes from the last segment whose copy loop reaches it, and the load is faithful
exactly when those tails do no harm.
-/

namespace SystemEmulator

open Result

/-! ## The image that a file describes -/

namespace Phdr

def InMem (ph : Phdr) (a : BitVec 64) : Prop := (a - ph.p_vaddr).toNat < ph.p_memsz.toNat

def InFile (ph : Phdr) (a : BitVec 64) : Prop := (a - ph.p_vaddr).toNat < ph.p_filesz.toNat

instance (ph : Phdr) (a : BitVec 64) : Decidable (ph.InFile a) :=
  inferInstanceAs (Decidable (_ < _))

def copyLength (ph : Phdr) : ℕ := (ph.p_filesz + ph.vAlign).toNat

def Copies (ph : Phdr) (a : BitVec 64) : Prop := (a - ph.p_vaddr).toNat < ph.copyLength

instance (ph : Phdr) (a : BitVec 64) : Decidable (ph.Copies a) :=
  inferInstanceAs (Decidable (_ < _))

def Disjoint (ph ph' : Phdr) : Prop := ∀ a, ¬(ph.InMem a ∧ ph'.InMem a)

instance : Std.Symm Disjoint := ⟨fun _ _ h a hboth ↦ h a hboth.symm⟩

def OwnsOffset (ph : Phdr) (o : ℕ) : Prop :=
  ph.p_offset.toNat ≤ o ∧ o < ph.p_offset.toNat + ph.p_filesz.toNat

end Phdr

def loads (phdrs : List Phdr) : List Phdr := phdrs.filter fun ph ↦ decide (ph.p_type = PT_LOAD)

structure ElfFile.WellFormed (file : ElfFile) (phdrs : List Phdr) : Prop where
  size_lt : file.size < 2 ^ 63
  exec : file.field 16 2 = .ok ET_EXEC
  entry : ∃ entry, file.field 24 8 = .ok entry
  headers : file.programHeaders = .ok phdrs
  sections : ∀ starts, ∃ starts', moveSegments file starts = .ok starts'
  filesz_le : ∀ ph ∈ loads phdrs, ph.p_filesz.toNat ≤ ph.p_memsz.toNat
  in_file : ∀ ph ∈ loads phdrs, ph.p_offset.toNat + ph.p_filesz.toNat ≤ file.size
  disjoint : (loads phdrs).Pairwise Phdr.Disjoint

/-- The byte that the file describes for an address. -/
def ElfFile.imageByte (file : ElfFile) (segments : List Phdr) (a : BitVec 64) : BitVec 8 :=
  match segments.find? fun ph ↦ decide (ph.InFile a) with
  | some ph => file.byte (ph.p_offset.toNat + (a - ph.p_vaddr).toNat)
  | none => 0

/-- A load that puts the bytes of the segments in place, and reads and writes no others. -/
structure Loaded.Faithful (r : Loaded) (file : ElfFile) (segments : List Phdr) : Prop where
  file_bytes : ∀ ph ∈ segments, ∀ j < ph.p_filesz.toNat,
    byteAt r.ptable (ph.p_vaddr + BitVec.ofNat 64 j) = file.byte (ph.p_offset.toNat + j)
  bss : ∀ ph ∈ segments, ∀ j, ph.p_filesz.toNat ≤ j → j < ph.p_memsz.toNat →
    byteAt r.ptable (ph.p_vaddr + BitVec.ofNat 64 j) = 0
  outside : ∀ a, (∀ ph ∈ segments, ¬ph.InMem a) → byteAt r.ptable a = 0
  reads : ∀ o ∈ r.reads, ∃ ph ∈ segments, ph.OwnsOffset o

/-- Each of the `v_align` bytes that the copy loop of a segment handles behind its file part belongs
to a segment, and is the byte that the file describes for its address or is overwritten by the copy
loop of a later segment. -/
def ElfFile.TailsHarmless (file : ElfFile) (segments : List Phdr) : Prop :=
  ∀ before ph after, segments = before ++ ph :: after → ∀ k < ph.vAlign.toNat,
    (∃ ph' ∈ segments, ph'.OwnsOffset (ph.p_offset.toNat + ph.p_filesz.toNat + k)) ∧
    ((∃ ph' ∈ after, ph'.Copies (ph.p_vaddr + ph.p_filesz + BitVec.ofNat 64 k)) ∨
      file.byte (ph.p_offset.toNat + ph.p_filesz.toNat + k) =
        file.imageByte segments (ph.p_vaddr + ph.p_filesz + BitVec.ofNat 64 k))

/-! ## One segment -/

/-- What a successful read of the mapping yields. -/
def ElfFile.mappedByte (file : ElfFile) (i : ℕ) : BitVec 8 :=
  if i < file.size then file.byte i else 0

theorem ElfFile.readByte_eq {file : ElfFile} {i : ℕ} {byte : BitVec 8}
    (h : file.readByte i = .ok byte) : byte = file.mappedByte i := by
  unfold ElfFile.readByte at h
  unfold ElfFile.mappedByte
  by_cases hlt : i < file.size
  · rw [if_pos hlt] at h ⊢
    exact (Except.ok.inj h).symm
  · rw [if_neg hlt] at h ⊢
    by_cases hmapped : i < (file.size + (PAGESIZE - 1)) / PAGESIZE * PAGESIZE
    · rw [if_pos hmapped] at h
      exact (Except.ok.inj h).symm
    · rw [if_neg hmapped] at h
      cases h

theorem ElfFile.readByte_of_lt {file : ElfFile} {i : ℕ} (h : i < file.size) :
    file.readByte i = .ok (file.byte i) := if_pos h

theorem byteAt_mapBss (ph : Phdr) (pt : Ptable) (a : BitVec 64) :
    byteAt (mapBss ph pt) a = byteAt pt a := by
  have hfold : ∀ (js : List ℕ) (pt : Ptable), byteAt (js.foldl (fun pt j ↦
      touchPage pt (pageNum (ph.p_vaddr + ph.fAlign + BitVec.ofNat 64 j))) pt) a = byteAt pt a := by
    intro js
    induction js with
    | nil => exact fun _ ↦ rfl
    | cons j js ih => exact fun pt ↦ (ih _).trans (byteAt_touchPage _ _ _)
  unfold mapBss
  split
  · exact hfold _ _
  · rfl

/-- The first `n` iterations of the copy loop; the induction is on `n`. -/
theorem copyLoop_ok (file : ElfFile) (ph : Phdr) {n : ℕ} (hn : n ≤ 2 ^ 64) {st st' : LoadState}
    (h : (List.range n).foldlM (copyByte file ph) st = .ok st') :
    (∀ a, byteAt st'.ptable a =
      if (a - ph.p_vaddr).toNat < n then
        file.mappedByte (ph.p_offset.toNat + (a - ph.p_vaddr).toNat)
      else byteAt st.ptable a) ∧
    st'.reads = st.reads ++ (List.range n).map (ph.p_offset.toNat + ·) := by
  induction n generalizing st' with
  | zero =>
    cases h
    exact ⟨fun a ↦ by rw [if_neg (Nat.not_lt_zero _)], (List.append_nil _).symm⟩
  | succ n ih =>
    rw [List.range_succ, List.foldlM_append] at h
    obtain ⟨st₁, hst₁, hlast⟩ := bind_eq_ok.mp h
    obtain ⟨hbytes, hreads⟩ := ih (by omega) hst₁
    rw [List.foldlM_cons] at hlast
    obtain ⟨st₂, hst₂, hnil⟩ := bind_eq_ok.mp hlast
    cases hnil
    obtain ⟨byte, hbyte, hok⟩ := bind_eq_ok.mp hst₂
    cases hok
    refine ⟨fun a ↦ ?_, ?_⟩
    · change byteAt (memWriteByte st₁.ptable _ byte) a = _
      rw [byteAt_memWriteByte, hbytes]
      simp only [eq_add_ofNat_iff (show n < 2 ^ 64 by omega)]
      by_cases hlast : (a - ph.p_vaddr).toNat = n
      · rw [if_pos hlast, if_pos (by omega), hlast]
        exact ElfFile.readByte_eq hbyte
      · rw [if_neg hlast]
        by_cases hlow : (a - ph.p_vaddr).toNat < n
        · rw [if_pos hlow, if_pos (by omega)]
        · rw [if_neg hlow, if_neg (by omega)]
    · change st₁.reads ++ [ph.p_offset.toNat + n] = _
      rw [hreads, List.range_succ, List.map_append, List.append_assoc]
      rfl

theorem copyLoop_exists (file : ElfFile) (ph : Phdr) (n : ℕ) (st : LoadState)
    (hread : ∀ j < n, ph.p_offset.toNat + j < file.size) :
    ∃ st', (List.range n).foldlM (copyByte file ph) st = .ok st' := by
  induction n with
  | zero => exact ⟨st, rfl⟩
  | succ n ih =>
    obtain ⟨st₁, hst₁⟩ := ih fun j hj ↦ hread j (by omega)
    rw [List.range_succ, List.foldlM_append, hst₁]
    refine ⟨{ ptable := memWriteByte st₁.ptable (ph.p_vaddr + BitVec.ofNat 64 n)
                (file.byte (ph.p_offset.toNat + n))
              reads := st₁.reads ++ [ph.p_offset.toNat + n] }, ?_⟩
    change List.foldlM (copyByte file ph) st₁ [n] = _
    rw [List.foldlM_cons, copyByte, ElfFile.readByte_of_lt (hread n (Nat.lt_succ_self n))]
    rfl

/-- What the segment adds to the memory and to the reads. -/
theorem loadSegment_ok {file : ElfFile} {ph : Phdr} (hload : ph.p_type = PT_LOAD)
    {st st' : LoadState} (h : loadSegment file st ph = .ok st') :
    (∀ a, byteAt st'.ptable a =
      if ph.Copies a then file.mappedByte (ph.p_offset.toNat + (a - ph.p_vaddr).toNat)
      else byteAt st.ptable a) ∧
    ∀ o, o ∈ st'.reads ↔ o ∈ st.reads ∨ ∃ j < ph.copyLength, o = ph.p_offset.toNat + j := by
  unfold loadSegment at h
  rw [if_pos hload] at h
  obtain ⟨st₁, hcopy, hok⟩ := bind_eq_ok.mp h
  cases hok
  obtain ⟨hbytes, hreads⟩ := copyLoop_ok file ph (Nat.le_of_lt (BitVec.isLt _)) hcopy
  refine ⟨fun a ↦ (byteAt_mapBss ph _ a).trans (hbytes a), fun o ↦ ?_⟩
  change o ∈ st₁.reads ↔ _
  rw [hreads, List.mem_append, List.mem_map]
  simp only [List.mem_range, eq_comm (a := o)]
  rfl

theorem loadSegment_exists {file : ElfFile} {ph : Phdr} (hload : ph.p_type = PT_LOAD)
    (st : LoadState) (hread : ∀ j < ph.copyLength, ph.p_offset.toNat + j < file.size) :
    ∃ st', loadSegment file st ph = .ok st' := by
  obtain ⟨st₁, hcopy⟩ := copyLoop_exists file ph ph.copyLength st hread
  refine ⟨{ st₁ with ptable := mapBss ph st₁.ptable }, ?_⟩
  unfold loadSegment
  rw [if_pos hload]
  exact bind_eq_ok.mpr ⟨st₁, hcopy, rfl⟩

/-! ## All segments -/

theorem foldlM_loads (file : ElfFile) (phdrs : List Phdr) (st : LoadState) :
    phdrs.foldlM (loadSegment file) st = (loads phdrs).foldlM (loadSegment file) st := by
  induction phdrs generalizing st with
  | nil => rfl
  | cons ph phdrs ih =>
    by_cases hload : ph.p_type = PT_LOAD
    · rw [loads, List.filter_cons_of_pos (by simpa using hload), List.foldlM_cons, List.foldlM_cons]
      congr 1
      funext st'
      exact ih st'
    · have hskip : loadSegment file st ph = .ok st := if_neg hload
      rw [loads, List.filter_cons_of_neg (by simpa using hload), List.foldlM_cons, hskip]
      exact ih st

section

variable {file : ElfFile} {segments : List Phdr} (hload : ∀ ph ∈ segments, ph.p_type = PT_LOAD)
include hload

theorem loadSegments_exists
    (hread : ∀ ph ∈ segments, ∀ j < ph.copyLength, ph.p_offset.toNat + j < file.size)
    (st : LoadState) : ∃ st', segments.foldlM (loadSegment file) st = .ok st' := by
  induction segments generalizing st with
  | nil => exact ⟨st, rfl⟩
  | cons ph segments ih =>
    obtain ⟨st₁, hst₁⟩ := loadSegment_exists (hload ph List.mem_cons_self) st
      (hread ph List.mem_cons_self)
    obtain ⟨st', hst'⟩ := ih (fun ph' h ↦ hload ph' (List.mem_cons_of_mem _ h))
      (fun ph' h ↦ hread ph' (List.mem_cons_of_mem _ h)) st₁
    exact ⟨st', by rw [List.foldlM_cons, hst₁]; exact hst'⟩

theorem loadSegments_reads {st st' : LoadState}
    (h : segments.foldlM (loadSegment file) st = .ok st') (o : ℕ) :
    o ∈ st'.reads ↔
      o ∈ st.reads ∨ ∃ ph ∈ segments, ∃ j < ph.copyLength, o = ph.p_offset.toNat + j := by
  induction segments generalizing st with
  | nil =>
    cases h
    simp
  | cons ph segments ih =>
    rw [List.foldlM_cons] at h
    obtain ⟨st₁, hst₁, hrest⟩ := bind_eq_ok.mp h
    rw [ih (fun ph' h ↦ hload ph' (List.mem_cons_of_mem _ h)) hrest,
      (loadSegment_ok (hload ph List.mem_cons_self) hst₁).2 o, or_assoc]
    simp only [List.mem_cons, exists_eq_or_imp]

/-- An address that no copy loop reaches keeps its byte. -/
theorem loadSegments_untouched {st st' : LoadState}
    (h : segments.foldlM (loadSegment file) st = .ok st') {a : BitVec 64}
    (hnone : ∀ ph ∈ segments, ¬ph.Copies a) : byteAt st'.ptable a = byteAt st.ptable a := by
  induction segments generalizing st with
  | nil =>
    cases h
    rfl
  | cons ph segments ih =>
    rw [List.foldlM_cons] at h
    obtain ⟨st₁, hst₁, hrest⟩ := bind_eq_ok.mp h
    rw [ih (fun ph' h ↦ hload ph' (List.mem_cons_of_mem _ h)) hrest
        fun ph' h ↦ hnone ph' (List.mem_cons_of_mem _ h),
      (loadSegment_ok (hload ph List.mem_cons_self) hst₁).1 a, if_neg (hnone ph List.mem_cons_self)]

/-- An address holds the byte of the last segment whose copy loop reaches it. -/
theorem loadSegments_last {st st' : LoadState}
    (h : segments.foldlM (loadSegment file) st = .ok st') {a : BitVec 64} {before after : List Phdr}
    {ph : Phdr} (hsplit : segments = before ++ ph :: after) (hcopies : ph.Copies a)
    (hlast : ∀ ph' ∈ after, ¬ph'.Copies a) :
    byteAt st'.ptable a = file.mappedByte (ph.p_offset.toNat + (a - ph.p_vaddr).toNat) := by
  subst hsplit
  rw [List.foldlM_append] at h
  obtain ⟨st₁, hst₁, hrest⟩ := bind_eq_ok.mp h
  rw [List.foldlM_cons] at hrest
  obtain ⟨st₂, hst₂, hafter⟩ := bind_eq_ok.mp hrest
  rw [loadSegments_untouched (fun ph' h ↦ hload ph' (by simp [h])) hafter hlast,
    (loadSegment_ok (hload ph (by simp)) hst₂).1 a, if_pos hcopies]

end

/-- No element satisfies a predicate, or there is a last one that does. -/
theorem exists_last {α : Type} (p : α → Prop) [DecidablePred p] (l : List α) :
    (∀ x ∈ l, ¬p x) ∨ ∃ before x after, l = before ++ x :: after ∧ p x ∧ ∀ y ∈ after, ¬p y := by
  induction l with
  | nil => exact .inl fun x h ↦ absurd h List.not_mem_nil
  | cons x l ih =>
    rcases ih with hnone | ⟨before, y, after, hsplit, hy, hlast⟩
    · by_cases hx : p x
      · exact .inr ⟨[], x, l, rfl, hx, hnone⟩
      · left
        intro y hy
        rcases List.mem_cons.mp hy with rfl | hy
        · exact hx
        · exact hnone y hy
    · exact .inr ⟨x :: before, y, after, by rw [hsplit]; rfl, hy, hlast⟩

/-! ## Faithful loads -/

theorem p_type_of_mem_loads {phdrs : List Phdr} {ph : Phdr} (h : ph ∈ loads phdrs) :
    ph.p_type = PT_LOAD := by
  simpa using (List.mem_filter.mp h).2

theorem ElfFile.imageByte_of_not_inFile (file : ElfFile) {segments : List Phdr}
    {a : BitVec 64}
    (h : ∀ ph ∈ segments, ¬ph.InFile a) : file.imageByte segments a = 0 := by
  unfold ElfFile.imageByte
  rw [List.find?_eq_none.mpr fun ph hmem ↦ by simpa using h ph hmem]

section

variable {file : ElfFile} {phdrs : List Phdr} (hwf : file.WellFormed phdrs)
include hwf

/-- The copy loop handles the file part and `v_align` bytes more. -/
theorem ElfFile.WellFormed.copyLength_eq {ph : Phdr} (h : ph ∈ loads phdrs) :
    ph.copyLength = ph.p_filesz.toNat + ph.vAlign.toNat := by
  have hsize := hwf.size_lt
  have hfile := hwf.in_file ph h
  have halign : ph.vAlign.toNat < 4096 := by
    rw [Phdr.vAlign, BitVec.toNat_umod]
    exact Nat.mod_lt _ (by decide)
  unfold Phdr.copyLength
  rw [BitVec.toNat_add]
  omega

theorem ElfFile.WellFormed.inMem_of_inFile {ph : Phdr} (h : ph ∈ loads phdrs) {a : BitVec 64}
    (ha : ph.InFile a) : ph.InMem a :=
  lt_of_lt_of_le ha (hwf.filesz_le ph h)

/-- The segment of an address is unique. -/
theorem ElfFile.WellFormed.eq_of_inMem {ph ph' : Phdr} (h : ph ∈ loads phdrs)
    (h' : ph' ∈ loads phdrs) {a : BitVec 64} (ha : ph.InMem a) (ha' : ph'.InMem a) : ph = ph' := by
  by_contra hne
  exact hwf.disjoint.forall h h' hne a ⟨ha, ha'⟩

theorem ElfFile.WellFormed.imageByte_of_inFile {ph : Phdr} (h : ph ∈ loads phdrs) {a : BitVec 64}
    (ha : ph.InFile a) : file.imageByte (loads phdrs) a =
      file.byte (ph.p_offset.toNat + (a - ph.p_vaddr).toNat) := by
  unfold ElfFile.imageByte
  cases hfind : (loads phdrs).find? fun ph ↦ decide (ph.InFile a) with
  | none => exact absurd (decide_eq_true ha) (List.find?_eq_none.mp hfind ph h)
  | some ph' =>
    have hmem := List.mem_of_find?_eq_some hfind
    have ha' : ph'.InFile a := by simpa using List.find?_some hfind
    obtain rfl := hwf.eq_of_inMem h hmem (hwf.inMem_of_inFile h ha) (hwf.inMem_of_inFile hmem ha')
    rfl

/-- A load is faithful when the memory is the image and the reads are owned. -/
theorem Loaded.faithful_iff (r : Loaded) : r.Faithful file (loads phdrs) ↔
    (∀ a, byteAt r.ptable a = file.imageByte (loads phdrs) a) ∧
      ∀ o ∈ r.reads, ∃ ph ∈ loads phdrs, ph.OwnsOffset o := by
  have hdist : ∀ (ph : Phdr) {j : ℕ}, j < 2 ^ 64 →
      (ph.p_vaddr + BitVec.ofNat 64 j - ph.p_vaddr).toNat = j :=
    fun ph _ hj ↦ (eq_add_ofNat_iff hj).mp rfl
  have hback : ∀ (ph : Phdr) (a : BitVec 64),
      ph.p_vaddr + BitVec.ofNat 64 (a - ph.p_vaddr).toNat = a :=
    fun ph a ↦ ((eq_add_ofNat_iff (BitVec.isLt _)).mpr rfl).symm
  constructor
  · refine fun h ↦ ⟨fun a ↦ ?_, h.reads⟩
    by_cases hfile : ∃ ph ∈ loads phdrs, ph.InFile a
    · obtain ⟨ph, hmem, ha⟩ := hfile
      have hbyte := h.file_bytes ph hmem _ ha
      rw [hback] at hbyte
      rw [hbyte, hwf.imageByte_of_inFile hmem ha]
    · have hnot : ∀ ph ∈ loads phdrs, ¬ph.InFile a := fun ph hmem ha ↦ hfile ⟨ph, hmem, ha⟩
      rw [file.imageByte_of_not_inFile hnot]
      by_cases hin : ∃ ph ∈ loads phdrs, ph.InMem a
      · obtain ⟨ph, hmem, ha⟩ := hin
        have hbyte := h.bss ph hmem _ (not_lt.mp (hnot ph hmem)) ha
        rwa [hback] at hbyte
      · exact h.outside a fun ph hmem ha ↦ hin ⟨ph, hmem, ha⟩
  · rintro ⟨himage, hreads⟩
    refine ⟨fun ph hmem j hj ↦ ?_, fun ph hmem j hge hj ↦ ?_, fun a hout ↦ ?_, hreads⟩
    · have hj' := hdist ph (lt_trans hj (BitVec.isLt _))
      have ha : ph.InFile (ph.p_vaddr + BitVec.ofNat 64 j) := by
        unfold Phdr.InFile
        rw [hj']
        exact hj
      rw [himage, hwf.imageByte_of_inFile hmem ha, hj']
    · have hj' := hdist ph (lt_trans hj (BitVec.isLt _))
      have ha : ph.InMem (ph.p_vaddr + BitVec.ofNat 64 j) := by
        unfold Phdr.InMem
        rw [hj']
        exact hj
      rw [himage]
      refine file.imageByte_of_not_inFile fun ph' hmem' ha' ↦ ?_
      -- the file part of another segment would overlap this one
      obtain rfl := hwf.eq_of_inMem hmem hmem' ha (hwf.inMem_of_inFile hmem' ha')
      unfold Phdr.InFile at ha'
      rw [hj'] at ha'
      exact absurd ha' (not_lt.mpr hge)
    · rw [himage]
      exact file.imageByte_of_not_inFile fun ph hmem ha ↦
        hout ph hmem (hwf.inMem_of_inFile hmem ha)

/-- A well-formed file is loaded once its segments are. -/
theorem loadElf_eq_ok_iff (starts : Seg → BitVec 64) (P : Loaded → Prop)
    (hP : ∀ r r' : Loaded, P r → r.ptable = r'.ptable → r.reads = r'.reads → P r') :
    (∃ r, loadElf file Ptable.empty starts = .ok r ∧ P r) ↔
      ∃ st, (loads phdrs).foldlM (loadSegment file) ⟨Ptable.empty, []⟩ = .ok st ∧
        P ⟨0, st.ptable, starts, st.reads⟩ := by
  obtain ⟨entry, hentry⟩ := hwf.entry
  obtain ⟨starts', hstarts⟩ := hwf.sections starts
  have hload : loadElf file Ptable.empty starts =
      (loads phdrs).foldlM (loadSegment file) ⟨Ptable.empty, []⟩ >>= fun st ↦
        .ok ⟨entry, st.ptable, starts', st.reads⟩ := by
    unfold loadElf
    rw [hwf.exec, hentry, hwf.headers]
    change (phdrs.foldlM (loadSegment file) ⟨Ptable.empty, []⟩ >>= fun st ↦ _) = _
    rw [foldlM_loads, hstarts]
    rfl
  rw [hload]
  constructor
  · rintro ⟨r, hr, hPr⟩
    obtain ⟨st, hst, hok⟩ := bind_eq_ok.mp hr
    cases hok
    exact ⟨st, hst, hP _ _ hPr rfl rfl⟩
  · rintro ⟨st, hst, hPst⟩
    exact ⟨_, bind_eq_ok.mpr ⟨st, hst, rfl⟩, hP _ _ hPst rfl rfl⟩

/-- The distance of a byte of the tail from the start of the segment. -/
theorem ElfFile.WellFormed.tail_sub {ph : Phdr} (h : ph ∈ loads phdrs) {k : ℕ}
    (hk : k < ph.vAlign.toNat) :
    (ph.p_vaddr + ph.p_filesz + BitVec.ofNat 64 k - ph.p_vaddr).toNat = ph.p_filesz.toNat + k := by
  have hlength := hwf.copyLength_eq h
  have hlt : ph.copyLength < 2 ^ 64 := BitVec.isLt _
  refine (eq_add_ofNat_iff (by omega)).mp ?_
  rw [BitVec.ofNat_add, BitVec.ofNat_toNat, BitVec.setWidth_eq, BitVec.add_assoc]

/-- A faithful load: what a copy loop writes last behind the file part of a segment is what belongs
there. -/
theorem ElfFile.tailsHarmless_of_image {st : LoadState}
    (hst : (loads phdrs).foldlM (loadSegment file) ⟨Ptable.empty, []⟩ = .ok st)
    (himage : ∀ a, byteAt st.ptable a = file.imageByte (loads phdrs) a)
    (hreads : ∀ o ∈ st.reads, ∃ ph ∈ loads phdrs, ph.OwnsOffset o) :
    file.TailsHarmless (loads phdrs) := by
  have hload : ∀ ph ∈ loads phdrs, ph.p_type = PT_LOAD := fun _ ↦ p_type_of_mem_loads
  intro before ph after hsplit k hk
  have hmem : ph ∈ loads phdrs := by
    rw [hsplit]
    simp
  have hlength := hwf.copyLength_eq hmem
  have hread : ph.p_offset.toNat + ph.p_filesz.toNat + k ∈ st.reads :=
    (loadSegments_reads hload hst _).mpr
      (.inr ⟨ph, hmem, ph.p_filesz.toNat + k, by omega, by omega⟩)
  obtain ⟨ph', hmem', howns⟩ := hreads _ hread
  refine ⟨⟨ph', hmem', howns⟩, ?_⟩
  by_cases hafter : ∃ ph' ∈ after,
      ph'.Copies (ph.p_vaddr + ph.p_filesz + BitVec.ofNat 64 k)
  · exact .inl hafter
  · right
    have hsub := hwf.tail_sub hmem hk
    have hcopies : ph.Copies (ph.p_vaddr + ph.p_filesz + BitVec.ofNat 64 k) := by
      unfold Phdr.Copies
      rw [hsub]
      omega
    have hlast := loadSegments_last hload hst hsplit hcopies
      fun ph' hmem' hcopies' ↦ hafter ⟨ph', hmem', hcopies'⟩
    have hsize : ph.p_offset.toNat + (ph.p_filesz.toNat + k) < file.size := by
      have hfile := hwf.in_file ph' hmem'
      have hend := howns.2
      omega
    rw [← himage, hlast, hsub, ElfFile.mappedByte, if_pos hsize, Nat.add_assoc]

section

variable (htails : file.TailsHarmless (loads phdrs))
include htails

/-- Every byte that a copy loop reads belongs to a segment. -/
theorem ElfFile.TailsHarmless.owns {ph : Phdr} (hmem : ph ∈ loads phdrs) {j : ℕ}
    (hj : j < ph.copyLength) : ∃ ph' ∈ loads phdrs, ph'.OwnsOffset (ph.p_offset.toNat + j) := by
  by_cases hfile : j < ph.p_filesz.toNat
  · exact ⟨ph, hmem, by omega, by omega⟩
  · obtain ⟨before, after, hsplit⟩ := List.append_of_mem hmem
    rw [hwf.copyLength_eq hmem] at hj
    obtain ⟨howns, -⟩ := htails before ph after hsplit (j - ph.p_filesz.toNat) (by omega)
    rwa [show ph.p_offset.toNat + ph.p_filesz.toNat + (j - ph.p_filesz.toNat) =
      ph.p_offset.toNat + j by omega] at howns

theorem ElfFile.TailsHarmless.in_file {ph : Phdr} (hmem : ph ∈ loads phdrs) {j : ℕ}
    (hj : j < ph.copyLength) : ph.p_offset.toNat + j < file.size := by
  obtain ⟨ph', hmem', howns⟩ := htails.owns hwf hmem hj
  exact lt_of_lt_of_le howns.2 (hwf.in_file ph' hmem')

/-- The last copy loop that reaches an address leaves there the byte of the image. -/
theorem ElfFile.TailsHarmless.byte_eq {before after : List Phdr} {ph : Phdr}
    (hsplit : loads phdrs = before ++ ph :: after) {a : BitVec 64} (hcopies : ph.Copies a)
    (hlast : ∀ ph' ∈ after, ¬ph'.Copies a) :
    file.byte (ph.p_offset.toNat + (a - ph.p_vaddr).toNat) =
      file.imageByte (loads phdrs) a := by
  have hmem : ph ∈ loads phdrs := by
    rw [hsplit]
    simp
  by_cases hfile : ph.InFile a
  · exact (hwf.imageByte_of_inFile hmem hfile).symm
  · -- the byte lies in the tail of the segment
    have hge : ph.p_filesz.toNat ≤ (a - ph.p_vaddr).toNat := not_lt.mp hfile
    obtain ⟨k, hk⟩ : ∃ k, (a - ph.p_vaddr).toNat = ph.p_filesz.toNat + k :=
      ⟨_, (Nat.add_sub_cancel' hge).symm⟩
    have hlt : k < ph.vAlign.toNat := by
      have hlength := hwf.copyLength_eq hmem
      unfold Phdr.Copies at hcopies
      omega
    have ha : ph.p_vaddr + ph.p_filesz + BitVec.ofNat 64 k = a := by
      rw [(eq_add_ofNat_iff (BitVec.isLt (a - ph.p_vaddr))).mpr rfl, hk, BitVec.ofNat_add,
        BitVec.ofNat_toNat, BitVec.setWidth_eq, BitVec.add_assoc]
    obtain ⟨-, hafter | hbyte⟩ := htails before ph after hsplit k hlt
    · obtain ⟨ph', hmem', hcopies'⟩ := hafter
      rw [ha] at hcopies'
      exact absurd hcopies' (hlast ph' hmem')
    · rw [ha] at hbyte
      rw [hk, ← Nat.add_assoc, hbyte]

/-- After the copy loops the memory is the image. -/
theorem ElfFile.TailsHarmless.image {st : LoadState}
    (hst : (loads phdrs).foldlM (loadSegment file) ⟨Ptable.empty, []⟩ = .ok st) (a : BitVec 64) :
    byteAt st.ptable a = file.imageByte (loads phdrs) a := by
  have hload : ∀ ph ∈ loads phdrs, ph.p_type = PT_LOAD := fun _ ↦ p_type_of_mem_loads
  rcases exists_last (fun ph : Phdr ↦ ph.Copies a) (loads phdrs) with
    hnone | ⟨before, ph, after, hsplit, hcopies, hlast⟩
  · rw [loadSegments_untouched hload hst hnone]
    refine (file.imageByte_of_not_inFile fun ph hmem ha ↦ hnone ph hmem ?_).symm
    have hlength := hwf.copyLength_eq hmem
    exact lt_of_lt_of_le ha (by omega)
  · have hmem : ph ∈ loads phdrs := by
      rw [hsplit]
      simp
    rw [loadSegments_last hload hst hsplit hcopies hlast, ElfFile.mappedByte,
      if_pos (htails.in_file hwf hmem hcopies), htails.byte_eq hwf hsplit hcopies hlast]

end

/-- The load of a well-formed file is faithful exactly when the tails of its segments do no harm. -/
theorem loadElf_faithful_iff (starts : Seg → BitVec 64) :
    (∃ r, loadElf file Ptable.empty starts = .ok r ∧ r.Faithful file (loads phdrs)) ↔
      file.TailsHarmless (loads phdrs) := by
  have hload : ∀ ph ∈ loads phdrs, ph.p_type = PT_LOAD := fun _ ↦ p_type_of_mem_loads
  rw [loadElf_eq_ok_iff hwf starts (fun r ↦ r.Faithful file (loads phdrs)) fun r r' h hpt hreads ↦
    ⟨hpt ▸ h.file_bytes, hpt ▸ h.bss, hpt ▸ h.outside, hreads ▸ h.reads⟩]
  simp only [Loaded.faithful_iff hwf]
  constructor
  · rintro ⟨st, hst, himage, hreads⟩
    exact ElfFile.tailsHarmless_of_image hwf hst himage hreads
  · intro htails
    obtain ⟨st, hst⟩ := loadSegments_exists hload
      (fun ph hmem j hj ↦ htails.in_file hwf hmem hj) ⟨Ptable.empty, []⟩
    refine ⟨st, hst, htails.image hwf hst, fun o ho ↦ ?_⟩
    obtain hnil | ⟨ph, hmem, j, hj, rfl⟩ := (loadSegments_reads hload hst o).mp ho
    · exact absurd hnil List.not_mem_nil
    · exact htails.owns hwf hmem hj

end

/-- A file of `size` bytes with the given little-endian fields: offset, width and value. -/
def ElfFile.ofFields (size : ℕ) (fields : List (ℕ × ℕ × BitVec 64)) : ElfFile where
  size := size
  byte := fun i ↦
    match fields.find? fun f ↦ decide (f.1 ≤ i ∧ i < f.1 + f.2.1) with
    | some f => (f.2.2 >>> (8 * (i - f.1))).setWidth 8
    | none => 0

/-- An executable with one segment of eight bytes in the file and sixteen in memory, and with eight
more bytes behind it in the file. -/
def ElfFile.oneSegment (p_vaddr : BitVec 64) : ElfFile :=
  .ofFields 136 [(16, 2, ET_EXEC), (24, 8, p_vaddr), (32, 8, 64), (54, 2, 56), (56, 2, 1),
    (64, 4, PT_LOAD), (72, 8, 120), (80, 8, p_vaddr), (96, 8, 8), (104, 8, 16),
    (120, 8, 0x1122334455667788), (128, 8, 0xFFFFFFFFFFFFFFFF)]

/-- A segment that starts a page has no tail. -/
theorem loadElf_faithful_iff_aligned :
    ∃ r, loadElf (.oneSegment 0x400000) Ptable.empty segStarts = .ok r ∧
      r.Faithful (.oneSegment 0x400000) [⟨PT_LOAD, 120, 0x400000, 8, 16⟩] := by
  have hwf : (ElfFile.oneSegment 0x400000).WellFormed [⟨PT_LOAD, 120, 0x400000, 8, 16⟩] :=
    ⟨by decide, rfl, ⟨_, rfl⟩, rfl, fun _ ↦ ⟨_, rfl⟩, by decide, by decide,
      List.pairwise_singleton _ _⟩
  refine (loadElf_faithful_iff hwf segStarts).mpr ?_
  intro before ph after hsplit k hk
  have hmem : ph ∈ [(⟨PT_LOAD, 120, 0x400000, 8, 16⟩ : Phdr)] := by
    have hmem : ph ∈ loads [(⟨PT_LOAD, 120, 0x400000, 8, 16⟩ : Phdr)] := by
      rw [hsplit]
      simp
    exact (List.mem_filter.mp hmem).1
  obtain rfl := List.mem_singleton.mp hmem
  have hzero : (⟨PT_LOAD, 120, 0x400000, 8, 16⟩ : Phdr).vAlign.toNat = 0 := by decide
  rw [hzero] at hk
  exact absurd hk (Nat.not_lt_zero k)

/-- The copy loop of a segment that starts eight bytes into a page overwrites eight bytes of its
zero-initialised part. -/
theorem loadElf_unfaithful : ¬∀ (file : ElfFile) (phdrs : List Phdr), file.WellFormed phdrs →
    ∃ r, loadElf file Ptable.empty segStarts = .ok r ∧ r.Faithful file (loads phdrs) := by
  intro hclaim
  have hwf : (ElfFile.oneSegment 0x400008).WellFormed [⟨PT_LOAD, 120, 0x400008, 8, 16⟩] :=
    ⟨by decide, rfl, ⟨_, rfl⟩, rfl, fun _ ↦ ⟨_, rfl⟩, by decide, by decide,
      List.pairwise_singleton _ _⟩
  obtain ⟨r, hr, hfaithful⟩ := hclaim _ _ hwf
  have hbyte : (loadElf (.oneSegment 0x400008) Ptable.empty segStarts).map
      (fun r ↦ byteAt r.ptable 0x400010) = .ok 0xFF := by decide +kernel
  rw [hr] at hbyte
  have hzero := hfaithful.bss ⟨PT_LOAD, 120, 0x400008, 8, 16⟩ (by decide) 8 (by decide) (by decide)
  rw [show (0x400008 : BitVec 64) + BitVec.ofNat 64 8 = 0x400010 by decide] at hzero
  have hone : byteAt r.ptable 0x400010 = 0xFF := Except.ok.inj hbyte
  rw [hzero] at hone
  exact absurd hone (by decide)

end SystemEmulator
