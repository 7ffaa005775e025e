import SystemEmulator.Base.HwElts
import SystemEmulator.Library.Result
import SystemEmulator.Memory.Pages

/-!
# Memories with the same content

A fetch or a load materialises pages, so that two runs which agree on every byte may disagree on the
shape of the page table.  No access tells such memories apart.
-/

namespace SystemEmulator

open Result LittleEndian

def SameContent (pt pt' : Ptable) : Prop := ∀ a, byteAt pt a = byteAt pt' a

/-- Two memories that differ at most in the shape of their page tables. -/
def Mem.Same (m m' : Mem) : Prop :=
  ∃ pt, m' = { m with ptable := pt } ∧ SameContent m.ptable pt

theorem Mem.Same.refl (m : Mem) : m.Same m := ⟨m.ptable, rfl, fun _ ↦ rfl⟩

theorem Mem.Same.symm {m m' : Mem} (h : m.Same m') : m'.Same m := by
  obtain ⟨pt, rfl, hpt⟩ := h
  exact ⟨m.ptable, rfl, fun a ↦ (hpt a).symm⟩

theorem Mem.Same.trans {m₁ m₂ m₃ : Mem} (h : m₁.Same m₂) (h' : m₂.Same m₃) : m₁.Same m₃ := by
  obtain ⟨pt, rfl, hpt⟩ := h
  obtain ⟨pt', rfl, hpt'⟩ := h'
  exact ⟨pt', rfl, fun a ↦ (hpt a).trans (hpt' a)⟩

/-- The relation of two results that carry a memory. -/
def SameResult {α : Type} (r r' : Mem × α) : Prop := r.1.Same r'.1 ∧ r.2 = r'.2

/-! ## The page table -/

theorem memReadLE_congr {pt pt' : Ptable} (h : SameContent pt pt') (addr : BitVec 64)
    (width : ℕ) : SameContent (memReadLE pt addr width).1 (memReadLE pt' addr width).1 ∧
      (memReadLE pt addr width).2 = (memReadLE pt' addr width).2 := by
  constructor
  · intro a
    rw [byteAt_memReadLE, byteAt_memReadLE, h a]
  · rw [memReadLE_snd, memReadLE_snd]
    exact word_congr fun i _ ↦ h _

theorem memWriteByte_congr {pt pt' : Ptable} (h : SameContent pt pt') (addr : BitVec 64)
    (data : BitVec 8) : SameContent (memWriteByte pt addr data) (memWriteByte pt' addr data) := by
  intro a
  rw [byteAt_memWriteByte, byteAt_memWriteByte, h a]

theorem memWriteLE_congr {pt pt' : Ptable} (h : SameContent pt pt') (addr data : BitVec 64)
    (width : ℕ) : SameContent (memWriteLE pt addr data width) (memWriteLE pt' addr data width) := by
  induction width with
  | zero => exact h
  | succ n ih =>
    rw [memWriteLE_succ, memWriteLE_succ]
    exact memWriteByte_congr ih _ _

theorem fillBlock_congr {pt pt' : Ptable} (h : SameContent pt pt') (base : BitVec 64) (B n : ℕ)
    (block : ℕ → BitVec 8) : SameContent (fillBlock base B n pt block).1
        (fillBlock base B n pt' block).1 ∧
      (fillBlock base B n pt block).2 = (fillBlock base B n pt' block).2 := by
  induction n generalizing pt pt' block with
  | zero => exact ⟨h, rfl⟩
  | succ n ih =>
    obtain ⟨hpt, hval⟩ := memReadLE_congr h (base + BitVec.ofNat 64 (B - (n + 1))) 1
    rw [fillBlock, fillBlock, hval]
    exact ih hpt _

theorem writeBack_congr {pt pt' : Ptable} (h : SameContent pt pt') (evicted : EvictedLine)
    (B : ℕ) : SameContent (writeBack pt evicted B) (writeBack pt' evicted B) := by
  unfold writeBack
  induction List.range B generalizing pt pt' with
  | nil => exact h
  | cons j js ih => exact ih (memWriteLE_congr h _ _ 1)

/-! ## The cached path -/

theorem armInflight_ptable (m : Mem) (pt : Ptable) (block_address : BitVec 64) (d : ℕ) :
    armInflight { m with ptable := pt } block_address d =
      { armInflight m block_address d with ptable := pt } := by
  unfold armInflight
  split <;> rfl

theorem armInflight_same_ptable (m : Mem) (block_address : BitVec 64) (d : ℕ) :
    (armInflight m block_address d).ptable = m.ptable := by
  unfold armInflight
  split <;> rfl

theorem installBlock_congr {m m' : Mem} (h : m.Same m') (cache : Cache)
    (block_address : BitVec 64) (fill : BlockFill) (operation : Operation) :
    Rel Mem.Same (installBlock m cache block_address fill operation)
      (installBlock m' cache block_address fill operation) := by
  obtain ⟨pt, rfl, hpt⟩ := h
  obtain ⟨hfill, hblock⟩ := fillBlock_congr hpt fill.base cache.B cache.B (fun _ ↦ 0)
  unfold installBlock
  simp only [hblock]
  refine Rel.bind (Rel.refl (fun _ ↦ rfl) _) ?_
  rintro ⟨evicted, cache', counters⟩ _ rfl
  refine Rel.ok ⟨_, rfl, ?_⟩
  change SameContent (if _ then _ else _) (if _ then _ else _)
  split
  · exact writeBack_congr hfill evicted cache.B
  · exact hfill

theorem cacheByte_congr {m m' : Mem} (h : m.Same m') (cache : Cache)
    (current_address : BitVec 64) (fill : BlockFill) (operation : Operation) :
    Rel (fun r r' ↦ r.1 = r'.1 ∧ r.2.Same r'.2)
      (cacheByte m cache current_address fill operation)
      (cacheByte m' cache current_address fill operation) := by
  obtain ⟨pt, rfl, hpt⟩ := h
  unfold cacheByte
  refine Rel.bind (Rel.refl (fun _ ↦ rfl) _) ?_
  rintro ⟨hit, cache', counters⟩ _ rfl
  by_cases hhit : hit = true
  · simp only [hhit, ↓reduceIte]
    exact Rel.ok ⟨rfl, pt, rfl, hpt⟩
  · simp only [hhit, Bool.false_eq_true, ↓reduceIte]
    have harm := armInflight_ptable { m with cache := some cache', counters := counters } pt
      (cache'.blockAddress current_address) cache'.d
    simp only at harm
    rw [harm]
    have hcontent : SameContent (armInflight { m with cache := some cache', counters := counters }
        (cache'.blockAddress current_address) cache'.d).ptable pt := by
      rw [armInflight_same_ptable]
      exact hpt
    generalize armInflight { m with cache := some cache', counters := counters }
      (cache'.blockAddress current_address) cache'.d = n at hcontent ⊢
    by_cases hdelay : n.inflight_cycles - 1 > 0
    · rw [if_pos hdelay, if_pos hdelay]
      exact Rel.ok ⟨rfl, pt, rfl, hcontent⟩
    · rw [if_neg hdelay, if_neg hdelay]
      have hsame : Mem.Same { n with inflight_cycles := n.inflight_cycles - 1 }
          { n with ptable := pt, inflight_cycles := n.inflight_cycles - 1 } := ⟨pt, rfl, hcontent⟩
      exact Rel.bind (installBlock_congr hsame cache' _ fill operation)
        fun a b hab ↦ Rel.ok ⟨rfl, hab⟩

theorem cacheLoop_congr {m m' : Mem} (h : m.Same m') (fill : Cache → BitVec 64 → BlockFill)
    (operation : Operation) (n : ℕ) (current_address : BitVec 64) :
    Rel (fun r r' ↦ r.1 = r'.1 ∧ r.2.Same r'.2)
      (cacheLoop fill operation n current_address m)
      (cacheLoop fill operation n current_address m') := by
  induction n generalizing m m' current_address with
  | zero => exact Rel.ok ⟨rfl, h⟩
  | succ n ih =>
    have hcache : m'.cache = m.cache := by
      obtain ⟨pt, rfl, -⟩ := h
      rfl
    rw [cacheLoop, cacheLoop, hcache]
    cases m.cache with
    | none => exact Rel.error _
    | some cache =>
      refine Rel.bind (cacheByte_congr h cache _ _ operation) ?_
      rintro ⟨continue_, n₁⟩ ⟨_, n₂⟩ ⟨rfl, hsame⟩
      by_cases hcontinue : continue_ = true
      · simp only [hcontinue, ↓reduceIte]
        exact ih hsame _
      · simp only [hcontinue, Bool.false_eq_true, ↓reduceIte]
        exact Rel.ok ⟨rfl, hsame⟩

theorem memReadCache_congr {m m' : Mem} (h : m.Same m') (addr : BitVec 64) (width : ℕ) :
    Rel SameResult (memReadCache m addr width) (memReadCache m' addr width) := by
  unfold memReadCache
  refine Rel.bind (cacheLoop_congr h _ _ _ _) ?_
  rintro ⟨done, m₁⟩ ⟨_, m₂⟩ ⟨rfl, pt, rfl, hpt⟩
  by_cases hdone : done = true
  · simp only [hdone, ↓reduceIte]
    cases hcache : m₁.cache with
    | none => exact Rel.error _
    | some cache =>
      refine Rel.bind (Rel.refl (fun _ ↦ rfl) _) ?_
      rintro data _ rfl
      exact Rel.ok ⟨⟨pt, rfl, hpt⟩, rfl⟩
  · simp only [hdone, Bool.false_eq_true, ↓reduceIte]
    exact Rel.ok ⟨⟨pt, rfl, hpt⟩, rfl⟩

theorem memWriteCache_congr {m m' : Mem} (h : m.Same m') (addr data : BitVec 64) (width : ℕ) :
    Rel Mem.Same (memWriteCache m addr data width) (memWriteCache m' addr data width) := by
  unfold memWriteCache
  refine Rel.bind (cacheLoop_congr h _ _ _ _) ?_
  rintro ⟨done, m₁⟩ ⟨_, m₂⟩ ⟨rfl, pt, rfl, hpt⟩
  by_cases hdone : done = true
  · simp only [hdone, ↓reduceIte]
    cases hcache : m₁.cache with
    | none => exact Rel.error _
    | some cache =>
      refine Rel.bind (Rel.refl (fun _ ↦ rfl) _) ?_
      rintro cache' _ rfl
      exact Rel.ok ⟨pt, rfl, hpt⟩
  · simp only [hdone, Bool.false_eq_true, ↓reduceIte]
    exact Rel.ok ⟨pt, rfl, hpt⟩

/-- What each of its bytes preserves, the byte loop preserves. -/
theorem cacheLoop_ensures {P : Mem → Prop} {fill : Cache → BitVec 64 → BlockFill}
    {operation : Operation}
    (hbyte : ∀ m cache current_address, P m → m.cache = some cache →
      Ensures (cacheByte m cache current_address (fill cache current_address) operation)
        fun r ↦ P r.2)
    (n : ℕ) (current_address : BitVec 64) {m : Mem} (h : P m) :
    Ensures (cacheLoop fill operation n current_address m) fun r ↦ P r.2 := by
  induction n generalizing m current_address with
  | zero => exact Ensures.ok h
  | succ n ih =>
    rw [cacheLoop]
    cases hcache : m.cache with
    | none => exact Ensures.error _
    | some cache =>
      refine (hbyte m cache current_address h hcache).bind fun r hr ↦ ?_
      obtain ⟨continue_, m'⟩ := r
      cases continue_ with
      | true => exact ih (current_address + 1) hr
      | false => exact Ensures.ok hr

/-- A read through the cache leaves the memory of its byte loop, up to `dmem_status`. -/
theorem memReadCache_ensures {P : Mem → Prop} {m : Mem} {addr : BitVec 64} {width : ℕ}
    (hloop : Ensures (cacheLoop (readFill addr) .read width addr m)
      fun r ↦ P r.2)
    (hready : ∀ m', P m' → P { m' with dmem_status := .ready }) :
    Ensures (memReadCache m addr width) fun r ↦ P r.1 := by
  unfold memReadCache
  refine hloop.bind fun r hr ↦ ?_
  obtain ⟨done, m'⟩ := r
  simp only at hr ⊢
  split
  · cases hcache : m'.cache with
    | none => exact Ensures.error _
    | some cache =>
      refine Ensures.bind (P := fun _ ↦ True) (fun _ _ ↦ trivial) fun _ _ ↦ Ensures.ok ?_
      simp only [← hcache]
      exact hready m' hr
  · exact Ensures.ok hr

/-- A write through the cache then stores the word in a line. -/
theorem memWriteCache_ensures {P : Mem → Prop} {m : Mem} {addr data : BitVec 64} {width : ℕ}
    (hloop : Ensures
      (cacheLoop writeFill .write width addr m)
      fun r ↦ P r.2)
    (hstore : ∀ m' cache cache', P m' → m'.cache = some cache →
      setWordCache cache addr data = .ok cache' →
      P { m' with cache := some cache', dmem_status := .ready }) :
    Ensures (memWriteCache m addr data width) P := by
  unfold memWriteCache
  refine hloop.bind fun r hr ↦ ?_
  obtain ⟨done, m'⟩ := r
  simp only at hr ⊢
  split
  · cases hcache : m'.cache with
    | none => exact Ensures.error _
    | some cache =>
      intro m'' h
      obtain ⟨cache', hset, h⟩ := bind_eq_ok.mp h
      cases h
      exact hstore m' cache cache' hr hcache hset
  · exact Ensures.ok hr

/-! ## The route of an access -/

/-- Of the special addresses, only `NULL_ADDR` is a multiple of eight. -/
theorem isSpecialAddr_of_aligned {addr : BitVec 64} (haligned : addr.toNat % 8 = 0)
    (hnull : addr ≠ NULL_ADDR) : isSpecialAddr addr = false := by
  have hne : ∀ a : BitVec 64, a.toNat % 8 ≠ 0 → (addr == a) = false := by
    intro a ha
    rw [beq_eq_false_iff_ne]
    rintro rfl
    exact ha haligned
  unfold isSpecialAddr
  rw [beq_eq_false_iff_ne.mpr hnull, hne IO_CHAR_ADDR (by decide), hne CHECKPOINT_ADDR (by decide)]
  rfl

theorem usesCache_of_cacheless {m : Mem} (hcache : m.cache = none) (addr : BitVec 64) :
    usesCache m addr = false := by
  unfold usesCache
  rw [hcache]
  rfl

theorem logTraps_of_cacheless {m : Mem} (hcache : m.cache = none) : logTraps m = false := by
  unfold logTraps
  rw [hcache]
  exact Bool.and_false _

theorem usesCache_of_data {m : Mem} {cache : Cache} (hcache : m.cache = some cache)
    {addr : BitVec 64} (hdata : m.seg_start_addr .data ≤ addr) : usesCache m addr = true := by
  unfold usesCache
  rw [hcache]
  exact decide_eq_true hdata

section

variable {m : Mem} {addr : BitVec 64}

theorem memRead_of_special (hspecial : isSpecialAddr addr = true) (width : ℕ) :
    memRead m addr width = memReadSpecial m addr width :=
  if_pos hspecial

theorem memWrite_of_special (hspecial : isSpecialAddr addr = true) (data : BitVec 64) (width : ℕ) :
    memWrite m addr data width = memWriteSpecial m addr data width :=
  if_pos hspecial

variable (hspecial : isSpecialAddr addr = false)
include hspecial

theorem memRead_of_cached (huses : usesCache m addr = true) (width : ℕ) :
    memRead m addr width = memReadCache m addr width := by
  unfold memRead
  rw [hspecial, huses]
  rfl

theorem memWrite_of_cached (huses : usesCache m addr = true) (data : BitVec 64) (width : ℕ) :
    memWrite m addr data width = memWriteCache m addr data width := by
  unfold memWrite
  rw [hspecial, huses]
  rfl

theorem memRead_of_paged (huses : usesCache m addr = false) (width : ℕ) :
    memRead m addr width = .ok ({ m with ptable := (memReadLE m.ptable addr width).1 },
      (memReadLE m.ptable addr width).2) := by
  unfold memRead
  rw [hspecial, huses]
  rfl

theorem memWrite_of_paged (huses : usesCache m addr = false) (data : BitVec 64) (width : ℕ) :
    memWrite m addr data width =
      .ok { m with ptable := memWriteLE m.ptable addr data width } := by
  unfold memWrite
  rw [hspecial, huses]
  rfl

end

/-- A special read takes at most one value from the input, and it may trap. -/
theorem memReadSpecial_stdin (m : Mem) (addr : BitVec 64) (width : ℕ) :
    Ensures (memReadSpecial m addr width) fun r ↦
      ∃ pos trap, r.1 = { m with stdin_pos := pos, undefined := m.undefined || trap } := by
  unfold memReadSpecial
  split
  · exact Ensures.error _
  · split
    · refine Ensures.bind (P := fun _ ↦ True) (fun _ _ ↦ trivial) fun _ _ ↦ Ensures.ok ?_
      exact ⟨_, false, by rw [Bool.or_false]⟩
    · split
      · exact Ensures.ok ⟨_, logTraps m, rfl⟩
      · exact Ensures.error _

/-- A special write adds at most one value to the output. -/
theorem memWriteSpecial_output (m : Mem) (addr data : BitVec 64) (width : ℕ) :
    Ensures (memWriteSpecial m addr data width) fun m' ↦
      ∃ output, m' = { m with output := output } := by
  unfold memWriteSpecial
  split
  · exact Ensures.ok ⟨_, rfl⟩
  · split
    · exact Ensures.bind (P := fun _ ↦ True) (fun _ _ ↦ trivial) fun _ _ ↦ Ensures.ok ⟨_, rfl⟩
    · exact Ensures.error _

section

variable {m : Mem} {addr : BitVec 64} (h : isSpecialAddr addr = true ∨ usesCache m addr = false)
include h

/-- Without the cache a read changes the input and the pages only, unless it traps. -/
theorem memRead_uncached (width : ℕ) : Ensures (memRead m addr width) fun r ↦
    ∃ pos trap pt, r.1 =
      { m with stdin_pos := pos, undefined := m.undefined || trap, ptable := pt } := by
  cases hspecial : isSpecialAddr addr with
  | true =>
    rw [memRead_of_special hspecial]
    refine (memReadSpecial_stdin m addr width).mono fun r hr ↦ ?_
    obtain ⟨pos, trap, hpos⟩ := hr
    exact ⟨pos, trap, m.ptable, hpos⟩
  | false =>
    rw [hspecial] at h
    rw [memRead_of_paged hspecial (h.resolve_left Bool.false_ne_true)]
    exact Ensures.ok ⟨m.stdin_pos, false, _, by rw [Bool.or_false]⟩

theorem memWrite_uncached (data : BitVec 64) (width : ℕ) :
    Ensures (memWrite m addr data width) fun m' ↦
      ∃ output pt, m' = { m with output := output, ptable := pt } := by
  cases hspecial : isSpecialAddr addr with
  | true =>
    rw [memWrite_of_special hspecial]
    refine (memWriteSpecial_output m addr data width).mono fun m' hm' ↦ ?_
    obtain ⟨output, houtput⟩ := hm'
    exact ⟨output, m.ptable, houtput⟩
  | false =>
    rw [hspecial] at h
    rw [memWrite_of_paged hspecial (h.resolve_left Bool.false_ne_true)]
    exact Ensures.ok ⟨m.output, _, rfl⟩

end

/-! ## The access functions -/

theorem memReadSpecial_congr {m m' : Mem} (h : m.Same m') (addr : BitVec 64) (width : ℕ) :
    Rel SameResult (memReadSpecial m addr width) (memReadSpecial m' addr width) := by
  obtain ⟨pt, rfl, hpt⟩ := h
  unfold memReadSpecial
  split
  · exact Rel.error _
  · split
    · refine Rel.bind (Rel.refl (fun _ ↦ rfl) _) ?_
      rintro value _ rfl
      exact Rel.ok ⟨⟨pt, rfl, hpt⟩, rfl⟩
    · split
      · exact Rel.ok ⟨⟨pt, rfl, hpt⟩, rfl⟩
      · exact Rel.error _

theorem memWriteSpecial_congr {m m' : Mem} (h : m.Same m') (addr data : BitVec 64) (width : ℕ) :
    Rel Mem.Same (memWriteSpecial m addr data width) (memWriteSpecial m' addr data width) := by
  obtain ⟨pt, rfl, hpt⟩ := h
  unfold memWriteSpecial
  split
  · exact Rel.ok ⟨pt, rfl, hpt⟩
  · split
    · refine Rel.bind (Rel.refl (fun _ ↦ rfl) _) ?_
      rintro value _ rfl
      exact Rel.ok ⟨pt, rfl, hpt⟩
    · exact Rel.error _

theorem memRead_congr {m m' : Mem} (h : m.Same m') (addr : BitVec 64) (width : ℕ) :
    Rel SameResult (memRead m addr width) (memRead m' addr width) := by
  have huses : usesCache m' addr = usesCache m addr := by
    obtain ⟨pt, rfl, -⟩ := h
    rfl
  unfold memRead
  rw [huses]
  split
  · exact memReadSpecial_congr h addr width
  · split
    · exact memReadCache_congr h addr width
    · obtain ⟨pt, rfl, hpt⟩ := h
      obtain ⟨hcontent, hval⟩ := memReadLE_congr hpt addr width
      exact Rel.ok ⟨⟨_, rfl, hcontent⟩, hval⟩

theorem memWrite_congr {m m' : Mem} (h : m.Same m') (addr data : BitVec 64) (width : ℕ) :
    Rel Mem.Same (memWrite m addr data width) (memWrite m' addr data width) := by
  have huses : usesCache m' addr = usesCache m addr := by
    obtain ⟨pt, rfl, -⟩ := h
    rfl
  unfold memWrite
  rw [huses]
  split
  · exact memWriteSpecial_congr h addr data width
  · split
    · exact memWriteCache_congr h addr data width
    · obtain ⟨pt, rfl, hpt⟩ := h
      exact Rel.ok ⟨_, rfl, memWriteLE_congr hpt addr data width⟩

/-- Fetching does not tell memories with the same content apart. -/
theorem imem_congr {m m' : Mem} (h : m.Same m') (imem_addr : BitVec 64) :
    Rel SameResult (imem m imem_addr) (imem m' imem_addr) := by
  have herr : imemErr m' imem_addr = imemErr m imem_addr := by
    obtain ⟨pt, rfl, -⟩ := h
    rfl
  unfold imem memReadI
  rw [herr]
  simp only [bind_assoc, pure_bind]
  refine Rel.bind (memRead_congr h imem_addr 4) ?_
  rintro ⟨m₁, val⟩ ⟨m₂, _⟩ ⟨hsame, rfl⟩
  exact Rel.ok ⟨hsame, rfl⟩

/-- Data accesses do not tell memories with the same content apart. -/
theorem dmem_congr {m m' : Mem} (h : m.Same m') (dmem_addr dmem_wval : BitVec 64)
    (dmem_read dmem_write : Bool) :
    Rel SameResult (dmem m dmem_addr dmem_wval dmem_read dmem_write)
      (dmem m' dmem_addr dmem_wval dmem_read dmem_write) := by
  have herr : dmemErr m' dmem_addr = dmemErr m dmem_addr := by
    obtain ⟨pt, rfl, -⟩ := h
    rfl
  unfold dmem
  rw [herr]
  split
  · exact Rel.ok ⟨h, rfl⟩
  · have hread : Rel SameResult (dmemRead m dmem_addr dmem_read)
        (dmemRead m' dmem_addr dmem_read) := by
      unfold dmemRead
      split
      · exact memRead_congr h dmem_addr 8
      · exact Rel.ok ⟨h, rfl⟩
    refine Rel.bind hread ?_
    rintro ⟨m₁, val⟩ ⟨m₂, _⟩ ⟨hsame, rfl⟩
    have hwrite : Rel Mem.Same (dmemWrite m₁ dmem_addr dmem_wval dmem_write)
        (dmemWrite m₂ dmem_addr dmem_wval dmem_write) := by
      unfold dmemWrite
      split
      · exact memWrite_congr hsame dmem_addr dmem_wval 8
      · exact Rel.ok hsame
    exact Rel.bind hwrite fun m₁ m₂ hsame ↦ Rel.ok ⟨hsame, rfl⟩

end SystemEmulator
