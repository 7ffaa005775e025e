import SystemEmulator.Cycle.Run
import SystemEmulator.Memory.FlatMemory

/-!
# Accesses that should have no effect

The error flags of `dmem` and `imem` do not stop the access that raises them, and the route of an
access depends on its address only.  A rejected access therefore counts as an access to the data
cache, or changes the pages; and a fetch beyond the text segment goes through the data cache.
-/

namespace SystemEmulator

open Result LittleEndian

/-! ## Every attempt is counted -/

def Counters.attempts (n : Counters) : ℕ := n.hit_count + n.miss_count

theorem checkHit_attempts (cache : Cache) (n : Counters) (addr : BitVec 64)
    (operation : Operation) :
    Ensures (checkHit cache n addr operation) fun r ↦ r.2.2.attempts = n.attempts + 1 := by
  unfold checkHit Counters.attempts
  cases getLine cache addr with
  | none => exact Ensures.ok (Nat.add_assoc _ _ 1).symm
  | some i =>
    refine Ensures.bind (P := fun _ ↦ True) (fun _ _ ↦ trivial) fun _ _ ↦ Ensures.ok ?_
    exact Nat.add_right_comm n.hit_count 1 n.miss_count

theorem countEviction_attempts (n : Counters) (line : CacheLine) :
    (countEviction n line).attempts = n.attempts := by
  unfold countEviction
  split
  · rfl
  · split <;> rfl

theorem handleMiss_attempts (cache : Cache) (n : Counters) (addr : BitVec 64)
    (operation : Operation) (data : ℕ → BitVec 8) :
    Ensures (handleMiss cache n addr operation data) fun r ↦ r.2.2.attempts = n.attempts := by
  unfold handleMiss
  exact Ensures.bind (P := fun _ ↦ True) (fun _ _ ↦ trivial) fun _ _ ↦
    Ensures.ok (countEviction_attempts n _)

theorem installBlock_attempts (m : Mem) (cache : Cache) (block_address : BitVec 64)
    (fill : BlockFill) (operation : Operation) :
    Ensures (installBlock m cache block_address fill operation) fun m' ↦
      m'.counters.attempts = m.counters.attempts := by
  unfold installBlock
  exact Ensures.bind (handleMiss_attempts _ _ _ _ _) fun _ hr ↦ Ensures.ok hr

theorem armInflight_counters (m : Mem) (block_address : BitVec 64) (d : ℕ) :
    (armInflight m block_address d).counters = m.counters := by
  unfold armInflight
  split <;> rfl

theorem cacheByte_attempts (m : Mem) (cache : Cache) (current_address : BitVec 64)
    (fill : BlockFill) (operation : Operation) :
    Ensures (cacheByte m cache current_address fill operation) fun r ↦
      r.2.counters.attempts = m.counters.attempts + 1 := by
  unfold cacheByte
  refine Ensures.bind (checkHit_attempts _ _ _ _) ?_
  rintro ⟨hit, cache', counters⟩ hcount
  by_cases hhit : hit = true
  · simp only [hhit, ↓reduceIte]
    exact Ensures.ok hcount
  · simp only [hhit, Bool.false_eq_true, ↓reduceIte]
    have harm := armInflight_counters { m with cache := some cache', counters := counters }
      (cache'.blockAddress current_address) cache'.d
    generalize armInflight { m with cache := some cache', counters := counters }
      (cache'.blockAddress current_address) cache'.d = n at harm ⊢
    have hn : n.counters.attempts = m.counters.attempts + 1 := by
      rw [harm]
      exact hcount
    by_cases hdelay : n.inflight_cycles - 1 > 0
    · rw [if_pos hdelay]
      exact Ensures.ok hn
    · rw [if_neg hdelay]
      refine Ensures.bind (installBlock_attempts _ _ _ _ _) fun n' hn' ↦ Ensures.ok ?_
      exact hn'.trans hn

/-- The byte loop counts at least one attempt. -/
theorem cacheLoop_attempts (fill : Cache → BitVec 64 → BlockFill) (operation : Operation)
    (width : ℕ) (addr : BitVec 64) (m : Mem) :
    Ensures (cacheLoop fill operation width addr m) fun r ↦
      m.counters.attempts + min 1 width ≤ r.2.counters.attempts := by
  induction width generalizing addr m with
  | zero => exact Ensures.ok le_rfl
  | succ n ih =>
    rw [cacheLoop]
    cases m.cache with
    | none => exact Ensures.error _
    | some cache =>
      refine Ensures.bind (cacheByte_attempts m cache addr _ operation) ?_
      rintro ⟨continue_, m'⟩ hcount
      simp only at hcount
      cases continue_ with
      | true =>
        refine (ih (addr + 1) m').mono fun r hr ↦ ?_
        omega
      | false =>
        refine Ensures.ok ?_
        simp only [hcount]
        omega

theorem memReadCache_attempts (m : Mem) (addr : BitVec 64) (width : ℕ) :
    Ensures (memReadCache m addr width) fun r ↦
      m.counters.attempts + min 1 width ≤ r.1.counters.attempts :=
  memReadCache_ensures (P := fun m' ↦ m.counters.attempts + min 1 width ≤ m'.counters.attempts)
    (cacheLoop_attempts _ _ _ _ _) fun _ hcount ↦ hcount

theorem memWriteCache_attempts (m : Mem) (addr data : BitVec 64) (width : ℕ) :
    Ensures (memWriteCache m addr data width) fun m' ↦
      m.counters.attempts + min 1 width ≤ m'.counters.attempts :=
  memWriteCache_ensures (cacheLoop_attempts _ _ _ _ _) fun _ _ _ hcount _ _ ↦ hcount

/-! ## Rejected data accesses -/

section

variable {m : Mem} {addr : BitVec 64}

/-- Only an access to an ordinary address is rejected. -/
theorem isSpecialAddr_of_dmemErr (herr : dmemErr m addr = true) : isSpecialAddr addr = false := by
  unfold dmemErr at herr
  rw [Bool.and_eq_true, Bool.not_eq_true'] at herr
  exact herr.2

/-- An access through the cache leaves a trace in the statistics. -/
theorem memReadL_cached (hspecial : isSpecialAddr addr = false) (huses : usesCache m addr = true) :
    Ensures (memReadL m addr) fun r ↦ m.counters.attempts < r.1.counters.attempts := by
  rw [memReadL, memRead_of_cached hspecial huses]
  exact memReadCache_attempts m addr 8

theorem memWriteL_cached (hspecial : isSpecialAddr addr = false) (huses : usesCache m addr = true)
    (data : BitVec 64) :
    Ensures (memWriteL m addr data) fun m' ↦ m.counters.attempts < m'.counters.attempts := by
  rw [memWriteL, memWrite_of_cached hspecial huses]
  exact memWriteCache_attempts m addr data 8

/-- A read in the pages is invisible. -/
theorem memReadL_paged (hspecial : isSpecialAddr addr = false) (huses : usesCache m addr = false) :
    ∃ m' val, memReadL m addr = .ok (m', val) ∧ m.Same m' := by
  exact ⟨_, _, memRead_of_paged hspecial huses 8, _, rfl,
    fun a ↦ (byteAt_memReadLE _ _ _ a).symm⟩

/-- A write in the pages is invisible when the bytes are there already. -/
theorem memWriteL_paged (hspecial : isSpecialAddr addr = false) (huses : usesCache m addr = false)
    (data : BitVec 64) : ∃ m', memWriteL m addr data = .ok m' ∧
      (m.Same m' ↔ ∀ i < 8, byteAt m.ptable (addr + BitVec.ofNat 64 i) = byte data i) := by
  refine ⟨_, memWrite_of_paged hspecial huses data 8, ?_⟩
  constructor
  · rintro ⟨pt, heq, hpt⟩ i hi
    have hptable : memWriteLE m.ptable addr data 8 = pt := congrArg Mem.ptable heq
    rw [hpt, ← hptable, byteAt_memWriteLE _ _ _ le_rfl, (eq_add_ofNat_iff (by omega)).mp rfl,
      if_pos hi]
  · intro hbytes
    refine ⟨_, rfl, fun a ↦ ?_⟩
    rw [byteAt_memWriteLE _ _ _ le_rfl]
    by_cases hlt : (a - addr).toNat < 8
    · have ha : a = addr + BitVec.ofNat 64 (a - addr).toNat :=
        (eq_add_ofNat_iff (by omega)).mpr rfl
      rw [if_pos hlt, ← hbytes _ hlt, ← ha]
    · rw [if_neg hlt]

/-- A rejected access through the cache always leaves a trace. -/
theorem dmem_cached (hspecial : isSpecialAddr addr = false) (huses : usesCache m addr = true)
    (wval : BitVec 64) {read write : Bool} (haccess : (read || write) = true) :
    Ensures (dmem m addr wval read write) fun r ↦
      m.counters.attempts < r.1.counters.attempts := by
  have hread : Ensures (dmemRead m addr read) fun r ↦ usesCache r.1 addr = true ∧
      m.counters.attempts + min 1 read.toNat ≤ r.1.counters.attempts := by
    unfold dmemRead
    cases read with
    | false => exact Ensures.ok ⟨huses, le_rfl⟩
    | true =>
      intro r hr
      exact ⟨((memRead_frame m addr 8 r hr).usesCache addr).trans huses,
        memReadL_cached hspecial huses r hr⟩
  unfold dmem
  rw [if_neg (by cases read <;> cases write <;> simp_all)]
  refine Ensures.bind hread ?_
  rintro ⟨m₁, val⟩ ⟨huses₁, hcount⟩
  cases write with
  | true =>
    refine Ensures.bind (memWriteL_cached hspecial huses₁ wval) fun m₂ hm₂ ↦ Ensures.ok ?_
    exact Nat.lt_of_le_of_lt (Nat.le_of_add_right_le hcount) hm₂
  | false =>
    obtain rfl : read = true := by simpa using haccess
    refine Ensures.ok ?_
    exact hcount

/-- A rejected access has no effect exactly when it does not reach the cache and stores nothing
new. -/
theorem rejected_access_effect (m : Mem) (addr wval : BitVec 64) (read write : Bool)
    (herr : ((read || write) && dmemErr m addr) = true) :
    (∃ r, dmem m addr wval read write = .ok r ∧ m.Same r.1) ↔
      usesCache m addr = false ∧ (write = true →
        ∀ i < 8, byteAt m.ptable (addr + BitVec.ofNat 64 i) = byte wval i) := by
  rw [Bool.and_eq_true] at herr
  obtain ⟨haccess, herr⟩ := herr
  have hspecial := isSpecialAddr_of_dmemErr herr
  cases huses : usesCache m addr with
  | true =>
    constructor
    · rintro ⟨r, hr, pt, hsame, -⟩
      have hcount : m.counters.attempts < r.1.counters.attempts :=
        dmem_cached hspecial huses wval haccess r hr
      rw [hsame] at hcount
      exact absurd hcount (lt_irrefl _)
    · rintro ⟨hcontra, -⟩
      cases hcontra
  | false =>
    obtain ⟨m₁, val, hm₁, hsame₁⟩ : ∃ m₁ val, dmemRead m addr read = .ok (m₁, val) ∧
        m.Same m₁ := by
      unfold dmemRead
      cases read with
      | false => exact ⟨m, 0, rfl, Mem.Same.refl m⟩
      | true => exact memReadL_paged hspecial huses
    have hdmem : dmem m addr wval read write =
        dmemWrite m₁ addr wval write >>= fun m₂ ↦ pure (m₂, val, dmemErr m addr) := by
      unfold dmem
      rw [if_neg (by cases read <;> cases write <;> simp_all), hm₁]
      rfl
    rw [hdmem]
    unfold dmemWrite
    cases write with
    | false =>
      simp only [Bool.false_eq_true, ↓reduceIte, false_implies, and_true]
      exact ⟨fun _ ↦ trivial, fun _ ↦ ⟨_, rfl, hsame₁⟩⟩
    | true =>
      obtain ⟨m₂, hm₂, hiff⟩ := memWriteL_paged (m := m₁) hspecial
        ((hsame₁.frame.usesCache addr).trans huses) wval
      obtain ⟨pt, rfl, hpt⟩ := hsame₁
      have hbytes : (∀ i < 8, byteAt pt (addr + BitVec.ofNat 64 i) = byte wval i) ↔
          ∀ i < 8, byteAt m.ptable (addr + BitVec.ofNat 64 i) = byte wval i := by
        simp only [hpt _]
      simp only [↓reduceIte, hm₂, true_implies, true_and]
      rw [← hbytes, ← hiff]
      constructor
      · rintro ⟨r, hr, hsame⟩
        cases hr
        exact (Mem.Same.trans ⟨m.ptable, rfl, fun a ↦ (hpt a).symm⟩ hsame)
      · intro hsame
        exact ⟨_, rfl, Mem.Same.trans ⟨pt, rfl, hpt⟩ hsame⟩

end

/-- A store of five to `0x800004` over the zeros of a data segment without a cache. -/
theorem rejected_access_effect_store : ¬∃ r, dmem (textImage []) 0x800004 5 false true = .ok r ∧
    (textImage []).Same r.1 := by
  rw [rejected_access_effect (textImage []) 0x800004 5 false true (by decide)]
  rintro ⟨-, hbytes⟩
  have hfirst := hbytes rfl 0 (by decide)
  revert hfirst
  decide +kernel

theorem rejected_access_observable :
    ¬∀ (m : Mem) (addr wval : BitVec 64) (read write : Bool) (r : Mem × BitVec 64 × Bool),
      dmem m addr wval read write = .ok r → r.2.2 = true → m.Same r.1 := by
  intro hclaim
  have hrun : (dmem (textImage []) 0x800004 5 false true).map
      (fun r ↦ (r.2.2, byteAt r.1.ptable 0x800004)) = .ok (true, 5) := by
    decide +kernel
  obtain ⟨r, hr, hval⟩ := map_eq_ok.mp hrun
  obtain ⟨pt, hsame, hpt⟩ := hclaim _ _ _ _ _ r hr (congrArg Prod.fst hval)
  have hbyte : byteAt pt 0x800004 = 5 := by
    have hfive := congrArg Prod.snd hval
    rwa [hsame] at hfive
  rw [← hpt] at hbyte
  revert hbyte
  decide +kernel

/-! ## Fetches -/

/-- The cache with its statistics and the timer of a miss are the same. -/
structure Mem.SameCache (m m' : Mem) : Prop where
  cache : m'.cache = m.cache
  counters : m'.counters = m.counters
  inflight : m'.inflight = m.inflight
  inflight_addr : m'.inflight_addr = m.inflight_addr
  inflight_cycles : m'.inflight_cycles = m.inflight_cycles
  dmem_status : m'.dmem_status = m.dmem_status

theorem Mem.SameCache.refl (m : Mem) : m.SameCache m := ⟨rfl, rfl, rfl, rfl, rfl, rfl⟩

/-- A read through the cache leaves a trace. -/
theorem memRead_sameCache_iff (m : Mem) {addr : BitVec 64} {width : ℕ}
    (hwidth : width = 4 ∨ width = 8) (hnull : addr ≠ NULL_ADDR) :
    (∃ r, memRead m addr width = .ok r ∧ m.SameCache r.1) ↔
      isSpecialAddr addr = true ∨ usesCache m addr = false := by
  unfold memRead
  cases hspecial : isSpecialAddr addr with
  | true =>
    simp only [↓reduceIte, true_or, iff_true]
    unfold memReadSpecial
    rw [if_neg hnull]
    by_cases hio : addr = IO_CHAR_ADDR
    · rw [if_pos hio]
      rcases hwidth with rfl | rfl <;> exact ⟨_, rfl, rfl, rfl, rfl, rfl, rfl, rfl⟩
    · have hcheck : addr = CHECKPOINT_ADDR := by
        simpa [isSpecialAddr, hnull, hio] using hspecial
      rw [if_neg hio, if_pos hcheck]
      exact ⟨_, rfl, rfl, rfl, rfl, rfl, rfl, rfl⟩
  | false =>
    simp only [Bool.false_eq_true, ↓reduceIte, false_or]
    cases huses : usesCache m addr with
    | true =>
      simp only [↓reduceIte, Bool.true_eq_false, iff_false]
      rintro ⟨r, hr, hsame⟩
      have hcount : m.counters.attempts + min 1 width ≤ r.1.counters.attempts :=
        memReadCache_attempts m addr width r hr
      rw [hsame.counters] at hcount
      omega
    | false =>
      simp only [Bool.false_eq_true, ↓reduceIte, iff_true]
      exact ⟨_, rfl, rfl, rfl, rfl, rfl, rfl, rfl⟩

/-- The fetch stage leaves the data cache alone exactly when it generates a `HLT`, reads a special
address, or reads below the data segment (or there is no cache). -/
theorem fetch_leaves_cache (build : Build) (s : Machine) :
    (∃ s', fetchInstr build s = .ok s' ∧ s.mem.SameCache s'.mem) ↔
      generatesHlt build s = true ∨ isSpecialAddr (currentPC build s) = true ∨
        usesCache s.mem (currentPC build s) = false := by
  rw [fetchInstr_eq]
  unfold fetchResult
  cases hhlt : generatesHlt build s with
  | true =>
    simp only [↓reduceIte, true_or, iff_true]
    exact ⟨_, rfl, Mem.SameCache.refl s.mem⟩
  | false =>
    have hnull : currentPC build s ≠ NULL_ADDR := by
      intro hzero
      unfold generatesHlt at hhlt
      rw [hzero] at hhlt
      cases hhlt
    simp only [Bool.false_eq_true, ↓reduceIte, false_or]
    have hread := memRead_sameCache_iff s.mem (.inl (rfl : 4 = 4)) hnull
    rw [← hread]
    unfold imem memReadI
    cases hread : memRead s.mem (currentPC build s) 4 with
    | error crash =>
      constructor
      · rintro ⟨s', hs', -⟩
        cases hs'
      · rintro ⟨r, hr, -⟩
        cases hr
    | ok r =>
      constructor
      · rintro ⟨s', hs', hsame⟩
        cases hs'
        exact ⟨r, rfl, hsame⟩
      · rintro ⟨r', hr', hsame⟩
        cases hr'
        exact ⟨_, rfl, hsame⟩

/-- `MOVZ X0, #0x80, LSL #16; RET X0` returns to the data segment, where the fetch misses. -/
theorem fetch_misses_cache : ¬∀ (build : Build) (GPR : ℕ → BitVec 64) (mem : Mem)
    (entry : BitVec 64) (s s' : Machine), Reachable build (initMachine GPR mem entry) s →
      fetchInstr build s = .ok s' → s.mem.SameCache s'.mem := by
  intro hclaim
  have hrun : ((runElf ⟨true, false⟩ 3 (fun _ ↦ defaultOrder) (fun _ ↦ 0)
      ((textImage [0xD2A01000, 0xD65F0000]).withEmptyCache 1 8 64 4) (segStarts .text)).bind
        fun s ↦ (fetchInstr ⟨true, false⟩ s).map fun s' ↦
          (s.mem.counters.miss_count, s'.mem.counters.miss_count)) = .ok (0, 1) := by
    decide +kernel
  obtain ⟨s, hs, hfetch⟩ := bind_eq_ok.mp hrun
  obtain ⟨s', hs', hcounts⟩ := map_eq_ok.mp hfetch
  have hreach := runLoop_reachable (fun _ ↦ List.Perm.refl _) (initMachine_running _ _ _) hs
  have hcounters := (hclaim _ _ _ _ s s' hreach hs').counters
  have hmiss : s.mem.counters.miss_count = 0 ∧ s'.mem.counters.miss_count = 1 :=
    Prod.mk.inj hcounts
  rw [hcounters, hmiss.1] at hmiss
  exact absurd hmiss.2 (by decide)

end SystemEmulator
