import SystemEmulator.Cycle.Records
import SystemEmulator.Replacement.LruCalls

/-!
# Failing assertions

The assertion of `lru` holds in every run, and so do those of the special reads.  The special
write has no case for `CHECKPOINT_ADDR`, and a program fails an assertion only by a store to it.
-/

namespace SystemEmulator

open Relation Result

/-! ## Memory accesses -/

def Mem.CacheSafe (m : Mem) : Prop := ∀ cache, m.cache = some cache → cache.LruSafe

theorem Mem.CacheSafe.of_cache_eq {m m' : Mem} (h : m.CacheSafe) (heq : m'.cache = m.cache) :
    m'.CacheSafe := fun cache hcache ↦ h cache (heq ▸ hcache)

theorem Cache.LruSafe.mem {cache : Cache} (h : cache.LruSafe) {m : Mem}
    (hm : m.cache = some cache) : m.CacheSafe := fun cache' hcache' ↦ by
  rw [hm] at hcache'
  exact Option.some.inj hcache' ▸ h

theorem installBlock_post (m : Mem) {cache : Cache} (h : cache.LruSafe)
    (block_address : BitVec 64) (fill : BlockFill) (operation : Operation) :
    Post Mem.CacheSafe (· ≠ Crash.assertFailed)
      (installBlock m cache block_address fill operation) := by
  unfold installBlock
  exact (handleMiss_post h _ _ _ _).bind fun r hr ↦ .ok (hr.mem rfl)

theorem cacheByte_post (m : Mem) {cache : Cache} (h : cache.LruSafe)
    (current_address : BitVec 64) (fill : BlockFill) (operation : Operation) :
    Post (fun r ↦ r.2.CacheSafe) (· ≠ Crash.assertFailed)
      (cacheByte m cache current_address fill operation) := by
  unfold cacheByte
  refine (checkHit_post h _ _ _).bind fun r hr ↦ ?_
  obtain ⟨hit, cache', n⟩ := r
  simp only at hr ⊢
  have harm : ∀ m : Mem, m.cache = some cache' → ∀ (a : BitVec 64) (d : ℕ),
      (armInflight m a d).cache = some cache' := by
    intro m hm a d
    unfold armInflight
    split <;> exact hm
  split
  · exact .ok (hr.mem rfl)
  · split
    · exact .ok (hr.mem (harm _ rfl _ _))
    · exact (installBlock_post _ hr _ _ _).bind fun m' hm' ↦ .ok hm'

theorem cacheLoop_post (fill : Cache → BitVec 64 → BlockFill) (operation : Operation)
    (remaining : ℕ) (current_address : BitVec 64) {m : Mem} (h : m.CacheSafe) :
    Post (fun r ↦ r.2.CacheSafe) (· ≠ Crash.assertFailed)
      (cacheLoop fill operation remaining current_address m) := by
  induction remaining generalizing current_address m with
  | zero => exact .ok h
  | succ remaining ih =>
    unfold cacheLoop
    cases hcache : m.cache with
    | none => exact .error Crash.noConfusion
    | some cache =>
      refine (cacheByte_post m (h cache hcache) _ _ _).bind fun r hr ↦ ?_
      obtain ⟨continue_, m'⟩ := r
      simp only at hr ⊢
      split
      · exact ih _ hr
      · exact .ok hr

theorem memReadCache_post {m : Mem} (h : m.CacheSafe) (addr : BitVec 64) (width : ℕ) :
    Post (fun r ↦ r.1.CacheSafe) (· ≠ Crash.assertFailed) (memReadCache m addr width) := by
  unfold memReadCache
  refine (cacheLoop_post _ _ _ _ h).bind fun r hr ↦ ?_
  obtain ⟨done, m'⟩ := r
  simp only at hr ⊢
  split
  · cases hcache : m'.cache with
    | none => exact .error Crash.noConfusion
    | some cache =>
      exact (getWordCache_post cache addr).bind fun _ _ ↦ .ok ((hr cache hcache).mem rfl)
  · exact .ok hr

theorem memWriteCache_post {m : Mem} (h : m.CacheSafe) (addr data : BitVec 64) (width : ℕ) :
    Post Mem.CacheSafe (· ≠ Crash.assertFailed) (memWriteCache m addr data width) := by
  unfold memWriteCache
  refine (cacheLoop_post _ _ _ _ h).bind fun r hr ↦ ?_
  obtain ⟨done, m'⟩ := r
  simp only at hr ⊢
  split
  · cases hcache : m'.cache with
    | none => exact .error Crash.noConfusion
    | some cache =>
      exact (setWordCache_post (hr cache hcache) addr data).bind fun _ hcache' ↦
        .ok (hcache'.mem rfl)
  · exact .ok hr

/-- The widths for which `mem.c` has accessors. -/
def AccessWidth (width : ℕ) : Prop := width = 1 ∨ width = 2 ∨ width = 4 ∨ width = 8

theorem scanValue_ok {width : ℕ} (h : AccessWidth width) (data : BitVec 64) :
    ∃ value, scanValue data width = .ok value := by
  rcases h with rfl | rfl | rfl | rfl <;> exact ⟨_, rfl⟩

theorem printValue_ok {width : ℕ} (h : AccessWidth width) (data : BitVec 64) :
    ∃ value, printValue data width = .ok value := by
  rcases h with rfl | rfl | rfl | rfl <;> exact ⟨_, rfl⟩

theorem isSpecialAddr_iff (addr : BitVec 64) : isSpecialAddr addr = true ↔
    addr = NULL_ADDR ∨ addr = IO_CHAR_ADDR ∨ addr = CHECKPOINT_ADDR := by
  unfold isSpecialAddr
  rw [Bool.or_eq_true, Bool.or_eq_true, beq_iff_eq, beq_iff_eq, beq_iff_eq, or_assoc]

/-- Every special address has a case in the special read. -/
theorem memRead_post {m : Mem} (h : m.CacheSafe) (addr : BitVec 64) {width : ℕ}
    (hwidth : AccessWidth width) :
    Post (fun r ↦ r.1.CacheSafe) (· ≠ Crash.assertFailed) (memRead m addr width) := by
  unfold memRead
  split
  · rename_i hspecial
    unfold memReadSpecial
    by_cases hnull : addr = NULL_ADDR
    · rw [if_pos hnull]
      exact .error Crash.noConfusion
    by_cases hio : addr = IO_CHAR_ADDR
    · obtain ⟨value, hvalue⟩ := scanValue_ok hwidth (m.stdin m.stdin_pos)
      rw [if_neg hnull, if_pos hio, hvalue]
      exact .ok (h.of_cache_eq rfl)
    · have hcheck := ((isSpecialAddr_iff addr).mp hspecial).resolve_left hnull
      rw [if_neg hnull, if_neg hio, if_pos (hcheck.resolve_left hio)]
      exact .ok h
  · split
    · exact memReadCache_post h addr width
    · exact .ok (h.of_cache_eq rfl)

/-- The special write has no case for `CHECKPOINT_ADDR`. -/
theorem memWrite_post {m : Mem} (h : m.CacheSafe) (addr data : BitVec 64) {width : ℕ}
    (hwidth : AccessWidth width) :
    Post Mem.CacheSafe (fun crash ↦ crash = .assertFailed → addr = CHECKPOINT_ADDR)
      (memWrite m addr data width) := by
  unfold memWrite
  split
  · rename_i hspecial
    unfold memWriteSpecial
    by_cases hnull : addr = NULL_ADDR
    · rw [if_pos hnull]
      exact .ok h
    by_cases hio : addr = IO_CHAR_ADDR
    · obtain ⟨value, hvalue⟩ := printValue_ok hwidth data
      rw [if_neg hnull, if_pos hio, hvalue]
      exact .ok (h.of_cache_eq rfl)
    · have hcheck := ((isSpecialAddr_iff addr).mp hspecial).resolve_left hnull
      rw [if_neg hnull, if_neg hio]
      exact .error fun _ ↦ hcheck.resolve_left hio
  · split
    · exact (memWriteCache_post h addr data width).mono (fun _ hm ↦ hm)
        fun _ hne heq ↦ absurd heq hne
    · exact .ok (h.of_cache_eq rfl)

/-! ## Cycles -/

/-- The instruction in the memory stage stores to `CHECKPOINT_ADDR`. -/
def Machine.StoresToCheckpoint (s : Machine) : Prop :=
  s.M_out.M_sigs.dmem_write = true ∧ s.M_out.val_ex = CHECKPOINT_ADDR

theorem imem_post {m : Mem} (h : m.CacheSafe) (addr : BitVec 64) :
    Post (fun r ↦ r.1.CacheSafe) (· ≠ Crash.assertFailed) (imem m addr) := by
  unfold imem memReadI
  refine ((memRead_post h addr (.inr (.inr (.inl rfl)))).bind fun r hr ↦ ?_).bind
    fun r hr ↦ .ok hr
  exact .ok hr

theorem accessed_post (m : MInstr) {mem : Mem} (h : mem.CacheSafe) :
    Post (fun r ↦ r.1.CacheSafe)
      (fun crash ↦ crash = .assertFailed → m.M_sigs.dmem_write = true ∧ m.val_ex = CHECKPOINT_ADDR)
      (accessed m mem) := by
  have hwidth : AccessWidth 8 := .inr (.inr (.inr rfl))
  unfold accessed dmem dmemRead dmemWrite memReadL memWriteL
  refine Post.bind (P := fun r ↦ r.1.CacheSafe) ?_ fun r hr ↦ .ok hr
  split
  · exact .ok h
  refine Post.bind (P := fun r ↦ r.1.CacheSafe) ?_ fun r hr ↦ ?_
  · split
    · exact (memRead_post h m.val_ex hwidth).mono (fun _ hm ↦ hm) fun _ hne heq ↦ absurd heq hne
    · exact .ok h
  refine Post.bind (P := Mem.CacheSafe) ?_ fun m' hm' ↦ .ok hm'
  cases hwrite : m.M_sigs.dmem_write with
  | true =>
    exact (memWrite_post hr m.val_ex m.val_b hwidth).mono (fun _ hm ↦ hm)
      fun _ haddr heq ↦ ⟨rfl, haddr heq⟩
  | false => exact .ok hr

theorem fetchResult_post (build : Build) (s : Machine) {mem : Mem} (h : mem.CacheSafe)
    (F_PC : BitVec 64) :
    Post (fun r ↦ r.1.CacheSafe) (· ≠ Crash.assertFailed) (fetchResult build s mem F_PC) := by
  unfold fetchResult
  split
  · exact .ok h
  · exact (imem_post h _).map fun _ hr ↦ hr

theorem fetchInstr_post (build : Build) {s : Machine} (h : s.mem.CacheSafe) :
    Post (fun s' ↦ s'.mem.CacheSafe) (· ≠ Crash.assertFailed) (fetchInstr build s) := by
  rw [fetchInstr_eq]
  exact (fetchResult_post build s h s.F_PC).map fun _ hr ↦ hr

/-- Only the store to `CHECKPOINT_ADDR` fails an assertion of the memory stage, and it does. -/
theorem memoryInstr_assertFailed_iff (build : Build) {s : Machine} (h : s.mem.CacheSafe) :
    memoryInstr build s = .error .assertFailed ↔ s.StoresToCheckpoint := by
  rw [memoryInstr_eq]
  constructor
  · intro hfail
    have hpost : Post (fun _ ↦ True) (fun crash ↦ crash = .assertFailed → s.StoresToCheckpoint)
        ((accessed s.M_out s.mem).map (latchMemory build s)) :=
      (accessed_post s.M_out h).map fun _ _ ↦ trivial
    exact hpost.of_error hfail rfl
  · rintro ⟨hwrite, haddr⟩
    unfold accessed dmem dmemRead dmemWrite memReadL memWriteL
    rw [hwrite, haddr]
    cases s.M_out.M_sigs.dmem_read with
    | true => rfl
    | false => rfl

theorem finishCycle_mem (build : Build) (t : Machine) : (finishCycle build t).mem = t.mem := by
  rw [finishCycle_eq]
  rfl

theorem cycle_post {build : Build} {order : List ProcStage} (horder : order.Perm defaultOrder)
    {s : Machine} (h : s.mem.CacheSafe) :
    Post (fun s' ↦ s'.mem.CacheSafe) (fun crash ↦ crash = .assertFailed → s.StoresToCheckpoint)
      (cycle build order s) := by
  have hne : ∀ crash : Crash, crash ≠ .assertFailed → crash = .assertFailed →
      s.StoresToCheckpoint := fun _ hne heq ↦ absurd heq hne
  have hstages : Post (fun t : Machine ↦ t.mem.CacheSafe)
      (fun crash ↦ crash = .assertFailed → s.StoresToCheckpoint) (runStages build order s) := by
    rcases runStages_perm build horder s with heq | heq
    · rw [heq]
      unfold fetchFirst
      refine ((fetchResult_post build s h _).mono (fun _ hr ↦ hr) hne).bind fun r hr ↦ ?_
      exact (accessed_post s.M_out hr).map fun q hq ↦ hq
    · rw [heq]
      unfold memoryFirst
      refine (accessed_post s.M_out h).bind fun q hq ↦ ?_
      exact ((fetchResult_post build s hq _).mono (fun _ hr ↦ hr) hne).map fun r hr ↦ hr
  unfold cycle
  refine hstages.bind fun t ht ↦ .ok ?_
  rw [finishCycle_mem]
  exact ht

/-! ## Runs -/

theorem Reachable.cacheSafe {build : Build} {s s' : Machine} (hs : s.mem.CacheSafe)
    (h : Reachable build s s') : s'.mem.CacheSafe := by
  induction h with
  | refl => exact hs
  | tail _ hstep ih =>
    obtain ⟨order, horder, -, hcycle⟩ := hstep
    exact (cycle_post horder ih).of_ok hcycle

/-- The run of the loop from `s` starts its cycle `k` in the state `t`. -/
def StartsCycle (build : Build) (orders : ℕ → List ProcStage) (s : Machine) (k : ℕ) (t : Machine) :
    Prop :=
  runLoop build k orders s = .ok t ∧ t.running = true

/-- A loop that is still running after `k` cycles goes on from there. -/
theorem StartsCycle.runLoop_add {build : Build} {orders : ℕ → List ProcStage} {s t : Machine}
    {k : ℕ} (h : StartsCycle build orders s k t) (fuel : ℕ) :
    runLoop build (k + fuel) orders s = runLoop build fuel (fun n ↦ orders (k + n)) t := by
  obtain ⟨hloop, hrunning⟩ := h
  induction k generalizing s orders with
  | zero =>
    cases hloop
    simp only [Nat.zero_add]
  | succ k ih =>
    rw [Nat.add_right_comm]
    cases hcycle : cycle build (orders 0) s with
    | error crash =>
      rw [runLoop_succ, hcycle] at hloop
      cases hloop
    | ok s' =>
      rw [runLoop_succ_of_cycle hcycle] at hloop ⊢
      by_cases hs' : s'.running = true
      · rw [if_pos hs'] at hloop ⊢
        rw [ih hloop]
        simp only [Nat.add_right_comm k]
      · rw [if_neg hs'] at hloop
        cases hloop
        exact absurd hrunning hs'

theorem runLoop_assertFailed {build : Build} {fuel : ℕ} {orders : ℕ → List ProcStage}
    (horders : ∀ n, (orders n).Perm defaultOrder) {s : Machine} (hs : s.running = true)
    (hsafe : s.mem.CacheSafe) (h : runLoop build fuel orders s = .error .assertFailed) :
    ∃ k < fuel, ∃ t, StartsCycle build orders s k t ∧ t.StoresToCheckpoint := by
  induction fuel generalizing s orders with
  | zero => cases h
  | succ fuel ih =>
    cases hcycle : cycle build (orders 0) s with
    | error crash =>
      rw [runLoop_succ, hcycle] at h
      obtain rfl : crash = .assertFailed := Except.error.inj h
      exact ⟨0, Nat.succ_pos fuel, s, ⟨rfl, hs⟩, (cycle_post (horders 0) hsafe).of_error hcycle rfl⟩
    | ok s' =>
      rw [runLoop_succ_of_cycle hcycle] at h
      by_cases hrunning : s'.running = true
      · rw [if_pos hrunning] at h
        obtain ⟨k, hk, t, ⟨hloop, ht⟩, hstore⟩ := ih (fun n ↦ horders (n + 1)) hrunning
          ((cycle_post (horders 0) hsafe).of_ok hcycle) h
        refine ⟨k + 1, Nat.succ_lt_succ hk, t, ⟨?_, ht⟩, hstore⟩
        rw [runLoop_succ_of_cycle hcycle, if_pos hrunning]
        exact hloop
      · rw [if_neg hrunning] at h
        cases h

/-- A cycle with a store to `CHECKPOINT_ADDR` fails the assertion, unless its fetch fails first. -/
theorem cycle_of_storesToCheckpoint {build : Build} {order : List ProcStage}
    (horder : order.Perm defaultOrder) {s : Machine} (h : s.StoresToCheckpoint) :
    ∃ crash, cycle build order s = .error crash ∧
      (crash = .assertFailed ∨ fetchInstr build s = .error crash) := by
  have haccess : ∀ mem, ∃ crash, accessed s.M_out mem = .error crash ∧ crash = .assertFailed := by
    intro mem
    refine ⟨_, ?_, rfl⟩
    unfold accessed dmem dmemRead dmemWrite memReadL memWriteL
    rw [h.1, h.2]
    cases s.M_out.M_sigs.dmem_read with
    | true => rfl
    | false => rfl
  unfold cycle
  rcases runStages_perm build horder s with heq | heq
  · rw [heq, fetchInstr_eq]
    unfold fetchFirst
    cases fetchResult build s s.mem s.F_PC with
    | error crash => exact ⟨crash, rfl, .inr rfl⟩
    | ok r =>
      obtain ⟨crash, hcrash, hassert⟩ := haccess r.1
      refine ⟨crash, ?_, .inl hassert⟩
      change ((accessed s.M_out r.1).map _ >>= _) = _
      rw [hcrash]
      rfl
  · obtain ⟨crash, hcrash, hassert⟩ := haccess s.mem
    refine ⟨crash, ?_, .inl hassert⟩
    rw [heq]
    unfold memoryFirst
    rw [hcrash]
    rfl

/-- The start of a run on a memory whose cache, if any, has just been created. -/
def startMachine (GPR : ℕ → BitVec 64) (mem : Mem) (config : Option CacheConfig)
    (entry : BitVec 64) : Machine :=
  initMachine GPR { mem with cache := config.map CacheConfig.cache } entry

theorem startMachine_cacheSafe (GPR : ℕ → BitVec 64) (mem : Mem) (config : Option CacheConfig)
    (entry : BitVec 64) : (startMachine GPR mem config entry).mem.CacheSafe := by
  intro cache hcache
  change config.map CacheConfig.cache = some cache at hcache
  obtain ⟨c, -, rfl⟩ := Option.map_eq_some_iff.mp hcache
  exact c.lruSafe

/-- One of the first `cycle_max` cycles of the run has a store to `CHECKPOINT_ADDR` in its memory
stage. -/
def ReachesCheckpointStore (build : Build) (orders : ℕ → List ProcStage) (s : Machine)
    (cycle_max : ℕ) : Prop :=
  ∃ k < max 1 cycle_max, ∃ t, StartsCycle build orders s k t ∧ t.StoresToCheckpoint

/-- The cycle with the store ends the run, and with the failed assertion unless a fetch in the
same cycle ends it first. -/
theorem ReachesCheckpointStore.runLoop {build : Build} {orders : ℕ → List ProcStage}
    (horders : ∀ n, (orders n).Perm defaultOrder) {s : Machine} {cycle_max : ℕ}
    (h : ReachesCheckpointStore build orders s cycle_max) :
    ∃ crash, runLoop build (max 1 cycle_max) orders s = .error crash ∧
      (crash = .assertFailed ∨
        ∃ k t, StartsCycle build orders s k t ∧ fetchInstr build t = .error crash) := by
  obtain ⟨k, hk, t, hstart, hstore⟩ := h
  obtain ⟨fuel, hfuel⟩ : ∃ fuel, max 1 cycle_max = k + (fuel + 1) :=
    ⟨max 1 cycle_max - k - 1, by omega⟩
  obtain ⟨crash, hcycle, hcrash⟩ : ∃ crash, cycle build (orders (k + 0)) t = .error crash ∧
      (crash = .assertFailed ∨ fetchInstr build t = .error crash) :=
    cycle_of_storesToCheckpoint (horders (k + 0)) hstore
  refine ⟨crash, ?_, hcrash.imp_right fun hfetch ↦ ⟨k, t, hstart, hfetch⟩⟩
  rw [hfuel, hstart.runLoop_add, runLoop_succ, hcycle]
  rfl

/-- A run fails an assertion only by a store to `CHECKPOINT_ADDR`, and such a store ends it; and in
every reachable state `lru` is called with the index of one of at most eight lines. -/
theorem assertions_hold (build : Build) (GPR : ℕ → BitVec 64) (mem : Mem)
    (config : Option CacheConfig) (entry : BitVec 64) :
    (∀ (cycle_max : ℕ) (orders : ℕ → List ProcStage), (∀ n, (orders n).Perm defaultOrder) →
      (runElf build cycle_max orders GPR { mem with cache := config.map CacheConfig.cache } entry =
          .error .assertFailed →
        ReachesCheckpointStore build orders (startMachine GPR mem config entry) cycle_max) ∧
      (ReachesCheckpointStore build orders (startMachine GPR mem config entry) cycle_max →
        ∃ crash, runElf build cycle_max orders GPR
            { mem with cache := config.map CacheConfig.cache } entry = .error crash ∧
          (crash = .assertFailed ∨
            ∃ k t, StartsCycle build orders (startMachine GPR mem config entry) k t ∧
              fetchInstr build t = .error crash))) ∧
    ∀ s, Reachable build (startMachine GPR mem config entry) s →
      fetchInstr build s ≠ .error .assertFailed ∧
      (memoryInstr build s = .error .assertFailed ↔ s.StoresToCheckpoint) ∧
      ∀ cache cache', s.mem.cache = some cache → ReflTransGen CacheCall cache cache' →
        cache'.LruCallsOk := by
  have hsafe := startMachine_cacheSafe GPR mem config entry
  refine ⟨fun cycle_max orders horders ↦ ⟨fun hfail ↦ ?_, fun hstore ↦ hstore.runLoop horders⟩,
    fun s hreach ↦ ?_⟩
  · exact runLoop_assertFailed horders (initMachine_running _ _ _) hsafe hfail
  · have hs := hreach.cacheSafe hsafe
    refine ⟨fun hfail ↦ (fetchInstr_post build hs).of_error hfail rfl,
      memoryInstr_assertFailed_iff build hs, fun cache cache' hcache hcalls ↦ ?_⟩
    exact ((hs cache hcache).calls hcalls).lruCallsOk

/-- `SUB X0, X0, #9; STUR X0, [X0]` stores to `CHECKPOINT_ADDR`. -/
theorem assertions_fail : ¬∀ (build : Build) (cycle_max : ℕ) (GPR : ℕ → BitVec 64) (mem : Mem)
    (config : Option CacheConfig) (entry : BitVec 64),
    runElf build cycle_max (fun _ ↦ defaultOrder) GPR
      { mem with cache := config.map CacheConfig.cache } entry ≠ .error .assertFailed := by
  intro hclaim
  refine hclaim ⟨true, false⟩ 10 (fun _ ↦ 0)
    (textImage [0xD1002400, 0xF8000000, 0xD503201F, 0xD503201F]) none 0x400000 ?_
  have hfail : (runElf ⟨true, false⟩ 10 (fun _ ↦ defaultOrder) (fun _ ↦ 0)
      { textImage [0xD1002400, 0xF8000000, 0xD503201F, 0xD503201F] with
        cache := (none : Option CacheConfig).map CacheConfig.cache } 0x400000).map
        (fun s ↦ s.PC) = .error .assertFailed := by
    decide +kernel
  generalize runElf ⟨true, false⟩ 10 (fun _ ↦ defaultOrder) (fun _ ↦ 0) _ 0x400000 = result
    at hfail ⊢
  cases result with
  | error crash => exact congrArg _ (Except.error.inj hfail)
  | ok s => cases hfail

end SystemEmulator
