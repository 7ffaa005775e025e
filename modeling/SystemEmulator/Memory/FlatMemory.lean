import SystemEmulator.Memory.CachedAccess
import SystemEmulator.Memory.Settle

/-!
# The cached path as a flat memory

Every access is repeated until the data port is ready.  Sequences of word accesses then return the
same values with a cache and without one: those of a flat memory.
-/

namespace SystemEmulator

open LittleEndian

/-- A read or a write of eight bytes. -/
inductive DataOp where
  | read (addr : BitVec 64)
  | write (addr val : BitVec 64)
  deriving DecidableEq, Repr

namespace DataOp

def addr : DataOp → BitVec 64
  | read addr => addr
  | write addr _ => addr

/-- One call of `mem_read_L` or `mem_write_L`; a write yields zero. -/
def call : DataOp → Mem → Except Crash (Mem × BitVec 64)
  | read addr, m => memReadL m addr
  | write addr val, m => (memWriteL m addr val).map fun m ↦ (m, 0)

/-- The effect of an access that took place. -/
def Outcome (m m' : Mem) (value : BitVec 64) : DataOp → Prop
  | read addr => m.Kept m' ∧ value = m.wordView addr
  | write addr val => m.Stored addr val m' ∧ value = 0

/-- The same access to memories that look alike. -/
theorem Outcome.congr {m₁ m₁' m₂ m₂' : Mem} {v₁ v₂ : BitVec 64} {op : DataOp} (h : m₁.Kept m₂)
    (h₁ : op.Outcome m₁ m₁' v₁) (h₂ : op.Outcome m₂ m₂' v₂) : m₁'.Kept m₂' ∧ v₁ = v₂ := by
  cases op with
  | read addr =>
    obtain ⟨hkept₁, hv₁⟩ := h₁
    obtain ⟨hkept₂, hv₂⟩ := h₂
    refine ⟨hkept₁.symm.trans (h.trans hkept₂), ?_⟩
    rw [hv₁, hv₂, h.wordView]
  | write addr val => exact ⟨h₁.1.congr h h₂.1, h₁.2.trans h₂.2.symm⟩

theorem Outcome.seg_start_addr {m m' : Mem} {value : BitVec 64} {op : DataOp}
    (h : op.Outcome m m' value) : m'.seg_start_addr = m.seg_start_addr := by
  cases op with
  | read addr => exact h.1.seg_start_addr
  | write addr val => exact h.1.seg_start_addr

theorem Outcome.of_kept {m₁ m₂ m₃ : Mem} {value : BitVec 64} {op : DataOp} (h : m₁.Kept m₂)
    (h' : op.Outcome m₂ m₃ value) : op.Outcome m₁ m₃ value := by
  cases op with
  | read addr => exact ⟨h.trans h'.1, h'.2.trans (h.wordView addr)⟩
  | write addr val => exact ⟨Mem.Stored.of_kept h h'.1, h'.2⟩

end DataOp

/-- The accesses in order, each of them repeated until it is ready. -/
def runOps : List DataOp → Mem → ExceptT Crash Option (Mem × List (BitVec 64))
  | [], m => pure (m, [])
  | op :: ops, m => do
      let (m, value) ← ExceptT.mk (settle op.call m)
      let (m, values) ← runOps ops m
      pure (m, value :: values)

theorem runOps_cons {op : DataOp} {ops : List DataOp} {m m' : Mem} {value : BitVec 64}
    (h : settle op.call m = some (.ok (m', value))) :
    runOps (op :: ops) m = runOps ops m' >>= fun r ↦ pure (r.1, value :: r.2) := by
  rw [runOps, h]
  rfl

/-- What the accesses yield when every address keeps the word that was written to it last. -/
def wordRun : List DataOp → (BitVec 64 → BitVec 64) → List (BitVec 64)
  | [], _ => []
  | .read addr :: ops, words => words addr :: wordRun ops words
  | .write addr val :: ops, words => 0 :: wordRun ops (Function.update words addr val)

/-- A word address of the data segments. -/
structure DataAddr (m : Mem) (addr : BitVec 64) : Prop where
  aligned : addr.toNat % 8 = 0
  inDmem : addrInDmem m addr = true

instance (m : Mem) (addr : BitVec 64) : Decidable (DataAddr m addr) :=
  decidable_of_iff (addr.toNat % 8 = 0 ∧ addrInDmem m addr = true)
    ⟨fun h ↦ ⟨h.1, h.2⟩, fun h ↦ ⟨h.1, h.2⟩⟩

section

variable {m : Mem} {b s : ℕ} {addr : BitVec 64}

theorem DataAddr.congr {m' : Mem} (h : DataAddr m addr)
    (hseg : m'.seg_start_addr = m.seg_start_addr) : DataAddr m' addr := by
  refine ⟨h.aligned, ?_⟩
  unfold addrInDmem
  rw [hseg]
  exact h.inDmem

/-- The accesses behind the first one reach the data segments, too. -/
theorem DataAddr.tail {op : DataOp} {ops : List DataOp}
    (hops : ∀ op' ∈ op :: ops, DataAddr m op'.addr ∧ op'.addr ≠ NULL_ADDR) {m' : Mem}
    (hseg : m'.seg_start_addr = m.seg_start_addr) :
    ∀ op' ∈ ops, DataAddr m' op'.addr ∧ op'.addr ≠ NULL_ADDR := by
  intro op' hmem
  obtain ⟨haddr, hnull⟩ := hops op' (List.mem_cons_of_mem op hmem)
  exact ⟨haddr.congr hseg, hnull⟩

theorem DataAddr.data_le (h : DataAddr m addr) : m.seg_start_addr .data ≤ addr := by
  have hin := h.inDmem
  unfold addrInDmem at hin
  simp only [Bool.and_eq_true, decide_eq_true_eq] at hin
  exact hin.1

/-- A word of the data segments shares no byte with an instruction word. -/
theorem DataAddr.not_pinned (h : DataAddr m addr) (a : BitVec 64) (ha : (a - addr).toNat < 8) :
    ¬m.pinned a := by
  have haligned := h.aligned
  have hle := h.data_le
  rw [BitVec.le_def] at hle
  have htoNat : a.toNat = addr.toNat + (a - addr).toNat := by
    rw [BitVec.toNat_sub] at ha ⊢
    omega
  unfold Mem.pinned
  omega

/-- A load from the data segments goes through the cache. -/
theorem DataAddr.memReadL_eq (h : DataAddr m addr) (hnull : addr ≠ NULL_ADDR) {cache : Cache}
    (hcache : m.cache = some cache) : memReadL m addr = memReadCache m addr 8 :=
  memRead_of_cached (isSpecialAddr_of_aligned h.aligned hnull)
    (usesCache_of_data hcache h.data_le) 8

theorem DataAddr.memWriteL_eq (h : DataAddr m addr) (hnull : addr ≠ NULL_ADDR) {cache : Cache}
    (hcache : m.cache = some cache) (data : BitVec 64) :
    memWriteL m addr data = memWriteCache m addr data 8 :=
  memWrite_of_cached (isSpecialAddr_of_aligned h.aligned hnull)
    (usesCache_of_data hcache h.data_le) data 8

/-- An attempt through the cache takes place or waits. -/
theorem call_attempt (hm : m.CacheOk b s) {cache : Cache} (hcache : m.cache = some cache)
    (op : DataOp) (haddr : DataAddr m op.addr) (hnull : op.addr ≠ NULL_ADDR) :
    ∃ m' value, op.call m = .ok (m', value) ∧
      (m'.dmem_status = .ready ∧ m'.CacheOk b s ∧ op.Outcome m m' value ∨
        m.Waits m' (cache.blockAddress op.addr) cache.d) := by
  obtain ⟨cache', orders, hcache', hinv⟩ := hm.inv
  have hinBlock := inBlock_of_aligned hinv.valid.b_ge haddr.aligned
  cases op with
  | read addr =>
    obtain ⟨m', value, hread, houtcome⟩ := memReadCache_attempt hm hcache hinBlock
    exact ⟨m', value, (haddr.memReadL_eq hnull hcache).trans hread, houtcome⟩
  | write addr val =>
    obtain ⟨m', hwrite, houtcome⟩ := memWriteCache_attempt hm hcache hinBlock haddr.not_pinned val
    refine ⟨m', 0, ?_, ?_⟩
    · exact congrArg (Except.map _) ((haddr.memWriteL_eq hnull hcache val).trans hwrite)
    · rcases houtcome with ⟨hready, hok, hstored⟩ | hwaits
      · exact .inl ⟨hready, hok, hstored, rfl⟩
      · exact .inr hwaits

/-- Through the cache an access takes place after finitely many attempts; the induction is on the
attempts that are left. -/
theorem settle_cached (op : DataOp) (hm : m.CacheOk b s) (haddr : DataAddr m op.addr)
    (hnull : op.addr ≠ NULL_ADDR) : ∃ m' value, settle op.call m = some (.ok (m', value)) ∧
      m'.dmem_status = .ready ∧ m'.CacheOk b s ∧ op.Outcome m m' value := by
  obtain ⟨cache, orders, hcache, -⟩ := hm.inv
  obtain ⟨left, hleft⟩ : ∃ left, left = m.attemptsLeft (cache.blockAddress op.addr) cache.d :=
    ⟨_, rfl⟩
  induction left using Nat.strong_induction_on generalizing m with
  | _ left ih =>
    obtain ⟨m', value, hcall, ⟨hready, hok, houtcome⟩ | hwaits⟩ :=
      call_attempt hm hcache op haddr hnull
    · refine ⟨m', value, settle_of_done hcall ?_, hready, hok, houtcome⟩
      rw [hready]
      exact MemStatus.noConfusion
    · have hless := hwaits.attemptsLeft
      obtain ⟨m'', value', hsettle, hready, hok, houtcome⟩ := ih _ (by omega)
        (hwaits.idles.cacheOk hm) (haddr.congr hwaits.idles.seg_start_addr)
        (hwaits.idles.cache.trans hcache) rfl
      refine ⟨m'', value', ?_, hready, hok, DataOp.Outcome.of_kept hwaits.idles.kept houtcome⟩
      rw [settle_of_wait hcall hwaits.dmem_status]
      exact hsettle

/-- Without a cache, what is seen is what the pages hold. -/
theorem Mem.view_of_cacheless (hcache : m.cache = none) (a : BitVec 64) :
    m.overlay.view a = byteAt m.ptable a := by
  have hline : m.overlay.line a = none := by
    change m.cache.bind _ = none
    rw [hcache, Option.bind_none]
  exact Overlay.view_of_none hline

/-- Without a cache an access takes place at once. -/
theorem call_flat (op : DataOp) (hcache : m.cache = none) (haddr : DataAddr m op.addr)
    (hnull : op.addr ≠ NULL_ADDR) :
    ∃ m' value, op.call m = .ok (m', value) ∧
      m'.dmem_status = m.dmem_status ∧ m'.cache = none ∧ op.Outcome m m' value := by
  have hspecial := isSpecialAddr_of_aligned haddr.aligned hnull
  have huses := usesCache_of_cacheless hcache op.addr
  cases op with
  | read addr =>
    obtain ⟨m', hm'⟩ : ∃ m', m' = { m with ptable := (memReadLE m.ptable addr 8).1 } := ⟨_, rfl⟩
    have hcall : (DataOp.read addr).call m = .ok (m', (memReadLE m.ptable addr 8).2) := by
      rw [hm']
      exact memRead_of_paged hspecial huses 8
    refine ⟨m', _, hcall, by rw [hm'], by rw [hm', hcache], ?_, ?_⟩
    · refine ⟨fun a ↦ ?_, by rw [hm'], by rw [hm'], by rw [hm'], by rw [hm']⟩
      rw [Mem.view_of_cacheless hcache, Mem.view_of_cacheless (by rw [hm', hcache]), hm']
      exact byteAt_memReadLE _ _ _ _
    · rw [memReadLE_snd]
      exact word_congr fun i _ ↦ (Mem.view_of_cacheless hcache _).symm
  | write addr val =>
    obtain ⟨m', hm'⟩ : ∃ m', m' = { m with ptable := memWriteLE m.ptable addr val 8 } := ⟨_, rfl⟩
    have hcall : (DataOp.write addr val).call m = .ok (m', 0) := by
      rw [hm']
      exact congrArg (Except.map _) (memWrite_of_paged hspecial huses val 8)
    refine ⟨m', 0, hcall, by rw [hm'], by rw [hm', hcache], ?_, rfl⟩
    · refine ⟨fun a ↦ ?_, by rw [hm'], by rw [hm'], by rw [hm'], by rw [hm']⟩
      rw [Mem.view_of_cacheless hcache, Mem.view_of_cacheless (by rw [hm', hcache]), hm']
      exact byteAt_memWriteLE _ _ _ le_rfl _

theorem settle_flat (op : DataOp) (hcache : m.cache = none) (hready : m.dmem_status = .ready)
    (haddr : DataAddr m op.addr) (hnull : op.addr ≠ NULL_ADDR) :
    ∃ m' value, settle op.call m = some (.ok (m', value)) ∧
      m'.dmem_status = .ready ∧ m'.cache = none ∧ op.Outcome m m' value := by
  obtain ⟨m', value, hcall, hstatus, hcache', houtcome⟩ := call_flat op hcache haddr hnull
  refine ⟨m', value, settle_of_done hcall ?_, hstatus.trans hready, hcache', houtcome⟩
  simp only [hstatus, hready, ne_eq, reduceCtorEq, not_false_eq_true]

/-- An access to `NULL_ADDR` does not depend on the cache: a read ends the emulator, a write is
dropped. -/
theorem settle_null_congr (op : DataOp) {m' : Mem} (hready : m.dmem_status = .ready)
    (hready' : m'.dmem_status = .ready) (hnull : op.addr = NULL_ADDR) :
    settle op.call m = some (.error .exitFailure) ∧
        settle op.call m' = some (.error .exitFailure) ∨
      settle op.call m = some (.ok (m, 0)) ∧ settle op.call m' = some (.ok (m', 0)) := by
  cases op with
  | read addr =>
    simp only [DataOp.addr] at hnull
    rw [hnull]
    exact .inl ⟨settle_of_error rfl, settle_of_error rfl⟩
  | write addr val =>
    simp only [DataOp.addr] at hnull
    rw [hnull]
    refine .inr ⟨settle_of_done rfl ?_, settle_of_done rfl ?_⟩
    · rw [hready]
      exact MemStatus.noConfusion
    · rw [hready']
      exact MemStatus.noConfusion

end

/-! ## Sequences of accesses -/

/-- Two sequences end alike: with the same values and the same bytes, or with the same crash. -/
def RunAlike (r r' : ExceptT Crash Option (Mem × List (BitVec 64))) : Prop :=
  (∃ m m' values, r = pure (m, values) ∧ r' = pure (m', values) ∧ m'.Kept m) ∨
    ∃ crash, r = throw crash ∧ r' = throw crash

theorem RunAlike.cons {m m' : Mem} {value : BitVec 64}
    {ops : List DataOp} (h : RunAlike (runOps ops m) (runOps ops m')) {op : DataOp} {m₀ m₀' : Mem}
    (hsettle : settle op.call m₀ = some (.ok (m, value)))
    (hsettle' : settle op.call m₀' = some (.ok (m', value))) :
    RunAlike (runOps (op :: ops) m₀) (runOps (op :: ops) m₀') := by
  rw [runOps_cons hsettle, runOps_cons hsettle']
  rcases h with ⟨n, n', values, hrun, hrun', hkept⟩ | ⟨crash, hrun, hrun'⟩
  · simp only [hrun, hrun', pure_bind]
    exact .inl ⟨n, n', _, rfl, rfl, hkept⟩
  · simp only [hrun, hrun']
    exact .inr ⟨crash, rfl, rfl⟩

/-- The cache is invisible to a sequence of accesses; the induction is on the sequence, and what it
carries along is that both memories look alike. -/
theorem runOps_alike {b s : ℕ} (ops : List DataOp) {m mflat : Mem} (hm : m.CacheOk b s)
    (hready : m.dmem_status = .ready) (hflat : mflat.cache = none)
    (hready' : mflat.dmem_status = .ready) (hkept : mflat.Kept m)
    (haddr : ∀ op ∈ ops, DataAddr mflat op.addr) :
    RunAlike (runOps ops m) (runOps ops mflat) := by
  induction ops generalizing m mflat with
  | nil => exact .inl ⟨m, mflat, [], rfl, rfl, hkept⟩
  | cons op ops ih =>
    have hop := haddr op List.mem_cons_self
    have hops : ∀ op ∈ ops, DataAddr mflat op.addr := fun op hmem ↦
      haddr op (List.mem_cons_of_mem _ hmem)
    by_cases hnull : op.addr = NULL_ADDR
    · rcases settle_null_congr op hready hready' hnull with ⟨h, h'⟩ | ⟨h, h'⟩
      · unfold runOps
        rw [h, h']
        exact .inr ⟨.exitFailure, rfl, rfl⟩
      · exact (ih hm hready hflat hready' hkept hops).cons h h'
    · obtain ⟨m₁, v₁, hsettle, hready₁, hok₁, hout₁⟩ :=
        settle_cached op hm (hop.congr hkept.seg_start_addr) hnull
      obtain ⟨m₂, v₂, hsettle', hready₂, hflat₂, hout₂⟩ := settle_flat op hflat hready' hop hnull
      obtain ⟨hkept', hvalue⟩ := hout₂.congr hkept hout₁
      have hseg : m₂.seg_start_addr = mflat.seg_start_addr := hout₂.seg_start_addr
      have hops' : ∀ op ∈ ops, DataAddr m₂ op.addr := fun op hmem ↦ (hops op hmem).congr hseg
      rw [← hvalue] at hsettle
      exact (ih hok₁ hready₁ hflat₂ hready₂ hkept' hops').cons hsettle hsettle'

/-! ## The flat memory -/

/-- A store to an aligned address changes the word at this address and no other. -/
theorem Mem.Stored.wordView {addr val a : BitVec 64} {m m' : Mem} (h : m.Stored addr val m')
    (haddr : addr.toNat % 8 = 0) (ha : a.toNat % 8 = 0) :
    m'.wordView a = if a = addr then val else m.wordView a := by
  by_cases heq : a = addr
  · rw [if_pos heq, heq, Mem.wordView, ← word_byte val]
    refine word_congr fun i hi ↦ ?_
    have hdist : (addr + BitVec.ofNat 64 i - addr).toNat = i :=
      (eq_add_ofNat_iff (show i < 2 ^ 64 by omega)).mp rfl
    rw [h.view, hdist, if_pos hi]
  · rw [if_neg heq]
    refine word_congr fun i hi ↦ ?_
    have hne : a.toNat ≠ addr.toNat := fun hcontra ↦ heq (BitVec.eq_of_toNat_eq hcontra)
    have hlt := a.isLt
    have hlt' := addr.isLt
    rw [h.view, if_neg]
    rw [BitVec.toNat_sub, BitVec.toNat_add, BitVec.toNat_ofNat]
    omega

/-- Without a cache, the accesses yield the words written last. -/
theorem runOps_flat (ops : List DataOp) {m : Mem} (hcache : m.cache = none)
    (hready : m.dmem_status = .ready)
    (haddr : ∀ op ∈ ops, DataAddr m op.addr ∧ op.addr ≠ NULL_ADDR) {words : BitVec 64 → BitVec 64}
    (hwords : ∀ a, a.toNat % 8 = 0 → words a = m.wordView a) :
    ∃ m', runOps ops m = pure (m', wordRun ops words) := by
  induction ops generalizing m words with
  | nil => exact ⟨m, rfl⟩
  | cons op ops ih =>
    obtain ⟨hop, hnull⟩ := haddr op List.mem_cons_self
    obtain ⟨m₁, value, hsettle, hready₁, hcache₁, hout⟩ := settle_flat op hcache hready hop hnull
    have haddr' := DataAddr.tail haddr hout.seg_start_addr
    cases op with
    | read addr =>
      obtain ⟨hkept, hvalue⟩ := hout
      have hwords' : ∀ a, a.toNat % 8 = 0 → words a = m₁.wordView a := fun a ha ↦
        (hwords a ha).trans (hkept.wordView a).symm
      obtain ⟨m', hrun⟩ := ih hcache₁ hready₁ haddr' hwords'
      refine ⟨m', ?_⟩
      rw [runOps_cons hsettle]
      simp only [hrun, pure_bind, wordRun]
      rw [hvalue, hwords addr hop.aligned]
    | write addr val =>
      obtain ⟨hstored, hvalue⟩ := hout
      have hwords' : ∀ a, a.toNat % 8 = 0 → Function.update words addr val a = m₁.wordView a := by
        intro a ha
        rw [hstored.wordView hop.aligned ha, Function.update_apply]
        split
        · rfl
        · exact hwords a ha
      obtain ⟨m', hrun⟩ := ih hcache₁ hready₁ haddr' hwords'
      refine ⟨m', ?_⟩
      rw [runOps_cons hsettle]
      simp only [hrun, pure_bind, wordRun, hvalue]

def Mem.withEmptyCache (m : Mem) (A B C d : ℕ) : Mem :=
  { m with cache := some (createCache A B C d) }

theorem Mem.withEmptyCache_ok {A B C d b s : ℕ} (hvalid : (createCache A B C d).Valid b s)
    {m : Mem} (hcache : m.cache = none) :
    (m.withEmptyCache A B C d).CacheOk b s ∧ m.Kept (m.withEmptyCache A B C d) := by
  have hline : ∀ a, (m.withEmptyCache A B C d).overlay.line a = none :=
    Cache.resident_createCache A B C d
  refine ⟨⟨⟨_, _, rfl, Cache.inv_createCache hvalid⟩, fun a v dirty hsome ↦ ?_⟩,
    ⟨fun a ↦ ?_, rfl, rfl, rfl, rfl⟩⟩
  · rw [hline a] at hsome
    cases hsome
  · rw [Overlay.view_of_none (hline a), Mem.view_of_cacheless hcache]
    rfl

/-- Word accesses to the data segments, each repeated until the data port is ready, do the same
with an empty cache of any valid configuration as without a cache, and leave every byte the same.
Away from `NULL_ADDR` they behave like a flat memory. -/
theorem runOps_withEmptyCache {A B C d b s : ℕ} (hvalid : (createCache A B C d).Valid b s) (m : Mem)
    (hcache : m.cache = none) (hready : m.dmem_status = .ready) (ops : List DataOp)
    (haddr : ∀ op ∈ ops, DataAddr m op.addr) :
    RunAlike (runOps ops (m.withEmptyCache A B C d)) (runOps ops m) ∧
      ((∀ op ∈ ops, op.addr ≠ NULL_ADDR) → ∃ m', runOps ops (m.withEmptyCache A B C d) =
        pure (m', wordRun ops fun a ↦ (memReadLE m.ptable a 8).2)) := by
  obtain ⟨hok, hkept⟩ := Mem.withEmptyCache_ok hvalid hcache
  have halike := runOps_alike ops hok hready hcache hready hkept haddr
  refine ⟨halike, fun hnull ↦ ?_⟩
  have hwords : ∀ a : BitVec 64, a.toNat % 8 = 0 →
      (memReadLE m.ptable a 8).2 = m.wordView a := by
    intro a _
    rw [memReadLE_snd]
    exact word_congr fun i _ ↦ (Mem.view_of_cacheless hcache _).symm
  obtain ⟨mflat, hflat⟩ := runOps_flat ops hcache hready
    (fun op hmem ↦ ⟨haddr op hmem, hnull op hmem⟩) hwords
  rcases halike with ⟨m', m'', values, hrun, hrun', -⟩ | ⟨crash, -, hrun'⟩
  · rw [hflat] at hrun'
    cases hrun'
    exact ⟨m', hrun⟩
  · rw [hflat] at hrun'
    cases hrun'

end SystemEmulator
