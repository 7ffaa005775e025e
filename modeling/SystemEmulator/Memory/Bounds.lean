import SystemEmulator.Library.Traced
import SystemEmulator.Memory.MissDelay

/-!
# Buffer accesses of a cached access

The cached path with the bytes it touches in the buffers `block`, `line->data` and
`evicted->data`.  A read that completes a miss takes a word from `block` at an index that is scaled
twice; all other bytes are inside the buffers.
-/

namespace SystemEmulator

open Relation

/-! ## The functions with their buffer accesses -/

/-- A byte of one of the three buffers of `B` bytes, by its index. -/
inductive BufferAccess where
  | block (index : ℕ)
  | lineData (index : ℕ)
  | evictedData (index : ℕ)
  deriving DecidableEq, Repr

def BufferAccess.index : BufferAccess → ℕ
  | block index => index
  | lineData index => index
  | evictedData index => index

/-- The `n` bytes of a buffer from `offset` on, as a loop or a `memcpy` touches them. -/
def touchBytes (buffer : ℕ → BufferAccess) (offset n : ℕ) : Traced Crash BufferAccess Unit :=
  .emit ((List.range n).map fun k ↦ buffer (offset + k))

/-- `handle_miss`: the line is copied to the evicted line, the block to the line. -/
def handleMissTraced (cache : Cache) (n : Counters) (addr : BitVec 64) (operation : Operation)
    (incoming_data : ℕ → BitVec 8) :
    Traced Crash BufferAccess (EvictedLine × Cache × Counters) := do
  touchBytes .lineData 0 cache.B
  touchBytes .evictedData 0 cache.B
  touchBytes .block 0 cache.B
  touchBytes .lineData 0 cache.B
  .lift (handleMiss cache n addr operation incoming_data)

/-- `get_word_cache`. -/
def getWordCacheTraced (cache : Cache) (addr : BitVec 64) :
    Traced Crash BufferAccess (BitVec 64) := do
  let data ← .lift (getWordCache cache addr)
  touchBytes .lineData (cache.offset addr) 8
  pure data

/-- `set_word_cache`. -/
def setWordCacheTraced (cache : Cache) (addr val : BitVec 64) :
    Traced Crash BufferAccess Cache := do
  let cache' ← .lift (setWordCache cache addr val)
  touchBytes .lineData (cache.offset addr) 8
  pure cache'

/-- The word that a read takes from `block`. -/
def touchWord : Option ℕ → Traced Crash BufferAccess Unit
  | some index => touchBytes .block (8 * index) 8
  | none => pure ()

/-- The data of a dirty evicted line is written back. -/
def touchVictim (evicted : EvictedLine) (B : ℕ) : Traced Crash BufferAccess Unit :=
  if evicted.valid && evicted.dirty then touchBytes .evictedData 0 B else pure ()

/-- `installBlock`. -/
def installBlockTraced (m : Mem) (cache : Cache) (block_address : BitVec 64) (fill : BlockFill)
    (operation : Operation) : Traced Crash BufferAccess Mem := do
  touchBytes .block 0 cache.B
  let (pt, block) := fillBlock fill.base cache.B cache.B m.ptable (fun _ ↦ 0)
  let (evicted, cache', counters) ← handleMissTraced cache m.counters block_address operation block
  touchWord fill.word
  touchVictim evicted cache.B
  let pt := if evicted.valid && evicted.dirty then writeBack pt evicted cache.B else pt
  pure { m with
    ptable := pt
    cache := some cache'
    counters := counters
    inflight := false
    undefined := m.undefined || fill.overruns cache.B }

/-- `cacheByte`. -/
def cacheByteTraced (m : Mem) (cache : Cache) (current_address : BitVec 64)
    (fill : BlockFill) (operation : Operation) :
    Traced Crash BufferAccess (Bool × Mem) := do
  let (hit, cache, counters) ← .lift (checkHit cache m.counters current_address operation)
  let m := { m with cache := some cache, counters := counters }
  if hit then pure (true, m)
  else
    let block_address := cache.blockAddress current_address
    let m := armInflight m block_address cache.d
    let m := { m with inflight_cycles := m.inflight_cycles - 1 }
    if m.inflight_cycles > 0 then pure (false, { m with dmem_status := .inFlight })
    else
      let m ← installBlockTraced m cache block_address fill operation
      pure (true, m)

/-- `cacheLoop`. -/
def cacheLoopTraced (fill : Cache → BitVec 64 → BlockFill) (operation : Operation) :
    ℕ → BitVec 64 → Mem → Traced Crash BufferAccess (Bool × Mem)
  | 0, _, m => pure (true, m)
  | remaining + 1, current_address, m =>
      match m.cache with
      | none => .lift (.error .nullDeref)
      | some cache => do
          let (continue_, m) ← cacheByteTraced m cache current_address
            (fill cache current_address) operation
          if continue_ then
            cacheLoopTraced fill operation remaining (current_address + 1) m
          else pure (false, m)

/-- `_mem_read_cache`. -/
def memReadCacheTraced (m : Mem) (addr : BitVec 64) (width : ℕ) :
    Traced Crash BufferAccess (Mem × BitVec 64) := do
  let (done, m) ← cacheLoopTraced (readFill addr) .read width addr m
  if done then
    match m.cache with
    | none => .lift (.error .nullDeref)
    | some cache => do
        let data ← getWordCacheTraced cache addr
        pure ({ m with dmem_status := .ready }, data)
  else pure (m, 0)

/-- `_mem_write_cache`. -/
def memWriteCacheTraced (m : Mem) (addr data : BitVec 64) (width : ℕ) :
    Traced Crash BufferAccess Mem := do
  let (done, m) ← cacheLoopTraced writeFill .write width addr m
  if done then
    match m.cache with
    | none => .lift (.error .nullDeref)
    | some cache => do
        let cache ← setWordCacheTraced cache addr data
        pure { m with cache := some cache, dmem_status := .ready }
  else pure m

/-! ## Erasure -/

@[simp] theorem result_touch (buffer : ℕ → BufferAccess) (offset n : ℕ) :
    (touchBytes buffer offset n).result = .ok () := rfl

@[simp] theorem result_handleMissTraced (cache : Cache) (n : Counters) (addr : BitVec 64)
    (operation : Operation) (incoming_data : ℕ → BitVec 8) :
    (handleMissTraced cache n addr operation incoming_data).result =
      handleMiss cache n addr operation incoming_data := by
  simp only [handleMissTraced, Traced.result_bind, result_touch, Traced.result_lift]
  rfl

@[simp] theorem result_getWordCacheTraced (cache : Cache) (addr : BitVec 64) :
    (getWordCacheTraced cache addr).result = getWordCache cache addr := by
  simp only [getWordCacheTraced, Traced.result_bind, Traced.result_lift]
  cases getWordCache cache addr <;> rfl

@[simp] theorem result_setWordCacheTraced (cache : Cache) (addr val : BitVec 64) :
    (setWordCacheTraced cache addr val).result = setWordCache cache addr val := by
  simp only [setWordCacheTraced, Traced.result_bind, Traced.result_lift]
  cases setWordCache cache addr val <;> rfl

@[simp] theorem result_touchWord (word : Option ℕ) : (touchWord word).result = .ok () := by
  cases word <;> rfl

@[simp] theorem result_touchVictim (evicted : EvictedLine) (B : ℕ) :
    (touchVictim evicted B).result = .ok () := by
  unfold touchVictim
  split <;> rfl

theorem result_installBlockTraced (m : Mem) (cache : Cache) (block_address : BitVec 64)
    (fill : BlockFill) (operation : Operation) :
    (installBlockTraced m cache block_address fill operation).result =
      installBlock m cache block_address fill operation := by
  unfold installBlockTraced installBlock
  simp only [Traced.result_bind, result_touch, result_handleMissTraced, result_touchWord,
    result_touchVictim]
  rfl

theorem result_cacheByteTraced (m : Mem) (cache : Cache) (current_address : BitVec 64)
    (fill : BlockFill) (operation : Operation) :
    (cacheByteTraced m cache current_address fill operation).result =
      cacheByte m cache current_address fill operation := by
  unfold cacheByteTraced cacheByte
  rw [Traced.result_bind, Traced.result_lift]
  congr 1
  funext r
  obtain ⟨hit, cache, counters⟩ := r
  cases hit with
  | true => rfl
  | false =>
    simp only [Bool.false_eq_true, ↓reduceIte]
    split
    · rfl
    · rw [Traced.result_bind, result_installBlockTraced]
      rfl

theorem result_cacheLoopTraced (fill : Cache → BitVec 64 → BlockFill) (operation : Operation)
    (n : ℕ) (current_address : BitVec 64) (m : Mem) :
    (cacheLoopTraced fill operation n current_address m).result =
      cacheLoop fill operation n current_address m := by
  induction n generalizing current_address m with
  | zero => rfl
  | succ n ih =>
    rw [cacheLoopTraced, cacheLoop]
    cases m.cache with
    | none => rfl
    | some cache =>
      simp only [Traced.result_bind, result_cacheByteTraced]
      congr 1
      funext r
      obtain ⟨continue_, m⟩ := r
      cases continue_ with
      | true => exact ih (current_address + 1) m
      | false => rfl

theorem result_memReadCacheTraced (m : Mem) (addr : BitVec 64) (width : ℕ) :
    (memReadCacheTraced m addr width).result = memReadCache m addr width := by
  unfold memReadCacheTraced memReadCache
  rw [Traced.result_bind, result_cacheLoopTraced]
  congr 1
  funext r
  obtain ⟨done, m⟩ := r
  cases done with
  | false => rfl
  | true =>
    cases hcache : m.cache with
    | none => simp only [hcache, ↓reduceIte, Traced.result_lift]
    | some cache =>
      simp only [hcache, ↓reduceIte, Traced.result_bind, result_getWordCacheTraced]
      rfl

theorem result_memWriteCacheTraced (m : Mem) (addr data : BitVec 64) (width : ℕ) :
    (memWriteCacheTraced m addr data width).result = memWriteCache m addr data width := by
  unfold memWriteCacheTraced memWriteCache
  rw [Traced.result_bind, result_cacheLoopTraced]
  congr 1
  funext r
  obtain ⟨done, m⟩ := r
  cases done with
  | false => rfl
  | true =>
    cases hcache : m.cache with
    | none => simp only [hcache, ↓reduceIte, Traced.result_lift]
    | some cache =>
      simp only [hcache, ↓reduceIte, Traced.result_bind, result_setWordCacheTraced]
      rfl

/-! ## Indices -/

/-- The index is one of a buffer of `B` bytes. -/
def BufferAccess.Inside (B : ℕ) (access : BufferAccess) : Prop := access.index < B

theorem all_touch {P : BufferAccess → Prop} (buffer : ℕ → BufferAccess) (offset n : ℕ) :
    (touchBytes buffer offset n).All P ↔ ∀ k < n, P (buffer (offset + k)) := by
  unfold touchBytes
  simp only [Traced.all_emit, List.forall_mem_map, List.mem_range]

/-- A whole buffer is touched inside its bounds. -/
theorem touch_inside (buffer : ℕ → BufferAccess) (hindex : ∀ i, (buffer i).index = i) (B : ℕ) :
    (touchBytes buffer 0 B).All (BufferAccess.Inside B) := by
  rw [all_touch]
  intro k hk
  rw [BufferAccess.Inside, hindex, Nat.zero_add]
  exact hk

theorem touch_word (buffer : ℕ → BufferAccess) (hindex : ∀ i, (buffer i).index = i)
    (B offset : ℕ) : (touchBytes buffer offset 8).All (BufferAccess.Inside B) ↔ offset + 8 ≤ B := by
  rw [all_touch]
  constructor
  · intro h
    have hlast := h 7 (by decide)
    rw [BufferAccess.Inside, hindex] at hlast
    exact hlast
  · intro h k hk
    rw [BufferAccess.Inside, hindex]
    omega

theorem touchWord_inside (word : Option ℕ) (B : ℕ) :
    (touchWord word).All (BufferAccess.Inside B) ↔ ∀ i, word = some i → 8 * i + 8 ≤ B := by
  cases word with
  | none => exact ⟨fun _ _ h ↦ (nomatch h), fun _ ↦ Traced.all_pure ()⟩
  | some i =>
    simp only [touchWord, Option.some.injEq, forall_eq']
    exact touch_word .block (fun _ ↦ rfl) B (8 * i)

theorem touchVictim_inside (evicted : EvictedLine) (B : ℕ) :
    (touchVictim evicted B).All (BufferAccess.Inside B) := by
  unfold touchVictim
  split
  · exact touch_inside .evictedData (fun _ ↦ rfl) B
  · exact Traced.all_pure ()

theorem handleMissTraced_inside (cache : Cache) (n : Counters) (addr : BitVec 64)
    (operation : Operation) (incoming_data : ℕ → BitVec 8) :
    (handleMissTraced cache n addr operation incoming_data).All (BufferAccess.Inside cache.B) := by
  have hline := touch_inside .lineData (fun _ ↦ rfl) cache.B
  have hevicted := touch_inside .evictedData (fun _ ↦ rfl) cache.B
  have hblock := touch_inside .block (fun _ ↦ rfl) cache.B
  simp only [handleMissTraced, Traced.all_bind, Traced.all_lift, hline, hevicted, hblock,
    implies_true, and_self]

/-- A miss that completes is inside the buffers, the word that a read takes from `block` apart. -/
theorem installBlockTraced_inside {cache : Cache} (hA : cache.A ≤ 8) (m : Mem)
    (block_address : BitVec 64) (fill : BlockFill) (operation : Operation) :
    (installBlockTraced m cache block_address fill operation).All
        (BufferAccess.Inside cache.B) ↔
      ∀ i, fill.word = some i → 8 * i + 8 ≤ cache.B := by
  have hblock := touch_inside .block (fun _ ↦ rfl) cache.B
  have hmiss := handleMiss_eq hA m.counters block_address operation
    (fillBlock fill.base cache.B cache.B m.ptable fun _ ↦ 0).2
  have hinside := handleMissTraced_inside cache m.counters block_address operation
    (fillBlock fill.base cache.B cache.B m.ptable fun _ ↦ 0).2
  unfold installBlockTraced
  simp only [Traced.all_bind, hblock, hinside, result_handleMissTraced, hmiss, result_touch,
    Except.ok.injEq, forall_eq', touchVictim_inside, touchWord_inside, Traced.all_pure,
    implies_true, forall_const, true_and, and_true]

/-- A byte that hits touches no buffer. -/
theorem cacheByteTraced_of_hit {P : BufferAccess → Prop} (m : Mem) {cache : Cache} {a : BitVec 64}
    (h : getLine cache a ≠ none) (fill : BlockFill) (operation : Operation) :
    (cacheByteTraced m cache a fill operation).All P := by
  obtain ⟨i, hline⟩ := Option.ne_none_iff_exists'.mp h
  unfold cacheByteTraced
  rw [Traced.all_bind, Traced.result_lift]
  refine ⟨Traced.all_lift _, fun r hr ↦ ?_⟩
  have hhit : r.1 = true := by
    unfold checkHit at hr
    rw [hline] at hr
    obtain ⟨_, -, hpure⟩ := Result.bind_eq_ok.mp hr
    exact (congrArg Prod.fst (Except.ok.inj hpure)).symm
  simp only [hhit, ↓reduceIte]
  exact Traced.all_pure _

section

variable {b s d : ℕ} {m : Mem} {cache : Cache} (hm : m.Cached b s d cache)
include hm

theorem cacheByteTraced_inside (a : BitVec 64) (fill : BlockFill) (operation : Operation) :
    (cacheByteTraced m cache a fill operation).All (BufferAccess.Inside cache.B) ↔
      (m.hits a = false → m.attemptsLeft (cache.blockAddress a) d = 0 →
        ∀ i, fill.word = some i → 8 * i + 8 ≤ cache.B) := by
  cases hhit : m.hits a with
  | true =>
    have hline : getLine cache a ≠ none := by
      intro hnone
      rw [hm.hits_eq, hnone] at hhit
      cases hhit
    exact ⟨fun _ h ↦ (nomatch h), fun _ ↦ cacheByteTraced_of_hit m hline fill operation⟩
  | false =>
    obtain ⟨m₁, hm₁⟩ : ∃ m₁, m₁ = m.withCache cache
      { m.counters with miss_count := m.counters.miss_count + 1 } := ⟨_, rfl⟩
    have hleft : m₁.attemptsLeft (cache.blockAddress a) d =
        m.attemptsLeft (cache.blockAddress a) d := by
      rw [hm₁]
      apply Mem.attemptsLeft_congr <;> rfl
    have hunfold : (cacheByteTraced m cache a fill operation).All
          (BufferAccess.Inside cache.B) ↔
        (if (m₁.countDown (cache.blockAddress a) d).inflight_cycles > 0 then
          pure (false, { m₁.countDown (cache.blockAddress a) d with dmem_status := .inFlight })
        else do
          let m ← installBlockTraced (m₁.countDown (cache.blockAddress a) d) cache
            (cache.blockAddress a) fill operation
          pure (true, m)).All (BufferAccess.Inside cache.B) := by
      unfold cacheByteTraced
      rw [checkHit_of_none (hm.getLine_of_miss hhit), hm₁, ← hm.d_eq]
      simp only [Traced.all_bind, Traced.all_lift, Traced.result_lift, Except.ok.injEq, forall_eq',
        true_and]
      rfl
    rw [hunfold, ← hleft]
    by_cases hwait : (m₁.countDown (cache.blockAddress a) d).inflight_cycles > 0
    · have hpos : m₁.attemptsLeft (cache.blockAddress a) d ≠ 0 := by
        rw [gt_iff_lt, BitVec.lt_def] at hwait
        exact Nat.pos_iff_ne_zero.mp hwait
      rw [if_pos hwait]
      exact ⟨fun _ _ hzero ↦ absurd hzero hpos, fun _ ↦ Traced.all_pure _⟩
    · have hzero : m₁.attemptsLeft (cache.blockAddress a) d = 0 := by
        rw [gt_iff_lt, BitVec.lt_def] at hwait
        exact Nat.eq_zero_of_not_pos hwait
      rw [if_neg hwait]
      simp only [Traced.all_bind, installBlockTraced_inside hm.lruSafe.A_le, Traced.all_pure,
        implies_true, and_true, hzero, forall_const]

end

/-- The loop is inside the buffers when each of its iterations is. -/
theorem cacheLoopTraced_all {P : BufferAccess → Prop}
    (fill : Cache → BitVec 64 → BlockFill) (operation : Operation)
    (n : ℕ) (current_address : BitVec 64) (m : Mem) :
    (cacheLoopTraced fill operation n current_address m).All P ↔
      EachByte (fun m cache a ↦ (cacheByteTraced m cache a (fill cache a) operation).All P)
        fill operation n current_address m := by
  induction n generalizing current_address m with
  | zero => exact ⟨fun _ ↦ trivial, fun _ ↦ Traced.all_pure _⟩
  | succ n ih =>
    rw [cacheLoopTraced, EachByte]
    cases m.cache with
    | none => exact ⟨fun _ _ h ↦ (nomatch h), fun _ ↦ Traced.all_lift _⟩
    | some cache =>
      simp only [Option.some.injEq, forall_eq', Traced.all_bind, result_cacheByteTraced,
        Prod.forall, Bool.forall_bool, Bool.false_eq_true, ↓reduceIte, Traced.all_pure,
        implies_true, true_and, ih]

theorem getWordCacheTraced_inside {B : ℕ} {cache : Cache} {addr : BitVec 64}
    (h : cache.offset addr + 8 ≤ B) :
    (getWordCacheTraced cache addr).All (BufferAccess.Inside B) := by
  have hline := (touch_word .lineData (fun _ ↦ rfl) B _).mpr h
  simp only [getWordCacheTraced, Traced.all_bind, Traced.all_lift, Traced.all_pure, hline,
    implies_true, and_self]

theorem setWordCacheTraced_inside {B : ℕ} {cache : Cache} {addr : BitVec 64} (val : BitVec 64)
    (h : cache.offset addr + 8 ≤ B) :
    (setWordCacheTraced cache addr val).All (BufferAccess.Inside B) := by
  have hline := (touch_word .lineData (fun _ ↦ rfl) B _).mpr h
  simp only [setWordCacheTraced, Traced.all_bind, Traced.all_lift, Traced.all_pure, hline,
    implies_true, and_self]

/-! ## Accesses -/

namespace DataOp

/-- The access as `_mem_read_cache` or `_mem_write_cache` makes it; a write yields zero. -/
def cachedCall : DataOp → Mem → Traced Crash BufferAccess (Mem × BitVec 64)
  | read addr, m => memReadCacheTraced m addr 8
  | write addr val, m => do
      let m ← memWriteCacheTraced m addr val 8
      pure (m, 0)

/-- The bytes that the access touches are inside the buffers of `B` bytes, and no line that is
dereferenced is `NULL`. -/
structure InBounds (op : DataOp) (B : ℕ) (m : Mem) : Prop where
  inside : (op.cachedCall m).All (BufferAccess.Inside B)
  line_ne_null : (op.cachedCall m).result ≠ .error .nullDeref

/-- The access is a read that completes a miss, and the word it takes from `block` does not lie
inside. -/
def Overruns (op : DataOp) (m : Mem) (cache : Cache) : Prop :=
  op.operation = .read ∧ m.hits op.addr = false ∧
    m.attemptsLeft (cache.blockAddress op.addr) cache.d = 0 ∧
    cache.B < 8 * cache.offset op.addr + 8

end DataOp

section

variable {b s d : ℕ} {m : Mem} {cache : Cache} (hm : m.Cached b s d cache)
include hm

/-- In data memory the data port makes this access. -/
theorem DataOp.cachedCall_result {op : DataOp} (haddr : DataAddr m op.addr)
    (hnull : op.addr ≠ NULL_ADDR) : (op.cachedCall m).result = op.call m := by
  cases op with
  | read addr =>
    exact (result_memReadCacheTraced m addr 8).trans (haddr.memReadL_eq hnull hm.cache_eq).symm
  | write addr val =>
    have hwrite : memWriteL m addr val = memWriteCache m addr val 8 :=
      haddr.memWriteL_eq hnull hm.cache_eq val
    rw [DataOp.cachedCall, Traced.result_bind, result_memWriteCacheTraced, DataOp.call, hwrite]
    exact (Result.map_eq_bind _ _).symm

/-- The byte loop ends in flight, or with the block of the access resident; only its first
iteration can miss. -/
theorem cacheLoop_outcome {addr : BitVec 64}
    (hbytes : ∀ i < 8, SameBlock b (addr + BitVec.ofNat 64 i) addr)
    (fill : Cache → BitVec 64 → BlockFill) (operation : Operation)
    {P : Mem → Cache → BitVec 64 → Prop} (hP : ∀ m cache a, getLine cache a ≠ none → P m cache a) :
    ∃ done m₁, cacheLoop fill operation 8 addr m = .ok (done, m₁) ∧
      (done = true → ∃ cache₁, m₁.Cached b s d cache₁ ∧ m₁.hits addr = true) ∧
      (EachByte P fill operation 8 addr m ↔ P m cache addr) := by
  cases hhit : m.hits addr with
  | true =>
    have hline : getLine cache addr ≠ none := by
      intro hnone
      rw [hm.hits_eq, hnone] at hhit
      cases hhit
    obtain ⟨m₁, hloop, hstep, -, -, heach⟩ :=
      cacheLoop_hitStep hm fill operation hP 8 addr hhit hbytes
    obtain ⟨cache₁, hm₁⟩ := hstep.cached
    exact ⟨true, m₁, hloop, fun _ ↦ ⟨cache₁, hm₁, (hstep.hits addr).trans hhit⟩,
      fun _ ↦ hP m cache addr hline, fun _ ↦ heach⟩
  | false =>
    rcases Nat.eq_zero_or_pos (m.attemptsLeft (cache.blockAddress addr) d) with hzero | hpos
    · obtain ⟨m₁, hloop, hstep, -, -, heach⟩ :=
        cacheLoop_fillStep hm fill operation hP 7 hhit hzero hbytes
      obtain ⟨cache₁, hm₁⟩ := hstep.cached
      exact ⟨true, m₁, hloop, fun _ ↦ ⟨cache₁, hm₁, hstep.hits⟩, heach⟩
    · obtain ⟨m₁, hloop, -, -, -, heach⟩ := cacheLoop_waitStep hm fill operation 7 hhit hpos
      exact ⟨false, m₁, hloop, fun h ↦ (nomatch h), heach⟩

omit hm in
/-- The word of the access is inside the lines of every later cache. -/
theorem InBlock.offset_add_le {addr : BitVec 64} (hblock : InBlock b addr)
    (hm : m.Cached b s d cache) {m₁ : Mem} {cache₁ : Cache} (hm₁ : m₁.Cached b s d cache₁) :
    cache₁.offset addr + 8 ≤ cache.B := by
  rw [hm₁.valid.offset_eq, hm.valid.B_eq]
  exact hblock

variable {addr : BitVec 64} (hblock : InBlock b addr)
include hblock

theorem memReadCacheTraced_inBounds :
    ((memReadCacheTraced m addr 8).All (BufferAccess.Inside cache.B) ↔
      ¬(DataOp.read addr).Overruns m cache) ∧
      (memReadCacheTraced m addr 8).result ≠ .error .nullDeref := by
  obtain ⟨done, m₁, hloop, hdone, heach⟩ := cacheLoop_outcome hm
    (fun _ hi ↦ hblock.sameBlock hm.valid hi) (readFill addr) .read
    (P := fun m' cache' a ↦ (cacheByteTraced m' cache' a (readFill addr cache' a) .read).All
      (BufferAccess.Inside cache.B))
    fun m' _ _ h ↦ cacheByteTraced_of_hit m' h _ _
  constructor
  · unfold memReadCacheTraced
    rw [Traced.all_bind, result_cacheLoopTraced, cacheLoopTraced_all, hloop]
    refine (and_iff_left fun r hr ↦ ?_).trans
      (heach.trans ((cacheByteTraced_inside hm _ _ _).trans ?_))
    · obtain rfl := Except.ok.inj hr
      cases done with
      | false => exact Traced.all_pure _
      | true =>
        obtain ⟨cache₁, hm₁, -⟩ := hdone rfl
        simp only [↓reduceIte, hm₁.cache_eq, Traced.all_bind, Traced.all_pure,
          getWordCacheTraced_inside (hblock.offset_add_le hm hm₁), implies_true, and_self]
    · unfold DataOp.Overruns
      rw [hm.d_eq]
      simp only [readFill, DataOp.operation, DataOp.addr, Option.some.injEq, forall_eq', true_and,
        not_and, Nat.not_lt]
  · rw [result_memReadCacheTraced]
    unfold memReadCache
    rw [hloop]
    cases done with
    | false =>
      intro h
      cases h
    | true =>
      obtain ⟨cache₁, hm₁, hhit⟩ := hdone rfl
      rw [hm₁.hits_eq] at hhit
      obtain ⟨i, hline⟩ := Option.isSome_iff_exists.mp hhit
      simp only [bind, Except.bind, ↓reduceIte, hm₁.cache_eq, getWordCache, hline]
      intro h
      cases h

theorem memWriteCacheTraced_inBounds (val : BitVec 64) :
    (memWriteCacheTraced m addr val 8).All (BufferAccess.Inside cache.B) ∧
      (memWriteCacheTraced m addr val 8).result ≠ .error .nullDeref := by
  obtain ⟨done, m₁, hloop, hdone, heach⟩ := cacheLoop_outcome hm
    (fun _ hi ↦ hblock.sameBlock hm.valid hi) writeFill
    .write (P := fun m' cache' a ↦ (cacheByteTraced m' cache' a (writeFill cache' a) .write).All
      (BufferAccess.Inside cache.B))
    fun m' _ _ h ↦ cacheByteTraced_of_hit m' h _ _
  constructor
  · unfold memWriteCacheTraced
    rw [Traced.all_bind, result_cacheLoopTraced, cacheLoopTraced_all, hloop]
    refine ⟨heach.mpr ((cacheByteTraced_inside hm _ _ _).mpr fun _ _ _ h ↦ (nomatch h)),
      fun r hr ↦ ?_⟩
    obtain rfl := Except.ok.inj hr
    cases done with
    | false => exact Traced.all_pure _
    | true =>
      obtain ⟨cache₁, hm₁, -⟩ := hdone rfl
      simp only [↓reduceIte, hm₁.cache_eq, Traced.all_bind, Traced.all_pure,
        setWordCacheTraced_inside val (hblock.offset_add_le hm hm₁), implies_true, and_self]
  · rw [result_memWriteCacheTraced]
    unfold memWriteCache
    rw [hloop]
    cases done with
    | false =>
      intro h
      cases h
    | true =>
      obtain ⟨cache₁, hm₁, hhit⟩ := hdone rfl
      rw [hm₁.hits_eq] at hhit
      obtain ⟨i, hline⟩ := Option.isSome_iff_exists.mp hhit
      simp only [bind, Except.bind, ↓reduceIte, hm₁.cache_eq, setWordCache, hline]
      intro h
      cases h

end

/-- One attempt of an aligned access, from any state of the cache and of the timer. -/
theorem inBounds_iff_of_cached {b s d : ℕ} {m : Mem} {cache : Cache} (hm : m.Cached b s d cache)
    (op : DataOp) (haligned : op.addr.toNat % 8 = 0) :
    op.InBounds cache.B m ↔ ¬op.Overruns m cache := by
  cases op with
  | read addr =>
    have hblock : InBlock b addr := inBlock_of_aligned hm.valid.b_ge haligned
    obtain ⟨hinside, hline⟩ := memReadCacheTraced_inBounds hm hblock
    exact ⟨fun h ↦ hinside.mp h.inside, fun h ↦ ⟨hinside.mpr h, hline⟩⟩
  | write addr val =>
    have hblock : InBlock b addr := inBlock_of_aligned hm.valid.b_ge haligned
    obtain ⟨hinside, hline⟩ := memWriteCacheTraced_inBounds hm hblock val
    refine ⟨fun _ h ↦ Operation.noConfusion h.1, fun _ ↦ ⟨?_, ?_⟩⟩
    · exact (Traced.all_bind _ _).mpr ⟨hinside, fun _ _ ↦ Traced.all_pure _⟩
    · rw [DataOp.cachedCall, Traced.result_bind]
      intro hcontra
      cases hresult : (memWriteCacheTraced m addr val 8).result with
      | ok m' =>
        rw [hresult] at hcontra
        cases hcontra
      | error e =>
        rw [hresult] at hcontra hline
        exact hline (congrArg Except.error (Except.error.inj hcontra))

/-- In every state that the calls of a cache can reach, an aligned access touches its buffers inside
their bounds exactly when it is no read that completes a miss behind the first bytes of a block. -/
theorem inBounds_iff (config : CacheConfig) {cache : Cache}
    (hcalls : ReflTransGen CacheCall config.cache cache) {m : Mem} (hcache : m.cache = some cache)
    (op : DataOp) (haligned : op.addr.toNat % 8 = 0) :
    op.InBounds config.B m ↔ ¬op.Overruns m cache := by
  have hm := Mem.cached_of_calls hcalls hcache
  have hB : cache.B = config.B := congrArg (fun g ↦ g.2.1) (geometry_of_calls hcalls)
  rw [← hB]
  exact inBounds_iff_of_cached hm op haligned

/-- A write that misses behind the first word of a block. -/
theorem inBounds_iff_write : (DataOp.write 0x800008 1).InBounds 16
    ((initMem none fun _ ↦ 0).withEmptyCache 1 16 16 1) := by
  have hvalid : (createCache 1 16 16 1).Valid 4 0 :=
    ⟨by decide, by decide, rfl, by decide, rfl, by decide⟩
  exact (inBounds_iff ⟨1, 16, 16, 1, 4, 0, hvalid, by decide⟩ .refl rfl _ (by decide)).mpr
    fun h ↦ Operation.noConfusion h.1

/-- A read that misses behind the first word of a block takes bytes 64 to 71 of 16. -/
theorem not_inBounds_read : ¬∀ (config : CacheConfig) (m : Mem) (op : DataOp),
    m.cache = some config.cache → m.inflight = false → DataAddr m op.addr →
      op.InBounds config.B m := by
  intro hclaim
  have hvalid : (createCache 1 16 16 1).Valid 4 0 :=
    ⟨by decide, by decide, rfl, by decide, rfl, by decide⟩
  have haddr : DataAddr ((initMem none fun _ ↦ 0).withEmptyCache 1 16 16 1)
      (DataOp.read 0x800008).addr := by decide
  have hbounds : (DataOp.read 0x800008).InBounds 16
      ((initMem none fun _ ↦ 0).withEmptyCache 1 16 16 1) :=
    hclaim ⟨1, 16, 16, 1, 4, 0, hvalid, by decide⟩ _ _ rfl rfl haddr
  have hlruSafe : (createCache 1 16 16 1).LruSafe :=
    ⟨by decide, by decide, fun _ ↦ .inr fun _ ↦ rfl⟩
  have hm : ((initMem none fun _ ↦ 0).withEmptyCache 1 16 16 1).Cached 4 0 1
      (createCache 1 16 16 1) := ⟨rfl, hvalid, hlruSafe, rfl⟩
  exact (inBounds_iff_of_cached hm (.read 0x800008) haddr.aligned).mp hbounds
    ⟨rfl, by decide, by decide, by decide⟩

end SystemEmulator
