import SystemEmulator.Memory.FlatMemory
import SystemEmulator.Replacement.LruCalls

/-!
# The delay of a miss

A word access that hits is served at its first attempt.  One that misses arms `inflight_cycles` with
the delay `d` and is served at attempt `d`, when `d` is at least one; at `d = 0` the first decrement
wraps.
-/

namespace SystemEmulator

open Relation

/-! ## Attempts -/

/-- `P` holds in every iteration of the byte loop of an attempt. -/
def EachByte (P : Mem → Cache → BitVec 64 → Prop) (fill : Cache → BitVec 64 → BlockFill)
    (operation : Operation) : ℕ → BitVec 64 → Mem → Prop
  | 0, _, _ => True
  | remaining + 1, current_address, m =>
      ∀ cache, m.cache = some cache → P m cache current_address ∧
        ∀ m', cacheByte m cache current_address (fill cache current_address) operation =
            .ok (true, m') →
          EachByte P fill operation remaining (current_address + 1) m'

/-- The decrement of `inflight_cycles` in an iteration, if there is one, does not wrap. -/
def CountsDown (m : Mem) (cache : Cache) (current_address : BitVec 64) : Prop :=
  getLine cache current_address = none →
    (armInflight m (cache.blockAddress current_address) cache.d).inflight_cycles ≠ 0

namespace DataOp

/-- The operation with which the byte loop of an attempt calls `check_hit`. -/
def operation : DataOp → Operation
  | read _ => .read
  | write _ _ => .write

/-- How the byte loop of an attempt fills a missing block. -/
def fill : DataOp → Cache → BitVec 64 → BlockFill
  | read addr => readFill addr
  | write _ _ => writeFill

/-- No iteration of an attempt decrements `inflight_cycles` below zero. -/
def CountsDown (op : DataOp) (m : Mem) : Prop :=
  EachByte SystemEmulator.CountsDown op.fill op.operation 8 op.addr m

/-- The access is in flight at exactly `n` attempts and ready at the next one, and no attempt
decrements `inflight_cycles` below zero. -/
inductive Attempts (op : DataOp) : ℕ → Mem → Mem → Prop
  | ready {m m' : Mem} {value : BitVec 64} (call : op.call m = .ok (m', value))
      (ready : m'.dmem_status = .ready) (counts : op.CountsDown m) : Attempts op 0 m m'
  | inFlight {n : ℕ} {m m₁ m' : Mem} {value : BitVec 64} (call : op.call m = .ok (m₁, value))
      (inFlight : m₁.dmem_status = .inFlight) (counts : op.CountsDown m)
      (rest : Attempts op n m₁ m') : Attempts op (n + 1) m m'

end DataOp

def Mem.hits (m : Mem) (addr : BitVec 64) : Bool :=
  m.cache.elim false fun cache ↦ (getLine cache addr).isSome

/-- The attempts in flight that a miss delay of `d` promises. -/
def DataOp.delay (op : DataOp) (d : ℕ) (m : Mem) : ℕ := if m.hits op.addr then 0 else max d 1 - 1

/-- The accesses in order, each of them repeated until it is ready, take the promised delay, and
they execute nothing undefined. -/
def MissDelay (d : ℕ) : List DataOp → Mem → Prop
  | [], _ => True
  | op :: ops, m =>
      ∃ m', op.Attempts (op.delay d m) m m' ∧ m'.undefined = false ∧ MissDelay d ops m'

/-- When the access is a read that misses, the word that it takes from `block` lies inside. -/
def DataOp.ReadsInside (op : DataOp) (m : Mem) : Prop :=
  ∀ cache, m.cache = some cache → op.operation = .read → m.hits op.addr = false →
    8 * cache.offset op.addr + 8 ≤ cache.B

instance (op : DataOp) (m : Mem) : Decidable (op.ReadsInside m) :=
  inferInstanceAs (Decidable (∀ cache ∈ m.cache, op.operation = .read → m.hits op.addr = false →
    8 * cache.offset op.addr + 8 ≤ cache.B))

/-- So it is for every access of a sequence, in the state that the accesses before it leave. -/
def ReadsInside : List DataOp → Mem → Prop
  | [], _ => True
  | op :: ops, m => op.ReadsInside m ∧
      ∀ m' value, settle op.call m = some (.ok (m', value)) → ReadsInside ops m'

/-! ## One byte -/

theorem countsDown_of_hit (m : Mem) (cache : Cache) (a : BitVec 64) (h : getLine cache a ≠ none) :
    CountsDown m cache a := fun hline ↦ absurd hline h

/-- The memory has a cache with delay `d`, in a state that calls can reach. -/
structure Mem.Cached (b s d : ℕ) (m : Mem) (cache : Cache) : Prop where
  cache_eq : m.cache = some cache
  valid : cache.Valid b s
  lruSafe : cache.LruSafe
  d_eq : cache.d = d

/-- An iteration that hits moves neither the blocks nor the timer. -/
structure Mem.HitStep (b s d : ℕ) (m m' : Mem) : Prop where
  cached : ∃ cache, m'.Cached b s d cache
  hits : ∀ a, m'.hits a = m.hits a
  inflight : m'.inflight = m.inflight
  seg_start_addr : m'.seg_start_addr = m.seg_start_addr
  undefined : m'.undefined = m.undefined

/-- An iteration that misses and waits arms the timer with the attempts that are left. -/
structure Mem.WaitStep (b s d : ℕ) (cache : Cache) (addr : BitVec 64) (left : ℕ) (m m' : Mem) :
    Prop where
  cached : m'.Cached b s d cache
  hits : ∀ a, m'.hits a = m.hits a
  inflight : m'.inflight = true
  inflight_addr : m'.inflight_addr = cache.blockAddress addr
  inflight_cycles : m'.inflight_cycles.toNat = left
  dmem_status : m'.dmem_status = .inFlight
  seg_start_addr : m'.seg_start_addr = m.seg_start_addr
  undefined : m'.undefined = m.undefined

/-- The end of the delay makes the block resident and the timer idle. -/
structure Mem.FillStep (b s d : ℕ) (addr : BitVec 64) (overruns : Bool) (m m' : Mem) : Prop where
  cached : ∃ cache, m'.Cached b s d cache
  hits : m'.hits addr = true
  inflight : m'.inflight = false
  seg_start_addr : m'.seg_start_addr = m.seg_start_addr
  undefined : m'.undefined = (m.undefined || overruns)

/-- The word at an address in the line that holds it. -/
def Mem.lineWord (m : Mem) (addr : BitVec 64) : Option (BitVec 64) :=
  m.cache.bind fun cache ↦ (getLine cache addr).map fun i ↦
    wordAt ((cache.getSet addr).lines i).data (cache.offset addr)

/-- The raw statistics between two memories. -/
structure Mem.Counts (misses hits : ℕ) (m m' : Mem) : Prop where
  miss_count : m'.counters.miss_count = m.counters.miss_count + misses
  hit_count : m'.counters.hit_count = m.counters.hit_count + hits

theorem Mem.Counts.refl (m : Mem) : m.Counts 0 0 m := ⟨rfl, rfl⟩

theorem Mem.Counts.trans {i j k l : ℕ} {m₁ m₂ m₃ : Mem} (h : m₁.Counts i j m₂)
    (h' : m₂.Counts k l m₃) : m₁.Counts (i + k) (j + l) m₃ :=
  ⟨by rw [h'.miss_count, h.miss_count, Nat.add_assoc],
    by rw [h'.hit_count, h.hit_count, Nat.add_assoc]⟩

theorem Mem.countDown_undefined (m : Mem) (block_address : BitVec 64) (d : ℕ) :
    (m.countDown block_address d).undefined = m.undefined := by
  unfold Mem.countDown armInflight
  split <;> rfl

theorem Mem.countDown_counters (m : Mem) (block_address : BitVec 64) (d : ℕ) :
    (m.countDown block_address d).counters = m.counters := by
  unfold Mem.countDown armInflight
  split <;> rfl

theorem countEviction_miss_count (n : Counters) (line : CacheLine) :
    (countEviction n line).miss_count = n.miss_count := by
  unfold countEviction
  split
  · rfl
  · split <;> rfl

theorem countEviction_hit_count (n : Counters) (line : CacheLine) :
    (countEviction n line).hit_count = n.hit_count := by
  unfold countEviction
  split
  · rfl
  · split <;> rfl

/-- Putting a line back with the data it had changes no data. -/
theorem data_putSet {cache : Cache} {addr : BitVec 64} {set : CacheSet} {i : ℕ} {line : CacheLine}
    (hlines : set.lines = Function.update (cache.getSet addr).lines i line)
    (hdata : line.data = ((cache.getSet addr).lines i).data) (a : BitVec 64) (j : ℕ) :
    (((cache.putSet addr set).getSet a).lines j).data = ((cache.getSet a).lines j).data := by
  by_cases hset : cache.setIndex a = cache.setIndex addr
  · rw [Cache.getSet_putSet_of_eq hset, hlines, Cache.getSet_of_eq hset]
    by_cases hji : j = i
    · rw [hji, Function.update_self, hdata]
    · rw [Function.update_of_ne hji]
  · rw [Cache.getSet_putSet_of_ne hset]

section

variable {b s d : ℕ} {m : Mem} {cache : Cache} (hm : m.Cached b s d cache)
include hm

theorem Mem.Cached.hits_eq (a : BitVec 64) : m.hits a = (getLine cache a).isSome := by
  unfold Mem.hits
  rw [hm.cache_eq]
  rfl

theorem Mem.Cached.lineWord_eq (a : BitVec 64) : m.lineWord a = (getLine cache a).map fun i ↦
    wordAt ((cache.getSet a).lines i).data (cache.offset a) := by
  unfold Mem.lineWord
  rw [hm.cache_eq, Option.bind_some]

theorem Mem.Cached.getLine_of_miss {addr : BitVec 64} (hmiss : m.hits addr = false) :
    getLine cache addr = none := by
  rw [hm.hits_eq] at hmiss
  exact Option.isNone_iff_eq_none.mp (Option.isSome_eq_false_iff.mp hmiss)

theorem Mem.Cached.hits_congr {a a' : BitVec 64} (h : SameBlock b a a') : m.hits a = m.hits a' := by
  rw [hm.hits_eq, hm.hits_eq, hm.valid.getLine_congr h]

/-- The cache of another memory after calls. -/
theorem Mem.Cached.of_calls {m' : Mem} {cache' : Cache}
    (hcalls : ReflTransGen CacheCall cache cache') (hm' : m'.cache = some cache') :
    m'.Cached b s d cache' := by
  have hgeometry := geometry_of_calls hcalls
  refine ⟨hm', hm.valid.of_geometry hgeometry, hm.lruSafe.calls hcalls, ?_⟩
  rw [← hm.d_eq]
  simpa [Cache.geometry] using congrArg (fun g ↦ g.2.2.2) hgeometry

omit hm in
/-- The cache of a configuration after any calls. -/
theorem Mem.cached_of_calls {config : CacheConfig}
    (hcalls : ReflTransGen CacheCall config.cache cache) (hcache : m.cache = some cache) :
    m.Cached config.b config.s config.d cache :=
  ⟨hcache, config.valid.of_geometry (geometry_of_calls hcalls), config.lruSafe.calls hcalls,
    congrArg (fun g ↦ g.2.2.2) (geometry_of_calls hcalls)⟩

theorem cacheByte_hitStep {addr : BitVec 64} (hhit : m.hits addr = true) (fill : BlockFill)
    (operation : Operation) :
    ∃ m', cacheByte m cache addr fill operation = .ok (true, m') ∧ m.HitStep b s d m' ∧
      m.Counts 0 1 m' ∧ ∀ a, m'.lineWord a = m.lineWord a := by
  rw [hm.hits_eq] at hhit
  obtain ⟨i, hline⟩ := Option.isSome_iff_exists.mp hhit
  have hcheck := checkHit_of_some hm.lruSafe.A_le hline m.counters operation
  have hlines := CacheSet.touchLine_lines (cache.getSet addr) cache.A i
    (((cache.getSet addr).lines i).access operation)
  have hgetLine := Cache.Inv.getLine_putSet hlines rfl rfl
  refine ⟨hitMem m cache addr i operation, ?_,
    ⟨⟨_, hm.of_calls (.single (.checkHit hcheck)) rfl⟩, fun a ↦ ?_, rfl, rfl, rfl⟩, ⟨rfl, rfl⟩,
    fun a ↦ ?_⟩
  · unfold cacheByte
    rw [hcheck]
    rfl
  · rw [hm.hits_eq]
    exact congrArg Option.isSome (hgetLine a)
  · have hdata := data_putSet hlines rfl a
    rw [hm.lineWord_eq]
    change (getLine (cache.putSet addr _) a).map _ = _
    rw [hgetLine]
    refine Option.map_congr fun j _ ↦ ?_
    change wordAt (((cache.putSet addr _).getSet a).lines j).data (cache.offset a) = _
    rw [hdata]

omit hm in
/-- The line that `handle_miss` fills. -/
theorem lines_missCache (addr : BitVec 64) (operation : Operation) (data : ℕ → BitVec 8) :
    ((missCache cache addr operation data).getSet addr).lines =
      Function.update (cache.getSet addr).lines (selectLine cache addr)
        (newLine cache addr operation data) := by
  have hset : (missCache cache addr operation data).getSet addr =
      (cache.getSet addr).touchLine cache.A (selectLine cache addr)
        (newLine cache addr operation data) := Cache.getSet_putSet_of_eq rfl _
  rw [hset, CacheSet.touchLine_lines]

/-- The block that `handle_miss` installs is found in this line. -/
theorem getLine_missCache {addr : BitVec 64} (hline : getLine cache addr = none)
    (operation : Operation) (data : ℕ → BitVec 8) :
    getLine (missCache cache addr operation data) addr = some (selectLine cache addr) := by
  have hlines := @lines_missCache cache addr operation data
  unfold getLine at hline ⊢
  rw [List.find?_range_eq_some]
  refine ⟨?_, List.mem_range.mpr (hm.lruSafe.selectLine_lt addr), fun j hj ↦ ?_⟩
  · rw [hlines, Function.update_self]
    exact beq_self_eq_true _
  · have hA : j < cache.A := hj.trans (hm.lruSafe.selectLine_lt addr)
    have hold := List.find?_eq_none.mp hline j (List.mem_range.mpr hA)
    rw [hlines, Function.update_of_ne (Nat.ne_of_lt hj)]
    exact (Bool.not_eq_true' _).mpr (Bool.eq_false_iff.mpr hold)

theorem cacheByte_waitStep {addr : BitVec 64} (hmiss : m.hits addr = false)
    (hleft : 0 < m.attemptsLeft (cache.blockAddress addr) d) (fill : BlockFill)
    (operation : Operation) :
    ∃ m', cacheByte m cache addr fill operation = .ok (false, m') ∧
      m.WaitStep b s d cache addr (m.attemptsLeft (cache.blockAddress addr) d) m' ∧
      m.Counts 1 0 m' ∧ m'.ptable = m.ptable := by
  have hline := hm.getLine_of_miss hmiss
  obtain ⟨m₁, hm₁⟩ : ∃ m₁, m₁ = m.withCache cache
    { m.counters with miss_count := m.counters.miss_count + 1 } := ⟨_, rfl⟩
  have hleft₁ : m₁.attemptsLeft (cache.blockAddress addr) d =
      m.attemptsLeft (cache.blockAddress addr) d := by
    rw [hm₁]
    apply Mem.attemptsLeft_congr <;> rfl
  have hwait : (m₁.countDown (cache.blockAddress addr) d).inflight_cycles > 0 := by
    rw [gt_iff_lt, BitVec.lt_def]
    exact lt_of_lt_of_eq hleft hleft₁.symm
  have hbyte : cacheByte m cache addr fill operation =
      .ok (false, { m₁.countDown (cache.blockAddress addr) d with dmem_status := .inFlight }) := by
    unfold cacheByte
    rw [checkHit_of_none hline, ← hm.d_eq, hm₁]
    rw [← hm.d_eq, hm₁] at hwait
    exact if_pos hwait
  have hidles := m₁.idles_countDown (cache.blockAddress addr) d
  have hcache : (m₁.countDown (cache.blockAddress addr) d).cache = some cache := by
    rw [hidles.cache, hm₁]
    rfl
  obtain ⟨hinflight, haddr⟩ := m₁.countDown_armed (cache.blockAddress addr) d
  have hcounters : (m₁.countDown (cache.blockAddress addr) d).counters =
      { m.counters with miss_count := m.counters.miss_count + 1 } := by
    rw [m₁.countDown_counters, hm₁]
    rfl
  refine ⟨_, hbyte, ⟨hm.of_calls .refl hcache, fun a ↦ ?_, hinflight, haddr, hleft₁, rfl, ?_, ?_⟩,
    ⟨(congrArg Counters.miss_count hcounters :), (congrArg Counters.hit_count hcounters :)⟩,
    hidles.ptable.trans (by rw [hm₁]; rfl)⟩
  · rw [hm.hits_eq]
    change Option.elim _ _ _ = _
    rw [hcache]
    rfl
  · rw [show m.seg_start_addr = m₁.seg_start_addr by rw [hm₁]; rfl, ← hidles.seg_start_addr]
  · exact (m₁.countDown_undefined _ _).trans (by rw [hm₁]; rfl)

theorem cacheByte_fillStep {addr : BitVec 64} (hmiss : m.hits addr = false)
    (hleft : m.attemptsLeft (cache.blockAddress addr) d = 0) (fill : BlockFill)
    (operation : Operation) :
    ∃ m', cacheByte m cache addr fill operation = .ok (true, m') ∧
      m.FillStep b s d addr (fill.overruns cache.B) m' ∧ m.Counts 1 0 m' ∧ m'.lineWord addr =
        some (wordAt (fillBlock fill.base cache.B cache.B m.ptable fun _ ↦ 0).2
          (cache.offset addr)) := by
  have hblock := hm.valid.sameBlock_blockAddress addr
  have hline := hm.getLine_of_miss hmiss
  obtain ⟨m₁, hm₁⟩ : ∃ m₁, m₁ = m.withCache cache
    { m.counters with miss_count := m.counters.miss_count + 1 } := ⟨_, rfl⟩
  have hleft₁ : m₁.attemptsLeft (cache.blockAddress addr) d = 0 := by
    rw [← hleft, hm₁]
    apply Mem.attemptsLeft_congr <;> rfl
  have hdone : ¬(m₁.countDown (cache.blockAddress addr) d).inflight_cycles > 0 := by
    rw [gt_iff_lt, BitVec.lt_def]
    exact Nat.not_lt.mpr (Nat.le_of_eq hleft₁)
  obtain ⟨m₂, hm₂⟩ : ∃ m₂, m₂ = m₁.countDown (cache.blockAddress addr) d := ⟨_, rfl⟩
  have hbyte : cacheByte m cache addr fill operation =
      (installBlock m₂ cache (cache.blockAddress addr) fill operation).map
        fun m ↦ (true, m) := by
    unfold cacheByte
    rw [checkHit_of_none hline, hm₂, ← hm.d_eq, hm₁]
    rw [← hm.d_eq, hm₁] at hdone
    exact if_neg hdone
  have hmissEq := handleMiss_eq hm.lruSafe.A_le m₂.counters (cache.blockAddress addr) operation
    (fillBlock fill.base cache.B cache.B m₂.ptable fun _ ↦ 0).2
  rw [hbyte]
  unfold installBlock
  simp only [hmissEq]
  have hcounters : m₂.counters =
      { m.counters with miss_count := m.counters.miss_count + 1 } := by
    rw [hm₂, m₁.countDown_counters, hm₁]
    rfl
  have hline' : getLine cache (cache.blockAddress addr) = none := by
    rw [hm.valid.getLine_congr hblock, hline]
  have hfound := getLine_missCache hm hline' operation
    (fillBlock fill.base cache.B cache.B m₂.ptable fun _ ↦ 0).2
  have hcached : ∀ {m' : Mem}, m'.cache = some (missCache cache (cache.blockAddress addr) operation
      (fillBlock fill.base cache.B cache.B m₂.ptable fun _ ↦ 0).2) →
      m'.Cached b s d (missCache cache (cache.blockAddress addr) operation
        (fillBlock fill.base cache.B cache.B m₂.ptable fun _ ↦ 0).2) :=
    fun h ↦ hm.of_calls (.single (.handleMiss hmissEq)) h
  refine ⟨_, rfl, ⟨⟨_, hcached rfl⟩, ?_, rfl, ?_, ?_⟩,
    ⟨(countEviction_miss_count _ _).trans (congrArg Counters.miss_count hcounters),
      (countEviction_hit_count _ _).trans (congrArg Counters.hit_count hcounters :)⟩, ?_⟩
  · rw [← (hcached rfl).hits_congr hblock, (hcached rfl).hits_eq, hfound]
    rfl
  · rw [show m.seg_start_addr = m₁.seg_start_addr by rw [hm₁]; rfl,
      ← (m₁.idles_countDown (cache.blockAddress addr) d).seg_start_addr, hm₂]
  · change (m₂.undefined || _) = _
    rw [hm₂, m₁.countDown_undefined, hm₁]
    rfl
  · have hptable : m₂.ptable = m.ptable := by
      rw [hm₂, (m₁.idles_countDown (cache.blockAddress addr) d).ptable, hm₁]
      rfl
    have hvalid := hm.valid.of_geometry (geometry_of_calls (.single (.handleMiss hmissEq)))
    rw [(hcached rfl).lineWord_eq, ← hvalid.getLine_congr hblock, hfound, Option.map_some,
      ← hvalid.getSet_congr hblock, lines_missCache, Function.update_self, hptable]
    rfl

end

/-! ## The byte loop -/

theorem Mem.HitStep.trans {b s d : ℕ} {m₁ m₂ m₃ : Mem} (h : m₁.HitStep b s d m₂)
    (h' : m₂.HitStep b s d m₃) : m₁.HitStep b s d m₃ :=
  ⟨h'.cached, fun a ↦ (h'.hits a).trans (h.hits a), h'.inflight.trans h.inflight,
    h'.seg_start_addr.trans h.seg_start_addr, h'.undefined.trans h.undefined⟩

theorem Mem.FillStep.hitStep {b s d : ℕ} {addr : BitVec 64} {overruns : Bool} {m₁ m₂ m₃ : Mem}
    (h : m₁.FillStep b s d addr overruns m₂) (h' : m₂.HitStep b s d m₃) :
    m₁.FillStep b s d addr overruns m₃ :=
  ⟨h'.cached, (h'.hits addr).trans h.hits, h'.inflight.trans h.inflight,
    h'.seg_start_addr.trans h.seg_start_addr, h'.undefined.trans h.undefined⟩

section

variable {b s d : ℕ} {m : Mem} {cache : Cache} (hm : m.Cached b s d cache) {addr : BitVec 64}
  (fill : Cache → BitVec 64 → BlockFill) (operation : Operation)
  {P : Mem → Cache → BitVec 64 → Prop} (hP : ∀ m cache a, getLine cache a ≠ none → P m cache a)
include hm hP

/-- The bytes of a resident block are hits; the induction is on the bytes that are left. -/
theorem cacheLoop_hitStep (n : ℕ) (current_address : BitVec 64) (hhit : m.hits addr = true)
    (hbytes : ∀ i < n, SameBlock b (current_address + BitVec.ofNat 64 i) addr) :
    ∃ m', cacheLoop fill operation n current_address m = .ok (true, m') ∧
      m.HitStep b s d m' ∧ m.Counts 0 n m' ∧ (∀ a, m'.lineWord a = m.lineWord a) ∧
      EachByte P fill operation n current_address m := by
  induction n generalizing m cache current_address with
  | zero => exact ⟨m, rfl, ⟨⟨cache, hm⟩, fun _ ↦ rfl, rfl, rfl, rfl⟩, .refl m, fun _ ↦ rfl, trivial⟩
  | succ n ih =>
    have hfirst : m.hits current_address = true := by
      have hzero := hbytes 0 (Nat.succ_pos n)
      rw [show BitVec.ofNat 64 0 = 0#64 from rfl, BitVec.add_zero] at hzero
      exact (hm.hits_congr hzero).trans hhit
    obtain ⟨m₁, hbyte, hstep, hcounts, hwords⟩ := cacheByte_hitStep hm hfirst
      (fill cache current_address) operation
    obtain ⟨cache₁, hm₁⟩ := hstep.cached
    obtain ⟨m₂, hloop, hstep₂, hcounts₂, hwords₂, heach⟩ := ih hm₁ (current_address + 1)
      ((hstep.hits addr).trans hhit) (bytes_tail hbytes)
    refine ⟨m₂, ?_, hstep.trans hstep₂, Nat.add_comm 1 n ▸ hcounts.trans hcounts₂,
      fun a ↦ (hwords₂ a).trans (hwords a), fun cache' hcache' ↦ ?_⟩
    · rw [cacheLoop, hm.cache_eq]
      simp only [hbyte, bind, Except.bind, ↓reduceIte, hloop]
    · obtain rfl : cache = cache' := Option.some.inj (hm.cache_eq.symm.trans hcache')
      refine ⟨hP m cache current_address fun hline ↦ ?_, fun m' hm' ↦ ?_⟩
      · rw [hm.hits_eq, hline] at hfirst
        cases hfirst
      · obtain rfl : m₁ = m' := by
          rw [hbyte] at hm'
          exact congrArg Prod.snd (Except.ok.inj hm')
        exact heach

omit hP in
/-- A byte that misses and waits ends the loop. -/
theorem cacheLoop_waitStep (n : ℕ) (hmiss : m.hits addr = false)
    (hleft : 0 < m.attemptsLeft (cache.blockAddress addr) d) :
    ∃ m', cacheLoop fill operation (n + 1) addr m = .ok (false, m') ∧
      m.WaitStep b s d cache addr (m.attemptsLeft (cache.blockAddress addr) d) m' ∧
      m.Counts 1 0 m' ∧ m'.ptable = m.ptable ∧
      (EachByte P fill operation (n + 1) addr m ↔ P m cache addr) := by
  obtain ⟨m', hbyte, hstep, hcounts, hptable⟩ := cacheByte_waitStep hm hmiss hleft
    (fill cache addr) operation
  refine ⟨m', ?_, hstep, hcounts, hptable, fun heach ↦ (heach cache hm.cache_eq).1,
    fun hfirst cache' hcache' ↦ ?_⟩
  · rw [cacheLoop, hm.cache_eq]
    simp only [hbyte, bind, Except.bind, Bool.false_eq_true, ↓reduceIte, pure, Except.pure]
  · obtain rfl : cache = cache' := Option.some.inj (hm.cache_eq.symm.trans hcache')
    refine ⟨hfirst, fun m'' hm'' ↦ ?_⟩
    rw [hbyte] at hm''
    exact Bool.noConfusion (congrArg Prod.fst (Except.ok.inj hm''))

/-- A byte that ends the delay makes the others hits. -/
theorem cacheLoop_fillStep (n : ℕ) (hmiss : m.hits addr = false)
    (hleft : m.attemptsLeft (cache.blockAddress addr) d = 0)
    (hbytes : ∀ i < n + 1, SameBlock b (addr + BitVec.ofNat 64 i) addr) :
    ∃ m', cacheLoop fill operation (n + 1) addr m = .ok (true, m') ∧
      m.FillStep b s d addr ((fill cache addr).overruns cache.B) m' ∧ m.Counts 1 n m' ∧
      m'.lineWord addr = some (wordAt (fillBlock (fill cache addr).base cache.B cache.B m.ptable fun _ ↦ 0).2
          (cache.offset addr)) ∧
      (EachByte P fill operation (n + 1) addr m ↔ P m cache addr) := by
  obtain ⟨m₁, hbyte, hstep, hcounts, hword⟩ := cacheByte_fillStep hm hmiss hleft
    (fill cache addr) operation
  obtain ⟨cache₁, hm₁⟩ := hstep.cached
  obtain ⟨m₂, hloop, hstep₂, hcounts₂, hwords₂, heach⟩ := cacheLoop_hitStep hm₁ fill operation
    hP n (addr + 1) hstep.hits (bytes_tail hbytes)
  refine ⟨m₂, ?_, hstep.hitStep hstep₂, Nat.zero_add n ▸ hcounts.trans hcounts₂,
    (hwords₂ addr).trans hword, fun heach ↦ (heach cache hm.cache_eq).1,
    fun hfirst cache' hcache' ↦ ?_⟩
  · rw [cacheLoop, hm.cache_eq]
    simp only [hbyte, bind, Except.bind, ↓reduceIte, hloop]
  · obtain rfl : cache = cache' := Option.some.inj (hm.cache_eq.symm.trans hcache')
    refine ⟨hfirst, fun m' hm' ↦ ?_⟩
    obtain rfl : m₁ = m' := by
      rw [hbyte] at hm'
      exact congrArg Prod.snd (Except.ok.inj hm')
    exact heach

end

/-! ## One attempt -/

theorem Mem.Cached.sameBlock {b s d : ℕ} {m : Mem} {cache : Cache} (hm : m.Cached b s d cache)
    {addr : BitVec 64} (haddr : DataAddr m addr) :
    ∀ i < 8, SameBlock b (addr + BitVec.ofNat 64 i) addr :=
  fun _ hi ↦ (inBlock_of_aligned hm.valid.b_ge haddr.aligned).sameBlock hm.valid hi

section

variable {b s d : ℕ} {m : Mem} {cache : Cache} (hm : m.Cached b s d cache) {op : DataOp}
  (haddr : DataAddr m op.addr) (hnull : op.addr ≠ NULL_ADDR)
include hm haddr hnull

/-- When the byte loop waits, so does the access. -/
theorem call_of_cacheLoop_wait {m₁ : Mem}
    (hloop : cacheLoop op.fill op.operation 8 op.addr m = .ok (false, m₁)) :
    op.call m = .ok (m₁, 0) := by
  cases op with
  | read addr =>
    change cacheLoop (readFill addr) .read 8 addr m = _ at hloop
    refine (haddr.memReadL_eq hnull hm.cache_eq).trans ?_
    change memReadCache m addr 8 = _
    unfold memReadCache
    rw [hloop]
    rfl
  | write addr val =>
    change cacheLoop writeFill .write 8 addr m = _ at hloop
    have hwrite : memWriteCache m addr val 8 = .ok m₁ := by
      unfold memWriteCache
      rw [hloop]
      rfl
    exact congrArg (Except.map _) ((haddr.memWriteL_eq hnull hm.cache_eq val).trans hwrite)

/-- When the byte loop is through, the word is read or written. -/
theorem call_of_cacheLoop_done {m₁ : Mem}
    (hloop : cacheLoop op.fill op.operation 8 op.addr m = .ok (true, m₁)) {cache₁ : Cache}
    (hm₁ : m₁.Cached b s d cache₁) (hhit : m₁.hits op.addr = true) :
    ∃ m' value, op.call m = .ok (m', value) ∧ m'.dmem_status = .ready ∧ m₁.HitStep b s d m' ∧
      m₁.Counts 0 0 m' := by
  rw [hm₁.hits_eq] at hhit
  obtain ⟨i, hline⟩ := Option.isSome_iff_exists.mp hhit
  cases op with
  | read addr =>
    change cacheLoop (readFill addr) .read 8 addr m = _ at hloop
    change getLine cache₁ addr = some i at hline
    have hread : memReadCache m addr 8 = .ok ({ m₁ with dmem_status := .ready },
        wordAt ((cache₁.getSet addr).lines i).data (cache₁.offset addr)) := by
      unfold memReadCache
      rw [hloop]
      simp only [bind, Except.bind, ↓reduceIte, hm₁.cache_eq, getWordCache, hline]
      rfl
    exact ⟨{ m₁ with dmem_status := .ready },
      wordAt ((cache₁.getSet addr).lines i).data (cache₁.offset addr),
      (haddr.memReadL_eq hnull hm.cache_eq).trans hread, rfl,
      ⟨⟨cache₁, hm₁.of_calls .refl hm₁.cache_eq⟩, fun _ ↦ rfl, rfl, rfl, rfl⟩, rfl, rfl⟩
  | write addr val =>
    change cacheLoop writeFill .write 8 addr m = _ at hloop
    change getLine cache₁ addr = some i at hline
    obtain ⟨line, hlineEq⟩ : ∃ line, line = { (cache₁.getSet addr).lines i with
      data := putWord ((cache₁.getSet addr).lines i).data (cache₁.offset addr) val
      dirty := true } := ⟨_, rfl⟩
    have hset : setWordCache cache₁ addr val =
        .ok (cache₁.putSet addr ((cache₁.getSet addr).putLine i line)) := by
      unfold setWordCache
      rw [hline, hlineEq]
    have hwrite : memWriteCache m addr val 8 = .ok { m₁ with
        cache := some (cache₁.putSet addr ((cache₁.getSet addr).putLine i line))
        dmem_status := .ready } := by
      unfold memWriteCache
      rw [hloop]
      simp only [bind, Except.bind, ↓reduceIte, hm₁.cache_eq, hset]
      rfl
    refine ⟨{ m₁ with
        cache := some (cache₁.putSet addr ((cache₁.getSet addr).putLine i line))
        dmem_status := .ready }, 0, ?_, rfl,
      ⟨⟨_, hm₁.of_calls (.single (.setWordCache hset)) rfl⟩, fun a ↦ ?_, rfl, rfl, rfl⟩, rfl, rfl⟩
    · exact congrArg (Except.map _) ((haddr.memWriteL_eq hnull hm.cache_eq val).trans hwrite)
    · rw [hm₁.hits_eq]
      exact congrArg Option.isSome (Cache.Inv.getLine_putSet
        (show ((cache₁.getSet addr).putLine i line).lines = Function.update _ i line from rfl)
        (by rw [hlineEq]) (by rw [hlineEq]) a)

/-- An access that hits is served at its first attempt. -/
theorem attempts_of_hit (hhit : m.hits op.addr = true) :
    ∃ m' value, op.call m = .ok (m', value) ∧ op.Attempts 0 m m' ∧ m.HitStep b s d m' ∧
      m.Counts 0 8 m' := by
  obtain ⟨m₁, hloop, hstep, hcounts, -, heach⟩ := cacheLoop_hitStep hm op.fill op.operation
    countsDown_of_hit 8 op.addr hhit (hm.sameBlock haddr)
  obtain ⟨cache₁, hm₁⟩ := hstep.cached
  obtain ⟨m₂, value, hcall, hready, hstep₂, hcounts₂⟩ := call_of_cacheLoop_done hm haddr hnull hloop
    hm₁ ((hstep.hits op.addr).trans hhit)
  exact ⟨m₂, value, hcall, .ready hcall hready heach, hstep.trans hstep₂, hcounts.trans hcounts₂⟩

end

theorem armInflight_of_idle {m : Mem} (hidle : m.inflight = false) (block_address : BitVec 64)
    (d : ℕ) : (armInflight m block_address d).inflight_cycles = BitVec.ofNat 64 d := by
  unfold armInflight
  rw [if_pos (.inr (by rw [hidle]; exact Bool.false_ne_true))]

theorem armInflight_of_armed {m : Mem} {block_address : BitVec 64} (harmed : m.inflight = true)
    (haddr : m.inflight_addr = block_address) (d : ℕ) : armInflight m block_address d = m := by
  unfold armInflight
  rw [if_neg (by rw [harmed, haddr]; simp)]

/-- One decrement of a timer that is not zero. -/
theorem sub_one_toNat {x : BitVec 64} {n : ℕ} (h : x.toNat = n + 1) : (x - 1).toNat = n := by
  have hone : (1 : BitVec 64).toNat = 1 := rfl
  rw [BitVec.toNat_sub_of_le (by rw [BitVec.le_def, hone]; omega), hone, h, Nat.add_sub_cancel]

/-- An attempt that waits is one of those that are left. -/
theorem Mem.WaitStep.attemptsLeft_lt {b s d left : ℕ} {cache : Cache} {addr : BitVec 64}
    {m m' : Mem} (h : m.WaitStep b s d cache addr left m') (hpos : 0 < left) :
    m'.attemptsLeft (cache.blockAddress addr) d < left := by
  have harmed := armInflight_of_armed h.inflight h.inflight_addr d
  obtain ⟨n, rfl⟩ := Nat.exists_eq_succ_of_ne_zero (Nat.pos_iff_ne_zero.mp hpos)
  have hleft : m'.attemptsLeft (cache.blockAddress addr) d = n := by
    change ((armInflight m' (cache.blockAddress addr) d).inflight_cycles - 1).toNat = n
    rw [harmed]
    exact sub_one_toNat h.inflight_cycles
  omega

/-- An access that misses is in flight as long as attempts are left; the induction is on them. -/
theorem attempts_of_miss {b s d : ℕ} {op : DataOp} (left : ℕ) {m : Mem} {cache : Cache}
    (hm : m.Cached b s d cache) (haddr : DataAddr m op.addr) (hnull : op.addr ≠ NULL_ADDR)
    (hmiss : m.hits op.addr = false)
    (hcycles : (armInflight m (cache.blockAddress op.addr) d).inflight_cycles.toNat = left + 1) :
    ∃ m', op.Attempts left m m' ∧
      m.FillStep b s d op.addr ((op.fill cache op.addr).overruns cache.B) m' ∧
      m.Counts (left + 1) 7 m' := by
  have hcount : CountsDown m cache op.addr := by
    intro _ hzero
    rw [hm.d_eq] at hzero
    rw [hzero] at hcycles
    exact absurd hcycles (Nat.succ_ne_zero left).symm
  have hleft : m.attemptsLeft (cache.blockAddress op.addr) d = left := sub_one_toNat hcycles
  induction left generalizing m with
  | zero =>
    obtain ⟨m₁, hloop, hstep, hcounts, -, heach⟩ := cacheLoop_fillStep hm op.fill op.operation
      countsDown_of_hit 7 hmiss hleft (hm.sameBlock haddr)
    obtain ⟨cache₁, hm₁⟩ := hstep.cached
    obtain ⟨m₂, value, hcall, hready, hstep₂, hcounts₂⟩ := call_of_cacheLoop_done hm haddr hnull
      hloop hm₁ hstep.hits
    exact ⟨m₂, .ready hcall hready (heach.mpr hcount), hstep.hitStep hstep₂, hcounts.trans hcounts₂⟩
  | succ left ih =>
    obtain ⟨m₁, hloop, hstep, hcounts, -, heach⟩ := cacheLoop_waitStep hm op.fill op.operation 7
      hmiss (by rw [hleft]; exact Nat.succ_pos left)
    have hcall := call_of_cacheLoop_wait hm haddr hnull hloop
    have harmed := armInflight_of_armed hstep.inflight hstep.inflight_addr d
    have hcycles₁ : (armInflight m₁ (cache.blockAddress op.addr) d).inflight_cycles.toNat =
        left + 1 := by
      rw [harmed, hstep.inflight_cycles, hleft]
    have hcount₁ : CountsDown m₁ cache op.addr := by
      intro _ hzero
      rw [hm.d_eq] at hzero
      rw [hzero] at hcycles₁
      exact absurd hcycles₁ (Nat.succ_ne_zero left).symm
    obtain ⟨m', hattempts, hfill, hcounts'⟩ := ih hstep.cached (haddr.congr hstep.seg_start_addr)
      ((hstep.hits op.addr).trans hmiss) hcycles₁ hcount₁ (sub_one_toNat hcycles₁)
    refine ⟨m', .inFlight hcall hstep.dmem_status (heach.mpr hcount) hattempts, ⟨hfill.cached,
      hfill.hits, hfill.inflight, hfill.seg_start_addr.trans hstep.seg_start_addr, ?_⟩, ?_⟩
    · rw [hfill.undefined, hstep.undefined]
    · rw [Nat.add_comm (left + 1) 1]
      exact hcounts.trans hcounts'

/-- With a delay of zero the first decrement wraps, and the first attempt waits. -/
theorem not_attempts_of_zero {b s : ℕ} {op : DataOp} {m m' : Mem} {cache : Cache}
    (hm : m.Cached b s 0 cache) (haddr : DataAddr m op.addr) (hnull : op.addr ≠ NULL_ADDR)
    (hidle : m.inflight = false) (hmiss : m.hits op.addr = false) : ¬op.Attempts 0 m m' := by
  have hcycles := armInflight_of_idle hidle (cache.blockAddress op.addr) 0
  have hleft : 0 < m.attemptsLeft (cache.blockAddress op.addr) 0 := by
    change 0 < ((armInflight m (cache.blockAddress op.addr) 0).inflight_cycles - 1).toNat
    rw [hcycles]
    decide
  obtain ⟨m₁, hloop, hstep, -⟩ := cacheLoop_waitStep (P := CountsDown) hm op.fill
    op.operation 7 hmiss hleft
  have hcall := call_of_cacheLoop_wait hm haddr hnull hloop
  rintro ⟨hcall', hready, -⟩
  rw [hcall] at hcall'
  obtain rfl : m₁ = m' := congrArg Prod.fst (Except.ok.inj hcall')
  rw [hstep.dmem_status] at hready
  cases hready

/-! ## A settled access -/

theorem DataOp.Attempts.settle {op : DataOp} {n : ℕ} {m m' : Mem} (h : op.Attempts n m m') :
    ∃ value, settle op.call m = some (.ok (m', value)) := by
  induction h with
  | @ready m m' value call ready counts =>
    refine ⟨value, settle_of_done call ?_⟩
    rw [ready]
    exact MemStatus.noConfusion
  | @inFlight n m m₁ m' value call inFlight counts rest ih =>
    obtain ⟨value', hsettle⟩ := ih
    exact ⟨value', (settle_of_wait call inFlight).trans hsettle⟩

section

variable {b s d : ℕ} {m : Mem} {cache : Cache} (hm : m.Cached b s d cache) {op : DataOp}
  (haddr : DataAddr m op.addr) (hnull : op.addr ≠ NULL_ADDR)
include hm haddr hnull

/-- One attempt keeps the configuration of the cache and the segments. -/
theorem call_cached : ∃ m' value, op.call m = .ok (m', value) ∧
    (∃ cache', m'.Cached b s d cache') ∧ m'.seg_start_addr = m.seg_start_addr := by
  cases hhit : m.hits op.addr with
  | true =>
    obtain ⟨m', value, hcall, -, hstep, -⟩ := attempts_of_hit hm haddr hnull hhit
    exact ⟨m', value, hcall, hstep.cached, hstep.seg_start_addr⟩
  | false =>
    rcases Nat.eq_zero_or_pos (m.attemptsLeft (cache.blockAddress op.addr) d) with hzero | hpos
    · obtain ⟨m₁, hloop, hstep, -, -⟩ := cacheLoop_fillStep hm op.fill op.operation
        countsDown_of_hit 7 hhit hzero (hm.sameBlock haddr)
      obtain ⟨cache₁, hm₁⟩ := hstep.cached
      obtain ⟨m', value, hcall, -, hstep', -⟩ := call_of_cacheLoop_done hm haddr hnull hloop hm₁
        hstep.hits
      exact ⟨m', value, hcall, hstep'.cached, hstep'.seg_start_addr.trans hstep.seg_start_addr⟩
    · obtain ⟨m', hloop, hstep, -, -⟩ := cacheLoop_waitStep (P := CountsDown) hm op.fill
        op.operation 7 hhit hpos
      exact ⟨m', 0, call_of_cacheLoop_wait hm haddr hnull hloop, ⟨cache, hstep.cached⟩,
        hstep.seg_start_addr⟩

/-- So does an access that is repeated until it is ready, if that ever happens. -/
theorem settle_keeps {r : Mem × BitVec 64} (h : settle op.call m = some (.ok r)) :
    (∃ cache', r.1.Cached b s d cache') ∧ r.1.seg_start_addr = m.seg_start_addr := by
  have hkeeps : ∀ m₁ : Mem, ∀ r : Mem × BitVec 64,
      ((∃ cache', m₁.Cached b s d cache') ∧ m₁.seg_start_addr = m.seg_start_addr) →
      op.call m₁ = .ok r →
      (∃ cache', r.1.Cached b s d cache') ∧ r.1.seg_start_addr = m.seg_start_addr := by
    rintro m₁ r ⟨⟨cache₁, hm₁⟩, hseg⟩ hr
    obtain ⟨m', value, hcall, hcached, hseg'⟩ := call_cached hm₁ (haddr.congr hseg) hnull
    rw [hcall] at hr
    obtain rfl : (m', value) = r := Except.ok.inj hr
    exact ⟨hcached, hseg'.trans hseg⟩
  obtain ⟨m₁, hm₁, hr, -⟩ := exists_last_of_settle
    (P := fun m₁ ↦ (∃ cache', m₁.Cached b s d cache') ∧ m₁.seg_start_addr = m.seg_start_addr)
    (fun m₁ r hm₁ hr _ ↦ hkeeps m₁ r hm₁ hr) m _ h ⟨⟨cache, hm⟩, rfl⟩ r rfl
  exact hkeeps m₁ r hm₁ hr

end

/-! ## Sequences of accesses -/

/-- What the word of an access means for its fill. -/
theorem DataOp.overruns_eq_false {op : DataOp} {cache : Cache} :
    (op.fill cache op.addr).overruns cache.B = false ↔
      (op.operation = .read → 8 * cache.offset op.addr + 8 ≤ cache.B) := by
  cases op with
  | read addr =>
    change decide (cache.B < 8 * cache.offset addr + 8) = false ↔
      (_ → 8 * cache.offset addr + 8 ≤ _)
    rw [decide_eq_false_iff_not, Nat.not_lt]
    exact ⟨fun h _ ↦ h, fun h ↦ h rfl⟩
  | write addr val => exact ⟨fun _ h ↦ Operation.noConfusion h, fun _ ↦ rfl⟩

theorem readsInside_cons {op : DataOp} {ops : List DataOp} {m m' : Mem} {value : BitVec 64}
    (h : settle op.call m = some (.ok (m', value))) :
    ReadsInside (op :: ops) m ↔ op.ReadsInside m ∧ ReadsInside ops m' := by
  refine and_congr_right fun _ ↦ ⟨fun hall ↦ hall m' value h, fun hrest m₁ value₁ h₁ ↦ ?_⟩
  rw [h] at h₁
  obtain ⟨rfl, -⟩ := Prod.mk.inj (Except.ok.inj (Option.some.inj h₁))
  exact hrest

/-- The first access of a sequence, when its attempts are known. -/
theorem missDelay_cons {d : ℕ} {op : DataOp} {ops : List DataOp} {m m' : Mem}
    (h : op.Attempts (op.delay d m) m m') :
    MissDelay d (op :: ops) m ↔ m'.undefined = false ∧ MissDelay d ops m' := by
  refine ⟨?_, fun hrest ↦ ⟨m', h, hrest⟩⟩
  rintro ⟨m₁, h₁, hrest⟩
  obtain ⟨value, hsettle⟩ := h.settle
  obtain ⟨value₁, hsettle₁⟩ := h₁.settle
  rw [hsettle] at hsettle₁
  obtain ⟨rfl, -⟩ := Prod.mk.inj (Except.ok.inj (Option.some.inj hsettle₁))
  exact hrest

/-- The delay of every access of a sequence is as promised, and nothing undefined is executed,
exactly when the delay is at least one or no access misses, and reads that miss read inside. -/
theorem missDelay_iff_of_cached {b s d : ℕ} (hd : d < 2 ^ 64) (ops : List DataOp) {m : Mem}
    {cache : Cache} (hm : m.Cached b s d cache) (hidle : m.inflight = false)
    (hdefined : m.undefined = false)
    (hops : ∀ op ∈ ops, DataAddr m op.addr ∧ op.addr ≠ NULL_ADDR) :
    MissDelay d ops m ↔
      (1 ≤ d ∨ ∀ op ∈ ops, m.hits op.addr = true) ∧ ReadsInside ops m := by
  induction ops generalizing m cache with
  | nil => exact ⟨fun _ ↦ ⟨.inr fun _ h ↦ absurd h List.not_mem_nil, trivial⟩, fun _ ↦ trivial⟩
  | cons op ops ih =>
    obtain ⟨haddr, hnull⟩ := hops op List.mem_cons_self
    cases hhit : m.hits op.addr with
    | true =>
      obtain ⟨m₁, value, hcall, hattempts, hstep, -⟩ := attempts_of_hit hm haddr hnull hhit
      obtain ⟨cache₁, hm₁⟩ := hstep.cached
      have hdefined₁ : m₁.undefined = false := hstep.undefined.trans hdefined
      have hrest := ih hm₁ (hstep.inflight.trans hidle) hdefined₁
        (DataAddr.tail hops hstep.seg_start_addr)
      have hdelay : op.delay d m = 0 := if_pos hhit
      have hinside : op.ReadsInside m := by
        intro cache _ _ hmiss
        rw [hhit] at hmiss
        cases hmiss
      obtain ⟨value', hsettle⟩ := hattempts.settle
      rw [missDelay_cons (hdelay ▸ hattempts), hrest, readsInside_cons hsettle]
      simp only [hdefined₁, hstep.hits, List.mem_cons, forall_eq_or_imp, hhit, true_and, hinside]
    | false =>
      have hdelay : op.delay d m = max d 1 - 1 := if_neg (by rw [hhit]; exact Bool.false_ne_true)
      have hnot : ¬∀ op' ∈ op :: ops, m.hits op'.addr = true := by
        intro hall
        rw [hall op List.mem_cons_self] at hhit
        cases hhit
      rcases Nat.eq_zero_or_pos d with rfl | hpos
      · constructor
        · rintro ⟨m', hattempts, -⟩
          exact absurd (hdelay ▸ hattempts) (not_attempts_of_zero hm haddr hnull hidle hhit)
        · rintro ⟨hcontra | hall, -⟩
          · exact absurd hcontra (by decide)
          · exact absurd hall hnot
      · have hcycles : (armInflight m (cache.blockAddress op.addr) d).inflight_cycles.toNat =
            max d 1 - 1 + 1 := by
          rw [armInflight_of_idle hidle, BitVec.toNat_ofNat, Nat.mod_eq_of_lt hd]
          omega
        obtain ⟨m₁, hattempts, hfill, -⟩ := attempts_of_miss _ hm haddr hnull hhit hcycles
        obtain ⟨cache₁, hm₁⟩ := hfill.cached
        obtain ⟨value, hsettle⟩ := hattempts.settle
        have hinside : op.ReadsInside m ↔ m₁.undefined = false := by
          rw [hfill.undefined, hdefined, Bool.false_or, DataOp.overruns_eq_false]
          refine ⟨fun h hread ↦ h cache hm.cache_eq hread hhit, fun h cache' hcache' hread _ ↦ ?_⟩
          obtain rfl := Option.some.inj (hm.cache_eq.symm.trans hcache')
          exact h hread
        rw [missDelay_cons (hdelay ▸ hattempts), readsInside_cons hsettle, hinside]
        constructor
        · rintro ⟨hdefined₁, hrest⟩
          have hrest' := (ih hm₁ hfill.inflight hdefined₁
            (DataAddr.tail hops hfill.seg_start_addr)).mp hrest
          exact ⟨.inl hpos, hdefined₁, hrest'.2⟩
        · rintro ⟨-, hdefined₁, hrest⟩
          exact ⟨hdefined₁, (ih hm₁ hfill.inflight hdefined₁
            (DataAddr.tail hops hfill.seg_start_addr)).mpr ⟨.inl hpos, hrest⟩⟩

/-- From any state that the calls of a cache can reach, with no miss under way, the accesses of a
sequence take the promised delay and execute nothing undefined exactly when the delay is at least
one or no access misses, and each read that misses takes its word from inside the block. -/
theorem miss_delay_iff (config : CacheConfig) {cache : Cache}
    (hcalls : ReflTransGen CacheCall config.cache cache) {m : Mem} (hcache : m.cache = some cache)
    (hidle : m.inflight = false) (hdefined : m.undefined = false) (ops : List DataOp)
    (hops : ∀ op ∈ ops, DataAddr m op.addr ∧ op.addr ≠ NULL_ADDR) :
    MissDelay config.d ops m ↔
      (1 ≤ config.d ∨ ∀ op ∈ ops, m.hits op.addr = true) ∧ ReadsInside ops m := by
  have hm := Mem.cached_of_calls hcalls hcache
  exact missDelay_iff_of_cached (lt_trans config.d_lt (by decide)) ops hm hidle hdefined hops

/-- Reads near the start of a block take their word from inside it, whether they miss or not. -/
theorem readsInside_of_offsets {b s d : ℕ} (ops : List DataOp) {m : Mem} {cache : Cache}
    (hm : m.Cached b s d cache) (hops : ∀ op ∈ ops, DataAddr m op.addr ∧ op.addr ≠ NULL_ADDR)
    (hoffsets : ∀ op ∈ ops, op.operation = .read → 8 * (op.addr.toNat % 2 ^ b) + 8 ≤ 2 ^ b) :
    ReadsInside ops m := by
  induction ops generalizing m cache with
  | nil => trivial
  | cons op ops ih =>
    obtain ⟨haddr, hnull⟩ := hops op List.mem_cons_self
    refine ⟨fun cache' hcache' hread _ ↦ ?_, fun m' value hsettle ↦ ?_⟩
    · obtain rfl := Option.some.inj (hm.cache_eq.symm.trans hcache')
      rw [hm.valid.offset_eq, hm.valid.B_eq]
      exact hoffsets op List.mem_cons_self hread
    · obtain ⟨⟨cache', hm'⟩, hseg⟩ := settle_keeps hm haddr hnull hsettle
      exact ih hm' (DataAddr.tail hops hseg) fun op' hmem ↦
        hoffsets op' (List.mem_cons_of_mem op hmem)

/-- Two blocks compete for one line, and each miss takes two attempts. -/
theorem miss_delay_iff_two : MissDelay 2 [.read 0x800000, .write 0x800008 1, .read 0x800000]
    ((initMem none fun _ ↦ 0).withEmptyCache 1 8 8 2) := by
  have hvalid : (createCache 1 8 8 2).Valid 3 0 :=
    ⟨by decide, by decide, rfl, by decide, rfl, by decide⟩
  have hops : ∀ op ∈ [DataOp.read 0x800000, .write 0x800008 1, .read 0x800000],
      DataAddr ((initMem none fun _ ↦ 0).withEmptyCache 1 8 8 2) op.addr ∧
        op.addr ≠ NULL_ADDR := by
    decide
  have hlruSafe : (createCache 1 8 8 2).LruSafe := ⟨by decide, by decide, fun _ ↦ .inr fun _ ↦ rfl⟩
  have hcached : ((initMem none fun _ ↦ 0).withEmptyCache 1 8 8 2).Cached 3 0 2
      (createCache 1 8 8 2) := ⟨rfl, hvalid, hlruSafe, rfl⟩
  have hinside := readsInside_of_offsets _ hcached hops (by decide)
  exact (miss_delay_iff ⟨1, 8, 8, 2, 3, 0, hvalid, by decide⟩ .refl rfl rfl rfl _ hops).mpr
    ⟨.inl (show 1 ≤ 2 by decide), hinside⟩

/-- With a delay of zero a miss waits, and its first decrement wraps. -/
theorem miss_delay_wraps : ¬∀ (config : CacheConfig) (m : Mem) (ops : List DataOp),
    m.cache = some config.cache → m.inflight = false → m.undefined = false →
      (∀ op ∈ ops, DataAddr m op.addr ∧ op.addr ≠ NULL_ADDR) → MissDelay config.d ops m := by
  intro hclaim
  have hvalid : (createCache 1 8 8 0).Valid 3 0 :=
    ⟨by decide, by decide, rfl, by decide, rfl, by decide⟩
  have hops : ∀ op ∈ [DataOp.read 0x800000],
      DataAddr ((initMem none fun _ ↦ 0).withEmptyCache 1 8 8 0) op.addr ∧ op.addr ≠ NULL_ADDR := by
    decide
  have hdelay : MissDelay 0 [.read 0x800000] ((initMem none fun _ ↦ 0).withEmptyCache 1 8 8 0) :=
    hclaim ⟨1, 8, 8, 0, 3, 0, hvalid, by decide⟩ _ _ rfl rfl rfl hops
  obtain ⟨m', hattempts, -⟩ := hdelay
  have hlruSafe : (createCache 1 8 8 0).LruSafe := ⟨by decide, by decide, fun _ ↦ .inr fun _ ↦ rfl⟩
  have hcached : ((initMem none fun _ ↦ 0).withEmptyCache 1 8 8 0).Cached 3 0 0
      (createCache 1 8 8 0) := ⟨rfl, hvalid, hlruSafe, rfl⟩
  exact not_attempts_of_zero hcached (hops _ List.mem_cons_self).1 (hops _ List.mem_cons_self).2 rfl
    rfl hattempts

end SystemEmulator
