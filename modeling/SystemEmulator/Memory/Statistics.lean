import Mathlib.Tactic.Ring
import SystemEmulator.Base.Checkpoint
import SystemEmulator.Memory.MissDelay

/-!
# The statistics of a checkpoint

Every attempt of an access calls `check_hit`, at most once for each of its bytes.  A miss with a
delay of at least one counts `d` misses and seven hits, and a hit counts eight hits.  The misses of
a checkpoint are right when its division is defined, the hits only before the first access.
-/

namespace SystemEmulator

open Relation

/-! ## Counting accesses -/

/-- An access with what becomes of the numbers of accesses that have hit and that have missed. -/
def DataOp.count (op : DataOp) (m : Mem) (r : Mem × ℕ × ℕ) : Mem × ℕ × ℕ :=
  if m.hits op.addr then (r.1, r.2.1 + 1, r.2.2) else (r.1, r.2.1, r.2.2 + 1)

/-- The accesses in order, each of them repeated until it is ready, with the number of those whose
block is resident when they begin and the number of the others. -/
def countAccesses : List DataOp → Mem → Option (Mem × ℕ × ℕ)
  | [], m => some (m, 0, 0)
  | op :: ops, m =>
      match settle op.call m with
      | some (.ok (m', _)) => (countAccesses ops m').map (op.count m)
      | _ => none

/-- After the accesses a checkpoint prints how many of them have hit and how many have missed. -/
def StatisticsExact (ops : List DataOp) (m : Mem) : Prop :=
  ∃ m' cache hits misses, countAccesses ops m = some (m', hits, misses) ∧ m'.cache = some cache ∧
    logStatistics m'.counters cache.d = some ((hits : ℤ), (misses : ℤ))

theorem countAccesses_cons {op : DataOp} {m m' : Mem} {value : BitVec 64}
    (h : settle op.call m = some (.ok (m', value))) (ops : List DataOp) :
    countAccesses (op :: ops) m = (countAccesses ops m').map (op.count m) := by
  rw [countAccesses, h]

/-- The configuration of the cache is kept by every sequence of accesses that ends. -/
theorem countAccesses_keeps {b s d : ℕ} (ops : List DataOp) {m : Mem} {cache : Cache}
    (hm : m.Cached b s d cache) (hops : ∀ op ∈ ops, DataAddr m op.addr ∧ op.addr ≠ NULL_ADDR)
    {r : Mem × ℕ × ℕ} (h : countAccesses ops m = some r) : ∃ cache', r.1.Cached b s d cache' := by
  induction ops generalizing m cache r with
  | nil =>
    obtain rfl := Option.some.inj h
    exact ⟨cache, hm⟩
  | cons op ops ih =>
    obtain ⟨haddr, hnull⟩ := hops op List.mem_cons_self
    rw [countAccesses] at h
    split at h
    · next m' value hsettle =>
      obtain ⟨⟨cache', hm'⟩, hseg⟩ := settle_keeps hm haddr hnull hsettle
      obtain ⟨r', hr', rfl⟩ := Option.map_eq_some_iff.mp h
      have hfirst : (op.count m r').1 = r'.1 := by
        unfold DataOp.count
        split <;> rfl
      rw [hfirst]
      exact ih hm' (DataAddr.tail hops hseg) hr'
    · cases h

/-- With a delay of at least one, the raw counters are a weighted sum of the hits and the misses.
The induction is on the accesses; between them no miss is under way. -/
theorem countAccesses_counts {b s d : ℕ} (hd : d < 2 ^ 64) (hpos : 1 ≤ d) (ops : List DataOp)
    {m : Mem} {cache : Cache} (hm : m.Cached b s d cache) (hidle : m.inflight = false)
    (hops : ∀ op ∈ ops, DataAddr m op.addr ∧ op.addr ≠ NULL_ADDR) :
    ∃ m' hits misses, countAccesses ops m = some (m', hits, misses) ∧
      hits + misses = ops.length ∧ m.Counts (d * misses) (8 * hits + 7 * misses) m' := by
  induction ops generalizing m cache with
  | nil => exact ⟨m, 0, 0, rfl, rfl, .refl m⟩
  | cons op ops ih =>
    obtain ⟨haddr, hnull⟩ := hops op List.mem_cons_self
    cases hhit : m.hits op.addr with
    | true =>
      obtain ⟨m₁, value, -, hattempts, hstep, hcounts⟩ := attempts_of_hit hm haddr hnull hhit
      obtain ⟨cache₁, hm₁⟩ := hstep.cached
      obtain ⟨value, hsettle⟩ := hattempts.settle
      obtain ⟨m', hits, misses, hrun, hlength, hcounts'⟩ := ih hm₁ (hstep.inflight.trans hidle)
        (DataAddr.tail hops hstep.seg_start_addr)
      refine ⟨m', hits + 1, misses, ?_, ?_, ?_⟩
      · rw [countAccesses_cons hsettle, hrun, Option.map_some, DataOp.count, if_pos hhit]
      · rw [List.length_cons, ← hlength]
        ring
      · convert hcounts.trans hcounts' using 1 <;> ring
    | false =>
      have hcycles : (armInflight m (cache.blockAddress op.addr) d).inflight_cycles.toNat =
          d - 1 + 1 := by
        rw [armInflight_of_idle hidle, BitVec.toNat_ofNat, Nat.mod_eq_of_lt hd]
        omega
      obtain ⟨m₁, hattempts, hfill, hcounts⟩ := attempts_of_miss _ hm haddr hnull hhit hcycles
      rw [Nat.sub_add_cancel hpos] at hcounts
      obtain ⟨cache₁, hm₁⟩ := hfill.cached
      obtain ⟨value, hsettle⟩ := hattempts.settle
      obtain ⟨m', hits, misses, hrun, hlength, hcounts'⟩ := ih hm₁ hfill.inflight
        (DataAddr.tail hops hfill.seg_start_addr)
      refine ⟨m', hits, misses + 1, ?_, ?_, ?_⟩
      · rw [countAccesses_cons hsettle, hrun, Option.map_some, DataOp.count,
          if_neg (by rw [hhit]; exact Bool.false_ne_true)]
      · rw [List.length_cons, ← hlength]
        ring
      · convert hcounts.trans hcounts' using 1 <;> ring

/-! ## The printed statistics -/

/-- The misses that are printed are right, the hits are not. -/
theorem logStatistics_of_counts {d hits misses : ℕ} (hpos : 1 ≤ d) {n : Counters}
    (hmiss : n.miss_count = d * misses) (hhit : n.hit_count = 8 * hits + 7 * misses) :
    logStatistics n d = some (((8 * hits + 6 * misses : ℕ) : ℤ), (misses : ℤ)) := by
  unfold logStatistics
  rw [if_neg (Nat.one_le_iff_ne_zero.mp hpos), hmiss, hhit, Nat.mul_div_cancel_left misses hpos]
  simp only [Nat.cast_add, Nat.cast_mul, Nat.cast_ofNat, Option.some.injEq, Prod.mk.injEq, and_true]
  ring

theorem statisticsExact_iff_of_cached {b s d : ℕ} (hd : d < 2 ^ 64) {m : Mem} {cache : Cache}
    (hm : m.Cached b s d cache) (hcounters : m.counters = {}) (hidle : m.inflight = false)
    (ops : List DataOp) (hops : ∀ op ∈ ops, DataAddr m op.addr ∧ op.addr ≠ NULL_ADDR) :
    StatisticsExact ops m ↔ 1 ≤ d ∧ ops = [] := by
  rcases Nat.eq_zero_or_pos d with rfl | hpos
  · refine ⟨?_, fun h ↦ absurd h.1 (by decide)⟩
    rintro ⟨m', cache, hits, misses, hrun, hcache', hlog⟩
    obtain ⟨cache', hm'⟩ := countAccesses_keeps ops hm hops hrun
    have hzero : cache.d = 0 := by
      obtain rfl : cache' = cache := Option.some.inj (hm'.cache_eq.symm.trans hcache')
      exact hm'.d_eq
    rw [hzero] at hlog
    cases hlog
  · obtain ⟨m', hits, misses, hrun, hlength, hcounts⟩ := countAccesses_counts hd hpos ops hm hidle
      hops
    obtain ⟨cache', hm'⟩ := countAccesses_keeps ops hm hops hrun
    have hlog : logStatistics m'.counters cache'.d =
        some (((8 * hits + 6 * misses : ℕ) : ℤ), (misses : ℤ)) := by
      have hmiss := hcounts.miss_count
      have hhit := hcounts.hit_count
      rw [hcounters, Nat.zero_add] at hmiss hhit
      rw [hm'.d_eq]
      exact logStatistics_of_counts hpos hmiss hhit
    constructor
    · rintro ⟨m'', cache, hits', misses', hrun', hcache', hlog'⟩
      rw [hrun] at hrun'
      cases hrun'
      obtain rfl : cache' = cache := Option.some.inj (hm'.cache_eq.symm.trans hcache')
      rw [hlog] at hlog'
      have hhits : ((8 * hits + 6 * misses : ℕ) : ℤ) = hits :=
        congrArg Prod.fst (Option.some.inj hlog')
      exact ⟨hpos, List.eq_nil_of_length_eq_zero (by omega)⟩
    · rintro ⟨-, rfl⟩
      obtain ⟨rfl, rfl⟩ : hits = 0 ∧ misses = 0 := Nat.add_eq_zero_iff.mp hlength
      exact ⟨m', cache', 0, 0, hrun, hm'.cache_eq, hlog⟩

/-- For every valid configuration and every sequence of accesses to data memory from the start of
the emulator on, the statistics of a checkpoint are right exactly when the delay is at least one and
there is no access. -/
theorem statisticsExact_iff (config : CacheConfig) {m : Mem} (hcache : m.cache = some config.cache)
    (hcounters : m.counters = {}) (hidle : m.inflight = false) (ops : List DataOp)
    (hops : ∀ op ∈ ops, DataAddr m op.addr ∧ op.addr ≠ NULL_ADDR) :
    StatisticsExact ops m ↔ 1 ≤ config.d ∧ ops = [] := by
  have hm : m.Cached config.b config.s config.d config.cache :=
    ⟨hcache, config.valid, config.lruSafe, rfl⟩
  exact statisticsExact_iff_of_cached (lt_trans config.d_lt (by decide)) hm hcounters hidle ops hops

/-- No access with a delay of two. -/
theorem statisticsExact_nil :
    StatisticsExact [] ((initMem none fun _ ↦ 0).withEmptyCache 1 8 8 2) := by
  have hvalid : (createCache 1 8 8 2).Valid 3 0 :=
    ⟨by decide, by decide, rfl, by decide, rfl, by decide⟩
  exact (statisticsExact_iff ⟨1, 8, 8, 2, 3, 0, hvalid, by decide⟩ rfl rfl rfl [] (by decide)).mpr
    ⟨show 1 ≤ 2 by decide, rfl⟩

/-- One read that misses, with a delay of two: six hits are printed. -/
theorem not_statisticsExact_read : ¬∀ (config : CacheConfig) (m : Mem) (ops : List DataOp),
    m.cache = some config.cache → m.counters = {} → m.inflight = false →
      (∀ op ∈ ops, DataAddr m op.addr ∧ op.addr ≠ NULL_ADDR) → StatisticsExact ops m := by
  intro hclaim
  have hvalid : (createCache 1 8 8 2).Valid 3 0 :=
    ⟨by decide, by decide, rfl, by decide, rfl, by decide⟩
  have hops : ∀ op ∈ [DataOp.read 0x800000],
      DataAddr ((initMem none fun _ ↦ 0).withEmptyCache 1 8 8 2) op.addr ∧ op.addr ≠ NULL_ADDR := by
    decide
  have hexact : StatisticsExact [.read 0x800000]
      ((initMem none fun _ ↦ 0).withEmptyCache 1 8 8 2) :=
    hclaim ⟨1, 8, 8, 2, 3, 0, hvalid, by decide⟩ _ _ rfl rfl rfl hops
  have hlruSafe : (createCache 1 8 8 2).LruSafe := ⟨by decide, by decide, fun _ ↦ .inr fun _ ↦ rfl⟩
  have hm : ((initMem none fun _ ↦ 0).withEmptyCache 1 8 8 2).Cached 3 0 2
      (createCache 1 8 8 2) := ⟨rfl, hvalid, hlruSafe, rfl⟩
  have hnil := ((statisticsExact_iff_of_cached (by decide) hm rfl rfl _ hops).mp hexact).2
  cases hnil

end SystemEmulator
