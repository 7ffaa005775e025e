import SystemEmulator.Replacement.Reference
import SystemEmulator.Replacement.Validation

/-!
# The calls of `lru`

Whatever calls have changed a cache, `lru` is called with the index of one of at most eight lines.
-/

namespace SystemEmulator

open Relation Result

/-- Every access to the cache calls `lru` with at most eight lines and the index of one of them. -/
structure Cache.LruCallsOk (cache : Cache) : Prop where
  A_le : cache.A ≤ 8
  hit : ∀ addr i, getLine cache addr = some i → i < cache.A
  miss : ∀ addr, selectLine cache addr < cache.A

/-- A call through which the emulator changes the cache. -/
inductive CacheCall (cache : Cache) : Cache → Prop
  | checkHit {n n' : Counters} {addr : BitVec 64} {operation : Operation} {hit : Bool}
      {cache' : Cache} (h : checkHit cache n addr operation = .ok (hit, cache', n')) :
      CacheCall cache cache'
  | handleMiss {n n' : Counters} {addr : BitVec 64} {operation : Operation} {data : ℕ → BitVec 8}
      {evicted : EvictedLine} {cache' : Cache}
      (h : handleMiss cache n addr operation data = .ok (evicted, cache', n')) :
      CacheCall cache cache'
  | setWordCache {addr val : BitVec 64} {cache' : Cache}
      (h : setWordCache cache addr val = .ok cache') : CacheCall cache cache'

/-- A set is untouched, or `lru` has chosen one of its lines. -/
structure Cache.LruSafe (cache : Cache) : Prop where
  A_pos : 1 ≤ cache.A
  A_le : cache.A ≤ 8
  sets : ∀ idx, (cache.sets idx).next_lru < cache.A ∨ ∀ i, ((cache.sets idx).lines i).valid = false

theorem CacheConfig.lruSafe (config : CacheConfig) : config.cache.LruSafe :=
  ⟨config.valid.A_pos, config.valid.A_le, fun _ ↦ .inr fun _ ↦ rfl⟩

theorem getLine_lt {cache : Cache} {addr : BitVec 64} {i : ℕ} (h : getLine cache addr = some i) :
    i < cache.A :=
  List.mem_range.mp (List.mem_of_find?_eq_some h)

theorem getLine_valid {cache : Cache} {addr : BitVec 64} {i : ℕ} (h : getLine cache addr = some i) :
    ((cache.getSet addr).lines i).valid = true := by
  have hfound := List.find?_some h
  rw [Bool.and_eq_true] at hfound
  exact hfound.1

theorem lruSelect_lt {A : ℕ} (hA : 1 ≤ A) (m : BitVec 64) : lruSelect A m < A := by
  unfold lruSelect
  cases hfind : (List.range A).find? fun r ↦ ((m >>> (r * A)) &&& rowMask A) == 0 with
  | none => exact hA
  | some r => exact List.mem_range.mp (List.mem_of_find?_eq_some hfind)

theorem Cache.LruSafe.selectLine_lt {cache : Cache} (h : cache.LruSafe) (addr : BitVec 64) :
    selectLine cache addr < cache.A := by
  unfold selectLine
  cases hfind : (List.range cache.A).find? fun i ↦ !((cache.getSet addr).lines i).valid with
  | some i => exact List.mem_range.mp (List.mem_of_find?_eq_some hfind)
  | none =>
    have hall := List.find?_eq_none.mp hfind
    rcases h.sets (cache.setIndex addr) with hlt | hinvalid
    · exact hlt
    · -- a set without a valid line has an invalid line
      have hfirst := hall 0 (List.mem_range.mpr h.A_pos)
      have hzero : ((cache.getSet addr).lines 0).valid = false := hinvalid 0
      rw [hzero] at hfirst
      exact absurd rfl hfirst

theorem Cache.LruSafe.lruCallsOk {cache : Cache} (h : cache.LruSafe) : cache.LruCallsOk :=
  ⟨h.A_le, fun _ _ ↦ getLine_lt, h.selectLine_lt⟩

/-- A set in which `lru` has chosen a line can be put back. -/
theorem Cache.LruSafe.putSet {cache : Cache} (h : cache.LruSafe) (addr : BitVec 64) {set : CacheSet}
    (hset : set.next_lru < cache.A) : (cache.putSet addr set).LruSafe := by
  refine ⟨h.A_pos, h.A_le, fun idx ↦ ?_⟩
  by_cases hidx : idx = cache.setIndex addr
  · left
    simpa only [Cache.putSet, hidx, Function.update_self] using hset
  · simpa only [Cache.putSet, Function.update_of_ne hidx] using h.sets idx

theorem checkHit_post {cache : Cache} (h : cache.LruSafe) (n : Counters) (addr : BitVec 64)
    (operation : Operation) :
    Post (fun r ↦ r.2.1.LruSafe) (· ≠ Crash.assertFailed) (checkHit cache n addr operation) := by
  cases hline : getLine cache addr with
  | none =>
    rw [checkHit_of_none hline]
    exact .ok h
  | some i =>
    rw [checkHit_of_some h.A_le hline]
    exact .ok (h.putSet addr (lruSelect_lt h.A_pos _))

theorem handleMiss_post {cache : Cache} (h : cache.LruSafe) (n : Counters) (addr : BitVec 64)
    (operation : Operation) (data : ℕ → BitVec 8) :
    Post (fun r ↦ r.2.1.LruSafe) (· ≠ Crash.assertFailed)
      (handleMiss cache n addr operation data) := by
  rw [handleMiss_eq h.A_le]
  exact .ok (h.putSet addr (lruSelect_lt h.A_pos _))

theorem getWordCache_post (cache : Cache) (addr : BitVec 64) :
    Post (fun _ ↦ True) (· ≠ Crash.assertFailed) (getWordCache cache addr) := by
  unfold getWordCache
  cases getLine cache addr with
  | none => exact .error Crash.noConfusion
  | some i => exact .ok trivial

theorem setWordCache_post {cache : Cache} (h : cache.LruSafe) (addr val : BitVec 64) :
    Post Cache.LruSafe (· ≠ Crash.assertFailed) (setWordCache cache addr val) := by
  unfold setWordCache
  cases hline : getLine cache addr with
  | none => exact .error Crash.noConfusion
  | some i =>
    refine .ok (h.putSet addr ?_)
    rcases h.sets (cache.setIndex addr) with hlt | hinvalid
    · exact hlt
    · have hvalid : ((cache.getSet addr).lines i).valid = true := getLine_valid hline
      have hcontra : ((cache.getSet addr).lines i).valid = false := hinvalid i
      rw [hvalid] at hcontra
      cases hcontra

theorem Cache.LruSafe.call {cache cache' : Cache} (h : cache.LruSafe)
    (hcall : CacheCall cache cache') : cache'.LruSafe := by
  cases hcall with
  | checkHit hok => exact (checkHit_post h _ _ _).of_ok hok
  | handleMiss hok => exact (handleMiss_post h _ _ _ _).of_ok hok
  | setWordCache hok => exact (setWordCache_post h _ _).of_ok hok

theorem Cache.LruSafe.calls {cache cache' : Cache} (h : cache.LruSafe)
    (hcalls : ReflTransGen CacheCall cache cache') : cache'.LruSafe := by
  induction hcalls with
  | refl => exact h
  | tail _ hcall ih => exact ih.call hcall

/-- The calls keep the parameters of the cache. -/
theorem geometry_of_calls {cache cache' : Cache} (hcalls : ReflTransGen CacheCall cache cache') :
    cache'.geometry = cache.geometry := by
  induction hcalls with
  | refl => rfl
  | tail _ hcall ih =>
    rw [← ih]
    cases hcall with
    | checkHit hok => exact checkHit_geometry _ _ _ _ _ hok
    | handleMiss hok => exact handleMiss_geometry _ _ _ _ _ _ hok
    | setWordCache hok => exact setWordCache_geometry _ _ _ _ hok

end SystemEmulator
