import SystemEmulator.Replacement.Resident
import SystemEmulator.Replacement.LruCalls

/-!
# The representation of a cache

As long as `handle_miss` is called for an address that misses, the lines of every set are in use
from the first one on, with different tags, and an evicted line gives back the address of its block.
-/

namespace SystemEmulator

open Relation Result

/-- A call as the emulator makes it: `handle_miss` is called only for an address that misses.  For
an address that is not resident, `set_word_cache` does not return. -/
inductive CacheUse (cache : Cache) : Cache → Prop
  | checkHit {n n' : Counters} {addr : BitVec 64} {operation : Operation} {hit : Bool}
      {cache' : Cache} (h : checkHit cache n addr operation = .ok (hit, cache', n')) :
      CacheUse cache cache'
  | handleMiss {n n' : Counters} {addr : BitVec 64} {operation : Operation} {data : ℕ → BitVec 8}
      {evicted : EvictedLine} {cache' : Cache} (hmiss : getLine cache addr = none)
      (h : handleMiss cache n addr operation data = .ok (evicted, cache', n')) :
      CacheUse cache cache'
  | setWordCache {addr val : BitVec 64} {cache' : Cache}
      (h : setWordCache cache addr val = .ok cache') : CacheUse cache cache'

theorem CacheUse.call {cache cache' : Cache} (h : CacheUse cache cache') :
    CacheCall cache cache' := by
  cases h with
  | checkHit h => exact .checkHit h
  | handleMiss _ h => exact .handleMiss h
  | setWordCache h => exact .setWordCache h

/-- Only lines that are in use are dirty, they come first, and they have different tags; once all
lines are in use, the line to be replaced next is one of them. -/
structure CacheSet.WellFormed (A : ℕ) (set : CacheSet) : Prop where
  valid_prefix : ∀ j < A, (set.lines j).valid = true → ∀ i < j, (set.lines i).valid = true
  tag_inj : ∀ i < A, ∀ j < A, (set.lines i).valid = true → (set.lines j).valid = true →
    (set.lines i).tag = (set.lines j).tag → i = j
  valid_of_dirty : ∀ i < A, (set.lines i).dirty = true → (set.lines i).valid = true
  next_lru : (∀ i < A, (set.lines i).valid = true) → set.next_lru < A

/-! ## What a call writes -/

/-- The lines before the one that is filled are in use. -/
theorem valid_of_lt_selectLine {cache : Cache} (h : cache.LruSafe) {addr : BitVec 64} {i : ℕ}
    (hi : i < selectLine cache addr) : ((cache.getSet addr).lines i).valid = true := by
  have hlt := hi.trans (h.selectLine_lt addr)
  unfold selectLine at hi
  cases hfind : (List.range cache.A).find? fun i ↦ !((cache.getSet addr).lines i).valid with
  | some k =>
    rw [hfind] at hi
    simpa using (List.find?_range_eq_some.mp hfind).2.2 i hi
  | none => simpa using List.find?_eq_none.mp hfind i (List.mem_range.mpr hlt)

/-- A call leaves the cache as it is, or writes a valid line in the place of a valid one or of the
one that `select_line` offers. -/
theorem CacheCall.writes {cache cache' : Cache} (hA : cache.A ≤ 8) (h : CacheCall cache cache') :
    cache' = cache ∨ ∃ addr i line set, cache' = cache.putSet addr set ∧
      set.lines = Function.update (cache.getSet addr).lines i line ∧ line.valid = true ∧
      (i < cache.A ∧ ((cache.getSet addr).lines i).valid = true ∨ i = selectLine cache addr) := by
  cases h with
  | @checkHit n _ addr operation _ _ h =>
    cases hline : getLine cache addr with
    | none =>
      rw [checkHit_of_none hline] at h
      cases h
      exact .inl rfl
    | some i =>
      rw [checkHit_of_some hA hline] at h
      cases h
      have hvalid := getLine_valid hline
      exact .inr ⟨addr, i, _, _, rfl, CacheSet.touchLine_lines _ _ _ _, hvalid,
        .inl ⟨getLine_lt hline, hvalid⟩⟩
  | @handleMiss n _ addr operation data _ _ h =>
    rw [handleMiss_eq hA] at h
    cases h
    exact .inr ⟨addr, _, _, _, rfl, CacheSet.touchLine_lines _ _ _ _, rfl, .inr rfl⟩
  | @setWordCache addr val _ h =>
    unfold SystemEmulator.setWordCache at h
    cases hline : getLine cache addr with
    | none =>
      rw [hline] at h
      cases h
    | some i =>
      rw [hline] at h
      cases h
      have hvalid := getLine_valid hline
      exact .inr ⟨addr, i, _, _, rfl, rfl, hvalid, .inl ⟨getLine_lt hline, hvalid⟩⟩

/-- The lines of every set stay in order. -/
theorem CacheUse.inv {cache cache' : Cache} {b s : ℕ} {orders : ℕ → List ℕ}
    (hinv : cache.Inv b s orders) (h : CacheUse cache cache') :
    ∃ orders', cache'.Inv b s orders' := by
  have hA := hinv.valid.A_le
  cases h with
  | @checkHit n _ addr operation _ _ h =>
    cases hline : getLine cache addr with
    | none =>
      rw [checkHit_of_none hline] at h
      cases h
      exact ⟨orders, hinv⟩
    | some i =>
      rw [checkHit_of_some hA hline] at h
      cases h
      exact ⟨_, hinv.touchLine_hit hline operation⟩
  | handleMiss hmiss h =>
    rw [handleMiss_eq hA] at h
    cases h
    obtain ⟨hselect, hother⟩ := missCache_touchable hinv hmiss
    exact ⟨_, hinv.touchLine hselect rfl rfl hother⟩
  | @setWordCache addr val _ h =>
    unfold SystemEmulator.setWordCache at h
    cases hline : getLine cache addr with
    | none =>
      rw [hline] at h
      cases h
    | some i =>
      rw [hline] at h
      cases h
      exact ⟨orders, hinv.putLine addr rfl rfl⟩

/-! ## Reachable caches -/

/-- What every call keeps. -/
structure Cache.Represented (cache : Cache) (b s : ℕ) : Prop where
  inv : ∃ orders, cache.Inv b s orders
  lruSafe : cache.LruSafe
  valid_prefix : ∀ idx, ∀ j < cache.A, ((cache.sets idx).lines j).valid = true →
    ∀ i < j, ((cache.sets idx).lines i).valid = true
  valid_of_dirty : ∀ idx i, ((cache.sets idx).lines i).dirty = true →
    ((cache.sets idx).lines i).valid = true

namespace Cache.Represented

theorem create (config : CacheConfig) : config.cache.Represented config.b config.s where
  inv := ⟨_, inv_createCache config.valid⟩
  lruSafe := config.lruSafe
  valid_prefix := fun _ _ _ hvalid ↦ by cases hvalid
  valid_of_dirty := fun _ _ hdirty ↦ by cases hdirty

variable {cache : Cache} {b s : ℕ} (h : cache.Represented b s)
include h

/-- A valid line may take the place of a line that only valid lines precede. -/
theorem valid_prefix_update {addr : BitVec 64} {i : ℕ} {line : CacheLine}
    (hvalid : line.valid = true) (hbelow : ∀ j < i, ((cache.getSet addr).lines j).valid = true)
    {j : ℕ} (hj : j < cache.A)
    (hline : (Function.update (cache.getSet addr).lines i line j).valid = true) {k : ℕ}
    (hk : k < j) : (Function.update (cache.getSet addr).lines i line k).valid = true := by
  by_cases hki : k = i
  · rw [hki, Function.update_self]
    exact hvalid
  · rw [Function.update_of_ne hki]
    by_cases hji : j = i
    · exact hbelow k (hji ▸ hk)
    · rw [Function.update_of_ne hji] at hline
      exact h.valid_prefix _ j hj hline k hk

theorem use {cache' : Cache} (huse : CacheUse cache cache') : cache'.Represented b s := by
  obtain ⟨orders, hinv⟩ := h.inv
  refine ⟨huse.inv hinv, h.lruSafe.call huse.call, ?_, ?_⟩
  all_goals
    rcases huse.call.writes h.lruSafe.A_le with rfl | ⟨addr, i, line, set, rfl, hlines, hvalid, hi⟩
  · exact h.valid_prefix
  · have hbelow : ∀ j < i, ((cache.getSet addr).lines j).valid = true := by
      intro j hj
      rcases hi with ⟨hlt, hold⟩ | rfl
      · exact h.valid_prefix _ i hlt hold j hj
      · exact valid_of_lt_selectLine h.lruSafe hj
    intro idx j hj
    by_cases hidx : idx = cache.setIndex addr
    · simp only [Cache.putSet, hidx, Function.update_self, hlines]
      exact fun hline k hk ↦ h.valid_prefix_update hvalid hbelow hj hline hk
    · simp only [Cache.putSet, Function.update_of_ne hidx]
      exact h.valid_prefix idx j hj
  · exact h.valid_of_dirty
  · intro idx j
    by_cases hidx : idx = cache.setIndex addr
    · simp only [Cache.putSet, hidx, Function.update_self, hlines]
      by_cases hji : j = i
      · rw [hji, Function.update_self]
        exact fun _ ↦ hvalid
      · rw [Function.update_of_ne hji]
        exact h.valid_of_dirty _ j
    · simp only [Cache.putSet, Function.update_of_ne hidx]
      exact h.valid_of_dirty idx j

theorem uses {cache' : Cache} (huses : ReflTransGen CacheUse cache cache') :
    cache'.Represented b s := by
  induction huses with
  | refl => exact h
  | tail _ huse ih => exact ih.use huse

theorem wellFormed (idx : ℕ) : (cache.sets idx).WellFormed cache.A := by
  obtain ⟨orders, hinv⟩ := h.inv
  have hset := hinv.sets idx
  refine ⟨h.valid_prefix idx, fun i hi j hj hvalid hvalid' ↦ ?_,
    fun i _ ↦ h.valid_of_dirty idx i, fun hall ↦ ?_⟩
  · exact hset.tag_inj i ((hset.mem_iff i).mpr ⟨hi, hvalid⟩) j ((hset.mem_iff j).mpr ⟨hj, hvalid'⟩)
  · rcases h.lruSafe.sets idx with hlt | hinvalid
    · exact hlt
    · have hfirst := hall 0 h.lruSafe.A_pos
      rw [hinvalid 0] at hfirst
      cases hfirst

end Cache.Represented

/-- The block address of an evicted valid line is the one address that begins a block and that
`get_set` and `get_line` map to the set and the tag of the line. -/
theorem Cache.Inv.eq_evicted_block_addr_iff {cache : Cache} {b s : ℕ} {orders : ℕ → List ℕ}
    (hinv : cache.Inv b s orders) {addr : BitVec 64}
    (hvalid : (evictedLine cache addr).valid = true) (a : BitVec 64) :
    a = (evictedLine cache addr).block_addr ↔ cache.B ∣ a.toNat ∧
      cache.setIndex a = cache.setIndex addr ∧
      cache.tagOf a = ((cache.getSet addr).lines (selectLine cache addr)).tag := by
  have hlt := selectLine_lt (hinv.set addr) hinv.valid.A_pos
  obtain ⟨a', hset, htag⟩ := hinv.spelled _ _ (((hinv.set addr).mem_iff _).mpr ⟨hlt, hvalid⟩)
  rw [hinv.valid.evicted_block_addr hset htag.symm, hinv.valid.B_eq]
  have hbase := hinv.valid.blockAddress_toNat a'
  constructor
  · rintro rfl
    obtain ⟨hset', htag'⟩ :=
      hinv.valid.sameBlock_iff.mp (hinv.valid.sameBlock_blockAddress a')
    exact ⟨Dvd.intro_left _ hbase.symm, hset'.trans hset, htag'.trans htag⟩
  · rintro ⟨hdvd, hset', htag'⟩
    have hblock : SameBlock b a a' :=
      hinv.valid.sameBlock_iff.mpr ⟨hset'.trans hset.symm, htag'.trans htag.symm⟩
    apply BitVec.eq_of_toNat_eq
    rw [hbase, ← hblock, Nat.div_mul_cancel hdvd]

/-! ## The callers -/

/-- An access that is not a hit leaves the cache as it is. -/
theorem checkHit_false {cache cache' : Cache} (hA : cache.A ≤ 8) {n n' : Counters}
    {addr : BitVec 64} {operation : Operation}
    (h : checkHit cache n addr operation = .ok (false, cache', n')) :
    getLine cache addr = none ∧ cache' = cache := by
  cases hline : getLine cache addr with
  | none =>
    rw [checkHit_of_none hline] at h
    cases h
    exact ⟨rfl, rfl⟩
  | some i =>
    rw [checkHit_of_some hA hline] at h
    cases h

theorem accessData_uses {cache : Cache} (hA : cache.A ≤ 8) (n : Counters) (addr : BitVec 64)
    (operation : Operation) :
    Ensures (accessData cache n addr operation) fun r ↦ ReflTransGen CacheUse cache r.1 := by
  rintro r h
  obtain ⟨⟨hit, cache', n'⟩, hcheck, hrest⟩ := bind_eq_ok.mp h
  cases hit with
  | true =>
    cases hrest
    exact .single (.checkHit hcheck)
  | false =>
    obtain ⟨hmiss, rfl⟩ := checkHit_false hA hcheck
    obtain ⟨⟨evicted, cache'', n''⟩, hhandle, hrest⟩ := bind_eq_ok.mp hrest
    cases hrest
    exact .single (.handleMiss hmiss hhandle)

/-- A cache in memory is changed by such calls only. -/
def Mem.CacheUses (m m' : Mem) : Prop :=
  ∀ cache, m.cache = some cache → ∃ cache', m'.cache = some cache' ∧
    ReflTransGen CacheUse cache cache'

theorem Mem.CacheUses.of_eq {m m' : Mem} (h : m'.cache = m.cache) : m.CacheUses m' :=
  fun cache hcache ↦ ⟨cache, h.trans hcache, .refl⟩

theorem Mem.CacheUses.trans {m m' m'' : Mem} (h : m.CacheUses m') (h' : m'.CacheUses m'') :
    m.CacheUses m'' := by
  intro cache hcache
  obtain ⟨cache', hcache', huses⟩ := h cache hcache
  obtain ⟨cache'', hcache'', huses'⟩ := h' cache' hcache'
  exact ⟨cache'', hcache'', huses.trans huses'⟩

theorem armInflight_cache (m : Mem) (block_address : BitVec 64) (d : ℕ) :
    (armInflight m block_address d).cache = m.cache := by
  unfold armInflight
  split <;> rfl

/-- A block is brought in after one of its bytes has missed. -/
theorem cacheByte_uses {m : Mem} {cache : Cache} {b s : ℕ} (hcache : m.cache = some cache)
    (hvalid : cache.Valid b s) (current_address : BitVec 64) (fill : BlockFill)
    (operation : Operation) :
    Ensures (cacheByte m cache current_address fill operation) fun r ↦ m.CacheUses r.2 := by
  rintro r h
  obtain ⟨⟨hit, cache', n'⟩, hcheck, hrest⟩ := bind_eq_ok.mp h
  intro cache₀ hcache₀
  obtain rfl : cache = cache₀ := Option.some.inj (hcache.symm.trans hcache₀)
  cases hit with
  | true =>
    cases hrest
    exact ⟨cache', rfl, .single (.checkHit hcheck)⟩
  | false =>
    obtain ⟨hmiss, rfl⟩ := checkHit_false hvalid.A_le hcheck
    rw [← hvalid.getLine_congr (hvalid.sameBlock_blockAddress current_address)] at hmiss
    simp only [Bool.false_eq_true, ↓reduceIte] at hrest
    split at hrest
    · cases hrest
      exact ⟨cache', armInflight_cache _ _ _, .refl⟩
    · obtain ⟨m', hinstall, hrest⟩ := bind_eq_ok.mp hrest
      cases hrest
      obtain ⟨⟨evicted, cache'', n''⟩, hhandle, hrest⟩ := bind_eq_ok.mp hinstall
      cases hrest
      exact ⟨cache'', rfl, .single (.handleMiss hmiss hhandle)⟩

theorem cacheLoop_uses {b s : ℕ} (fill : Cache → BitVec 64 → BlockFill) (operation : Operation)
    (remaining : ℕ) (current_address : BitVec 64) {m : Mem}
    (hvalid : ∀ cache, m.cache = some cache → cache.Valid b s) :
    Ensures (cacheLoop fill operation remaining current_address m) fun r ↦
      m.CacheUses r.2 := by
  have hloop : Ensures (cacheLoop fill operation remaining current_address m) fun r ↦
      m.CacheUses r.2 ∧ ∀ cache, r.2.cache = some cache → cache.Valid b s := by
    refine cacheLoop_ensures
      (P := fun m' ↦ m.CacheUses m' ∧ ∀ cache, m'.cache = some cache → cache.Valid b s)
      (fun m' cache a h hcache ↦ ?_) remaining current_address ⟨.of_eq rfl, hvalid⟩
    have hcacheValid := h.2 cache hcache
    refine (cacheByte_uses hcache hcacheValid a _ operation).mono fun r hr ↦ ⟨h.1.trans hr, ?_⟩
    intro cache'' hcache''
    obtain ⟨cache', hcache', huses⟩ := hr cache hcache
    obtain rfl : cache' = cache'' := Option.some.inj (hcache'.symm.trans hcache'')
    exact hcacheValid.of_geometry
      (geometry_of_calls (ReflTransGen.mono (fun _ _ ↦ CacheUse.call) _ _ huses))
  exact hloop.mono fun _ h ↦ h.1

theorem memReadCache_uses {b s : ℕ} {m : Mem}
    (hvalid : ∀ cache, m.cache = some cache → cache.Valid b s) (addr : BitVec 64) (width : ℕ) :
    Ensures (memReadCache m addr width) fun r ↦ m.CacheUses r.1 :=
  memReadCache_ensures (cacheLoop_uses _ _ _ _ hvalid) fun _ huses ↦ huses

theorem memWriteCache_uses {b s : ℕ} {m : Mem}
    (hvalid : ∀ cache, m.cache = some cache → cache.Valid b s) (addr data : BitVec 64)
    (width : ℕ) : Ensures (memWriteCache m addr data width) m.CacheUses := by
  refine memWriteCache_ensures (cacheLoop_uses _ _ _ _ hvalid)
    fun m' cache cache' huses hcache hset ↦ huses.trans fun cache₀ hcache₀ ↦ ⟨cache', rfl, ?_⟩
  obtain rfl : cache = cache₀ := Option.some.inj (hcache.symm.trans hcache₀)
  exact .single (.setWordCache hset)

/-! ## The invariant -/

/-- Every cache that calls can reach from `create_cache` is well formed, and a miss that evicts a
valid line reports the address of its block. -/
theorem representation (config : CacheConfig) {cache : Cache}
    (huses : ReflTransGen CacheUse config.cache cache) :
    (∀ idx < cache.S, (cache.sets idx).WellFormed cache.A) ∧
      ∀ (n : Counters) (addr : BitVec 64) (operation : Operation) (data : ℕ → BitVec 8),
        getLine cache addr = none →
        ∃ evicted cache' n', handleMiss cache n addr operation data = .ok (evicted, cache', n') ∧
          (evicted.valid = true → ∀ a, a = evicted.block_addr ↔ cache.B ∣ a.toNat ∧
            cache.setIndex a = cache.setIndex addr ∧
            cache.tagOf a = ((cache.getSet addr).lines (selectLine cache addr)).tag) := by
  have hcache := (Cache.Represented.create config).uses huses
  obtain ⟨orders, hinv⟩ := hcache.inv
  refine ⟨fun idx _ ↦ hcache.wellFormed idx, fun n addr operation data _ ↦ ?_⟩
  exact ⟨_, _, _, handleMiss_eq hinv.valid.A_le n addr operation data,
    fun hvalid a ↦ hinv.eq_evicted_block_addr_iff hvalid a⟩

/-- The only line of a cache with one set is replaced. -/
theorem representation_oneLine : ∃ cache evicted cache' n',
    ReflTransGen CacheUse (createCache 1 8 8 0) cache ∧
      handleMiss cache {} 0x900004 .read (fun _ ↦ 0) = .ok (evicted, cache', n') ∧
      evicted.valid = true ∧ evicted.block_addr = 0x800000 := by
  have hvalid : (createCache 1 8 8 0).Valid 3 0 :=
    ⟨by decide, by decide, by decide, by decide, by decide, by decide⟩
  have huses : ReflTransGen CacheUse (createCache 1 8 8 0)
      (missCache (createCache 1 8 8 0) 0x800003 .read fun _ ↦ 0) :=
    .single (.handleMiss (by decide) (handleMiss_eq (by decide) {} _ _ _))
  obtain ⟨evicted, cache', n', hmiss, hblock⟩ :=
    (representation ⟨1, 8, 8, 0, 3, 0, hvalid, by decide⟩ huses).2 {} 0x900004 .read (fun _ ↦ 0)
      (by decide)
  have hevicted : evicted = evictedLine
      (missCache (createCache 1 8 8 0) 0x800003 .read fun _ ↦ 0) 0x900004 := by
    rw [handleMiss_eq (by decide)] at hmiss
    exact (congrArg Prod.fst (Except.ok.inj hmiss)).symm
  have hone : evicted.valid = true := by
    rw [hevicted]
    decide
  exact ⟨_, evicted, cache', n', huses, hmiss, hone,
    ((hblock hone 0x800000).mpr (by decide)).symm⟩

end SystemEmulator
