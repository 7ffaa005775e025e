import SystemEmulator.Memory.Frame
import SystemEmulator.Replacement.Resident
import SystemEmulator.Library.Overlay

/-!
# The bytes behind the cache

The pages with the lines of the cache on top form a write-back overlay.  Bringing in a block is a
replacement in this overlay, and it is invisible.
-/

namespace SystemEmulator

open Recency

/-! ## Block transfers -/

/-- The bytes of a block are read from the pages in order. -/
theorem fillBlock_snd (base : BitVec 64) (B n : ℕ) (hn : n ≤ B) (pt : Ptable)
    (block : ℕ → BitVec 8) (j : ℕ) : (fillBlock base B n pt block).2 j =
      if B - n ≤ j ∧ j < B then byteAt pt (base + BitVec.ofNat 64 j) else block j := by
  induction n generalizing pt block with
  | zero =>
    rw [fillBlock, if_neg (by omega)]
  | succ n ih =>
    rw [fillBlock, ih (by omega), byteAt_memReadLE, memReadLE_one]
    by_cases hj : j = B - (n + 1)
    · rw [if_neg (by omega), if_pos (by omega), hj, Function.update_self]
    · rw [Function.update_of_ne hj]
      by_cases hrange : B - n ≤ j ∧ j < B
      · rw [if_pos hrange, if_pos (by omega)]
      · rw [if_neg hrange, if_neg (by omega)]

theorem byteAt_fillBlock (base : BitVec 64) (B n : ℕ) (pt : Ptable) (block : ℕ → BitVec 8)
    (a : BitVec 64) : byteAt (fillBlock base B n pt block).1 a = byteAt pt a := by
  induction n generalizing pt block with
  | zero => rfl
  | succ n ih => rw [fillBlock, ih, byteAt_memReadLE]

/-- Writing back an evicted line changes the bytes of its block. -/
theorem byteAt_writeBack (pt : Ptable) (evicted : EvictedLine) {n : ℕ} (hn : n ≤ 2 ^ 32)
    (a : BitVec 64) : byteAt (writeBack pt evicted n) a =
      if (a - evicted.block_addr).toNat < n then evicted.data (a - evicted.block_addr).toNat
      else byteAt pt a := by
  induction n with
  | zero => rfl
  | succ n ih =>
    have hstep : writeBack pt evicted (n + 1) =
        memWriteLE (writeBack pt evicted n) (evicted.block_addr + BitVec.ofNat 64 n)
          ((evicted.data n).setWidth 64) 1 := by
      simp only [writeBack, List.range_succ, List.foldl_append, List.foldl_cons, List.foldl_nil]
    rw [hstep, byteAt_memWriteLE_one, ih (by omega)]
    simp only [eq_add_ofNat_iff (show n < 2 ^ 64 by omega)]
    by_cases hlast : (a - evicted.block_addr).toNat = n
    · rw [if_pos hlast, if_pos (by omega), hlast]
    · rw [if_neg hlast]
      by_cases hlow : (a - evicted.block_addr).toNat < n
      · rw [if_pos hlow, if_pos (by omega)]
      · rw [if_neg hlow, if_neg (by omega)]

/-! ## The overlay of a memory -/

namespace Mem

/-- The pages under the lines of the cache. -/
def overlay (m : Mem) : Overlay (BitVec 64) (BitVec 8) where
  base := byteAt m.ptable
  line := fun a ↦ m.cache.bind fun cache ↦ cache.resident a

/-- The bytes of the instruction words that begin below the data segment. -/
def pinned (m : Mem) (a : BitVec 64) : Prop := a.toNat / 4 * 4 < (m.seg_start_addr .data).toNat

/-- The memory has a cache in order, which agrees with the pages as far as it is clean. -/
structure CacheOk (b s : ℕ) (m : Mem) : Prop where
  inv : ∃ cache orders, m.cache = some cache ∧ cache.Inv b s orders
  coherent : m.overlay.Coherent m.pinned

/-- The memories hold the same bytes, input and output. -/
structure Kept (m m' : Mem) : Prop where
  view : ∀ a, m'.overlay.view a = m.overlay.view a
  seg_start_addr : m'.seg_start_addr = m.seg_start_addr
  stdin : m'.stdin = m.stdin
  stdin_pos : m'.stdin_pos = m.stdin_pos
  output : m'.output = m.output

theorem Kept.refl (m : Mem) : m.Kept m := ⟨fun _ ↦ rfl, rfl, rfl, rfl, rfl⟩

theorem Kept.symm {m m' : Mem} (h : m.Kept m') : m'.Kept m :=
  ⟨fun a ↦ (h.view a).symm, h.seg_start_addr.symm, h.stdin.symm, h.stdin_pos.symm, h.output.symm⟩

theorem Kept.trans {m₁ m₂ m₃ : Mem} (h : m₁.Kept m₂) (h' : m₂.Kept m₃) : m₁.Kept m₃ :=
  ⟨fun a ↦ (h'.view a).trans (h.view a), h'.seg_start_addr.trans h.seg_start_addr,
    h'.stdin.trans h.stdin, h'.stdin_pos.trans h.stdin_pos, h'.output.trans h.output⟩

/-- The bytes of the text segment are seen in the pages. -/
theorem CacheOk.byteAt_pinned {b s : ℕ} {m : Mem} (h : m.CacheOk b s) {a : BitVec 64}
    (ha : m.pinned a) : byteAt m.ptable a = m.overlay.view a :=
  (h.coherent.view_pinned ha).symm

end Mem

/-! ## Hits, stores and misses -/

section

variable {m : Mem} {b s : ℕ} {cache : Cache} {orders : ℕ → List ℕ}

def Mem.withCache (m : Mem) (cache : Cache) (n : Counters) : Mem :=
  { m with cache := some cache, counters := n }

/-- Putting a line back as it was does not change the overlay. -/
theorem overlay_read (hcache : m.cache = some cache) (hinv : cache.Inv b s orders)
    {addr : BitVec 64} {i : ℕ} (hline : getLine cache addr = some i) {set : CacheSet}
    (hlines : set.lines =
      Function.update (cache.getSet addr).lines i ((cache.getSet addr).lines i))
    (n : Counters) : (m.withCache (cache.putSet addr set) n).overlay = m.overlay := by
  apply Overlay.ext
  · intro a
    rfl
  · intro a
    change (cache.putSet addr set).resident a = m.cache.bind _
    rw [hcache, Option.bind_some, Cache.Inv.resident_putSet hlines rfl rfl hinv hline a]
    by_cases hblock : SameBlock b a addr
    · rw [if_pos hblock, Cache.resident, hinv.valid.getLine_congr hblock, hline, Option.map_some,
        hinv.valid.getSet_congr hblock]
    · rw [if_neg hblock]

/-- A line whose data is changed by `f` and that becomes dirty. -/
theorem overlay_write (hcache : m.cache = some cache) (hinv : cache.Inv b s orders)
    {addr : BitVec 64} {i : ℕ} (hline : getLine cache addr = some i) {set : CacheSet}
    {line : CacheLine} (hlines : set.lines = Function.update (cache.getSet addr).lines i line)
    (hvalid : line.valid = ((cache.getSet addr).lines i).valid)
    (htag : line.tag = ((cache.getSet addr).lines i).tag) (hdirty : line.dirty = true)
    (n : Counters) {f : BitVec 64 → BitVec 8 → BitVec 8}
    (hf : ∀ a, SameBlock b a addr → line.data (cache.offset a) =
      f a (((cache.getSet addr).lines i).data (cache.offset a))) :
    (m.withCache (cache.putSet addr set) n).overlay =
      m.overlay.write (fun a ↦ SameBlock b a addr) f := by
  apply Overlay.ext
  · intro a
    rfl
  · intro a
    change (cache.putSet addr set).resident a =
      if _ then Option.map _ (m.cache.bind _) else m.cache.bind _
    rw [hcache, Option.bind_some, Cache.Inv.resident_putSet hlines hvalid htag hinv hline a]
    by_cases hblock : SameBlock b a addr
    · rw [if_pos hblock, if_pos hblock, Cache.resident, hinv.valid.getLine_congr hblock, hline,
        Option.map_some, Option.map_some, hinv.valid.getSet_congr hblock, hf a hblock, hdirty]
    · rw [if_neg hblock, if_neg hblock]

def newLine (cache : Cache) (addr : BitVec 64) (operation : Operation) (data : ℕ → BitVec 8) :
    CacheLine :=
  { valid := true, tag := cache.tagOf addr, dirty := operation == .write, data := data }

theorem newLine_valid (cache : Cache) (addr : BitVec 64) (operation : Operation)
    (data : ℕ → BitVec 8) : (newLine cache addr operation data).valid = true := rfl

theorem newLine_tag (cache : Cache) (addr : BitVec 64) (operation : Operation)
    (data : ℕ → BitVec 8) : (newLine cache addr operation data).tag = cache.tagOf addr := rfl

theorem missCache_eq (cache : Cache) (addr : BitVec 64) (operation : Operation)
    (data : ℕ → BitVec 8) : missCache cache addr operation data =
      cache.touchLine addr (selectLine cache addr) (newLine cache addr operation data) := rfl

/-- The addresses whose block `handle_miss` evicts. -/
def Victim (cache : Cache) (addr a : BitVec 64) : Prop :=
  cache.setIndex a = cache.setIndex addr ∧ getLine cache a = some (selectLine cache addr)

instance (cache : Cache) (addr : BitVec 64) : DecidablePred (Victim cache addr) :=
  fun _ ↦ inferInstanceAs (Decidable (_ ∧ _))

/-- The memory after a block has been fetched from its own address and installed. -/
def missMem (m : Mem) (cache : Cache) (addr : BitVec 64) (word : Option ℕ)
    (operation : Operation) : Mem :=
  { m with
    ptable :=
      if (evictedLine cache addr).valid && (evictedLine cache addr).dirty then
        writeBack (fillBlock (cache.blockAddress addr) cache.B cache.B m.ptable fun _ ↦ 0).1
          (evictedLine cache addr) cache.B
      else (fillBlock (cache.blockAddress addr) cache.B cache.B m.ptable fun _ ↦ 0).1
    cache := some (missCache cache addr operation
      (fillBlock (cache.blockAddress addr) cache.B cache.B m.ptable fun _ ↦ 0).2)
    counters := countEviction m.counters ((cache.getSet addr).lines (selectLine cache addr))
    inflight := false
    undefined := m.undefined || (BlockFill.mk (cache.blockAddress addr) word).overruns cache.B }

theorem installBlock_eq (hA : cache.A ≤ 8) (addr : BitVec 64) (word : Option ℕ)
    (operation : Operation) :
    installBlock m cache addr ⟨cache.blockAddress addr, word⟩ operation =
      .ok (missMem m cache addr word operation) := by
  unfold installBlock
  simp only [handleMiss_eq hA, bind, Except.bind]
  rfl

/-- What `handle_miss` evicts, seen from an address of the evicted block. -/
theorem resident_of_victim (hinv : cache.Inv b s orders) {addr a : BitVec 64}
    (hvictim : Victim cache addr a) : (evictedLine cache addr).valid = true ∧
      (evictedLine cache addr).block_addr = cache.blockAddress a ∧
      cache.resident a = some ((evictedLine cache addr).data (cache.offset a),
        (evictedLine cache addr).dirty) := by
  obtain ⟨hset, hget⟩ := hvictim
  have hgetSet := Cache.getSet_of_eq hset
  obtain ⟨hmem, htag⟩ := (getLine_eq_some (hinv.set a)).mp hget
  rw [hgetSet] at htag
  have hvalid := (((hinv.set a).mem_iff _).mp hmem).2
  rw [hgetSet] at hvalid
  refine ⟨hvalid, hinv.valid.evicted_block_addr hset htag, ?_⟩
  rw [Cache.resident, hget, Option.map_some, hgetSet]
  rfl

/-- A valid line that `handle_miss` evicts holds the block of some address. -/
theorem exists_victim (hinv : cache.Inv b s orders) {addr : BitVec 64}
    (hvalid : (evictedLine cache addr).valid = true) :
    ∃ a, (evictedLine cache addr).block_addr = cache.blockAddress a ∧
      ∀ a', SameBlock b a' a → Victim cache addr a' := by
  have hlt := selectLine_lt (hinv.set addr) hinv.valid.A_pos
  have hmem := ((hinv.set addr).mem_iff _).mpr ⟨hlt, hvalid⟩
  obtain ⟨a, hset, htag⟩ := hinv.spelled _ _ hmem
  refine ⟨a, hinv.valid.evicted_block_addr hset htag.symm, fun a' hblock ↦ ?_⟩
  obtain ⟨hset', htag'⟩ := hinv.valid.sameBlock_iff.mp hblock
  have hgetSet := Cache.getSet_of_eq (hset'.trans hset)
  refine ⟨hset'.trans hset, (getLine_eq_some (hinv.set a')).mpr ?_⟩
  rw [hset', hset, hgetSet, htag', htag]
  exact ⟨hmem, rfl⟩

/-- Installing a block is a replacement in the overlay. -/
theorem overlay_missMem (hcache : m.cache = some cache) (hinv : cache.Inv b s orders)
    {addr : BitVec 64} (hline : getLine cache addr = none) (word : Option ℕ)
    (operation : Operation) : (missMem m cache addr word operation).overlay =
      m.overlay.replace (fun a ↦ SameBlock b a addr) (Victim cache addr) (operation == .write) := by
  obtain ⟨hlt, hother⟩ := missCache_touchable hinv hline
  have hB : cache.B = 2 ^ b := hinv.valid.B_eq
  have hBle : cache.B ≤ 2 ^ 32 := by
    rw [hB]
    exact Nat.pow_le_pow_right (by decide) (by have := hinv.valid.bits_lt; omega)
  apply Overlay.ext
  · intro a
    change byteAt (missMem m cache addr word operation).ptable a =
      (m.overlay.replace (fun a ↦ SameBlock b a addr) (Victim cache addr) _).base a
    by_cases hvictim : Victim cache addr a
    · obtain ⟨hvalid, hbase, hres⟩ := resident_of_victim hinv hvictim
      have hres' : m.overlay.line a = some ((evictedLine cache addr).data (cache.offset a),
          (evictedLine cache addr).dirty) := by
        change m.cache.bind _ = _
        rw [hcache, Option.bind_some, hres]
      simp only [missMem, Overlay.replace, hvictim, ↓reduceIte, hres', hvalid, Bool.true_and]
      cases hdirty : (evictedLine cache addr).dirty with
      | false =>
        simp only [Bool.false_eq_true, ↓reduceIte]
        exact byteAt_fillBlock _ _ _ _ _ _
      | true =>
        have hdist : (a - (evictedLine cache addr).block_addr).toNat = cache.offset a := by
          rw [hbase]
          exact hinv.valid.sub_blockAddress rfl
        simp only [↓reduceIte]
        rw [byteAt_writeBack _ _ hBle, hdist, if_pos (hB ▸ hinv.valid.offset_lt a)]
    · simp only [missMem, Overlay.replace, hvictim, ↓reduceIte]
      by_cases hwrite : ((evictedLine cache addr).valid && (evictedLine cache addr).dirty) = true
      · rw [if_pos hwrite]
        obtain ⟨a', hbase, hblock⟩ := exists_victim hinv (Bool.and_eq_true_iff.mp hwrite).1
        have hout : ¬(a - (evictedLine cache addr).block_addr).toNat < cache.B := by
          rw [hbase, hB, hinv.valid.sub_blockAddress_lt_iff]
          exact fun hcontra ↦ hvictim (hblock a hcontra)
        rw [byteAt_writeBack _ _ hBle, if_neg hout]
        exact byteAt_fillBlock _ _ _ _ _ _
      · rw [if_neg hwrite]
        exact byteAt_fillBlock _ _ _ _ _ _
  · intro a
    change (missCache cache addr operation _).resident a =
      if _ then some (byteAt m.ptable a, _) else if _ then none else m.cache.bind _
    rw [hcache, Option.bind_some]
    rw [missCache_eq, hinv.resident_touchLine hlt (newLine_valid _ _ _ _) (newLine_tag _ _ _ _)
      hother a]
    by_cases hblock : SameBlock b a addr
    · have hoffset := hinv.valid.offset_lt a
      rw [if_pos hblock, if_pos hblock]
      simp only [newLine]
      rw [fillBlock_snd _ _ _ le_rfl, if_pos (by omega), hinv.valid.blockAddress_add_offset hblock]
    · rw [if_neg hblock, if_neg hblock]
      rfl

end

end SystemEmulator
