import SystemEmulator.Memory.CachedBytes

/-!
# One attempt of a cached access

An attempt whose eight bytes lie in one block either waits, and then only the counters and the timer
move, or is served: the bytes are resident and nothing that a program can see has changed.
-/

namespace SystemEmulator

open LittleEndian

/-- The eight bytes from the address on lie in one block. -/
def InBlock (b : ℕ) (addr : BitVec 64) : Prop := addr.toNat % 2 ^ b + 8 ≤ 2 ^ b

instance (b : ℕ) (addr : BitVec 64) : Decidable (InBlock b addr) :=
  inferInstanceAs (Decidable (_ ≤ _))

theorem inBlock_of_aligned {b : ℕ} (hb : 3 ≤ b) {addr : BitVec 64} (h : addr.toNat % 8 = 0) :
    InBlock b addr := by
  have hsplit : 2 ^ b = 8 * 2 ^ (b - 3) := by
    rw [show (8 : ℕ) = 2 ^ 3 from rfl, ← pow_add, Nat.add_sub_cancel' hb]
  have hlt : addr.toNat % 2 ^ b < 2 ^ b := Nat.mod_lt _ (by positivity)
  have hmod : addr.toNat % 2 ^ b % 8 = 0 := by
    rw [hsplit, Nat.mod_mul_right_mod, h]
  unfold InBlock
  omega

section

variable {cache : Cache} {b s : ℕ} {addr : BitVec 64}

theorem InBlock.add_toNat (hvalid : cache.Valid b s) (h : InBlock b addr) {i : ℕ} (hi : i < 8) :
    (addr + BitVec.ofNat 64 i).toNat = addr.toNat + i := by
  have hend := hvalid.blockAddress_add_le addr
  have haddr := hvalid.toNat_eq addr
  have hoffset := hvalid.offset_eq addr
  unfold InBlock at h
  rw [BitVec.toNat_add, BitVec.toNat_ofNat]
  omega

theorem InBlock.sameBlock (hvalid : cache.Valid b s) (h : InBlock b addr) {i : ℕ} (hi : i < 8) :
    SameBlock b (addr + BitVec.ofNat 64 i) addr := by
  have hdiv := Nat.div_add_mod' addr.toNat (2 ^ b)
  unfold SameBlock
  rw [h.add_toNat hvalid hi]
  unfold InBlock at h
  exact Nat.div_eq_of_lt_le (by omega) (by rw [Nat.succ_mul]; omega)

theorem InBlock.offset_add (hvalid : cache.Valid b s) (h : InBlock b addr) {i : ℕ} (hi : i < 8) :
    cache.offset (addr + BitVec.ofNat 64 i) = cache.offset addr + i := by
  have hblock := h.sameBlock hvalid hi
  have haddr := hvalid.toNat_eq addr
  have haddr' := hvalid.toNat_eq (addr + BitVec.ofNat 64 i)
  rw [hvalid.blockAddress_congr hblock, h.add_toNat hvalid hi] at haddr'
  omega

/-- The eight bytes of an access, among those of its block. -/
theorem Cache.Valid.offset_iff (hvalid : cache.Valid b s) {a : BitVec 64}
    (hblock : SameBlock b a addr) :
    (cache.offset addr ≤ cache.offset a ∧ cache.offset a < cache.offset addr + 8) ↔
      (a - addr).toNat < 8 := by
  have ha := hvalid.toNat_eq a
  have haddr := hvalid.toNat_eq addr
  have hend := hvalid.blockAddress_add_le addr
  have hoffset := hvalid.offset_lt a
  rw [hvalid.blockAddress_congr hblock] at ha
  rw [BitVec.toNat_sub]
  have hlt := hvalid.bits_lt
  have hpow : 2 ^ b < 2 ^ 32 := Nat.pow_lt_pow_right (by decide) (by omega)
  have hlow := hvalid.offset_lt addr
  omega

theorem Cache.Valid.sub_toNat (hvalid : cache.Valid b s) {a : BitVec 64}
    (hblock : SameBlock b a addr) (hle : cache.offset addr ≤ cache.offset a) :
    (a - addr).toNat = cache.offset a - cache.offset addr := by
  have ha := hvalid.toNat_eq a
  have haddr := hvalid.toNat_eq addr
  rw [hvalid.blockAddress_congr hblock] at ha
  rw [BitVec.toNat_sub_of_le (by rw [BitVec.le_def]; omega)]
  omega

theorem InBlock.sub_lt (hvalid : cache.Valid b s) (h : InBlock b addr) {a : BitVec 64}
    (hlt : (a - addr).toNat < 8) : SameBlock b a addr := by
  have ha := (eq_add_ofNat_iff (show (a - addr).toNat < 2 ^ 64 by omega)).mpr rfl
  rw [ha]
  exact h.sameBlock hvalid hlt

end

/-! ## Words in a line -/

theorem foldr_word (f : ℕ → BitVec 8) (n : ℕ) (acc : BitVec 64) :
    (List.range n).foldr (fun i (w : BitVec 64) ↦ (w <<< 8) ||| (f i).setWidth 64) acc =
      word f n ||| (acc <<< (8 * n)) := by
  induction n generalizing acc with
  | zero => simp [word]
  | succ n ih =>
    rw [List.range_succ, List.foldr_append, List.foldr_cons, List.foldr_nil, ih, word,
      BitVec.shiftLeft_or_distrib, ← BitVec.shiftLeft_add, Nat.mul_add, Nat.mul_one,
      Nat.add_comm 8, BitVec.or_assoc, BitVec.or_comm (acc <<< _)]

theorem wordAt_eq (data : ℕ → BitVec 8) (offset : ℕ) :
    wordAt data offset = word (fun i ↦ data (offset + i)) 8 := by
  rw [wordAt, foldr_word (fun i ↦ data (offset + i))]
  simp

/-! ## One byte -/

/-- At most the counters, the timer and the status of the data port move. -/
structure Mem.Idles (m m' : Mem) : Prop where
  ptable : m'.ptable = m.ptable
  cache : m'.cache = m.cache
  seg_start_addr : m'.seg_start_addr = m.seg_start_addr
  stdin : m'.stdin = m.stdin
  stdin_pos : m'.stdin_pos = m.stdin_pos
  output : m'.output = m.output

namespace Mem.Idles

variable {m m' : Mem} (h : m.Idles m')
include h

theorem overlay : m'.overlay = m.overlay := by
  unfold Mem.overlay
  rw [h.ptable, h.cache]

theorem kept : m.Kept m' :=
  ⟨fun a ↦ by rw [h.overlay], h.seg_start_addr, h.stdin, h.stdin_pos, h.output⟩

theorem cacheOk {b s : ℕ} (hm : m.CacheOk b s) : m'.CacheOk b s := by
  constructor
  · rw [h.cache]
    exact hm.inv
  · unfold Mem.pinned
    rw [h.overlay, h.seg_start_addr]
    exact hm.coherent

end Mem.Idles

/-- The memory after `inflight_cycles` has been counted down once. -/
def Mem.countDown (m : Mem) (block_address : BitVec 64) (d : ℕ) : Mem :=
  { armInflight m block_address d with
    inflight_cycles := (armInflight m block_address d).inflight_cycles - 1 }

theorem Mem.idles_countDown (m : Mem) (block_address : BitVec 64) (d : ℕ) :
    m.Idles (m.countDown block_address d) := by
  unfold Mem.countDown armInflight
  split <;> exact ⟨rfl, rfl, rfl, rfl, rfl, rfl⟩

/-- The attempts that still wait for the block. -/
def Mem.attemptsLeft (m : Mem) (block_address : BitVec 64) (d : ℕ) : ℕ :=
  (m.countDown block_address d).inflight_cycles.toNat

/-- Only the timer counts. -/
theorem Mem.attemptsLeft_congr {m m' : Mem} (hinflight : m'.inflight = m.inflight)
    (haddr : m'.inflight_addr = m.inflight_addr) (hcycles : m'.inflight_cycles = m.inflight_cycles)
    (block_address : BitVec 64) (d : ℕ) :
    m'.attemptsLeft block_address d = m.attemptsLeft block_address d := by
  unfold Mem.attemptsLeft Mem.countDown armInflight
  rw [hinflight, haddr]
  split
  · rfl
  · simp only [hcycles]

/-- After a decrement the timer is armed for the block. -/
theorem Mem.countDown_armed (m : Mem) (block_address : BitVec 64) (d : ℕ) :
    (m.countDown block_address d).inflight = true ∧
      (m.countDown block_address d).inflight_addr = block_address := by
  unfold Mem.countDown armInflight
  split
  · exact ⟨rfl, rfl⟩
  · rename_i hcond
    rw [not_or, not_not, not_not] at hcond
    exact ⟨hcond.2, hcond.1⟩

/-- Each attempt that waits leaves one attempt less. -/
theorem Mem.attemptsLeft_countDown (m : Mem) (block_address : BitVec 64) (d : ℕ)
    (hpos : m.attemptsLeft block_address d > 0) :
    (m.countDown block_address d).attemptsLeft block_address d + 1 =
      m.attemptsLeft block_address d := by
  have harmed := m.countDown_armed block_address d
  unfold Mem.attemptsLeft at hpos ⊢
  generalize m.countDown block_address d = n at harmed hpos ⊢
  have harm : armInflight n block_address d = n := by
    unfold armInflight
    rw [if_neg (by simp [harmed.1, harmed.2])]
  unfold Mem.countDown
  rw [harm]
  change (n.inflight_cycles - 1).toNat + 1 = n.inflight_cycles.toNat
  have hone : (1 : BitVec 64).toNat = 1 := rfl
  rw [BitVec.toNat_sub_of_le (by rw [BitVec.le_def, hone]; omega), hone]
  omega

/-- The memory after an attempt that served the access. -/
structure Mem.Served (b s : ℕ) (addr : BitVec 64) (m m' : Mem) : Prop where
  cacheOk : m'.CacheOk b s
  kept : m.Kept m'
  resident : m'.overlay.line addr ≠ none

section

variable {m : Mem} {b s : ℕ} {cache : Cache} {addr : BitVec 64}

theorem Mem.line_eq (hcache : m.cache = some cache) (a : BitVec 64) :
    m.overlay.line a = cache.resident a := by
  change m.cache.bind _ = _
  rw [hcache, Option.bind_some]

theorem CacheLine.access_read (line : CacheLine) : line.access .read = line := by
  have hread : (Operation.read == Operation.write) = false := rfl
  simp only [CacheLine.access, hread, Bool.or_false]

theorem CacheLine.access_write_dirty (line : CacheLine) : (line.access .write).dirty = true := by
  simp [CacheLine.access]

/-- All bytes of a block are resident together. -/
theorem Mem.CacheOk.line_congr (hm : m.CacheOk b s) {a a' : BitVec 64} (hblock : SameBlock b a a') :
    m.overlay.line a ≠ none ↔ m.overlay.line a' ≠ none := by
  obtain ⟨cache, orders, hcache, hinv⟩ := hm.inv
  rw [Mem.line_eq hcache, Mem.line_eq hcache]
  exact hinv.resident_congr hblock

/-- A write to resident bytes of the block, which leaves the pinned bytes alone, serves it. -/
theorem served_of_write {m' : Mem} {f : BitVec 64 → BitVec 8 → BitVec 8} (hm : m.CacheOk b s)
    (hinv : ∃ cache orders, m'.cache = some cache ∧ cache.Inv b s orders)
    (hseg : m'.seg_start_addr = m.seg_start_addr) (hresident : m.overlay.line addr ≠ none)
    (hoverlay : m'.overlay = m.overlay.write (fun a ↦ SameBlock b a addr) f)
    (hf : ∀ a v, SameBlock b a addr → m.pinned a → f a v = v) :
    m'.CacheOk b s ∧ m'.overlay.line addr ≠ none ∧ ∀ a, m'.overlay.view a =
      if SameBlock b a addr then f a (m.overlay.view a) else m.overlay.view a := by
  refine ⟨⟨hinv, ?_⟩, ?_, fun a ↦ ?_⟩
  · rw [hoverlay, show m'.pinned = m.pinned by unfold Mem.pinned; rw [hseg]]
    exact hm.coherent.write hf
  · rw [hoverlay]
    have hself : SameBlock b addr addr := rfl
    simpa only [Overlay.write, hself, ↓reduceIte, ne_eq, Option.map_eq_none_iff] using hresident
  · rw [hoverlay]
    exact Overlay.view_write (fun a hblock ↦ (hm.line_congr hblock).mpr hresident) a

/-- The memory after a hit on line `i`. -/
def hitMem (m : Mem) (cache : Cache) (addr : BitVec 64) (i : ℕ) (operation : Operation) : Mem :=
  m.withCache (cache.touchLine addr i (((cache.getSet addr).lines i).access operation))
    { m.counters with hit_count := m.counters.hit_count + 1 }

/-- A hit serves the block. -/
theorem served_hitMem (hm : m.CacheOk b s) (hcache : m.cache = some cache) {i : ℕ}
    (hline : getLine cache addr = some i) (operation : Operation) :
    m.Served b s addr (hitMem m cache addr i operation) := by
  obtain ⟨cache', orders, hcache', hinv⟩ := hm.inv
  obtain rfl : cache = cache' := Option.some.inj (hcache.symm.trans hcache')
  have hresident : m.overlay.line addr ≠ none := by
    rw [Mem.line_eq hcache]
    exact Cache.resident_ne_none.mpr ⟨i, hline⟩
  have hinv' : ∃ cache' orders, (hitMem m cache addr i operation).cache = some cache' ∧
      cache'.Inv b s orders := ⟨_, _, rfl, hinv.touchLine_hit hline operation⟩
  have hlines := CacheSet.touchLine_lines (cache.getSet addr) cache.A i
    (((cache.getSet addr).lines i).access operation)
  cases operation with
  | read =>
    rw [CacheLine.access_read] at hlines
    have hoverlay : (hitMem m cache addr i .read).overlay = m.overlay := by
      unfold hitMem
      rw [CacheLine.access_read]
      exact overlay_read hcache hinv hline hlines _
    refine ⟨⟨hinv', ?_⟩, ⟨fun a ↦ ?_, rfl, rfl, rfl, rfl⟩, ?_⟩
    · rw [hoverlay]
      exact hm.coherent
    · rw [hoverlay]
    · rw [hoverlay]
      exact hresident
  | write =>
    have hoverlay : (hitMem m cache addr i .write).overlay =
        m.overlay.write (fun a ↦ SameBlock b a addr) fun _ v ↦ v :=
      overlay_write hcache hinv hline hlines rfl rfl (CacheLine.access_write_dirty _) _
        fun a _ ↦ rfl
    obtain ⟨hok, hres, hview⟩ := served_of_write hm hinv' rfl hresident hoverlay
      fun _ _ _ _ ↦ rfl
    exact ⟨hok, ⟨fun a ↦ (hview a).trans (ite_self _), rfl, rfl, rfl, rfl⟩, hres⟩

/-- A byte of a resident block is a hit. -/
theorem cacheByte_hit (hm : m.CacheOk b s) (hcache : m.cache = some cache)
    (hresident : m.overlay.line addr ≠ none) (fill : BlockFill) (operation : Operation) :
    ∃ m', cacheByte m cache addr fill operation = .ok (true, m') ∧ m.Served b s addr m' := by
  obtain ⟨cache', orders, hcache', hinv⟩ := hm.inv
  obtain rfl : cache = cache' := Option.some.inj (hcache.symm.trans hcache')
  obtain ⟨i, hline⟩ := Cache.resident_ne_none.mp (Mem.line_eq hcache addr ▸ hresident)
  refine ⟨hitMem m cache addr i operation, ?_, served_hitMem hm hcache hline operation⟩
  unfold cacheByte
  rw [checkHit_of_some hinv.valid.A_le hline]
  rfl

/-- Fetching and installing a block serves it. -/
theorem served_missMem (hm : m.CacheOk b s) (hcache : m.cache = some cache)
    (hline : getLine cache addr = none) (word : Option ℕ) (operation : Operation) :
    m.Served b s addr (missMem m cache addr word operation) := by
  obtain ⟨cache', orders, hcache', hinv⟩ := hm.inv
  obtain rfl : cache = cache' := Option.some.inj (hcache.symm.trans hcache')
  obtain ⟨hlt, hother⟩ := missCache_touchable hinv hline
  have hinv' := hinv.touchLine hlt (newLine_valid cache addr operation _)
    (newLine_tag cache addr operation
      (fillBlock (cache.blockAddress addr) cache.B cache.B m.ptable fun _ ↦ 0).2) hother
  have hoverlay := overlay_missMem hcache hinv hline word operation
  have hnew : ∀ a, SameBlock b a addr → m.overlay.line a = none := by
    intro a hblock
    rw [Mem.line_eq hcache]
    exact Cache.resident_eq_none ((hinv.valid.getLine_congr hblock).trans hline)
  have hdisjoint : ∀ a, SameBlock b a addr → ¬Victim cache addr a := by
    intro a hblock hvictim
    have hcontra := hvictim.2
    rw [hinv.valid.getLine_congr hblock, hline] at hcontra
    cases hcontra
  refine ⟨⟨⟨_, _, rfl, hinv'⟩, ?_⟩, ⟨fun a ↦ ?_, rfl, rfl, rfl, rfl⟩, ?_⟩
  · rw [hoverlay]
    exact hm.coherent.replace hdisjoint
  · rw [hoverlay]
    exact hm.coherent.view_replace hnew a
  · have hself : SameBlock b addr addr := rfl
    rw [hoverlay]
    simp only [Overlay.replace, hself, ↓reduceIte]
    exact Option.some_ne_none _

structure Mem.Waits (m m' : Mem) (block_address : BitVec 64) (d : ℕ) : Prop where
  idles : m.Idles m'
  dmem_status : m'.dmem_status = .inFlight
  attemptsLeft : m'.attemptsLeft block_address d + 1 = m.attemptsLeft block_address d

theorem Mem.Served.of_idles {m₁ m₂ : Mem} {addr' : BitVec 64} (hidles : m.Idles m₁)
    (h : m₁.Served b s addr' m₂) (hblock : SameBlock b addr' addr) : m.Served b s addr m₂ :=
  ⟨h.cacheOk, hidles.kept.trans h.kept, (h.cacheOk.line_congr hblock).mp h.resident⟩

/-- A byte of a missing block starts a fill, goes on waiting for it, or installs the block. -/
theorem cacheByte_miss (hm : m.CacheOk b s) (hcache : m.cache = some cache)
    (hline : getLine cache addr = none) (word : Option ℕ) (operation : Operation) :
    ∃ continue_ m', cacheByte m cache addr ⟨cache.blockAddress addr, word⟩ operation =
        .ok (continue_, m') ∧
      (continue_ = true ∧ m.Served b s addr m' ∨
        continue_ = false ∧ m.Waits m' (cache.blockAddress addr) cache.d) := by
  obtain ⟨cache', orders, hcache', hinv⟩ := hm.inv
  obtain rfl : cache = cache' := Option.some.inj (hcache.symm.trans hcache')
  have hsame := hinv.valid.sameBlock_blockAddress addr
  have hline' : getLine cache (cache.blockAddress addr) = none :=
    (hinv.valid.getLine_congr hsame).trans hline
  obtain ⟨m₁, hm₁⟩ : ∃ m₁, m₁ = m.withCache cache
    { m.counters with miss_count := m.counters.miss_count + 1 } := ⟨_, rfl⟩
  have hidles₁ : m.Idles m₁ := by
    rw [hm₁]
    exact ⟨rfl, hcache.symm, rfl, rfl, rfl, rfl⟩
  have hleft : m₁.attemptsLeft (cache.blockAddress addr) cache.d =
      m.attemptsLeft (cache.blockAddress addr) cache.d := by
    rw [hm₁]
    apply Mem.attemptsLeft_congr <;> rfl
  have hidles := m₁.idles_countDown (cache.blockAddress addr) cache.d
  have hunfold : cacheByte m cache addr ⟨cache.blockAddress addr, word⟩ operation =
      if (m₁.countDown (cache.blockAddress addr) cache.d).inflight_cycles > 0 then
        .ok (false,
          { m₁.countDown (cache.blockAddress addr) cache.d with dmem_status := .inFlight })
      else (installBlock (m₁.countDown (cache.blockAddress addr) cache.d) cache
        (cache.blockAddress addr) ⟨cache.blockAddress addr, word⟩ operation).map
          fun m ↦ (true, m) := by
    unfold cacheByte
    rw [checkHit_of_none hline, hm₁]
    rfl
  rw [hunfold]
  by_cases hwait : (m₁.countDown (cache.blockAddress addr) cache.d).inflight_cycles > 0
  · rw [if_pos hwait]
    refine ⟨false, _, rfl, .inr ⟨rfl, ?_, rfl, ?_⟩⟩
    · exact ⟨hidles.ptable.trans hidles₁.ptable, hidles.cache.trans hidles₁.cache,
        hidles.seg_start_addr.trans hidles₁.seg_start_addr, hidles.stdin.trans hidles₁.stdin,
        hidles.stdin_pos.trans hidles₁.stdin_pos, hidles.output.trans hidles₁.output⟩
    · rw [← hleft, ← m₁.attemptsLeft_countDown _ _ hwait]
      congr 1
      apply Mem.attemptsLeft_congr <;> rfl
  · rw [if_neg hwait]
    have hcache₂ : (m₁.countDown (cache.blockAddress addr) cache.d).cache = some cache := by
      rw [hidles.cache, hidles₁.cache, hcache]
    have hserved :=
      served_missMem (hidles.cacheOk (hidles₁.cacheOk hm)) hcache₂ hline' word operation
    have hinstall := installBlock_eq (m := m₁.countDown (cache.blockAddress addr) cache.d)
      hinv.valid.A_le (cache.blockAddress addr) word operation
    rw [hinv.valid.blockAddress_congr hsame] at hinstall
    rw [hinstall]
    refine ⟨true, _, rfl, .inl ⟨rfl, ?_⟩⟩
    exact Mem.Served.of_idles ⟨hidles.ptable.trans hidles₁.ptable,
      hidles.cache.trans hidles₁.cache, hidles.seg_start_addr.trans hidles₁.seg_start_addr,
      hidles.stdin.trans hidles₁.stdin, hidles.stdin_pos.trans hidles₁.stdin_pos,
      hidles.output.trans hidles₁.output⟩ hserved hsame

/-! ## All bytes -/

/-- The bytes after the first one. -/
theorem bytes_tail {b n : ℕ} {current_address addr : BitVec 64}
    (h : ∀ i < n + 1, SameBlock b (current_address + BitVec.ofNat 64 i) addr) :
    ∀ i < n, SameBlock b (current_address + 1 + BitVec.ofNat 64 i) addr := by
  intro i hi
  have hnext := h (i + 1) (by omega)
  rwa [BitVec.ofNat_add, BitVec.add_comm (BitVec.ofNat 64 i), ← BitVec.add_assoc] at hnext

/-- When the block is resident, all bytes are hits; the induction is on the bytes that are left. -/
theorem cacheLoop_resident (fill : Cache → BitVec 64 → BlockFill) (operation : Operation)
    (n : ℕ) (current_address : BitVec 64) (hm : m.CacheOk b s)
    (hresident : m.overlay.line addr ≠ none)
    (hbytes : ∀ i < n, SameBlock b (current_address + BitVec.ofNat 64 i) addr) :
    ∃ m', cacheLoop fill operation n current_address m = .ok (true, m') ∧
      m.Served b s addr m' := by
  induction n generalizing m current_address with
  | zero => exact ⟨m, rfl, hm, Mem.Kept.refl m, hresident⟩
  | succ n ih =>
    obtain ⟨cache, orders, hcache, hinv⟩ := hm.inv
    have hfirst : SameBlock b current_address addr := by
      have hzero := hbytes 0 (by omega)
      rwa [show BitVec.ofNat 64 0 = 0#64 from rfl, BitVec.add_zero] at hzero
    obtain ⟨m₁, hbyte, hserved₁⟩ := cacheByte_hit hm hcache
      ((hm.line_congr hfirst).mpr hresident) (fill cache current_address) operation
    have hbytes' := bytes_tail hbytes
    obtain ⟨m₂, hloop, hserved₂⟩ := ih (current_address + 1) hserved₁.cacheOk
      ((hserved₁.cacheOk.line_congr hfirst).mp hserved₁.resident) hbytes'
    refine ⟨m₂, ?_, hserved₂.cacheOk, hserved₁.kept.trans hserved₂.kept, hserved₂.resident⟩
    rw [cacheLoop, hcache]
    simp only [hbyte, bind, Except.bind, ↓reduceIte, hloop]

/-- The byte loop of an access to one block. -/
theorem cacheLoop_block (fill : Cache → BitVec 64 → BlockFill) (operation : Operation)
    (hm : m.CacheOk b s) (hcache : m.cache = some cache) (hinBlock : InBlock b addr)
    {word : Option ℕ} (hfill : fill cache addr = ⟨cache.blockAddress addr, word⟩) :
    ∃ done m', cacheLoop fill operation 8 addr m = .ok (done, m') ∧
      (done = true ∧ m.Served b s addr m' ∨
        done = false ∧ m.Waits m' (cache.blockAddress addr) cache.d) := by
  obtain ⟨cache', orders, hcache', hinv⟩ := hm.inv
  obtain rfl : cache = cache' := Option.some.inj (hcache.symm.trans hcache')
  have hbytes : ∀ i < 8, SameBlock b (addr + BitVec.ofNat 64 i) addr :=
    fun i hi ↦ hinBlock.sameBlock hinv.valid hi
  cases hline : getLine cache addr with
  | some i =>
    have hresident : m.overlay.line addr ≠ none := by
      rw [Mem.line_eq hcache]
      exact Cache.resident_ne_none.mpr ⟨i, hline⟩
    obtain ⟨m', hloop, hserved⟩ := cacheLoop_resident fill operation 8 addr hm hresident hbytes
    exact ⟨true, m', hloop, .inl ⟨rfl, hserved⟩⟩
  | none =>
    obtain ⟨continue_, m₁, hbyte, houtcome⟩ := cacheByte_miss hm hcache hline word operation
    rw [cacheLoop, hcache]
    simp only [hfill, hbyte, bind, Except.bind]
    rcases houtcome with ⟨rfl, hserved⟩ | ⟨rfl, hwaits⟩
    · have hbytes' : ∀ i < 7, SameBlock b (addr + 1 + BitVec.ofNat 64 i) addr := by
        intro i hi
        have hnext := hbytes (i + 1) (by omega)
        rwa [BitVec.ofNat_add, BitVec.add_comm (BitVec.ofNat 64 i), ← BitVec.add_assoc] at hnext
      obtain ⟨m₂, hloop, hserved₂⟩ := cacheLoop_resident fill operation 7 (addr + 1)
        hserved.cacheOk hserved.resident hbytes'
      simp only [↓reduceIte, hloop]
      exact ⟨true, m₂, rfl, .inl ⟨rfl, hserved₂.cacheOk, hserved.kept.trans hserved₂.kept,
        hserved₂.resident⟩⟩
    · simp only [Bool.false_eq_true, ↓reduceIte]
      exact ⟨false, m₁, rfl, .inr ⟨rfl, hwaits⟩⟩

end

/-! ## Reads and writes -/

/-- The word that a reader of the eight bytes from the address on sees. -/
def Mem.wordView (m : Mem) (addr : BitVec 64) : BitVec 64 :=
  word (fun i ↦ m.overlay.view (addr + BitVec.ofNat 64 i)) 8

theorem Mem.Kept.wordView {m m' : Mem} (h : m.Kept m') (addr : BitVec 64) :
    m'.wordView addr = m.wordView addr :=
  word_congr fun _ _ ↦ h.view _

/-- A word has been stored, and nothing else has changed. -/
structure Mem.Stored (addr val : BitVec 64) (m m' : Mem) : Prop where
  view : ∀ a, m'.overlay.view a =
    if (a - addr).toNat < 8 then byte val (a - addr).toNat else m.overlay.view a
  seg_start_addr : m'.seg_start_addr = m.seg_start_addr
  stdin : m'.stdin = m.stdin
  stdin_pos : m'.stdin_pos = m.stdin_pos
  output : m'.output = m.output

/-- What is kept on both sides of a store is kept across it. -/
theorem Mem.Stored.congr {addr val : BitVec 64} {m₁ m₁' m₂ m₂' : Mem} (h : m₁.Kept m₂)
    (h₁ : m₁.Stored addr val m₁') (h₂ : m₂.Stored addr val m₂') : m₁'.Kept m₂' where
  view := fun a ↦ by rw [h₂.view, h₁.view, h.view]
  seg_start_addr := by rw [h₂.seg_start_addr, h₁.seg_start_addr, h.seg_start_addr]
  stdin := by rw [h₂.stdin, h₁.stdin, h.stdin]
  stdin_pos := by rw [h₂.stdin_pos, h₁.stdin_pos, h.stdin_pos]
  output := by rw [h₂.output, h₁.output, h.output]

theorem Mem.Stored.of_kept {addr val : BitVec 64} {m₁ m₂ m₃ : Mem} (h : m₁.Kept m₂)
    (h' : m₂.Stored addr val m₃) : m₁.Stored addr val m₃ where
  view := fun a ↦ by rw [h'.view, h.view]
  seg_start_addr := h'.seg_start_addr.trans h.seg_start_addr
  stdin := h'.stdin.trans h.stdin
  stdin_pos := h'.stdin_pos.trans h.stdin_pos
  output := h'.output.trans h.output

section

variable {m : Mem} {b s : ℕ} {cache : Cache} {addr : BitVec 64} (hm : m.CacheOk b s)
  (hcache : m.cache = some cache) (hinBlock : InBlock b addr)
include hm hcache hinBlock

/-- An attempt to read yields the word that is seen, or waits. -/
theorem memReadCache_attempt : ∃ m' value, memReadCache m addr 8 = .ok (m', value) ∧
    (m'.dmem_status = .ready ∧ m'.CacheOk b s ∧ m.Kept m' ∧ value = m.wordView addr ∨
      m.Waits m' (cache.blockAddress addr) cache.d) := by
  obtain ⟨done, m₁, hloop, houtcome⟩ := cacheLoop_block (readFill addr)
    .read hm hcache hinBlock rfl
  unfold memReadCache
  simp only [hloop, bind, Except.bind]
  rcases houtcome with ⟨rfl, hserved⟩ | ⟨rfl, hwaits⟩
  · obtain ⟨cache₁, orders, hcache₁, hinv⟩ := hserved.cacheOk.inv
    obtain ⟨i, hline⟩ := Cache.resident_ne_none.mp (Mem.line_eq hcache₁ addr ▸ hserved.resident)
    have hvalue : wordAt ((cache₁.getSet addr).lines i).data (cache₁.offset addr) =
        m.wordView addr := by
      rw [wordAt_eq, ← hserved.kept.wordView]
      refine word_congr fun j hj ↦ ?_
      have hblock := hinBlock.sameBlock hinv.valid hj
      have hresident : m₁.overlay.line (addr + BitVec.ofNat 64 j) = some
          (((cache₁.getSet addr).lines i).data (cache₁.offset addr + j),
            ((cache₁.getSet addr).lines i).dirty) := by
        rw [Mem.line_eq hcache₁, Cache.resident, hinv.valid.getLine_congr hblock, hline,
          Option.map_some, hinBlock.offset_add hinv.valid hj, hinv.valid.getSet_congr hblock]
      exact (Overlay.view_of_line hresident).symm
    simp only [↓reduceIte, hcache₁, getWordCache, hline]
    obtain ⟨m', hm'⟩ : ∃ m', m' = { m₁ with cache := some cache₁, dmem_status := .ready } :=
      ⟨_, rfl⟩
    have hidles : m₁.Idles m' := by
      rw [hm']
      exact ⟨rfl, hcache₁.symm, rfl, rfl, rfl, rfl⟩
    exact ⟨m', _, by rw [hm']; rfl, .inl ⟨by rw [hm'], hidles.cacheOk hserved.cacheOk,
      hserved.kept.trans hidles.kept, hvalue⟩⟩
  · simp only [Bool.false_eq_true, ↓reduceIte]
    exact ⟨_, _, rfl, .inr hwaits⟩

/-- An attempt to write stores the word, or waits. -/
theorem memWriteCache_attempt (hdata : ∀ a : BitVec 64, (a - addr).toNat < 8 → ¬m.pinned a)
    (val : BitVec 64) :
    ∃ m', memWriteCache m addr val 8 = .ok m' ∧
      (m'.dmem_status = .ready ∧ m'.CacheOk b s ∧ m.Stored addr val m' ∨
        m.Waits m' (cache.blockAddress addr) cache.d) := by
  obtain ⟨done, m₁, hloop, houtcome⟩ := cacheLoop_block
    writeFill .write hm hcache hinBlock rfl
  unfold memWriteCache
  simp only [hloop, bind, Except.bind]
  rcases houtcome with ⟨rfl, hserved⟩ | ⟨rfl, hwaits⟩
  · obtain ⟨cache₁, orders, hcache₁, hinv⟩ := hserved.cacheOk.inv
    obtain ⟨i, hline⟩ := Cache.resident_ne_none.mp (Mem.line_eq hcache₁ addr ▸ hserved.resident)
    obtain ⟨line, hlineEq⟩ : ∃ line, line = { (cache₁.getSet addr).lines i with
      data := putWord ((cache₁.getSet addr).lines i).data (cache₁.offset addr) val
      dirty := true } := ⟨_, rfl⟩
    simp only [↓reduceIte, hcache₁, setWordCache, hline]
    rw [← hlineEq]
    have hvalid : line.valid = ((cache₁.getSet addr).lines i).valid := by rw [hlineEq]
    have htag : line.tag = ((cache₁.getSet addr).lines i).tag := by rw [hlineEq]
    have hbytes : ∀ a, SameBlock b a addr → line.data (cache₁.offset a) =
        if (a - addr).toNat < 8 then byte val (a - addr).toNat
        else ((cache₁.getSet addr).lines i).data (cache₁.offset a) := by
      intro a hblock
      have hiff := hinv.valid.offset_iff hblock
      rw [hlineEq]
      simp only [putWord]
      by_cases hlt : (a - addr).toNat < 8
      · rw [if_pos (hiff.mpr hlt), if_pos hlt, hinv.valid.sub_toNat hblock (hiff.mpr hlt).1]
        rfl
      · rw [if_neg (fun hcontra ↦ hlt (hiff.mp hcontra)), if_neg hlt]
    have hoverlay := overlay_write hcache₁ hinv hline
      (show ((cache₁.getSet addr).putLine i line).lines = Function.update _ i line from rfl)
      hvalid htag (by rw [hlineEq]) m₁.counters
      (f := fun a v ↦ if (a - addr).toNat < 8 then byte val (a - addr).toNat else v) hbytes
    have hpinned : ∀ a v, SameBlock b a addr → m₁.pinned a →
        (if (a - addr).toNat < 8 then byte val (a - addr).toNat else v) = v := by
      intro a v hblock hpinned
      rw [Mem.pinned, hserved.kept.seg_start_addr] at hpinned
      exact if_neg fun hlt ↦ hdata a hlt hpinned
    obtain ⟨m', hm'⟩ : ∃ m', m' = { m₁ with
      cache := some (cache₁.putSet addr ((cache₁.getSet addr).putLine i line))
      dmem_status := .ready } := ⟨_, rfl⟩
    have hinv' : ∃ cache' orders, m'.cache = some cache' ∧ cache'.Inv b s orders := by
      rw [hm']
      exact ⟨_, _, rfl, hinv.putLine addr hvalid htag⟩
    have hoverlay' : m'.overlay = m₁.overlay.write (fun a ↦ SameBlock b a addr)
        fun a v ↦ if (a - addr).toNat < 8 then byte val (a - addr).toNat else v := by
      rw [hm']
      exact hoverlay
    obtain ⟨hok, -, hview⟩ := served_of_write hserved.cacheOk hinv' (by rw [hm'])
      hserved.resident hoverlay' hpinned
    have hstored : m₁.Stored addr val m' := by
      refine ⟨fun a ↦ ?_, by rw [hm'], by rw [hm'], by rw [hm'], by rw [hm']⟩
      rw [hview a]
      by_cases hblock : SameBlock b a addr
      · rw [if_pos hblock]
      · rw [if_neg hblock, if_neg fun hlt ↦ hblock (hinBlock.sub_lt hinv.valid hlt)]
    exact ⟨m', by rw [hm']; rfl, .inl ⟨by rw [hm'], hok, Mem.Stored.of_kept hserved.kept hstored⟩⟩
  · simp only [Bool.false_eq_true, ↓reduceIte]
    exact ⟨_, rfl, .inr hwaits⟩

end

end SystemEmulator
