import Mathlib.Logic.Function.Iterate
import SystemEmulator.Base.Checkpoint
import SystemEmulator.Memory.MissDelay

/-!
# The memory section of a checkpoint

The pages of a segment are walked as long as they are mapped, and the words of the pages are
printed.  A load sees the lines of the cache on top of the pages, and the walk over the heap starts
at a page that is not mapped.
-/

namespace SystemEmulator

open LittleEndian Relation

/-! ## Loads -/

/-- The word that the pages hold at an address. -/
def Mem.pageWord (m : Mem) (addr : BitVec 64) : BitVec 64 :=
  word (fun i ↦ byteAt m.ptable (addr + BitVec.ofNat 64 i)) 8

/-- A load from the address, repeated until it is ready, returns the value. -/
def Mem.Loads (m : Mem) (addr value : BitVec 64) : Prop :=
  ∃ m', settle (fun m ↦ memReadL m addr) m = some (.ok (m', value))

/-- What a load returns: from the start of the data segment on, a line of the cache hides the pages.
A load from `NULL_ADDR` returns nothing, for which zero stands. -/
def Mem.loadWord (m : Mem) (addr : BitVec 64) : BitVec 64 :=
  if addr = NULL_ADDR then 0
  else if m.seg_start_addr .data ≤ addr then (m.lineWord addr).getD (m.pageWord addr)
  else m.pageWord addr

/-- The memory has no cache, or a cache in a state that calls can reach. -/
def Mem.CacheReached (m : Mem) : Prop :=
  m.cache = none ∨ ∃ (config : CacheConfig) (cache : Cache),
    m.cache = some cache ∧ ReflTransGen CacheCall config.cache cache

/-- When the byte loop of a read is through, the word of the line is returned. -/
theorem memReadCache_of_cacheLoop_done {b s d : ℕ} {m m₁ : Mem} {cache₁ : Cache}
    {addr value : BitVec 64}
    (hloop : cacheLoop (readFill addr) .read 8 addr m = .ok (true, m₁))
    (hm₁ : m₁.Cached b s d cache₁) (hword : m₁.lineWord addr = some value) :
    memReadCache m addr 8 = .ok ({ m₁ with dmem_status := .ready }, value) := by
  rw [hm₁.lineWord_eq] at hword
  obtain ⟨i, hline, rfl⟩ := Option.map_eq_some_iff.mp hword
  unfold memReadCache
  rw [hloop]
  simp only [bind, Except.bind, ↓reduceIte, hm₁.cache_eq, getWordCache, hline]
  rfl

section

variable {b s d : ℕ} {m : Mem} {cache : Cache} (hm : m.Cached b s d cache) {addr : BitVec 64}
  (haligned : addr.toNat % 8 = 0)
include hm haligned

/-- The word of a block that is filled from the pages. -/
theorem wordAt_fillBlock :
    wordAt (fillBlock (cache.blockAddress addr) cache.B cache.B m.ptable fun _ ↦ 0).2
      (cache.offset addr) = m.pageWord addr := by
  have hinBlock := inBlock_of_aligned hm.valid.b_ge haligned
  have hoffset : cache.offset addr + 8 ≤ cache.B := by
    rw [hm.valid.offset_eq, hm.valid.B_eq]
    exact hinBlock
  rw [wordAt_eq]
  refine word_congr fun j hj ↦ ?_
  have hblock := hinBlock.sameBlock hm.valid hj
  rw [fillBlock_snd _ _ _ le_rfl, if_pos (by omega), ← hinBlock.offset_add hm.valid hj,
    hm.valid.blockAddress_add_offset hblock]

/-- A load through the cache returns the word of the line that holds the address, and otherwise
that of the pages; the induction is on the attempts that are left. -/
theorem settle_memReadCache (hspecial : isSpecialAddr addr = false)
    (hdata : m.seg_start_addr .data ≤ addr) :
    ∃ m', settle (fun m ↦ memReadL m addr) m =
      some (.ok (m', (m.lineWord addr).getD (m.pageWord addr))) := by
  have hbytes : ∀ i < 8, SameBlock b (addr + BitVec.ofNat 64 i) addr :=
    fun _ hi ↦ (inBlock_of_aligned hm.valid.b_ge haligned).sameBlock hm.valid hi
  obtain ⟨left, hleft⟩ : ∃ left, left = m.attemptsLeft (cache.blockAddress addr) d := ⟨_, rfl⟩
  induction left using Nat.strong_induction_on generalizing m with
  | _ left ih =>
    have hread : memReadL m addr = memReadCache m addr 8 :=
      memRead_of_cached hspecial (usesCache_of_data hm.cache_eq hdata) 8
    have hdone : ∀ {m₁ : Mem} {cache₁ : Cache} {value : BitVec 64},
        cacheLoop (readFill addr) .read 8 addr m = .ok (true, m₁) →
        m₁.Cached b s d cache₁ → m₁.lineWord addr = some value →
        ∃ m', settle (fun m ↦ memReadL m addr) m = some (.ok (m', value)) := by
      intro m₁ cache₁ value hloop hm₁ hword
      exact ⟨_, settle_of_done
        (hread.trans (memReadCache_of_cacheLoop_done hloop hm₁ hword))
        MemStatus.noConfusion⟩
    cases hhit : m.hits addr with
    | true =>
      obtain ⟨m₁, hloop, hstep, -, hwords, -⟩ := cacheLoop_hitStep hm
        (readFill addr) .read countsDown_of_hit 8 addr hhit hbytes
      obtain ⟨cache₁, hm₁⟩ := hstep.cached
      obtain ⟨value, hvalue⟩ : ∃ value, m.lineWord addr = some value := by
        rw [hm.hits_eq] at hhit
        obtain ⟨i, hline⟩ := Option.isSome_iff_exists.mp hhit
        exact ⟨_, by rw [hm.lineWord_eq, hline, Option.map_some]⟩
      rw [hvalue, Option.getD_some]
      exact hdone hloop hm₁ ((hwords addr).trans hvalue)
    | false =>
      have hnone : m.lineWord addr = none := by
        rw [hm.lineWord_eq, hm.getLine_of_miss hhit, Option.map_none]
      rcases Nat.eq_zero_or_pos (m.attemptsLeft (cache.blockAddress addr) d) with hzero | hpos
      · obtain ⟨m₁, hloop, hstep, -, hword, -⟩ := cacheLoop_fillStep hm
          (readFill addr) .read countsDown_of_hit 7 hhit hzero hbytes
        obtain ⟨cache₁, hm₁⟩ := hstep.cached
        rw [readFill, wordAt_fillBlock hm haligned] at hword
        rw [hnone, Option.getD_none]
        exact hdone hloop hm₁ hword
      · obtain ⟨m₁, hloop, hstep, -, hptable, -⟩ := cacheLoop_waitStep (P := CountsDown) hm
          (readFill addr) .read 7 hhit hpos
        have hcall : memReadCache m addr 8 = .ok (m₁, 0) := by
          unfold memReadCache
          rw [hloop]
          rfl
        have hless := hleft ▸ hstep.attemptsLeft_lt hpos
        obtain ⟨m', hsettle⟩ := ih _ hless hstep.cached (hstep.seg_start_addr ▸ hdata) rfl
        have hword : m₁.lineWord addr = m.lineWord addr := by
          rw [hstep.cached.lineWord_eq, hm.lineWord_eq]
        have hpage : m₁.pageWord addr = m.pageWord addr := by
          unfold Mem.pageWord
          rw [hptable]
        refine ⟨m', ?_⟩
        rw [settle_of_wait (hread.trans hcall) hstep.dmem_status, ← hword, ← hpage]
        exact hsettle

end

section

variable {m : Mem} {addr : BitVec 64}

/-- Without the cache a load reads the pages. -/
theorem settle_memReadLE (hready : m.dmem_status = .ready) (hspecial : isSpecialAddr addr = false)
    (huses : usesCache m addr = false) :
    ∃ m', settle (fun m ↦ memReadL m addr) m = some (.ok (m', m.pageWord addr)) := by
  have hread : memReadL m addr =
      .ok ({ m with ptable := (memReadLE m.ptable addr 8).1 }, m.pageWord addr) := by
    rw [memReadL, memRead_of_paged hspecial huses, memReadLE_snd]
    rfl
  refine ⟨_, settle_of_done hread ?_⟩
  simp only [hready, ne_eq, reduceCtorEq, not_false_eq_true]

/-- Between accesses, a load from an aligned address returns `loadWord`. -/
theorem loads_iff (hm : m.CacheReached) (hready : m.dmem_status = .ready)
    (haligned : addr.toNat % 8 = 0) {value : BitVec 64} (hvalue : value ≠ 0) :
    m.Loads addr value ↔ m.loadWord addr = value := by
  unfold Mem.loadWord
  by_cases hnull : addr = NULL_ADDR
  · have herror : settle (fun m ↦ memReadL m addr) m = some (.error .exitFailure) := by
      rw [hnull]
      exact settle_of_error rfl
    rw [if_pos hnull]
    refine ⟨?_, fun h ↦ absurd h.symm hvalue⟩
    rintro ⟨m', hm'⟩
    rw [herror] at hm'
    cases hm'
  · have hspecial := isSpecialAddr_of_aligned haligned hnull
    rw [if_neg hnull]
    obtain ⟨m', hsettle⟩ : ∃ m', settle (fun m ↦ memReadL m addr) m = some (.ok (m',
        if m.seg_start_addr .data ≤ addr then (m.lineWord addr).getD (m.pageWord addr)
        else m.pageWord addr)) := by
      by_cases hdata : m.seg_start_addr .data ≤ addr
      · rw [if_pos hdata]
        rcases hm with hnone | ⟨config, cache, hcache, hcalls⟩
        · have hline : m.lineWord addr = none := by
            unfold Mem.lineWord
            rw [hnone, Option.bind_none]
          rw [hline, Option.getD_none]
          exact settle_memReadLE hready hspecial (usesCache_of_cacheless hnone addr)
        · exact settle_memReadCache (Mem.cached_of_calls hcalls hcache) haligned hspecial hdata
      · rw [if_neg hdata]
        refine settle_memReadLE hready hspecial ?_
        unfold usesCache
        rw [decide_eq_false hdata, Bool.and_false]
    unfold Mem.Loads
    rw [hsettle]
    constructor
    · rintro ⟨m'', hm''⟩
      exact congrArg Prod.snd (Except.ok.inj (Option.some.inj hm''))
    · rintro rfl
      exact ⟨m', rfl⟩

end

/-! ## Walks -/

def Ptable.Mapped (pt : Ptable) (addr : BitVec 64) : Prop := getPage pt (pageNum addr) ≠ none

/-- The page at `base` belongs to the maximal run of mapped pages from `first` on. -/
def Ptable.InRun (pt : Ptable) (next : BitVec 64 → BitVec 64) (first base : BitVec 64) : Prop :=
  ∃ k, base = next^[k] first ∧ ∀ j ≤ k, pt.Mapped (next^[j] first)

/-- The address of a word in the run of mapped pages from `first` on. -/
def Ptable.InWords (pt : Ptable) (next : BitVec 64 → BitVec 64) (first addr : BitVec 64) : Prop :=
  ∃ base, pt.InRun next first base ∧ ∃ i < PAGESIZE, i % 8 = 0 ∧ addr = base + BitVec.ofNat 64 i

section

variable {pt : Ptable} {next : BitVec 64 → BitVec 64} {start : BitVec 64 → ℕ}

/-- A walk stops at the first page that is not mapped, and prints the pages before it. -/
theorem logPages_eq (n : ℕ) {first : BitVec 64} (hmapped : ∀ k < n, pt.Mapped (next^[k] first))
    (hstop : ¬pt.Mapped (next^[n] first)) :
    ∃ lines, logPages pt next start first (pageNum first) =
        some (lines, pageNum (next^[n] first)) ∧
      ∀ line, line ∈ lines ↔ ∃ k < n, ∃ page,
        getPage pt (pageNum (next^[k] first)) = some page ∧
          line ∈ logPage page (next^[k] first) (start (next^[k] first)) := by
  induction n generalizing first with
  | zero =>
    have hpage : getPage pt (pageNum first) = none := not_not.mp hstop
    refine ⟨[], ?_, fun line ↦ ⟨fun h ↦ absurd h List.not_mem_nil, ?_⟩⟩
    · rw [logPages, hpage]
      rfl
    · rintro ⟨k, hk, -⟩
      exact absurd hk (Nat.not_lt_zero k)
  | succ n ih =>
    obtain ⟨page, hpage⟩ : ∃ page, getPage pt (pageNum first) = some page :=
      Option.ne_none_iff_exists'.mp (hmapped 0 (Nat.succ_pos n))
    obtain ⟨lines, hwalk, hlines⟩ := @ih (next first)
      (fun k hk ↦ hmapped (k + 1) (Nat.succ_lt_succ hk)) hstop
    refine ⟨logPage page first (start first) ++ lines, ?_, fun line ↦ ?_⟩
    · rw [logPages, hpage]
      simp only [hwalk]
      rfl
    · rw [List.mem_append, hlines]
      constructor
      · rintro (hfirst | ⟨k, hk, page', hpage', hline⟩)
        · exact ⟨0, Nat.succ_pos n, page, hpage, hfirst⟩
        · exact ⟨k + 1, Nat.succ_lt_succ hk, page', hpage', hline⟩
      · rintro ⟨k, hk, page', hpage', hline⟩
        cases k with
        | zero =>
          obtain rfl : page = page' := Option.some.inj (hpage.symm.trans hpage')
          exact .inl hline
        | succ k => exact .inr ⟨k, Nat.lt_of_succ_lt_succ hk, page', hpage', hline⟩

/-- A walk that ends has met a page that is not mapped. -/
theorem exists_stop_of_logPages {first : BitVec 64} {r : List (BitVec 64 × BitVec 64) × BitVec 64}
    (h : logPages pt next start first (pageNum first) = some r) :
    ∃ n, ¬pt.Mapped (next^[n] first) := by
  refine Ptable.logPages.partial_correctness pt next start (fun addr pnum _ ↦ pnum = pageNum addr →
    ∃ n, ¬pt.Mapped (next^[n] addr)) ?_ first (pageNum first) r h rfl
  rintro walk ih addr pnum r hr rfl
  cases hpage : getPage pt (pageNum addr) with
  | none => exact ⟨0, not_not.mpr hpage⟩
  | some page =>
    rw [hpage] at hr
    obtain ⟨r', hr', -⟩ := Option.bind_eq_some_iff.mp hr
    obtain ⟨n, hn⟩ := ih (next addr) (pageNum (next addr)) r' hr' rfl
    exact ⟨n + 1, hn⟩

end

/-! ## Pages -/

def PageAligned (addr : BitVec 64) : Prop := addr.toNat % 4096 = 0

theorem pageBase_aligned (addr : BitVec 64) : PageAligned (pageBase addr) := by
  unfold PageAligned pageBase PAGESIZE
  have hle : (addr % 4096#64).toNat ≤ addr.toNat := by
    rw [BitVec.toNat_umod]
    exact Nat.mod_le _ _
  rw [BitVec.toNat_sub_of_le (BitVec.le_def.mpr hle), BitVec.toNat_umod]
  change (addr.toNat - addr.toNat % 4096) % 4096 = 0
  omega

theorem nextPage_iterate (n : ℕ) (addr : BitVec 64) :
    (nextPage^[n] addr).toNat = (addr.toNat + 4096 * n) % 2 ^ 64 := by
  induction n generalizing addr with
  | zero => exact (Nat.mod_eq_of_lt addr.isLt).symm
  | succ n ih =>
    rw [Function.iterate_succ_apply, ih, nextPage, BitVec.toNat_add]
    change ((addr.toNat + 4096) % 2 ^ 64 + 4096 * n) % 2 ^ 64 = _
    omega

theorem prevPage_iterate (n : ℕ) (addr : BitVec 64) :
    (prevPage^[n] addr).toNat = (addr.toNat + (2 ^ 64 - 4096) * n) % 2 ^ 64 := by
  induction n generalizing addr with
  | zero => exact (Nat.mod_eq_of_lt addr.isLt).symm
  | succ n ih =>
    rw [Function.iterate_succ_apply, ih, prevPage, BitVec.toNat_sub]
    change ((2 ^ 64 - 4096 + addr.toNat) % 2 ^ 64 + (2 ^ 64 - 4096) * n) % 2 ^ 64 = _
    omega

theorem pageAligned_nextPage {addr : BitVec 64} (h : PageAligned addr) (n : ℕ) :
    PageAligned (nextPage^[n] addr) := by
  unfold PageAligned at h ⊢
  rw [nextPage_iterate]
  omega

theorem pageAligned_prevPage {addr : BitVec 64} (h : PageAligned addr) (n : ℕ) :
    PageAligned (prevPage^[n] addr) := by
  unfold PageAligned at h ⊢
  rw [prevPage_iterate]
  omega

section

variable {pt : Ptable} {addr : BitVec 64}

/-- Going up from the start of a page, every page is met. -/
theorem exists_stop_nextPage (hunmapped : ∃ a, ¬pt.Mapped a) (haligned : PageAligned addr) :
    ∃ n, ¬pt.Mapped (nextPage^[n] addr) := by
  obtain ⟨a, ha⟩ := hunmapped
  obtain ⟨n, hn⟩ : ∃ n, n = a.toNat / 4096 + 2 ^ 52 - addr.toNat / 4096 := ⟨_, rfl⟩
  have hnum : pageNum (nextPage^[n] addr) = pageNum a := by
    apply BitVec.eq_of_toNat_eq
    have hlt := addr.isLt
    have hlt' := a.isLt
    unfold PageAligned at haligned
    rw [pageNum_toNat, pageNum_toNat, nextPage_iterate, hn]
    omega
  exact ⟨n, fun h ↦ ha (by rwa [Ptable.Mapped, hnum] at h)⟩

/-- So it is going down. -/
theorem exists_stop_prevPage (hunmapped : ∃ a, ¬pt.Mapped a) (haligned : PageAligned addr) :
    ∃ n, ¬pt.Mapped (prevPage^[n] addr) := by
  obtain ⟨a, ha⟩ := hunmapped
  obtain ⟨n, hn⟩ : ∃ n, n = addr.toNat / 4096 + 2 ^ 52 - a.toNat / 4096 := ⟨_, rfl⟩
  have hnum : pageNum (prevPage^[n] addr) = pageNum a := by
    apply BitVec.eq_of_toNat_eq
    have hlt := addr.isLt
    have hlt' := a.isLt
    unfold PageAligned at haligned
    rw [pageNum_toNat, pageNum_toNat, prevPage_iterate, hn]
    omega
  exact ⟨n, fun h ↦ ha (by rwa [Ptable.Mapped, hnum] at h)⟩

end

section

variable {m : Mem} {base : BitVec 64} {page : Pte}

/-- A word inside a page. -/
theorem wordAt_page (haligned : PageAligned base)
    (hpage : getPage m.ptable (pageNum base) = some page) {i : ℕ} (hi : i < PAGESIZE)
    (hword : i % 8 = 0) : wordAt page.p_data i = m.pageWord (base + BitVec.ofNat 64 i) := by
  rw [wordAt_eq]
  refine word_congr fun j hj ↦ ?_
  have hlt := base.isLt
  unfold PageAligned at haligned
  unfold PAGESIZE at hi
  have htoNat : (base + BitVec.ofNat 64 i + BitVec.ofNat 64 j).toNat = base.toNat + (i + j) := by
    rw [BitVec.toNat_add, BitVec.toNat_add, BitVec.toNat_ofNat, BitVec.toNat_ofNat]
    omega
  have hnum : pageNum (base + BitVec.ofNat 64 i + BitVec.ofNat 64 j) = pageNum base := by
    apply BitVec.eq_of_toNat_eq
    rw [pageNum_toNat, pageNum_toNat, htoNat]
    omega
  have hoff : pageOff (base + BitVec.ofNat 64 i + BitVec.ofNat 64 j) = i + j := by
    rw [pageOff_eq, htoNat]
    omega
  rw [byteAt, hnum, hpage, hoff]
  rfl

/-- The words that are printed of a page. -/
theorem mem_logPage (haligned : PageAligned base)
    (hpage : getPage m.ptable (pageNum base) = some page) (a value : BitVec 64) :
    (a, value) ∈ logPage page base 0 ↔
      (∃ i < PAGESIZE, i % 8 = 0 ∧ a = base + BitVec.ofNat 64 i) ∧ value ≠ 0 ∧
        m.pageWord a = value := by
  unfold logPage
  simp only [List.mem_filterMap, List.mem_range', Option.ite_none_right_eq_some, Option.some.injEq,
    Prod.mk.injEq]
  constructor
  · rintro ⟨i, ⟨k, hk, rfl⟩, hne, rfl, rfl⟩
    rw [Nat.zero_add] at hne ⊢
    have hlt : 8 * k < PAGESIZE := by
      unfold PAGESIZE at hk ⊢
      omega
    have hword : 8 * k % 8 = 0 := Nat.mul_mod_right 8 k
    exact ⟨⟨8 * k, hlt, hword, rfl⟩, hne, (wordAt_page haligned hpage hlt hword).symm⟩
  · rintro ⟨⟨i, hi, hword, rfl⟩, hne, rfl⟩
    rw [← wordAt_page haligned hpage hi hword] at hne ⊢
    refine ⟨i, ⟨i / 8, ?_, ?_⟩, hne, rfl, rfl⟩
    · unfold PAGESIZE at hi ⊢
      omega
    · omega

end

/-! ## The segments -/

section

variable {m : Mem} {next : BitVec 64 → BitVec 64} {start : BitVec 64 → ℕ} {first : BitVec 64}

/-- A walk from the start of a page prints the words of the pages in its run that are not zero, and
leaves the number of a page that is not mapped. -/
theorem logPages_words (haligned : ∀ n, PageAligned (next^[n] first))
    (hstart : ∀ addr, PageAligned addr → start addr = 0)
    (hstop : ∃ n, ¬m.ptable.Mapped (next^[n] first)) :
    ∃ lines pnum, logPages m.ptable next start first (pageNum first) = some (lines, pnum) ∧
      getPage m.ptable pnum = none ∧
      ∀ a value, (a, value) ∈ lines ↔
        m.ptable.InWords next first a ∧ value ≠ 0 ∧ m.pageWord a = value := by
  classical
  obtain ⟨n, hn⟩ : ∃ n, n = Nat.find hstop := ⟨_, rfl⟩
  have hbefore : ∀ k < n, m.ptable.Mapped (next^[k] first) := fun k hk ↦
    not_not.mp (Nat.find_min hstop (hn ▸ hk))
  have hlast : ¬m.ptable.Mapped (next^[n] first) := hn ▸ Nat.find_spec hstop
  obtain ⟨lines, hwalk, hlines⟩ := @logPages_eq m.ptable next start n first hbefore hlast
  refine ⟨lines, _, hwalk, not_not.mp hlast, fun a value ↦ ?_⟩
  rw [hlines]
  constructor
  · rintro ⟨k, hk, page, hpage, hline⟩
    rw [hstart _ (haligned k), mem_logPage (haligned k) hpage] at hline
    obtain ⟨hword, hvalue⟩ := hline
    exact ⟨⟨_, ⟨k, rfl, fun j hj ↦ hbefore j (lt_of_le_of_lt hj hk)⟩, hword⟩, hvalue⟩
  · rintro ⟨⟨base, ⟨k, rfl, hmapped⟩, hword⟩, hvalue⟩
    have hk : k < n := by
      by_contra hle
      exact hlast (hmapped n (Nat.not_lt.mp hle))
    obtain ⟨page, hpage⟩ := Option.ne_none_iff_exists'.mp (hmapped k le_rfl)
    refine ⟨k, hk, page, hpage, ?_⟩
    rw [hstart _ (haligned k), mem_logPage (haligned k) hpage]
    exact ⟨hword, hvalue⟩

/-- The words of a run are aligned. -/
theorem Ptable.InWords.aligned {pt : Ptable} {addr : BitVec 64}
    (haligned : ∀ n, PageAligned (next^[n] first)) (h : pt.InWords next first addr) :
    addr.toNat % 8 = 0 := by
  obtain ⟨base, ⟨k, rfl, -⟩, i, hi, hword, rfl⟩ := h
  have hbase := haligned k
  unfold PageAligned at hbase
  rw [BitVec.toNat_add, BitVec.toNat_ofNat]
  omega

end

/-- The lines printed of a segment are the words of its run that a load does not return as zero,
each with its address and the value that a load returns. -/
def SegmentLogged (m : Mem) (next : BitVec 64 → BitVec 64) (first : BitVec 64)
    (lines : List (BitVec 64 × BitVec 64)) : Prop :=
  ∀ addr value, (addr, value) ∈ lines ↔
    m.ptable.InWords next first addr ∧ value ≠ 0 ∧ m.Loads addr value

/-- The first page of a segment that is walked upwards. -/
def Mem.firstPage (m : Mem) (seg : Seg) : BitVec 64 := pageBase (m.seg_start_addr seg)

/-- The page below the stack segment. -/
def Mem.stackPage (m : Mem) : BitVec 64 :=
  pageBase (m.seg_start_addr .stack - BitVec.ofNat 64 PAGESIZE)

/-- The memory section of a checkpoint is complete, and faithful to what loads return. -/
def CheckpointFaithful (m : Mem) : Prop :=
  ∃ log, logMemory m = some log ∧
    SegmentLogged m nextPage (m.firstPage .text) log.text ∧
    SegmentLogged m nextPage (m.firstPage .data) log.data ∧
    SegmentLogged m nextPage (m.firstPage .heap) log.heap ∧
    SegmentLogged m prevPage m.stackPage log.stack

/-- Loads return what the pages hold in the runs of the text, data and stack segments, and zero in
the run of the heap; not every page is mapped. -/
structure Mem.PlainlyLogged (m : Mem) : Prop where
  unmapped : ∃ a, ¬m.ptable.Mapped a
  text : ∀ a, m.ptable.InWords nextPage (m.firstPage .text) a → m.loadWord a = m.pageWord a
  data : ∀ a, m.ptable.InWords nextPage (m.firstPage .data) a → m.loadWord a = m.pageWord a
  heap : ∀ a, m.ptable.InWords nextPage (m.firstPage .heap) a → m.loadWord a = 0
  stack : ∀ a, m.ptable.InWords prevPage m.stackPage a → m.loadWord a = m.pageWord a

section

variable {m : Mem} (hm : m.CacheReached) (hready : m.dmem_status = .ready)
  {next : BitVec 64 → BitVec 64} {first : BitVec 64}
  (haligned : ∀ n, PageAligned (next^[n] first))
include hm hready haligned

/-- Printing the pages is right when loads return what the pages hold. -/
theorem segmentLogged_iff_of_pages {lines : List (BitVec 64 × BitVec 64)}
    (hlines : ∀ a value, (a, value) ∈ lines ↔
      m.ptable.InWords next first a ∧ value ≠ 0 ∧ m.pageWord a = value) :
    SegmentLogged m next first lines ↔
      ∀ a, m.ptable.InWords next first a → m.loadWord a = m.pageWord a := by
  unfold SegmentLogged
  simp only [hlines]
  constructor
  · intro h a ha
    have hloads : ∀ value, value ≠ 0 → (m.pageWord a = value ↔ m.loadWord a = value) := by
      intro value hvalue
      rw [← loads_iff hm hready (ha.aligned haligned) hvalue]
      simpa only [ha, hvalue, ne_eq, not_false_eq_true, true_and] using h a value
    by_cases hzero : m.pageWord a = 0
    · by_contra hne
      have hload : m.loadWord a ≠ 0 := fun h ↦ hne (h.trans hzero.symm)
      exact hload (((hloads _ hload).mpr rfl).symm.trans hzero)
    · exact (hloads _ hzero).mp rfl
  · intro h a value
    refine and_congr_right fun ha ↦ and_congr_right fun hvalue ↦ ?_
    rw [loads_iff hm hready (ha.aligned haligned) hvalue, h a ha]

/-- Printing nothing is right when loads return zero. -/
theorem segmentLogged_nil_iff :
    SegmentLogged m next first [] ↔
      ∀ a, m.ptable.InWords next first a → m.loadWord a = 0 := by
  constructor
  · intro h a ha
    by_contra hne
    have hloads : m.Loads a (m.loadWord a) :=
      (loads_iff hm hready (ha.aligned haligned) hne).mpr rfl
    exact List.not_mem_nil ((h a _).mpr ⟨ha, hne, hloads⟩)
  · intro h a value
    refine ⟨fun hmem ↦ absurd hmem List.not_mem_nil, ?_⟩
    rintro ⟨ha, hvalue, hloads⟩
    rw [loads_iff hm hready (ha.aligned haligned) hvalue, h a ha] at hloads
    exact absurd hloads.symm hvalue

end

/-! ## The whole section -/

/-- The walks end only if they meet a page that is not mapped. -/
theorem exists_unmapped_of_logMemory {m : Mem} {log : MemoryLog} (h : logMemory m = some log) :
    ∃ a, ¬m.ptable.Mapped a := by
  obtain ⟨r, hr, -⟩ := Option.bind_eq_some_iff.mp h
  obtain ⟨n, hn⟩ := exists_stop_of_logPages hr
  exact ⟨_, hn⟩

/-- The words of the pages are printed for the text, data and stack segments, and nothing for the
heap. -/
theorem logMemory_words {m : Mem} (hunmapped : ∃ a, ¬m.ptable.Mapped a) :
    ∃ log, logMemory m = some log ∧ log.heap = [] ∧
      (∀ a value, (a, value) ∈ log.text ↔
        m.ptable.InWords nextPage (m.firstPage .text) a ∧ value ≠ 0 ∧ m.pageWord a = value) ∧
      (∀ a value, (a, value) ∈ log.data ↔
        m.ptable.InWords nextPage (m.firstPage .data) a ∧ value ≠ 0 ∧ m.pageWord a = value) ∧
      ∀ a value, (a, value) ∈ log.stack ↔
        m.ptable.InWords prevPage m.stackPage a ∧ value ≠ 0 ∧ m.pageWord a = value := by
  have hup : ∀ seg, ∀ n, PageAligned (nextPage^[n] (m.firstPage seg)) :=
    fun seg ↦ pageAligned_nextPage (pageBase_aligned _)
  have hdown : ∀ n, PageAligned (prevPage^[n] m.stackPage) :=
    pageAligned_prevPage (pageBase_aligned _)
  have hoff : ∀ addr, PageAligned addr → pageOff addr = 0 := fun addr h ↦ (pageOff_eq addr).trans h
  obtain ⟨text, pnum, htext, -, htextWords⟩ := @logPages_words m nextPage (fun _ ↦ 0) _
    (hup .text) (fun _ _ ↦ rfl) (exists_stop_nextPage hunmapped (pageBase_aligned _))
  obtain ⟨data, pnum', hdata, hstop, hdataWords⟩ := @logPages_words m nextPage (fun _ ↦ 0)
    _ (hup .data) (fun _ _ ↦ rfl) (exists_stop_nextPage hunmapped (pageBase_aligned _))
  obtain ⟨stack, pnum'', hstack, -, hstackWords⟩ := logPages_words hdown hoff
    (exists_stop_prevPage hunmapped (pageBase_aligned _))
  have hheap : logPages m.ptable nextPage pageOff (m.seg_start_addr .heap) pnum' =
      some ([], pnum') := by
    rw [logPages, hstop]
  refine ⟨⟨text, data, [], stack⟩, ?_, rfl, htextWords, hdataWords, hstackWords⟩
  unfold Mem.firstPage at htext hdata
  unfold Mem.stackPage at hstack
  unfold logMemory
  simp only [htext, hdata, hheap, hstack, Option.bind_eq_bind, Option.bind_some]
  rfl

section

variable {m : Mem} (hm : m.CacheReached) (hready : m.dmem_status = .ready)
include hm hready

theorem CheckpointFaithful.plainlyLogged (h : CheckpointFaithful m) : m.PlainlyLogged := by
  have hup : ∀ seg, ∀ n, PageAligned (nextPage^[n] (m.firstPage seg)) :=
    fun seg ↦ pageAligned_nextPage (pageBase_aligned _)
  have hdown : ∀ n, PageAligned (prevPage^[n] m.stackPage) :=
    pageAligned_prevPage (pageBase_aligned _)
  obtain ⟨log, hlog, htext, hdata, hheap, hstack⟩ := h
  have hunmapped := exists_unmapped_of_logMemory hlog
  obtain ⟨log', hlog', hnil, htextWords, hdataWords, hstackWords⟩ := logMemory_words hunmapped
  obtain rfl : log' = log := Option.some.inj (hlog'.symm.trans hlog)
  rw [hnil] at hheap
  exact ⟨hunmapped, (segmentLogged_iff_of_pages hm hready (hup .text) htextWords).mp htext,
    (segmentLogged_iff_of_pages hm hready (hup .data) hdataWords).mp hdata,
    (segmentLogged_nil_iff hm hready (hup .heap)).mp hheap,
    (segmentLogged_iff_of_pages hm hready hdown hstackWords).mp hstack⟩

theorem Mem.PlainlyLogged.checkpointFaithful (h : m.PlainlyLogged) : CheckpointFaithful m := by
  have hup : ∀ seg, ∀ n, PageAligned (nextPage^[n] (m.firstPage seg)) :=
    fun seg ↦ pageAligned_nextPage (pageBase_aligned _)
  have hdown : ∀ n, PageAligned (prevPage^[n] m.stackPage) :=
    pageAligned_prevPage (pageBase_aligned _)
  obtain ⟨log, hlog, hnil, htextWords, hdataWords, hstackWords⟩ := logMemory_words h.unmapped
  refine ⟨log, hlog, (segmentLogged_iff_of_pages hm hready (hup .text) htextWords).mpr h.text,
    (segmentLogged_iff_of_pages hm hready (hup .data) hdataWords).mpr h.data, ?_,
    (segmentLogged_iff_of_pages hm hready hdown hstackWords).mpr h.stack⟩
  rw [hnil]
  exact (segmentLogged_nil_iff hm hready (hup .heap)).mpr h.heap

/-- Whatever the page table and the cache, between two accesses a checkpoint shows what loads return
exactly when they return what the pages hold, and nothing but zero from the heap. -/
theorem checkpointFaithful_iff : CheckpointFaithful m ↔ m.PlainlyLogged :=
  ⟨fun h ↦ h.plainlyLogged hm hready, fun h ↦ h.checkpointFaithful hm hready⟩

end

/-- One word in the first page of the data segment. -/
theorem checkpointFaithful_iff_data : CheckpointFaithful
    { initMem none fun _ ↦ 0 with ptable := memWriteLE Ptable.empty 0x800000 5 8 } := by
  have hfirst : ∀ {next : BitVec 64 → BitVec 64} {first a : BitVec 64},
      ¬(memWriteLE Ptable.empty 0x800000 5 8).Mapped first →
        ¬(memWriteLE Ptable.empty 0x800000 5 8).InWords next first a := by
    rintro next first a hfirst ⟨base, ⟨k, -, hmapped⟩, -⟩
    exact hfirst (hmapped 0 (Nat.zero_le k))
  refine (checkpointFaithful_iff (.inl rfl) rfl).mpr ⟨⟨0, ?_⟩, fun a ha ↦ ?_, fun a ha ↦ ?_,
    fun a ha ↦ ?_, fun a ha ↦ ?_⟩
  · unfold Ptable.Mapped
    decide +kernel
  · exact absurd ha (hfirst (by unfold Ptable.Mapped; decide +kernel))
  · obtain ⟨base, ⟨k, rfl, hmapped⟩, i, hi, -, rfl⟩ := ha
    have hk : k = 0 := by
      by_contra hk
      have hsecond := hmapped 1 (Nat.one_le_iff_ne_zero.mpr hk)
      revert hsecond
      unfold Ptable.Mapped
      decide +kernel
    obtain rfl := hk
    have hnull : nextPage^[0] (pageBase 0x800000) + BitVec.ofNat 64 i ≠ NULL_ADDR := by
      intro hcontra
      have htoNat := congrArg BitVec.toNat hcontra
      unfold PAGESIZE at hi
      change (0x800000 + i % 2 ^ 64) % 2 ^ 64 = 0 at htoNat
      omega
    exact (if_neg hnull).trans (ite_self _)
  · exact absurd ha (hfirst (by unfold Ptable.Mapped; decide +kernel))
  · exact absurd ha (hfirst (by unfold Ptable.Mapped; decide +kernel))

/-- A word that is stored in the heap is not printed. -/
theorem not_checkpointFaithful_heap : ¬∀ m : Mem, m.CacheReached → m.dmem_status = .ready →
    CheckpointFaithful m := by
  intro hclaim
  have hlogged := (hclaim
    { initMem none fun _ ↦ 0 with ptable := memWriteLE Ptable.empty 0x10000000 5 8 } (.inl rfl)
      rfl).plainlyLogged (.inl rfl) rfl
  have hmapped : (memWriteLE Ptable.empty 0x10000000 5 8).Mapped 0x10000000 := by
    unfold Ptable.Mapped
    decide +kernel
  have hrun : (memWriteLE Ptable.empty 0x10000000 5 8).InRun nextPage 0x10000000 0x10000000 := by
    refine ⟨0, rfl, fun j hj ↦ ?_⟩
    obtain rfl := Nat.le_zero.mp hj
    exact hmapped
  have hword := hlogged.heap 0x10000000 ⟨_, hrun, 0, by decide, rfl, rfl⟩
  revert hword
  decide +kernel

end SystemEmulator
