import SystemEmulator.Memory.MissDelay

/-!
# Accesses without undefined operations

A read that completes a miss may take its word from behind the end of `block`, and a read of
`CHECKPOINT_ADDR` may divide by zero.  Other accesses execute nothing undefined.  With a cache, a
sequence of word accesses behaves like a flat memory exactly when it has no such read.
-/

namespace SystemEmulator

open Result

/-! ## What a load needs -/

/-- A load from the address executes nothing undefined, whatever the cache holds. -/
def LoadDefined (cache : Option Cache) (checkpoint : Bool) (addr : BitVec 64) : Prop :=
  ∀ c, cache = some c →
    if isSpecialAddr addr then addr = CHECKPOINT_ADDR → checkpoint = true → c.d ≠ 0
    else 8 * c.offset addr + 8 ≤ c.B

/-- Without a cache every load is defined. -/
theorem LoadDefined.of_cacheless (checkpoint : Bool) (addr : BitVec 64) :
    LoadDefined none checkpoint addr := fun _ h ↦ nomatch h

theorem offset_of_geometry {cache cache' : Cache} (h : cache'.geometry = cache.geometry)
    (addr : BitVec 64) : cache'.offset addr = cache.offset addr := by
  have hB : cache'.B = cache.B := congrArg (fun g ↦ g.2.1) h
  unfold Cache.offset
  rw [hB]

theorem LoadDefined.frame {m m' : Mem} {addr : BitVec 64}
    (h : LoadDefined m.cache m.checkpoint addr) (hframe : m.Frame m') :
    LoadDefined m'.cache m'.checkpoint addr := by
  intro c' hc'
  have hgeometry := hframe.geometry
  rw [hc', Option.map_some] at hgeometry
  obtain ⟨c, hc, heq⟩ := Option.map_eq_some_iff.mp hgeometry.symm
  have hc' := h c hc
  have hB : c'.B = c.B := congrArg (fun g ↦ g.2.1) heq.symm
  have hd : c'.d = c.d := congrArg (fun g ↦ g.2.2.2) heq.symm
  rwa [hframe.checkpoint, offset_of_geometry heq.symm, hB, hd]

/-- The access executes nothing undefined, whatever the cache holds. -/
def DataOp.Defined (m : Mem) : DataOp → Prop
  | read addr => LoadDefined m.cache m.checkpoint addr
  | write _ _ => True

theorem DataOp.Defined.frame {m m' : Mem} {op : DataOp} (h : op.Defined m) (hframe : m.Frame m') :
    op.Defined m' := by
  cases op with
  | read addr => exact LoadDefined.frame h hframe
  | write addr val => trivial

/-! ## The cached path -/

theorem cacheByte_undefined (m : Mem) (cache : Cache) (current_address : BitVec 64)
    (fill : BlockFill) (operation : Operation) :
    Ensures (cacheByte m cache current_address fill operation) fun r ↦
      fill.overruns cache.B = false → r.2.undefined = m.undefined := by
  unfold cacheByte
  refine Ensures.bind (checkHit_geometry _ _ _ _) ?_
  rintro ⟨hit, cache', counters⟩ hgeometry
  have hB : cache'.B = cache.B := congrArg (fun g ↦ g.2.1) hgeometry
  by_cases hhit : hit = true
  · simp only [hhit, ↓reduceIte]
    exact Ensures.ok fun _ ↦ rfl
  · simp only [hhit, Bool.false_eq_true, ↓reduceIte]
    have harm : (armInflight { m with cache := some cache', counters := counters }
        (cache'.blockAddress current_address) cache'.d).undefined = m.undefined := by
      unfold armInflight
      split <;> rfl
    split
    · exact Ensures.ok fun _ ↦ harm
    · unfold installBlock
      simp only [bind_assoc]
      refine Ensures.bind (P := fun _ ↦ True) (fun _ _ ↦ trivial) fun _ _ ↦ Ensures.ok fun h ↦ ?_
      change (_ || fill.overruns cache'.B) = m.undefined
      rw [hB, h, Bool.or_false]
      exact harm

/-- What the fills of all bytes leave defined, the byte loop leaves defined. -/
theorem cacheLoop_undefined (m : Mem) (fill : Cache → BitVec 64 → BlockFill)
    (operation : Operation) (n : ℕ) (current_address : BitVec 64)
    (hfill : ∀ m' cache a, m.Frame m' → m'.cache = some cache →
      (fill cache a).overruns cache.B = false) :
    Ensures (cacheLoop fill operation n current_address m) fun r ↦
      r.2.undefined = m.undefined := by
  refine (cacheLoop_ensures (P := fun m' ↦ m.Frame m' ∧ m'.undefined = m.undefined)
    (fun m' cache a hm' hcache ↦ ?_) n current_address ⟨Mem.Frame.refl m, rfl⟩).mono
      fun r hr ↦ hr.2
  intro r hr
  have hframe := cacheByte_frame hcache a (fill cache a) operation r hr
  have hkeeps := cacheByte_undefined m' cache a (fill cache a) operation r hr
  exact ⟨hm'.1.trans hframe, (hkeeps (hfill m' cache a hm'.1 hcache)).trans hm'.2⟩

theorem memWriteCache_undefined (m : Mem) (addr data : BitVec 64) (width : ℕ) :
    Ensures (memWriteCache m addr data width) fun m' ↦ m'.undefined = m.undefined :=
  memWriteCache_ensures (P := fun m' ↦ m'.undefined = m.undefined)
    (cacheLoop_undefined m _ _ _ _ fun _ _ _ _ _ ↦ rfl) fun _ _ _ h _ _ ↦ h

theorem memReadCache_undefined {m : Mem} {addr : BitVec 64}
    (h : ∀ c, m.cache = some c → 8 * c.offset addr + 8 ≤ c.B) (width : ℕ) :
    Ensures (memReadCache m addr width) fun r ↦ r.1.undefined = m.undefined := by
  refine memReadCache_ensures (P := fun m' ↦ m'.undefined = m.undefined)
    (cacheLoop_undefined m _ _ _ _ fun m' c' _ hframe hc' ↦ ?_) fun _ h ↦ h
  have hgeometry := hframe.geometry
  rw [hc', Option.map_some] at hgeometry
  obtain ⟨c, hc, heq⟩ := Option.map_eq_some_iff.mp hgeometry.symm
  have hB : c'.B = c.B := congrArg (fun g ↦ g.2.1) heq.symm
  have hle := h c hc
  rw [← offset_of_geometry heq.symm, ← hB] at hle
  exact decide_eq_false (Nat.not_lt.mpr hle)

/-! ## Accesses -/

theorem memRead_undefined {m : Mem} {addr : BitVec 64}
    (h : LoadDefined m.cache m.checkpoint addr) (width : ℕ) :
    Ensures (memRead m addr width) fun r ↦ r.1.undefined = m.undefined := by
  cases hspecial : isSpecialAddr addr with
  | true =>
    rw [memRead_of_special hspecial]
    unfold memReadSpecial
    split
    · exact Ensures.error _
    · split
      · exact Ensures.bind (P := fun _ ↦ True) (fun _ _ ↦ trivial) fun _ _ ↦ Ensures.ok rfl
      · split
        · next hcheck =>
          have htraps : logTraps m = false := by
            unfold logTraps
            cases hcache : m.cache with
            | none => exact Bool.and_false _
            | some c =>
              have hd := h c hcache
              rw [hspecial, if_pos rfl] at hd
              rw [Option.elim_some, Bool.and_eq_false_imp]
              exact fun hopen ↦ beq_false_of_ne (hd hcheck hopen)
          refine Ensures.ok ?_
          simp only [htraps, Bool.or_false]
        · exact Ensures.error _
  | false =>
    cases huses : usesCache m addr with
    | true =>
      rw [memRead_of_cached hspecial huses]
      refine memReadCache_undefined (fun c hc ↦ ?_) width
      have hc' := h c hc
      rwa [hspecial, if_neg Bool.false_ne_true] at hc'
    | false =>
      rw [memRead_of_paged hspecial huses]
      exact Ensures.ok rfl

theorem memWrite_undefined (m : Mem) (addr data : BitVec 64) (width : ℕ) :
    Ensures (memWrite m addr data width) fun m' ↦ m'.undefined = m.undefined := by
  by_cases hroute : isSpecialAddr addr = true ∨ usesCache m addr = false
  · refine (memWrite_uncached hroute data width).mono fun m' hm' ↦ ?_
    obtain ⟨output, pt, rfl⟩ := hm'
    rfl
  · rw [not_or, Bool.not_eq_true, Bool.not_eq_false] at hroute
    rw [memWrite_of_cached hroute.1 hroute.2]
    exact memWriteCache_undefined m addr data width

theorem DataOp.call_frame (op : DataOp) (m : Mem) : Ensures (op.call m) fun r ↦ m.Frame r.1 := by
  cases op with
  | read addr => exact memRead_frame m addr 8
  | write addr val =>
    intro r hr
    obtain ⟨m', hm', rfl⟩ := map_eq_ok.mp hr
    exact memWrite_frame m addr val 8 m' hm'

theorem DataOp.Defined.call {m : Mem} {op : DataOp} (h : op.Defined m) :
    Ensures (op.call m) fun r ↦ r.1.undefined = m.undefined := by
  cases op with
  | read addr => exact memRead_undefined h 8
  | write addr val =>
    intro r hr
    obtain ⟨m', hm', rfl⟩ := map_eq_ok.mp hr
    exact memWrite_undefined m addr val 8 m' hm'

/-- So it is with an access that is repeated until it is ready. -/
theorem DataOp.Defined.settle {m : Mem} {op : DataOp} (h : op.Defined m) {r : Mem × BitVec 64}
    (hr : settle op.call m = some (.ok r)) : r.1.undefined = m.undefined := by
  have hattempt : ∀ m₁ r, m.Frame m₁ ∧ m₁.undefined = m.undefined → op.call m₁ = .ok r →
      m.Frame r.1 ∧ r.1.undefined = m.undefined := by
    rintro m₁ r ⟨hframe, hkeeps⟩ hcall
    exact ⟨hframe.trans (op.call_frame m₁ r hcall),
      ((h.frame hframe).call r hcall).trans hkeeps⟩
  obtain ⟨m₁, hm₁, hcall, -⟩ := exists_last_of_settle
    (P := fun m₁ ↦ m.Frame m₁ ∧ m₁.undefined = m.undefined)
    (fun m₁ r hm₁ hcall _ ↦ hattempt m₁ r hm₁ hcall) m _ hr ⟨Mem.Frame.refl m, rfl⟩ r rfl
  exact (hattempt m₁ r hm₁ hcall).2

/-! ## Sequences of word accesses -/

section

variable {b s d : ℕ} {m : Mem} {cache : Cache} (hm : m.Cached b s d cache) {op : DataOp}
include hm

/-- A fill leaves the memory defined exactly when the access reads inside. -/
theorem undefined_of_fill {m' : Mem} (hmiss : m.hits op.addr = false)
    (h : m'.undefined = (m.undefined || (op.fill cache op.addr).overruns cache.B)) :
    m'.undefined = false ↔ m.undefined = false ∧ op.ReadsInside m := by
  rw [h, Bool.or_eq_false_iff, DataOp.overruns_eq_false]
  refine and_congr_right fun _ ↦ ⟨fun hinside cache' hcache' hread _ ↦ ?_,
    fun hinside hread ↦ hinside cache hm.cache_eq hread hmiss⟩
  obtain rfl := Option.some.inj (hm.cache_eq.symm.trans hcache')
  exact hinside hread

omit hm in
theorem undefined_of_hit {m' : Mem} (hhit : m.hits op.addr = true)
    (h : m'.undefined = m.undefined) :
    m'.undefined = false ↔ m.undefined = false ∧ op.ReadsInside m := by
  rw [h, iff_self_and]
  intro _ cache' _ _ hmiss
  rw [hhit] at hmiss
  cases hmiss

/-- An access through the cache takes place after finitely many attempts, and it leaves the memory
defined exactly when it reads inside; the induction is on the attempts that are left. -/
theorem settle_undefined_iff (haddr : DataAddr m op.addr) (hnull : op.addr ≠ NULL_ADDR) :
    ∃ m' value, settle op.call m = some (.ok (m', value)) ∧ (∃ cache', m'.Cached b s d cache') ∧
      m'.seg_start_addr = m.seg_start_addr ∧
      (m'.undefined = false ↔ m.undefined = false ∧ op.ReadsInside m) := by
  obtain ⟨left, hleft⟩ : ∃ left, left = m.attemptsLeft (cache.blockAddress op.addr) d := ⟨_, rfl⟩
  induction left using Nat.strong_induction_on generalizing m with
  | _ left ih =>
    cases hhit : m.hits op.addr with
    | true =>
      obtain ⟨m', value, hcall, hattempts, hstep, -⟩ := attempts_of_hit hm haddr hnull hhit
      obtain ⟨value', hsettle⟩ := hattempts.settle
      exact ⟨m', value', hsettle, hstep.cached, hstep.seg_start_addr,
        undefined_of_hit hhit hstep.undefined⟩
    | false =>
      rcases Nat.eq_zero_or_pos (m.attemptsLeft (cache.blockAddress op.addr) d) with hzero | hpos
      · obtain ⟨m₁, hloop, hstep, -, -⟩ := cacheLoop_fillStep hm op.fill op.operation
          countsDown_of_hit 7 hhit hzero (hm.sameBlock haddr)
        obtain ⟨cache₁, hm₁⟩ := hstep.cached
        obtain ⟨m', value, hcall, hready, hstep', -⟩ :=
          call_of_cacheLoop_done hm haddr hnull hloop hm₁ hstep.hits
        have hfill := hstep.hitStep hstep'
        refine ⟨m', value, settle_of_done hcall ?_, hfill.cached, hfill.seg_start_addr,
          undefined_of_fill hm hhit hfill.undefined⟩
        rw [hready]
        exact MemStatus.noConfusion
      · obtain ⟨m₁, hloop, hstep, -, -⟩ := cacheLoop_waitStep (P := CountsDown) hm op.fill
          op.operation 7 hhit hpos
        have hcall := call_of_cacheLoop_wait hm haddr hnull hloop
        have hless := hleft ▸ hstep.attemptsLeft_lt hpos
        obtain ⟨m', value, hsettle, hcached, hseg, hdefined⟩ :=
          ih _ hless hstep.cached (haddr.congr hstep.seg_start_addr) rfl
        have hinside : op.ReadsInside m₁ ↔ op.ReadsInside m := by
          unfold DataOp.ReadsInside
          rw [hstep.hits, hstep.cached.cache_eq, hm.cache_eq]
        refine ⟨m', value, ?_, hcached, hseg.trans hstep.seg_start_addr, ?_⟩
        · rw [settle_of_wait hcall hstep.dmem_status]
          exact hsettle
        · rw [hdefined, hstep.undefined, hinside]

end

/-- Up to any of its accesses, a sequence executes nothing undefined. -/
def RunDefined (ops : List DataOp) (m : Mem) : Prop :=
  ∀ pre, pre <+: ops → ∀ m' values, runOps pre m = pure (m', values) → m'.undefined = false

theorem runDefined_cons {op : DataOp} {ops : List DataOp} {m m' : Mem} {value : BitVec 64}
    (hdefined : m.undefined = false) (h : settle op.call m = some (.ok (m', value))) :
    RunDefined (op :: ops) m ↔ RunDefined ops m' := by
  constructor
  · intro hrun pre hpre m₁ values h₁
    refine hrun (op :: pre) (List.cons_prefix_cons.mpr ⟨rfl, hpre⟩) m₁ (value :: values) ?_
    rw [runOps_cons h, h₁]
    rfl
  · intro hrun pre hpre m₁ values h₁
    rcases List.prefix_cons_iff.mp hpre with rfl | ⟨pre', rfl, hpre'⟩
    · cases h₁
      exact hdefined
    · rw [runOps_cons h] at h₁
      cases hrest : runOps pre' m' with
      | none =>
        rw [hrest] at h₁
        cases h₁
      | some x => cases x with
        | error crash =>
          rw [hrest] at h₁
          cases h₁
        | ok r =>
          rw [hrest] at h₁
          cases h₁
          exact hrun pre' hpre' r.1 r.2 hrest

/-- A sequence executes nothing undefined exactly when its reads that miss read inside; the
induction is on the sequence. -/
theorem runDefined_iff {b s d : ℕ} (ops : List DataOp) {m : Mem} {cache : Cache}
    (hm : m.Cached b s d cache) (hready : m.dmem_status ≠ .inFlight)
    (hdefined : m.undefined = false) (haddr : ∀ op ∈ ops, DataAddr m op.addr) :
    RunDefined ops m ↔ ReadsInside ops m := by
  induction ops generalizing m cache with
  | nil =>
    refine ⟨fun _ ↦ trivial, fun _ pre hpre m' values h ↦ ?_⟩
    rw [List.prefix_nil.mp hpre] at h
    cases h
    exact hdefined
  | cons op ops ih =>
    have hop := haddr op List.mem_cons_self
    have hops : ∀ op ∈ ops, DataAddr m op.addr := fun op hmem ↦
      haddr op (List.mem_cons_of_mem _ hmem)
    by_cases hnull : op.addr = NULL_ADDR
    · -- the first word of a block lies inside
      have hinside : op.ReadsInside m := by
        intro cache' hcache' _ _
        obtain rfl := Option.some.inj (hm.cache_eq.symm.trans hcache')
        have hword : 2 ^ 3 ≤ 2 ^ b := Nat.pow_le_pow_right (by decide) hm.valid.b_ge
        rw [hnull, hm.valid.offset_eq, hm.valid.B_eq]
        simpa [NULL_ADDR] using hword
      cases op with
      | read addr =>
        simp only [DataOp.addr] at hnull
        have hcrash : settle (DataOp.read addr).call m = some (.error .exitFailure) := by
          rw [hnull]
          exact settle_of_error rfl
        refine ⟨fun _ ↦ ⟨hinside, fun m' value h ↦ ?_⟩, fun _ pre hpre m' values h ↦ ?_⟩
        · rw [hcrash] at h
          cases h
        · rcases List.prefix_cons_iff.mp hpre with rfl | ⟨pre', rfl, -⟩
          · cases h
            exact hdefined
          · rw [runOps, hcrash] at h
            cases h
      | write addr val =>
        simp only [DataOp.addr] at hnull
        have hsettle : settle (DataOp.write addr val).call m = some (.ok (m, 0)) := by
          rw [hnull]
          exact settle_of_done rfl hready
        rw [runDefined_cons hdefined hsettle, readsInside_cons hsettle,
          ih hm hready hdefined hops]
        exact (and_iff_right hinside).symm
    · obtain ⟨m', value, hsettle, ⟨cache', hm'⟩, hseg, hiff⟩ := settle_undefined_iff hm hop hnull
      have hready' : m'.dmem_status ≠ .inFlight := by
        obtain ⟨-, -, -, hdone⟩ :=
          exists_last_of_settle (P := fun _ ↦ True) (fun _ _ _ _ _ ↦ trivial) m _ hsettle trivial
            _ rfl
        exact hdone
      rw [runDefined_cons hdefined hsettle, readsInside_cons hsettle]
      cases hdefined' : m'.undefined with
      | false =>
        rw [ih hm' hready' hdefined' fun op hmem ↦ (hops op hmem).congr hseg]
        exact (and_iff_right (hiff.mp hdefined').2).symm
      | true =>
        have hnot : ¬RunDefined ops m' := fun hrun ↦ by
          have hfirst := hrun [] List.nil_prefix m' [] rfl
          rw [hdefined'] at hfirst
          cases hfirst
        refine ⟨fun hrun ↦ absurd hrun hnot, fun hinside ↦ ?_⟩
        rw [hiff.mpr ⟨hdefined, hinside.1⟩] at hdefined'
        cases hdefined'

/-- The accesses do the same through the cache as on the flat memory: they end alike and leave the
same bytes, away from `NULL_ADDR` they yield the words written last, and nothing undefined is
executed. -/
structure CacheInvisible (ops : List DataOp) (cached flat : Mem) : Prop where
  alike : RunAlike (runOps ops cached) (runOps ops flat)
  words : (∀ op ∈ ops, op.addr ≠ NULL_ADDR) → ∃ m', runOps ops cached =
    pure (m', wordRun ops fun a ↦ (memReadLE flat.ptable a 8).2)
  defined : RunDefined ops cached

theorem Mem.withEmptyCache_cached {A B C d b s : ℕ} (hvalid : (createCache A B C d).Valid b s)
    (m : Mem) : (m.withEmptyCache A B C d).Cached b s d (createCache A B C d) :=
  ⟨rfl, hvalid, ⟨hvalid.A_pos, hvalid.A_le, fun _ ↦ .inr fun _ ↦ rfl⟩, rfl⟩

/-- Word accesses to the data segments, each repeated until the data port is ready, do the same with
an empty cache of any valid configuration as without a cache exactly when every read that misses
takes its word from inside the block. -/
theorem cacheInvisible_iff {A B C d b s : ℕ} (hvalid : (createCache A B C d).Valid b s) (m : Mem)
    (hcache : m.cache = none) (hready : m.dmem_status = .ready) (hdefined : m.undefined = false)
    (ops : List DataOp) (haddr : ∀ op ∈ ops, DataAddr m op.addr) :
    CacheInvisible ops (m.withEmptyCache A B C d) m ↔
      ReadsInside ops (m.withEmptyCache A B C d) := by
  have hrun := runDefined_iff ops (Mem.withEmptyCache_cached hvalid m)
    (fun hflight ↦ MemStatus.noConfusion (hready.symm.trans hflight)) hdefined
    fun op hmem ↦ (haddr op hmem).congr rfl
  obtain ⟨halike, hwords⟩ := runOps_withEmptyCache hvalid m hcache hready ops haddr
  exact ⟨fun h ↦ hrun.mp h.defined, fun hinside ↦ ⟨halike, hwords, hrun.mpr hinside⟩⟩

/-- Two blocks compete for the only line of their set, and the dirty one is written back. -/
theorem cacheInvisible_iff_conflict : ∃ m', runOps
    [.write 0x800000 5, .write 0x800010 7, .read 0x800000, .read 0x800018]
    ((initMem none fun _ ↦ 0).withEmptyCache 1 8 16 3) = pure (m', [0, 0, 5, 0]) ∧
      m'.undefined = false := by
  have hwords : wordRun [.write 0x800000 5, .write 0x800010 7, .read 0x800000, .read 0x800018]
      (fun a ↦ (memReadLE (initMem none fun _ ↦ 0).ptable a 8).2) = [0, 0, 5, 0] := by
    decide +kernel
  have hvalid : (createCache 1 8 16 3).Valid 3 1 :=
    ⟨by decide, by decide, rfl, by decide, rfl, by decide⟩
  have hinside := readsInside_of_offsets
    [.write 0x800000 5, .write 0x800010 7, .read 0x800000, .read 0x800018]
    (Mem.withEmptyCache_cached hvalid (initMem none fun _ ↦ 0)) (by decide) (by decide)
  have hinvisible :=
    (cacheInvisible_iff hvalid (initMem none fun _ ↦ 0) rfl rfl rfl _ (by decide)).mpr hinside
  obtain ⟨m', hrun⟩ := hinvisible.words (by decide)
  rw [hwords] at hrun
  exact ⟨m', hrun, hinvisible.defined _ List.prefix_rfl m' _ hrun⟩

/-- With blocks of 64 KiB, a read of their last word takes bytes 524224 to 524231 of `block`. -/
theorem cached_read_overruns : ¬∀ (A B C d b s : ℕ) (m : Mem) (ops : List DataOp),
    (createCache A B C d).Valid b s → 1 ≤ d → m.cache = none → m.dmem_status = .ready →
      m.undefined = false → (∀ op ∈ ops, DataAddr m op.addr) →
        CacheInvisible ops (m.withEmptyCache A B C d) m := by
  intro hclaim
  have hvalid : (createCache 1 65536 65536 1).Valid 16 0 :=
    ⟨by decide, by decide, rfl, by decide, rfl, by decide⟩
  have haddr : ∀ op ∈ [DataOp.read 0x80FFF8], DataAddr (initMem none fun _ ↦ 0) op.addr := by
    decide
  have hinvisible := hclaim 1 65536 65536 1 16 0 (initMem none fun _ ↦ 0) [.read 0x80FFF8] hvalid
    le_rfl rfl rfl rfl haddr
  have hrun := (runDefined_iff _ (Mem.withEmptyCache_cached hvalid (initMem none fun _ ↦ 0))
    MemStatus.noConfusion rfl fun op hmem ↦ (haddr op hmem).congr rfl).mp hinvisible.defined
  have hinside := hrun.1 (createCache 1 65536 65536 1) rfl rfl (by decide)
  revert hinside
  decide

end SystemEmulator
