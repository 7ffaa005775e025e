import SystemEmulator.Memory.Content
import SystemEmulator.Pipe.Stages

/-!
# What an access leaves alone

The segment table, the input stream and the geometry of the cache never change, and a fetch outside
the data cache only materialises a page.
-/

namespace SystemEmulator

open Result LittleEndian

def Cache.geometry (cache : Cache) : ℕ × ℕ × ℕ × ℕ := (cache.A, cache.B, cache.C, cache.d)

/-- The parts of the memory that no access changes.  What is undefined stays so. -/
structure Mem.Frame (m m' : Mem) : Prop where
  seg_start_addr : m'.seg_start_addr = m.seg_start_addr
  stdin : m'.stdin = m.stdin
  geometry : m'.cache.map Cache.geometry = m.cache.map Cache.geometry
  checkpoint : m'.checkpoint = m.checkpoint
  undefined : m.undefined = true → m'.undefined = true

theorem Mem.Frame.refl (m : Mem) : m.Frame m := ⟨rfl, rfl, rfl, rfl, id⟩

theorem Mem.Frame.trans {m₁ m₂ m₃ : Mem} (h : m₁.Frame m₂) (h' : m₂.Frame m₃) : m₁.Frame m₃ :=
  ⟨h'.seg_start_addr.trans h.seg_start_addr, h'.stdin.trans h.stdin,
    h'.geometry.trans h.geometry, h'.checkpoint.trans h.checkpoint, h'.undefined ∘ h.undefined⟩

theorem Mem.Same.frame {m m' : Mem} (h : m.Same m') : m.Frame m' := by
  obtain ⟨pt, rfl, -⟩ := h
  exact ⟨rfl, rfl, rfl, rfl, id⟩

/-! ## The cache keeps its geometry -/

theorem checkHit_geometry (cache : Cache) (n : Counters) (addr : BitVec 64)
    (operation : Operation) :
    Ensures (checkHit cache n addr operation) fun r ↦ r.2.1.geometry = cache.geometry := by
  unfold checkHit
  cases getLine cache addr with
  | none => exact Ensures.ok rfl
  | some i => exact Ensures.bind (P := fun _ ↦ True) (fun _ _ ↦ trivial) fun _ _ ↦ Ensures.ok rfl

theorem handleMiss_geometry (cache : Cache) (n : Counters) (addr : BitVec 64)
    (operation : Operation) (data : ℕ → BitVec 8) :
    Ensures (handleMiss cache n addr operation data) fun r ↦ r.2.1.geometry = cache.geometry := by
  unfold handleMiss
  exact Ensures.bind (P := fun _ ↦ True) (fun _ _ ↦ trivial) fun _ _ ↦ Ensures.ok rfl

theorem setWordCache_geometry (cache : Cache) (addr val : BitVec 64) :
    Ensures (setWordCache cache addr val) fun r ↦ r.geometry = cache.geometry := by
  unfold setWordCache
  cases getLine cache addr with
  | none => exact Ensures.error _
  | some i => exact Ensures.ok rfl

/-! ## The cached path -/

theorem armInflight_frame (m : Mem) (block_address : BitVec 64) (d : ℕ) :
    m.Frame (armInflight m block_address d) := by
  unfold armInflight
  split <;> exact ⟨rfl, rfl, rfl, rfl, id⟩

theorem installBlock_frame {m : Mem} {cache : Cache} (hcache : m.cache.map Cache.geometry =
      some cache.geometry) (block_address : BitVec 64) (fill : BlockFill) (operation : Operation) :
    Ensures (installBlock m cache block_address fill operation) m.Frame := by
  unfold installBlock
  refine Ensures.bind (handleMiss_geometry _ _ _ _ _) ?_
  rintro ⟨evicted, cache', counters⟩ hgeometry
  refine Ensures.ok ⟨rfl, rfl, ?_, rfl, fun hundefined ↦ ?_⟩
  · rw [hcache]
    exact congrArg some hgeometry
  · exact Bool.or_eq_true_iff.mpr (.inl hundefined)

theorem cacheByte_frame {m : Mem} {cache : Cache} (hcache : m.cache = some cache)
    (current_address : BitVec 64) (fill : BlockFill) (operation : Operation) :
    Ensures (cacheByte m cache current_address fill operation) fun r ↦ m.Frame r.2 := by
  unfold cacheByte
  refine Ensures.bind (checkHit_geometry _ _ _ _) ?_
  rintro ⟨hit, cache', counters⟩ hgeometry
  have hframe : m.Frame { m with cache := some cache', counters := counters } := by
    refine ⟨rfl, rfl, ?_, rfl, id⟩
    rw [hcache]
    exact congrArg some hgeometry
  by_cases hhit : hit = true
  · simp only [hhit, ↓reduceIte]
    exact Ensures.ok hframe
  · simp only [hhit, Bool.false_eq_true, ↓reduceIte]
    have harm := hframe.trans (armInflight_frame
      { m with cache := some cache', counters := counters } (cache'.blockAddress current_address)
      cache'.d)
    generalize armInflight { m with cache := some cache', counters := counters }
      (cache'.blockAddress current_address) cache'.d = n at harm ⊢
    by_cases hdelay : n.inflight_cycles - 1 > 0
    · rw [if_pos hdelay]
      exact Ensures.ok
        ⟨harm.seg_start_addr, harm.stdin, harm.geometry, harm.checkpoint, harm.undefined⟩
    · rw [if_neg hdelay]
      have hcache' : n.cache.map Cache.geometry = some cache'.geometry := by
        rw [harm.geometry, hcache]
        exact congrArg some hgeometry.symm
      refine Ensures.bind (installBlock_frame
        (m := { n with inflight_cycles := n.inflight_cycles - 1 }) hcache' _ fill operation) ?_
      intro n' hn'
      exact Ensures.ok (harm.trans
        ⟨hn'.seg_start_addr, hn'.stdin, hn'.geometry, hn'.checkpoint, hn'.undefined⟩)

theorem cacheLoop_frame (m : Mem) (fill : Cache → BitVec 64 → BlockFill)
    (operation : Operation) (n : ℕ) (current_address : BitVec 64) :
    Ensures (cacheLoop fill operation n current_address m) fun r ↦ m.Frame r.2 := by
  refine cacheLoop_ensures (fun m' cache current_address hframe hcache ↦ ?_) n current_address
    (Mem.Frame.refl m)
  exact (cacheByte_frame hcache current_address _ operation).mono fun _ hr ↦ hframe.trans hr

theorem memReadCache_frame (m : Mem) (addr : BitVec 64) (width : ℕ) :
    Ensures (memReadCache m addr width) fun r ↦ m.Frame r.1 :=
  memReadCache_ensures (cacheLoop_frame m _ _ _ _) fun _ hframe ↦
    ⟨hframe.seg_start_addr, hframe.stdin, hframe.geometry, hframe.checkpoint, hframe.undefined⟩

theorem memWriteCache_frame (m : Mem) (addr data : BitVec 64) (width : ℕ) :
    Ensures (memWriteCache m addr data width) m.Frame := by
  refine memWriteCache_ensures (cacheLoop_frame m _ _ _ _) fun m' cache cache' hframe hcache hset ↦
    ⟨hframe.seg_start_addr, hframe.stdin, ?_, hframe.checkpoint, hframe.undefined⟩
  rw [← hframe.geometry, hcache]
  exact congrArg some (setWordCache_geometry cache addr data cache' hset)

/-! ## The access functions -/

theorem memRead_frame (m : Mem) (addr : BitVec 64) (width : ℕ) :
    Ensures (memRead m addr width) fun r ↦ m.Frame r.1 := by
  by_cases hroute : isSpecialAddr addr = true ∨ usesCache m addr = false
  · refine (memRead_uncached hroute width).mono fun r hr ↦ ?_
    obtain ⟨pos, trap, pt, hr⟩ := hr
    rw [hr]
    exact ⟨rfl, rfl, rfl, rfl, fun hundefined ↦ Bool.or_eq_true_iff.mpr (.inl hundefined)⟩
  · rw [not_or, Bool.not_eq_true, Bool.not_eq_false] at hroute
    rw [memRead_of_cached hroute.1 hroute.2]
    exact memReadCache_frame m addr width

theorem memWrite_frame (m : Mem) (addr data : BitVec 64) (width : ℕ) :
    Ensures (memWrite m addr data width) m.Frame := by
  by_cases hroute : isSpecialAddr addr = true ∨ usesCache m addr = false
  · refine (memWrite_uncached hroute data width).mono fun m' hm' ↦ ?_
    obtain ⟨output, pt, hm'⟩ := hm'
    rw [hm']
    exact ⟨rfl, rfl, rfl, rfl, id⟩
  · rw [not_or, Bool.not_eq_true, Bool.not_eq_false] at hroute
    rw [memWrite_of_cached hroute.1 hroute.2]
    exact memWriteCache_frame m addr data width

/-- A data access keeps the frame; its error flag depends on the address only. -/
theorem dmem_frame (m : Mem) (dmem_addr dmem_wval : BitVec 64) (dmem_read dmem_write : Bool) :
    Ensures (dmem m dmem_addr dmem_wval dmem_read dmem_write) fun r ↦ m.Frame r.1 ∧
      r.2.2 = ((dmem_read || dmem_write) && dmemErr m dmem_addr) := by
  unfold dmem
  cases hread : dmem_read <;> cases hwrite : dmem_write
  · exact Ensures.ok ⟨Mem.Frame.refl m, rfl⟩
  all_goals
    simp only [Bool.not_true, Bool.not_false, Bool.and_false, Bool.and_true, Bool.false_eq_true,
      ↓reduceIte, dmemRead, dmemWrite, Bool.or_true, Bool.or_false, Bool.true_and]
  · exact Ensures.bind (Ensures.ok rfl) fun r hr ↦ by
      subst hr
      exact Ensures.bind (memWrite_frame m dmem_addr dmem_wval 8) fun m' hm' ↦
        Ensures.ok ⟨hm', rfl⟩
  · refine Ensures.bind (memRead_frame m dmem_addr 8) ?_
    exact fun r hr ↦ Ensures.bind (Ensures.ok rfl) fun m' hm' ↦ Ensures.ok ⟨hm' ▸ hr, rfl⟩
  · refine Ensures.bind (memRead_frame m dmem_addr 8) ?_
    rintro ⟨m', val⟩ hm'
    refine Ensures.bind (memWrite_frame m' dmem_addr dmem_wval 8) ?_
    exact fun m'' hm'' ↦ Ensures.ok ⟨hm'.trans hm'', rfl⟩

def MInstr.accesses (m : MInstr) : Bool := m.M_sigs.dmem_read || m.M_sigs.dmem_write

/-- The memory stage raises a fault, or passes one on. -/
def MInstr.faults (m : MInstr) (mem : Mem) : Bool :=
  m.status.isError || (m.accesses && dmemErr mem m.val_ex)

/-- The writeback record of an instruction whose data access has read a word. -/
def MInstr.toWInstr (m : MInstr) (val_mem : BitVec 64) (dmem_err : Bool) : WInstr where
  op := m.op
  W_sigs := m.W_sigs
  dst := m.dst
  val_ex := m.val_ex
  val_mem := val_mem
  status := if dmem_err then .adr else m.status

theorem accessed_ok {m : MInstr} {mem mem' : Mem} {w : WInstr}
    (h : accessed m mem = .ok (mem', w)) :
    ∃ val_mem err, dmem mem m.val_ex m.val_b m.M_sigs.dmem_read m.M_sigs.dmem_write =
      .ok (mem', val_mem, err) ∧ w = m.toWInstr val_mem err := by
  unfold accessed at h
  cases hdmem : dmem mem m.val_ex m.val_b m.M_sigs.dmem_read m.M_sigs.dmem_write with
  | error crash => rw [hdmem] at h; cases h
  | ok r =>
    rw [hdmem] at h
    cases h
    exact ⟨r.2.1, r.2.2, rfl, rfl⟩

theorem accessed_frame (m : MInstr) (mem : Mem) :
    Ensures (accessed m mem) fun r ↦ mem.Frame r.1 ∧ r.2.status.isError = m.faults mem := by
  intro r hr
  obtain ⟨val_mem, err, hdmem, hw⟩ := accessed_ok hr
  obtain ⟨hframe, herr⟩ := dmem_frame _ _ _ _ _ _ hdmem
  refine ⟨hframe, ?_⟩
  simp only at herr
  rw [hw, MInstr.toWInstr, herr, MInstr.faults, MInstr.accesses]
  cases (m.M_sigs.dmem_read || m.M_sigs.dmem_write) && dmemErr mem m.val_ex <;> simp [Stat.isError]

theorem accessed_of_not_accesses {m : MInstr} (h : m.accesses = false) (mem : Mem) :
    accessed m mem = .ok (mem, m.toWInstr 0 false) := by
  unfold MInstr.accesses at h
  simp only [Bool.or_eq_false_iff] at h
  unfold accessed dmem
  rw [h.1, h.2]
  rfl

theorem accessed_congr (m : MInstr) {mem mem' : Mem} (h : mem.Same mem') :
    Rel SameResult (accessed m mem) (accessed m mem') := by
  unfold accessed
  refine Rel.bind (dmem_congr h _ _ _ _) ?_
  rintro ⟨mem₁, val, err⟩ ⟨mem₂, _⟩ ⟨hsame, rfl⟩
  exact Rel.ok ⟨hsame, rfl⟩

/-! ## Fetching -/

/-- A fetch at this address only materialises a page. -/
def QuietFetch (m : Mem) (addr : BitVec 64) : Prop :=
  addr ≠ NULL_ADDR ∧ addr ≠ IO_CHAR_ADDR ∧ (addr = CHECKPOINT_ADDR → logTraps m = false) ∧
    (addr = CHECKPOINT_ADDR ∨ usesCache m addr = false)

instance (m : Mem) (addr : BitVec 64) : Decidable (QuietFetch m addr) :=
  inferInstanceAs (Decidable (_ ∧ _ ∧ _ ∧ _))

def fetchedWord (pt : Ptable) (addr : BitVec 64) : BitVec 32 :=
  if addr = CHECKPOINT_ADDR then 0
  else (word (fun i ↦ byteAt pt (addr + BitVec.ofNat 64 i)) 4).setWidth 32

theorem fetchedWord_congr {pt pt' : Ptable} (h : SameContent pt pt') (addr : BitVec 64) :
    fetchedWord pt addr = fetchedWord pt' addr := by
  unfold fetchedWord
  rw [word_congr fun i _ ↦ h (addr + BitVec.ofNat 64 i)]

theorem Mem.Same.fetchedWord {m m' : Mem} (h : m.Same m') (addr : BitVec 64) :
    fetchedWord m.ptable addr = fetchedWord m'.ptable addr := by
  obtain ⟨pt, rfl, hpt⟩ := h
  exact fetchedWord_congr hpt addr

/-- A data read at such an address only materialises a page, too. -/
theorem memRead_quiet {m : Mem} {addr : BitVec 64} (h : QuietFetch m addr) (width : ℕ) :
    ∃ m' val, memRead m addr width = .ok (m', val) ∧ m.Same m' := by
  obtain ⟨hnull, hio, htraps, hroute⟩ := h
  by_cases hcheck : addr = CHECKPOINT_ADDR
  · subst hcheck
    exact ⟨_, 0, rfl, m.ptable, by rw [htraps rfl, Bool.or_false], fun _ ↦ rfl⟩
  · have hspecial : isSpecialAddr addr = false := by
      simp [isSpecialAddr, hnull, hio, hcheck]
    exact ⟨_, _, memRead_of_paged hspecial (hroute.resolve_left hcheck) width, _, rfl,
      fun a ↦ (byteAt_memReadLE _ _ _ a).symm⟩

theorem imem_quiet {m : Mem} {addr : BitVec 64} (h : QuietFetch m addr) :
    ∃ pt, imem m addr = .ok ({ m with ptable := pt }, fetchedWord m.ptable addr, imemErr m addr) ∧
      SameContent m.ptable pt := by
  obtain ⟨hnull, hio, htraps, hroute⟩ := h
  unfold imem memReadI fetchedWord
  by_cases hcheck : addr = CHECKPOINT_ADDR
  · subst hcheck
    have hread : memRead m CHECKPOINT_ADDR 4 = .ok (m, 0) := by
      change Except.ok ({ m with undefined := m.undefined || logTraps m }, _) = _
      rw [htraps rfl, Bool.or_false]
    rw [hread]
    exact ⟨m.ptable, rfl, fun _ ↦ rfl⟩
  · have hspecial : isSpecialAddr addr = false := by
      simp [isSpecialAddr, hnull, hio, hcheck]
    rw [memRead_of_paged hspecial (hroute.resolve_left hcheck), if_neg hcheck, ← memReadLE_snd]
    exact ⟨_, rfl, fun a ↦ (byteAt_memReadLE _ _ _ a).symm⟩

theorem imem_frame (m : Mem) (addr : BitVec 64) :
    Ensures (imem m addr) fun r ↦ m.Frame r.1 := by
  unfold imem memReadI
  simp only [bind_assoc, pure_bind]
  exact Ensures.bind (memRead_frame m addr 4) fun r hr ↦ Ensures.ok hr

theorem Mem.Frame.imemErr {m m' : Mem} (h : m.Frame m') (addr : BitVec 64) :
    imemErr m' addr = imemErr m addr := by
  unfold SystemEmulator.imemErr addrInImem
  rw [h.seg_start_addr]

theorem Mem.Frame.dmemErr {m m' : Mem} (h : m.Frame m') (addr : BitVec 64) :
    dmemErr m' addr = dmemErr m addr := by
  unfold SystemEmulator.dmemErr addrInDmem
  rw [h.seg_start_addr]

theorem Mem.Frame.usesCache {m m' : Mem} (h : m.Frame m') (addr : BitVec 64) :
    usesCache m' addr = usesCache m addr := by
  have hsome : m'.cache.isSome = m.cache.isSome := by
    simpa using congrArg Option.isSome h.geometry
  unfold SystemEmulator.usesCache
  rw [hsome, h.seg_start_addr]

theorem Mem.Frame.faults {m m' : Mem} (h : m.Frame m') (i : MInstr) : i.faults m' = i.faults m := by
  unfold MInstr.faults
  rw [h.dmemErr]

theorem Mem.Frame.logTraps {m m' : Mem} (h : m.Frame m') : logTraps m' = logTraps m := by
  have hd : ∀ m : Mem, (m.cache.elim false fun cache ↦ cache.d == 0) =
      (m.cache.map Cache.geometry).elim false fun g ↦ g.2.2.2 == 0 := by
    intro m
    cases m.cache <;> rfl
  unfold SystemEmulator.logTraps
  rw [h.checkpoint, hd, hd, h.geometry]

theorem Mem.Frame.quietFetch {m m' : Mem} (h : m.Frame m') {addr : BitVec 64}
    (hquiet : QuietFetch m addr) : QuietFetch m' addr := by
  unfold QuietFetch
  rw [h.usesCache, h.logTraps]
  exact hquiet

end SystemEmulator
