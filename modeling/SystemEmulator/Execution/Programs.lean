import SystemEmulator.Execution.Commands
import SystemEmulator.Pipeline.Cached

/-!
# Programs of A64 on the emulator

A run of a program in A64 is a run of the sequential machine, with a cache and without one, and a
program that ends makes the pipeline halt in the state of A64.
-/

namespace SystemEmulator

open A64 Outcome

/-! ## The sequential machine -/

theorem follows_of_executes {build : Build} {c : Core} {pc : BitVec 64} (hc : c.InOrder)
    {loads : BitVec 64 → Prop}
    (hloads : ∀ addr, loads addr → LoadDefined c.mem.cache c.mem.checkpoint addr)
    {r : Except Stop (Config Guest)}
    (h : Executes Guest.platform (Runs build loads) (c.config pc) r) : Follows build c pc r := by
  obtain ⟨i, ⟨hi, haddr⟩, hfetch, rfl⟩ := h
  cases i with
  | process i => exact follows_process hc hfetch
  | ldur imm9 rn rt => exact follows_ldur hc (hloads _ (haddr _ rfl)) hfetch
  | stur imm9 rn rt => exact follows_stur hc hfetch
  | adrp immlo immhi rd => exact follows_adrp hc hi hfetch
  | branch link imm26 => exact follows_branch hc hfetch
  | bCond imm19 cond => exact follows_bCond hc hfetch
  | select inv inc rm cond rn rd => exact follows_select hc hi hfetch
  | ret rn => exact follows_ret hc hi hfetch
  | nop => exact follows_nop hc hfetch
  | hlt imm16 => exact follows_hlt hc hfetch

theorem seqStep_frame {build : Build} {a a' : Core × BitVec 64} (h : seqStep build a = pure a') :
    a.1.mem.Frame a'.1.mem := by
  unfold seqStep at h
  split at h
  · exact absurd h.symm pure_ne_throw
  · obtain ⟨c, hexec, hnext⟩ := bind_eq_pure.mp h
    rw [← pure_inj hnext]
    exact (reaches_of_execute hexec).frame

/-- The loads of a program are defined with this memory. -/
def Mem.loads (m : Mem) : BitVec 64 → Prop := LoadDefined m.cache m.checkpoint

/-- A run of A64 is a run of the sequential machine; the induction is on its instructions. -/
theorem seqRun_of_executed {build : Build} {c : Core} {pc : BitVec 64} (hc : c.InOrder) {n : ℕ}
    {a b : Config Guest} (ha : c.config pc = a)
    (h : Executed Guest.platform (Runs build c.mem.loads) n a b) :
    ∃ c', seqRun build n (c, pc) = pure (c', b.pc) ∧ c'.InOrder ∧ c'.config b.pc = b ∧
      c.mem.Frame c'.mem := by
  induction h with
  | refl a =>
    subst ha
    exact ⟨c, rfl, hc, rfl, Mem.Frame.refl _⟩
  | tail h hlast ih =>
    obtain ⟨c₁, hrun, hc₁, hconfig, hframe⟩ := ih ha
    rw [← hconfig] at hlast
    obtain ⟨c₂, hstep, hc₂, hconfig₂⟩ :=
      follows_of_executes hc₁ (fun _ haddr ↦ LoadDefined.frame haddr hframe) hlast
    refine ⟨c₂, ?_, hc₂, hconfig₂, hframe.trans (seqStep_frame hstep)⟩
    rw [seqRun_succ, hrun, pure_bind]
    exact hstep

theorem initCore_inOrder (GPR : ℕ → BitVec 64) {mem : Mem} (hmem : mem.Ok)
    (hdefined : mem.undefined = false) (entry : BitVec 64) : (initCore GPR mem entry).InOrder :=
  ⟨hmem.congr (fun _ ↦ rfl) rfl rfl, rfl, hdefined⟩

def initConfig (GPR : ℕ → BitVec 64) (mem : Mem) (entry : BitVec 64) : Config Guest :=
  (initCore GPR mem entry).config entry

/-- A program ends with a `HLT`, or when it returns from its main function. -/
def ProgramEnds (build : Build) (b : Config Guest) : Prop :=
  b.pc = RET_FROM_MAIN_ADDR ∨
    Executes Guest.platform (fun _ ↦ Emulated build) b (.error .halt)

/-- An instruction that halts loads nothing. -/
theorem executes_of_halt {build : Build} {loads : BitVec 64 → Prop} {a : Config Guest}
    (h : Executes Guest.platform (fun _ ↦ Emulated build) a (.error .halt)) :
    Executes Guest.platform (Runs build loads) a (.error .halt) := by
  obtain ⟨i, hi, hfetch, hexec⟩ := h
  refine ⟨i, ⟨hi, fun addr haddr ↦ ?_⟩, hfetch, hexec⟩
  cases i with
  | ldur imm9 rn rt =>
    simp only [Command.exec] at hexec
    split at hexec <;> cases hexec
  | _ => cases haddr

theorem seqStep_of_ends {build : Build} {c : Core} (hc : c.InOrder) {b : Config Guest}
    (hconfig : c.config b.pc = b) (h : ProgramEnds build b) :
    seqStep build (c, b.pc) = throw (.halted c) := by
  rcases h with hzero | hhalt
  · rw [hzero]
    exact if_pos rfl
  · rw [← hconfig] at hhalt
    exact follows_of_executes hc
      (fun addr (haddr : LoadDefined c.mem.cache c.mem.checkpoint addr) ↦ haddr)
      (executes_of_halt hhalt)

/-- The sequential machine halts where a program ends. -/
theorem seqRun_of_ends {build : Build} {GPR : ℕ → BitVec 64} {mem : Mem} (hmem : mem.Ok)
    (hdefined : mem.undefined = false) {entry : BitVec 64} {n : ℕ} {b : Config Guest}
    (h : Executed Guest.platform (Runs build mem.loads) n (initConfig GPR mem entry) b)
    (hends : ProgramEnds build b) :
    ∃ c, seqRun build (n + 1) (initCore GPR mem entry, entry) = throw (.halted c) ∧
      c.config b.pc = b ∧ c.mem.undefined = false := by
  obtain ⟨c, hrun, hc, hconfig, -⟩ :=
    seqRun_of_executed (initCore_inOrder GPR hmem hdefined entry) rfl h
  refine ⟨c, ?_, hconfig, hc.defined⟩
  rw [seqRun_succ, hrun, pure_bind]
  exact seqStep_of_ends hc hconfig hends

/-- Whatever `n` instructions of a program do in A64, the sequential machine does, with any cache in
order and without one, if the loads are defined with it: it comes to the same registers, flags,
bytes, inputs and outputs, it has done nothing undefined, it halts where the program ends, and it
does not go on where a data access is refused. -/
theorem seqRun_executes (build : Build) (GPR : ℕ → BitVec 64) (mem : Mem) (hmem : mem.Ok)
    (hdefined : mem.undefined = false) (entry : BitVec 64) (n : ℕ) (b : Config Guest)
    (h : Executed Guest.platform (Runs build mem.loads) n (initConfig GPR mem entry) b) :
    ∃ c, seqRun build n (initCore GPR mem entry, entry) = pure (c, b.pc) ∧ c.config b.pc = b ∧
      c.mem.undefined = false ∧
      (ProgramEnds build b →
        seqRun build (n + 1) (initCore GPR mem entry, entry) = throw (.halted c)) ∧
      (Executes Guest.platform (Runs build mem.loads) b (.error .abort) →
        Follows build c b.pc (.error .abort)) := by
  obtain ⟨c, hrun, hc, hconfig, hframe⟩ :=
    seqRun_of_executed (initCore_inOrder GPR hmem hdefined entry) rfl h
  refine ⟨c, hrun, hconfig, hc.defined, fun hends ↦ ?_, fun habort ↦ ?_⟩
  · rw [seqRun_succ, hrun, pure_bind]
    exact seqStep_of_ends hc hconfig hends
  · rw [← hconfig] at habort
    exact follows_of_executes hc (fun _ haddr ↦ LoadDefined.frame haddr hframe) habort

/-- `MOVZ X0, #5; RET` ends with 5 in `X0`. -/
theorem executed_movz {mem : Mem} {loads : BitVec 64 → Prop}
    (hguest : mem.guest = (textImage [0xD28000A0, 0xD65F03C0]).guest) :
    ∃ b, Executed Guest.platform (Runs pipeBuild loads) 2
        (initConfig (fun _ ↦ 0) mem (segStarts .text)) b ∧
      b.pc = RET_FROM_MAIN_ADDR ∧ b.state.X 0 = 5 ∧ b.mem = mem.guest := by
  have hmovz : Guest.platform.fetch (textImage [0xD28000A0, 0xD65F03C0]).guest (segStarts .text) =
      some (Command.process (.moveWide false 0 5 0)).encode := by decide +kernel
  have hret : Guest.platform.fetch (textImage [0xD28000A0, 0xD65F03C0]).guest
      (segStarts .text + 4) = some (Command.ret 30).encode := by decide +kernel
  rw [← hguest] at hmovz hret
  have hrn : (30 : BitVec 5) ≠ 31 := by decide
  exact ⟨_, .tail (.tail (.refl _) ⟨.process (.moveWide false 0 5 0), ⟨trivial, nofun⟩, hmovz, rfl⟩)
    ⟨.ret 30, ⟨hrn, nofun⟩, hret, rfl⟩, rfl, rfl, rfl⟩

/-- The sequential machine with a cache halts behind the two instructions. -/
theorem seqRun_executes_movz :
    ∃ c, seqRun pipeBuild 3 (initCore (fun _ ↦ 0)
        ((textImage [0xD28000A0, 0xD65F03C0]).withEmptyCache 1 8 16 3) (segStarts .text),
        segStarts .text) = throw (.halted c) ∧ c.regs.GPR 0 = 5 := by
  have hvalid : (createCache 1 8 16 3).Valid 3 1 :=
    ⟨by decide, by decide, rfl, by decide, rfl, by decide⟩
  have hmem := Mem.withEmptyCache_ok hvalid (m := textImage [0xD28000A0, 0xD65F03C0]) rfl
  obtain ⟨b, hb, hpc, hX, -⟩ := executed_movz hmem.2.guest
  obtain ⟨c, -, hconfig, -, hends, -⟩ :=
    seqRun_executes pipeBuild (fun _ ↦ 0) _ (.inr ⟨3, 1, hmem.1⟩) rfl (segStarts .text) 2 b hb
  refine ⟨c, hends (.inl hpc), ?_⟩
  rw [← hX, ← hconfig]
  rfl

/-! ## The pipeline -/

theorem Core.Same.config {c c' : Core} (h : c.Same c') (pc : BitVec 64) :
    c'.config pc = c.config pc := by
  unfold Core.config
  rw [h.regs, h.NZCV, h.mem.guest]

/-- The instructions of the text predict no address of the data segments. -/
def Guest.PredictsText (g : Guest) : Prop :=
  ∀ pc insnbits, Guest.platform.fetch g pc = some insnbits →
    decodeOpcode pipeBuild insnbits ≠ .hlt → decodeOpcode pipeBuild insnbits ≠ .error →
      predictPC pc insnbits (decodeOpcode pipeBuild insnbits) < g.seg_start_addr .data

theorem predictsText_of_guest {m : Mem} (hm : m.Ok) (h : m.guest.PredictsText) :
    m.PredictsText := by
  intro pc hpc herr insnbits hhlt herror
  have hfetch : Guest.platform.fetch m.guest pc = some insnbits := by
    have hsome : Guest.platform.fetch m.guest pc = some ((m.guest.wordAt pc 4).setWidth 32) :=
      if_pos ⟨hpc, by rw [isText_guest, herr]; rfl⟩
    rw [hsome, ← (fetch_guest hm hsome).2.2]
  have hlt : _ < m.seg_start_addr .data := h pc insnbits hfetch hhlt herror
  unfold usesCache
  rw [decide_eq_false (BitVec.not_le.mpr hlt), Bool.and_false]

/-- Without a cache no prediction matters. -/
theorem predictsText_of_cache {m : Mem} (hm : m.Ok)
    (h : m.cache = none ∨ m.guest.PredictsText) : m.PredictsText := by
  rcases h with hcache | hguest
  · exact Mem.predictsText_of_cacheless hcache
  · exact predictsText_of_guest hm hguest

/-- A program that ends in A64 makes the pipeline halt, with the registers, the flags, the bytes of
the memory and the output that it has in A64: without a cache, and with any cache in order if the
text predicts no address of the data segments.  The loads must be defined with the cache. -/
theorem runElf_executes (GPR : ℕ → BitVec 64) (mem : Mem) (hmem : mem.Ok)
    (hdefined : mem.undefined = false) (htext : mem.cache = none ∨ mem.guest.PredictsText)
    (entry : BitVec 64) (n : ℕ) (b : Config Guest)
    (h : Executed Guest.platform (Runs pipeBuild mem.loads) n (initConfig GPR mem entry) b)
    (hends : ProgramEnds pipeBuild b) :
    ∃ s N, (∀ cycle_max, N ≤ cycle_max →
        runElf pipeBuild cycle_max (fun _ ↦ defaultOrder) GPR mem entry = .ok s) ∧
      s.status = .hlt ∧ archState s.regs s.NZCV = b.state ∧ s.mem.guest = b.mem ∧
      s.mem.undefined = false := by
  obtain ⟨c, hhalt, hconfig, hc⟩ := seqRun_of_ends hmem hdefined h hends
  obtain ⟨s, N, hN, hstatus, hsame⟩ :=
    runElf_halts_quietly hmem (predictsText_of_cache hmem htext) hhalt
  have hfinal : s.core.config b.pc = b := (hsame.config b.pc).trans hconfig
  have hmem' : s.mem.undefined = c.mem.undefined := hsame.mem.undefined
  exact ⟨s, N, hN, hstatus, congrArg Config.state hfinal, congrArg Config.mem hfinal,
    hmem'.trans hc⟩

/-- A text of `MOVZ X0, #5; RET`. -/
theorem predictsText_movz {g : Guest} (hseg : g.seg_start_addr = segStarts)
    (hfirst : (g.wordAt 0x400000 4).setWidth 32 = (0xD28000A0 : BitVec 32))
    (hsecond : (g.wordAt 0x400004 4).setWidth 32 = (0xD65F03C0 : BitVec 32))
    (hrest : ∀ a, ¬(a - 0x400000).toNat < 8 → g.view a = 0) : g.PredictsText := by
  intro pc insnbits hfetch hhlt herror
  simp only [Guest.platform, Option.ite_none_right_eq_some, Option.some.injEq] at hfetch
  obtain ⟨⟨-, htext⟩, rfl⟩ := hfetch
  unfold Guest.isText at htext
  rw [Bool.and_eq_true, beq_iff_eq] at htext
  have haligned := htext.2
  rw [hseg]
  by_cases hpc : pc = 0x400000
  · rw [hpc, hfirst]
    decide
  · by_cases hpc' : pc = 0x400004
    · rw [hpc', hsecond]
      decide
    · -- the rest of the text is empty
      refine absurd ?_ herror
      have hzero : ∀ i < 4, g.view (pc + BitVec.ofNat 64 i) = 0 := by
        intro i hi
        apply hrest
        bv_omega
      rw [Guest.wordAt, LittleEndian.word_congr hzero]
      rfl

/-- With a cache of one line for each of two sets. -/
theorem runElf_executes_movz : ∃ s N, (∀ cycle_max, N ≤ cycle_max →
      runElf pipeBuild cycle_max (fun _ ↦ defaultOrder) (fun _ ↦ 0)
        ((textImage [0xD28000A0, 0xD65F03C0]).withEmptyCache 1 8 16 3) (segStarts .text) = .ok s) ∧
    s.status = .hlt ∧ s.regs.GPR 0 = 5 ∧
    s.mem.guest = (textImage [0xD28000A0, 0xD65F03C0]).guest := by
  have hvalid : (createCache 1 8 16 3).Valid 3 1 :=
    ⟨by decide, by decide, rfl, by decide, rfl, by decide⟩
  have hmem := Mem.withEmptyCache_ok hvalid (m := textImage [0xD28000A0, 0xD65F03C0]) rfl
  have htext : (textImage [0xD28000A0, 0xD65F03C0]).guest.PredictsText := by
    refine predictsText_movz rfl (by decide +kernel) (by decide +kernel) fun a ha ↦ ?_
    have hfirst : ¬(a - 0x400000).toNat < 4 := by bv_omega
    have hsecond : ¬(a - 0x400004).toNat < 4 := by bv_omega
    have hcache : (textImage [0xD28000A0, 0xD65F03C0]).cache = none := rfl
    refine (Mem.view_of_cacheless hcache a).trans ?_
    refine (byteAt_memWriteLE _ _ _ (by decide) _).trans ((if_neg hsecond).trans ?_)
    exact (byteAt_memWriteLE _ _ _ (by decide) _).trans (if_neg hfirst)
  obtain ⟨b, hb, hpc, hX, hguest⟩ := executed_movz hmem.2.guest
  obtain ⟨s, N, hN, hstatus, hstate, hfinal, -⟩ := runElf_executes (fun _ ↦ 0)
    ((textImage [0xD28000A0, 0xD65F03C0]).withEmptyCache 1 8 16 3) (.inr ⟨3, 1, hmem.1⟩) rfl
    (.inr (hmem.2.guest.symm ▸ htext)) (segStarts .text) 2 b hb (.inl hpc)
  refine ⟨s, N, hN, hstatus, ?_, hfinal.trans (hguest.trans hmem.2.guest)⟩
  rw [← hX, ← hstate]
  rfl

end SystemEmulator
