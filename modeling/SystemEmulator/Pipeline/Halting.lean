import SystemEmulator.Pipeline.Progress
import SystemEmulator.Cycle.Orders

/-!
# The pipeline refines the sequential machine

Without a cache every fetch on the path of a program that halts only materialises a page: the one
address from which a fetch has another effect is no multiple of four, so the sequential machine
stops there with an illegal instruction.  The pipeline then halts in the state of the sequential
machine.
-/

namespace SystemEmulator

open Outcome Result Relation

/-! ## Word addresses -/

def WordAligned (pc : BitVec 64) : Prop := pc.toNat % 4 = 0

instance (pc : BitVec 64) : Decidable (WordAligned pc) := inferInstanceAs (Decidable (_ = _))

theorem wordAligned_of_imemErr {m : Mem} {pc : BitVec 64} (h : imemErr m pc = false) :
    WordAligned pc := by
  unfold imemErr at h
  rw [Bool.or_eq_false_iff, bne_eq_false_iff_eq] at h
  have hlow := congrArg BitVec.toNat h.2
  rw [BitVec.toNat_and] at hlow
  change pc.toNat &&& (2 ^ 2 - 1) = 0 at hlow
  rwa [Nat.and_two_pow_sub_one_eq_mod] at hlow

theorem WordAligned.ne_io {pc : BitVec 64} (h : WordAligned pc) : pc ≠ IO_CHAR_ADDR := by
  rintro rfl
  exact absurd h (by decide)

theorem WordAligned.ne_checkpoint {pc : BitVec 64} (h : WordAligned pc) :
    pc ≠ CHECKPOINT_ADDR := by
  rintro rfl
  exact absurd h (by decide)

theorem WordAligned.add {pc offset : BitVec 64} (h : WordAligned pc) (h' : WordAligned offset) :
    WordAligned (pc + offset) := by
  unfold WordAligned at *
  rw [BitVec.toNat_add]
  omega

theorem wordAligned_shift (offset : BitVec 64) : WordAligned (offset <<< 2) := by
  unfold WordAligned
  rw [BitVec.toNat_shiftLeft, Nat.shiftLeft_eq]
  omega

/-- A fetch that finds an instruction predicts a word address. -/
theorem wordAligned_fetchedPC {m : Mem} {pc : BitVec 64} (h : imemErr m pc = false)
    (insnbits : BitVec 32) : WordAligned (fetchedPC pipeBuild pc insnbits false) := by
  have hpc := wordAligned_of_imemErr h
  have hnext : WordAligned (pc + 4) := hpc.add (by decide)
  unfold fetchedPC predictPC
  simp only [Bool.false_eq_true, ↓reduceIte]
  split
  · exact hpc.add (wordAligned_shift _)
  · exact hpc.add (wordAligned_shift _)
  · exact hpc.add (wordAligned_shift _)
  · exact hpc.add (wordAligned_shift _)
  · exact hpc.add (wordAligned_shift _)
  · exact hnext

/-! ## Where the pipeline fetches -/

/-- Only a halt counts as a halt. -/
theorem HaltAs.of_halted {L : Prop} {e : Halt} {c : Core} (h : HaltAs L e (.halted c)) :
    ∃ c', e = .halted c' ∧ c'.Same c := by
  rcases h with h | ⟨-, -, pc, -, hpc⟩
  · cases h with
    | halted h => exact ⟨_, rfl, h⟩
  · cases hpc

section

variable {L : Prop} {e : Halt} {n : ℕ} {s s' : Machine}

/-- Where the fetch goes on after a wrongly predicted branch in memory or a return in execute. -/
theorem redirect_of_drain (hs : s.Shape) {c : Core} {redirect : Option (BitVec 64)}
    (h : drain s = pure (c, redirect))
    (hredirected : s.X_out.op = .ret ∨ s.M_out.mispredicted = true) :
    redirect = some (currentPC pipeBuild s) := by
  obtain ⟨c₁, c₂, -, -, ⟨hmispred, heq⟩ | ⟨hmispred, hX⟩⟩ := drain_eq_pure h
  · rw [currentPC_of_mispredicted hs hmispred]
    exact congrArg Prod.snd heq
  · have hret : s.X_out.op = .ret := by
      rcases hredirected with hret | hcontra
      · exact hret
      · rw [hmispred] at hcontra
        cases hcontra
    rw [currentPC_of_ret hs hret]
    obtain ⟨c₃, -, ⟨pc, hpc, heq⟩ | ⟨hnone, -⟩⟩ := drainX_eq_pure hX
    · exact (congrArg Prod.snd heq).trans (hpc.symm.trans (redirect_of_ret hret _))
    · rw [redirect_of_ret hret] at hnone
      cases hnone

/-- Behind a redirect there is no stop in the pipeline. -/
theorem Expects.drain_of_redirected (h : Expects L e n s) (he : e.IsStop) (hs : s.Shape)
    (hW : s.W_out.status.passes = true)
    (hredirected : s.X_out.op = .ret ∨ s.M_out.mispredicted = true) : ∃ a, drain s = pure a := by
  rcases Outcome.cases_on (drain s) with ha | ⟨e', he'⟩ | hhang
  · exact ha
  · exfalso
    have hD : s.D_out.op = .nop := by
      rcases hredirected with hret | hmispred
      · exact hs.after_ret hret
      · exact (hs.after_mispredicted hmispred).2
    have hX : s.X_out.op = .ret ∨ s.X_out.op = .nop := by
      rcases hredirected with hret | hmispred
      · exact .inl hret
      · exact .inr (hs.after_mispredicted hmispred).1
    rcases stop_of_drain ((h.of_throw he').isStop he) he' hW with hstop | hstop | hstop
    · rcases hX with hX | hX <;> rw [hs.after_M hstop] at hX <;> cases hX
    · rcases hs.wf.X_out.status.isStop_iff.mp hstop with hop | hop <;> rw [hop] at hX <;>
        rcases hX with hX | hX <;> cases hX
    · rcases hs.wf.D_out.status.isStop_iff.mp hstop with hop | hop <;> rw [hop] at hD <;> cases hD
  · exact absurd hhang h.not_hang

/-- The sequential machine that halts does not go on outside the text segment. -/
theorem Expects.imemErr {c c' : Core} {pc : BitVec 64} (h : Expects L (.halted c) n s)
    (hresume : resume s = pure (c', pc)) (hready : c'.mem.dmem_status ≠ .inFlight) :
    pc = 0 ∨ SystemEmulator.imemErr c'.mem pc = false := by
  by_cases hpc : pc = 0
  · exact .inl hpc
  · right
    rw [Bool.eq_false_iff]
    intro herr
    unfold Expects at h
    rw [hresume, pure_bind] at h
    cases n with
    | zero =>
      obtain ⟨e', he', -⟩ := h.of_throw
      exact absurd he' pure_ne_throw
    | succ n =>
      have hstep : seqStep pipeBuild (c', pc) = throw (.illegal (pc + 4 - 4)) := by
        have hwf : ∀ word, (fetchedInstr pipeBuild pc word true).WF := fun word ↦
          wf_fetchedInstr _ _ _ _
        rw [seqStep_eq true hpc hready, herr, drainD_of_isStop (hwf _) rfl hready]
        rfl
      change AlikeUpTo L (seqStep pipeBuild (c', pc) >>= _) _ at h
      rw [hstep] at h
      obtain ⟨e', he', hsame⟩ := h.of_throw
      obtain ⟨c₁, rfl, -⟩ := hsame.of_halted
      cases throw_inj he'

/-- A redirected fetch reads the instruction memory. -/
theorem Expects.not_io {c : Core} (h : Expects L (.halted c) n s) (hs : s.Shape)
    (hW : s.W_out.status.passes = true)
    (hredirected : s.X_out.op = .ret ∨ s.M_out.mispredicted = true) :
    currentPC pipeBuild s ≠ IO_CHAR_ADDR := by
  obtain ⟨⟨c', redirect⟩, hdrain⟩ := h.drain_of_redirected trivial hs hW hredirected
  have hreaches := (reaches_of_drain hdrain).2.2
  have hresume : resume s = pure (c', currentPC pipeBuild s) := by
    unfold resume
    rw [hdrain, redirect_of_drain hs hdrain hredirected]
    rfl
  rcases h.imemErr hresume hreaches.ready with hzero | herr
  · rw [hzero]
    decide
  · exact (wordAligned_of_imemErr herr).ne_io

/-- A stop in writeback is a halt when a halt is expected. -/
theorem Expects.not_error {c : Core} (h : Expects L (.halted c) n s) :
    s.W_out.status.isError = false := by
  rw [Bool.eq_false_iff]
  intro herror
  have hthrow : ∃ e', drain s = throw e' ∧ ∀ c', e' ≠ .halted c' := by
    unfold drain drainFrom writeback
    cases hstatus : s.W_out.status with
    | bub =>
      rw [hstatus] at herror
      cases herror
    | aok =>
      rw [hstatus] at herror
      cases herror
    | hlt =>
      rw [hstatus] at herror
      cases herror
    | ins => exact ⟨_, rfl, fun _ hcontra ↦ nomatch hcontra⟩
    | adr => exact ⟨_, rfl, fun _ hcontra ↦ nomatch hcontra⟩
  obtain ⟨e', hdrain, hne⟩ := hthrow
  obtain ⟨c₁, rfl, -⟩ := (h.of_throw hdrain).of_halted
  exact hne c₁ rfl

/-! ## The invariant of a run that halts -/

/-- The predicted PC is a word address, or it is not used. -/
def Machine.AlignedPC (s : Machine) : Prop :=
  s.F_in.status.isStop = true ∨ WordAligned s.F_out.pred_PC ∨ s.X_out.op = .ret ∨
    s.M_out.mispredicted = true

/-- The states of a run without a cache whose program halts in `c`. -/
structure Machine.Halts (c : Core) (s : Machine) : Prop where
  inv : s.Inv True
  expects : ∃ n, Expects True (.halted c) n s
  cacheless : s.mem.cache = none
  aligned : s.AlignedPC

variable {c : Core}

/-- A fetch that reads follows a redirect, or the predicted PC is used. -/
theorem Expects.reads_cases {n : ℕ} (h : Expects True (.halted c) n s) (hs : s.Shape)
    {P : BitVec 64 → Prop}
    (hP : s.F_in.status.isStop = true ∨ P s.F_out.pred_PC ∨ s.X_out.op = .ret ∨
      s.M_out.mispredicted = true) (hreads : generatesHlt pipeBuild s = false) :
    s.W_out.status.passes = true ∧ (s.X_out.op = .ret ∨ s.M_out.mispredicted = true) ∨
      P (currentPC pipeBuild s) := by
  have hW : s.W_out.status.passes = true := by
    by_contra hW
    -- a halt in writeback is followed by generated halts
    have hstop := (stop_in_writeback h trivial (Bool.eq_false_of_not_eq_true hW)).1
    have hM := hs.after_W hstop
    have hX := hs.after_M (hs.wf.M_out.status.isStop_iff.mpr (.inl hM))
    have hD := hs.after_X (hs.wf.X_out.status.isStop_iff.mpr (.inl hX))
    have hgen := (generatesHlt_of_stop hs (hs.wf.D_out.status.isStop_iff.mpr (.inl hD))).2
    rw [hreads] at hgen
    cases hgen
  by_cases hredirected : s.X_out.op = .ret ∨ s.M_out.mispredicted = true
  · exact .inl ⟨hW, hredirected⟩
  · have hnot := hredirected
    rw [not_or, Bool.not_eq_true] at hnot
    rw [currentPC_of_not_redirected hs hnot.1 hnot.2]
    rcases hP with hstop | hpred | hcontra
    · rw [← clearedStatus_of_not_redirected hs hnot.1 hnot.2,
        (not_generatesHlt_iff.mp hreads).2] at hstop
      cases hstop
    · exact .inr hpred
    · exact absurd hcontra hredirected

theorem Machine.Halts.fetchesQuietly (h : s.Halts c) : s.FetchesQuietly := by
  obtain ⟨n, hn⟩ := h.expects
  have hcache := usesCache_of_cacheless h.cacheless (currentPC pipeBuild s)
  cases hhlt : generatesHlt pipeBuild s with
  | true => exact .inl hhlt
  | false =>
    refine .inr ⟨(not_generatesHlt_iff.mp hhlt).1, ?_, fun _ ↦ logTraps_of_cacheless h.cacheless,
      .inr hcache⟩
    rcases hn.reads_cases h.inv.toShape h.aligned hhlt with ⟨hW, hredirected⟩ | haligned
    · exact hn.not_io h.inv.toShape hW hredirected
    · exact haligned.ne_io

/-- The latch of the fetch stage stays set unless it is redirected. -/
theorem isStop_latched {r : Mem × DInstr × BitVec 64} {q : Mem × WInstr} (hs : s.Shape)
    (h : CycleEffect s r q s') (hret : s.X_out.op ≠ .ret) (hmispred : s.M_out.mispredicted = false)
    (hstop : s.F_in.status.isStop = true) : s'.F_in.status.isStop = true := by
  have hcleared := clearedStatus_of_not_redirected hs hret hmispred
  rw [h.F_in, fetchResult_of_generatesHlt (generatesHlt_of_cleared (hcleared.symm ▸ hstop)) h.fetch]
  exact isStop_latchedStatus rfl

section

variable {r : Mem × DInstr × BitVec 64} {q : Mem × WInstr} (heffect : CycleEffect s r q s')
include heffect

/-- A fetch that hands on no stop has read a valid instruction. -/
theorem fetched_of_not_stop (hquiet : s.FetchesQuietly) (hstop : r.2.1.status.isStop = false) :
    currentPC pipeBuild s ≠ 0 ∧
      SystemEmulator.imemErr s.mem (currentPC pipeBuild s) = false ∧
      decodeOpcode pipeBuild (fetchedWord s.mem.ptable (currentPC pipeBuild s)) ≠ .hlt ∧
      decodeOpcode pipeBuild (fetchedWord s.mem.ptable (currentPC pipeBuild s)) ≠ .error ∧
      r.2.2 = fetchedPC pipeBuild (currentPC pipeBuild s)
        (fetchedWord s.mem.ptable (currentPC pipeBuild s)) false := by
  have hhlt : generatesHlt pipeBuild s = false := by
    rw [Bool.eq_false_iff]
    intro hhlt
    rw [fetchResult_of_generatesHlt hhlt heffect.fetch] at hstop
    cases hstop
  obtain ⟨hzero, hD_in, hF_PC⟩ := fetchResult_of_not_generatesHlt hquiet hhlt heffect.fetch
  rw [hD_in] at hstop
  unfold Core.fetched at hstop
  have himem : SystemEmulator.imemErr s.mem (currentPC pipeBuild s) = false := by
    rw [Bool.eq_false_iff]
    intro himem
    rw [show SystemEmulator.imemErr s.core.mem _ = true from himem] at hstop
    cases hstop
  have hwf := wf_fetchedInstr pipeBuild (currentPC pipeBuild s)
    (fetchedWord s.mem.ptable (currentPC pipeBuild s)) false
  rw [show SystemEmulator.imemErr s.core.mem _ = false from himem] at hstop
  replace hstop := (not_congr hwf.status.isStop_iff).mp (Bool.eq_false_iff.mp hstop)
  rw [not_or] at hstop
  exact ⟨hzero, himem, hstop.1, hstop.2, himem ▸ hF_PC⟩

/-- What holds of the predicted PC, where it is used, holds after a cycle when it holds of the PC
that the fetch predicts. -/
theorem predicts_cycle {P : BitVec 64 → Prop} (hs : s.Shape)
    (hrequests : ¬(s.requests r.2.1 q).Contradictory) (herror : s'.W_out.status.isError = false)
    (hP : s.F_in.status.isStop = true ∨ P s.F_out.pred_PC ∨ s.X_out.op = .ret ∨
      s.M_out.mispredicted = true)
    (hnext : r.2.1.status.isStop = false → P r.2.2) :
    s'.F_in.status.isStop = true ∨ P s'.F_out.pred_PC ∨ s'.X_out.op = .ret ∨
      s'.M_out.mispredicted = true := by
  cases heffect.kind hs.ec_D hrequests with
  | frozen hflight hpred hD hX hM hW =>
    rw [hpred, hX, hM]
    by_cases hredirected : s.X_out.op = .ret ∨ s.M_out.mispredicted = true
    · exact .inr (.inr hredirected)
    · have hnot := hredirected
      rw [not_or, Bool.not_eq_true] at hnot
      rcases hP with hstop | hpred | hcontra
      · exact .inl (isStop_latched hs heffect hnot.1 hnot.2 hstop)
      · exact .inr (.inl hpred)
      · exact absurd hcontra hredirected
  | loadUse hready huse hpred hD hX hM hW =>
    have hldur := ldur_of_loadUse huse
    have hret : s.X_out.op ≠ .ret := by
      rw [hldur]
      decide
    have hmispred : s.M_out.mispredicted = false := by
      apply hs.not_mispredicted
      rw [hldur]
      exact Opcode.noConfusion
    rw [hpred]
    rcases hP with hstop | hpred | hcontra | hcontra
    · exact .inl (isStop_latched hs heffect hret hmispred hstop)
    · exact .inr (.inl hpred)
    · exact absurd hcontra hret
    · rw [hmispred] at hcontra
      cases hcontra
  | squash hready hmispred hD hX hM hW => exact .inr (.inr (.inr (hM ▸ hmispred)))
  | ret hready huse hmispred hret hD hX hM hW => exact .inr (.inr (.inl (hX ▸ hret)))
  | load hready huse hmispred hret hpred hD hX hM hW =>
    cases hstop : r.2.1.status.isStop with
    | true =>
      left
      rw [heffect.F_in]
      exact isStop_latchedStatus hstop
    | false =>
      right; left
      rw [hW] at herror
      rw [hpred, hstop, if_neg (by decide), heffect.PC, herror, if_neg (by decide)]
      exact hnext hstop

/-- One cycle keeps the predicted PC a word address. -/
theorem alignedPC_cycle (h : s.Halts c) (hrequests : ¬(s.requests r.2.1 q).Contradictory)
    (herror : s'.W_out.status.isError = false) : s'.AlignedPC := by
  refine predicts_cycle heffect h.inv.toShape hrequests herror h.aligned fun hstop ↦ ?_
  obtain ⟨-, himem, -, -, hPC⟩ := fetched_of_not_stop heffect h.fetchesQuietly hstop
  rw [hPC]
  exact wordAligned_fetchedPC himem _

end

theorem CycleEffect.frame {r : Mem × DInstr × BitVec 64} {q : Mem × WInstr}
    (h : CycleEffect s r q s') : s.mem.Frame s'.mem := by
  rw [h.mem]
  exact (fetchResult_frame _ _ _ _ r h.fetch).trans (accessed_frame _ _ q h.access).1

theorem Machine.Halts.step (h : s.Halts c) (hstep : Step pipeBuild defaultOrder s s')
    (hrun : s'.running = true) : s'.Halts c := by
  have hquiet := h.fetchesQuietly
  obtain ⟨n, hn⟩ := h.expects
  obtain ⟨r, q, heffect, hrequests, hW⟩ := effect_of_running h.inv.toShape hstep.2 hrun
  obtain ⟨hinv, hsim⟩ := h.inv.step ⟨hstep, hquiet, .inl trivial⟩ hrun
  have hexpects : ∃ m, Expects True (.halted c) m s' := by
    rcases hsim with hstutter | hnext
    · exact ⟨n, hn.stutter hstutter⟩
    · cases n with
      | zero => exact ⟨0, hn.of_throw' hnext⟩
      | succ m => exact ⟨m, hn.advance hnext⟩
  obtain ⟨m, hm⟩ := hexpects
  refine ⟨hinv, ⟨m, hm⟩, ?_, alignedPC_cycle heffect h hrequests hm.not_error⟩
  have hgeometry := heffect.frame.geometry
  rw [h.cacheless] at hgeometry
  simpa using hgeometry

end

/-! ## The refinement -/

theorem initMachine_halts {n : ℕ} {c : Core} (GPR : ℕ → BitVec 64) {mem : Mem}
    (hcache : mem.cache = none) {entry : BitVec 64}
    (hseq : seqRun pipeBuild n (initCore GPR mem entry, entry) = throw (.halted c)) :
    (initMachine GPR mem entry).Halts c := by
  have hresume := resume_initMachine GPR mem entry
  have hready : (initCore GPR mem entry).mem.dmem_status ≠ .inFlight := MemStatus.noConfusion
  have hexpects : Expects True (.halted c) n (initMachine GPR mem entry) := by
    unfold Expects
    rw [hresume, pure_bind, hseq]
    exact (Alike.refl _).upTo
  refine ⟨initMachine_inv True GPR (.inl hcache) entry, ⟨n, hexpects⟩, hcache, .inr (.inl ?_)⟩
  rcases hexpects.imemErr hresume hready with hzero | herr
  · rw [hzero]
    exact Nat.zero_mod 4
  · exact wordAligned_of_imemErr herr

/-- A program on which the sequential machine halts makes the pipeline halt, with the same
registers, flags and memory, and after the same output. -/
theorem runElf_refines_seqRun (GPR : ℕ → BitVec 64) (mem : Mem) (entry : BitVec 64)
    (hcache : mem.cache = none) (n : ℕ) (c : Core)
    (hseq : seqRun pipeBuild n (initCore GPR mem entry, entry) = throw (.halted c)) :
    ∃ s N, (∀ cycle_max, N ≤ cycle_max →
        runElf pipeBuild cycle_max (fun _ ↦ defaultOrder) GPR mem entry = .ok s) ∧
      s.status = .hlt ∧ s.regs = c.regs ∧ s.NZCV = c.NZCV ∧
      (∀ a, byteAt s.mem.ptable a = byteAt c.mem.ptable a) ∧ s.mem.output = c.mem.output := by
  have hinit := initMachine_halts GPR hcache hseq
  obtain ⟨k, hk⟩ := hinit.expects
  obtain ⟨t, hreach, htrun, ht, hstop, e', hdrain, hsame⟩ :=
    reaches_stop (e := .halted c) (fun s hs ↦ ⟨hs.inv, hs.fetchesQuietly⟩)
      (fun s s' hs ↦ hs.step) trivial hinit (initMachine_running GPR mem entry) hk
  obtain ⟨s', hcycle, hstatus, hregs, hNZCV, hmem⟩ :=
    final_cycle ht.inv.toShape ht.fetchesQuietly hstop
  have hhlt : t.W_out.status = .hlt := by
    rcases isStop_cases hstop with hhlt | hins
    · exact hhlt
    · obtain ⟨m, hm⟩ := ht.expects
      have herror := hm.not_error
      rw [hins] at herror
      cases herror
  have hcore : t.core.Same c := by
    have hdrain' : drain t = throw (.halted t.core) := by
      unfold drain drainFrom writeback
      rw [hhlt]
      rfl
    obtain ⟨c', rfl, hcore⟩ := hsame.of_halted
    rw [hdrain'] at hdrain
    cases throw_inj hdrain
    exact hcore
  have hrunning : s'.running = false := by
    rw [s'.running_eq, hstatus, hhlt]
    rfl
  obtain ⟨N, hN⟩ := runLoop_of_run hreach ⟨htrun, hcycle⟩ hrunning
  obtain ⟨pt, hpt, hcontent⟩ := hcore.mem.symm.trans hmem
  refine ⟨s', N, fun cycle_max hmax ↦ hN _ (hmax.trans (le_max_right 1 _)), hstatus.trans hhlt,
    hregs.trans hcore.regs.symm, hNZCV.trans hcore.NZCV.symm, fun a ↦ ?_, ?_⟩
  · rw [hpt]
    exact (hcontent a).symm
  · rw [hpt]

/-- An instruction that makes no data access. -/
theorem access_of_not_accesses {m : MInstr} (h : m.accesses = false) {c : Core}
    (hready : c.mem.dmem_status ≠ .inFlight) :
    access m c = writeback (m.toWInstr 0 false) (m.multipurpose_val - 4) c := by
  unfold access
  rw [settle_of_done (accessed_of_not_accesses h _) hready]

/-- One step with an instruction that makes no data access. -/
theorem seqStep_of_not_accesses (c : Core) {pc : BitVec 64} (hpc : pc ≠ 0)
    (hready : c.mem.dmem_status ≠ .inFlight)
    (haccesses : (executed (instrAt pipeBuild pc c) c.NZCV).1.accesses = false)
    (hpasses : (instrAt pipeBuild pc c).status.passes = true) :
    seqStep pipeBuild (c, pc) = pure
      (⟨regfileWrite c.regs (instrAt pipeBuild pc c).dst
          ((executed (instrAt pipeBuild pc c) c.NZCV).1.toWInstr 0 false).wval
          ((instrAt pipeBuild pc c).W_sigs.w_enable &&
            (instrAt pipeBuild pc c).status == .aok),
        (instrAt pipeBuild pc c).flags c.NZCV, c.mem⟩,
      nextPC pc (fetchedWord c.mem.ptable pc) (instrAt pipeBuild pc c) c.NZCV) := by
  have hexec : execute (instrAt pipeBuild pc c) c = pure
      ⟨regfileWrite c.regs (instrAt pipeBuild pc c).dst
          ((executed (instrAt pipeBuild pc c) c.NZCV).1.toWInstr 0 false).wval
          ((instrAt pipeBuild pc c).W_sigs.w_enable &&
            (instrAt pipeBuild pc c).status == .aok),
        (instrAt pipeBuild pc c).flags c.NZCV, c.mem⟩ := by
    have hready' : (⟨c.regs, (instrAt pipeBuild pc c).flags c.NZCV, c.mem⟩ : Core).mem.dmem_status ≠
        .inFlight := hready
    rw [execute_eq, access_of_not_accesses haccesses hready']
    exact writeback_of_passes (w := (executed (instrAt pipeBuild pc c) c.NZCV).1.toWInstr 0 false)
      hpasses _ _
  unfold seqStep
  simp only [hpc, ↓reduceIte, hexec, pure_bind]

theorem seqStep_hlt {c : Core} {pc : BitVec 64} (hop : (c.fetched pc).op = .hlt) (hpc : pc ≠ 0)
    (hready : c.mem.dmem_status ≠ .inFlight) : seqStep pipeBuild (c, pc) = throw (.halted c) := by
  have hwf : (c.fetched pc).WF := wf_fetchedInstr _ _ _ _
  have hdrain := drainD_of_isStop hwf (hwf.status.isStop_iff.mpr (.inl hop)) hready
  rw [if_pos hop] at hdrain
  rw [seqStep_eq true hpc hready]
  change _ <$> drainD (c.fetched pc) c = _
  rw [hdrain]
  rfl

/-- `MOVZ X0, #5; HLT` halts with 5 in `X0`. -/
theorem runElf_refines_seqRun_movz :
    ∃ s N, (∀ cycle_max, N ≤ cycle_max →
        runElf pipeBuild cycle_max (fun _ ↦ defaultOrder) (fun _ ↦ 0)
          (textImage [0xD28000A0, 0xD4400000]) (segStarts .text) = .ok s) ∧
      s.status = .hlt ∧
      s.regs = regfileWrite (initCore (fun _ ↦ 0) (textImage [0xD28000A0, 0xD4400000])
        (segStarts .text)).regs 0 5 true ∧
      s.NZCV = packCC false true false false ∧
      (∀ a, byteAt s.mem.ptable a = byteAt (textImage [0xD28000A0, 0xD4400000]).ptable a) ∧
      s.mem.output = [] := by
  let c₀ := initCore (fun _ ↦ 0) (textImage [0xD28000A0, 0xD4400000]) (segStarts .text)
  let c := { c₀ with regs := regfileWrite c₀.regs 0 5 true }
  have hmovz : seqStep pipeBuild (c₀, segStarts .text) = pure (c, segStarts .text + 4) := by
    have hx : instrAt pipeBuild (segStarts .text) c₀ =
        { op := .movz, multipurpose_val := segStarts .text + 4, W_sigs := { w_enable := true },
          ALU_op := .mov, val_imm := 5, dst := 0, status := .aok } := by decide +kernel
    have hpc : segStarts .text ≠ 0 := by decide
    have hstep := seqStep_of_not_accesses c₀ hpc MemStatus.noConfusion (by rw [hx]; rfl)
      (by rw [hx]; rfl)
    rw [hx] at hstep
    exact hstep
  have hhlt : seqStep pipeBuild (c, segStarts .text + 4) = throw (.halted c) :=
    seqStep_hlt (by decide +kernel) (by decide) MemStatus.noConfusion
  refine runElf_refines_seqRun (fun _ ↦ 0) (textImage [0xD28000A0, 0xD4400000]) (segStarts .text)
    rfl 2 c ?_
  change seqStep pipeBuild (c₀, segStarts .text) >>= (fun a ↦ seqStep pipeBuild a >>= _) = _
  rw [hmovz, pure_bind, hhlt]
  rfl

end SystemEmulator
