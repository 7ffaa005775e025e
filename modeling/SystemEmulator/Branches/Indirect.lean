import SystemEmulator.Branches.Delivery

/-!
# Indirect branches

`RET`, `BR` and `BLR` redirect the fetch while they are in execute, with the operand that they took
along from decode.  It is the value of their source register unless the instruction directly before
a `BR` or `BLR` is a load of that register: `check_load_use_hazard` leaves these two out, and
`forward_reg` hands them the address of the load.  The instruction at the target is delivered when
its fetch comes back: a fetch from the data segment goes through the data cache, where it and a data
access can keep each other in flight for ever.
-/

namespace SystemEmulator

open Relation Result Outcome

/-! ## Runs with the record of the instruction in execute -/

/-- A run with a history variable: the decode record of the instruction that is in execute. -/
inductive TracedRun (R : Machine → Machine → Prop) (s₀ : Machine) : Machine → DInstr → Prop
  | start : TracedRun R s₀ s₀ {}
  | step {s s' : Machine} {d : DInstr} (hrun : TracedRun R s₀ s d) (hstep : R s s') :
      TracedRun R s₀ s' (clock s'.X_ctl s.D_out d {})

theorem TracedRun.run {R : Machine → Machine → Prop} {s₀ s : Machine} {d : DInstr}
    (h : TracedRun R s₀ s d) : ReflTransGen R s₀ s := by
  induction h with
  | start => exact .refl
  | step _ hstep ih => exact ih.tail hstep

theorem exists_tracedRun {R : Machine → Machine → Prop} {s₀ s : Machine}
    (h : ReflTransGen R s₀ s) : ∃ d, TracedRun R s₀ s d := by
  induction h with
  | refl => exact ⟨{}, .start⟩
  | tail _ hstep ih =>
    obtain ⟨d, hd⟩ := ih
    exact ⟨_, hd.step hstep⟩

/-! ## The register that a branch reads -/

/-- The instructions older than the one in execute complete, and `c` is the state after them. -/
def Machine.OlderComplete (s : Machine) (c : Core) : Prop :=
  (writeback s.W_out s.PC ⟨s.regs, s.NZCV, { s.mem with dmem_status := .ready }⟩ >>=
    access s.M_out) = pure c

/-- The instruction in execute goes to the value that its source register, the first one of the
decode record `d`, has after all older instructions. -/
structure Machine.BranchesToRegister (s : Machine) (d : DInstr) : Prop where
  op : d.op = s.X_out.op
  target : ∀ c, s.OlderComplete c → s.X_out.val_a = c.regs.read d.src1
  /-- Decode holds a bubble, and the next instruction it gets is the one at the target. -/
  delivered : ∀ s', AnyStep ecBuild s s' →
    (s'.mem.dmem_status = .inFlight ∧ s'.D_out = {} ∧ s'.X_out = s.X_out) ∨
      s.FetchedAt ecBuild s.X_out.val_a s'.D_out
  /-- It gets there when the older instructions complete. -/
  arrives : (∃ c, s.OlderComplete c) → s.Inevitable fun u v ↦
    u.FetchedAt ecBuild s.X_out.val_a v.D_out ∧ v.mem.undefined = false

/-- The fetch at the target of an indirect branch in execute comes back. -/
def Machine.TargetComesBack (s : Machine) : Prop :=
  ComesBack false s.M_out s.X_out.val_a s.mem

/-- A `BR` or `BLR` in decode reads the register that a load in execute will write. -/
def Machine.LoadsTarget (s : Machine) : Prop :=
  checkBrHazard s.D_out.op = true ∧ s.X_out.op = .ldur ∧ s.X_out.dst = s.D_out.src1 ∧
    s.D_out.src1 ≠ XZR_NUM

instance (s : Machine) : Decidable s.LoadsTarget :=
  inferInstanceAs (Decidable (_ ∧ _ ∧ _ ∧ _))

/-- The value of a register after the instructions in memory and writeback, neither of which loads
it. -/
def Machine.olderValue (s : Machine) (src : ℕ) : BitVec 64 :=
  if s.M_out.W_sigs.w_enable = true ∧ s.M_out.dst = src ∧ src ≠ XZR_NUM then s.M_out.val_ex
  else if s.W_out.W_sigs.w_enable = true ∧ s.W_out.dst = src ∧ src ≠ XZR_NUM then s.W_out.wval
  else s.regs.read src

def Machine.loading (s : Machine) (src : ℕ) : Prop :=
  s.M_out.op = .ldur ∧ s.M_out.dst = src ∧ src ≠ XZR_NUM

theorem passes_of_olderComplete {s : Machine} {c : Core} (h : s.OlderComplete c) :
    s.W_out.status.passes = true := by
  unfold Machine.OlderComplete writeback at h
  cases hstatus : s.W_out.status <;> rw [hstatus] at h <;> first
    | rfl
    | exact absurd h.symm pure_ne_throw

/-- The register once the older instructions have completed. -/
theorem read_of_olderComplete {s : Machine} (hs : s.WF) {src : ℕ} (hload : ¬s.loading src)
    {c : Core} (h : s.OlderComplete c) : c.regs.read src = s.olderValue src := by
  have hpass := passes_of_olderComplete h
  unfold Machine.OlderComplete at h
  rw [writeback_of_passes hpass, pure_bind] at h
  obtain ⟨val_mem, hregs⟩ := (completes_of_access h).regs
  rw [hregs, read_regfileWrite, read_regfileWrite, hs.W_out.writes (ne_adr_of_passes hpass),
    hs.M_out.writes]
  unfold Machine.olderValue
  split
  · next hwrite =>
    have hop : s.M_out.op ≠ .ldur := fun hop ↦ hload ⟨hop, hwrite.2⟩
    rw [hs.M_out.W_sigs, wval_sel_eq_false hop]
    rfl
  · rfl

/-! ## The operand of every instruction -/

/-- The first operand of the instruction in execute, with decode record `d`. -/
structure Machine.OperandOk (s : Machine) (d : DInstr) : Prop where
  op : d.op = s.X_out.op
  loading : s.X_out.op ≠ .nop → ¬s.loading d.src1
  val_a : s.X_out.op ≠ .nop → s.X_out.val_a = s.olderValue d.src1

/-- The instruction that leaves decode does not wait for the load in execute. -/
theorem not_loading_of_issued {s : Machine} (huse : s.loadUse = false) (hsafe : ¬s.LoadsTarget) :
    ¬(s.X_out.op = .ldur ∧ s.X_out.dst = s.D_out.src1 ∧ s.D_out.src1 ≠ XZR_NUM) := by
  rintro ⟨hop, hdst, hxzr⟩
  have hbr : checkBrHazard s.D_out.op = false := by
    rw [Bool.eq_false_iff]
    exact fun hbr ↦ hsafe ⟨hbr, hop, hdst, hxzr⟩
  have hcontra : s.loadUse = true :=
    (checkLoadUseHazard_iff _ _ _ _ _).mpr ⟨hbr, hop, hdst ▸ hxzr, .inl hdst⟩
  rw [huse] at hcontra
  cases hcontra

theorem Machine.OperandOk.transfer {ec : Bool} {s s' : Machine} {d : DInstr} (hs : s.OperandOk d)
    (hwf : s.WF) (hsafe : ¬s.LoadsTarget) (hpass : s.W_out.status.passes = true)
    (h : Transfer ec s s') : s'.OperandOk (clock s'.X_ctl s.D_out d {}) := by
  have hregs : ∀ src, s'.regs.read src =
      if s.W_out.W_sigs.w_enable = true ∧ s.W_out.dst = src ∧ src ≠ XZR_NUM then s.W_out.wval
      else s.regs.read src := by
    intro src
    rw [h.regs, read_regfileWrite, hwf.W_out.writes (ne_adr_of_passes hpass)]
  by_cases hready : s'.mem.dmem_status = .inFlight
  · -- the instruction in writeback commits, and everything else stays
    obtain ⟨-, -, hX, hM, hW, hctl⟩ := h.frozen hready
    rw [hctl]
    refine ⟨hX ▸ hs.op, fun hop ↦ ?_, fun hop ↦ ?_⟩
    · unfold Machine.loading
      rw [hM]
      exact hs.loading (hX ▸ hop)
    · rw [hX, hs.val_a (hX ▸ hop)]
      unfold Machine.olderValue
      rw [hM, hW, hregs]
      exact if_congr Iff.rfl rfl (if_neg fun hcontra ↦ Bool.false_ne_true hcontra.1).symm
  · obtain ⟨hM, hW⟩ := h.moves hready
    rw [h.issues hready]
    have hX := h.X_out_eq hready
    by_cases hissue : (s.loadUse || s.executing.mispredicted) = true
    · rw [if_pos hissue] at hX ⊢
      have hop : s'.X_out.op = .nop := by rw [hX]
      exact ⟨hop.symm, fun hne ↦ absurd hop hne, fun hne ↦ absurd hop hne⟩
    · rw [if_neg hissue] at hX ⊢
      simp only [Bool.or_eq_true, not_or, Bool.not_eq_true] at hissue
      obtain ⟨mem, mem', hacc⟩ := h.access
      obtain ⟨val_mem, err, -, hw⟩ := accessed_ok hacc
      refine ⟨?_, fun _ ↦ ?_, fun _ ↦ ?_⟩
      · rw [hX]
        rfl
      · unfold Machine.loading
        rw [hM]
        exact not_loading_of_issued hissue.1 hsafe
      · rw [hX]
        unfold Machine.olderValue
        rw [hM, hW, hregs, hw]
        rfl

/-- The status of a step to a state in which the loop goes on. -/
theorem passes_of_running {ec : Bool} {s s' : Machine} (h : Transfer ec s s')
    (hs' : s'.running = true) : s.W_out.status.passes = true := by
  rw [Machine.running, h.status] at hs'
  revert hs'
  cases s.W_out.status <;> intro hs' <;> first | (cases hs'; done) | rfl

/-! ## Runs -/

/-- A step that starts with no load of the target of a `BR` or `BLR` directly before it. -/
def TargetStep (s s' : Machine) : Prop := AnyStep ecBuild s s' ∧ ¬s.LoadsTarget

theorem TracedRun.operandOk {s₀ s : Machine} {d : DInstr} (hs₀ : s₀.Guarded)
    (hX₀ : s₀.X_out = {}) (h : TracedRun TargetStep s₀ s d) (hs : s.running = true) :
    s.OperandOk d := by
  induction h with
  | start =>
    have hop : s₀.X_out.op = .nop := by rw [hX₀]
    exact ⟨hop.symm, fun hne ↦ absurd hop hne, fun hne ↦ absurd hop hne⟩
  | step hrun hstep ih =>
    have hreach : Reachable ecBuild s₀ _ := ReflTransGen.mono (fun _ _ hstep ↦ hstep.1) _ _ hrun.run
    obtain ⟨hstep, hsafe⟩ := hstep
    have htransfer := hstep.transfer (hstep.not_pipeError hs)
    have hrunning := hstep.choose_spec.2.1
    exact (ih hrunning).transfer (hreach.wf hs₀.wf) hsafe (passes_of_running htransfer hs) htransfer

/-- The next instruction behind an indirect branch. -/
theorem Machine.Guarded.delivers {s s' : Machine} (hs : s.Guarded)
    (hbranch : isIndirectBranch s.X_out.op = true) (hstep : AnyStep ecBuild s s') :
    (s'.mem.dmem_status = .inFlight ∧ s'.D_out = {} ∧ s'.X_out = s.X_out) ∨
      s.FetchedAt ecBuild s.X_out.val_a s'.D_out := by
  have hD := hs.after_indirect hbranch
  have hreturn : ¬s.ReturnsThroughNull := by
    rintro ⟨hop, -⟩
    rw [hD] at hop
    cases hop
  have herror : ¬s'.PipeError := by
    obtain ⟨order, horder, -, hcycle⟩ := hstep
    exact cycle_not_pipeError horder hs.wf hs.controls hreturn hcycle
  have htransfer := hstep.transfer herror
  by_cases hready : s'.mem.dmem_status = .inFlight
  · obtain ⟨-, hD', hX', -⟩ := htransfer.frozen hready
    exact .inl ⟨hready, hD'.trans hD, hX'⟩
  · right
    have hmispred : s.executing.mispredicted = false := by
      apply not_mispredicted_of_ne
      change s.X_out.op ≠ .bCond
      rintro hop
      rw [hop] at hbranch
      cases hbranch
    have hload : s.X_out.op ≠ .ldur := by
      rintro hop
      rw [hop] at hbranch
      cases hbranch
    rw [(htransfer.delivers hready hD hmispred hload).1, ← hs.currentPC_of_indirect hbranch]
    refine htransfer.fetchedAt fun hpc ↦ ?_
    rw [hs.currentPC_of_indirect hbranch] at hpc
    rw [hs.clearedStatus_of_indirect hbranch hpc]
    rfl

theorem latches_of_indirect {s : Machine} (hbranch : isIndirectBranch s.X_out.op = true) :
    s.latches = false := by
  unfold Machine.latches
  rw [hbranch]
  rfl

section

variable {s : Machine} (hs : s.Guarded) (hbranch : isIndirectBranch s.X_out.op = true)
include hs hbranch

theorem Machine.Guarded.fetchPC_of_indirect : s.fetchPC = s.X_out.val_a := by
  rw [fetchPC_eq, hs.currentPC_of_indirect hbranch]
  by_cases hpc : s.X_out.val_a = 0
  · rw [hpc, ite_self]
  · rw [hs.clearedStatus_of_indirect hbranch hpc]
    rfl

/-- The branch waits for the instruction at its target. -/
theorem Machine.Guarded.awaits {c : Core} (hrunning : s.running = true) (hc : s.OlderComplete c) :
    s.AwaitsNext where
  guarded := hs
  running := hrunning
  passes := passes_of_olderComplete hc
  D_out := hs.after_indirect hbranch
  X_out := by
    constructor
    all_goals
      intro hop
      rw [hop] at hbranch
      cases hbranch

theorem Machine.Guarded.fetchComesBack_iff : s.FetchComesBack ↔ s.TargetComesBack := by
  unfold Machine.FetchComesBack Machine.TargetComesBack
  rw [hs.fetchPC_of_indirect hbranch, latches_of_indirect hbranch]

/-- The instruction at the target is delivered exactly when its fetch comes back. -/
theorem Machine.Guarded.inevitable_iff {c : Core} (hrunning : s.running = true)
    (hc : s.OlderComplete c) :
    (s.Inevitable fun u v ↦ u.FetchedAt ecBuild s.X_out.val_a v.D_out ∧
      v.mem.undefined = false) ↔ s.TargetComesBack := by
  rw [← hs.fetchComesBack_iff hbranch]
  have hawaits := hs.awaits hbranch hrunning hc
  constructor
  · refine hawaits.fetchComesBack (fun u v hP ↦ ⟨fun hD ↦ ?_, hP.2⟩)
      (latches_of_indirect hbranch)
    exact hP.1.status_ne_bub (by rw [hD])
  · refine hawaits.inevitable (K := fun u ↦ u.X_out = s.X_out)
      (fun u u' hu hX hstep hflight _ ↦ (hu.waits hstep hflight).2.1.trans hX)
      (fun u u' hu hX hstep hready hdefined ↦ ⟨?_, hdefined⟩) rfl
    rcases hu.guarded.delivers (hX ▸ hbranch) hstep with ⟨hflight, -⟩ | hfetched
    · exact absurd hflight hready
    · exact hX ▸ hfetched

end

/-- In a run in which no `BR` or `BLR` directly follows the load of its target, an indirect branch
in execute goes to the value that its register has after the older instructions, exactly when the
fetch at the target comes back. -/
theorem indirect_branch_target (GPR : ℕ → BitVec 64) (mem : Mem) (entry : BitVec 64)
    {s : Machine} {d : DInstr} (hrun : TracedRun TargetStep (initMachine GPR mem entry) s d)
    (hs : s.running = true) (hbranch : isIndirectBranch s.X_out.op = true) :
    s.BranchesToRegister d ↔ ((∃ c, s.OlderComplete c) → s.TargetComesBack) := by
  have hinit := initMachine_guarded GPR mem entry
  have hreach : Reachable ecBuild (initMachine GPR mem entry) s :=
    ReflTransGen.mono (fun _ _ hstep ↦ hstep.1) _ _ hrun.run
  have hguarded := hreach.guarded hinit hs
  have hoperand := hrun.operandOk hinit rfl hs
  have hop : s.X_out.op ≠ .nop := by
    intro hop
    rw [hop] at hbranch
    cases hbranch
  constructor
  · rintro hbranches ⟨c, hc⟩
    exact (hguarded.inevitable_iff hbranch hs hc).mp (hbranches.arrives ⟨c, hc⟩)
  · intro hfetch
    refine ⟨hoperand.op, fun c hc ↦ ?_, fun s' hstep ↦ hguarded.delivers hbranch hstep, ?_⟩
    · rw [read_of_olderComplete hguarded.wf (hoperand.loading hop) hc, hoperand.val_a hop]
    · rintro ⟨c, hc⟩
      exact (hguarded.inevitable_iff hbranch hs hc).mpr (hfetch ⟨c, hc⟩)

/-- A `BR` to the text behind a load that misses. -/
theorem indirect_branch_target_miss : ∃ s d,
    TracedRun TargetStep (initMachine (fun _ ↦ 0)
      ((textImage [0xD2A01000, 0xD2A00801, 0x91005021, 0xF8400002, 0xD61F0020,
        0xD4400000]).withEmptyCache 1 8 8 2) 0x400000) s d ∧
    s.X_out.op = .br ∧ s.M_out.op = .ldur ∧ s.BranchesToRegister d := by
  have hcheck : checkRun ecBuild (fun s ↦ decide ¬s.LoadsTarget) 20 (initMachine (fun _ ↦ 0)
      ((textImage [0xD2A01000, 0xD2A00801, 0x91005021, 0xF8400002, 0xD61F0020,
        0xD4400000]).withEmptyCache 1 8 8 2) 0x400000) = true := by
    decide +kernel
  have hloop : (runLoop ecBuild 6 (fun _ ↦ defaultOrder) (initMachine (fun _ ↦ 0)
      ((textImage [0xD2A01000, 0xD2A00801, 0x91005021, 0xF8400002, 0xD61F0020,
        0xD4400000]).withEmptyCache 1 8 8 2) 0x400000) >>= fun s ↦
          accessed s.M_out s.mem >>= fun p ↦ (accessed s.M_out p.1).map fun q ↦
            (decide (s.running = true ∧ s.X_out.op = .br ∧ s.M_out.op = .ldur),
              decide (QuietFetch s.mem s.X_out.val_a),
              decide (p.1.dmem_status = .inFlight ∧ q.1.dmem_status ≠ .inFlight ∧
                q.1.undefined = false))) = .ok (true, true, true) := by
    decide +kernel
  obtain ⟨s, hs, hloop⟩ := bind_eq_ok.mp hloop
  obtain ⟨p, hp, hloop⟩ := bind_eq_ok.mp hloop
  obtain ⟨q, hq, hvalues⟩ := map_eq_ok.mp hloop
  simp only [Prod.mk.injEq, decide_eq_true_eq] at hvalues
  obtain ⟨⟨hrunning, hop, hldur⟩, hquiet, hflight, hready, hdefined⟩ := hvalues
  have hrun := (runLoop_run (initMachine_running _ _ _) hs).checked hcheck
  have hsteps : ReflTransGen TargetStep _ s :=
    ReflTransGen.mono (fun _ _ hstep ↦ ⟨hstep.1, of_decide_eq_true hstep.2⟩) _ _ hrun
  obtain ⟨d, hd⟩ := exists_tracedRun hsteps
  refine ⟨s, d, hd, hop, hldur, (indirect_branch_target _ _ _ hd hrunning (by rw [hop]; rfl)).mpr
    fun _ ↦ ComesBack.of_quiet (.inr hquiet) ?_ hdefined⟩
  exact (settle_of_wait hp hflight).trans (settle_of_done hq hready)

/-- The older instructions complete when the one in memory does not have to wait. -/
theorem exists_olderComplete {s : Machine} {q : Mem × WInstr}
    (hW : s.W_out.status.passes = true)
    (hacc : accessed s.M_out { s.mem with dmem_status := .ready } = .ok q)
    (hready : q.1.dmem_status ≠ .inFlight) (hq : q.2.status.passes = true) :
    ∃ c, s.OlderComplete c ∧ c.regs = regfileWrite (regfileWrite s.regs s.W_out.dst s.W_out.wval
      (s.W_out.W_sigs.w_enable && s.W_out.status == .aok)) q.2.dst q.2.wval
        (q.2.W_sigs.w_enable && q.2.status == .aok) := by
  unfold Machine.OlderComplete
  rw [writeback_of_passes hW, pure_bind]
  unfold access
  rw [settle_of_done hacc hready]
  exact ⟨_, writeback_of_passes hq _ _, rfl⟩

/-- `LDUR X1, [X0]; BR X1` goes to the address of the load, not to the loaded value. -/
theorem indirect_branch_target_fails : ¬∀ (GPR : ℕ → BitVec 64) (mem : Mem) (entry : BitVec 64)
    (s : Machine) (d : DInstr), TracedRun (AnyStep ecBuild) (initMachine GPR mem entry) s d →
      s.running = true → isIndirectBranch s.X_out.op = true → s.BranchesToRegister d := by
  intro hclaim
  have hrun : (runLoop ecBuild 3 (fun _ ↦ defaultOrder)
      (initMachine (fun _ ↦ 0) (textImage [0xD2A01000, 0xF8400001, 0xD61F0020]) 0x400000) >>=
        fun t ↦ cycle ecBuild defaultOrder t >>= fun s ↦
          (accessed s.M_out { s.mem with dmem_status := .ready }).map fun q ↦
            (decide (t.running = true ∧ t.D_out.src1 = 1),
              decide (s.running = true ∧ s.X_ctl = .load ∧ s.X_out.op = .br ∧
                s.X_out.val_a = 0x800000 ∧ s.W_out.status.passes = true),
              decide (q.1.dmem_status = .ready ∧ q.2.status = .aok ∧
                q.2.W_sigs.w_enable = true ∧ q.2.dst = 1 ∧ q.2.wval = 0))) =
      .ok (true, true, true) := by
    decide +kernel
  obtain ⟨t, ht, hrun⟩ := bind_eq_ok.mp hrun
  obtain ⟨s, hs, hrun⟩ := bind_eq_ok.mp hrun
  obtain ⟨q, hq, hvalues⟩ := map_eq_ok.mp hrun
  simp only [Prod.mk.injEq, decide_eq_true_eq] at hvalues
  obtain ⟨⟨htrun, hsrc⟩, ⟨hsrun, hctl, hop, hval, hW⟩, hready, hstatus, henable, hdst, hwval⟩ :=
    hvalues
  obtain ⟨d, hd⟩ := exists_tracedRun
    (runLoop_reachable (fun _ ↦ List.Perm.refl _) (initMachine_running _ _ _) ht)
  have hstep : AnyStep ecBuild t s := ⟨defaultOrder, List.Perm.refl _, htrun, hs⟩
  have htraced := hd.step hstep
  rw [hctl] at htraced
  obtain ⟨c, hc, hregs⟩ := exists_olderComplete hW hq (by rw [hready]; decide)
    (by rw [hstatus]; rfl)
  have htarget := (hclaim _ _ _ s _ htraced hsrun (by rw [hop]; rfl)).target c hc
  change s.X_out.val_a = c.regs.read t.D_out.src1 at htarget
  rw [hval, hsrc, hregs, read_regfileWrite, henable, hstatus, hdst, hwval,
    if_pos ⟨rfl, rfl, by decide⟩] at htarget
  exact absurd htarget (by decide)

end SystemEmulator
