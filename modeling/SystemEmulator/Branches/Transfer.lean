import SystemEmulator.Pipeline.Effect
import SystemEmulator.Cycle.StackPointer

/-!
# One cycle of the pipeline, for every order of the stages

The effect of a cycle on the registers of the build with `PIPE`, stated so that it does not depend
on the order in which the stages are called.  What a redirect does to the instructions behind a
branch follows from it in the build with `EC` as well.
-/

namespace SystemEmulator

open Relation Result

abbrev ecBuild : Build := ⟨true, true⟩

/-- The memory that the fetch of this cycle reads: the one before the data access or the one after
it, as the order of the stages has it. -/
def Machine.FetchSees (s : Machine) (mem : Mem) : Prop :=
  mem = s.mem ∨ ∃ w, accessed s.M_out s.mem = .ok (mem, w)

/-- The requests of the hazard logic in a cycle that ends in `s'`. -/
def Machine.cycleRequests (s s' : Machine) : HazardRequest := s.requests s'.D_in (s'.mem, s'.W_in)

/-- The effect of a cycle from `s` to `s'` on the pipeline. -/
structure Transfer (ec : Bool) (s s' : Machine) : Prop where
  fetch : ∃ mem F_PC r, s.FetchSees mem ∧ fetchResult ⟨true, ec⟩ s mem F_PC = .ok r ∧
    s'.D_in = r.2.1
  access : ∃ mem mem', accessed s.M_out mem = .ok (mem', s'.W_in)
  status : s'.status = s.W_out.status
  regs : s'.regs = regfileWrite s.regs s.W_out.dst s.W_out.wval
    (s.W_out.W_sigs.w_enable && s.W_out.status == .aok)
  F_in : s'.F_in.status = latchedStatus ⟨true, ec⟩ s s'.D_in
  recovered : s'.mem.dmem_status ≠ .inFlight → s'.W_in.status.isError = false →
    s.loadUse = false → checkCbHazard s.D_out.op (s.forwarded s'.W_in).val_a = true →
      s'.PC = s.D_out.multipurpose_val
  pred_PC : s'.F_out.pred_PC = requested (s.cycleRequests s').F_bubble
    (s.cycleRequests s').F_stall s'.PC s.F_out.pred_PC 0
  D_out : s'.D_out = requested (s.cycleRequests s').D_bubble (s.cycleRequests s').D_stall
    s'.D_in s.D_out {}
  X_out : s'.X_out = requested (s.cycleRequests s').X_bubble (s.cycleRequests s').X_stall
    (s.forwarded s'.W_in) s.X_out {}
  M_out : s'.M_out = requested false (s.cycleRequests s').M_stall s.executing s.M_out {}
  W_out : s'.W_out = requested (s.cycleRequests s').W_bubble false s'.W_in s.W_out {}
  X_ctl : ∀ {α : Type} (in_ out zero : α), clock s'.X_ctl in_ out zero =
    requested (s.cycleRequests s').X_bubble (s.cycleRequests s').X_stall in_ out zero

/-- The state after the stages, in every order. -/
theorem runStages_eq_stagesState {ec : Bool} {order : List ProcStage}
    (horder : order.Perm defaultOrder) {s t : Machine}
    (h : runStages ⟨true, ec⟩ order s = .ok t) :
    ∃ mem D_in F_PC W_in, t = stagesState ⟨true, ec⟩ s mem D_in F_PC W_in ∧
      (∃ seen F_PC' r, s.FetchSees seen ∧ fetchResult ⟨true, ec⟩ s seen F_PC' = .ok r ∧
        D_in = r.2.1) ∧
      ∃ seen mem', accessed s.M_out seen = .ok (mem', W_in) := by
  rcases runStages_perm ⟨true, ec⟩ horder s with heq | heq
  · obtain ⟨r, hfetch, hr⟩ := bind_eq_ok.mp (heq ▸ h)
    obtain ⟨q, hacc, rfl⟩ := map_eq_ok.mp hr
    exact ⟨_, _, _, _, rfl, ⟨s.mem, s.F_PC, r, .inl rfl, hfetch, rfl⟩, r.1, q.1, hacc⟩
  · obtain ⟨q, hacc, hq⟩ := bind_eq_ok.mp (heq ▸ h)
    obtain ⟨r, hfetch, rfl⟩ := map_eq_ok.mp hq
    exact ⟨_, _, _, _, rfl, ⟨q.1, _, r, .inr ⟨q.2, hacc⟩, hfetch, rfl⟩, s.mem, q.1, hacc⟩

/-- A clock edge whose control is no error. -/
theorem clock_of_ne_error {α : Type} {ctl : PipeCtl} {bubble stall : Bool}
    (h : pipeControlStage ctl bubble stall ≠ .error) (in_ out zero : α) :
    clock (pipeControlStage ctl bubble stall) in_ out zero =
      requested bubble stall in_ out zero := by
  apply clock_requested
  · rintro rfl
    apply h
    unfold pipeControlStage
    rw [beq_self_eq_true, Bool.or_true]
    rfl
  · rintro ⟨rfl, rfl⟩
    exact h rfl

/-- A cycle that leaves no register in error has this effect. -/
theorem transfer_of_cycle {ec : Bool} {order : List ProcStage}
    (horder : order.Perm defaultOrder) {s s' : Machine}
    (h : cycle ⟨true, ec⟩ order s = .ok s') (herror : ¬s'.PipeError) : Transfer ec s s' := by
  have hregs := cycle_regs horder h
  obtain ⟨t, hstages, rfl⟩ := cycle_ok h
  obtain ⟨mem, D_in, F_PC, W_in, rfl, hfetch, hacc⟩ := runStages_eq_stagesState horder hstages
  have hfinish := finishCycle_eq ⟨true, ec⟩ (stagesState ⟨true, ec⟩ s mem D_in F_PC W_in)
  obtain ⟨hF, hD, hX, hM, hW⟩ : _ ≠ _ ∧ _ ≠ _ ∧ _ ≠ _ ∧ _ ≠ _ ∧ _ ≠ _ := by
    rw [finishCycle_pipeError] at herror
    simpa only [Machine.PipeError, not_or] using herror
  have hcalls : hazardCalls ⟨true, ec⟩ (forwardReg ⟨true, ec⟩
      (stagesState ⟨true, ec⟩ s mem D_in F_PC W_in)) = s.requests D_in (mem, W_in) := by
    unfold hazardCalls Machine.requests
    by_cases hflight : mem.dmem_status = .inFlight
    · rw [if_pos ⟨rfl, hflight⟩, if_pos hflight]
    · rw [if_neg fun h ↦ hflight h.2, if_neg hflight, requestOf_forwardReg]
      rfl
  rw [hcalls] at hF hD hX hM hW
  replace hF : pipeControlStage s.F_ctl _ _ ≠ .error := hF
  have hforwarded : forwardedRecord ⟨true, ec⟩ (stagesState ⟨true, ec⟩ s mem D_in F_PC W_in) =
      s.forwarded W_in := rfl
  rw [hfinish] at herror hregs ⊢
  refine ⟨hfetch, hacc, if_neg herror, hregs, rfl, ?_, ?_, ?_, ?_, ?_, ?_, ?_⟩
  · intro hready hok huse hcb
    change (if W_in.status.isError then _ else hazardPC ⟨true, ec⟩ (forwardReg ⟨true, ec⟩ _)) = _
    rw [if_neg (by rw [show W_in.status.isError = false from hok]; decide)]
    unfold hazardPC
    refine if_pos ⟨rfl, hready, ?_⟩
    change (!s.loadUse && checkCbHazard s.D_out.op (s.forwarded W_in).val_a) = true
    rw [huse]
    exact hcb
  · change (clock (pipeControlStage s.F_ctl (hazardCalls ⟨true, ec⟩ _).F_bubble
      (hazardCalls ⟨true, ec⟩ _).F_stall) _ _ {} : FInstr).pred_PC = _
    rw [hcalls, clock_of_ne_error hF]
    unfold requested
    change _ = if (s.requests D_in (mem, W_in)).F_bubble then (0 : BitVec 64) else
      if (s.requests D_in (mem, W_in)).F_stall then _ else _
    cases (s.requests D_in (mem, W_in)).F_bubble with
    | true => rfl
    | false => cases (s.requests D_in (mem, W_in)).F_stall <;> rfl
  · change clock (pipeControlStage s.D_ctl (hazardCalls ⟨true, ec⟩ _).D_bubble
      (hazardCalls ⟨true, ec⟩ _).D_stall) D_in s.D_out {} = _
    rw [hcalls]
    exact clock_of_ne_error hD _ _ _
  · change clock (pipeControlStage s.X_ctl (hazardCalls ⟨true, ec⟩ _).X_bubble
      (hazardCalls ⟨true, ec⟩ _).X_stall) (s.forwarded W_in) s.X_out {} = _
    rw [hcalls]
    exact clock_of_ne_error hX _ _ _
  · change clock (pipeControlStage s.M_ctl false (hazardCalls ⟨true, ec⟩ _).M_stall) s.executing
      s.M_out {} = _
    rw [hcalls]
    exact clock_of_ne_error hM _ _ _
  · change clock (pipeControlStage s.W_ctl (hazardCalls ⟨true, ec⟩ _).W_bubble false) W_in
      s.W_out {} = _
    rw [hcalls]
    exact clock_of_ne_error hW _ _ _
  · intro α in_ out zero
    change clock (pipeControlStage s.X_ctl (hazardCalls ⟨true, ec⟩ _).X_bubble
      (hazardCalls ⟨true, ec⟩ _).X_stall) in_ out zero = _
    rw [hcalls]
    exact clock_of_ne_error hX _ _ _

/-! ## The kinds of cycles -/

section

variable {ec : Bool} {s s' : Machine} (h : Transfer ec s s')
include h

/-- While a data access is in flight, everything but writeback is frozen. -/
theorem Transfer.frozen (hflight : s'.mem.dmem_status = .inFlight) :
    s'.F_out.pred_PC = s.F_out.pred_PC ∧ s'.D_out = s.D_out ∧ s'.X_out = s.X_out ∧
      s'.M_out = s.M_out ∧ s'.W_out = {} ∧
        ∀ {α : Type} (in_ out zero : α), clock s'.X_ctl in_ out zero = out := by
  have hreq : s.cycleRequests s' = inFlightRequest := if_pos hflight
  obtain ⟨-, -, -, -, -, -, hpred, hD, hX, hM, hW, hctl⟩ := h
  rw [hreq] at hpred hD hX hM hW
  exact ⟨hpred, hD, hX, hM, hW, fun in_ out zero ↦ by rw [hctl, hreq]; rfl⟩

variable (hready : s'.mem.dmem_status ≠ .inFlight)
include hready

theorem Transfer.moves : s'.M_out = s.executing ∧ s'.W_out = s'.W_in := by
  have hreq : s.cycleRequests s' = _ := if_neg hready
  obtain ⟨hM, hW⟩ := And.intro h.M_out h.W_out
  rw [hreq] at hM hW
  exact ⟨hM, hW⟩

/-- The instruction in decode goes on to execute, or a bubble takes its place. -/
theorem Transfer.issues {α : Type} (in_ out zero : α) : clock s'.X_ctl in_ out zero =
    if s.loadUse || s.executing.mispredicted then zero else in_ := by
  have hreq : s.cycleRequests s' = _ := if_neg hready
  rw [h.X_ctl, hreq]
  rfl

theorem Transfer.X_out_eq : s'.X_out =
    if s.loadUse || s.executing.mispredicted then {} else s.forwarded s'.W_in := by
  rw [← h.issues hready (s.forwarded s'.W_in) s.X_out {}, h.X_ctl]
  exact h.X_out

/-- A wrongly predicted conditional branch drops the instruction that is fetched. -/
theorem Transfer.squashes (hmispred : s.executing.mispredicted = true) : s'.D_out = {} := by
  have hreq : s.cycleRequests s' = _ := if_neg hready
  have hmispred' : checkMispredBranchHazard s.X_out.op s.executing.cond_holds = true := hmispred
  rw [h.D_out, hreq]
  simp only [hazardRequest, ↓reduceIte, hmispred', Bool.or_true, Bool.true_or]
  rfl

/-- An indirect branch in decode goes on to execute and is followed by a bubble. -/
theorem Transfer.waits (hbranch : isIndirectBranch s.D_out.op = true) (huse : s.loadUse = false) :
    s'.D_out = {} := by
  have hreq : s.cycleRequests s' = _ := if_neg hready
  unfold Machine.loadUse at huse
  rw [h.D_out, hreq]
  simp only [hazardRequest, ↓reduceIte, huse, Bool.not_false, Bool.and_true]
  refine if_pos ?_
  cases hop : s.D_out.op <;> rw [hop] at hbranch <;> first | (cases hbranch; done) | skip
  · -- a return to address zero and every other return
    cases (s.forwarded s'.W_in).val_a == RET_FROM_MAIN_ADDR <;> simp [checkRetHazard]
  · simp [checkBrHazard]
  · simp [checkBrHazard]

/-- Behind a bubble in decode the fetched instruction is handed on. -/
theorem Transfer.delivers (hD : s.D_out = {}) (hmispred : s.executing.mispredicted = false)
    (huse : s.X_out.op ≠ .ldur) : s'.D_out = s'.D_in ∧
      s'.F_out.pred_PC = if s'.D_in.status.isStop then s.F_out.pred_PC else s'.PC := by
  have hreq : s.cycleRequests s' = _ := if_neg hready
  have hmispred' : checkMispredBranchHazard s.X_out.op s.executing.cond_holds = false := hmispred
  have huse' : checkLoadUseHazard s.D_out.op s.D_out.src1 s.D_out.src2 s.X_out.op s.X_out.dst =
      false := by
    rw [Bool.eq_false_iff, ne_eq, checkLoadUseHazard_iff]
    exact fun hcontra ↦ huse hcontra.2.1
  obtain ⟨hpred, hD'⟩ := And.intro h.pred_PC h.D_out
  rw [hreq] at hpred hD'
  rw [hD] at hpred hD' huse'
  simp only [hazardRequest, ↓reduceIte, hmispred', huse'] at hpred hD'
  refine ⟨hD', hpred.trans ?_⟩
  cases s'.D_in.status <;> rfl

end

/-! ## What follows a redirect -/

/-- An indirect branch in execute and a wrongly predicted branch in memory are followed by
bubbles. -/
structure Machine.Guarded (s : Machine) : Prop where
  wf : s.WF
  controls : ¬s.PipeError
  after_indirect : isIndirectBranch s.X_out.op = true → s.D_out = {}
  after_mispredicted : s.M_out.mispredicted = true → s.X_out = {} ∧ s.D_out = {}

theorem initMachine_guarded (GPR : ℕ → BitVec 64) (mem : Mem) (entry : BitVec 64) :
    (initMachine GPR mem entry).Guarded where
  wf := initMachine_wf GPR mem entry
  controls := by simp [Machine.PipeError, initMachine]
  after_indirect := fun h ↦ Bool.noConfusion h
  after_mispredicted := fun h ↦ Bool.noConfusion h

theorem Machine.Guarded.transfer {ec : Bool} {s s' : Machine} (hs : s.Guarded) (hwf : s'.WF)
    (herror : ¬s'.PipeError) (h : Transfer ec s s') : s'.Guarded := by
  refine ⟨hwf, herror, fun hbranch ↦ ?_, fun hmispred ↦ ?_⟩
  · by_cases hready : s'.mem.dmem_status = .inFlight
    · obtain ⟨-, hD, hX, -⟩ := h.frozen hready
      rw [hD]
      exact hs.after_indirect (hX ▸ hbranch)
    · rw [h.X_out_eq hready] at hbranch
      split at hbranch
      · cases hbranch
      · next hissue =>
        simp only [Bool.or_eq_true, not_or, Bool.not_eq_true] at hissue
        exact h.waits hready hbranch hissue.1
  · by_cases hready : s'.mem.dmem_status = .inFlight
    · obtain ⟨-, hD, hX, hM, -⟩ := h.frozen hready
      rw [hD, hX]
      exact hs.after_mispredicted (hM ▸ hmispred)
    · rw [(h.moves hready).1] at hmispred
      exact ⟨(h.X_out_eq hready).trans (if_pos (by rw [hmispred, Bool.or_true])),
        h.squashes hready hmispred⟩

/-- A step to a state in which the loop goes on leaves no register in error. -/
theorem AnyStep.not_pipeError {build : Build} {s s' : Machine} (h : AnyStep build s s')
    (hs' : s'.running = true) : ¬s'.PipeError := by
  obtain ⟨order, -, -, hcycle⟩ := h
  obtain ⟨t, -, rfl⟩ := cycle_ok hcycle
  intro herror
  have hstatus : (finishCycle build t).status = .hlt := by
    rw [finishCycle_eq] at herror ⊢
    exact if_pos herror
  rw [Machine.running, hstatus] at hs'
  cases hs'

theorem AnyStep.transfer {ec : Bool} {s s' : Machine} (h : AnyStep ⟨true, ec⟩ s s')
    (herror : ¬s'.PipeError) : Transfer ec s s' := by
  obtain ⟨order, horder, -, hcycle⟩ := h
  exact transfer_of_cycle horder hcycle herror

/-- Every state in which a cycle of a run starts is guarded. -/
theorem Reachable.guarded {ec : Bool} {s₀ s : Machine} (hs₀ : s₀.Guarded)
    (h : Reachable ⟨true, ec⟩ s₀ s) (hs : s.running = true) : s.Guarded := by
  induction h with
  | refl => exact hs₀
  | tail hreach hstep ih =>
    have herror := hstep.not_pipeError hs
    have hwf := Reachable.wf hs₀.wf (ReflTransGen.tail hreach hstep)
    obtain ⟨order, horder, hrunning, hcycle⟩ := hstep
    exact (ih hrunning).transfer hwf herror (transfer_of_cycle horder hcycle herror)

/-! ## Where the fetch goes on -/

section

variable {ec : Bool} {s s' : Machine} (hs : s.Guarded)
include hs

theorem Machine.Guarded.currentPC_of_indirect (hbranch : isIndirectBranch s.X_out.op = true) :
    currentPC ⟨true, ec⟩ s = s.X_out.val_a := by
  unfold currentPC selectPC
  rw [hs.after_indirect hbranch, hbranch]
  rfl

theorem Machine.Guarded.clearedStatus_of_indirect (hbranch : isIndirectBranch s.X_out.op = true)
    (hpc : s.X_out.val_a ≠ 0) : clearedStatus ⟨true, ec⟩ s = .aok := by
  unfold clearedStatus
  exact if_pos ⟨rfl, by rwa [hs.currentPC_of_indirect hbranch], .inl hbranch⟩

end

theorem currentPC_of_predicted {ec : Bool} {s : Machine}
    (hbranch : isIndirectBranch s.X_out.op = false) (hmispred : s.M_out.mispredicted = false) :
    currentPC ⟨true, ec⟩ s = s.F_out.pred_PC ∧ clearedStatus ⟨true, ec⟩ s = s.F_in.status := by
  have hbcond : ¬(s.M_out.op = .bCond ∧ ¬s.M_out.cond_holds = true) := by
    simpa [MInstr.mispredicted] using hmispred
  constructor
  · unfold currentPC selectPC
    simp only [hbranch, hbcond, Bool.false_eq_true, and_false, ↓reduceIte, not_true_eq_false]
    split
    · next h => exact h.2.symm
    · rfl
  · unfold clearedStatus
    refine if_neg fun h ↦ ?_
    rcases h.2.2 with hcontra | hcontra
    · rw [hbranch] at hcontra
      cases hcontra
    · exact hbcond hcontra

/-- `d` is the instruction at `pc`, as the fetch of a cycle from `s` reads it.  At address zero the
fetch stage generates a `HLT`. -/
def Machine.FetchedAt (build : Build) (s : Machine) (pc : BitVec 64) (d : DInstr) : Prop :=
  (pc = 0 ∧ d = generatedHlt s.D_in) ∨
    (pc ≠ 0 ∧ ∃ mem r, s.FetchSees mem ∧ imem mem pc = .ok r ∧
      d = fetchedInstr build pc r.2.1 r.2.2)

theorem status_ne_bub_of_fetched (build : Build) (pc : BitVec 64) (insnbits : BitVec 32)
    (imem_err : Bool) : (fetchedInstr build pc insnbits imem_err).status ≠ .bub := by
  unfold fetchedInstr
  split
  · exact Stat.noConfusion
  · dsimp only
    split
    · exact Stat.noConfusion
    · split <;> exact Stat.noConfusion

theorem Machine.FetchedAt.status_ne_bub {build : Build} {s : Machine} {pc : BitVec 64}
    {d : DInstr} (h : s.FetchedAt build pc d) : d.status ≠ .bub := by
  rcases h with ⟨-, rfl⟩ | ⟨-, mem, r, -, -, rfl⟩
  · exact Stat.noConfusion
  · exact status_ne_bub_of_fetched _ _ _ _

theorem Machine.FetchedAt.wf {build : Build} {s : Machine} {pc : BitVec 64} {d : DInstr}
    (h : s.FetchedAt build pc d) : d.WF := by
  rcases h with ⟨-, rfl⟩ | ⟨-, mem, r, -, -, rfl⟩
  · exact wf_generatedHlt _
  · exact wf_fetchedInstr _ _ _ _

theorem Transfer.fetchedAt {ec : Bool} {s s' : Machine} (h : Transfer ec s s')
    (hcleared : currentPC ⟨true, ec⟩ s ≠ 0 → (clearedStatus ⟨true, ec⟩ s).isStop = false) :
    s.FetchedAt ⟨true, ec⟩ (currentPC ⟨true, ec⟩ s) s'.D_in := by
  obtain ⟨mem, F_PC, r, hsees, hfetch, hD⟩ := h.fetch
  unfold fetchResult at hfetch
  by_cases hpc : currentPC ⟨true, ec⟩ s = 0
  · left
    rw [if_pos (generatesHlt_iff.mpr (.inl hpc))] at hfetch
    rw [hD, ← Except.ok.inj hfetch]
    exact ⟨hpc, rfl⟩
  · right
    have hreads := not_generatesHlt_iff.mpr ⟨hpc, hcleared hpc⟩
    rw [if_neg (Bool.eq_false_iff.mp hreads)] at hfetch
    obtain ⟨q, himem, rfl⟩ := map_eq_ok.mp hfetch
    exact ⟨hpc, mem, q, hsees, himem, hD⟩

end SystemEmulator
