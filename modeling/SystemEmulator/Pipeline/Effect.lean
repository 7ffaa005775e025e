import SystemEmulator.Cycle.PipeControl
import SystemEmulator.Sequential.Step

/-!
# One cycle of the build with hazard control

The state after a cycle in the default order, from the results of the fetch and of the data access.
A cycle either repeats a data access that is in flight, or it lets the instructions in execute and
memory move on; what happens to the younger ones is decided by a load-use hazard, a wrongly
predicted branch, or a return in decode.
-/

namespace SystemEmulator

open Result

abbrev pipeBuild : Build := ⟨true, false⟩

/-! ## The wires of a cycle -/

/-- The instruction in execute after this cycle. -/
def Machine.executing (s : Machine) : MInstr := (executed s.X_out s.NZCV).1

/-- The flags that the instruction in execute leaves, when it sets them. -/
def Machine.flags (s : Machine) : BitVec 8 :=
  if s.X_out.X_sigs.set_flags then (executed s.X_out s.NZCV).2 else s.NZCV

/-- The instruction in decode with the operands that `forward_reg` hands to it. -/
def Machine.forwarded (s : Machine) (W_in : WInstr) : XInstr :=
  let forward (D_src : ℕ) (val : BitVec 64) : BitVec 64 :=
    forwardOne D_src s.X_out.dst s.M_out.dst s.W_out.dst s.executing.val_ex s.M_out.val_ex
      W_in.val_mem s.W_out.val_ex s.W_out.val_mem s.M_out.W_sigs.wval_sel
      s.W_out.W_sigs.wval_sel s.X_out.W_sigs.w_enable s.M_out.W_sigs.w_enable
      s.W_out.W_sigs.w_enable val
  { decoded s.D_out s.regs with
    val_a := forward s.D_out.src1 (decoded s.D_out s.regs).val_a
    val_b := forward s.D_out.src2 (decoded s.D_out s.regs).val_b }

/-- Decode waits for the load in execute. -/
def Machine.loadUse (s : Machine) : Bool :=
  checkLoadUseHazard s.D_out.op s.D_out.src1 s.D_out.src2 s.X_out.op s.X_out.dst

/-- The requests of the hazard logic in a cycle that fetches `D_in` and leaves `W_in`. -/
def Machine.requests (s : Machine) (D_in : DInstr) (q : Mem × WInstr) : HazardRequest :=
  if q.1.dmem_status = .inFlight then inFlightRequest
  else hazardRequest pipeBuild D_in.status s.D_out.op s.D_out.src1 s.D_out.src2
    (s.forwarded q.2).val_a s.X_out.op s.X_out.dst s.executing.cond_holds

/-- The clock edge of a register with these requests. -/
def requested {α : Type} (bubble stall : Bool) (in_ out zero : α) : α :=
  if bubble then zero else if stall then out else in_

theorem clock_requested {α : Type} {ctl : PipeCtl} (hctl : ctl ≠ .error) {bubble stall : Bool}
    (h : ¬(bubble = true ∧ stall = true)) (in_ out zero : α) :
    clock (pipeControlStage ctl bubble stall) in_ out zero =
      requested bubble stall in_ out zero := by
  have hne : (ctl == PipeCtl.error) = false := beq_false_of_ne hctl
  unfold pipeControlStage requested
  rw [hne]
  cases bubble with
  | false => cases stall <;> rfl
  | true => cases stall with
    | false => rfl
    | true => exact absurd ⟨rfl, rfl⟩ h

/-- The state after a cycle whose fetch results in `r` and whose data access results in `q`. -/
structure CycleEffect (s : Machine) (r : Mem × DInstr × BitVec 64) (q : Mem × WInstr)
    (s' : Machine) : Prop where
  fetch : fetchResult pipeBuild s s.mem s.F_PC = .ok r
  access : accessed s.M_out r.1 = .ok q
  status : s'.status = s.W_out.status
  regs : s'.regs = regfileWrite s.regs s.W_out.dst s.W_out.wval
    (s.W_out.W_sigs.w_enable && s.W_out.status == .aok)
  NZCV : s'.NZCV =
    if q.1.dmem_status == .inFlight || q.2.status.isError || s.M_out.status.isError then s.NZCV
    else s.flags
  PC : s'.PC = if q.2.status.isError then s.M_out.multipurpose_val - 4 else r.2.2
  mem : s'.mem = q.1
  F_in : s'.F_in.status = latchedStatus pipeBuild s r.2.1
  F_PC : s'.F_PC = s'.PC
  pred_PC : s'.F_out.pred_PC = requested (s.requests r.2.1 q).F_bubble
    (s.requests r.2.1 q).F_stall s'.PC s.F_out.pred_PC 0
  D_out : s'.D_out = requested (s.requests r.2.1 q).D_bubble (s.requests r.2.1 q).D_stall
    r.2.1 s.D_out {}
  X_out : s'.X_out = requested (s.requests r.2.1 q).X_bubble (s.requests r.2.1 q).X_stall
    (s.forwarded q.2) s.X_out {}
  M_out : s'.M_out = requested false (s.requests r.2.1 q).M_stall s.executing s.M_out {}
  W_out : s'.W_out = requested (s.requests r.2.1 q).W_bubble false q.2 s.W_out {}
  controls : ¬s'.PipeError

theorem hazardCalls_stagesState (s : Machine) (mem : Mem) (D_in : DInstr) (F_PC : BitVec 64)
    (W_in : WInstr) :
    hazardCalls pipeBuild (forwardReg pipeBuild (stagesState pipeBuild s mem D_in F_PC W_in)) =
      s.requests D_in (mem, W_in) := by
  unfold hazardCalls Machine.requests
  by_cases hflight : mem.dmem_status = .inFlight
  · rw [if_pos ⟨rfl, hflight⟩, if_pos hflight]
  · rw [if_neg fun h ↦ hflight h.2, if_neg hflight, requestOf_forwardReg]
    rfl

theorem applyRequest_pipeError {t : Machine} {r : HazardRequest} (hr : r.Contradictory) :
    (applyRequest t r).PipeError := by
  rcases hr with ⟨hb, hs⟩ | ⟨hb, hs⟩ | ⟨hb, hs⟩
  · left
    simp [applyRequest, pipeControlStage, hb, hs]
  · right; left
    simp [applyRequest, pipeControlStage, hb, hs]
  · right; right; left
    simp [applyRequest, pipeControlStage, hb, hs]

/-- Without `EC` the hazard logic leaves `F_PC` alone. -/
theorem hazardPC_eq (t : Machine) (hec : t.D_out.op.isEc = false) :
    hazardPC pipeBuild t = t.F_PC := by
  have hcb : ∀ val, checkCbHazard t.D_out.op val = false := by
    intro val
    revert hec
    cases t.D_out.op <;> intro hec <;> first | (cases hec; done) | rfl
  unfold hazardPC
  rw [hcb, Bool.and_false]
  exact if_neg fun h ↦ Bool.false_ne_true h.2.2

/-! ## The registers at the end of a cycle -/

section

variable {t : Machine} {c : HazardRequest} (hctl : ¬t.PipeError)
  (hcalls : hazardCalls pipeBuild (forwardReg pipeBuild t) = c) (hc : ¬c.Contradictory)
include hctl hcalls hc

theorem finishCycle_controls : ¬(finishCycle pipeBuild t).PipeError := by
  rw [finishCycle_pipeError, hcalls]
  exact applyRequest_not_pipeError hctl hc

theorem finishCycle_status : (finishCycle pipeBuild t).status = t.W_out.status := by
  have hcontrols := finishCycle_controls hctl hcalls hc
  rw [finishCycle_eq] at hcontrols ⊢
  exact if_neg hcontrols

theorem finishCycle_pred_PC : (finishCycle pipeBuild t).F_out.pred_PC =
    requested c.F_bubble c.F_stall (finishCycle pipeBuild t).PC t.F_out.pred_PC 0 := by
  have hF : t.F_ctl ≠ .error := fun h ↦ hctl (.inl h)
  rw [finishCycle_eq]
  change (clock (pipeControlStage t.F_ctl
    (hazardCalls pipeBuild (forwardReg pipeBuild t)).F_bubble
    (hazardCalls pipeBuild (forwardReg pipeBuild t)).F_stall) _ t.F_out {}).pred_PC = _
  rw [hcalls, clock_requested hF fun h ↦ hc (.inl h)]
  unfold requested
  cases c.F_bubble with
  | true => rfl
  | false => cases c.F_stall <;> rfl

theorem finishCycle_D_out : (finishCycle pipeBuild t).D_out =
    requested c.D_bubble c.D_stall t.D_in t.D_out {} := by
  have hD : t.D_ctl ≠ .error := fun h ↦ hctl (.inr (.inl h))
  rw [finishCycle_eq]
  change clock (pipeControlStage t.D_ctl (hazardCalls pipeBuild (forwardReg pipeBuild t)).D_bubble
    (hazardCalls pipeBuild (forwardReg pipeBuild t)).D_stall) t.D_in t.D_out {} = _
  rw [hcalls, clock_requested hD fun h ↦ hc (.inr (.inl h))]

theorem finishCycle_X_out : (finishCycle pipeBuild t).X_out =
    requested c.X_bubble c.X_stall (forwardedRecord pipeBuild t) t.X_out {} := by
  have hX : t.X_ctl ≠ .error := fun h ↦ hctl (.inr (.inr (.inl h)))
  rw [finishCycle_eq]
  change clock (pipeControlStage t.X_ctl (hazardCalls pipeBuild (forwardReg pipeBuild t)).X_bubble
    (hazardCalls pipeBuild (forwardReg pipeBuild t)).X_stall) (forwardedRecord pipeBuild t)
      t.X_out {} = _
  rw [hcalls, clock_requested hX fun h ↦ hc (.inr (.inr h))]

omit hc in
theorem finishCycle_M_out : (finishCycle pipeBuild t).M_out =
    requested false c.M_stall t.M_in t.M_out {} := by
  have hM : t.M_ctl ≠ .error := fun h ↦ hctl (.inr (.inr (.inr (.inl h))))
  rw [finishCycle_eq]
  change clock (pipeControlStage t.M_ctl false
    (hazardCalls pipeBuild (forwardReg pipeBuild t)).M_stall) t.M_in t.M_out {} = _
  rw [hcalls, clock_requested hM (by simp)]

omit hc in
theorem finishCycle_W_out : (finishCycle pipeBuild t).W_out =
    requested c.W_bubble false t.W_in t.W_out {} := by
  have hW : t.W_ctl ≠ .error := fun h ↦ hctl (.inr (.inr (.inr (.inr h))))
  rw [finishCycle_eq]
  change clock (pipeControlStage t.W_ctl
    (hazardCalls pipeBuild (forwardReg pipeBuild t)).W_bubble false) t.W_in t.W_out {} = _
  rw [hcalls, clock_requested hW (by simp)]

end

/-- Without `EC` the next instruction is fetched where `F_PC` points. -/
theorem finishCycle_PC {t : Machine} (hec : t.D_out.op.isEc = false) :
    (finishCycle pipeBuild t).PC = if t.W_in.status.isError then t.M_PC else t.F_PC := by
  rw [finishCycle_eq]
  change (if t.W_in.status.isError then t.M_PC
    else hazardPC pipeBuild (forwardReg pipeBuild t)) = _
  rw [hazardPC_eq (forwardReg pipeBuild t) hec]
  rfl

theorem finishCycle_F_PC {t : Machine} (hec : t.D_out.op.isEc = false) :
    (finishCycle pipeBuild t).F_PC = t.F_PC := by
  rw [finishCycle_eq]
  exact hazardPC_eq (forwardReg pipeBuild t) hec

/-- An error in memory keeps the flags, and so does a data access in flight. -/
theorem finishCycle_NZCV (s : Machine) (mem : Mem) (D_in : DInstr) (F_PC : BitVec 64)
    (W_in : WInstr) : (finishCycle pipeBuild (stagesState pipeBuild s mem D_in F_PC W_in)).NZCV =
      if mem.dmem_status == .inFlight || W_in.status.isError || s.M_out.status.isError then s.NZCV
      else s.flags := by
  rw [finishCycle_eq]
  change (if !(mem.dmem_status == .inFlight || W_in.status.isError || s.M_out.status.isError) &&
    s.X_out.X_sigs.set_flags then _ else s.NZCV) = _
  unfold Machine.flags
  cases mem.dmem_status == .inFlight || W_in.status.isError || s.M_out.status.isError <;> rfl

/-- The state after a cycle, up to the requests of the hazard logic. -/
theorem finishCycle_effect {s t : Machine} {r : Mem × DInstr × BitVec 64} {q : Mem × WInstr}
    (hec : s.D_out.op.isEc = false) (hctl : ¬s.PipeError)
    (hfetch : fetchResult pipeBuild s s.mem s.F_PC = .ok r)
    (hacc : accessed s.M_out r.1 = .ok q)
    (ht : t = stagesState pipeBuild s q.1 r.2.1 (faultPC pipeBuild s q.2 r.2.2) q.2)
    (hrequests : ¬(s.requests r.2.1 q).Contradictory) :
    CycleEffect s r q (finishCycle pipeBuild t) := by
  subst ht
  have hcalls := hazardCalls_stagesState s q.1 r.2.1 (faultPC pipeBuild s q.2 r.2.2) q.2
  have hfault : (if q.2.status.isError then s.M_out.multipurpose_val - 4
      else faultPC pipeBuild s q.2 r.2.2) = faultPC pipeBuild s q.2 r.2.2 := by
    unfold faultPC
    cases q.2.status.isError <;> rfl
  have hPC := (finishCycle_PC (t := stagesState pipeBuild s q.1 r.2.1
    (faultPC pipeBuild s q.2 r.2.2) q.2) hec).trans hfault
  have hF_PC := finishCycle_F_PC (t := stagesState pipeBuild s q.1 r.2.1
    (faultPC pipeBuild s q.2 r.2.2) q.2) hec
  refine ⟨hfetch, hacc, finishCycle_status hctl hcalls hrequests, ?_,
    finishCycle_NZCV s q.1 r.2.1 _ q.2, ?_, ?_, ?_, ?_, finishCycle_pred_PC hctl hcalls hrequests,
    finishCycle_D_out hctl hcalls hrequests, finishCycle_X_out hctl hcalls hrequests,
    finishCycle_M_out hctl hcalls, finishCycle_W_out hctl hcalls,
    finishCycle_controls hctl hcalls hrequests⟩
  · rw [finishCycle_eq]
    rfl
  · rw [hPC]
    unfold faultPC
    cases q.2.status.isError <;> rfl
  · rw [finishCycle_eq]
    rfl
  · rw [finishCycle_eq]
    rfl
  · exact hF_PC.trans hPC.symm

/-- A cycle makes a contradictory request or has this effect. -/
theorem cycle_effect {s s' : Machine} (hec : s.D_out.op.isEc = false) (hctl : ¬s.PipeError)
    (h : cycle pipeBuild defaultOrder s = .ok s') : ∃ r q,
      fetchResult pipeBuild s s.mem s.F_PC = .ok r ∧ accessed s.M_out r.1 = .ok q ∧
        ((s.requests r.2.1 q).Contradictory ∧ s'.status = .hlt ∨
          ¬(s.requests r.2.1 q).Contradictory ∧ CycleEffect s r q s') := by
  obtain ⟨t, hstages, rfl⟩ := cycle_ok h
  rw [runStages_defaultOrder] at hstages
  obtain ⟨r, hfetch, hstages⟩ := bind_eq_ok.mp hstages
  obtain ⟨q, hacc, ht⟩ := map_eq_ok.mp hstages
  refine ⟨r, q, hfetch, hacc, ?_⟩
  by_cases hcontra : (s.requests r.2.1 q).Contradictory
  · left
    refine ⟨hcontra, ?_⟩
    have hcalls := hazardCalls_stagesState s q.1 r.2.1
      (faultPC pipeBuild s q.2 (overriddenPC pipeBuild s r.2.2)) q.2
    rw [ht] at hcalls
    have herror : (finishCycle pipeBuild t).PipeError := by
      rw [finishCycle_pipeError, hcalls]
      exact applyRequest_pipeError hcontra
    rw [finishCycle_eq] at herror ⊢
    exact if_pos herror
  · right
    exact ⟨hcontra, finishCycle_effect hec hctl hfetch hacc ht.symm hcontra⟩

/-- A cycle whose fetch and whose data access succeed takes place. -/
theorem cycle_of_ok {s : Machine} {r : Mem × DInstr × BitVec 64} {q : Mem × WInstr}
    (hfetch : fetchResult pipeBuild s s.mem s.F_PC = .ok r) (hacc : accessed s.M_out r.1 = .ok q) :
    ∃ s', cycle pipeBuild defaultOrder s = .ok s' := by
  unfold cycle
  rw [runStages_defaultOrder, fetchFirst, hfetch]
  simp only [bind, Except.bind, hacc]
  exact ⟨_, rfl⟩

/-! ## The kinds of cycles -/

/-- The fetch stage has latched a halt or a fault. -/
def Stat.isStop : Stat → Bool
  | .hlt | .ins => true
  | _ => false

theorem isStop_cases {status : Stat} (h : status.isStop = true) :
    status = .hlt ∨ status = .ins := by
  cases status <;> first | (cases h; done) | exact .inl rfl | exact .inr rfl

section

variable {build : Build} {s : Machine} {D_in : DInstr}

theorem latchedStatus_of_not_stop (h : D_in.status.isStop = false) :
    latchedStatus build s D_in = clearedStatus build s := by
  unfold latchedStatus
  refine if_neg ?_
  rintro (hstatus | hstatus) <;> rw [hstatus] at h <;> cases h

theorem latchedStatus_of_stop (h : D_in.status.isStop = true) :
    latchedStatus build s D_in = D_in.status :=
  if_pos (isStop_cases h).symm

theorem isStop_latchedStatus (h : D_in.status.isStop = true) :
    (latchedStatus build s D_in).isStop = true := by
  rw [latchedStatus_of_stop h]
  exact h

/-- A latch that a cycle leaves set was set before or is set by the fetch of this cycle. -/
theorem stop_of_latched (hstop : (latchedStatus build s D_in).isStop = true) :
    D_in.status.isStop = true ∨ (clearedStatus build s).isStop = true := by
  cases hD : D_in.status.isStop with
  | true => exact .inl rfl
  | false =>
    rw [latchedStatus_of_not_stop hD] at hstop
    exact .inr hstop

/-- The fetch stage generates halts at address zero and behind a latched stop. -/
theorem generatesHlt_eq (build : Build) (s : Machine) :
    generatesHlt build s = (currentPC build s == 0 || (clearedStatus build s).isStop) := by
  unfold generatesHlt
  cases currentPC build s == 0 <;> cases clearedStatus build s <;> rfl

theorem generatesHlt_iff : generatesHlt build s = true ↔
    currentPC build s = 0 ∨ (clearedStatus build s).isStop = true := by
  rw [generatesHlt_eq, Bool.or_eq_true, beq_iff_eq]

theorem not_generatesHlt_iff : generatesHlt build s = false ↔
    currentPC build s ≠ 0 ∧ (clearedStatus build s).isStop = false := by
  rw [generatesHlt_eq, Bool.or_eq_false_iff, beq_eq_false_iff_ne]

theorem generatesHlt_of_cleared (h : (clearedStatus build s).isStop = true) :
    generatesHlt build s = true :=
  generatesHlt_iff.mpr (.inr h)

end

section

variable {s s' : Machine} {r : Mem × DInstr × BitVec 64} {q : Mem × WInstr}

/-- While a data access is in flight, everything but writeback is frozen. -/
theorem CycleEffect.frozen (h : CycleEffect s r q s') (hflight : q.1.dmem_status = .inFlight) :
    s'.F_out.pred_PC = s.F_out.pred_PC ∧ s'.D_out = s.D_out ∧ s'.X_out = s.X_out ∧
      s'.M_out = s.M_out ∧ s'.W_out = {} := by
  have hreq : s.requests r.2.1 q = inFlightRequest := if_pos hflight
  obtain ⟨hpred, hD, hX, hM, hW⟩ := And.intro h.pred_PC
    (And.intro h.D_out (And.intro h.X_out (And.intro h.M_out h.W_out)))
  rw [hreq] at hpred hD hX hM hW
  exact ⟨hpred, hD, hX, hM, hW⟩

variable (hready : q.1.dmem_status ≠ .inFlight)
include hready

theorem CycleEffect.moves (h : CycleEffect s r q s') :
    s'.M_out = s.executing ∧ s'.W_out = q.2 := by
  have hreq : s.requests r.2.1 q = _ := if_neg hready
  obtain ⟨hM, hW⟩ := And.intro h.M_out h.W_out
  rw [hreq] at hM hW
  exact ⟨hM, hW⟩

/-- A load-use hazard holds decode and sends a bubble to execute. -/
theorem CycleEffect.loadUse (h : CycleEffect s r q s')
    (hrequests : ¬(s.requests r.2.1 q).Contradictory) (huse : s.loadUse = true) :
    s'.F_out.pred_PC = s.F_out.pred_PC ∧ s'.D_out = s.D_out ∧ s'.X_out = {} := by
  have hreq : s.requests r.2.1 q = _ := if_neg hready
  obtain ⟨hpred, hD, hX⟩ := And.intro h.pred_PC (And.intro h.D_out h.X_out)
  rw [hreq] at hpred hD hX hrequests
  rw [contradictory_hazardRequest] at hrequests
  obtain ⟨-, hldur, -⟩ := (checkLoadUseHazard_iff _ _ _ _ _).mp huse
  have hmispred : checkMispredBranchHazard s.X_out.op s.executing.cond_holds = false := by
    rw [checkMispredBranchHazard, hldur]
    rfl
  have hmain : (s.D_out.op == .ret && (s.forwarded q.2).val_a == RET_FROM_MAIN_ADDR) = false := by
    rw [Bool.eq_false_iff]
    intro hmain
    simp only [Bool.and_eq_true, beq_iff_eq] at hmain
    exact hrequests ⟨huse, hmain⟩
  unfold Machine.loadUse at huse
  simp only [hazardRequest, ↓reduceIte, huse, hmispred, hmain, Bool.not_true, Bool.and_false,
    Bool.false_and, Bool.or_false, Bool.or_true, Bool.true_or] at hpred hD hX
  exact ⟨hpred, hD, hX⟩

/-- A wrongly predicted branch drops the instructions in decode and fetch. -/
theorem CycleEffect.squash (h : CycleEffect s r q s') (hmispred : s.executing.mispredicted = true) :
    s'.D_out = {} ∧ s'.X_out = {} := by
  have hreq : s.requests r.2.1 q = _ := if_neg hready
  obtain ⟨hD, hX⟩ := And.intro h.D_out h.X_out
  rw [hreq] at hD hX
  have hmispred' : checkMispredBranchHazard s.X_out.op s.executing.cond_holds = true := hmispred
  simp only [hazardRequest, ↓reduceIte, hmispred', Bool.or_true, Bool.true_or] at hD hX
  exact ⟨hD, hX⟩

variable (huse : s.loadUse = false) (hmispred : s.executing.mispredicted = false)
include huse hmispred

/-- A return in decode goes on to execute and is followed by a bubble. -/
theorem CycleEffect.ret (h : CycleEffect s r q s') (hret : s.D_out.op = .ret) :
    s'.D_out = {} ∧ s'.X_out = s.forwarded q.2 := by
  have hreq : s.requests r.2.1 q = _ := if_neg hready
  obtain ⟨hD, hX⟩ := And.intro h.D_out h.X_out
  rw [hreq] at hD hX
  have hmispred' : checkMispredBranchHazard s.X_out.op s.executing.cond_holds = false := hmispred
  have hbubble : ((checkRetHazard Opcode.ret &&
      !((Opcode.ret == Opcode.ret) && (s.forwarded q.2).val_a == RET_FROM_MAIN_ADDR)) ||
      ((Opcode.ret == Opcode.ret) && (s.forwarded q.2).val_a == RET_FROM_MAIN_ADDR)) = true := by
    cases (s.forwarded q.2).val_a == RET_FROM_MAIN_ADDR <;> rfl
  unfold Machine.loadUse at huse
  rw [hret] at huse hD hX
  simp only [hazardRequest, ↓reduceIte, huse, hmispred', Bool.not_false, Bool.and_true,
    Bool.or_false, hbubble, Bool.true_or] at hD hX
  exact ⟨hD, hX⟩

/-- In all other cycles every instruction moves on. -/
theorem CycleEffect.load (h : CycleEffect s r q s') (hec : s.D_out.op.isEc = false)
    (hret : s.D_out.op ≠ .ret) :
    s'.F_out.pred_PC = (if r.2.1.status.isStop then s.F_out.pred_PC else s'.PC) ∧
      s'.D_out = r.2.1 ∧ s'.X_out = s.forwarded q.2 := by
  have hreq : s.requests r.2.1 q = _ := if_neg hready
  obtain ⟨hpred, hD, hX⟩ := And.intro h.pred_PC (And.intro h.D_out h.X_out)
  rw [hreq] at hpred hD hX
  have hmispred' : checkMispredBranchHazard s.X_out.op s.executing.cond_holds = false := hmispred
  have hret' : (s.D_out.op == .ret) = false := beq_false_of_ne hret
  have hbr : checkBrHazard s.D_out.op = false := by
    revert hec
    cases s.D_out.op <;> intro hec <;> first | (cases hec; done) | rfl
  have hcb : checkCbHazard s.D_out.op (s.forwarded q.2).val_a = false := by
    revert hec
    cases s.D_out.op <;> intro hec <;> first | (cases hec; done) | rfl
  unfold Machine.loadUse at huse
  simp only [hazardRequest, ↓reduceIte, huse, hmispred', hret', hbr, hcb, checkRetHazard,
    Bool.not_false, Bool.and_true, Bool.and_false, Bool.false_and, Bool.or_false] at hpred hD hX
  refine ⟨?_, hD, hX⟩
  rw [hpred]
  cases r.2.1.status <;> rfl

end

end SystemEmulator
