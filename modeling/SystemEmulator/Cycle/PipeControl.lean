import SystemEmulator.Cycle.Records

/-!
# Contradictory pipeline control

`pipe_control_stage` puts a register into `P_ERROR` when it is asked to bubble and to stall it in
the same cycle.  In the build with `PIPE` this happens for one combination of stage contents only:
a `RET` waits in decode for the register that a load in execute is about to write, and the address
of that load, which `forward_reg` hands to decode in place of the loaded value, is zero.
-/

namespace SystemEmulator

open Relation Result

/-- One of the five stages is asked to bubble and to stall.  The memory stage is never asked to
bubble and the writeback stage never to stall. -/
def HazardRequest.Contradictory (r : HazardRequest) : Prop :=
  (r.F_bubble = true ∧ r.F_stall = true) ∨ (r.D_bubble = true ∧ r.D_stall = true) ∨
    (r.X_bubble = true ∧ r.X_stall = true)

instance (r : HazardRequest) : Decidable r.Contradictory :=
  inferInstanceAs (Decidable (_ ∨ _ ∨ _))

def Machine.PipeError (s : Machine) : Prop :=
  s.F_ctl = .error ∨ s.D_ctl = .error ∨ s.X_ctl = .error ∨ s.M_ctl = .error ∨ s.W_ctl = .error

instance (s : Machine) : Decidable s.PipeError :=
  inferInstanceAs (Decidable (_ ∨ _ ∨ _ ∨ _ ∨ _))

/-- A `RET` in decode reads the register that a load from address zero in execute will write. -/
def Machine.ReturnsThroughNull (s : Machine) : Prop :=
  s.D_out.op = .ret ∧ s.X_out.op = .ldur ∧ s.X_out.dst = s.D_out.src1 ∧
    (executed s.X_out s.NZCV).1.val_ex = RET_FROM_MAIN_ADDR

/-- The state in which `handle_hazards` is called. -/
def beforeHazards (build : Build) (order : List ProcStage) (s : Machine) : Except Crash Machine :=
  (runStages build order s).map (forwardReg build)

/-! ## The requests of one cycle -/

theorem checkLoadUseHazard_iff (D_opcode : Opcode) (D_src1 D_src2 : ℕ) (X_opcode : Opcode)
    (X_dst : ℕ) : checkLoadUseHazard D_opcode D_src1 D_src2 X_opcode X_dst = true ↔
      checkBrHazard D_opcode = false ∧ X_opcode = .ldur ∧ X_dst ≠ XZR_NUM ∧
        (X_dst = D_src1 ∨ X_dst = D_src2) := by
  unfold checkLoadUseHazard
  cases checkBrHazard D_opcode <;> simp [and_assoc]

theorem contradictory_hazardRequest (ec : Bool) (F_status : Stat) (D_opcode : Opcode)
    (D_src1 D_src2 : ℕ) (D_val_a : BitVec 64) (X_opcode : Opcode) (X_dst : ℕ) (X_condval : Bool) :
    (hazardRequest ⟨true, ec⟩ F_status D_opcode D_src1 D_src2 D_val_a X_opcode X_dst
      X_condval).Contradictory ↔
    checkLoadUseHazard D_opcode D_src1 D_src2 X_opcode X_dst = true ∧ D_opcode = .ret ∧
      D_val_a = RET_FROM_MAIN_ADDR := by
  unfold HazardRequest.Contradictory hazardRequest
  by_cases huse : checkLoadUseHazard D_opcode D_src1 D_src2 X_opcode X_dst = true
  · obtain ⟨-, hldur, -⟩ := (checkLoadUseHazard_iff _ _ _ _ _).mp huse
    have hmispred : checkMispredBranchHazard X_opcode X_condval = false := by
      simp [checkMispredBranchHazard, hldur]
    by_cases hret : D_opcode = .ret
    · subst hret
      by_cases hmain : D_val_a = RET_FROM_MAIN_ADDR
      · simp [huse, hmispred, hmain]
      · simp [huse, hmispred, hmain, checkRetHazard]
    · simp [huse, hmispred, hret, checkRetHazard]
  · have huse' : checkLoadUseHazard D_opcode D_src1 D_src2 X_opcode X_dst = false := by
      simpa using huse
    by_cases hret : D_opcode = .ret
    · subst hret
      by_cases hmain : D_val_a = RET_FROM_MAIN_ADDR
      · simp [huse', hmain, checkRetHazard, checkBrHazard]
      · simp [huse', hmain]
    · simp [huse', hret]

theorem regField_lt (insnbits : BitVec 32) (frompos : ℕ) : regField insnbits frompos < 32 := by
  unfold regField bitfieldU32
  rw [BitVec.toNat_and]
  exact Nat.lt_of_le_of_lt Nat.and_le_right (by decide)

/-- A `RET` reads one general register or the stack pointer. -/
theorem DInstr.WF.src_ret {d : DInstr} (h : d.WF) (hret : d.op = .ret) :
    d.src1 ≠ XZR_NUM ∧ d.src2 = XZR_NUM := by
  have hformat : d.format = .b3 := by
    rw [h.format (by simp [hret]), hret]
    rfl
  have hlt := regField_lt d.insnbits 5
  constructor
  · have hsrc : d.src1 = regField d.insnbits 5 := by
      unfold DInstr.src1
      rw [hformat, hret]
      rfl
    rw [hsrc, XZR_NUM]
    omega
  · unfold DInstr.src2
    rw [hformat, hret]
    rfl

/-- Forwarding from the load in execute yields its address. -/
theorem forwardReg_val_a_of_execute {ec : Bool} {u : Machine}
    (henable : u.X_out.W_sigs.w_enable = true) (hdst : u.X_out.dst = u.D_src1)
    (hxzr : u.D_src1 ≠ XZR_NUM) :
    (forwardedRecord ⟨true, ec⟩ u).val_a = u.M_in.val_ex := by
  simp [forwardedRecord, forwardReg, forwardOne, henable, hdst, hxzr]

theorem requestOf_forwardReg (build : Build) (u : Machine) :
    requestOf build (forwardReg build u) =
      hazardRequest build u.F_out.status u.D_out.op u.D_src1 u.D_src2
        (forwardedRecord build u).val_a u.X_out.op u.X_out.dst u.M_in.cond_holds := by
  rw [forwardReg_eq]
  rfl

/-- A cycle makes a contradictory request exactly when a `RET` in decode returns through a load
from address zero and no data access is in flight. -/
theorem contradictory_hazardCalls_iff {ec : Bool} {s t : Machine} (hs : s.WF)
    {order : List ProcStage} (horder : order.Perm defaultOrder)
    (h : beforeHazards ⟨true, ec⟩ order s = .ok t) :
    (hazardCalls ⟨true, ec⟩ t).Contradictory ↔
      s.ReturnsThroughNull ∧ t.mem.dmem_status ≠ .inFlight := by
  obtain ⟨u, hstages, rfl⟩ := map_eq_ok.mp h
  have hu := stagesEffect_of_perm horder hstages
  obtain ⟨-, hD, hX, hM, hW⟩ := hu.outputs
  by_cases hflight : (forwardReg ⟨true, ec⟩ u).mem.dmem_status = .inFlight
  · rw [hazardCalls, if_pos ⟨rfl, hflight⟩]
    simp [HazardRequest.Contradictory, inFlightRequest, hflight]
  · rw [hazardCalls, if_neg fun h ↦ hflight h.2, requestOf_forwardReg,
      contradictory_hazardRequest, Machine.ReturnsThroughNull, hD, hX, hu.D_src.1, hu.D_src.2]
    constructor
    · rintro ⟨huse, hret, hval⟩
      obtain ⟨hxzr, hsrc2⟩ := hs.D_out.src_ret hret
      obtain ⟨-, hldur, hdst_xzr, hdst⟩ := (checkLoadUseHazard_iff _ _ _ _ _).mp huse
      replace hdst : s.X_out.dst = s.D_out.src1 :=
        hdst.resolve_right fun h ↦ hdst_xzr (h.trans hsrc2)
      have henable : u.X_out.W_sigs.w_enable = true := by
        rw [hX, hs.X_out.W_sigs, hldur]
        rfl
      rw [forwardReg_val_a_of_execute henable (by rw [hX, hu.D_src.1, hdst])
        (by rwa [hu.D_src.1]), hu.M_in] at hval
      exact ⟨⟨hret, hldur, hdst, hval⟩, hflight⟩
    · rintro ⟨⟨hret, hldur, hdst, hval⟩, -⟩
      obtain ⟨hxzr, hsrc2⟩ := hs.D_out.src_ret hret
      have henable : u.X_out.W_sigs.w_enable = true := by
        rw [hX, hs.X_out.W_sigs, hldur]
        rfl
      refine ⟨?_, hret, ?_⟩
      · exact (checkLoadUseHazard_iff _ _ _ _ _).mpr
          ⟨by simp [checkBrHazard, hret], hldur, hdst ▸ hxzr, Or.inl hdst⟩
      · rw [forwardReg_val_a_of_execute henable (by rw [hX, hu.D_src.1, hdst])
          (by rwa [hu.D_src.1]), hu.M_in, hval]

/-! ## Runs -/

theorem pipeControlStage_ne_error {ctl : PipeCtl} (hctl : ctl ≠ .error) {bubble stall : Bool}
    (h : ¬(bubble = true ∧ stall = true)) : pipeControlStage ctl bubble stall ≠ .error := by
  cases bubble <;> cases stall <;> cases ctl <;> simp_all [pipeControlStage]

/-- A consistent request leaves no register in error. -/
theorem applyRequest_not_pipeError {t : Machine} (ht : ¬t.PipeError) {r : HazardRequest}
    (hr : ¬r.Contradictory) : ¬(applyRequest t r).PipeError := by
  simp only [Machine.PipeError, not_or] at ht ⊢
  simp only [HazardRequest.Contradictory, not_or] at hr
  exact ⟨pipeControlStage_ne_error ht.1 hr.1, pipeControlStage_ne_error ht.2.1 hr.2.1,
    pipeControlStage_ne_error ht.2.2.1 hr.2.2,
    pipeControlStage_ne_error ht.2.2.2.1 (by simp),
    pipeControlStage_ne_error ht.2.2.2.2 (by simp)⟩

/-- The controls that a cycle leaves are those of its requests. -/
theorem finishCycle_pipeError (build : Build) (u : Machine) :
    (finishCycle build u).PipeError ↔
      (applyRequest u (hazardCalls build (forwardReg build u))).PipeError := by
  rw [finishCycle_eq]
  exact Iff.rfl

theorem cycle_not_pipeError {ec : Bool} {order : List ProcStage}
    (horder : order.Perm defaultOrder) {s s' : Machine} (hs : s.WF) (herror : ¬s.PipeError)
    (hreturn : ¬s.ReturnsThroughNull) (h : cycle ⟨true, ec⟩ order s = .ok s') :
    ¬s'.PipeError := by
  obtain ⟨u, hstages, rfl⟩ := cycle_ok h
  have hu := stagesEffect_of_perm horder hstages
  have hcalls : ¬(hazardCalls ⟨true, ec⟩ (forwardReg ⟨true, ec⟩ u)).Contradictory := by
    rw [contradictory_hazardCalls_iff hs horder (t := forwardReg ⟨true, ec⟩ u)
      (by rw [beforeHazards, hstages]; rfl)]
    exact fun hc ↦ hreturn hc.1
  have hu' : ¬u.PipeError := by
    obtain ⟨hF, hD, hX, hM, hW⟩ := hu.controls
    rwa [Machine.PipeError, hF, hD, hX, hM, hW]
  rw [finishCycle_pipeError]
  exact applyRequest_not_pipeError hu' hcalls

/-- Contradictory requests arise exactly when a `RET` returns through a load from address zero
with no data access in flight; in a run without such a state no register enters `P_ERROR`. -/
theorem pipe_control_consistent (ec : Bool) (GPR : ℕ → BitVec 64) (mem : Mem)
    (entry : BitVec 64) :
    (∀ s, Reachable ⟨true, ec⟩ (initMachine GPR mem entry) s →
      ∀ order : List ProcStage, order.Perm defaultOrder →
        ∀ t, beforeHazards ⟨true, ec⟩ order s = .ok t →
          ((hazardCalls ⟨true, ec⟩ t).Contradictory ↔
            s.ReturnsThroughNull ∧ t.mem.dmem_status ≠ .inFlight)) ∧
    (∀ s, ReflTransGen (fun s s' ↦ AnyStep ⟨true, ec⟩ s s' ∧ ¬s.ReturnsThroughNull)
        (initMachine GPR mem entry) s → ¬s.PipeError) := by
  constructor
  · intro s hreach order horder t ht
    exact contradictory_hazardCalls_iff (hreach.wf (initMachine_wf GPR mem entry)) horder ht
  · intro s hrun
    suffices h : s.WF ∧ ¬s.PipeError from h.2
    induction hrun with
    | refl => exact ⟨initMachine_wf GPR mem entry, by simp [Machine.PipeError, initMachine]⟩
    | tail _ hstep ih =>
      obtain ⟨⟨order, horder, -, hcycle⟩, hreturn⟩ := hstep
      exact ⟨ih.1.cycle horder hcycle, cycle_not_pipeError horder ih.1 ih.2 hreturn hcycle⟩

/-- `LDUR X30, [X0]; RET` with `X0` zero enters `P_ERROR`. -/
theorem pipe_control_contradiction :
    ¬∀ (GPR : ℕ → BitVec 64) (mem : Mem) (entry : BitVec 64) (s : Machine),
      Reachable ⟨true, false⟩ (initMachine GPR mem entry) s → ¬s.PipeError := by
  intro hclaim
  have hrun : (runElf ⟨true, false⟩ 20 (fun _ ↦ defaultOrder) (fun _ ↦ 0)
      (textImage [0xF840001E, 0xD65F03C0]) (segStarts .text)).map
        (fun s ↦ decide s.PipeError) = .ok true := by
    decide +kernel
  cases hend : runElf ⟨true, false⟩ 20 (fun _ ↦ defaultOrder) (fun _ ↦ 0)
      (textImage [0xF840001E, 0xD65F03C0]) (segStarts .text) with
  | error crash => rw [hend] at hrun; cases hrun
  | ok s =>
    rw [hend] at hrun
    have herror : s.PipeError := by simpa [Except.map] using hrun
    exact hclaim _ _ _ s
      (runLoop_reachable (fun _ ↦ List.Perm.refl _) (initMachine_running _ _ _) hend) herror

end SystemEmulator
