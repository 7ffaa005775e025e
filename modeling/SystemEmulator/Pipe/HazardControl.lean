import SystemEmulator.Pipe.Stages

/-!
# Forwarding and hazard control

`forward.c` and `hazard_control.c`.
-/

namespace SystemEmulator

/-- The forwarding of one operand in `forward_reg`: execute first, then memory, then writeback. -/
def forwardOne (D_src X_dst M_dst W_dst : ℕ) (X_val_ex M_val_ex M_val_mem W_val_ex W_val_mem :
    BitVec 64) (M_wval_sel W_wval_sel X_w_enable M_w_enable W_w_enable : Bool)
    (val : BitVec 64) : BitVec 64 :=
  if X_w_enable ∧ X_dst = D_src ∧ D_src ≠ XZR_NUM then X_val_ex
  else if M_w_enable ∧ M_dst = D_src ∧ D_src ≠ XZR_NUM then
    if M_wval_sel then M_val_mem else M_val_ex
  else if W_w_enable ∧ W_dst = D_src ∧ D_src ≠ XZR_NUM then
    if W_wval_sel then W_val_mem else W_val_ex
  else val

/-- `forward_reg` with the wires that `runElf` connects to it. -/
def forwardReg (build : Build) (s : Machine) : Machine :=
  let forward (D_src : ℕ) (val : BitVec 64) : BitVec 64 :=
    forwardOne D_src s.X_out.dst s.M_out.dst s.W_out.dst s.M_in.val_ex s.M_out.val_ex
      s.W_in.val_mem s.W_out.val_ex s.W_out.val_mem s.M_out.W_sigs.wval_sel
      s.W_out.W_sigs.wval_sel s.X_out.W_sigs.w_enable s.M_out.W_sigs.w_enable
      s.W_out.W_sigs.w_enable val
  if build.pipe then
    { s with
      X_in := { s.X_in with
        val_a := forward s.D_src1 s.X_in.val_a
        val_b := forward s.D_src2 s.X_in.val_b } }
  else s

/-- `pipe_control_stage` on the control of one stage. -/
def pipeControlStage (ctl : PipeCtl) (bubble stall : Bool) : PipeCtl :=
  if (bubble && stall) || ctl == .error then .error
  else if bubble then .bubble
  else if stall then .stall
  else .load

/-- `check_ret_hazard`. -/
def checkRetHazard (D_opcode : Opcode) : Bool := D_opcode == .ret

/-- `check_br_hazard`. -/
def checkBrHazard (D_opcode : Opcode) : Bool := D_opcode == .br || D_opcode == .blr

/-- `check_cb_hazard`. -/
def checkCbHazard (D_opcode : Opcode) (D_val_a : BitVec 64) : Bool :=
  match D_opcode with
  | .cbz => D_val_a != 0
  | .cbnz => D_val_a == 0
  | _ => false

/-- `check_mispred_branch_hazard`. -/
def checkMispredBranchHazard (X_opcode : Opcode) (X_condval : Bool) : Bool :=
  X_opcode == .bCond && !X_condval

/-- `check_load_use_hazard`. -/
def checkLoadUseHazard (D_opcode : Opcode) (D_src1 D_src2 : ℕ) (X_opcode : Opcode) (X_dst : ℕ) :
    Bool :=
  if checkBrHazard D_opcode then false
  else X_opcode == .ldur && X_dst != XZR_NUM && (X_dst == D_src1 || X_dst == D_src2)

/-- The five bubble and stall requests of `handle_hazards`. -/
structure HazardRequest where
  F_bubble : Bool := false
  F_stall : Bool := false
  D_bubble : Bool := false
  D_stall : Bool := false
  X_bubble : Bool := false
  X_stall : Bool := false
  M_stall : Bool := false
  W_bubble : Bool := false
  deriving DecidableEq, Repr

/-- The requests of `handle_hazards` in a cycle that is not stalled by a cache miss.  `F_status` is
`F_out->status`, and the remaining arguments are those of the source. -/
def hazardRequest (build : Build) (F_status : Stat) (D_opcode : Opcode) (D_src1 D_src2 : ℕ)
    (D_val_a : BitVec 64) (X_opcode : Opcode) (X_dst : ℕ) (X_condval : Bool) : HazardRequest :=
  let f_stall := F_status == .hlt || F_status == .ins
  let ret_from_main := D_opcode == .ret && D_val_a == RET_FROM_MAIN_ADDR
  if build.pipe then
    let ret := checkRetHazard D_opcode && !ret_from_main
    let mispred := checkMispredBranchHazard X_opcode X_condval
    let load_use := checkLoadUseHazard D_opcode D_src1 D_src2 X_opcode X_dst
    let br := checkBrHazard D_opcode && !ret_from_main
    let cb := !load_use && checkCbHazard D_opcode D_val_a
    { F_bubble := ret_from_main && !f_stall
      F_stall := f_stall || load_use || ret || br
      D_bubble := (ret && !load_use) || mispred || ret_from_main || (br && !load_use) || cb
      D_stall := load_use
      X_bubble := load_use || mispred }
  else
    let ret_normal := D_opcode == .ret && D_val_a != RET_FROM_MAIN_ADDR
    { F_bubble := ret_from_main && !f_stall
      F_stall := f_stall
      D_bubble := ret_normal }

/-- The requests of `handle_hazards` while a data access is in flight. -/
def inFlightRequest : HazardRequest :=
  { F_stall := true, D_stall := true, X_stall := true, M_stall := true, W_bubble := true }

/-- The five calls of `pipe_control_stage`. -/
def applyRequest (s : Machine) (r : HazardRequest) : Machine :=
  { s with
    F_ctl := pipeControlStage s.F_ctl r.F_bubble r.F_stall
    D_ctl := pipeControlStage s.D_ctl r.D_bubble r.D_stall
    X_ctl := pipeControlStage s.X_ctl r.X_bubble r.X_stall
    M_ctl := pipeControlStage s.M_ctl false r.M_stall
    W_ctl := pipeControlStage s.W_ctl r.W_bubble false }

/-- The requests that `handle_hazards` makes in the state after the five stages. -/
def requestOf (build : Build) (s : Machine) : HazardRequest :=
  hazardRequest build s.F_out.status s.D_out.op s.D_src1 s.D_src2 s.X_in.val_a s.X_out.op
    s.X_out.dst s.M_in.cond_holds

/-- `handle_hazards` with the wires that `runElf` connects to it. -/
def handleHazards (build : Build) (s : Machine) : Machine :=
  if build.pipe then
    if s.mem.dmem_status = .inFlight then
      { applyRequest s inFlightRequest with deassert_flags := true }
    else
      -- a CBZ or CBNZ predicted taken whose condition does not hold
      let cb := !checkLoadUseHazard s.D_out.op s.D_src1 s.D_src2 s.X_out.op s.X_out.dst &&
        checkCbHazard s.D_out.op s.X_in.val_a
      { applyRequest s (requestOf build s) with
        F_PC := if cb then s.D_out.multipurpose_val else s.F_PC
        deassert_flags := s.W_in.status.isError || s.M_out.status.isError }
  else applyRequest s (requestOf build s)

end SystemEmulator
