import SystemEmulator.Pipe.Registers

/-!
# Fetch stage

`instr_Fetch.c`.  The stage reads the output side of the other registers, writes the input side of
the decode register, and latches a fault or a halt in the status of both sides of its own register.
-/

namespace SystemEmulator

/-- The indirect branches that redirect the fetch while they are in the execute stage. -/
def isIndirectBranch : Opcode → Bool
  | .ret | .br | .blr => true
  | _ => false

/-- `select_PC`.  The parameter `D_seq_succ` of the source is not used by its body. -/
def selectPC (build : Build) (pred_PC : BitVec 64) (D_opcode : Opcode) (val_a : BitVec 64)
    (X_out : XInstr) (M_opcode : Opcode) (M_cond_val : Bool) (seq_succ : BitVec 64) : BitVec 64 :=
  if D_opcode = .ret ∧ val_a = RET_FROM_MAIN_ADDR then 0
  else if build.pipe ∧ isIndirectBranch X_out.op then X_out.val_a
  else if build.pipe ∧ M_opcode = .bCond ∧ ¬M_cond_val then seq_succ
  else pred_PC

/-- `predict_PC`, for a current PC other than zero: the predicted PC.  The sequential successor is
`current_PC + 4` for every opcode. -/
def predictPC (current_PC : BitVec 64) (insnbits : BitVec 32) (op : Opcode) : BitVec 64 :=
  match op with
  | .b | .bl => current_PC + (bitfieldS64 insnbits 0 26 <<< 2)
  | .bCond | .cbz | .cbnz => current_PC + (bitfieldS64 insnbits 5 19 <<< 2)
  | _ => current_PC + 4

/-- `fix_instr_aliases`. -/
def fixInstrAliases (insnbits : BitVec 32) (op : Opcode) : Opcode :=
  match op with
  | .ubfm => if bitfieldU32 insnbits 10 6 = 63 then .lsrRI else .lslRI
  | .ubfmv => if bitfieldU32 insnbits 10 2 = 0 then .lslRR else .lsrRR
  | .subsRR => if regField insnbits 0 = 31 then .cmpRR else .subsRR
  | .addsRR => if regField insnbits 0 = 31 then .cmnRR else .addsRR
  | .andsRR => if regField insnbits 0 = 31 then .tstRR else .andsRR
  | .csel => if bitfieldU32 insnbits 10 1 = 1 then .csinc else .csel
  | .csneg => if bitfieldU32 insnbits 10 1 = 0 then .csinv else .csneg
  | op => op

/-- The opcode of an instruction word: the top eleven bits, then the aliases. -/
def decodeOpcode (build : Build) (insnbits : BitVec 32) : Opcode :=
  fixInstrAliases insnbits (itable build.ec (bitfieldU32 insnbits 21 11).toNat)

/-- The page address of an `ADRP` word. -/
def adrpVal (current_PC : BitVec 64) (insnbits : BitVec 32) : BitVec 64 :=
  let immhi := bitfieldU32 insnbits 5 19
  let immlo := bitfieldU32 insnbits 29 2
  (current_PC &&& ~~~0xFFF#64) + (bitfieldS64 ((immhi <<< 2) ||| immlo) 0 21 <<< 12)

/-- The decode record of a word fetched at `current_PC`, its status included. -/
def fetchedInstr (build : Build) (current_PC : BitVec 64) (insnbits : BitVec 32)
    (imem_err : Bool) : DInstr :=
  if imem_err then
    { insnbits := insnbits
      op := .error
      format := .error
      multipurpose_val := current_PC + 4
      status := .ins }
  else
    let op := decodeOpcode build insnbits
    { insnbits := insnbits
      op := op
      format := if op ≠ .error then ftable op else .error
      multipurpose_val := if op = .adrp then adrpVal current_PC insnbits else current_PC + 4
      status := if op = .error then .ins else if op = .hlt then .hlt else .aok }

/-- The value of `F_PC` after a word is fetched at `current_PC`. -/
def fetchedPC (build : Build) (current_PC : BitVec 64) (insnbits : BitVec 32) (imem_err : Bool) :
    BitVec 64 :=
  if imem_err then current_PC + 4
  else predictPC current_PC insnbits (decodeOpcode build insnbits)

/-- The decode record of a generated `HLT`.  Its `multipurpose_val` keeps the stale value that the
input side of the decode register holds. -/
def generatedHlt (D_in : DInstr) : DInstr :=
  { D_in with insnbits := 0xD4400000, op := .hlt, format := ftable .hlt, status := .hlt }

def currentPC (build : Build) (s : Machine) : BitVec 64 :=
  let current_PC := selectPC build s.F_out.pred_PC s.D_out.op s.F_out.pred_PC s.X_out
    s.M_out.op s.M_out.cond_holds s.M_out.multipurpose_val
  if ¬build.pipe ∧ s.M_out.op = .bCond ∧ ¬s.M_out.cond_holds then s.M_out.multipurpose_val
  else current_PC

/-- `F_in->status` after a redirected fetch has cleared the status of a stalled one. -/
def clearedStatus (build : Build) (s : Machine) : Stat :=
  if build.pipe ∧ currentPC build s ≠ 0 ∧
      (isIndirectBranch s.X_out.op ∨ (s.M_out.op = .bCond ∧ ¬s.M_out.cond_holds)) then .aok
  else s.F_in.status

/-- Whether the stage generates a `HLT` instead of reading the instruction memory. -/
def generatesHlt (build : Build) (s : Machine) : Bool :=
  currentPC build s == 0 || clearedStatus build s == .hlt || clearedStatus build s == .ins

/-- `fetch_instr(F_out, D_in)`. -/
def fetchInstr (build : Build) (s : Machine) : Except Crash Machine := do
  let current_PC := currentPC build s
  let (mem, D_in, F_PC) ←
    if generatesHlt build s then pure (s.mem, generatedHlt s.D_in, s.F_PC)
    else do
      let (mem, insnbits, imem_err) ← imem s.mem current_PC
      pure (mem, fetchedInstr build current_PC insnbits imem_err,
        fetchedPC build current_PC insnbits imem_err)
  -- a fault or a halt is latched in both sides of the fetch register
  let F_in_status :=
    if D_in.status = .ins ∨ D_in.status = .hlt then D_in.status else clearedStatus build s
  -- without PIPE a RET in decode overrides the PC of the next cycle
  let F_PC :=
    if ¬build.pipe ∧ s.D_out.op = .ret then
      let ret_addr := (regfileRead s.regs (regField s.D_out.insnbits 5) XZR_NUM).1
      if ret_addr ≠ RET_FROM_MAIN_ADDR then ret_addr else F_PC
    else F_PC
  pure { s with
    mem := mem
    D_in := D_in
    F_PC := F_PC
    F_in := { s.F_in with status := F_in_status }
    F_out := { s.F_out with status := D_in.status } }

end SystemEmulator
