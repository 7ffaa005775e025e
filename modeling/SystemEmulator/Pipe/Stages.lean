import SystemEmulator.Pipe.Registers

/-!
# Execute, memory and writeback stages

`instr_Execute.c`, `instr_Memory.c` and `instr_Writeback.c`.
-/

namespace SystemEmulator

/-- The memory record and the flags that execute produces from an execute record. -/
def executed (x : XInstr) (nzcv : BitVec 8) : MInstr × BitVec 8 :=
  let alu_vala := if x.X_sigs.vala_sel then x.multipurpose_val else x.val_a
  let alu_valb := if x.X_sigs.valb_sel then x.val_b else x.val_imm
  let r := alu alu_vala alu_valb x.val_hw nzcv x.ALU_op x.X_sigs.set_flags x.cond
  ({ op := x.op
     multipurpose_val := x.multipurpose_val
     cond_holds := r.2.1
     M_sigs := x.M_sigs
     W_sigs := x.W_sigs
     val_b := x.val_b
     dst := x.dst
     val_ex := r.1
     status := x.status }, r.2.2)

/-- `execute_instr(X_out, M_in)`. -/
def executeInstr (s : Machine) : Machine :=
  let r := executed s.X_out s.NZCV
  { s with M_in := r.1, X_nzcvval := r.2, X_set_flags := s.X_out.X_sigs.set_flags }

/-- The memory and the writeback record after one call of `dmem` for a memory record. -/
def accessed (m : MInstr) (mem : Mem) : Except Crash (Mem × WInstr) := do
  let (mem, dmem_rval, dmem_err) ← dmem mem m.val_ex m.val_b m.M_sigs.dmem_read m.M_sigs.dmem_write
  pure (mem,
    { op := m.op
      W_sigs := m.W_sigs
      dst := m.dst
      val_ex := m.val_ex
      val_mem := dmem_rval
      status := if dmem_err then .adr else m.status })

/-- `STAT_INS` or `STAT_ADR`, the test `error` of `hazard_control.c`. -/
def Stat.isError : Stat → Bool
  | .ins | .adr => true
  | _ => false

/-- `memory_instr(M_out, W_in)`. -/
def memoryInstr (build : Build) (s : Machine) : Except Crash Machine := do
  let M_PC := s.M_out.multipurpose_val - 4
  let (mem, W_in) ← accessed s.M_out s.mem
  pure { s with
    mem := mem
    W_in := W_in
    M_PC := M_PC
    F_PC := if build.pipe && W_in.status.isError then M_PC else s.F_PC }

def WInstr.wval (w : WInstr) : BitVec 64 := if w.W_sigs.wval_sel then w.val_mem else w.val_ex

/-- `wback_instr(W_out)`. -/
def wbackInstr (s : Machine) : Machine := { s with W_wval := s.W_out.wval }

end SystemEmulator
