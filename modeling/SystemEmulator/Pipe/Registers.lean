import SystemEmulator.Base.HwElts

/-!
# Pipeline registers

The structures of `instr_pipeline.h` and the state of the whole emulator.  The default value of
every field is the all-zero pattern, so that `{}` is the register after `memset`.  The fields
`print_op` only serve the verbose output and are left out, and the union `multipurpose_val` is one
64-bit value.
-/

namespace SystemEmulator

/-- `d_ctl_sigs_t`. -/
structure DSigs where
  src2_sel : Bool := false
  deriving DecidableEq, Repr

/-- `x_ctl_sigs_t`. -/
structure XSigs where
  vala_sel : Bool := false
  valb_sel : Bool := false
  set_flags : Bool := false
  deriving DecidableEq, Repr

/-- `m_ctl_sigs_t`. -/
structure MSigs where
  dmem_read : Bool := false
  dmem_write : Bool := false
  deriving DecidableEq, Repr

/-- `w_ctl_sigs_t`. -/
structure WSigs where
  dst_sel : Bool := false
  wval_sel : Bool := false
  w_enable : Bool := false
  deriving DecidableEq, Repr

/-- `f_instr_impl_t`. -/
structure FInstr where
  pred_PC : BitVec 64 := 0
  status : Stat := .bub
  deriving DecidableEq, Repr

/-- `d_instr_impl_t`. -/
structure DInstr where
  insnbits : BitVec 32 := 0
  op : Opcode := .nop
  format : Format := .error
  multipurpose_val : BitVec 64 := 0
  status : Stat := .bub
  deriving DecidableEq, Repr

/-- `x_instr_impl_t`. -/
structure XInstr where
  op : Opcode := .nop
  multipurpose_val : BitVec 64 := 0
  X_sigs : XSigs := {}
  M_sigs : MSigs := {}
  W_sigs : WSigs := {}
  ALU_op : AluOp := .plus
  cond : Cond := .eq
  val_a : BitVec 64 := 0
  val_b : BitVec 64 := 0
  val_imm : BitVec 64 := 0
  val_hw : BitVec 8 := 0
  dst : ℕ := 0
  status : Stat := .bub
  deriving DecidableEq, Repr

/-- `m_instr_impl_t`. -/
structure MInstr where
  op : Opcode := .nop
  multipurpose_val : BitVec 64 := 0
  cond_holds : Bool := false
  M_sigs : MSigs := {}
  W_sigs : WSigs := {}
  val_b : BitVec 64 := 0
  dst : ℕ := 0
  val_ex : BitVec 64 := 0
  status : Stat := .bub
  deriving DecidableEq, Repr

/-- `w_instr_impl_t`. -/
structure WInstr where
  op : Opcode := .nop
  W_sigs : WSigs := {}
  dst : ℕ := 0
  val_ex : BitVec 64 := 0
  val_mem : BitVec 64 := 0
  status : Stat := .bub
  deriving DecidableEq, Repr

/-- `pipe_ctl_stat_t`. -/
inductive PipeCtl where
  | load | error | bubble | stall
  deriving DecidableEq, Repr

/-- `proc_stage_t`, the five stages. -/
inductive ProcStage where
  | fetch | decode | execute | memory | wback
  deriving DecidableEq, Repr

/-- The state of the emulator: `guest.proc`, both sides and the control of the five pipeline
registers, the global wires of `instr_base.c`, and the memory. -/
structure Machine where
  regs : Regs
  NZCV : BitVec 8
  PC : BitVec 64
  status : Stat
  F_in : FInstr := {}
  F_out : FInstr := {}
  F_ctl : PipeCtl := .bubble
  D_in : DInstr := {}
  D_out : DInstr := {}
  D_ctl : PipeCtl := .bubble
  X_in : XInstr := {}
  X_out : XInstr := {}
  X_ctl : PipeCtl := .bubble
  M_in : MInstr := {}
  M_out : MInstr := {}
  M_ctl : PipeCtl := .bubble
  W_in : WInstr := {}
  W_out : WInstr := {}
  W_ctl : PipeCtl := .bubble
  F_PC : BitVec 64 := 0
  D_src1 : ℕ := 0
  D_src2 : ℕ := 0
  X_nzcvval : BitVec 8 := 0
  X_set_flags : Bool := false
  M_PC : BitVec 64 := 0
  W_wval : BitVec 64 := 0
  deassert_flags : Bool := false
  mem : Mem

end SystemEmulator
