import SystemEmulator.Pipe.Registers

/-!
# Decode stage

`instr_Decode.c` and the format table of `instr_Decode_extractregs.c`.
-/

namespace SystemEmulator

structure CtlSigs where
  D_sigs : DSigs := {}
  X_sigs : XSigs := {}
  M_sigs : MSigs := {}
  W_sigs : WSigs := {}

/-- `generate_DXMW_control`. -/
def generateDXMWControl : Opcode → CtlSigs
  | .ldur => { M_sigs := { dmem_read := true }, W_sigs := { wval_sel := true, w_enable := true } }
  | .stur => { D_sigs := { src2_sel := true }, M_sigs := { dmem_write := true } }
  | .movz | .movk => { W_sigs := { w_enable := true } }
  | .adrp => { X_sigs := { vala_sel := true }, W_sigs := { w_enable := true } }
  | .addRI | .subRI => { W_sigs := { w_enable := true } }
  | .addsRR | .subsRR | .andsRR =>
      { X_sigs := { valb_sel := true, set_flags := true }, W_sigs := { w_enable := true } }
  | .cmnRR | .cmpRR | .tstRR => { X_sigs := { valb_sel := true, set_flags := true } }
  | .mvn | .orrRR | .eorRR => { X_sigs := { valb_sel := true }, W_sigs := { w_enable := true } }
  | .lslRI | .lsrRI | .asr => { W_sigs := { w_enable := true } }
  | .lslRR | .lsrRR => { X_sigs := { valb_sel := true }, W_sigs := { w_enable := true } }
  | .bl | .blr =>
      { X_sigs := { vala_sel := true }, W_sigs := { dst_sel := true, w_enable := true } }
  | .csel | .csinv | .csinc | .csneg =>
      { X_sigs := { valb_sel := true }, W_sigs := { w_enable := true } }
  | .b | .bCond | .ret | .nop | .hlt | .cbz | .cbnz | .br | .ubfm | .ubfmv | .error => {}

/-- `extract_immval`. -/
def extractImmval (insnbits : BitVec 32) : Opcode → BitVec 64
  | .ldur | .stur => bitfieldS64 insnbits 12 9
  | .movz | .movk => (bitfieldU32 insnbits 5 16).setWidth 64
  | .addRI | .subRI => (bitfieldU32 insnbits 10 12).setWidth 64
  | .lslRI => (64 - bitfieldU32 insnbits 16 6).setWidth 64
  | .lsrRI | .asr => (bitfieldU32 insnbits 16 6).setWidth 64
  | _ => 0

/-- `decide_alu_op`. -/
def decideAluOp : Opcode → AluOp
  | .ldur | .stur => .plus
  | .movz => .mov
  | .movk => .movk
  | .addRI | .addsRR | .cmnRR => .plus
  | .subRI | .subsRR | .cmpRR => .minus
  | .mvn => .inv
  | .orrRR => .or
  | .eorRR => .eor
  | .andsRR | .tstRR => .and
  | .lslRI | .lslRR => .lsl
  | .lsrRI | .lsrRR => .lsr
  | .asr => .asr
  | .csel => .csel
  | .csinv => .csinv
  | .csinc => .csinc
  | .csneg => .csneg
  | .cbz => .cbz
  | .cbnz => .cbnz
  | _ => .passA

structure RegNums where
  src1 : ℕ := XZR_NUM
  src2 : ℕ := XZR_NUM
  dst : ℕ := XZR_NUM
  deriving DecidableEq, Repr

/-- Register 31 read as the zero register. -/
def spToXzr (r : ℕ) : ℕ := if r = SP_NUM then XZR_NUM else r

/-- `fix_regs`. -/
def fixRegs (op : Opcode) (r : RegNums) : RegNums :=
  match op with
  | .addsRR | .cmnRR | .subsRR | .cmpRR | .mvn | .orrRR | .eorRR | .andsRR | .tstRR
  | .lslRR | .lsrRR | .lslRI | .lsrRI | .asr | .movz | .movk
  | .csel | .csinv | .csinc | .csneg | .cbz | .cbnz | .br | .blr =>
      { src1 := spToXzr r.src1, src2 := spToXzr r.src2, dst := spToXzr r.dst }
  | .ldur => { r with dst := spToXzr r.dst }
  | .stur => { r with src2 := spToXzr r.src2, dst := spToXzr r.dst }
  | _ => r

/-- `extract_regs_table`: the `format_*` handlers, from register numbers that all start as
`XZR_NUM`. -/
def extractRegsTable (format : Format) (insnbits : BitVec 32) (op : Opcode) : RegNums :=
  match format with
  | .m => { src1 := regField insnbits 5, dst := regField insnbits 0 }
  | .i1 =>
      { src1 := if op = .movk then regField insnbits 0 else XZR_NUM, dst := regField insnbits 0 }
  | .i2 => { dst := regField insnbits 0 }
  | .rr =>
      { src1 := regField insnbits 5, src2 := regField insnbits 16, dst := regField insnbits 0 }
  | .ri => { src1 := regField insnbits 5, dst := regField insnbits 0 }
  | .b1 | .b2 | .s | .error => {}
  | .b3 => { src1 := regField insnbits 5 }
  | .ec =>
      match op with
      | .csel | .csinv | .csinc | .csneg =>
          { src1 := regField insnbits 5, src2 := regField insnbits 16, dst := regField insnbits 0 }
      | .cbz | .cbnz => { src1 := regField insnbits 0 }
      | .br | .blr => { src1 := regField insnbits 5 }
      | _ => {}

/-- `extract_regs`. -/
def extractRegs (insnbits : BitVec 32) (op : Opcode) (format : Format) : RegNums :=
  fixRegs op (extractRegsTable format insnbits op)

/-- `D_src1`, the first source register of a decode record. -/
def DInstr.src1 (d : DInstr) : ℕ := (extractRegs d.insnbits d.op d.format).src1

/-- `eff_src2`, the second source register: the data register for a store. -/
def DInstr.src2 (d : DInstr) : ℕ :=
  let regs := extractRegs d.insnbits d.op d.format
  if (generateDXMWControl d.op).D_sigs.src2_sel then regs.dst else regs.src2

/-- The destination register: `X30` for a link. -/
def DInstr.dst (d : DInstr) : ℕ :=
  if (generateDXMWControl d.op).W_sigs.dst_sel then 30
  else (extractRegs d.insnbits d.op d.format).dst

/-- The condition code: bits 15 to 12 for the conditional selects, bits 3 to 0 otherwise. -/
def extractCond (insnbits : BitVec 32) : Opcode → Cond
  | .csel | .csinv | .csinc | .csneg => condOfBits (bitfieldU32 insnbits 12 4)
  | _ => condOfBits (bitfieldU32 insnbits 0 4)

/-- The execute record that decode produces from a decode record and the register file. -/
def decoded (d : DInstr) (regs : Regs) : XInstr :=
  let sigs := generateDXMWControl d.op
  let vals := regfileRead regs d.src1 d.src2
  { op := d.op
    multipurpose_val := d.multipurpose_val
    X_sigs := sigs.X_sigs
    M_sigs := sigs.M_sigs
    W_sigs := sigs.W_sigs
    ALU_op := decideAluOp d.op
    cond := extractCond d.insnbits d.op
    val_a := vals.1
    val_b := vals.2
    val_imm := extractImmval d.insnbits d.op
    val_hw := (bitfieldU32 d.insnbits 21 2 * 16).setWidth 8
    dst := d.dst
    status := d.status }

/-- `decode_instr(D_out, X_in)`. -/
def decodeInstr (s : Machine) : Machine :=
  { s with X_in := decoded s.D_out s.regs, D_src1 := s.D_out.src1, D_src2 := s.D_out.src2 }

end SystemEmulator
