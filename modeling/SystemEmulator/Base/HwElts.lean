import SystemEmulator.Base.Instr
import SystemEmulator.Base.Mem

/-!
# Hardware elements

`hw_elts.c`: the register file, the ripple-carry adder, the ALU, and the two memory ports.
-/

namespace SystemEmulator

/-- The registers of `guest.proc`.  `GPR` has 31 elements. -/
structure Regs where
  GPR : ℕ → BitVec 64
  SP : BitVec 64

/-- One read port of `regfile_read`. -/
def Regs.read (regs : Regs) (src : ℕ) : BitVec 64 :=
  if src = XZR_NUM then 0
  else if src = SP_NUM then regs.SP
  else regs.GPR src

/-- `regfile_read`. -/
def regfileRead (regs : Regs) (src1 src2 : ℕ) : BitVec 64 × BitVec 64 :=
  (regs.read src1, regs.read src2)

/-- `regfile_write`. -/
def regfileWrite (regs : Regs) (dst : ℕ) (val_w : BitVec 64) (w_enable : Bool) : Regs :=
  if !w_enable then regs
  else if dst = XZR_NUM then regs
  else if dst = SP_NUM then { regs with SP := val_w }
  else { regs with GPR := Function.update regs.GPR dst val_w }

/-! ## The adder and the ALU -/

/-- One cell of the adder: the sum bit and the carry out. -/
def fullAdder (bit_a bit_b c_in : Bool) : Bool × Bool :=
  (bit_a ^^ bit_b ^^ c_in, (bit_a && bit_b) || (bit_a && c_in) || (bit_b && c_in))

/-- `ripple_carry_add` on the cells from `64 - remaining` on; `c_in` is the carry that enters
them, and the result pairs the sum with the carry out of the last cell. -/
def rippleCarryLoop (val_a val_b : BitVec 64) : ℕ → Bool → BitVec 64 → BitVec 64 × Bool
  | 0, c_in, result => (result, c_in)
  | remaining + 1, c_in, result =>
      let i := 64 - (remaining + 1)
      let cell := fullAdder (val_a.getLsbD i) (val_b.getLsbD i) c_in
      rippleCarryLoop val_a val_b remaining cell.2
        (if cell.1 then result ||| (1#64 <<< i) else result)

/-- `init_rca` followed by `ripple_carry_add`: the sum and `rca[63].c_out`. -/
def rippleCarryAdd (val_a val_b : BitVec 64) (c_in : Bool) : BitVec 64 × Bool :=
  rippleCarryLoop val_a val_b 64 c_in 0

/-- `cond_holds`. -/
def condHolds (cond : Cond) (flags : BitVec 8) : Bool :=
  let n := getNF flags
  let z := getZF flags
  let c := getCF flags
  let v := getVF flags
  match cond with
  | .eq => z
  | .ne => !z
  | .cs => c
  | .cc => !c
  | .mi => n
  | .pl => !n
  | .vs => v
  | .vc => !v
  | .hi => c && !z
  | .ls => !c || z
  | .ge => n == v
  | .lt => n != v
  | .gt => !z && (n == v)
  | .le => z || (n != v)
  | .al => true
  | .nv => true

/-- The flags of a logical operation. -/
def logicFlags (result : BitVec 64) : BitVec 8 :=
  packCC result.msb (result == 0) false false

/-- The value and the flags that `alu` computes before it tests the condition. -/
def aluResult (alu_vala alu_valb : BitVec 64) (alu_valhw : BitVec 8) (nzcv : BitVec 8)
    (ALUop : AluOp) (set_flags : Bool) (cond : Cond) : BitVec 64 × BitVec 8 :=
  let logical (result : BitVec 64) : BitVec 64 × BitVec 8 :=
    (result, if set_flags then logicFlags result else nzcv)
  match ALUop with
  | .plus =>
      let (result, c) := rippleCarryAdd alu_vala alu_valb false
      -- signed overflow: operands same sign, result different sign
      let v := alu_vala.msb == alu_valb.msb && result.msb != alu_vala.msb
      (result, if set_flags then packCC result.msb (result == 0) c v else nzcv)
  | .minus =>
      let (result, c) := rippleCarryAdd alu_vala (~~~alu_valb) true
      -- signed overflow: operands different sign, result sign differs from the first
      let v := alu_vala.msb != alu_valb.msb && result.msb != alu_vala.msb
      (result, if set_flags then packCC result.msb (result == 0) c v else nzcv)
  | .inv => logical (alu_vala ||| ~~~alu_valb)
  | .or => logical (alu_vala ||| alu_valb)
  | .eor => logical (alu_vala ^^^ alu_valb)
  | .and => logical (alu_vala &&& alu_valb)
  | .mov => (alu_vala ||| (alu_valb <<< alu_valhw.toNat), nzcv)
  | .movk =>
      ((alu_vala &&& ~~~(0xFFFF#64 <<< alu_valhw.toNat)) ||| (alu_valb <<< alu_valhw.toNat), nzcv)
  | .lsl => (alu_vala <<< (alu_valb &&& 0x3F).toNat, nzcv)
  | .lsr => (alu_vala >>> (alu_valb &&& 0x3F).toNat, nzcv)
  | .asr => (alu_vala.sshiftRight (alu_valb &&& 0x3F).toNat, nzcv)
  | .passA => (alu_vala, nzcv)
  | .csel => (if condHolds cond nzcv then alu_vala else alu_valb, nzcv)
  | .csinv => (if condHolds cond nzcv then alu_vala else ~~~alu_valb, nzcv)
  | .csinc =>
      (if condHolds cond nzcv then alu_vala else (rippleCarryAdd alu_valb 1 false).1, nzcv)
  | .csneg =>
      (if condHolds cond nzcv then alu_vala else (rippleCarryAdd (~~~alu_valb) 1 false).1, nzcv)
  | .cbz => (alu_vala, nzcv)
  | .cbnz => (alu_vala, nzcv)

/-- `alu`: the result, the condition and the flags. -/
def alu (alu_vala alu_valb : BitVec 64) (alu_valhw : BitVec 8) (nzcv : BitVec 8)
    (ALUop : AluOp) (set_flags : Bool) (cond : Cond) : BitVec 64 × Bool × BitVec 8 :=
  let r := aluResult alu_vala alu_valb alu_valhw nzcv ALUop set_flags cond
  let cond_val := match ALUop with
    | .cbz => r.1 == 0
    | .cbnz => r.1 != 0
    | _ => condHolds cond r.2
  (r.1, cond_val, r.2)

/-! ## Memory ports -/

/-- The error test of `imem`. -/
def imemErr (m : Mem) (imem_addr : BitVec 64) : Bool :=
  !addrInImem m imem_addr || (imem_addr &&& 0x3) != 0

/-- `imem`: the word is read even when the error flag is set. -/
def imem (m : Mem) (imem_addr : BitVec 64) : Except Crash (Mem × BitVec 32 × Bool) := do
  let imem_err := imemErr m imem_addr
  let (m, imem_rval) ← memReadI m imem_addr
  pure (m, imem_rval, imem_err)

/-- The error test of `dmem` for an access that takes place. -/
def dmemErr (m : Mem) (dmem_addr : BitVec 64) : Bool :=
  (!addrInDmem m dmem_addr || (dmem_addr &&& 0x7) != 0) && !isSpecialAddr dmem_addr

/-- The read of `dmem`, when it is enabled. -/
def dmemRead (m : Mem) (dmem_addr : BitVec 64) (dmem_read : Bool) :
    Except Crash (Mem × BitVec 64) :=
  if dmem_read then memReadL m dmem_addr else .ok (m, 0)

/-- The write of `dmem`, when it is enabled. -/
def dmemWrite (m : Mem) (dmem_addr dmem_wval : BitVec 64) (dmem_write : Bool) :
    Except Crash Mem :=
  if dmem_write then memWriteL m dmem_addr dmem_wval else .ok m

/-- `dmem`: the new memory, the word read and the error flag.  The word and the flag keep the
initial values of the caller when no access takes place. -/
def dmem (m : Mem) (dmem_addr dmem_wval : BitVec 64) (dmem_read dmem_write : Bool) :
    Except Crash (Mem × BitVec 64 × Bool) :=
  if !dmem_read && !dmem_write then .ok (m, 0, false)
  else do
    let dmem_err := dmemErr m dmem_addr
    let (m, dmem_rval) ← dmemRead m dmem_addr dmem_read
    let m ← dmemWrite m dmem_addr dmem_wval dmem_write
    pure (m, dmem_rval, dmem_err)

end SystemEmulator
