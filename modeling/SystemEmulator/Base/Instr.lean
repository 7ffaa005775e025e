import Mathlib.Tactic.DeriveFintype

/-!
# Instructions of chArm-v2

The enumerations of `instr.h`, the bitfield helpers of `instr_base.c`, and the two lookup tables
filled by `init_itable` and `init_ftable`.

The opcodes of the `EC` build are constructors here in every build.  Without `EC` the instruction
table has no entry that produces one of them, so the branches of later stages that mention them
are unreachable, exactly as the preprocessor leaves them out.
-/

namespace SystemEmulator

/-- The preprocessor switches that select a build of the emulator. -/
structure Build where
  /-- `-DPIPE`: hazard control and forwarding are compiled in. -/
  pipe : Bool
  /-- `-DEC`: the extra-credit instructions are compiled in. -/
  ec : Bool
  deriving DecidableEq, Repr

/-- `opcode_t`. -/
inductive Opcode where
  | nop | ldur | stur | movk | movz | adrp
  | addRI | addsRR | cmnRR | subRI | subsRR | cmpRR
  | mvn | orrRR | eorRR | andsRR | tstRR
  | lslRI | lsrRI | ubfm | lslRR | lsrRR | ubfmv | asr
  | b | bCond | bl | ret | hlt
  | csel | csinv | csinc | csneg | cbz | cbnz | br | blr
  | error
  deriving DecidableEq, Repr, Inhabited

/-- `format_t`. -/
inductive Format where
  | error | m | i1 | i2 | rr | ri | b1 | b2 | b3 | s | ec
  deriving DecidableEq, Repr, Inhabited

/-- `cond_t`, the sixteen values of a four-bit condition field. -/
inductive Cond where
  | eq | ne | cs | cc | mi | pl | vs | vc | hi | ls | ge | lt | gt | le | al | nv
  deriving DecidableEq, Repr, Inhabited

/-- `stat_t`, the state of an instruction. -/
inductive Stat where
  | bub | aok | hlt | adr | ins
  deriving DecidableEq, Repr, Inhabited

/-- `alu_op_t`. -/
inductive AluOp where
  | plus | minus | inv | or | eor | and | mov | movk | lsl | lsr | asr | passA
  | csel | csinv | csinc | csneg | cbz | cbnz
  deriving DecidableEq, Repr, Inhabited

/-- The register number that denotes the stack pointer. -/
def SP_NUM : ℕ := 31

/-- The register number that denotes the zero register. -/
def XZR_NUM : ℕ := 32

/-- `RET_FROM_MAIN_ADDR`, the return address given to the entry function. -/
def RET_FROM_MAIN_ADDR : BitVec 64 := 0

/-- `PACK_CC`. -/
def packCC (n z c v : Bool) : BitVec 8 :=
  ((BitVec.ofBool n).setWidth 8 <<< 3) ||| ((BitVec.ofBool z).setWidth 8 <<< 2) |||
    ((BitVec.ofBool c).setWidth 8 <<< 1) ||| (BitVec.ofBool v).setWidth 8

/-- `GET_NF`. -/
def getNF (cc : BitVec 8) : Bool := cc.getLsbD 3

/-- `GET_ZF`. -/
def getZF (cc : BitVec 8) : Bool := cc.getLsbD 2

/-- `GET_CF`. -/
def getCF (cc : BitVec 8) : Bool := cc.getLsbD 1

/-- `GET_VF`. -/
def getVF (cc : BitVec 8) : Bool := cc.getLsbD 0

/-! ## Bitfields -/

/-- `bitfield_u32`: the unsigned field `src[frompos+width-1:frompos]`. -/
def bitfieldU32 (src : BitVec 32) (frompos width : ℕ) : BitVec 32 :=
  src.sshiftRight frompos &&& ((1#32 <<< width) - 1)

/-- `bitfield_s64`: the same field, sign-extended to 64 bits by two shifts. -/
def bitfieldS64 (src : BitVec 32) (frompos width : ℕ) : BitVec 64 :=
  (((src.signExtend 64).sshiftRight frompos &&& ((1#64 <<< width) - 1)) <<<
    (64 - width)).sshiftRight (64 - width)

/-- A register specifier: five bits read as a number. -/
def regField (insnbits : BitVec 32) (frompos : ℕ) : ℕ :=
  (bitfieldU32 insnbits frompos 5).toNat

/-- The conversion `(cond_t)` of a four-bit field. -/
def condOfBits (bits : BitVec 32) : Cond :=
  match bits.toNat with
  | 0 => .eq | 1 => .ne | 2 => .cs | 3 => .cc
  | 4 => .mi | 5 => .pl | 6 => .vs | 7 => .vc
  | 8 => .hi | 9 => .ls | 10 => .ge | 11 => .lt
  | 12 => .gt | 13 => .le | 14 => .al | _ => .nv

/-! ## Lookup tables -/

/-- The ranges `init_itable` writes, in its order.  The assertion in `init_itable_range` makes
them disjoint, so the order does not matter. -/
def initItable (ec : Bool) : List (Opcode × ℕ × ℕ) :=
  [(.ldur, 0x7c2, 0x7c2), (.stur, 0x7c0, 0x7c0),
   (.movk, 0x794, 0x797), (.movz, 0x694, 0x697),
   (.adrp, 0x480, 0x487), (.adrp, 0x580, 0x587), (.adrp, 0x680, 0x687), (.adrp, 0x780, 0x787),
   (.addRI, 0x488, 0x489), (.addsRR, 0x558, 0x558),
   (.subRI, 0x688, 0x689), (.subsRR, 0x758, 0x758),
   (.mvn, 0x551, 0x551), (.orrRR, 0x550, 0x550), (.eorRR, 0x650, 0x650), (.andsRR, 0x750, 0x750),
   (.ubfm, 0x69a, 0x69b), (.ubfmv, 0x4d6, 0x4d6), (.asr, 0x49a, 0x49b),
   (.b, 0x0a0, 0x0bf), (.bCond, 0x2a0, 0x2a7), (.bl, 0x4a0, 0x4bf),
   (.ret, 0x6b2, 0x6b2), (.nop, 0x6a8, 0x6a8), (.hlt, 0x6a2, 0x6a2)] ++
  if ec then
    [(.csel, 0x4d4, 0x4d4), (.csneg, 0x6d4, 0x6d4), (.cbz, 0x5a0, 0x5a7), (.cbnz, 0x5a8, 0x5af),
     (.br, 0x6b0, 0x6b0), (.blr, 0x6b1, 0x6b1)]
  else []

/-- `itable`: the opcode of the top eleven bits of an instruction word. -/
def itable (ec : Bool) (top11 : ℕ) : Opcode :=
  match (initItable ec).find? (fun entry ↦ entry.2.1 ≤ top11 && top11 ≤ entry.2.2) with
  | some entry => entry.1
  | none => .error

/-- `ftable`: the format of an opcode. -/
def ftable : Opcode → Format
  | .ldur | .stur => .m
  | .movk | .movz => .i1
  | .adrp => .i2
  | .addsRR | .cmnRR | .subsRR | .cmpRR | .mvn | .orrRR | .eorRR | .andsRR | .tstRR
  | .lslRR | .lsrRR | .ubfmv => .rr
  | .addRI | .subRI | .lslRI | .lsrRI | .ubfm | .asr => .ri
  | .b | .bl => .b1
  | .bCond => .b2
  | .ret => .b3
  | .nop | .hlt => .s
  | .csel | .csinv | .csinc | .csneg | .cbz | .cbnz | .br | .blr => .ec
  | .error => .error

end SystemEmulator
