import Mathlib.Algebra.Group.Int.Defs
import Mathlib.Algebra.Group.Nat.Defs
import Mathlib.Data.Nat.Notation
import Mathlib.Logic.Function.Basic

/-!
# Data processing of A64

The general registers and the flags of the A64 instruction set, and the 64-bit instructions that
combine registers and immediates.  The register number 31 stands for the zero register, or for the
stack pointer where an instruction says so.
-/

namespace A64

structure Flags where
  N : Bool
  Z : Bool
  C : Bool
  V : Bool
  deriving DecidableEq, Repr

structure State where
  X : Fin 31 → BitVec 64
  SP : BitVec 64
  flags : Flags

namespace State

/-- A source register, with 31 as the zero register. -/
def read (s : State) (r : BitVec 5) : BitVec 64 :=
  if h : r.toNat < 31 then s.X ⟨r.toNat, h⟩ else 0

/-- A source register, with 31 as the stack pointer. -/
def readSP (s : State) (r : BitVec 5) : BitVec 64 :=
  if h : r.toNat < 31 then s.X ⟨r.toNat, h⟩ else s.SP

/-- A destination register; a write of the zero register is discarded. -/
def write (s : State) (r : BitVec 5) (val : BitVec 64) : State :=
  if h : r.toNat < 31 then { s with X := Function.update s.X ⟨r.toNat, h⟩ val } else s

/-- A destination register, with 31 as the stack pointer. -/
def writeSP (s : State) (r : BitVec 5) (val : BitVec 64) : State :=
  if h : r.toNat < 31 then { s with X := Function.update s.X ⟨r.toNat, h⟩ val }
  else { s with SP := val }

theorem write_of_not_lt (s : State) {r : BitVec 5} (h : ¬r.toNat < 31) (val : BitVec 64) :
    s.write r val = s := dif_neg h

theorem write_inj (s : State) {r : BitVec 5} (h : r.toNat < 31) {val val' : BitVec 64} :
    s.write r val = s.write r val' ↔ val = val' := by
  refine ⟨fun heq ↦ ?_, fun heq ↦ heq ▸ rfl⟩
  have hX := congrArg (fun s : State ↦ s.X ⟨r.toNat, h⟩) heq
  simpa only [write, dif_pos h, Function.update_self] using hX

@[simp]
theorem write_flags (s : State) (r : BitVec 5) (val : BitVec 64) :
    (s.write r val).flags = s.flags := by
  unfold write
  split <;> rfl

end State

/-! ## Addition with carry -/

/-- The sum of two operands and a carry, and its flags: the carry and the overflow say that the
unsigned and the signed sum is not the one of 64 bits. -/
def addWithCarry (x y : BitVec 64) (carry_in : Bool) : BitVec 64 × Flags :=
  let unsigned_sum := x.toNat + y.toNat + carry_in.toNat
  let signed_sum := x.toInt + y.toInt + carry_in.toNat
  let result := BitVec.ofNat 64 unsigned_sum
  (result,
    { N := result.msb
      Z := result == 0
      C := result.toNat != unsigned_sum
      V := result.toInt != signed_sum })

section

variable (x y : BitVec 64)

theorem addWithCarry_add : (addWithCarry x y false).1 = x + y := by
  change BitVec.ofNat 64 (x.toNat + y.toNat + 0) = x + y
  rw [Nat.add_zero, BitVec.ofNat_add, BitVec.ofNat_toNat, BitVec.ofNat_toNat, BitVec.setWidth_eq,
    BitVec.setWidth_eq]

theorem addWithCarry_sub : (addWithCarry x (~~~y) true).1 = x - y := by
  have hneg : x - y = x + ~~~y + 1#64 := by
    rw [BitVec.sub_eq_add_neg, BitVec.neg_eq_not_add, BitVec.add_assoc]
  change BitVec.ofNat 64 (x.toNat + (~~~y).toNat + 1) = x - y
  rw [hneg, BitVec.ofNat_add, BitVec.ofNat_add, BitVec.ofNat_toNat, BitVec.ofNat_toNat,
    BitVec.setWidth_eq, BitVec.setWidth_eq]

theorem addWithCarry_add_C :
    (addWithCarry x y false).2.C = true ↔ 2 ^ 64 ≤ x.toNat + y.toNat := by
  have hx := x.isLt
  have hy := y.isLt
  simp only [addWithCarry, Bool.toNat_false, Nat.add_zero, bne_iff_ne, BitVec.toNat_ofNat]
  omega

theorem addWithCarry_sub_C :
    (addWithCarry x (~~~y) true).2.C = true ↔ y.toNat ≤ x.toNat := by
  have hx := x.isLt
  have hy := y.isLt
  simp only [addWithCarry, Bool.toNat_true, bne_iff_ne, BitVec.toNat_ofNat, BitVec.toNat_not]
  omega

theorem addWithCarry_add_V : (addWithCarry x y false).2.V = true ↔
    ¬(-2 ^ 63 ≤ x.toInt + y.toInt ∧ x.toInt + y.toInt < 2 ^ 63) := by
  have hresult := congrArg BitVec.toInt (addWithCarry_add x y)
  rw [BitVec.toInt_add, Int.bmod_def] at hresult
  have hx : -2 ^ 63 ≤ x.toInt := BitVec.le_toInt x
  have hx' : x.toInt < 2 ^ 63 := BitVec.toInt_lt
  have hy : -2 ^ 63 ≤ y.toInt := BitVec.le_toInt y
  have hy' : y.toInt < 2 ^ 63 := BitVec.toInt_lt
  change ((addWithCarry x y false).1.toInt != x.toInt + y.toInt + 0) = true ↔ _
  rw [bne_iff_ne]
  omega

theorem toInt_not (y : BitVec 64) : (~~~y).toInt = -1 - y.toInt := by
  have hy := y.isLt
  rw [BitVec.toInt_eq_toNat_cond, BitVec.toInt_eq_toNat_cond, BitVec.toNat_not]
  split <;> split <;> omega

theorem addWithCarry_sub_V : (addWithCarry x (~~~y) true).2.V = true ↔
    ¬(-2 ^ 63 ≤ x.toInt - y.toInt ∧ x.toInt - y.toInt < 2 ^ 63) := by
  have hresult := congrArg BitVec.toInt (addWithCarry_sub x y)
  rw [BitVec.toInt_sub, Int.bmod_def] at hresult
  have hx : -2 ^ 63 ≤ x.toInt := BitVec.le_toInt x
  have hx' : x.toInt < 2 ^ 63 := BitVec.toInt_lt
  have hy : -2 ^ 63 ≤ y.toInt := BitVec.le_toInt y
  have hy' : y.toInt < 2 ^ 63 := BitVec.toInt_lt
  change ((addWithCarry x (~~~y) true).1.toInt != x.toInt + (~~~y).toInt + 1) = true ↔ _
  rw [bne_iff_ne, toInt_not]
  omega

end

/-! ## Instructions -/

inductive LogicOp where
  | orr | orn | eor | ands
  deriving DecidableEq, Repr

inductive ShiftOp where
  | lsl | lsr | asr
  deriving DecidableEq, Repr

/-- Data-processing instructions in their 64-bit variants, with an unshifted second operand: the
shift type is `LSL` and the amount zero.  A comparison is the operation that sets the flags, with
the zero register as destination. -/
inductive Instr where
  /-- `ADD` or `SUB` of a 12-bit immediate. -/
  | addSubImm (sub : Bool) (imm12 : BitVec 12) (rn rd : BitVec 5)
  /-- `ADDS`, `SUBS`, `CMN` and `CMP`. -/
  | addsSubs (sub : Bool) (rm rn rd : BitVec 5)
  /-- `ORR`, `ORN`, `MVN`, `EOR`, `ANDS` and `TST`. -/
  | logical (op : LogicOp) (rm rn rd : BitVec 5)
  /-- `LSL`, `LSR` and `ASR` by an immediate. -/
  | shiftImm (op : ShiftOp) (shift : BitVec 6) (rn rd : BitVec 5)
  /-- `LSLV` and `LSRV`. -/
  | shiftReg (right : Bool) (rm rn rd : BitVec 5)
  /-- `MOVZ` and `MOVK`. -/
  | moveWide (keep : Bool) (hw : BitVec 2) (imm16 : BitVec 16) (rd : BitVec 5)
  deriving DecidableEq, Repr

namespace LogicOp

/-- The top eleven bits of the word. -/
def top : LogicOp → BitVec 11
  | orr => 0b10101010000#11
  | orn => 0b10101010001#11
  | eor => 0b11001010000#11
  | ands => 0b11101010000#11

def apply (x y : BitVec 64) : LogicOp → BitVec 64
  | orr => x ||| y
  | orn => x ||| ~~~y
  | eor => x ^^^ y
  | ands => x &&& y

end LogicOp

def ShiftOp.apply (x : BitVec 64) (shift : ℕ) : ShiftOp → BitVec 64
  | lsl => x <<< shift
  | lsr => x >>> shift
  | asr => x.sshiftRight shift

/-- A word with three registers; `imm6` is the shift amount or the second opcode. -/
def registerWord (top : BitVec 11) (rm : BitVec 5) (imm6 : BitVec 6) (rn rd : BitVec 5) :
    BitVec 32 := top ++ rm ++ imm6 ++ rn ++ rd

def immediateWord (top : BitVec 10) (imm12 : BitVec 12) (rn rd : BitVec 5) : BitVec 32 :=
  top ++ imm12 ++ rn ++ rd

def wideWord (top : BitVec 9) (hw : BitVec 2) (imm16 : BitVec 16) (rd : BitVec 5) : BitVec 32 :=
  top ++ hw ++ imm16 ++ rd

section

variable (rm rn rd : BitVec 5)

theorem registerWord_slices (top : BitVec 11) (imm6 : BitVec 6) :
    (registerWord top rm imm6 rn rd).extractLsb' 21 11 = top ∧
      (registerWord top rm imm6 rn rd).extractLsb' 16 5 = rm ∧
      (registerWord top rm imm6 rn rd).extractLsb' 10 6 = imm6 ∧
      (registerWord top rm imm6 rn rd).extractLsb' 10 2 = imm6.extractLsb' 0 2 ∧
      (registerWord top rm imm6 rn rd).extractLsb' 5 5 = rn ∧
      (registerWord top rm imm6 rn rd).extractLsb' 0 5 = rd := by
  simp (disch := decide) only [registerWord, BitVec.extractLsb'_append_eq_of_le,
    BitVec.extractLsb'_append_eq_of_add_le, Nat.reduceSub, BitVec.extractLsb'_eq_self, and_self]

theorem immediateWord_slices (top : BitVec 10) (imm12 : BitVec 12) :
    (immediateWord top imm12 rn rd).extractLsb' 22 10 = top ∧
      (immediateWord top imm12 rn rd).extractLsb' 10 12 = imm12 ∧
      (immediateWord top imm12 rn rd).extractLsb' 5 5 = rn ∧
      (immediateWord top imm12 rn rd).extractLsb' 0 5 = rd := by
  simp (disch := decide) only [immediateWord, BitVec.extractLsb'_append_eq_of_le,
    BitVec.extractLsb'_append_eq_of_add_le, Nat.reduceSub, BitVec.extractLsb'_eq_self, and_self]

/-- The two halves of the immediate of a bitfield move. -/
theorem bitfieldWord_slices (top : BitVec 10) (immr imms : BitVec 6) :
    (immediateWord top (immr ++ imms) rn rd).extractLsb' 16 6 = immr ∧
      (immediateWord top (immr ++ imms) rn rd).extractLsb' 10 6 = imms := by
  simp (disch := decide) only [immediateWord, BitVec.extractLsb'_append_eq_of_le,
    BitVec.extractLsb'_append_eq_of_add_le, Nat.reduceSub, BitVec.extractLsb'_eq_self, and_self]

theorem wideWord_slices (top : BitVec 9) (hw : BitVec 2) (imm16 : BitVec 16) :
    (wideWord top hw imm16 rd).extractLsb' 23 9 = top ∧
      (wideWord top hw imm16 rd).extractLsb' 21 2 = hw ∧
      (wideWord top hw imm16 rd).extractLsb' 5 16 = imm16 ∧
      (wideWord top hw imm16 rd).extractLsb' 0 5 = rd := by
  simp (disch := decide) only [wideWord, BitVec.extractLsb'_append_eq_of_le,
    BitVec.extractLsb'_append_eq_of_add_le, Nat.reduceSub, BitVec.extractLsb'_eq_self, and_self]

end

namespace Instr

/-- The instruction word, with the shift type `LSL` for the unshifted second operand.  A64 has
another word for the shift by zero of each other type. -/
def encode : Instr → BitVec 32
  | addSubImm false imm12 rn rd => immediateWord 0b1001000100#10 imm12 rn rd
  | addSubImm true imm12 rn rd => immediateWord 0b1101000100#10 imm12 rn rd
  | addsSubs false rm rn rd => registerWord 0b10101011000#11 rm 0 rn rd
  | addsSubs true rm rn rd => registerWord 0b11101011000#11 rm 0 rn rd
  | logical op rm rn rd => registerWord op.top rm 0 rn rd
  -- `LSL` by `shift` is the bitfield move that rotates right by `64 - shift`
  | shiftImm .lsl shift rn rd => immediateWord 0b1101001101#10 ((-shift) ++ (63 - shift)) rn rd
  | shiftImm .lsr shift rn rd => immediateWord 0b1101001101#10 (shift ++ 63#6) rn rd
  | shiftImm .asr shift rn rd => immediateWord 0b1001001101#10 (shift ++ 63#6) rn rd
  | shiftReg false rm rn rd => registerWord 0b10011010110#11 rm 0b001000#6 rn rd
  | shiftReg true rm rn rd => registerWord 0b10011010110#11 rm 0b001001#6 rn rd
  | moveWide false hw imm16 rd => wideWord 0b110100101#9 hw imm16 rd
  | moveWide true hw imm16 rd => wideWord 0b111100101#9 hw imm16 rd

/-- The effect of an instruction. -/
def exec (s : State) : Instr → State
  | addSubImm sub imm12 rn rd =>
      let x := s.readSP rn
      let imm := imm12.setWidth 64
      s.writeSP rd (if sub then addWithCarry x (~~~imm) true else addWithCarry x imm false).1
  | addsSubs sub rm rn rd =>
      let x := s.read rn
      let y := s.read rm
      let r := if sub then addWithCarry x (~~~y) true else addWithCarry x y false
      { s.write rd r.1 with flags := r.2 }
  | logical op rm rn rd =>
      let result := op.apply (s.read rn) (s.read rm)
      let s := s.write rd result
      if op = .ands then { s with flags := ⟨result.msb, result == 0, false, false⟩ } else s
  | shiftImm op shift rn rd => s.write rd (op.apply (s.read rn) shift.toNat)
  | shiftReg right rm rn rd =>
      s.write rd ((if right then .lsr else .lsl : ShiftOp).apply (s.read rn)
        ((s.read rm).toNat % 64))
  | moveWide keep hw imm16 rd =>
      let pos := 16 * hw.toNat
      let imm := imm16.setWidth 64 <<< pos
      s.write rd
        (if keep then (s.read rd &&& ~~~((0xFFFF#16).setWidth 64 <<< pos)) ||| imm else imm)

end Instr

/-! ## Bitfield moves and two-source words -/

/-- The word whose low `n` bits are ones. -/
def ones (n : ℕ) : BitVec 64 := BitVec.ofNat 64 (2 ^ n - 1)

/-- `UBFM`: the bits `imms` to `0` of the source rotated right by `immr`, without those above
`imms - immr`. -/
def ubfm (immr imms : BitVec 6) (src : BitVec 64) : BitVec 64 :=
  let wmask := (ones (imms.toNat + 1)).rotateRight immr.toNat
  let tmask := ones ((imms - immr).toNat + 1)
  src.rotateRight immr.toNat &&& wmask &&& tmask

theorem getLsbD_ones (n i : ℕ) : (ones n).getLsbD i = (decide (i < 64) && decide (i < n)) := by
  rw [ones, BitVec.getLsbD_ofNat, Nat.testBit_two_pow_sub_one]

theorem getLsbD_rotateRight (x : BitVec 64) {r i : ℕ} (hr : r < 64) (hi : i < 64) :
    (x.rotateRight r).getLsbD i = x.getLsbD ((i + r) % 64) := by
  rw [BitVec.getLsbD_rotateRight, Nat.mod_eq_of_lt hr]
  by_cases h : i < 64 - r
  · rw [decide_eq_true h, cond_true, Nat.mod_eq_of_lt (by omega), Nat.add_comm]
  · rw [decide_eq_false h, cond_false, decide_eq_true hi, Bool.true_and,
      show (i + r) % 64 = i - (64 - r) by omega]

theorem zero_rotateRight {r : ℕ} (hr : r < 64) : (0#64).rotateRight r = 0 := by
  refine BitVec.eq_of_getLsbD_eq fun i hi ↦ ?_
  rw [getLsbD_rotateRight _ hr hi, BitVec.getLsbD_zero]
  exact BitVec.getLsbD_zero.symm

theorem rotateRight_zero (x : BitVec 64) : x.rotateRight 0 = x := by
  refine BitVec.eq_of_getLsbD_eq fun i hi ↦ ?_
  rw [getLsbD_rotateRight _ (by decide) hi, Nat.add_zero, Nat.mod_eq_of_lt hi]

theorem getLsbD_ubfm (immr imms : BitVec 6) (src : BitVec 64) {i : ℕ} (hi : i < 64) :
    (ubfm immr imms src).getLsbD i = (src.getLsbD ((i + immr.toNat) % 64) &&
      decide ((i + immr.toNat) % 64 ≤ imms.toNat) && decide (i ≤ (imms - immr).toNat)) := by
  have hr := immr.isLt
  rw [ubfm, BitVec.getLsbD_and, BitVec.getLsbD_and, getLsbD_rotateRight src hr hi,
    getLsbD_rotateRight _ hr hi, getLsbD_ones, getLsbD_ones]
  simp only [hi, Nat.mod_lt _ (by decide : 64 > 0), Nat.lt_succ_iff, decide_true, Bool.true_and]

/-- `LSR` by an immediate is the bitfield move up to the top bit. -/
theorem ubfm_lsr (immr : BitVec 6) (src : BitVec 64) : ubfm immr 63 src = src >>> immr.toNat := by
  have hr := immr.isLt
  refine BitVec.eq_of_getLsbD_eq fun i hi ↦ ?_
  have hdiff : (63 - immr).toNat = 63 - immr.toNat := by bv_omega
  rw [getLsbD_ubfm _ _ _ hi, BitVec.getLsbD_ushiftRight, hdiff]
  by_cases h : i + immr.toNat < 64
  · rw [Nat.mod_eq_of_lt h]
    simp [show i + immr.toNat ≤ 63 by omega, show i ≤ 63 - immr.toNat by omega, Nat.add_comm]
  · simp [show ¬i ≤ 63 - immr.toNat by omega,
      BitVec.getLsbD_of_ge src (immr.toNat + i) (by omega)]

/-- `LSL` by an immediate is the bitfield move whose rotation is one more than its top bit. -/
theorem ubfm_lsl {immr imms : BitVec 6} (h : imms.toNat + 1 = immr.toNat) (src : BitVec 64) :
    ubfm immr imms src = src <<< (64 - immr.toNat) := by
  have hr := immr.isLt
  refine BitVec.eq_of_getLsbD_eq fun i hi ↦ ?_
  have hdiff : (imms - immr).toNat = 63 := by bv_omega
  rw [getLsbD_ubfm _ _ _ hi, BitVec.getLsbD_shiftLeft, hdiff]
  by_cases hlow : i < 64 - immr.toNat
  · simp [hlow, show ¬(i + immr.toNat) % 64 ≤ imms.toNat by omega]
  · have hindex : (i + immr.toNat) % 64 = i - (64 - immr.toNat) := by omega
    simp [hlow, hi, hindex, show i - (64 - immr.toNat) ≤ imms.toNat by omega,
      show i ≤ 63 by omega]

/-- The operations of two registers that share a word format. -/
inductive TwoSource where
  | udiv | sdiv | lslv | lsrv | asrv | rorv
  deriving DecidableEq, Repr

namespace TwoSource

def ofOpcode2 (opcode2 : BitVec 6) : Option TwoSource :=
  match opcode2.toNat with
  | 0b000010 => some udiv
  | 0b000011 => some sdiv
  | 0b001000 => some lslv
  | 0b001001 => some lsrv
  | 0b001010 => some asrv
  | 0b001011 => some rorv
  | _ => none

/-- A quotient by zero is zero, and a shift amount is taken modulo 64. -/
def apply (x y : BitVec 64) : TwoSource → BitVec 64
  | udiv => x / y
  | sdiv => x.sdiv y
  | lslv => x <<< (y.toNat % 64)
  | lsrv => x >>> (y.toNat % 64)
  | asrv => x.sshiftRight (y.toNat % 64)
  | rorv => x.rotateRight (y.toNat % 64)

end TwoSource

/-- The effect of a bitfield move or a two-source word, if it is one. -/
def execWord (insnbits : BitVec 32) : Option (State → State) :=
  let rm := insnbits.extractLsb' 16 5
  let rn := insnbits.extractLsb' 5 5
  let rd := insnbits.extractLsb' 0 5
  if insnbits.extractLsb' 22 10 = 0b1101001101#10 then
    some fun s ↦ s.write rd
      (ubfm (insnbits.extractLsb' 16 6) (insnbits.extractLsb' 10 6) (s.read rn))
  else if insnbits.extractLsb' 21 11 = 0b10011010110#11 then
    (TwoSource.ofOpcode2 (insnbits.extractLsb' 10 6)).map fun op s ↦
      s.write rd (op.apply (s.read rn) (s.read rm))
  else none

end A64
