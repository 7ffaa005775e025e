import SystemEmulator.Library.A64

/-!
# Programs of A64

Loads, stores and branches beside the data-processing instructions.  The memory system is a
parameter: it may refuse an access, and it may answer one with a device instead of a memory.
-/

namespace A64

/-! ## Conditions -/

/-- The test of a condition code; its lowest bit inverts the test, unless all bits are set. -/
def Flags.holds (flags : Flags) (cond : BitVec 4) : Bool :=
  let result := match (cond.extractLsb' 1 3).toNat with
    | 0b000 => flags.Z
    | 0b001 => flags.C
    | 0b010 => flags.N
    | 0b011 => flags.V
    | 0b100 => flags.C && !flags.Z
    | 0b101 => flags.N == flags.V
    | 0b110 => flags.N == flags.V && !flags.Z
    | _ => true
  if cond.getLsbD 0 && cond != 0b1111#4 then !result else result

/-! ## Instructions -/

/-- What the memory system does with an access; `none` stands for one that it refuses. -/
structure Platform (μ : Type) where
  fetch : μ → BitVec 64 → Option (BitVec 32)
  load : μ → BitVec 64 → Option (μ × BitVec 64)
  store : μ → BitVec 64 → BitVec 64 → Option μ

structure Config (μ : Type) where
  state : State
  pc : BitVec 64
  mem : μ

inductive Command where
  | process (i : Instr)
  /-- `LDUR` of 64 bits. -/
  | ldur (imm9 : BitVec 9) (rn rt : BitVec 5)
  /-- `STUR` of 64 bits. -/
  | stur (imm9 : BitVec 9) (rn rt : BitVec 5)
  | adrp (immlo : BitVec 2) (immhi : BitVec 19) (rd : BitVec 5)
  /-- `B` and `BL`. -/
  | branch (link : Bool) (imm26 : BitVec 26)
  | bCond (imm19 : BitVec 19) (cond : BitVec 4)
  /-- `CSEL` and `CSINC`, or inverted `CSINV` and `CSNEG`. -/
  | select (inv inc : Bool) (rm : BitVec 5) (cond : BitVec 4) (rn rd : BitVec 5)
  | ret (rn : BitVec 5)
  | nop
  | hlt (imm16 : BitVec 16)
  deriving DecidableEq, Repr

inductive Stop where
  /-- A `HLT`. -/
  | halt
  /-- A data access that is refused. -/
  | abort
  deriving DecidableEq, Repr

def unscaledWord (top : BitVec 11) (imm9 : BitVec 9) (rn rt : BitVec 5) : BitVec 32 :=
  top ++ imm9 ++ 0#2 ++ rn ++ rt

def branchWord (top : BitVec 6) (imm26 : BitVec 26) : BitVec 32 := top ++ imm26

def conditionalWord (imm19 : BitVec 19) (cond : BitVec 4) : BitVec 32 :=
  0b01010100#8 ++ imm19 ++ 0#1 ++ cond

/-- The word of an `ADRP`, with the low bits of the immediate near its top. -/
def pageWord (immlo : BitVec 2) (immhi : BitVec 19) (rd : BitVec 5) : BitVec 32 :=
  1#1 ++ immlo ++ 0b10000#5 ++ immhi ++ rd

def haltWord (imm16 : BitVec 16) : BitVec 32 := 0b11010100010#11 ++ imm16 ++ 0#5

section

variable (rn rt : BitVec 5)

theorem unscaledWord_slices (top : BitVec 11) (imm9 : BitVec 9) :
    (unscaledWord top imm9 rn rt).extractLsb' 21 11 = top ∧
      (unscaledWord top imm9 rn rt).extractLsb' 12 9 = imm9 ∧
      (unscaledWord top imm9 rn rt).extractLsb' 5 5 = rn ∧
      (unscaledWord top imm9 rn rt).extractLsb' 0 5 = rt := by
  simp (disch := decide) only [unscaledWord, BitVec.extractLsb'_append_eq_of_le,
    BitVec.extractLsb'_append_eq_of_add_le, Nat.reduceSub, BitVec.extractLsb'_eq_self, and_self]

theorem branchWord_slices (top : BitVec 6) (imm26 : BitVec 26) :
    (branchWord top imm26).extractLsb' 26 6 = top ∧
      (branchWord top imm26).extractLsb' 0 26 = imm26 := by
  simp (disch := decide) only [branchWord, BitVec.extractLsb'_append_eq_of_le,
    BitVec.extractLsb'_append_eq_of_add_le, Nat.reduceSub, BitVec.extractLsb'_eq_self, and_self]

theorem conditionalWord_slices (imm19 : BitVec 19) (cond : BitVec 4) :
    (conditionalWord imm19 cond).extractLsb' 24 8 = 0b01010100#8 ∧
      (conditionalWord imm19 cond).extractLsb' 5 19 = imm19 ∧
      (conditionalWord imm19 cond).extractLsb' 0 4 = cond := by
  simp (disch := decide) only [conditionalWord, BitVec.extractLsb'_append_eq_of_le,
    BitVec.extractLsb'_append_eq_of_add_le, Nat.reduceSub, BitVec.extractLsb'_eq_self, and_self]

theorem pageWord_slices (immlo : BitVec 2) (immhi : BitVec 19) (rd : BitVec 5) :
    (pageWord immlo immhi rd).extractLsb' 31 1 = 1#1 ∧
      (pageWord immlo immhi rd).extractLsb' 29 2 = immlo ∧
      (pageWord immlo immhi rd).extractLsb' 24 5 = 0b10000#5 ∧
      (pageWord immlo immhi rd).extractLsb' 5 19 = immhi ∧
      (pageWord immlo immhi rd).extractLsb' 0 5 = rd := by
  simp (disch := decide) only [pageWord, BitVec.extractLsb'_append_eq_of_le,
    BitVec.extractLsb'_append_eq_of_add_le, Nat.reduceSub, BitVec.extractLsb'_eq_self, and_self]

/-- The condition of a conditional select. -/
theorem selectWord_slices (top : BitVec 11) (rm : BitVec 5) (cond : BitVec 4) (op2 : BitVec 2) :
    (registerWord top rm (cond ++ op2) rn rt).extractLsb' 12 4 = cond ∧
      (registerWord top rm (cond ++ op2) rn rt).extractLsb' 10 1 = op2.extractLsb' 0 1 := by
  simp (disch := decide) only [registerWord, BitVec.extractLsb'_append_eq_of_le,
    BitVec.extractLsb'_append_eq_of_add_le, Nat.reduceSub, BitVec.extractLsb'_eq_self, and_self]

theorem haltWord_slice (imm16 : BitVec 16) :
    (haltWord imm16).extractLsb' 21 11 = 0b11010100010#11 := by
  simp (disch := decide) only [haltWord, BitVec.extractLsb'_append_eq_of_le, Nat.reduceSub,
    BitVec.extractLsb'_eq_self]

end

namespace Command

def encode : Command → BitVec 32
  | process i => i.encode
  | ldur imm9 rn rt => unscaledWord 0b11111000010#11 imm9 rn rt
  | stur imm9 rn rt => unscaledWord 0b11111000000#11 imm9 rn rt
  | adrp immlo immhi rd => pageWord immlo immhi rd
  | branch false imm26 => branchWord 0b000101#6 imm26
  | branch true imm26 => branchWord 0b100101#6 imm26
  | bCond imm19 cond => conditionalWord imm19 cond
  | select inv inc rm cond rn rd =>
      registerWord (if inv then 0b11011010100#11 else 0b10011010100#11) rm
        (cond ++ (if inc then 1#2 else 0#2)) rn rd
  | ret rn => registerWord 0b11010110010#11 31 0 rn 0
  | nop => 0xD503201F
  | hlt imm16 => haltWord imm16

def loadAddr (state : State) : Command → Option (BitVec 64)
  | ldur imm9 rn _ => some (state.readSP rn + imm9.signExtend 64)
  | _ => none

variable {μ : Type}

def exec (p : Platform μ) (a : Config μ) : Command → Except Stop (Config μ)
  | process i => .ok { a with state := i.exec a.state, pc := a.pc + 4 }
  | ldur imm9 rn rt =>
      match p.load a.mem (a.state.readSP rn + imm9.signExtend 64) with
      | some (mem, val) => .ok ⟨a.state.write rt val, a.pc + 4, mem⟩
      | none => .error .abort
  | stur imm9 rn rt =>
      match p.store a.mem (a.state.readSP rn + imm9.signExtend 64) (a.state.read rt) with
      | some mem => .ok ⟨a.state, a.pc + 4, mem⟩
      | none => .error .abort
  | adrp immlo immhi rd =>
      let page := a.pc.extractLsb' 12 52 ++ 0#12
      .ok ⟨a.state.write rd (page + 4096 * (immhi ++ immlo).signExtend 64), a.pc + 4, a.mem⟩
  | branch link imm26 =>
      .ok ⟨if link then a.state.write 30 (a.pc + 4) else a.state,
        a.pc + 4 * imm26.signExtend 64, a.mem⟩
  | bCond imm19 cond =>
      .ok { a with pc :=
        if a.state.flags.holds cond then a.pc + 4 * imm19.signExtend 64 else a.pc + 4 }
  | select inv inc rm cond rn rd =>
      let y := if inv then ~~~a.state.read rm else a.state.read rm
      let other := if inc then y + 1 else y
      .ok { a with
        state := a.state.write rd (if a.state.flags.holds cond then a.state.read rn else other)
        pc := a.pc + 4 }
  | ret rn => .ok { a with pc := a.state.read rn }
  | nop => .ok { a with pc := a.pc + 4 }
  | hlt _ => .error .halt

end Command

/-! ## Runs -/

section

variable {μ : Type} (p : Platform μ) (P : Config μ → Command → Prop)

/-- The word at the PC is an instruction that satisfies `P`, and `r` is its effect. -/
def Executes (a : Config μ) (r : Except Stop (Config μ)) : Prop :=
  ∃ i : Command, P a i ∧ p.fetch a.mem a.pc = some i.encode ∧ i.exec p a = r

/-- A run of `n` instructions. -/
inductive Executed : ℕ → Config μ → Config μ → Prop
  | refl (a : Config μ) : Executed 0 a a
  | tail {n : ℕ} {a b b' : Config μ} (h : Executed n a b) (hlast : Executes p P b (.ok b')) :
      Executed (n + 1) a b'

end

end A64
