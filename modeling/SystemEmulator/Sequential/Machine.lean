import SystemEmulator.Library.Outcome
import SystemEmulator.Memory.Frame
import SystemEmulator.Memory.Settle
import SystemEmulator.Base.Proc

/-!
# The sequential machine

The reference for the pipeline: one instruction at a time, with the decoding, the ALU, the data
port and the register file of the emulator.  A data access is repeated until it is ready.
-/

namespace SystemEmulator

open Outcome

structure Core where
  regs : Regs
  NZCV : BitVec 8
  mem : Mem

/-- The reasons for which the sequential machine stops. -/
inductive Halt where
  /-- A `HLT`, or a return to address zero. -/
  | halted (c : Core)
  /-- The data access of the instruction at `pc` is rejected; `c` is the state after it. -/
  | addressFault (pc : BitVec 64) (c : Core)
  /-- The word at `pc` cannot be fetched or is not an instruction. -/
  | illegal (pc : BitVec 64)
  /-- The emulator itself ends. -/
  | crashed (crash : Crash)

/-- The last phase of the instruction at `pc`: it stops the machine or writes its register. -/
def writeback (w : WInstr) (pc : BitVec 64) (c : Core) : ExceptT Halt Option Core :=
  match w.status with
  | .adr => throw (.addressFault pc c)
  | .ins => throw (.illegal pc)
  | .hlt => throw (.halted c)
  | _ => pure { c with
      regs := regfileWrite c.regs w.dst w.wval (w.W_sigs.w_enable && w.status == .aok) }

/-- The data access of an instruction and its last phase. -/
def access (m : MInstr) (c : Core) : ExceptT Halt Option Core :=
  match settle (accessed m) c.mem with
  | none => hang
  | some (.error crash) => throw (.crashed crash)
  | some (.ok (mem, w)) => writeback w (m.multipurpose_val - 4) { c with mem := mem }

def execute (x : XInstr) (c : Core) : ExceptT Halt Option Core :=
  let r := executed x c.NZCV
  access r.1 (if x.X_sigs.set_flags then { c with NZCV := r.2 } else c)

/-- The address of the next instruction; `x` is the decoded instruction at `pc`. -/
def nextPC (pc : BitVec 64) (insnbits : BitVec 32) (x : XInstr) (nzcv : BitVec 8) : BitVec 64 :=
  match x.op with
  | .b | .bl => pc + (bitfieldS64 insnbits 0 26 <<< 2)
  | .bCond => if condHolds x.cond nzcv then pc + (bitfieldS64 insnbits 5 19 <<< 2) else pc + 4
  | .ret => x.val_a
  | _ => pc + 4

/-- The instruction at `pc`, as decode hands it on. -/
def instrAt (build : Build) (pc : BitVec 64) (c : Core) : XInstr :=
  decoded (fetchedInstr build pc (fetchedWord c.mem.ptable pc) (imemErr c.mem pc)) c.regs

def seqStep (build : Build) (a : Core × BitVec 64) : ExceptT Halt Option (Core × BitVec 64) :=
  if a.2 = 0 then throw (.halted a.1)
  else do
    let x := instrAt build a.2 a.1
    let c ← execute x a.1
    pure (c, nextPC a.2 (fetchedWord a.1.mem.ptable a.2) x a.1.NZCV)

/-- At most `n` instructions. -/
def seqRun (build : Build) : ℕ → Core × BitVec 64 → ExceptT Halt Option (Core × BitVec 64)
  | 0, a => pure a
  | n + 1, a => seqStep build a >>= seqRun build n

def initCore (GPR : ℕ → BitVec 64) (mem : Mem) (entry : BitVec 64) : Core where
  regs := (initMachine GPR mem entry).regs
  NZCV := (initMachine GPR mem entry).NZCV
  mem := (initMachine GPR mem entry).mem

end SystemEmulator
