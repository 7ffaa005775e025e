import SystemEmulator.Pipe.Fetch
import SystemEmulator.Pipe.Decode
import SystemEmulator.Pipe.HazardControl

/-!
# The processor loop

`proc.c`.  A cycle calls the five stages in some order, runs the forwarding and hazard logic,
commits the register file, the flags and the PC, and clocks the pipeline registers.
-/

namespace SystemEmulator

/-- One case of the stage switch in `runElf`. -/
def runStage (build : Build) (s : Machine) : ProcStage → Except Crash Machine
  | .fetch => fetchInstr build s
  | .decode => .ok (decodeInstr s)
  | .execute => .ok (executeInstr s)
  | .memory => memoryInstr build s
  | .wback => .ok (wbackInstr s)

/-- The stage order of the build without `RANDOM` and `PARALLEL`. -/
def defaultOrder : List ProcStage := [.fetch, .decode, .execute, .memory, .wback]

def runStages (build : Build) (order : List ProcStage) (s : Machine) : Except Crash Machine :=
  order.foldlM (runStage build) s

/-- The writes of NZCV, of the register file and of the PC at the end of a cycle. -/
def commit (build : Build) (s : Machine) : Machine :=
  let PC := if build.pipe && s.W_in.status.isError then s.M_PC else s.F_PC
  { s with
    NZCV := if !s.deassert_flags && s.X_set_flags then s.X_nzcvval else s.NZCV
    regs := regfileWrite s.regs s.W_out.dst s.W_wval
      (s.W_out.W_sigs.w_enable && s.W_out.status == .aok)
    PC := PC
    F_in := { s.F_in with pred_PC := PC } }

/-- The clock edge of one pipeline register. -/
def clock {α : Type} (ctl : PipeCtl) (in_ out zero : α) : α :=
  match ctl with
  | .load => in_
  | .error | .bubble => zero
  | .stall => out

/-- The clock edge of all five registers.  A register in the error state halts the machine. -/
def clockEdge (s : Machine) : Machine :=
  { s with
    F_out := clock s.F_ctl s.F_in s.F_out {}
    D_out := clock s.D_ctl s.D_in s.D_out {}
    X_out := clock s.X_ctl s.X_in s.X_out {}
    M_out := clock s.M_ctl s.M_in s.M_out {}
    W_out := clock s.W_ctl s.W_in s.W_out {}
    status :=
      if s.F_ctl = .error ∨ s.D_ctl = .error ∨ s.X_ctl = .error ∨ s.M_ctl = .error ∨
        s.W_ctl = .error then .hlt else s.status }

/-- The part of a cycle after the five stages. -/
def finishCycle (build : Build) (s : Machine) : Machine :=
  let s := forwardReg build s
  let s := { s with status := s.W_out.status }
  clockEdge (commit build (handleHazards build s))

/-- One iteration of the loop in `runElf`, with the stages called in the given order. -/
def cycle (build : Build) (order : List ProcStage) (s : Machine) : Except Crash Machine := do
  let s ← runStages build order s
  pure (finishCycle build s)

/-- The loop condition on the status. -/
def Machine.running (s : Machine) : Bool := s.status == .aok || s.status == .bub

/-- The loop of `runElf` with at most `fuel` iterations left; `orders` gives the stage order of
each iteration. -/
def runLoop (build : Build) : ℕ → (ℕ → List ProcStage) → Machine → Except Crash Machine
  | 0, _, s => .ok s
  | fuel + 1, orders, s => do
      let s ← cycle build (orders 0) s
      if s.running then runLoop build fuel (fun n ↦ orders (n + 1)) s else pure s

/-- The state in which the loop of `runElf` starts.  `GPR` and `mem` are what the loader left. -/
def initMachine (GPR : ℕ → BitVec 64) (mem : Mem) (entry : BitVec 64) : Machine where
  regs := { GPR := Function.update GPR 30 RET_FROM_MAIN_ADDR, SP := mem.seg_start_addr .stack - 8 }
  NZCV := packCC false true false false
  PC := entry
  status := .bub
  F_out := { pred_PC := entry, status := .aok }
  mem := { mem with dmem_status := .ready }

/-- `runElf` with `cycle_max` cycles; the `do` loop runs at least once. -/
def runElf (build : Build) (cycle_max : ℕ) (orders : ℕ → List ProcStage) (GPR : ℕ → BitVec 64)
    (mem : Mem) (entry : BitVec 64) : Except Crash Machine :=
  runLoop build (max 1 cycle_max) orders (initMachine GPR mem entry)

end SystemEmulator
