import SystemEmulator.Base.Proc
import SystemEmulator.Library.Barrier

/-!
# The threads of the parallel build

`proc.c` with `PARALLEL`: each stage runs in a thread of its own, and the threads meet `runElf` at
two barriers in every cycle.  The threads take their steps in any order; a `pthread_barrier_wait` is
an arrival and, once the barrier is open, a return, and the rest of the cycle in `runElf` is one
step.

That the call of a stage function is one step, too, is an assumption of the model.  The source takes
no lock, so that calls that overlap may race on what they share, as when `fetch_instr` and
`memory_instr` add a page to the same list.
-/

namespace SystemEmulator

inductive CycleBarrier where
  | cycle_start | cycle_end
  deriving DecidableEq, Repr

/-- The place in a `start_…` function.  Only the wait inside the loop is followed by its test. -/
inductive StagePC where
  /-- The thread has not been created. -/
  | unborn
  /-- At the wait before the loop. -/
  | born
  | bornWait (ticket : ℕ)
  /-- At the call of the stage function. -/
  | stage
  | cycleEnd
  | endWait (ticket : ℕ)
  | cycleStart
  | startWait (ticket : ℕ)
  /-- At the test of `running_sim`. -/
  | test
  | exited
  deriving DecidableEq, Repr

/-- The place in `runElf`. -/
inductive MainPC where
  /-- In the loop that creates the threads of the given stages. -/
  | create (stages : List ProcStage)
  | cycleStart
  | startWait (ticket : ℕ)
  | cycleEnd
  | endWait (ticket : ℕ)
  /-- Behind the second barrier of a cycle. -/
  | correct
  /-- At `running_sim = false`. -/
  | stop
  | lastStart
  | lastWait (ticket : ℕ)
  /-- In the loop that joins the threads of the given stages. -/
  | join (stages : List ProcStage)
  | destroy
  | returned
  deriving DecidableEq, Repr

/-- The variables that the threads share, and where the threads are. -/
structure Threads where
  machine : Machine
  num_instr : ℕ
  running_sim : Bool
  barrier : CycleBarrier → Barrier
  main : MainPC
  stage : ProcStage → StagePC

namespace Threads

def moveTo (t : Threads) (p : ProcStage) (pc : StagePC) : Threads :=
  { t with stage := Function.update t.stage p pc }

/-- An arrival at a barrier of `pthread_barrier_init(…, NULL, 6)`. -/
def arrive (t : Threads) (b : CycleBarrier) : Threads :=
  { t with barrier := Function.update t.barrier b ((t.barrier b).arrive 6) }

/-- The next step of a `start_…` function that calls `call`, `none` while it is blocked.  The model
assumes that the call takes effect at once. -/
def startStage (call : Machine → Except Crash Machine) (p : ProcStage) (t : Threads) :
    Option (Except Crash Threads) :=
  match t.stage p with
  | .unborn => none
  | .born =>
      some (.ok ((t.moveTo p (.bornWait (t.barrier .cycle_start).generation)).arrive .cycle_start))
  | .bornWait ticket =>
      if (t.barrier .cycle_start).opened ticket then some (.ok (t.moveTo p .stage)) else none
  | .stage =>
      some ((call t.machine).map fun machine ↦ { t.moveTo p .cycleEnd with machine := machine })
  | .cycleEnd =>
      some (.ok ((t.moveTo p (.endWait (t.barrier .cycle_end).generation)).arrive .cycle_end))
  | .endWait ticket =>
      if (t.barrier .cycle_end).opened ticket then some (.ok (t.moveTo p .cycleStart)) else none
  | .cycleStart =>
      some (.ok ((t.moveTo p (.startWait (t.barrier .cycle_start).generation)).arrive .cycle_start))
  | .startWait ticket =>
      if (t.barrier .cycle_start).opened ticket then some (.ok (t.moveTo p .test)) else none
  | .test => some (.ok (t.moveTo p (if t.running_sim then .stage else .exited)))
  | .exited => none

variable (build : Build)

/-- `start_fetch`. -/
def startFetch : Threads → Option (Except Crash Threads) := startStage (fetchInstr build) .fetch

/-- `start_decode`. -/
def startDecode : Threads → Option (Except Crash Threads) :=
  startStage (fun s ↦ .ok (decodeInstr s)) .decode

/-- `start_execute`. -/
def startExecute : Threads → Option (Except Crash Threads) :=
  startStage (fun s ↦ .ok (executeInstr s)) .execute

/-- `start_memory`. -/
def startMemory : Threads → Option (Except Crash Threads) := startStage (memoryInstr build) .memory

/-- `start_writeback`. -/
def startWriteback : Threads → Option (Except Crash Threads) :=
  startStage (fun s ↦ .ok (wbackInstr s)) .wback

def stages : List ProcStage := [.fetch, .decode, .execute, .memory, .wback]

def stepStage : ProcStage → Threads → Option (Except Crash Threads)
  | .fetch => startFetch build
  | .decode => startDecode
  | .execute => startExecute
  | .memory => startMemory build
  | .wback => startWriteback

/-- The next step of `runElf`. -/
def stepMain (cycle_max : ℕ) (t : Threads) : Option Threads :=
  match t.main with
  | .create (p :: stages) => some { t.moveTo p .born with main := .create stages }
  | .create [] => some { t with main := .cycleStart }
  | .cycleStart =>
      some { t.arrive .cycle_start with
        main := .startWait (t.barrier .cycle_start).generation }
  | .startWait ticket =>
      if (t.barrier .cycle_start).opened ticket then some { t with main := .cycleEnd } else none
  | .cycleEnd =>
      some { t.arrive .cycle_end with main := .endWait (t.barrier .cycle_end).generation }
  | .endWait ticket =>
      if (t.barrier .cycle_end).opened ticket then some { t with main := .correct } else none
  | .correct =>
      let machine := finishCycle build t.machine
      let num_instr := t.num_instr + 1
      some { t with
        machine := machine
        num_instr := num_instr
        main := if machine.running && decide (num_instr < cycle_max) then .cycleStart else .stop }
  | .stop => some { t with running_sim := false, main := .lastStart }
  | .lastStart =>
      some { t.arrive .cycle_start with main := .lastWait (t.barrier .cycle_start).generation }
  | .lastWait ticket =>
      if (t.barrier .cycle_start).opened ticket then some { t with main := .join stages } else none
  | .join (p :: stages) =>
      if t.stage p = .exited then some { t with main := .join stages } else none
  | .join [] => some { t with main := .destroy }
  | .destroy => some { t with main := .returned }
  | .returned => none

/-- The next step of a thread, where `none` is the one of `runElf`. -/
def step (cycle_max : ℕ) : Option ProcStage → Threads → Option (Except Crash Threads)
  | none, t => (stepMain build cycle_max t).map .ok
  | some p, t => stepStage build p t

end Threads

/-- The state in which `runElf` begins to create the threads. -/
def initThreads (GPR : ℕ → BitVec 64) (mem : Mem) (entry : BitVec 64) : Threads where
  machine := initMachine GPR mem entry
  num_instr := 0
  running_sim := true
  barrier := fun _ ↦ {}
  main := .create Threads.stages
  stage := fun _ ↦ .unborn

end SystemEmulator
