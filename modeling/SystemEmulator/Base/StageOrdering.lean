import Mathlib.Data.List.Permutation
import SystemEmulator.Base.Proc

/-!
# The random build

`stage_ordering.c`, and the loop of `runElf` in the build with `RANDOM`: each cycle picks a row of
the table and calls the stages in its order.
-/

namespace SystemEmulator

/-- The table of `stage_ordering.c`. -/
def orderings : List (List ProcStage) :=
  [[.fetch, .decode, .execute, .memory, .wback],
   [.fetch, .decode, .execute, .wback, .memory],
   [.fetch, .decode, .memory, .execute, .wback],
   [.fetch, .decode, .memory, .wback, .execute],
   [.fetch, .decode, .wback, .execute, .memory],
   [.fetch, .decode, .wback, .memory, .execute],
   [.fetch, .execute, .decode, .memory, .wback],
   [.fetch, .execute, .decode, .wback, .memory],
   [.fetch, .execute, .memory, .decode, .wback],
   [.fetch, .execute, .memory, .wback, .decode],
   [.fetch, .execute, .wback, .decode, .memory],
   [.fetch, .execute, .wback, .memory, .decode],
   [.fetch, .memory, .decode, .execute, .wback],
   [.fetch, .memory, .decode, .wback, .execute],
   [.fetch, .memory, .execute, .decode, .wback],
   [.fetch, .memory, .execute, .wback, .decode],
   [.fetch, .memory, .wback, .decode, .execute],
   [.fetch, .memory, .wback, .execute, .decode],
   [.fetch, .wback, .decode, .execute, .memory],
   [.fetch, .wback, .decode, .memory, .execute],
   [.fetch, .wback, .execute, .decode, .memory],
   [.fetch, .wback, .execute, .memory, .decode],
   [.fetch, .wback, .memory, .decode, .execute],
   [.fetch, .wback, .memory, .execute, .decode],
   [.decode, .fetch, .execute, .memory, .wback],
   [.decode, .fetch, .execute, .wback, .memory],
   [.decode, .fetch, .memory, .execute, .wback],
   [.decode, .fetch, .memory, .wback, .execute],
   [.decode, .fetch, .wback, .execute, .memory],
   [.decode, .fetch, .wback, .memory, .execute],
   [.decode, .execute, .fetch, .memory, .wback],
   [.decode, .execute, .fetch, .wback, .memory],
   [.decode, .execute, .memory, .fetch, .wback],
   [.decode, .execute, .memory, .wback, .fetch],
   [.decode, .execute, .wback, .fetch, .memory],
   [.decode, .execute, .wback, .memory, .fetch],
   [.decode, .memory, .fetch, .execute, .wback],
   [.decode, .memory, .fetch, .wback, .execute],
   [.decode, .memory, .execute, .fetch, .wback],
   [.decode, .memory, .execute, .wback, .fetch],
   [.decode, .memory, .wback, .fetch, .execute],
   [.decode, .memory, .wback, .execute, .fetch],
   [.decode, .wback, .fetch, .execute, .memory],
   [.decode, .wback, .fetch, .memory, .execute],
   [.decode, .wback, .execute, .fetch, .memory],
   [.decode, .wback, .execute, .memory, .fetch],
   [.decode, .wback, .memory, .fetch, .execute],
   [.decode, .wback, .memory, .execute, .fetch],
   [.execute, .fetch, .decode, .memory, .wback],
   [.execute, .fetch, .decode, .wback, .memory],
   [.execute, .fetch, .memory, .decode, .wback],
   [.execute, .fetch, .memory, .wback, .decode],
   [.execute, .fetch, .wback, .decode, .memory],
   [.execute, .fetch, .wback, .memory, .decode],
   [.execute, .decode, .fetch, .memory, .wback],
   [.execute, .decode, .fetch, .wback, .memory],
   [.execute, .decode, .memory, .fetch, .wback],
   [.execute, .decode, .memory, .wback, .fetch],
   [.execute, .decode, .wback, .fetch, .memory],
   [.execute, .decode, .wback, .memory, .fetch],
   [.execute, .memory, .fetch, .decode, .wback],
   [.execute, .memory, .fetch, .wback, .decode],
   [.execute, .memory, .decode, .fetch, .wback],
   [.execute, .memory, .decode, .wback, .fetch],
   [.execute, .memory, .wback, .fetch, .decode],
   [.execute, .memory, .wback, .decode, .fetch],
   [.execute, .wback, .fetch, .decode, .memory],
   [.execute, .wback, .fetch, .memory, .decode],
   [.execute, .wback, .decode, .fetch, .memory],
   [.execute, .wback, .decode, .memory, .fetch],
   [.execute, .wback, .memory, .fetch, .decode],
   [.execute, .wback, .memory, .decode, .fetch],
   [.memory, .fetch, .decode, .execute, .wback],
   [.memory, .fetch, .decode, .wback, .execute],
   [.memory, .fetch, .execute, .decode, .wback],
   [.memory, .fetch, .execute, .wback, .decode],
   [.memory, .fetch, .wback, .decode, .execute],
   [.memory, .fetch, .wback, .execute, .decode],
   [.memory, .decode, .fetch, .execute, .wback],
   [.memory, .decode, .fetch, .wback, .execute],
   [.memory, .decode, .execute, .fetch, .wback],
   [.memory, .decode, .execute, .wback, .fetch],
   [.memory, .decode, .wback, .fetch, .execute],
   [.memory, .decode, .wback, .execute, .fetch],
   [.memory, .execute, .fetch, .decode, .wback],
   [.memory, .execute, .fetch, .wback, .decode],
   [.memory, .execute, .decode, .fetch, .wback],
   [.memory, .execute, .decode, .wback, .fetch],
   [.memory, .execute, .wback, .fetch, .decode],
   [.memory, .execute, .wback, .decode, .fetch],
   [.memory, .wback, .fetch, .decode, .execute],
   [.memory, .wback, .fetch, .execute, .decode],
   [.memory, .wback, .decode, .fetch, .execute],
   [.memory, .wback, .decode, .execute, .fetch],
   [.memory, .wback, .execute, .fetch, .decode],
   [.memory, .wback, .execute, .decode, .fetch],
   [.wback, .fetch, .decode, .execute, .memory],
   [.wback, .fetch, .decode, .memory, .execute],
   [.wback, .fetch, .execute, .decode, .memory],
   [.wback, .fetch, .execute, .memory, .decode],
   [.wback, .fetch, .memory, .decode, .execute],
   [.wback, .fetch, .memory, .execute, .decode],
   [.wback, .decode, .fetch, .execute, .memory],
   [.wback, .decode, .fetch, .memory, .execute],
   [.wback, .decode, .execute, .fetch, .memory],
   [.wback, .decode, .execute, .memory, .fetch],
   [.wback, .decode, .memory, .fetch, .execute],
   [.wback, .decode, .memory, .execute, .fetch],
   [.wback, .execute, .fetch, .decode, .memory],
   [.wback, .execute, .fetch, .memory, .decode],
   [.wback, .execute, .decode, .fetch, .memory],
   [.wback, .execute, .decode, .memory, .fetch],
   [.wback, .execute, .memory, .fetch, .decode],
   [.wback, .execute, .memory, .decode, .fetch],
   [.wback, .memory, .fetch, .decode, .execute],
   [.wback, .memory, .fetch, .execute, .decode],
   [.wback, .memory, .decode, .fetch, .execute],
   [.wback, .memory, .decode, .execute, .fetch],
   [.wback, .memory, .execute, .fetch, .decode],
   [.wback, .memory, .execute, .decode, .fetch]]

def NUM_ORDERINGS : ℕ := 120

theorem length_orderings : orderings.length = NUM_ORDERINGS := rfl

/-- The row for a result of `rand`. -/
def whichOrder (rand : ℕ) : List ProcStage :=
  orderings.get ⟨rand % NUM_ORDERINGS, Nat.mod_lt _ (Nat.succ_pos 119)⟩

/-- How the loop of the random build is cut short. -/
inductive RandomFault where
  | crash (crash : Crash)
  /-- Some stage has not been completed. -/
  | assertFailed

/-- One iteration of the loop over a row, on the machine and `completed_stage`. -/
def completeStage (build : Build) (st : Machine × (ProcStage → Bool)) (stage : ProcStage) :
    Except RandomFault (Machine × (ProcStage → Bool)) := do
  let s ← (runStage build st.1 stage).mapError .crash
  pure (s, Function.update st.2 stage true)

/-- One iteration of the loop in `runElf`. -/
def randomCycle (build : Build) (rand : ℕ) (s : Machine) : Except RandomFault Machine := do
  let (s, completed_stage) ← (whichOrder rand).foldlM (completeStage build) (s, fun _ ↦ false)
  if completed_stage .fetch && completed_stage .decode && completed_stage .execute &&
      completed_stage .memory && completed_stage .wback then
    pure (finishCycle build s)
  else .error .assertFailed

/-- The loop with at most `fuel` iterations left; `rands` gives the results of `rand`. -/
def randomLoop (build : Build) : ℕ → (ℕ → ℕ) → Machine → Except RandomFault Machine
  | 0, _, s => .ok s
  | fuel + 1, rands, s => do
      let s ← randomCycle build (rands 0) s
      if s.running then randomLoop build fuel (fun n ↦ rands (n + 1)) s else pure s

/-- `runElf` of the random build. -/
def randomRunElf (build : Build) (cycle_max : ℕ) (rands : ℕ → ℕ) (GPR : ℕ → BitVec 64) (mem : Mem)
    (entry : BitVec 64) : Except RandomFault Machine :=
  randomLoop build (max 1 cycle_max) rands (initMachine GPR mem entry)

/-- The rows of the table are the permutations of the stages. -/
theorem mem_orderings_iff {order : List ProcStage} :
    order ∈ orderings ↔ order.Perm defaultOrder := by
  have htable : ∀ order ∈ orderings, order.Perm defaultOrder := by decide +kernel
  have hcomplete : ∀ order ∈ defaultOrder.permutations', order ∈ orderings := by decide +kernel
  exact ⟨htable order, fun h ↦ hcomplete order (List.mem_permutations'.mpr h)⟩

end SystemEmulator
