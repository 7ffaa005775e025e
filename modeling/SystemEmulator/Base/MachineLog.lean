import SystemEmulator.Base.Checkpoint
import SystemEmulator.Pipe.Registers

/-!
# The text of a checkpoint

`log_machine_state` of `machine.c`: the state of the processor, the memory and the cache statistics,
as they are written to the checkpoint file.
-/

namespace SystemEmulator

/-- `%lx`. -/
def hex (value : BitVec 64) : List Char := Nat.toDigits 16 value.toNat

/-- `%d`. -/
def decimal : ℤ → List Char
  | .ofNat n => Nat.toDigits 10 n
  | .negSucc n => '-' :: Nat.toDigits 10 (n + 1)

/-- `%x` of a flag. -/
def bit (flag : Bool) : List Char := if flag then ['1'] else ['0']

def GPR_names64 : List String :=
  [" X0", " X1", " X2", " X3", " X4", " X5", " X6", " X7", " X8", " X9", "X10", "X11", "X12",
    "X13", "X14", "X15", "X16", "X17", "X18", "X19", "X20", "X21", "X22", "X23", "X24", "X25",
    "X26", "X27", "X28", "X29", "X30"]

/-- `get_stat_str`. -/
def getStatStr : Stat → String
  | .aok => "AOK"
  | .bub => "BUB"
  | .hlt => "HLT"
  | .adr => "ADR"
  | .ins => "INS"

def cyclesLine (num_instr : ℕ) : List Char :=
  "Machine state checkpoint after ".toList ++ (Nat.toDigits 10 num_instr ++ " cycles:\n".toList)

/-- A line with a label and a hexadecimal number. -/
def hexLine (label : String) (value : BitVec 64) : List Char :=
  label.toList ++ (hex value ++ ['\n'])

def flagsLine (cc : BitVec 8) : List Char :=
  "\t\tCondition Flags: [N,Z,C,V] = [".toList ++ bit (getNF cc) ++ ", ".toList ++
    bit (getZF cc) ++ ", ".toList ++ bit (getCF cc) ++ ", ".toList ++ bit (getVF cc) ++
    "]\n".toList

def registerLine (i : ℕ) (value : BitVec 64) : List Char :=
  hexLine ("\t\t\tRegister " ++ GPR_names64.getD i "" ++ ": ") value

def statusLine (status : Stat) : List Char :=
  "\t\tStatus: ".toList ++ ((getStatStr status).toList ++ "\n".toList)

def processorText (s : Machine) : List Char :=
  "\tProcessor state:\n".toList ++ (hexLine "\t\tProgram Counter: " s.PC ++
    (hexLine "\t\tStack Pointer: " s.regs.SP ++ (flagsLine s.NZCV ++
    ("\t\tGeneral Purpose Register File state:\n".toList ++
    ((List.range 31).flatMap (fun i ↦ registerLine i (s.regs.GPR i)) ++ statusLine s.status)))))

def wordLine (line : BitVec 64 × BitVec 64) : List Char :=
  "\t\t\tAddress 0x".toList ++ (hex line.1 ++ ": 0x".toList ++ (hex line.2 ++ "\n".toList))

/-- The line of the cache statistics, when there is a cache. -/
def statisticsLine : Option (ℤ × ℤ) → List Char
  | none => []
  | some (hits, misses) =>
      "\t\tNumber of cache hits, misses: ".toList ++ (decimal hits ++ ", ".toList ++
        (decimal misses ++ "\n".toList))

/-- The memory section and what comes behind it. -/
def memoryText (log : MemoryLog) (statistics : Option (ℤ × ℤ)) : List Char :=
  "\tMemory state:\n\t\tText segment:\n".toList ++ (log.text.flatMap wordLine ++
    ("\t\tData segment:\n".toList ++ (log.data.flatMap wordLine ++
    ("\t\tHeap:\n".toList ++ (log.heap.flatMap wordLine ++
    ("\t\tStack:\n".toList ++ (log.stack.flatMap wordLine ++
    (statisticsLine statistics ++ "\n".toList))))))))

/-- The cache statistics: `none` when the division by `d` traps, and nothing without a cache. -/
def logCache (m : Mem) : Option (Option (ℤ × ℤ)) :=
  match m.cache with
  | none => some none
  | some cache => (logStatistics m.counters cache.d).map some

/-- `log_machine_state`; `none` when it does not come to its end. -/
def logMachineState (num_instr : ℕ) (s : Machine) : Option (List Char) := do
  let log ← logMemory s.mem
  let statistics ← logCache s.mem
  pure (cyclesLine num_instr ++ (processorText s ++ memoryText log statistics))

end SystemEmulator
