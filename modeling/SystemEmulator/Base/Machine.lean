import SystemEmulator.Base.Mem

/-!
# Start of the emulator

The cache arguments of `handle_args.c` and their use in `init_machine` of `machine.c`.  The values
are what `atoi` makes of the arguments; `int` arithmetic wraps around.
-/

namespace SystemEmulator

/-- One of the options `-A`, `-B`, `-C` and `-d` with its value. -/
inductive CacheOption where
  | A (value : BitVec 32)
  | B (value : BitVec 32)
  | C (value : BitVec 32)
  | d (value : BitVec 32)
  deriving DecidableEq, Repr

/-- The globals `A`, `B`, `C` and `d`, which are `-1` until an option sets them. -/
structure CacheArgs where
  A : BitVec 32 := -1
  B : BitVec 32 := -1
  C : BitVec 32 := -1
  d : BitVec 32 := -1
  deriving DecidableEq, Repr

inductive Start where
  /-- `exit(1)` because of an invalid block size. -/
  | exited
  /-- An integer division traps. -/
  | divisionTrap
  /-- The machine is initialised, with or without a cache. -/
  | started (cache : Option Cache)

/-- `__builtin_popcountll`. -/
def popcountll (x : BitVec 64) : ℕ := (List.range 64).countP x.getLsbD

/-- The test of the option `-B`. -/
def blockSizeOk (B : BitVec 32) : Bool :=
  !(B != -1 && (B.slt 8 || popcountll (B.signExtend 64) != 1))

namespace CacheArgs

/-- One option of the loop in `handle_args`; `none` stands for `exit(1)`. -/
def option (args : CacheArgs) : CacheOption → Option CacheArgs
  | .A value => some { args with A := value }
  | .B value => if blockSizeOk value then some { args with B := value } else none
  | .C value => some { args with C := value }
  | .d value => some { args with d := value }

/-- The option loop of `handle_args`. -/
def parse (options : List CacheOption) : Option CacheArgs := options.foldlM option {}

def missing (args : CacheArgs) : Bool :=
  args.A == -1 || args.B == -1 || args.C == -1 || args.d == -1

/-- `C / (A * B)` traps, in the test of the number of sets whose outcome is logged only. -/
def divisionTraps (args : CacheArgs) : Bool :=
  args.A * args.B == 0 || (args.C == BitVec.intMin 32 && args.A * args.B == -1)

/-- `init_machine`, which tests for missing arguments again. -/
def initCache (args : CacheArgs) : Option Cache :=
  if args.missing then none
  else some (createCache args.A.toNat args.B.toNat args.C.toNat args.d.toNat)

end CacheArgs

/-- `handle_args` followed by `init_machine`. -/
def startEmulator (options : List CacheOption) : Start :=
  match CacheArgs.parse options with
  | none => .exited
  | some args =>
      if !args.missing && args.divisionTraps then .divisionTrap
      else .started args.initCache

end SystemEmulator
