import SystemEmulator.Base.ElfLoader
import SystemEmulator.Base.Machine
import SystemEmulator.Base.Proc

/-!
# The main program

`archsim.c` and the options of `handle_args.c`.  The log messages are left out, but not the
assertions on their length, nor what `logging` does with the values that a program writes.  A failed
`fopen` is reported and ends the option loop early.
-/

namespace SystemEmulator

/-- An option that `getopt` returns to `handle_args`, with its argument. -/
inductive CmdOption where
  | h
  | i (file : String)
  | o (file : String)
  | c (file : String)
  | l (num : BitVec 64)
  | v (level : Char)
  | cache (option : CacheOption)
  | unknown
  deriving DecidableEq, Repr

/-- The globals that `handle_args` sets; `none` is `NULL`, and `stdout` for `outfile`. -/
structure Settings where
  infile_name : Option String := none
  outfile : Option String := none
  checkpoint : Option String := none
  /-- `MAX_NUM_INSTR`, until an option sets it. -/
  cycle_max : BitVec 64 := 500
  debug_level : ℕ := 0
  args : CacheArgs := {}
  proper_usage : Bool := false
  /-- Set by a `LOG_FATAL` message; `logging` returns at once from then on. -/
  terminate : Bool := false
  deriving DecidableEq, Repr

inductive Ending where
  | exit (status : ℕ)
  /-- A failed `assert`. -/
  | aborted
  /-- An integer division traps. -/
  | divisionTrap
  | loadFault (fault : LoadFault)
  | crashed (crash : Crash)
  /-- `runElf` has returned, and `logging` has printed these values. -/
  | finished (s : Machine) (printed : List (BitVec 64))

def BUF_LEN : ℕ := 100

/-- The assertion of `format_log_message` on a message with an argument: `text` counts its other
characters, those of the color and of the severity included. -/
def messageFits (text : ℕ) (arg : String) : Bool := text + arg.utf8ByteSize < BUF_LEN

/-- The early return after a failed `fopen`, which is a `LOG_FATAL` message. -/
def openFailed (text : ℕ) (file : String) (s : Settings) : Except Ending Settings :=
  if messageFits text file then .ok { s with terminate := true } else .error .aborted

/-- `handle_args` behind the option loop. -/
def checkArgs (extra : List String) (s : Settings) : Except Ending Settings :=
  if !s.proper_usage then .error (.exit 1)
  else if !s.args.missing && s.args.divisionTraps then .error .divisionTrap
  else if extra.all (messageFits ("Ignoring extra argument ".length + 9)) then .ok s
  else .error .aborted

/-- `handle_args`.  `opens` tells which files can be written, and `extra` are the arguments that
belong to no option. -/
def handleArgs (opens : String → Bool) (extra : List String) :
    Settings → List CmdOption → Except Ending Settings
  | s, [] => checkArgs extra s
  | s, option :: options =>
      match option with
      | .h => .error (.exit 0)
      | .i file =>
          handleArgs opens extra { s with infile_name := some file, proper_usage := true } options
      | .o file =>
          if opens file then handleArgs opens extra { s with outfile := some file } options
          else openFailed ("failed to open output file ".length + 14) file
            { s with outfile := none }
      | .c file =>
          if opens file then handleArgs opens extra { s with checkpoint := some file } options
          else openFailed ("failed to open checkpoint file ".length + 14) file
            { s with checkpoint := none }
      | .l num => handleArgs opens extra { s with cycle_max := num } options
      | .v level =>
          let debug_level := match level with
            | '0' => 0
            | '2' => 2
            | '3' => 3
            | _ => 1
          handleArgs opens extra { s with debug_level := debug_level } options
      | .cache option =>
          match s.args.option option with
          | none => .error (.exit 1)
          | some args => handleArgs opens extra { s with args := args } options
      | .unknown => handleArgs opens extra s options

/-- The memory into which `loadElf` has loaded an executable. -/
def Loaded.mem (r : Loaded) (mem : Mem) : Mem :=
  { mem with ptable := r.ptable, seg_start_addr := r.seg_start_addr }

/-- The `LOG_OUTPUT` messages that `logging` prints. -/
def logged (terminate : Bool) (output : List (BitVec 64)) : List (BitVec 64) :=
  if terminate then [] else output

/-- `main`, up to the call of `finalize`.  `files` gives the files that can be mapped. -/
def main (build : Build) (orders : ℕ → List ProcStage) (opens : String → Bool)
    (files : String → Option ElfFile) (stdin : ℕ → BitVec 64) (options : List CmdOption)
    (extra : List String) : Ending :=
  match handleArgs opens extra {} options with
  | .error ending => ending
  | .ok s =>
      let mem := { initMem s.args.initCache stdin with checkpoint := s.checkpoint.isSome }
      match s.infile_name.bind files with
      -- `exit(-1)`
      | none => .exit 255
      | some file =>
          match loadElf file mem.ptable mem.seg_start_addr with
          | .error fault => .loadFault fault
          | .ok r =>
              -- the registers are those of a `calloc`
              match runElf build s.cycle_max.toNat orders (fun _ ↦ 0) (r.mem mem) r.entry with
              | .error crash => .crashed crash
              | .ok t => .finished t (logged s.terminate t.mem.output)

end SystemEmulator
