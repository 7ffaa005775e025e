import SystemEmulator.Base.Machine
import SystemEmulator.Library.Numeral

/-!
# Trace files

`csim.c`: the lines of a trace file are read into a buffer and replayed, and the counters are
written to a file.  A character is a byte, and the output on the terminal is left out.
-/

namespace SystemEmulator

open Numeral

/-- The character that ends a string. -/
def NUL : Char := Char.ofNat 0

/-! ## The C library -/

/-- The string that `fgets` reads when there is room for `n` characters, and the rest of the
file. -/
def fgets : ℕ → List Char → List Char × List Char
  | 0, cs => ([], cs)
  | _ + 1, [] => ([], [])
  | n + 1, c :: cs =>
      if c = '\n' then ([c], cs)
      else
        let (line, rest) := fgets n cs
        (c :: line, rest)

/-- `isspace`. -/
def isSpace (c : Char) : Bool :=
  c = ' ' || c = '\t' || c = '\n' || c = '\u000b' || c = '\u000c' || c = '\r'

def scanSign : List Char → Bool × List Char
  | '-' :: cs => (true, cs)
  | '+' :: cs => (false, cs)
  | cs => (false, cs)

/-- The `0x` that a hexadecimal number may start with is skipped. -/
def skipHexMark : List Char → List Char
  | '0' :: 'x' :: cs => cs
  | '0' :: 'X' :: cs => cs
  | cs => cs

def startsWithDigit (b : ℕ) : List Char → Bool
  | [] => false
  | c :: _ => (digit b c).isSome

/-- The conversion `%llx` of `sscanf`, `none` when it fails.  A number that is too large becomes the
largest one.  A `0x` with no digit behind it is a matching failure in ISO C, but glibc converts it
to zero, and so does the model. -/
def scanHex (text : List Char) : Option (BitVec 64) :=
  let (negative, text) := scanSign (text.dropWhile isSpace)
  if startsWithDigit 16 text then
    let value := (scan 16 0 (skipHexMark text)).1
    some (if 2 ^ 64 ≤ value then -1
      else if negative then -BitVec.ofNat 64 value else BitVec.ofNat 64 value)
  else none

def BUF_SIZE : ℕ := 1000

/-- The locals of `replayTrace`, with the cache and the counters. -/
structure ReplayState where
  buf : ℕ → Char
  addr : BitVec 64
  cache : Cache
  counters : Counters

/-- `buf` after `fgets` has read a string: what lies behind the string stays. -/
def fillBuf (buf : ℕ → Char) (line : List Char) : ℕ → Char :=
  fun i ↦ if i ≤ line.length then line.getD i NUL else buf i

/-- The string that starts at `buf + i`. -/
def stringAt (buf : ℕ → Char) (i : ℕ) : List Char :=
  ((List.range' i (BUF_SIZE - i)).map buf).takeWhile (· ≠ NUL)

def traceOp : Char → Option TraceOp
  | 'S' => some .S
  | 'L' => some .L
  | 'M' => some .M
  | _ => none

/-- One iteration of the loop in `replayTrace`, on the string that `fgets` has read.  An address
that cannot be read leaves `addr` as it is. -/
def replayLine (st : ReplayState) (line : List Char) : Except Crash ReplayState := do
  let buf := fillBuf st.buf line
  match traceOp (buf 1) with
  | none => pure { st with buf := buf }
  | some op =>
      let addr := (scanHex (stringAt buf 3)).getD st.addr
      let (cache, counters) ← op.operations.foldlM
        (fun state operation ↦ accessData state.1 state.2 addr operation) (st.cache, st.counters)
      pure { buf, addr, cache, counters }

theorem length_fgets (n : ℕ) (c : Char) (cs : List Char) :
    (fgets (n + 1) (c :: cs)).2.length ≤ cs.length := by
  have hle : ∀ n cs, (fgets n cs).2.length ≤ cs.length := by
    intro n
    induction n with
    | zero => exact fun cs ↦ Nat.le_refl _
    | succ n ih =>
      intro cs
      cases cs with
      | nil => exact Nat.le_refl _
      | cons c cs =>
        rw [fgets]
        split
        · exact Nat.le_succ _
        · exact Nat.le_trans (ih cs) (Nat.le_succ _)
  rw [fgets]
  split
  · exact Nat.le_refl _
  · exact hle n cs

/-- The strings that the loop of `replayTrace` reads. -/
def readLines : List Char → List (List Char)
  | [] => []
  | c :: cs =>
      have := length_fgets (BUF_SIZE - 2) c cs
      (fgets (BUF_SIZE - 1) (c :: cs)).1 :: readLines (fgets (BUF_SIZE - 1) (c :: cs)).2
termination_by text => text.length
decreasing_by exact Nat.lt_succ_of_le this

/-- `replayTrace` on the text of a file; `buf` is not initialised. -/
def replayFile (buf : ℕ → Char) (cache : Cache) (text : List Char) : Except Crash ReplayState :=
  (readLines text).foldlM replayLine ⟨buf, 0, cache, {}⟩

/-- An option that `getopt` returns to `main`, with its value. -/
inductive CsimOption where
  | A (value : BitVec 32)
  | B (value : BitVec 32)
  | C (value : BitVec 32)
  | t (file : String)
  | v
  | h
  | unknown
  deriving DecidableEq, Repr

structure CsimArgs where
  A : BitVec 32 := -1
  B : BitVec 32 := -1
  C : BitVec 32 := -1
  trace_file : Option String := none
  deriving DecidableEq, Repr

inductive CsimEnd where
  | exit (status : ℕ)
  /-- An integer division traps. -/
  | divisionTrap
  | crashed (crash : Crash)
  /-- `main` returns, and has written this text. -/
  | finished (csim_results : List Char)
  deriving DecidableEq, Repr

def USAGE_STATUS : ℕ := 0

/-- One iteration of the option loop. -/
def CsimArgs.option (args : CsimArgs) : CsimOption → Except CsimEnd CsimArgs
  | .A value => .ok { args with A := value }
  | .B value =>
      if value.slt 8 || popcountll (value.signExtend 64) != 1 then .error (.exit USAGE_STATUS)
      else .ok { args with B := value }
  | .C value => .ok { args with C := value }
  | .t file => .ok { args with trace_file := some file }
  | .v => .ok args
  | .h => .error (.exit USAGE_STATUS)
  | .unknown => .error (.exit USAGE_STATUS)

end SystemEmulator
