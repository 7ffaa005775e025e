import SystemEmulator.Sequential.Machine

/-!
# The sequential machine with a bound on its attempts

A data access may be repeated forever, so that the sequential machine is not executable.  With a
bound on the attempts it is, and what it then finds out about a program holds without the bound.
-/

namespace SystemEmulator

open Outcome

/-- At most `k` attempts of an access. -/
def settleWithin {α : Type} (access : Mem → Except Crash (Mem × α)) :
    ℕ → Mem → Option (Except Crash (Mem × α))
  | 0, _ => none
  | k + 1, m =>
      match access m with
      | .error crash => some (.error crash)
      | .ok r => if r.1.dmem_status = .inFlight then settleWithin access k r.1 else some (.ok r)

/-- `access` with at most `k` attempts. -/
def accessWithin (k : ℕ) (m : MInstr) (c : Core) : ExceptT Halt Option Core :=
  match settleWithin (accessed m) k c.mem with
  | none => hang
  | some (.error crash) => throw (.crashed crash)
  | some (.ok (mem, w)) => writeback w (m.multipurpose_val - 4) { c with mem := mem }

/-- `seqStep` with at most `k` attempts of its data access. -/
def seqStepWithin (k : ℕ) (build : Build) (a : Core × BitVec 64) :
    ExceptT Halt Option (Core × BitVec 64) :=
  if a.2 = 0 then throw (.halted a.1)
  else do
    let x := instrAt build a.2 a.1
    let r := executed x a.1.NZCV
    let c ← accessWithin k r.1 (if x.X_sigs.set_flags then { a.1 with NZCV := r.2 } else a.1)
    pure (c, nextPC a.2 (fetchedWord a.1.mem.ptable a.2) x a.1.NZCV)

/-- `seqRun` with at most `k` attempts of each data access. -/
def seqRunWithin (k : ℕ) (build : Build) : ℕ → Core × BitVec 64 →
    ExceptT Halt Option (Core × BitVec 64)
  | 0, a => pure a
  | n + 1, a => seqStepWithin k build a >>= seqRunWithin k build n

theorem settleWithin_eq_some {α : Type} {access : Mem → Except Crash (Mem × α)} {k : ℕ} {m : Mem}
    {x : Except Crash (Mem × α)} (h : settleWithin access k m = some x) :
    settle access m = some x := by
  induction k generalizing m with
  | zero => cases h
  | succ k ih =>
    unfold settleWithin at h
    rw [settle]
    generalize access m = result at h ⊢
    cases result with
    | error crash => exact h
    | ok r =>
      by_cases hflight : r.1.dmem_status = .inFlight
      · exact (if_pos hflight).trans (ih ((if_pos hflight).symm.trans h))
      · exact (if_neg hflight).trans ((if_neg hflight).symm.trans h)

theorem accessWithin_approx (k : ℕ) (m : MInstr) (c : Core) :
    Approx (accessWithin k m c) (access m c) := by
  unfold accessWithin access
  cases hsettle : settleWithin (accessed m) k c.mem with
  | none => exact .cut _
  | some x =>
    rw [settleWithin_eq_some hsettle]
    exact .refl _

theorem seqStepWithin_approx (k : ℕ) (build : Build) (a : Core × BitVec 64) :
    Approx (seqStepWithin k build a) (seqStep build a) := by
  unfold seqStepWithin seqStep execute
  split
  · exact .refl _
  · exact (accessWithin_approx k _ _).bind fun _ ↦ .refl _

/-- A bounded run finds out what the machine does. -/
theorem seqRunWithin_approx (k : ℕ) (build : Build) (n : ℕ) (a : Core × BitVec 64) :
    Approx (seqRunWithin k build n a) (seqRun build n a) := by
  induction n generalizing a with
  | zero => exact .refl _
  | succ n ih => exact (seqStepWithin_approx k build a).bind ih

/-- The machine stops within the bound, for a reason that passes the test. -/
def stopsWithin (p : Halt → Bool) (k : ℕ) (build : Build) (n : ℕ) (a : Core × BitVec 64) : Bool :=
  match seqRunWithin k build n a with
  | some (.error e) => p e
  | _ => false

theorem seqRun_of_stopsWithin {p : Halt → Bool} {k : ℕ} {build : Build} {n : ℕ}
    {a : Core × BitVec 64} (h : stopsWithin p k build n a = true) :
    ∃ e, seqRun build n a = throw e ∧ p e = true := by
  have happrox := seqRunWithin_approx k build n a
  unfold stopsWithin at h
  split at h
  · next e hbounded =>
    rw [hbounded] at happrox
    exact ⟨e, happrox.eq_of_throw, h⟩
  · cases h

/-- The test for an illegal instruction at an address. -/
def Halt.isIllegalAt (pc : BitVec 64) : Halt → Bool
  | .illegal pc' => pc' == pc
  | _ => false

theorem seqRun_illegal {k : ℕ} {build : Build} {n : ℕ} {a : Core × BitVec 64} {pc : BitVec 64}
    (h : stopsWithin (Halt.isIllegalAt pc) k build n a = true) :
    seqRun build n a = throw (.illegal pc) := by
  obtain ⟨e, hrun, he⟩ := seqRun_of_stopsWithin h
  cases e with
  | illegal pc' => rw [hrun, beq_iff_eq.mp he]
  | halted c => cases he
  | addressFault pc' c => cases he
  | crashed crash => cases he

end SystemEmulator
