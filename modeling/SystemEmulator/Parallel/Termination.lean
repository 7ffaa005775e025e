import SystemEmulator.Parallel.Refinement
import Mathlib.Algebra.BigOperators.Group.Finset.Basic
import Mathlib.Algebra.Group.Action.Defs
import Mathlib.Algebra.Order.BigOperators.Group.Finset

/-!
# Progress of the parallel build

Before `runElf` returns some thread can always go on, and every order of the steps comes to an end:
each step raises a potential that the cycle limit bounds.
-/

namespace SystemEmulator

open Relation

namespace Threads

variable {build : Build} {cycle_max : ℕ} {t t' : Threads} {passed : Option ProcStage → ℕ} {r : ℕ}
  {p : ProcStage}

/-! ## Progress -/

/-- A thread of a stage can go on. -/
theorem step_of_stage (build : Build) (cycle_max : ℕ) (hnone : (t.stage p).ticket = none)
    (hunborn : t.stage p ≠ .unborn) (hexited : t.stage p ≠ .exited) :
    ∃ x, t.step build cycle_max (some p) = some x := by
  change ∃ x, stepStage build p t = some x
  rw [stepStage_eq, startStage]
  cases hpc : t.stage p with
  | unborn => exact absurd hpc hunborn
  | exited => exact absurd hpc hexited
  | bornWait g | endWait g | startWait g => rw [hpc] at hnone; cases hnone
  | _ => exact ⟨_, rfl⟩

/-- A thread of a stage goes on when its barrier is open. -/
theorem step_of_opened (build : Build) (cycle_max : ℕ) (h : t.Inv passed r) {g : ℕ}
    (hsome : (t.stage p).ticket = some g)
    (hopen : (t.barrier (cycleBarriers (passed (some p)))).opened g = true) :
    ∃ x, t.step build cycle_max (some p) = some x := by
  have hparity := h.parity p
  change ∃ x, stepStage build p t = some x
  rw [stepStage_eq, startStage]
  unfold cycleBarriers at hopen
  rw [hparity] at hopen
  cases hpc : t.stage p with
  | bornWait ticket | endWait ticket | startWait ticket =>
    rw [hpc] at hsome hopen
    obtain rfl := Option.some.inj hsome
    exact ⟨_, if_pos hopen⟩
  | _ => rw [hpc] at hsome; cases hsome

theorem step_of_stepMain (h : (stepMain build cycle_max t).isSome = true) :
    ∃ x, t.step build cycle_max none = some x := by
  obtain ⟨u, hu⟩ := Option.isSome_iff_exists.mp h
  exact ⟨.ok u, congrArg (Option.map _) hu⟩

theorem step_of_main_opened (build : Build) (cycle_max : ℕ) (h : t.Inv passed r) {g : ℕ}
    (hsome : t.main.ticket = some g)
    (hopen : (t.barrier (cycleBarriers (passed none))).opened g = true) :
    ∃ x, t.step build cycle_max none = some x := by
  have hmain := h.main
  have hb : ∀ b pc, t.main.departure = some (b, g, pc) → (t.barrier b).opened g = true := by
    intro b pc hdeparture
    rw [hmain, (MainPC.departure_spec hdeparture t.num_instr).2.2.2] at hopen
    exact hopen
  cases hpc : t.main with
  | startWait ticket | endWait ticket | lastWait ticket =>
    rw [hpc] at hsome hb
    obtain rfl := Option.some.inj hsome
    refine step_of_stepMain ?_
    rw [stepMain, hpc]
    exact congrArg Option.isSome (if_pos (hb _ _ rfl))
  | _ => rw [hpc] at hsome; cases hsome

/-- `runElf` goes on unless it waits, joins a thread or has returned. -/
theorem step_of_main (build : Build) (cycle_max : ℕ) (hnone : t.main.ticket = none)
    (hjoin : ∀ p stages, t.main = .join (p :: stages) → t.stage p = .exited)
    (hreturned : t.main ≠ .returned) : ∃ x, t.step build cycle_max none = some x := by
  cases hpc : t.main with
  | startWait g | endWait g | lastWait g => rw [hpc] at hnone; cases hnone
  | returned => exact absurd hpc hreturned
  | create stages =>
    cases stages with
    | nil =>
      refine step_of_stepMain ?_
      rw [stepMain, hpc]
      rfl
    | cons p stages =>
      refine step_of_stepMain ?_
      rw [stepMain, hpc]
      rfl
  | join stages =>
    cases stages with
    | nil =>
      refine step_of_stepMain ?_
      rw [stepMain, hpc]
      rfl
    | cons p stages =>
      refine step_of_stepMain ?_
      rw [stepMain, hpc]
      exact congrArg Option.isSome (if_pos (hjoin p stages hpc))
  | _ =>
    refine step_of_stepMain ?_
    rw [stepMain, hpc]
    rfl

variable {s : Machine}

/-- A thread that is still to be joined can go on: it does not wait at `cycle_end`. -/
theorem step_of_unjoined (h : t.Inv passed r) (hhistory : History build cycle_max s t passed)
    {stages : List ProcStage} (hmain : t.main = .join stages) (hp : t.stage p ≠ .exited) :
    ∃ x, t.step build cycle_max (some p) = some x := by
  cases hticket : (t.stage p).ticket with
  | none =>
    refine step_of_stage build cycle_max hticket (fun hunborn ↦ ?_) hp
    have hcreates := (h.unborn p).mp hunborn
    rw [hmain] at hcreates
    exact hcreates
  | some g =>
    refine step_of_opened build cycle_max h hticket
      ((h.inRound.opened_iff (i := some p) hticket).mpr ?_)
    have hr := h.main_eq (congrArg MainPC.ticket hmain)
    have hle := h.inRound.passed_le (some p)
    have hparity := h.parity p
    have hcalls := (hhistory.ended (by rw [hmain]; rfl)).2.2 p
    rw [hmain] at hr
    change 2 * t.num_instr + 1 = r at hr
    change passed (some p) < r
    change passed (some p) ≤ r at hle
    unfold Threads.calls at hcalls
    revert hticket hparity hcalls
    cases t.stage p <;> simp only [StagePC.ticket, StagePC.parity, StagePC.calls] <;>
      intro hticket hparity hcalls <;> first | omega | cases hticket

/-- While `runElf` waits in a round that is not complete, another thread can go on. -/
theorem step_of_blocked (h : t.Inv passed r) {g : ℕ} (hsome : t.main.ticket = some g) :
    ∃ i x, t.step build cycle_max i = some x := by
  obtain ⟨i, hi⟩ := h.inRound.exists_free
  cases i with
  | none =>
    rcases hi with hnone | ⟨g', hg', hopen⟩
    · exact absurd (hsome.symm.trans hnone) nofun
    · exact ⟨none, step_of_main_opened build cycle_max h hg' hopen⟩
  | some p =>
    rcases hi with hnone | ⟨g', hg', hopen⟩
    · by_cases hexited : t.stage p = .exited
      · -- `runElf` can only be at its last wait, one round behind
        refine ⟨none, step_of_main_opened build cycle_max h hsome
          ((h.inRound.opened_iff (i := none) hsome).mpr ?_)⟩
        have hlooping := h.exited p hexited
        have hr := h.stage_eq hnone
        have hparity := h.parity p
        have hmain := h.main
        have hle := h.inRound.passed_le none
        change passed none < r
        change passed none ≤ r at hle
        rw [hexited] at hparity
        change passed (some p) % 2 = 1 at hparity
        revert hsome hlooping hmain
        cases t.main <;> simp only [MainPC.ticket, MainPC.looping, MainPC.phase] <;>
          intro hsome hlooping hmain <;> first | omega | contradiction
      · refine ⟨some p, step_of_stage build cycle_max hnone (fun hunborn ↦ ?_) hexited⟩
        have hcreates := (h.unborn p).mp hunborn
        revert hsome hcreates
        cases t.main <;> intro hsome hcreates <;> first | exact hcreates | cases hsome
    · exact ⟨some p, step_of_opened build cycle_max h hg' hopen⟩

/-- Before `runElf` returns some thread can go on. -/
theorem exists_step (h : t.Inv passed r) (hhistory : History build cycle_max s t passed)
    (hreturned : t.main ≠ .returned) : ∃ i x, t.step build cycle_max i = some x := by
  cases hticket : t.main.ticket with
  | some g => exact step_of_blocked h hticket
  | none =>
    by_cases hjoin : ∃ p stages, t.main = .join (p :: stages) ∧ t.stage p ≠ .exited
    · obtain ⟨p, stages, hmain, hp⟩ := hjoin
      exact ⟨some p, step_of_unjoined h hhistory hmain hp⟩
    · refine ⟨none, step_of_main build cycle_max hticket (fun p stages hmain ↦ ?_) hreturned⟩
      by_contra hp
      exact hjoin ⟨p, stages, hmain, hp⟩

end Threads

/-! ## Termination -/

/-- How far a thread has come since its last wait. -/
def StagePC.rank : StagePC → ℕ
  | .unborn | .born | .cycleStart | .test => 0
  | .bornWait _ | .startWait _ | .stage | .exited => 1
  | .cycleEnd => 2
  | .endWait _ => 3

/-- How far `runElf` has come since its last wait. -/
def MainPC.rank : MainPC → ℕ
  | .create stages | .join stages => 5 - stages.length
  | .cycleEnd | .correct => 0
  | .endWait _ => 1
  | .stop => 4
  | .lastStart => 5
  | .cycleStart | .lastWait _ | .destroy => 6
  | .startWait _ | .returned => 7

namespace Threads

variable {build : Build} {cycle_max : ℕ} {t t' : Threads} {passed : Option ProcStage → ℕ} {r : ℕ}
  {p : ProcStage} {s : Machine}

def potential (t : Threads) (passed : Option ProcStage → ℕ) : ℕ :=
  16 * passed none + t.main.rank + ∑ p, (4 * passed (some p) + (t.stage p).rank)

/-- A step of a stage raises the potential. -/
theorem potential_stageStep (hstep : StageStep build p t t') :
    t.potential passed < t'.potential (t.advance (some p) passed) := by
  obtain ⟨hmain, -, -, hother, -⟩ := hstep.frame
  have hadvance : ∀ i, i ≠ some p → t.advance (some p) passed i = passed i := by
    intro i hi
    unfold advance
    split
    · exact Function.update_of_ne hi _ _
    · rfl
  have hself : 4 * passed (some p) + (t.stage p).rank <
      4 * t.advance (some p) passed (some p) + (t'.stage p).rank := by
    cases hstep with
    | arrive b wait harrival =>
      obtain ⟨hnone, -⟩ := StagePC.arrival_spec harrival (t.barrier b).generation
      rw [advance_of_none (i := some p) hnone]
      change _ < _ + ((t.moveTo p _).stage p).rank
      rw [moveTo_stage]
      revert harrival
      cases t.stage p <;> rintro ⟨⟩ <;> simp [StagePC.rank]
    | leave b ticket pc hdeparture hopen =>
      obtain ⟨hsome, -⟩ := StagePC.departure_spec hdeparture
      rw [advance_of_some (i := some p) hsome, Function.update_self, moveTo_stage]
      have hrank : (t.stage p).rank ≤ 3 := by
        cases t.stage p <;> simp [StagePC.rank]
      omega
    | call machine hpc hcall =>
      rw [advance_of_none (i := some p) (congrArg StagePC.ticket hpc), hpc]
      change _ < _ + ((t.moveTo p _).stage p).rank
      rw [moveTo_stage]
      simp [StagePC.rank]
    | test hpc =>
      rw [advance_of_none (i := some p) (congrArg StagePC.ticket hpc), hpc, moveTo_stage]
      cases t.running_sim <;> simp [StagePC.rank]
  unfold potential
  rw [hmain, hadvance none nofun]
  refine Nat.add_lt_add_left (Finset.sum_lt_sum (fun q _ ↦ ?_) ⟨p, Finset.mem_univ p, hself⟩) _
  by_cases hq : q = p
  · exact hq ▸ hself.le
  · rw [hadvance (some q) (by simpa using hq), hother q hq]

/-- A step of `runElf` raises the potential. -/
theorem potential_mainStep (h : t.Inv passed r) (hstep : MainStep build cycle_max t t') :
    t.potential passed < t'.potential (t.advance none passed) := by
  have hstages : ∀ p, 4 * t.advance none passed (some p) + (t'.stage p).rank =
      4 * passed (some p) + (t.stage p).rank := by
    intro p
    have hadvance : t.advance none passed (some p) = passed (some p) := by
      unfold advance
      split
      · exact Function.update_of_ne (Option.some_ne_none p) _ _
      · rfl
    rw [hadvance]
    cases hstep with
    | create q stages hpc =>
      change _ + ((t.moveTo q .born).stage p).rank = _
      by_cases hp : p = q
      · subst hp
        have hunborn := (h.unborn p).mpr (by rw [hpc]; exact List.mem_cons_self)
        rw [moveTo_stage, hunborn]
        rfl
      · exact congrArg (_ + StagePC.rank ·) (Function.update_of_ne hp _ _)
    | _ => rfl
  have hlength : t.main.pending.length ≤ 5 := h.nodup.length_le_card
  have hmain : 16 * passed none + t.main.rank <
      16 * t.advance none passed none + t'.main.rank := by
    cases hstep with
    | arrive b wait harrival =>
      obtain ⟨hnone, -⟩ := MainPC.arrival_spec harrival (t.barrier b).generation 0
      rw [advance_of_none (i := none) hnone]
      revert harrival
      cases t.main <;> rintro ⟨⟩ <;> simp [MainPC.rank]
    | leave b ticket pc hdeparture hopen =>
      obtain ⟨hsome, -⟩ := MainPC.departure_spec hdeparture 0
      rw [advance_of_some (i := none) hsome, Function.update_self]
      have hrank : t.main.rank ≤ 7 := by
        cases t.main <;> simp [MainPC.rank] <;> omega
      omega
    | create p stages hpc =>
      rw [advance_of_none (i := none) (congrArg MainPC.ticket hpc), hpc]
      rw [hpc] at hlength
      simp only [MainPC.pending, List.length_cons, MainPC.rank] at hlength ⊢
      omega
    | join p stages hpc hexit =>
      rw [advance_of_none (i := none) (congrArg MainPC.ticket hpc), hpc]
      rw [hpc] at hlength
      simp only [MainPC.pending, List.length_cons, MainPC.rank] at hlength ⊢
      omega
    | correct hpc =>
      rw [advance_of_none (i := none) (congrArg MainPC.ticket hpc), hpc]
      simp only
      split <;> simp [MainPC.rank]
    | created hpc | stop hpc | joined hpc | destroy hpc =>
      rw [advance_of_none (i := none) (congrArg MainPC.ticket hpc), hpc]
      simp [MainPC.rank]
  unfold potential
  rw [Finset.sum_congr rfl fun p _ ↦ hstages p]
  exact Nat.add_lt_add_right hmain _

/-- The cycle limit bounds the potential. -/
theorem potential_le (h : t.Inv passed r) (hhistory : History build cycle_max s t passed) :
    t.potential passed ≤ 72 * max 1 cycle_max + 78 := by
  have hnum : passed none ≤ 2 * max 1 cycle_max + 1 := by
    rw [h.main]
    cases hcycling : t.main.cycling with
    | true =>
      obtain ⟨s', done, hin⟩ := hhistory.cycling hcycling
      have hlimit := hin.limit
      have hphase : t.main.phase ≤ 2 := by
        cases t.main <;> simp [MainPC.phase]
      omega
    | false =>
      have hle := (hhistory.ended hcycling).2.1
      have hphase : t.main.phase ≤ 1 := by
        revert hcycling
        cases t.main <;> simp [MainPC.phase, MainPC.cycling]
      omega
  have hround : r ≤ passed none + 1 := by
    refine (h.inRound.le_arrivals none).trans ?_
    unfold Parties.arrivals
    split <;> simp [parties]
  have hmain : t.main.rank ≤ 7 := by
    cases t.main <;> simp [MainPC.rank] <;> omega
  have hstage : ∀ p ∈ Finset.univ, 4 * passed (some p) + (t.stage p).rank ≤
      4 * (2 * max 1 cycle_max + 2) + 3 := by
    intro p _
    have hle : passed (some p) ≤ r := h.inRound.passed_le (some p)
    have hrank : (t.stage p).rank ≤ 3 := by
      cases t.stage p <;> simp [StagePC.rank]
    omega
  have hsum := Finset.sum_le_card_nsmul Finset.univ _ _ hstage
  rw [show (Finset.univ : Finset ProcStage).card = 5 from rfl, smul_eq_mul] at hsum
  unfold potential
  omega

variable {GPR : ℕ → BitVec 64} {mem : Mem} {entry : BitVec 64}

/-- The potential counts the steps. -/
theorem length_le_potential {is : List (Option ProcStage)} (h : t.Inv passed r)
    (hhistory : History build cycle_max s t passed)
    (hrun : t.schedule build cycle_max is = some t') : ∃ passed' r', t'.Inv passed' r' ∧
      History build cycle_max s t' passed' ∧
      t.potential passed + is.length ≤ t'.potential passed' := by
  induction is generalizing t passed r with
  | nil =>
    obtain rfl := Option.some.inj hrun
    exact ⟨passed, r, h, hhistory, Nat.le_refl _⟩
  | cons i is ih =>
    obtain ⟨u, hstep, hrest⟩ := schedule_cons hrun
    obtain ⟨r', hinv⟩ := h.next hstep
    have hnext : History build cycle_max s u (t.advance i passed) ∧
        t.potential passed < u.potential (t.advance i passed) := by
      cases i with
      | none =>
        have hmain := mainStep_of_step hstep
        exact ⟨hhistory.mainStep h hmain, potential_mainStep h hmain⟩
      | some p =>
        have hstage := stageStep_of_step hstep
        exact ⟨hhistory.stageStep h hstage, potential_stageStep hstage⟩
    obtain ⟨passed', r'', hinv', hhistory', hle⟩ := ih hinv hnext.1 hrest
    refine ⟨passed', r'', hinv', hhistory', ?_⟩
    rw [List.length_cons]
    omega

/-- Every order of the steps comes to an end within a bound that is linear in the cycle limit, where
the call of a stage function counts as one step, and the threads cannot be stuck before `runElf` has
returned. -/
theorem threads_terminate (build : Build) (cycle_max : ℕ) (GPR : ℕ → BitVec 64) (mem : Mem)
    (entry : BitVec 64) (is : List (Option ProcStage)) (t : Threads)
    (h : (initThreads GPR mem entry).schedule build cycle_max is = some t) :
    is.length ≤ 72 * max 1 cycle_max + 78 ∧
      (t.main ≠ .returned → ∃ i x, t.step build cycle_max i = some x) := by
  obtain ⟨passed, r, hinv, hhistory, hle⟩ := length_le_potential inv_init history_init h
  have hbound := potential_le hinv hhistory
  exact ⟨by omega, exists_step hinv hhistory⟩

/-- One cycle of an empty memory. -/
theorem threads_terminate_oneCycle : ∃ t,
    (initThreads (fun _ ↦ 0) (initMem none fun _ ↦ 0) 0).schedule ⟨true, false⟩ 1 oneCycle =
        some t ∧
      oneCycle.length ≤ 72 * max 1 1 + 78 ∧
      (t.main ≠ .returned → ∃ i x, t.step ⟨true, false⟩ 1 i = some x) := by
  obtain ⟨t, ht⟩ := Option.isSome_iff_exists.mp schedule_oneCycle
  exact ⟨t, ht, threads_terminate ⟨true, false⟩ 1 (fun _ ↦ 0) (initMem none fun _ ↦ 0) 0 oneCycle t
    ht⟩

end Threads

end SystemEmulator
