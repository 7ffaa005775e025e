import SystemEmulator.Base.StageOrdering
import SystemEmulator.Parallel.Schedules

/-!
# The random build

The rows of the table are all the orders of the stages, so that the random build ends in exactly the
ways in which the parallel build does, and its assertion never fails.
-/

namespace SystemEmulator

variable {build : Build}

/-- The loop over a row runs the stages in their order and marks them. -/
theorem completeStages_eq (order : List ProcStage) (s : Machine)
    (completed_stage : ProcStage → Bool) :
    order.foldlM (completeStage build) (s, completed_stage) =
      (runStages build order s).mapError .crash >>= fun s ↦
        .ok (s, fun stage ↦ completed_stage stage || order.contains stage) := by
  induction order generalizing s completed_stage with
  | nil =>
    have hnone : (fun stage ↦ completed_stage stage || [].contains stage) = completed_stage :=
      funext fun stage ↦ Bool.or_false _
    change Except.ok (s, completed_stage) = .ok (s, _)
    rw [hnone]
  | cons stage order ih =>
    rw [List.foldlM_cons, runStages_cons]
    cases hstage : runStage build s stage with
    | error crash =>
      unfold completeStage
      rw [hstage]
      rfl
    | ok s' =>
      have hstep : completeStage build (s, completed_stage) stage =
          .ok (s', Function.update completed_stage stage true) := by
        unfold completeStage
        rw [hstage]
        rfl
      have hmarked : (fun stage' ↦ Function.update completed_stage stage true stage' ||
          order.contains stage') =
          fun stage' ↦ completed_stage stage' || (stage :: order).contains stage' := by
        funext stage'
        rw [List.contains_cons, Function.update_apply]
        by_cases heq : stage' = stage
        · rw [if_pos heq, beq_iff_eq.mpr heq, Bool.true_or]
          exact (Bool.or_true _).symm
        · rw [if_neg heq, beq_eq_false_iff_ne.mpr heq, Bool.false_or]
      rw [hstep]
      change order.foldlM (completeStage build) (s', _) = _
      rw [ih, hmarked]
      rfl

theorem whichOrder_perm (rand : ℕ) : (whichOrder rand).Perm defaultOrder :=
  mem_orderings_iff.mp (List.get_mem _ _)

/-- Each order is a row of the table. -/
theorem exists_whichOrder {order : List ProcStage} (h : order.Perm defaultOrder) :
    ∃ rand, whichOrder rand = order := by
  obtain ⟨⟨rand, hrand⟩, hget⟩ := List.mem_iff_get.mp (mem_orderings_iff.mpr h)
  refine ⟨rand, ?_⟩
  rw [← hget]
  unfold whichOrder
  exact congrArg _ (Fin.ext (Nat.mod_eq_of_lt hrand))

/-- The assertion of a cycle holds. -/
theorem randomCycle_eq (rand : ℕ) (s : Machine) :
    randomCycle build rand s = (cycle build (whichOrder rand) s).mapError .crash := by
  have hall : ∀ stage : ProcStage, (whichOrder rand).contains stage = true := by
    intro stage
    rw [List.contains_iff_mem, (whichOrder_perm rand).mem_iff]
    cases stage <;> decide
  unfold randomCycle cycle
  rw [completeStages_eq]
  simp only [hall, Bool.or_true]
  cases runStages build (whichOrder rand) s with
  | error crash => rfl
  | ok s' => rfl

theorem randomLoop_eq (fuel : ℕ) (rands : ℕ → ℕ) (s : Machine) :
    randomLoop build fuel rands s =
      (runLoop build fuel (fun n ↦ whichOrder (rands n)) s).mapError .crash := by
  induction fuel generalizing rands s with
  | zero => rfl
  | succ fuel ih =>
    unfold randomLoop runLoop
    rw [randomCycle_eq]
    cases cycle build (whichOrder (rands 0)) s with
    | error crash => rfl
    | ok s' =>
      by_cases hrunning : s'.running = true
      · change (if s'.running = true then _ else _) = Except.mapError _ (if s'.running = true then _
          else _)
        rw [if_pos hrunning, if_pos hrunning, ih]
      · change (if s'.running = true then _ else _) = Except.mapError _ (if s'.running = true then _
          else _)
        rw [if_neg hrunning, if_neg hrunning]
        rfl

/-- The random build can end in exactly the ways in which the parallel build can when each call of a
stage function is one step. -/
theorem random_iff_parallel (build : Build) (cycle_max : ℕ) (GPR : ℕ → BitVec 64) (mem : Mem)
    (entry : BitVec 64) (x : Except RandomFault Machine) :
    (∃ rands, randomRunElf build cycle_max rands GPR mem entry = x) ↔
      ∃ y, Threads.EndsWith build cycle_max GPR mem entry y ∧ y.mapError .crash = x := by
  constructor
  · rintro ⟨rands, rfl⟩
    exact ⟨_, Threads.endsWith_runElf build cycle_max GPR mem entry _ fun n ↦ whichOrder_perm _,
      (randomLoop_eq _ _ _).symm⟩
  · rintro ⟨y, hends, rfl⟩
    obtain ⟨orders, horders, rfl⟩ := hends.loop
    choose rands hrands using fun n ↦ exists_whichOrder (horders n)
    refine ⟨rands, ?_⟩
    unfold randomRunElf
    rw [randomLoop_eq, funext hrands]
    rfl

end SystemEmulator
