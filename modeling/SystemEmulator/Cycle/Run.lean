import SystemEmulator.Cycle.StageOrder
import Mathlib.Logic.Relation

/-!
# Runs of the processor loop

The loop of `runElf` as a transition relation on the states in which an iteration starts.
-/

namespace SystemEmulator

open Relation

/-- One iteration of the loop with the stages called in the given order. -/
def Step (build : Build) (order : List ProcStage) (s s' : Machine) : Prop :=
  s.running = true ∧ cycle build order s = .ok s'

theorem Step.unique {build : Build} {order : List ProcStage} {s a b : Machine}
    (h : Step build order s a) (h' : Step build order s b) : a = b :=
  Except.ok.inj (h.2.symm.trans h'.2)

/-- One iteration with the stages called in some order, as the `RANDOM` build does. -/
def AnyStep (build : Build) (s s' : Machine) : Prop :=
  ∃ order : List ProcStage, order.Perm defaultOrder ∧ Step build order s s'

/-- The states of a run whose stages are called in the default order. -/
def Run (build : Build) : Machine → Machine → Prop :=
  ReflTransGen (Step build defaultOrder)

/-- The states of all runs, whatever the order of the stages in each cycle. -/
def Reachable (build : Build) : Machine → Machine → Prop :=
  ReflTransGen (AnyStep build)

theorem Run.reachable {build : Build} {s s' : Machine} (h : Run build s s') :
    Reachable build s s' := by
  induction h with
  | refl => exact ReflTransGen.refl
  | tail _ hstep ih => exact ih.tail ⟨defaultOrder, List.Perm.refl _, hstep⟩

theorem initMachine_running (GPR : ℕ → BitVec 64) (mem : Mem) (entry : BitVec 64) :
    (initMachine GPR mem entry).running = true := rfl

/-- The memory that the loader leaves for a program whose text segment holds `words`. -/
def textImage (words : List (BitVec 32)) : Mem :=
  { initMem none (fun _ ↦ 0) with
    ptable := words.zipIdx.foldl (fun pt word ↦
      memWriteLE pt (segStarts .text + BitVec.ofNat 64 (4 * word.2)) (word.1.setWidth 64) 4)
      Ptable.empty }

/-! ## The loop -/

theorem runLoop_succ (build : Build) (fuel : ℕ) (orders : ℕ → List ProcStage) (s : Machine) :
    runLoop build (fuel + 1) orders s =
      cycle build (orders 0) s >>= fun s' ↦
        if s'.running then runLoop build fuel (fun n ↦ orders (n + 1)) s' else pure s' := rfl

theorem runLoop_succ_of_cycle {build : Build} {orders : ℕ → List ProcStage} {s s' : Machine}
    (hcycle : cycle build (orders 0) s = .ok s') (fuel : ℕ) :
    runLoop build (fuel + 1) orders s =
      if s'.running then runLoop build fuel (fun n ↦ orders (n + 1)) s' else .ok s' := by
  rw [runLoop_succ, hcycle]
  rfl

/-- The iterations of a loop form a chain. -/
theorem runLoop_chain {build : Build} {R : Machine → Machine → Prop} {fuel : ℕ}
    {orders : ℕ → List ProcStage} (hR : ∀ n a b, Step build (orders n) a b → R a b)
    {s s' : Machine} (hs : s.running = true) (h : runLoop build fuel orders s = .ok s') :
    ReflTransGen R s s' := by
  induction fuel generalizing s orders with
  | zero =>
    cases h
    exact ReflTransGen.refl
  | succ fuel ih =>
    rw [runLoop_succ] at h
    cases hcycle : cycle build (orders 0) s with
    | error crash => rw [hcycle] at h; cases h
    | ok t =>
      have hstep : R s t := hR 0 s t ⟨hs, hcycle⟩
      rw [hcycle] at h
      by_cases ht : t.running = true
      · exact ReflTransGen.head hstep (ih (fun n ↦ hR (n + 1)) ht
          (by simpa [bind, Except.bind, ht] using h))
      · have heq : t = s' := by simpa [bind, Except.bind, ht, pure, Except.pure] using h
        exact heq ▸ ReflTransGen.single hstep

/-- The loop ends after one last iteration. -/
theorem runLoop_reachable {build : Build} {fuel : ℕ} {orders : ℕ → List ProcStage}
    (horders : ∀ n, (orders n).Perm defaultOrder) {s s' : Machine} (hs : s.running = true)
    (h : runLoop build fuel orders s = .ok s') : Reachable build s s' :=
  runLoop_chain (fun n _ _ hstep ↦ ⟨orders n, horders n, hstep⟩) hs h

theorem runLoop_run {build : Build} {fuel : ℕ} {s s' : Machine} (hs : s.running = true)
    (h : runLoop build fuel (fun _ ↦ defaultOrder) s = .ok s') : Run build s s' :=
  runLoop_chain (fun _ _ _ hstep ↦ hstep) hs h

/-- A loop in the default order that ends before its cycle limit ends because the status says
so, after one last iteration. -/
theorem runLoop_default {build : Build} {fuel : ℕ} {s s' : Machine} (hs : s.running = true)
    (h : runLoop build fuel (fun _ ↦ defaultOrder) s = .ok s') (hs' : s'.running = false) :
    ∃ t, Run build s t ∧ Step build defaultOrder t s' := by
  induction fuel generalizing s with
  | zero =>
    cases h
    rw [hs] at hs'
    cases hs'
  | succ fuel ih =>
    rw [runLoop_succ] at h
    cases hcycle : cycle build defaultOrder s with
    | error crash => rw [hcycle] at h; cases h
    | ok t =>
      have hstep : Step build defaultOrder s t := ⟨hs, hcycle⟩
      rw [hcycle] at h
      by_cases ht : t.running = true
      · obtain ⟨u, hrun, hlast⟩ := ih ht (by simpa [bind, Except.bind, ht] using h)
        exact ⟨u, ReflTransGen.head hstep hrun, hlast⟩
      · have heq : t = s' := by simpa [bind, Except.bind, ht, pure, Except.pure] using h
        exact ⟨s, ReflTransGen.refl, heq ▸ hstep⟩

/-- Once a run has ended, every larger cycle limit gives the same result. -/
theorem runLoop_of_run {build : Build} {s t s' : Machine} (hrun : Run build s t)
    (hlast : Step build defaultOrder t s') (hs' : s'.running = false) :
    ∃ N, ∀ fuel, N ≤ fuel → runLoop build fuel (fun _ ↦ defaultOrder) s = .ok s' := by
  induction hrun using ReflTransGen.head_induction_on with
  | refl =>
    refine ⟨1, fun fuel hfuel ↦ ?_⟩
    obtain ⟨fuel, rfl⟩ : ∃ k, fuel = k + 1 := ⟨fuel - 1, by omega⟩
    rw [runLoop_succ, hlast.2]
    simp [bind, Except.bind, hs', pure, Except.pure]
  | @head a b hstep hrest ih =>
    obtain ⟨N, hN⟩ := ih
    refine ⟨N + 1, fun fuel hfuel ↦ ?_⟩
    obtain ⟨fuel, rfl⟩ : ∃ k, fuel = k + 1 := ⟨fuel - 1, by omega⟩
    have hb : b.running = true := by
      cases hrest using ReflTransGen.head_induction_on with
      | refl => exact hlast.1
      | head hstep' _ => exact hstep'.1
    rw [runLoop_succ, hstep.2]
    simpa [bind, Except.bind, hb] using hN fuel (by omega)

/-- A loop that has ended within some cycle limit gives the same result for every larger one. -/
theorem runLoop_of_ended {build : Build} {fuel : ℕ} {s s' : Machine} (hs : s.running = true)
    (h : runLoop build fuel (fun _ ↦ defaultOrder) s = .ok s') (hs' : s'.running = false) :
    ∃ N, ∀ fuel, N ≤ fuel → runLoop build fuel (fun _ ↦ defaultOrder) s = .ok s' := by
  obtain ⟨t, hrun, hlast⟩ := runLoop_default hs h hs'
  exact runLoop_of_run hrun hlast hs'

/-- What every large cycle limit gives is what one limit gives within which the loop has ended. -/
theorem runElf_unique {build : Build} {fuel N : ℕ} {GPR : ℕ → BitVec 64} {mem : Mem}
    {entry : BitVec 64} {s s' : Machine}
    (h : runLoop build fuel (fun _ ↦ defaultOrder) (initMachine GPR mem entry) = .ok s)
    (hs : s.running = false)
    (h' : ∀ cycle_max, N ≤ cycle_max →
      runElf build cycle_max (fun _ ↦ defaultOrder) GPR mem entry = .ok s') : s' = s := by
  obtain ⟨N', hN'⟩ := runLoop_of_ended (initMachine_running GPR mem entry) h hs
  have hsame := (h' (max N N') (le_max_left N N')).symm.trans
    (hN' (max 1 (max N N')) ((le_max_right N N').trans (le_max_right 1 _)))
  exact Except.ok.inj hsame

/-! ## Checking a run -/

/-- Evaluates `p` in every state in which an iteration of a run of at most `fuel` cycles starts. -/
def checkRun (build : Build) (p : Machine → Bool) : ℕ → Machine → Bool
  | 0, _ => false
  | fuel + 1, s =>
      !s.running ||
        (p s && match cycle build defaultOrder s with
          | .ok s' => checkRun build p fuel s'
          | .error _ => true)

/-- A successful check covers the whole run. -/
theorem of_checkRun {build : Build} {p : Machine → Bool} {fuel : ℕ} {s t : Machine}
    (hcheck : checkRun build p fuel s = true) (hrun : Run build s t) (ht : t.running = true) :
    p t = true := by
  induction hrun using ReflTransGen.head_induction_on generalizing fuel with
  | refl =>
    cases fuel with
    | zero => cases hcheck
    | succ fuel =>
      simp only [checkRun, ht, Bool.not_true, Bool.false_or, Bool.and_eq_true] at hcheck
      exact hcheck.1
  | head hstep hrest ih =>
    cases fuel with
    | zero => cases hcheck
    | succ fuel =>
      simp only [checkRun, hstep.1, Bool.not_true, Bool.false_or, Bool.and_eq_true] at hcheck
      rw [hstep.2] at hcheck
      exact ih hcheck.2

/-- A checked run is one whose steps all start in states with the property. -/
theorem Run.checked {build : Build} {p : Machine → Bool} {fuel : ℕ} {s t : Machine}
    (hcheck : checkRun build p fuel s = true) (hrun : Run build s t) :
    ReflTransGen (fun a b ↦ AnyStep build a b ∧ p a = true) s t := by
  induction hrun with
  | refl => exact ReflTransGen.refl
  | tail hrun hstep ih =>
    exact ih.tail ⟨⟨defaultOrder, List.Perm.refl _, hstep⟩, of_checkRun hcheck hrun hstep.1⟩

end SystemEmulator
