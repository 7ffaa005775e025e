import SystemEmulator.Parallel.Exclusion
import SystemEmulator.Cycle.Run

/-!
# The parallel build as a loop

In every interleaving each thread calls its stage function once in each cycle, so that a run of the
threads does what the loop of the `RANDOM` build does when it calls the stages in the same orders.
-/

namespace SystemEmulator

open Relation

/-! ## The loop, one cycle after another -/

/-- `n` iterations of the loop, with the stages in some order in each of them. -/
def Cycles (build : Build) : ℕ → Machine → Machine → Prop
  | 0, s, s' => s = s'
  | n + 1, s, s' => ∃ t, Cycles build n s t ∧ AnyStep build t s'

/-- The loop ends with `x` for some orders of the stages. -/
def Ends (build : Build) (fuel : ℕ) (s : Machine) (x : Except Crash Machine) : Prop :=
  ∃ orders : ℕ → List ProcStage, (∀ n, (orders n).Perm defaultOrder) ∧
    runLoop build fuel orders s = x

section

variable {build : Build} {fuel n : ℕ} {s s' : Machine} {x : Except Crash Machine}
  {order : List ProcStage}

/-- The first cycle of a loop. -/
theorem Ends.of_cycle (horder : order.Perm defaultOrder) {orders : ℕ → List ProcStage}
    (horders : ∀ n, (orders n).Perm defaultOrder)
    (h : (cycle build order s >>= fun s' ↦
      if s'.running then runLoop build fuel orders s' else pure s') = x) :
    Ends build (fuel + 1) s x := by
  refine ⟨fun n ↦ if n = 0 then order else orders (n - 1), fun n ↦ ?_, ?_⟩
  · cases n with
    | zero => exact horder
    | succ n => exact horders n
  · rw [runLoop_succ]
    exact h

theorem Ends.head (hstep : AnyStep build s s') (hs' : s'.running = true)
    (h : Ends build fuel s' x) : Ends build (fuel + 1) s x := by
  obtain ⟨order, horder, -, hcycle⟩ := hstep
  obtain ⟨orders, horders, hx⟩ := h
  refine Ends.of_cycle horder horders ?_
  rw [hcycle]
  exact (if_pos hs').trans hx

/-- The loop ends in the cycle after which the status says so. -/
theorem Ends.of_stop (horder : order.Perm defaultOrder) (hcycle : cycle build order s = .ok s')
    (hs' : s'.running = false) : Ends build (fuel + 1) s (.ok s') := by
  refine Ends.of_cycle horder (fun _ ↦ List.Perm.refl defaultOrder) ?_
  rw [hcycle]
  exact if_neg (by rw [hs']; decide)

/-- The loop ends in its last cycle. -/
theorem Ends.of_last (horder : order.Perm defaultOrder) (hcycle : cycle build order s = .ok s') :
    Ends build 1 s (.ok s') := by
  refine Ends.of_cycle horder (fun _ ↦ List.Perm.refl defaultOrder) ?_
  rw [hcycle]
  exact ite_self _

theorem Ends.of_crash (horder : order.Perm defaultOrder) {crash : Crash}
    (hcycle : cycle build order s = .error crash) : Ends build (fuel + 1) s (.error crash) := by
  refine Ends.of_cycle horder (fun _ ↦ List.Perm.refl defaultOrder) ?_
  rw [hcycle]
  rfl

/-- A loop whose first iterations are these. -/
theorem Ends.of_cycles (h : Cycles build n s s') (hs' : s'.running = true)
    (hx : Ends build fuel s' x) : Ends build (n + fuel) s x := by
  induction n generalizing s' fuel with
  | zero =>
    rw [Nat.zero_add]
    exact h.symm ▸ hx
  | succ n ih =>
    obtain ⟨t, hcycles, hstep⟩ := h
    have hrunning : t.running = true := by
      obtain ⟨_, _, ht, _⟩ := hstep
      exact ht
    have hnext := ih hcycles hrunning (hx.head hstep hs')
    rwa [show n + (fuel + 1) = n + 1 + fuel by omega] at hnext

end

/-- Stages that have been called once each are the beginning of an order. -/
theorem exists_perm_append {done : List ProcStage} (h : done.Nodup) :
    ∃ rest, (done ++ rest).Perm defaultOrder := by
  refine ⟨defaultOrder.filter fun p ↦ !done.contains p, ?_⟩
  have hnodup : (done ++ defaultOrder.filter fun p ↦ !done.contains p).Nodup := by
    refine List.nodup_append.mpr ⟨h, List.Nodup.filter _ (by decide), ?_⟩
    rintro p hp q hq rfl
    simp only [List.mem_filter, Bool.not_eq_true', List.contains_eq_mem,
      decide_eq_false_iff_not] at hq
    exact hq.2 hp
  refine (List.perm_ext_iff_of_nodup hnodup (by decide)).mpr fun p ↦ ?_
  have hp : p ∈ defaultOrder := Threads.mem_stages p
  by_cases hdone : p ∈ done <;> simp [hdone, hp]

/-! ## Calls of the stage functions -/

def StagePC.calls (passed : ℕ) : StagePC → ℕ
  | .cycleEnd | .endWait _ => (passed + 1) / 2
  | _ => passed / 2

theorem StagePC.calls_arrival {pc : StagePC} {b : CycleBarrier} {wait : ℕ → StagePC}
    (h : pc.arrival = some (b, wait)) (g n : ℕ) : (wait g).calls n = pc.calls n := by
  cases pc <;> cases h <;> rfl

theorem StagePC.calls_departure {pc pc' : StagePC} {b : CycleBarrier} {g n : ℕ}
    (h : pc.departure = some (b, g, pc')) (hn : n % 2 = pc.parity) :
    pc'.calls (n + 1) = pc.calls n := by
  cases pc <;> cases h <;> simp only [StagePC.parity] at hn <;> simp only [StagePC.calls] <;> omega

def MainPC.cycling : MainPC → Bool
  | .create _ | .cycleStart | .startWait _ | .cycleEnd | .endWait _ | .correct => true
  | _ => false

namespace Threads

variable {build : Build} {cycle_max : ℕ} {t t' : Threads} {passed : Option ProcStage → ℕ} {r : ℕ}
  {p : ProcStage}

def calls (t : Threads) (passed : Option ProcStage → ℕ) (p : ProcStage) : ℕ :=
  (t.stage p).calls (passed (some p))

/-- Between the cycles that are complete and the present place of the threads: the stages `done`
have been called on the state `s'` in which the cycle has begun. -/
structure InCycle (build : Build) (cycle_max : ℕ) (s : Machine) (t : Threads)
    (passed : Option ProcStage → ℕ) (s' : Machine) (done : List ProcStage) : Prop where
  cycles : Cycles build t.num_instr s s'
  running : s'.running = true
  limit : t.num_instr < max 1 cycle_max
  machine : runStages build done s' = .ok t.machine
  nodup : done.Nodup
  calls : ∀ p, t.calls passed p = t.num_instr + if p ∈ done then 1 else 0

/-- What the threads have done so far. -/
structure History (build : Build) (cycle_max : ℕ) (s : Machine) (t : Threads)
    (passed : Option ProcStage → ℕ) : Prop where
  cycling : t.main.cycling = true → ∃ s' done, InCycle build cycle_max s t passed s' done
  ended : t.main.cycling = false → Ends build (max 1 cycle_max) s (.ok t.machine) ∧
    t.num_instr ≤ max 1 cycle_max ∧ ∀ p, t.calls passed p = t.num_instr

variable {s : Machine}

/-- Steps without a call leave the history alone. -/
theorem History.congr (h : History build cycle_max s t passed)
    {passed' : Option ProcStage → ℕ} (hcycling : t'.main.cycling = t.main.cycling)
    (hnum : t'.num_instr = t.num_instr) (hmachine : t'.machine = t.machine)
    (hcalls : ∀ p, t'.calls passed' p = t.calls passed p) :
    History build cycle_max s t' passed' := by
  refine ⟨fun hc ↦ ?_, fun hc ↦ ?_⟩
  · obtain ⟨s', done, hin⟩ := h.cycling (hcycling ▸ hc)
    refine ⟨s', done, hnum ▸ hin.cycles, hin.running, hnum ▸ hin.limit, hmachine ▸ hin.machine,
      hin.nodup, fun p ↦ ?_⟩
    rw [hcalls, hnum]
    exact hin.calls p
  · obtain ⟨hends, hle, hall⟩ := h.ended (hcycling ▸ hc)
    refine ⟨hmachine ▸ hends, hnum ▸ hle, fun p ↦ ?_⟩
    rw [hcalls, hnum]
    exact hall p

/-- A step of a thread leaves the calls of the other ones alone. -/
theorem calls_other (hstep : StageStep build p t t') {q : ProcStage} (hq : q ≠ p) :
    t'.calls (t.advance (some p) passed) q = t.calls passed q := by
  obtain ⟨-, -, -, hother, -⟩ := hstep.frame
  unfold calls
  rw [hother q hq]
  refine congrArg (StagePC.calls · _) ?_
  unfold advance
  split
  · exact Function.update_of_ne (by simpa using hq) _ _
  · rfl

/-- The call of a stage function is the next one of its cycle. -/
theorem History.call (h : History build cycle_max s t passed) (hinv : t.Inv passed r)
    (hp : t.stage p = .stage) : t.main.cycling = true ∧
      ∃ s' done, InCycle build cycle_max s t passed s' done ∧ p ∉ done := by
  have hparity := hinv.parity p
  have hr := hinv.stage_eq (p := p) (congrArg StagePC.ticket hp)
  have hmain := hinv.main
  have hlooping := hinv.calling p hp
  have hcalls : t.calls passed p = passed (some p) / 2 := by
    unfold calls
    rw [hp]
    rfl
  rw [hp] at hparity
  have hcycling : t.main.cycling = true := by
    cases hpc : t.main with
    | stop =>
      have hpar := hinv.parity_eq (p := p) (congrArg StagePC.ticket hp)
        (congrArg MainPC.ticket hpc)
      rw [hpc, hp] at hpar
      cases hpar
    | _ => first | rfl | (rw [hpc] at hlooping; cases hlooping)
  obtain ⟨s', done, hin⟩ := h.cycling hcycling
  refine ⟨hcycling, s', done, hin, fun hmem ↦ ?_⟩
  have hcount := hin.calls p
  rw [if_pos hmem, hcalls] at hcount
  -- `runElf` is at most one wait behind, and only while it waits
  have hbehind : r ≤ 2 * t.num_instr + 2 := by
    cases hticket : t.main.ticket with
    | none =>
      have hphase : t.main.phase ≤ 2 := by
        cases t.main <;> simp [MainPC.phase]
      have heq := hinv.main_eq hticket
      omega
    | some g =>
      have hphase : t.main.phase ≤ 1 := by
        revert hticket
        cases t.main <;> simp [MainPC.phase, MainPC.ticket]
      obtain ⟨-, hr'⟩ := hinv.inRound.passed_of_some (i := none) hticket
      simp only [parties] at hr'
      omega
  change passed (some p) % 2 = 1 at hparity
  omega

theorem runStages_append (build : Build) (done : List ProcStage) (p : ProcStage) (s : Machine) :
    runStages build (done ++ [p]) s = runStages build done s >>= fun s' ↦ runStage build s' p := by
  unfold runStages
  rw [List.foldlM_append]
  exact congrArg _ (funext fun s' ↦ bind_pure _)

theorem History.stageStep (h : History build cycle_max s t passed) (hinv : t.Inv passed r)
    (hstep : StageStep build p t t') :
    History build cycle_max s t' (t.advance (some p) passed) := by
  obtain ⟨hmain, hnum, -⟩ := hstep.frame
  have hother : ∀ q, q ≠ p → t'.calls (t.advance (some p) passed) q = t.calls passed q :=
    fun q hq ↦ calls_other hstep hq
  have hof : t'.machine = t.machine →
      (t'.stage p).calls (t.advance (some p) passed (some p)) = t.calls passed p →
        History build cycle_max s t' (t.advance (some p) passed) := by
    intro hmachine hself
    refine h.congr (congrArg MainPC.cycling hmain) hnum hmachine fun q ↦ ?_
    by_cases hq : q = p
    · exact hq ▸ hself
    · exact hother q hq
  cases hstep with
  | arrive b wait harrival =>
    obtain ⟨hnone, -⟩ := StagePC.arrival_spec harrival (t.barrier b).generation
    refine hof rfl ?_
    rw [advance_of_none (i := some p) hnone]
    change ((t.moveTo p _).stage p).calls _ = _
    rw [moveTo_stage]
    exact StagePC.calls_arrival harrival _ _
  | leave b ticket pc hdeparture hopen =>
    obtain ⟨hsome, -⟩ := StagePC.departure_spec hdeparture
    refine hof rfl ?_
    rw [advance_of_some (i := some p) hsome, Function.update_self, moveTo_stage]
    exact StagePC.calls_departure hdeparture (hinv.parity p)
  | test hpc =>
    refine hof rfl ?_
    rw [advance_of_none (i := some p) (congrArg StagePC.ticket hpc), moveTo_stage, calls, hpc]
    cases t.running_sim <;> rfl
  | call machine hpc hcall =>
    obtain ⟨hcycling, s', done, hin, hnew⟩ := h.call hinv hpc
    have hparity := hinv.parity p
    have hself : (StagePC.cycleEnd).calls (passed (some p)) = t.calls passed p + 1 := by
      rw [hpc] at hparity
      rw [calls, hpc]
      simp only [StagePC.calls, StagePC.parity] at hparity ⊢
      omega
    refine ⟨fun _ ↦ ⟨s', done ++ [p], hin.cycles, hin.running, hin.limit, ?_, ?_, fun q ↦ ?_⟩,
      fun hend ↦ ?_⟩
    · rw [runStages_append, hin.machine]
      exact hcall
    · exact List.nodup_append.mpr ⟨hin.nodup, List.nodup_singleton p, fun q hq q' hq' ↦ by
        rintro rfl
        exact hnew (List.mem_singleton.mp hq' ▸ hq)⟩
    · by_cases hq : q = p
      · subst hq
        change ((t.moveTo q .cycleEnd).stage q).calls _ = _
        rw [moveTo_stage, advance_of_none (i := some q) (congrArg StagePC.ticket hpc), hself,
          hin.calls q, if_neg hnew, if_pos (List.mem_append_right _ (List.mem_singleton_self q))]
        rfl
      · have hmem : q ∈ done ++ [p] ↔ q ∈ done := by
          simp [hq]
        rw [hother q hq, hin.calls q, if_congr hmem rfl rfl]
        rfl
    · exact absurd (hcycling.symm.trans hend) (by decide)

/-- Behind the second barrier of a cycle every stage has been called. -/
theorem InCycle.mem_done {s' : Machine} {done : List ProcStage}
    (h : InCycle build cycle_max s t passed s' done) (hinv : t.Inv passed r)
    (hmain : t.main = .correct) (p : ProcStage) : p ∈ done := by
  have hr := hinv.main_eq (congrArg MainPC.ticket hmain)
  have hparity := hinv.parity p
  have hcalls := h.calls p
  have hpos : t.num_instr + 1 ≤ t.calls passed p := by
    rw [hmain] at hr
    change 2 * t.num_instr + 2 = r at hr
    unfold Threads.calls
    cases hticket : (t.stage p).ticket with
    | none =>
      have heq := hinv.stage_eq hticket
      have hle : passed (some p) / 2 ≤ (t.stage p).calls (passed (some p)) := by
        cases t.stage p <;> simp only [StagePC.calls] <;> omega
      omega
    | some g =>
      obtain ⟨hle, hge⟩ := hinv.inRound.passed_of_some (i := some p) hticket
      simp only [parties] at hle hge
      revert hticket hparity
      cases t.stage p <;> simp only [StagePC.calls, StagePC.parity, StagePC.ticket] <;> intros <;>
        first | omega | (rename_i hnone; cases hnone)
  by_contra hp
  rw [if_neg hp] at hcalls
  omega

/-- The end of a cycle. -/
theorem History.correct (h : History build cycle_max s t passed) (hinv : t.Inv passed r)
    (hmain : t.main = .correct) :
    History build cycle_max s
      { t with
        machine := finishCycle build t.machine
        num_instr := t.num_instr + 1
        main := if (finishCycle build t.machine).running && decide (t.num_instr + 1 < cycle_max)
          then .cycleStart else .stop } passed := by
  obtain ⟨s', done, hin⟩ := h.cycling (by rw [hmain]; rfl)
  have hall := hin.mem_done hinv hmain
  have horder : done.Perm defaultOrder := (List.perm_ext_iff_of_nodup hin.nodup (by decide)).mpr
    fun p ↦ ⟨fun _ ↦ mem_stages p, fun _ ↦ hall p⟩
  have hcycle : cycle build done s' = .ok (finishCycle build t.machine) := by
    rw [cycle, hin.machine]
    rfl
  have hcalls : ∀ p, t.calls passed p = t.num_instr + 1 := by
    intro p
    rw [hin.calls p, if_pos (hall p)]
  cases hrunning : (finishCycle build t.machine).running &&
      decide (t.num_instr + 1 < cycle_max) with
  | true =>
    rw [Bool.and_eq_true, decide_eq_true_iff] at hrunning
    refine ⟨fun _ ↦ ⟨finishCycle build t.machine, [],
      ⟨s', hin.cycles, done, horder, hin.running, hcycle⟩, hrunning.1, ?_, rfl, List.nodup_nil,
      hcalls⟩, nofun⟩
    exact lt_max_of_lt_right hrunning.2
  | false =>
    have hlimit := hin.limit
    refine ⟨nofun, fun _ ↦ ⟨?_, hlimit, hcalls⟩⟩
    have hfuel : Ends build (max 1 cycle_max - t.num_instr) s'
        (.ok (finishCycle build t.machine)) := by
      cases hstop : (finishCycle build t.machine).running with
      | true =>
        have hlast : max 1 cycle_max - t.num_instr = 1 := by
          rw [hstop, Bool.true_and, decide_eq_false_iff_not] at hrunning
          omega
        rw [hlast]
        exact Ends.of_last horder hcycle
      | false =>
        obtain ⟨fuel, hfuel⟩ : ∃ fuel, max 1 cycle_max - t.num_instr = fuel + 1 :=
          ⟨max 1 cycle_max - t.num_instr - 1, by omega⟩
        rw [hfuel]
        exact Ends.of_stop horder hcycle hstop
    have hends := Ends.of_cycles hin.cycles hin.running hfuel
    rwa [show t.num_instr + (max 1 cycle_max - t.num_instr) = max 1 cycle_max by omega] at hends

theorem History.mainStep (h : History build cycle_max s t passed) (hinv : t.Inv passed r)
    (hstep : MainStep build cycle_max t t') :
    History build cycle_max s t' (t.advance none passed) := by
  have hadvance : ∀ p, t.advance none passed (some p) = passed (some p) := by
    intro p
    unfold advance
    split
    · exact Function.update_of_ne (Option.some_ne_none p) _ _
    · rfl
  have hcalls : t'.stage = t.stage →
      ∀ p, t'.calls (t.advance none passed) p = t.calls passed p := by
    intro hstage p
    rw [calls, hadvance, hstage]
    rfl
  cases hstep with
  | arrive b wait harrival =>
    refine h.congr ?_ rfl rfl (hcalls rfl)
    revert harrival
    cases t.main <;> rintro ⟨⟩ <;> rfl
  | leave b ticket pc hdeparture hopen =>
    refine h.congr ?_ rfl rfl (hcalls rfl)
    revert hdeparture
    cases t.main <;> rintro ⟨⟩ <;> rfl
  | create p stages hpc =>
    refine h.congr (by rw [hpc]; rfl) rfl rfl fun q ↦ ?_
    change ((t.moveTo p .born).stage q).calls _ = _
    rw [hadvance]
    by_cases hq : q = p
    · subst hq
      have hunborn := (hinv.unborn q).mpr (by rw [hpc]; exact List.mem_cons_self)
      rw [moveTo_stage, calls, hunborn]
      rfl
    · exact congrArg _ (Function.update_of_ne hq _ _)
  | created hpc => exact h.congr (by rw [hpc]; rfl) rfl rfl (hcalls rfl)
  | correct hpc =>
    rw [advance_of_none (i := none) (congrArg MainPC.ticket hpc)]
    exact h.correct hinv hpc
  | stop hpc => exact h.congr (by rw [hpc]; rfl) rfl rfl (hcalls rfl)
  | join p stages hpc hexit => exact h.congr (by rw [hpc]; rfl) rfl rfl (hcalls rfl)
  | joined hpc => exact h.congr (by rw [hpc]; rfl) rfl rfl (hcalls rfl)
  | destroy hpc => exact h.congr (by rw [hpc]; rfl) rfl rfl (hcalls rfl)

/-! ## Runs -/

variable {GPR : ℕ → BitVec 64} {mem : Mem} {entry : BitVec 64}

theorem history_init : History build cycle_max (initMachine GPR mem entry)
    (initThreads GPR mem entry) fun _ ↦ 0 :=
  ⟨fun _ ↦ ⟨_, [], rfl, initMachine_running GPR mem entry, Nat.lt_of_lt_of_le Nat.one_pos
    (le_max_left 1 cycle_max), rfl, List.nodup_nil, fun _ ↦ Nat.zero_div 2⟩, nofun⟩

theorem Reaches.history (h : Reaches build cycle_max GPR mem entry t) :
    ∃ passed r, t.Inv passed r ∧ History build cycle_max (initMachine GPR mem entry) t passed := by
  induction h with
  | refl => exact ⟨_, _, inv_init, history_init⟩
  | tail _ hstep ih =>
    obtain ⟨passed, r, hinv, hhistory⟩ := ih
    obtain ⟨i, hi⟩ := hstep
    obtain ⟨r', hinv'⟩ := hinv.next hi
    refine ⟨_, r', hinv', ?_⟩
    cases i with
    | none => exact hhistory.mainStep hinv (mainStep_of_step hi)
    | some p => exact hhistory.stageStep hinv (stageStep_of_step hi)

/-- What the threads can end with: the machine when `runElf` returns, or a crash in a stage. -/
inductive EndsWith (build : Build) (cycle_max : ℕ) (GPR : ℕ → BitVec 64) (mem : Mem)
    (entry : BitVec 64) : Except Crash Machine → Prop
  | returned (t : Threads) (h : Reaches build cycle_max GPR mem entry t)
      (hmain : t.main = .returned) : EndsWith build cycle_max GPR mem entry (.ok t.machine)
  | crashed (t : Threads) (i : Option ProcStage) (crash : Crash)
      (h : Reaches build cycle_max GPR mem entry t)
      (hstep : t.step build cycle_max i = some (.error crash)) :
      EndsWith build cycle_max GPR mem entry (.error crash)

/-- Only the call of a stage function can crash. -/
theorem call_of_error {i : Option ProcStage} {crash : Crash}
    (h : t.step build cycle_max i = some (.error crash)) :
    ∃ p, i = some p ∧ t.stage p = .stage ∧ runStage build t.machine p = .error crash := by
  cases i with
  | none =>
    obtain ⟨u, -, hu⟩ := Option.map_eq_some_iff.mp h
    cases hu
  | some p =>
    change stepStage build p t = _ at h
    rw [stepStage_eq, startStage] at h
    refine ⟨p, rfl, ?_⟩
    cases hpc : t.stage p with
    | stage =>
      rw [hpc] at h
      refine ⟨rfl, ?_⟩
      cases hcall : runStage build t.machine p with
      | error e =>
        rw [hcall] at h
        exact congrArg _ (Except.error.inj (Option.some.inj h))
      | ok machine =>
        rw [hcall] at h
        cases Option.some.inj h
    | _ =>
      simp only [hpc] at h
      first
        | cases h
        | (split at h <;> cases h)

/-- Whatever the order of its steps, the parallel build ends as the loop does for some order of the
stages in each cycle. -/
theorem EndsWith.loop {x : Except Crash Machine} (h : EndsWith build cycle_max GPR mem entry x) :
    ∃ orders : ℕ → List ProcStage, (∀ n, (orders n).Perm defaultOrder) ∧
      runElf build cycle_max orders GPR mem entry = x := by
  cases h with
  | returned t hreach hmain =>
    obtain ⟨passed, r, -, hhistory⟩ := hreach.history
    exact (hhistory.ended (by rw [hmain]; rfl)).1
  | crashed t i crash hreach hstep =>
    obtain ⟨passed, r, hinv, hhistory⟩ := hreach.history
    obtain ⟨p, rfl, hp, hcall⟩ := call_of_error hstep
    obtain ⟨-, s', done, hin, hnew⟩ := hhistory.call hinv hp
    have hnodup : (done ++ [p]).Nodup := by
      refine List.nodup_append.mpr ⟨hin.nodup, List.nodup_singleton p, fun q hq q' hq' ↦ ?_⟩
      rintro rfl
      exact hnew (List.mem_singleton.mp hq' ▸ hq)
    obtain ⟨rest, hrest⟩ := exists_perm_append hnodup
    have hcrash : cycle build (done ++ [p] ++ rest) s' = .error crash := by
      have hstages : runStages build (done ++ [p]) s' = .error crash := by
        rw [runStages_append, hin.machine]
        exact hcall
      unfold cycle
      rw [runStages, List.foldlM_append]
      change runStages build (done ++ [p]) s' >>= _ >>= _ = _
      rw [hstages]
      rfl
    have hlimit := hin.limit
    obtain ⟨fuel, hfuel⟩ : ∃ fuel, max 1 cycle_max = t.num_instr + (fuel + 1) :=
      ⟨max 1 cycle_max - t.num_instr - 1, by omega⟩
    have hlast : Ends build (fuel + 1) s' (.error crash) := Ends.of_crash hrest hcrash
    have hends := Ends.of_cycles hin.cycles hin.running hlast
    rw [← hfuel] at hends
    exact hends

end Threads

end SystemEmulator
