import SystemEmulator.Cycle.Orders
import SystemEmulator.Library.Result
import SystemEmulator.Parallel.Refinement

/-!
# Every order of the stages is one of the threads

Whatever orders of the stages the loop of the `RANDOM` build picks, some order of the steps of the
threads has the same effect.  In it the threads go through each part of a cycle one after another.
-/

namespace SystemEmulator

open Relation Result

namespace Threads

variable {build : Build} {cycle_max : ℕ} {t t' : Threads} {p : ProcStage}

/-! ## Steps -/

theorem step_of_stageStep (cycle_max : ℕ) (h : StageStep build p t t') :
    t.step build cycle_max (some p) = some (.ok t') := by
  change stepStage build p t = _
  rw [stepStage_eq, startStage]
  cases h with
  | arrive b wait harrival =>
    revert harrival
    cases t.stage p <;> rintro ⟨⟩ <;> rfl
  | leave b ticket pc hdeparture hopen =>
    revert hdeparture
    cases t.stage p <;> rintro ⟨⟩ <;> exact if_pos hopen
  | call machine hpc hcall =>
    rw [hpc]
    simp only [hcall]
    rfl
  | test hpc => rw [hpc]

theorem step_of_mainStep (h : MainStep build cycle_max t t') :
    t.step build cycle_max none = some (.ok t') := by
  refine congrArg (Option.map Except.ok) (?_ : stepMain build cycle_max t = some t')
  rw [stepMain]
  cases h with
  | arrive b wait harrival =>
    revert harrival
    cases t.main <;> rintro ⟨⟩ <;> rfl
  | leave b ticket pc hdeparture hopen =>
    revert hdeparture
    cases t.main <;> rintro ⟨⟩ <;> exact if_pos hopen
  | join p stages hpc hexit =>
    rw [hpc]
    exact if_pos hexit
  | create p stages hpc | created hpc | correct hpc | stop hpc | joined hpc | destroy hpc =>
    rw [hpc]

/-! ## Parts of a cycle -/

/-- The places of the threads when those of the stages in `done` have moved. -/
def moved (done : List ProcStage) (after before : StagePC) : ProcStage → StagePC :=
  fun p ↦ if p ∈ done then after else before

def barriers (cycle_start cycle_end : Barrier) : CycleBarrier → Barrier
  | .cycle_start => cycle_start
  | .cycle_end => cycle_end

theorem moved_nil (after before : StagePC) : moved [] after before = fun _ ↦ before :=
  funext fun _ ↦ if_neg List.not_mem_nil

theorem moved_all {done : List ProcStage} (h : ∀ p, p ∈ done) (after before : StagePC) :
    moved done after before = fun _ ↦ after :=
  funext fun p ↦ if_pos (h p)

theorem moved_append (done : List ProcStage) (p : ProcStage) (after before : StagePC) :
    Function.update (moved done after before) p after = moved (done ++ [p]) after before := by
  funext q
  unfold moved
  by_cases hq : q = p
  · subst hq
    simp
  · simp [hq]

theorem moved_of_not_mem {done : List ProcStage} (h : p ∉ done) (after before : StagePC) :
    moved done after before p = before := if_neg h

@[simp]
theorem update_cycle_start (a b c : Barrier) :
    Function.update (barriers a b) .cycle_start c = barriers c b := by
  funext x
  cases x <;> rfl

@[simp]
theorem update_cycle_end (a b c : Barrier) :
    Function.update (barriers a b) .cycle_end c = barriers a c := by
  funext x
  cases x <;> rfl

/-- The threads of the stages make one step each, in the given order. -/
theorem steps_in_order {P : List ProcStage → Threads} {order : List ProcStage}
    (hnodup : order.Nodup)
    (hstep : ∀ done p, p ∉ done → (done ++ [p]) <+: order →
      StageStep build p (P done) (P (done ++ [p]))) :
    ReflTransGen (Next build cycle_max) (P []) (P order) := by
  induction order using List.reverseRecOn with
  | nil => exact ReflTransGen.refl
  | append_singleton done p ih =>
    obtain ⟨hdone, -, hp⟩ := List.nodup_append.mp hnodup
    have hlast := hstep done p (fun hmem ↦ hp p hmem p (List.mem_singleton_self p) rfl)
      (List.prefix_refl _)
    refine ReflTransGen.tail (ih hdone fun done' p' hp' hpre ↦ ?_)
      ⟨some p, step_of_stageStep cycle_max hlast⟩
    exact hstep done' p' hp' (hpre.trans (List.prefix_append done [p]))

section

variable {b : CycleBarrier} {before after : StagePC} {order : List ProcStage}

theorem length_lt_six {done : List ProcStage} (hall : order.Perm defaultOrder)
    (h : (done ++ [p]) <+: order) : done.length + 1 ≠ 6 := by
  have hle := h.length_le
  rw [List.length_append, hall.length_eq] at hle
  change done.length + 1 ≤ 5 at hle
  omega

/-- The threads of the stages arrive at a barrier. -/
theorem arrive_all (hall : order.Perm defaultOrder) (hstage : t.stage = fun _ ↦ before)
    {wait : ℕ → StagePC} (h : before.arrival = some (b, wait)) {g : ℕ}
    (hb : t.barrier b = ⟨0, g⟩) :
    ReflTransGen (Next build cycle_max) t
      { t with barrier := Function.update t.barrier b ⟨5, g⟩, stage := fun _ ↦ wait g } := by
  let P (done : List ProcStage) : Threads :=
    { t with
      barrier := Function.update t.barrier b ⟨done.length, g⟩
      stage := moved done (wait g) before }
  have hfirst : P [] = t := by
    have hbarrier : Function.update t.barrier b ⟨0, g⟩ = t.barrier := by
      rw [← hb, Function.update_eq_self]
    simp only [P, List.length_nil, hbarrier, moved_nil, ← hstage]
  have hlast : P order =
      { t with barrier := Function.update t.barrier b ⟨5, g⟩, stage := fun _ ↦ wait g } := by
    simp only [P, moved_all fun p ↦ hall.mem_iff.mpr (mem_stages p), hall.length_eq]
    rfl
  have hrun : ReflTransGen (Next build cycle_max) (P []) (P order) := by
    refine steps_in_order (hall.nodup_iff.mpr (by decide)) fun done p hp hpre ↦ ?_
    have hpc : ((P done).stage p).arrival = some (b, wait) := by
      rw [← h]
      exact congrArg _ (moved_of_not_mem hp _ _)
    have hstep : StageStep build p (P done) _ := .arrive b wait hpc
    have hnext : ((P done).moveTo p (wait ((P done).barrier b).generation)).arrive b =
        P (done ++ [p]) := by
      simp only [P, moveTo, Threads.arrive, Function.update_self, Function.update_idem,
        moved_append, Barrier.arrive, if_neg (length_lt_six hall hpre), List.length_append]
      rfl
    rwa [hnext] at hstep
  rwa [hfirst, hlast] at hrun

/-- The threads of the stages leave an open barrier. -/
theorem leave_all (hall : order.Perm defaultOrder) (hstage : t.stage = fun _ ↦ before) {g : ℕ}
    (h : before.departure = some (b, g, after)) (hopen : (t.barrier b).opened g = true) :
    ReflTransGen (Next build cycle_max) t { t with stage := fun _ ↦ after } := by
  let P (done : List ProcStage) : Threads := { t with stage := moved done after before }
  have hfirst : P [] = t := by
    simp only [P, moved_nil, ← hstage]
  have hlast : P order = { t with stage := fun _ ↦ after } := by
    simp only [P, moved_all fun p ↦ hall.mem_iff.mpr (mem_stages p)]
  have hrun : ReflTransGen (Next build cycle_max) (P []) (P order) := by
    refine steps_in_order (hall.nodup_iff.mpr (by decide)) fun done p hp _ ↦ ?_
    have hpc : ((P done).stage p).departure = some (b, g, after) := by
      rw [← h]
      exact congrArg _ (moved_of_not_mem hp _ _)
    have hstep : StageStep build p (P done) _ := .leave b g after hpc hopen
    have hnext : (P done).moveTo p after = P (done ++ [p]) := by
      simp only [P, moveTo, moved_append]
    rwa [hnext] at hstep
  rwa [hfirst, hlast] at hrun

/-- The threads of the stages read `running_sim`. -/
theorem test_all (hall : order.Perm defaultOrder) (hstage : t.stage = fun _ ↦ .test) :
    ReflTransGen (Next build cycle_max) t
      { t with stage := fun _ ↦ if t.running_sim then .stage else .exited } := by
  let P (done : List ProcStage) : Threads :=
    { t with stage := moved done (if t.running_sim then .stage else .exited) .test }
  have hfirst : P [] = t := by
    simp only [P, moved_nil, ← hstage]
  have hlast : P order = { t with stage := fun _ ↦ if t.running_sim then .stage else .exited } := by
    simp only [P, moved_all fun p ↦ hall.mem_iff.mpr (mem_stages p)]
  have hrun : ReflTransGen (Next build cycle_max) (P []) (P order) := by
    refine steps_in_order (hall.nodup_iff.mpr (by decide)) fun done p hp _ ↦ ?_
    have hstep : StageStep build p (P done) _ := .test (moved_of_not_mem hp _ _)
    have hnext : (P done).moveTo p (if (P done).running_sim then .stage else .exited) =
        P (done ++ [p]) := by
      simp only [P, moveTo, moved_append]
    rwa [hnext] at hstep
  rwa [hfirst, hlast] at hrun

/-- The threads call their stage functions in the order `done`. -/
theorem call_all {done : List ProcStage} (hnodup : done.Nodup)
    (hstage : t.stage = fun _ ↦ .stage) {machine : Machine}
    (h : runStages build done t.machine = .ok machine) :
    ReflTransGen (Next build cycle_max) t
      { t with machine := machine, stage := moved done .cycleEnd .stage } := by
  induction done using List.reverseRecOn generalizing machine with
  | nil =>
    obtain rfl := Except.ok.inj h
    rw [moved_nil, ← hstage]
  | append_singleton done p ih =>
    obtain ⟨hdone, -, hp⟩ := List.nodup_append.mp hnodup
    rw [runStages_append] at h
    obtain ⟨before, hbefore, hcall⟩ := bind_eq_ok.mp h
    have hstep : StageStep build p
        { t with machine := before, stage := moved done .cycleEnd .stage } _ :=
      .call machine (moved_of_not_mem (fun hmem ↦ hp p hmem p
        (List.mem_singleton_self p) rfl) _ _) hcall
    refine (ih hdone hbefore).tail ⟨some p, ?_⟩
    rw [step_of_stageStep cycle_max hstep]
    simp only [moveTo, moved_append]

/-- All six threads meet at a barrier. -/
theorem meet (hall : order.Perm defaultOrder) (hstage : t.stage = fun _ ↦ before)
    {wait : ℕ → StagePC} {g : ℕ} (harrival : before.arrival = some (b, wait))
    (hdeparture : (wait g).departure = some (b, g, after)) {waitMain : ℕ → MainPC}
    {afterMain : MainPC} (hmain : t.main.arrival = some (b, waitMain))
    (hmain' : (waitMain g).departure = some (b, g, afterMain)) (hb : t.barrier b = ⟨0, g⟩) :
    ReflTransGen (Next build cycle_max) t
      { t with
        barrier := Function.update t.barrier b ⟨0, g + 1⟩
        main := afterMain
        stage := fun _ ↦ after } := by
  have harrive : ReflTransGen (Next build cycle_max) t
      { t with barrier := Function.update t.barrier b ⟨5, g⟩, stage := fun _ ↦ wait g } :=
    arrive_all hall hstage harrival hb
  have hlast : Next build cycle_max
      { t with barrier := Function.update t.barrier b ⟨5, g⟩, stage := fun _ ↦ wait g }
      { t with
        barrier := Function.update t.barrier b ⟨0, g + 1⟩
        main := waitMain g
        stage := fun _ ↦ wait g } := by
    have hstep : MainStep build cycle_max
        { t with barrier := Function.update t.barrier b ⟨5, g⟩, stage := fun _ ↦ wait g } _ :=
      .arrive b waitMain hmain
    simp only [Threads.arrive, Function.update_self, Function.update_idem] at hstep
    exact ⟨none, step_of_mainStep hstep⟩
  have hopen : (Function.update t.barrier b ⟨0, g + 1⟩ b).opened g = true := by
    rw [Function.update_self]
    exact decide_eq_true (Nat.lt_succ_self g)
  have hreturn : Next build cycle_max
      { t with
        barrier := Function.update t.barrier b ⟨0, g + 1⟩
        main := waitMain g
        stage := fun _ ↦ wait g }
      { t with
        barrier := Function.update t.barrier b ⟨0, g + 1⟩
        main := afterMain
        stage := fun _ ↦ wait g } :=
    ⟨none, step_of_mainStep (.leave b g afterMain hmain' hopen)⟩
  exact ((harrive.tail hlast).tail hreturn).trans (leave_all hall rfl hdeparture hopen)

end

/-! ## Cycles -/

/-- Where the threads of the stages are before their wait for cycle `n`. -/
def startPC (n : ℕ) : StagePC := if n = 0 then .born else .cycleStart

/-- All threads are between two cycles, `n` of which are complete. -/
def between (n : ℕ) (machine : Machine) (main : MainPC) (pc : StagePC) : Threads :=
  ⟨machine, n, true, barriers ⟨0, n⟩ ⟨0, n⟩, main, fun _ ↦ pc⟩

def inside (n : ℕ) (machine : Machine) (stage : ProcStage → StagePC) : Threads :=
  ⟨machine, n, true, barriers ⟨0, n + 1⟩ ⟨0, n⟩, .cycleEnd, stage⟩

variable {n : ℕ} {machine machine' : Machine} {order : List ProcStage}

/-- A cycle begins. -/
theorem enter_cycle (hall : order.Perm defaultOrder) :
    ReflTransGen (Next build cycle_max) (between n machine .cycleStart (startPC n))
      (inside n machine fun _ ↦ .stage) := by
  cases n with
  | zero =>
    have hmeet : ReflTransGen (Next build cycle_max) (between 0 machine .cycleStart .born) _ :=
      meet (b := .cycle_start) (g := 0) hall rfl rfl rfl rfl rfl rfl
    simp only [between, update_cycle_start] at hmeet
    exact hmeet
  | succ n =>
    have hmeet : ReflTransGen (Next build cycle_max)
        (between (n + 1) machine .cycleStart .cycleStart) _ :=
      meet (b := .cycle_start) (g := n + 1) hall rfl rfl rfl rfl rfl rfl
    simp only [between, update_cycle_start] at hmeet
    exact hmeet.trans (test_all hall rfl)

/-- A cycle ends. -/
theorem leave_cycle (hall : order.Perm defaultOrder) :
    ReflTransGen (Next build cycle_max) (inside n machine fun _ ↦ .cycleEnd)
      (between (n + 1) (finishCycle build machine)
        (if (finishCycle build machine).running && decide (n + 1 < cycle_max) then .cycleStart
          else .stop) .cycleStart) := by
  have hmeet : ReflTransGen (Next build cycle_max) (inside n machine fun _ ↦ .cycleEnd) _ :=
    meet (b := .cycle_end) (g := n) hall rfl rfl rfl rfl rfl rfl
  simp only [inside, update_cycle_end] at hmeet
  exact hmeet.tail ⟨none, step_of_mainStep (.correct rfl)⟩

/-- One cycle with the stages in the given order. -/
theorem run_cycle (hall : order.Perm defaultOrder) (h : cycle build order machine = .ok machine') :
    ReflTransGen (Next build cycle_max) (between n machine .cycleStart (startPC n))
      (between (n + 1) machine'
        (if machine'.running && decide (n + 1 < cycle_max) then .cycleStart else .stop)
        .cycleStart) := by
  obtain ⟨s, hstages, hfinish⟩ := bind_eq_ok.mp h
  obtain rfl := Except.ok.inj hfinish
  have hcall : ReflTransGen (Next build cycle_max) (inside n machine fun _ ↦ .stage) _ :=
    call_all (hall.nodup_iff.mpr (by decide)) rfl hstages
  rw [moved_all fun p ↦ hall.mem_iff.mpr (mem_stages p)] at hcall
  exact ((enter_cycle hall).trans hcall).trans (leave_cycle hall)

/-- A stage function crashes. -/
theorem crash_cycle (hall : order.Perm defaultOrder) {crash : Crash}
    (h : cycle build order machine = .error crash) : ∃ t i, ReflTransGen (Next build cycle_max)
      (between n machine .cycleStart (startPC n)) t ∧
        t.step build cycle_max i = some (.error crash) := by
  have hstages : runStages build order machine = .error crash := by
    cases hs : runStages build order machine with
    | error e =>
      rw [cycle, hs] at h
      exact congrArg _ (Except.error.inj h)
    | ok s =>
      rw [cycle, hs] at h
      cases h
  -- the calls before the one that crashes
  obtain ⟨done, p, rest, s, horder, hdone, hcall⟩ : ∃ done p rest s, order = done ++ p :: rest ∧
      runStages build done machine = .ok s ∧ runStage build s p = .error crash := by
    clear h hall
    induction order using List.reverseRecOn with
    | nil => cases hstages
    | append_singleton done p ih =>
      rw [runStages_append] at hstages
      cases hdone : runStages build done machine with
      | ok s =>
        rw [hdone] at hstages
        exact ⟨done, p, [], s, rfl, hdone, hstages⟩
      | error e =>
        rw [hdone] at hstages
        obtain rfl := Except.error.inj hstages
        obtain ⟨done', p', rest, s, rfl, hs⟩ := ih hdone
        exact ⟨done', p', rest ++ [p], s, by rw [List.append_assoc, List.cons_append], hs⟩
  have hnodup : order.Nodup := hall.nodup_iff.mpr (by decide)
  rw [horder] at hnodup
  obtain ⟨hdone', -, hp⟩ := List.nodup_append.mp hnodup
  have hrun : ReflTransGen (Next build cycle_max) (inside n machine fun _ ↦ .stage)
      (inside n s (moved done .cycleEnd .stage)) := call_all hdone' rfl hdone
  refine ⟨inside n s (moved done .cycleEnd .stage), some p, (enter_cycle hall).trans hrun, ?_⟩
  change stepStage build p _ = _
  have hpc : (inside n s (moved done .cycleEnd .stage)).stage p = .stage :=
    moved_of_not_mem (fun hmem ↦ hp p hmem p List.mem_cons_self rfl) _ _
  rw [stepStage_eq, startStage, hpc]
  change some ((runStage build s p).map _) = _
  rw [hcall]
  rfl

/-! ## The begin and the end of a run -/

/-- `runElf` creates the threads. -/
theorem create_all (stages : List ProcStage) (hmain : t.main = .create stages) :
    ReflTransGen (Next build cycle_max) t
      { t with main := .cycleStart, stage := fun p ↦ if p ∈ stages then .born else t.stage p } := by
  induction stages generalizing t with
  | nil =>
    have hstage : (fun p ↦ if p ∈ [] then StagePC.born else t.stage p) = t.stage :=
      funext fun p ↦ if_neg List.not_mem_nil
    rw [hstage]
    exact ReflTransGen.single ⟨none, step_of_mainStep (.created hmain)⟩
  | cons p stages ih =>
    have hrest := ih (t := { t.moveTo p .born with main := .create stages }) rfl
    refine ReflTransGen.head ⟨none, step_of_mainStep (.create p stages hmain)⟩ ?_
    have hstage : (fun q ↦ if q ∈ stages then StagePC.born else (t.moveTo p .born).stage q) =
        fun q ↦ if q ∈ p :: stages then .born else t.stage q := by
      funext q
      by_cases hq : q = p
      · subst hq
        simp [moveTo_stage]
      · simp [moveTo, hq]
    rw [← hstage]
    exact hrest

/-- `runElf` joins threads that have ended. -/
theorem join_all (stages : List ProcStage) (hmain : t.main = .join stages)
    (hexited : ∀ p, t.stage p = .exited) :
    ReflTransGen (Next build cycle_max) t { t with main := .returned } := by
  induction stages generalizing t with
  | nil =>
    have hdestroy : Next build cycle_max t { t with main := .destroy } :=
      ⟨none, step_of_mainStep (.joined hmain)⟩
    exact (ReflTransGen.single hdestroy).tail ⟨none, step_of_mainStep (.destroy rfl)⟩
  | cons p stages ih =>
    refine ReflTransGen.head ⟨none, step_of_mainStep (.join p stages hmain (hexited p))⟩ ?_
    exact ih (t := { t with main := .join stages }) rfl hexited

/-- The threads end after the last cycle. -/
theorem finish (n : ℕ) (machine : Machine) : ∃ t, ReflTransGen (Next build cycle_max)
    (between n machine .stop .cycleStart) t ∧ t.main = .returned ∧ t.machine = machine := by
  have hall : defaultOrder.Perm defaultOrder := List.Perm.refl _
  have hstop : Next build cycle_max (between n machine .stop .cycleStart)
      { between n machine .stop .cycleStart with running_sim := false, main := .lastStart } :=
    ⟨none, step_of_mainStep (.stop rfl)⟩
  have hmeet : ReflTransGen (Next build cycle_max)
      { between n machine .stop .cycleStart with running_sim := false, main := .lastStart } _ :=
    meet (b := .cycle_start) (g := n) hall rfl rfl rfl rfl rfl rfl
  have htest := (hmeet.head hstop).trans (test_all hall rfl)
  exact ⟨_, htest.trans (join_all stages rfl fun _ ↦ rfl), rfl, rfl⟩

variable {GPR : ℕ → BitVec 64} {mem : Mem} {entry : BitVec 64}

theorem reaches_between : Reaches build cycle_max GPR mem entry
    (between 0 (initMachine GPR mem entry) .cycleStart (startPC 0)) := by
  have hcreate : ReflTransGen (Next build cycle_max) (initThreads GPR mem entry) _ :=
    create_all stages rfl
  have hbarrier : (fun _ ↦ {} : CycleBarrier → Barrier) = barriers ⟨0, 0⟩ ⟨0, 0⟩ := by
    funext b
    cases b <;> rfl
  have hstage : (fun p ↦ if p ∈ stages then StagePC.born else .unborn) = fun _ ↦ .born :=
    funext fun p ↦ if_pos (mem_stages p)
  simp only [initThreads, hbarrier, hstage] at hcreate
  unfold Reaches
  simp only [initThreads, hbarrier]
  exact hcreate

/-- The last cycle. -/
theorem endsWith_of_stop (horder : order.Perm defaultOrder)
    (h : Reaches build cycle_max GPR mem entry (between n machine .cycleStart (startPC n)))
    (hcycle : cycle build order machine = .ok machine')
    (hstop : (machine'.running && decide (n + 1 < cycle_max)) = false) :
    EndsWith build cycle_max GPR mem entry (.ok machine') := by
  have hrun : ReflTransGen (Next build cycle_max) (between n machine .cycleStart (startPC n)) _ :=
    run_cycle horder hcycle
  rw [hstop] at hrun
  obtain ⟨t, hfinish, hmain, hmachine⟩ := finish (n + 1) machine'
  exact hmachine ▸ .returned t ((h.trans hrun).trans hfinish) hmain

/-- The loop from a state between two cycles. -/
theorem endsWith_runLoop (fuel : ℕ) {orders : ℕ → List ProcStage}
    (horders : ∀ n, (orders n).Perm defaultOrder) (hn : n + (fuel + 1) = max 1 cycle_max)
    (h : Reaches build cycle_max GPR mem entry (between n machine .cycleStart (startPC n))) :
    EndsWith build cycle_max GPR mem entry (runLoop build (fuel + 1) orders machine) := by
  induction fuel generalizing n machine orders with
  | zero =>
    rw [runLoop_succ]
    cases hcycle : cycle build (orders 0) machine with
    | error crash =>
      obtain ⟨t, i, hrun, hstep⟩ := crash_cycle (horders 0) hcycle
      exact .crashed t i crash (h.trans hrun) hstep
    | ok machine' =>
      have hstop : (machine'.running && decide (n + 1 < cycle_max)) = false := by
        rw [decide_eq_false (by omega), Bool.and_false]
      have hends := endsWith_of_stop (horders 0) h hcycle hstop
      rwa [← ite_self (Except.ok machine')] at hends
  | succ fuel ih =>
    rw [runLoop_succ]
    cases hcycle : cycle build (orders 0) machine with
    | error crash =>
      obtain ⟨t, i, hrun, hstep⟩ := crash_cycle (horders 0) hcycle
      exact .crashed t i crash (h.trans hrun) hstep
    | ok machine' =>
      change EndsWith build cycle_max GPR mem entry (if machine'.running = true then _ else _)
      cases hrunning : machine'.running with
      | false =>
        refine endsWith_of_stop (horders 0) h hcycle ?_
        rw [hrunning, Bool.false_and]
      | true =>
        have hgo : (machine'.running && decide (n + 1 < cycle_max)) = true := by
          rw [hrunning, Bool.true_and, decide_eq_true_iff]
          omega
        have hrun : ReflTransGen (Next build cycle_max)
            (between n machine .cycleStart (startPC n)) _ := run_cycle (horders 0) hcycle
        rw [hgo] at hrun
        exact ih (fun k ↦ horders (k + 1)) (by omega) (h.trans hrun)

theorem endsWith_runElf (build : Build) (cycle_max : ℕ) (GPR : ℕ → BitVec 64) (mem : Mem)
    (entry : BitVec 64) (orders : ℕ → List ProcStage)
    (horders : ∀ n, (orders n).Perm defaultOrder) :
    EndsWith build cycle_max GPR mem entry (runElf build cycle_max orders GPR mem entry) := by
  obtain ⟨fuel, hfuel⟩ : ∃ fuel, max 1 cycle_max = fuel + 1 := ⟨max 1 cycle_max - 1, by omega⟩
  unfold runElf
  rw [hfuel]
  exact endsWith_runLoop fuel horders (by omega) reaches_between

/-- The parallel build can end in exactly the ways in which the loop ends for some order of the
stages in each cycle, as long as the calls of the stage functions do not race. -/
theorem parallel_iff_loop (build : Build) (cycle_max : ℕ) (GPR : ℕ → BitVec 64) (mem : Mem)
    (entry : BitVec 64) (x : Except Crash Machine) :
    EndsWith build cycle_max GPR mem entry x ↔
      ∃ orders : ℕ → List ProcStage, (∀ n, (orders n).Perm defaultOrder) ∧
        runElf build cycle_max orders GPR mem entry = x := by
  refine ⟨EndsWith.loop, ?_⟩
  rintro ⟨orders, horders, rfl⟩
  exact endsWith_runElf build cycle_max GPR mem entry orders horders

/-- Where the order of the stages cannot be observed in any cycle, neither can the interleaving of
the calls of the stage functions: the parallel build ends as the build with one thread does. -/
theorem parallel_eq_default (build : Build) (hpipe : build.pipe = true) (cycle_max : ℕ)
    (GPR : ℕ → BitVec 64) (mem : Mem) (entry : BitVec 64) (x : Except Crash Machine)
    (hsafe : ∀ s, Run build (initMachine GPR mem entry) s → s.running = true → s.OrderSafe build)
    (h : EndsWith build cycle_max GPR mem entry x) :
    Rel SameEnd (runElf build cycle_max (fun _ ↦ defaultOrder) GPR mem entry) x := by
  obtain ⟨orders, horders, rfl⟩ := h.loop
  exact runLoop_match hpipe _ horders
    ⟨{ mem with dmem_status := .ready }, 0, rfl, Mem.Same.refl _, Or.inl rfl⟩
    (initMachine_running GPR mem entry) hsafe

/-- A program that stores a word, loads it again and sets the flags. -/
theorem parallel_eq_default_store : ∃ x,
    EndsWith ⟨true, false⟩ 20 (fun _ ↦ 0) (textImage storeProgram) (segStarts .text) x ∧
      Rel SameEnd (runElf ⟨true, false⟩ 20 (fun _ ↦ defaultOrder) (fun _ ↦ 0)
        (textImage storeProgram) (segStarts .text)) x := by
  have hcheck : checkRun ⟨true, false⟩ (Machine.quietAccess ⟨true, false⟩) 20
      (initMachine (fun _ ↦ 0) (textImage storeProgram) (segStarts .text)) = true := by
    decide +kernel
  have hends : EndsWith ⟨true, false⟩ 20 (fun _ ↦ 0) (textImage storeProgram) (segStarts .text)
      (runElf ⟨true, false⟩ 20 (fun _ ↦ [.memory, .fetch, .decode, .execute, .wback])
        (fun _ ↦ 0) (textImage storeProgram) (segStarts .text)) :=
    endsWith_runElf ⟨true, false⟩ 20 (fun _ ↦ 0) (textImage storeProgram) (segStarts .text)
      (fun _ ↦ [.memory, .fetch, .decode, .execute, .wback]) fun _ ↦ by decide
  refine ⟨_, hends, parallel_eq_default ⟨true, false⟩ rfl 20 (fun _ ↦ 0) (textImage storeProgram)
    (segStarts .text) _ ?_ hends⟩
  exact fun s hrun hs ↦ orderSafe_of_quietAccess (of_checkRun hcheck hrun hs)

end Threads

end SystemEmulator
