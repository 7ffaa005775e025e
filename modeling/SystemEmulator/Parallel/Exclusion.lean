import SystemEmulator.Parallel.Protocol

/-!
# Mutual exclusion in the parallel build

Whatever the order of the steps, the threads that do not wait are in the same half of the same
cycle: no stage function runs while `runElf` finishes a cycle, and `running_sim` is not written
while a thread may read it.
-/

namespace SystemEmulator

open Relation

namespace Threads

variable {build : Build} {cycle_max : ℕ} {t t' : Threads}

/-- The threads are created, run and joined in this order. -/
structure Placed (t : Threads) : Prop where
  nodup : t.main.pending.Nodup
  unborn : ∀ p, t.stage p = .unborn ↔ t.main.creates p
  running_sim : t.running_sim = t.main.looping
  calling : ∀ p, t.stage p = .stage → t.main.looping = true
  exited : ∀ p, t.stage p = .exited → t.main.looping = false
  joined : ∀ p, t.main.joined p → t.stage p = .exited
  counted : t.main = .stop ∨ t.main.looping = false → 0 < t.num_instr

/-- The places of the threads and the waits that they have behind them. -/
structure Inv (t : Threads) (passed : Option ProcStage → ℕ) (r : ℕ) : Prop extends
  Synced t passed r, Placed t

section

variable {passed : Option ProcStage → ℕ} {r : ℕ} {p : ProcStage}

/-- A thread of a stage that does not wait is in the present round. -/
theorem Synced.stage_eq (h : t.Synced passed r) (hp : (t.stage p).ticket = none) :
    passed (some p) = r := h.inRound.passed_of_none (i := some p) hp

theorem Synced.main_eq (h : t.Synced passed r) (hmain : t.main.ticket = none) :
    2 * t.num_instr + t.main.phase = r :=
  h.main.symm.trans (h.inRound.passed_of_none (i := none) hmain)

/-- Two threads that do not wait have the same number of waits behind them. -/
theorem Synced.parity_eq (h : t.Synced passed r) (hp : (t.stage p).ticket = none)
    (hmain : t.main.ticket = none) : t.main.phase % 2 = (t.stage p).parity := by
  have hstage := h.parity p
  have hr := h.main_eq hmain
  rw [h.stage_eq hp] at hstage
  omega

/-- A thread that leaves the wait before its loop finds `running_sim` set. -/
theorem Inv.looping_of_bornWait (h : t.Inv passed r) {g : ℕ} (hp : t.stage p = .bornWait g) :
    t.main.looping = true := by
  have hpassed := h.beforeLoop p (by rw [hp]; rfl)
  have harrivals := h.inRound.le_arrivals (some p)
  have hle := h.inRound.passed_le none
  have hticket : (t.parties passed).ticket (some p) = some g := congrArg StagePC.ticket hp
  rw [Parties.arrivals_of_some hticket] at harrivals
  cases hlooping : t.main.looping with
  | true => rfl
  | false =>
    have hpos := h.counted (.inr hlooping)
    have hmain := h.main
    simp only [parties] at harrivals hle
    omega

/-! ### Steps of a stage -/

/-- The places of the other threads stay. -/
theorem StageStep.frame (hstep : StageStep build p t t') :
    t'.main = t.main ∧ t'.num_instr = t.num_instr ∧ t'.running_sim = t.running_sim ∧
      (∀ q, q ≠ p → t'.stage q = t.stage q) ∧ t.stage p ≠ .unborn ∧ t'.stage p ≠ .unborn ∧
      t.stage p ≠ .exited := by
  have hother : ∀ pc q, q ≠ p → (t.moveTo p pc).stage q = t.stage q :=
    fun pc q hq ↦ Function.update_of_ne hq _ _
  have hself : ∀ pc, (t.moveTo p pc).stage p = pc := fun pc ↦ Function.update_self _ _ _
  cases hstep with
  | arrive b wait harrival =>
    refine ⟨rfl, rfl, rfl, hother _, ?_⟩
    change _ ∧ (t.moveTo p _).stage p ≠ _ ∧ _
    rw [hself]
    revert harrival
    cases t.stage p <;> rintro ⟨⟩ <;> exact ⟨nofun, nofun, nofun⟩
  | leave b ticket pc hdeparture hopen =>
    refine ⟨rfl, rfl, rfl, hother _, ?_⟩
    rw [hself]
    revert hdeparture
    cases t.stage p <;> rintro ⟨⟩ <;> exact ⟨nofun, nofun, nofun⟩
  | call machine hpc hcall =>
    refine ⟨rfl, rfl, rfl, hother _, ?_⟩
    change _ ∧ (t.moveTo p _).stage p ≠ _ ∧ _
    rw [hself, hpc]
    exact ⟨nofun, nofun, nofun⟩
  | test hpc =>
    refine ⟨rfl, rfl, rfl, hother _, ?_⟩
    rw [hself, hpc]
    refine ⟨nofun, ?_, nofun⟩
    split <;> exact nofun

/-- A step of a stage changes nothing for the other threads. -/
theorem Synced.of_stage (h : t.Synced passed r) {passed' : Option ProcStage → ℕ} {r' : ℕ}
    (hinRound : (t'.parties passed').InRound cycleBarriers r') (hstep : StageStep build p t t')
    (hpassed : ∀ i, i ≠ some p → passed' i = passed i)
    (hparity : passed' (some p) % 2 = (t'.stage p).parity)
    (hbefore : (t'.stage p).beforeLoop = true → passed' (some p) = 0) : t'.Synced passed' r' := by
  obtain ⟨hmain, hnum, -, hother, -⟩ := hstep.frame
  refine ⟨hinRound, ?_, fun q ↦ ?_, fun q hq ↦ ?_⟩
  · rw [hpassed none nofun, hmain, hnum]
    exact h.main
  · by_cases hqp : q = p
    · exact hqp ▸ hparity
    · rw [hpassed (some q) (by simpa using hqp), hother q hqp]
      exact h.parity q
  · by_cases hqp : q = p
    · subst hqp
      exact hbefore hq
    · rw [hpassed (some q) (by simpa using hqp)]
      rw [hother q hqp] at hq
      exact h.beforeLoop q hq

theorem advance_of_none {i : Option ProcStage} (hi : t.ticket i = none) :
    t.advance i passed = passed := by
  rw [advance, hi]
  rfl

theorem advance_of_some {i : Option ProcStage} {g : ℕ} (hi : t.ticket i = some g) :
    t.advance i passed = Function.update passed i (passed i + 1) := by
  rw [advance, hi]
  rfl

theorem moveTo_stage (t : Threads) (p : ProcStage) (pc : StagePC) : (t.moveTo p pc).stage p = pc :=
  Function.update_self _ _ _

theorem advance_of_ne {i j : Option ProcStage} (hj : j ≠ i) : t.advance i passed j = passed j := by
  unfold advance
  split
  · exact Function.update_of_ne hj _ _
  · rfl

/-- An arrival stays in the round or completes it. -/
theorem Synced.arrive_inRound (h : t.Synced passed r) {i : Option ProcStage}
    (hi : t.ticket i = none) :
    ∃ r', ((t.parties passed).arrive cycleBarriers i).InRound cycleBarriers r' := by
  rcases h.inRound.step (.arrive i hi) with hr | hr
  · exact ⟨r, hr⟩
  · exact ⟨r + 1, hr⟩

/-- A stage that moves without a barrier. -/
theorem Synced.stage_moves (h : t.Synced passed r) (pc : StagePC)
    (hstep : StageStep build p t t') (hparties : t'.parties passed = (t.moveTo p pc).parties passed)
    (hstage : t'.stage p = pc) (hnone : (t.stage p).ticket = none) (hnone' : pc.ticket = none)
    (hparity : pc.parity = (t.stage p).parity) (hbefore : pc.beforeLoop = false) :
    t'.Synced (t.advance (some p) passed) r := by
  rw [advance_of_none (i := some p) hnone]
  refine h.of_stage ?_ hstep (fun _ _ ↦ rfl) ?_ ?_
  · rw [hparties, parties_moveTo hnone hnone']
    exact h.inRound
  · rw [hstage, hparity]
    exact h.parity p
  · rw [hstage, hbefore]
    exact nofun

/-- The waits and the rounds after a step of a stage. -/
theorem Synced.stageStep (h : t.Synced passed r) (hstep : StageStep build p t t') :
    ∃ r', t'.Synced (t.advance (some p) passed) r' := by
  have hparity := h.parity p
  have hbefore := h.beforeLoop p
  have hof := fun (r' : ℕ)
      (hinRound : (t'.parties (t.advance (some p) passed)).InRound cycleBarriers r') ↦
    h.of_stage hinRound hstep fun i hi ↦ advance_of_ne hi
  have hmoves := fun (pc : StagePC) ↦ h.stage_moves pc hstep
  cases hstep with
  | arrive b wait harrival =>
    obtain ⟨hnone, -, hpar, hbef, hb⟩ := StagePC.arrival_spec harrival (t.barrier b).generation
    rw [advance_of_none (i := some p) hnone] at hof ⊢
    obtain ⟨r', hr'⟩ := h.arrive_inRound (i := some p) hnone
    rw [← parties_arrive_stage harrival (hb _ hparity)] at hr'
    refine ⟨r', hof r' hr' ?_ ?_⟩
    · change _ = ((t.moveTo p _).stage p).parity
      rw [moveTo_stage, hpar, hparity]
    · change ((t.moveTo p _).stage p).beforeLoop = true → _
      rw [moveTo_stage, hbef]
      exact hbefore
  | leave b ticket pc hdeparture hopen =>
    obtain ⟨hsome, hnone, hbef, hb⟩ := StagePC.departure_spec hdeparture
    have hopen' : ((t.parties passed).barrier
        (cycleBarriers ((t.parties passed).passed (some p)))).opened ticket = true := by
      change (t.barrier (cycleBarriers (passed (some p)))).opened ticket = true
      rw [(hb _ hparity).1]
      exact hopen
    have hr := h.inRound.leave (i := some p) hsome hopen'
    rw [← parties_leave_stage hdeparture] at hr
    refine ⟨r, hof r hr ?_ ?_⟩
    · rw [advance_of_some (i := some p) hsome, Function.update_self, moveTo_stage]
      exact (hb _ hparity).2
    · rw [moveTo_stage, hbef]
      exact nofun
  | call machine hpc hcall =>
    have hnone : (t.stage p).ticket = none := congrArg StagePC.ticket hpc
    exact ⟨r, hmoves .cycleEnd rfl (moveTo_stage t p _) hnone rfl (by rw [hpc]; rfl) rfl⟩
  | test hpc =>
    have hnone : (t.stage p).ticket = none := congrArg StagePC.ticket hpc
    have hcases : (if t.running_sim then StagePC.stage else .exited).ticket = none ∧
        (if t.running_sim then StagePC.stage else .exited).parity = 1 ∧
        (if t.running_sim then StagePC.stage else .exited).beforeLoop = false := by
      cases t.running_sim <;> exact ⟨rfl, rfl, rfl⟩
    exact ⟨r, hmoves _ rfl (moveTo_stage t p _) hnone hcases.1
      (by rw [hcases.2.1, hpc]; rfl) hcases.2.2⟩

/-- A stage function is called by a new thread or behind a test. -/
theorem StageStep.calling (hstep : StageStep build p t t') (hp : t'.stage p = .stage) :
    (∃ g, t.stage p = .bornWait g) ∨ t.running_sim = true := by
  cases hstep with
  | arrive b wait harrival =>
    change (t.moveTo p _).stage p = _ at hp
    rw [moveTo_stage] at hp
    revert harrival
    cases t.stage p <;> rintro ⟨⟩ <;> cases hp
  | leave b ticket pc hdeparture hopen =>
    rw [moveTo_stage] at hp
    revert hdeparture
    cases hpc : t.stage p <;> rintro ⟨⟩ <;> cases hp
    exact .inl ⟨_, rfl⟩
  | call machine hpc hcall =>
    change (t.moveTo p _).stage p = _ at hp
    rw [moveTo_stage] at hp
    cases hp
  | test hpc =>
    rw [moveTo_stage] at hp
    cases hrunning : t.running_sim with
    | true => exact .inr rfl
    | false =>
      rw [hrunning] at hp
      cases hp

theorem StageStep.exited (hstep : StageStep build p t t') (hp : t'.stage p = .exited) :
    t.running_sim = false := by
  cases hstep with
  | arrive b wait harrival =>
    change (t.moveTo p _).stage p = _ at hp
    rw [moveTo_stage] at hp
    revert harrival
    cases t.stage p <;> rintro ⟨⟩ <;> cases hp
  | leave b ticket pc hdeparture hopen =>
    rw [moveTo_stage] at hp
    revert hdeparture
    cases t.stage p <;> rintro ⟨⟩ <;> cases hp
  | call machine hpc hcall =>
    change (t.moveTo p _).stage p = _ at hp
    rw [moveTo_stage] at hp
    cases hp
  | test hpc =>
    rw [moveTo_stage] at hp
    cases hrunning : t.running_sim with
    | true =>
      rw [hrunning] at hp
      cases hp
    | false => rfl

/-- A step of a stage keeps the invariant. -/
theorem Inv.stageStep (h : t.Inv passed r) (hstep : StageStep build p t t') :
    ∃ r', t'.Inv (t.advance (some p) passed) r' := by
  obtain ⟨r', hsynced⟩ := h.toSynced.stageStep hstep
  obtain ⟨hmain, hnum, hrunning, hother, hunborn, hunborn', hexited⟩ := hstep.frame
  refine ⟨r', hsynced, ?_, fun q ↦ ?_, ?_, fun q hq ↦ ?_, fun q hq ↦ ?_, fun q hq ↦ ?_, ?_⟩
  · rw [hmain]
    exact h.nodup
  · rw [hmain, ← h.unborn q]
    by_cases hqp : q = p
    · subst hqp
      exact ⟨fun hq ↦ absurd hq hunborn', fun hq ↦ absurd hq hunborn⟩
    · rw [hother q hqp]
  · rw [hmain, hrunning]
    exact h.running_sim
  · rw [hmain]
    by_cases hqp : q = p
    · subst hqp
      rcases hstep.calling hq with ⟨g, hg⟩ | hset
      · exact h.looping_of_bornWait hg
      · exact h.running_sim ▸ hset
    · rw [hother q hqp] at hq
      exact h.calling q hq
  · rw [hmain]
    by_cases hqp : q = p
    · subst hqp
      exact h.running_sim ▸ hstep.exited hq
    · rw [hother q hqp] at hq
      exact h.exited q hq
  · rw [hmain] at hq
    by_cases hqp : q = p
    · subst hqp
      exact absurd (h.joined q hq) hexited
    · rw [hother q hqp]
      exact h.joined q hq
  · rw [hmain, hnum]
    exact h.counted

/-! ### Steps of `runElf` -/

/-- The waits and the rounds after a step of `runElf` that is neither an arrival nor a return. -/
theorem Synced.of_main (h : t.Synced passed r) {machine : Machine} {num_instr : ℕ}
    {running_sim : Bool} {main : MainPC} {stage : ProcStage → StagePC}
    (hnone : t.main.ticket = none) (hnone' : main.ticket = none)
    (hmain : 2 * num_instr + main.phase = 2 * t.num_instr + t.main.phase)
    (hstage : ∀ p, stage p = t.stage p ∨ t.stage p = .unborn ∧ stage p = .born) :
    Synced ⟨machine, num_instr, running_sim, t.barrier, main, stage⟩ (t.advance none passed) r := by
  have htickets : (⟨machine, num_instr, running_sim, t.barrier, main, stage⟩ : Threads).ticket =
      t.ticket := by
    funext i
    cases i with
    | none => exact hnone'.trans hnone.symm
    | some p =>
      change (stage p).ticket = (t.stage p).ticket
      rcases hstage p with hp | ⟨hp, hp'⟩
      · rw [hp]
      · rw [hp, hp']
        rfl
  rw [advance_of_none (i := none) hnone]
  refine ⟨?_, h.main.trans hmain.symm, fun p ↦ ?_, fun p hp ↦ ?_⟩
  · have hr := h.inRound
    unfold parties at hr ⊢
    rw [htickets]
    exact hr
  · have hparity := h.parity p
    change _ = (stage p).parity
    rcases hstage p with hp | ⟨hp, hp'⟩
    · rw [hp, hparity]
    · rw [hparity, hp, hp']
      rfl
  · change (stage p).beforeLoop = true at hp
    rcases hstage p with hq | ⟨hq, -⟩
    · rw [hq] at hp
      exact h.beforeLoop p hp
    · exact h.beforeLoop p (by rw [hq]; rfl)

/-- `runElf` arrives at the barrier that its phase names. -/
theorem Synced.main_arrive (h : t.Synced passed r) {b : CycleBarrier} {wait : ℕ → MainPC}
    (harrival : t.main.arrival = some (b, wait)) :
    ∃ r', Synced { t.arrive b with main := wait (t.barrier b).generation }
      (t.advance none passed) r' := by
  have hmain := h.main
  obtain ⟨hnone, -, hphase, hb⟩ :=
    MainPC.arrival_spec harrival (t.barrier b).generation t.num_instr
  rw [← hmain] at hb
  rw [advance_of_none (i := none) hnone]
  obtain ⟨r', hr'⟩ := h.arrive_inRound (i := none) hnone
  rw [← parties_arrive_main harrival hb] at hr'
  refine ⟨r', hr', ?_, h.parity, h.beforeLoop⟩
  rw [hmain]
  exact congrArg (2 * t.num_instr + ·) hphase.symm

/-- `runElf` returns from the barrier at which it waits, and its phase goes on. -/
theorem Synced.main_leave (h : t.Synced passed r) {b : CycleBarrier} {ticket : ℕ} {pc : MainPC}
    (hdeparture : t.main.departure = some (b, ticket, pc))
    (hopen : (t.barrier b).opened ticket = true) :
    Synced { t with main := pc } (t.advance none passed) r := by
  have hmain := h.main
  obtain ⟨hsome, hnone, hphase, hb⟩ := MainPC.departure_spec hdeparture t.num_instr
  rw [← hmain] at hb
  have hopen' : ((t.parties passed).barrier
      (cycleBarriers ((t.parties passed).passed none))).opened ticket = true := by
    change (t.barrier (cycleBarriers (passed none))).opened ticket = true
    rw [hb]
    exact hopen
  have hr := h.inRound.leave (i := none) hsome hopen'
  rw [← parties_leave_main hdeparture] at hr
  refine ⟨hr, ?_, fun p ↦ ?_, fun p hp ↦ ?_⟩
  · rw [advance_of_some (i := none) hsome, Function.update_self, hmain]
    change _ = 2 * t.num_instr + pc.phase
    rw [hphase, Nat.add_assoc]
  · rw [advance_of_ne (Option.some_ne_none p)]
    exact h.parity p
  · rw [advance_of_ne (Option.some_ne_none p)]
    exact h.beforeLoop p hp

theorem Synced.mainStep (h : t.Inv passed r) (hstep : MainStep build cycle_max t t') :
    ∃ r', t'.Synced (t.advance none passed) r' := by
  cases hstep with
  | arrive b wait harrival => exact h.toSynced.main_arrive harrival
  | leave b ticket pc hdeparture hopen => exact ⟨r, h.toSynced.main_leave hdeparture hopen⟩
  | create p stages hpc =>
    refine ⟨r, h.toSynced.of_main (congrArg MainPC.ticket hpc) rfl (by rw [hpc]; rfl) fun q ↦ ?_⟩
    by_cases hqp : q = p
    · subst hqp
      refine .inr ⟨(h.unborn q).mpr ?_, Function.update_self _ _ _⟩
      rw [hpc]
      exact List.mem_cons_self
    · exact .inl (Function.update_of_ne hqp _ _)
  | correct hpc =>
    refine ⟨r, h.toSynced.of_main (congrArg MainPC.ticket hpc) ?_ ?_ fun q ↦ .inl rfl⟩
    · split <;> rfl
    · rw [hpc]
      split <;> rfl
  | created hpc | stop hpc | join p stages hpc hexit | joined hpc | destroy hpc =>
    exact ⟨r, h.toSynced.of_main (congrArg MainPC.ticket hpc) rfl (by rw [hpc]; rfl)
      fun q ↦ .inl rfl⟩

/-- The places after a step of `runElf` that leaves the threads of the stages alone. -/
theorem Placed.of_main (h : t.Placed) {machine : Machine} {num_instr : ℕ}
    {barrier : CycleBarrier → Barrier} {main : MainPC} (hlooping : main.looping = t.main.looping)
    (hcreates : ∀ p, ¬t.main.creates p) (hcreate : ∀ stages, main ≠ .create stages)
    (hnodup : main.pending.Nodup) (hjoined : ∀ p, main.joined p → t.stage p = .exited)
    (hcounted : main = .stop ∨ main.looping = false → 0 < num_instr) :
    Placed ⟨machine, num_instr, t.running_sim, barrier, main, t.stage⟩ where
  nodup := hnodup
  unborn p := by
    refine (h.unborn p).trans ⟨fun hp ↦ absurd hp (hcreates p), fun hp ↦ ?_⟩
    change main.creates p at hp
    cases main with
    | create stages => exact absurd rfl (hcreate stages)
    | _ => exact absurd hp id
  running_sim := h.running_sim.trans hlooping.symm
  calling p hp := hlooping.trans (h.calling p hp)
  exited p hp := hlooping.trans (h.exited p hp)
  joined := hjoined
  counted := hcounted

/-- Creating the thread of a stage. -/
theorem Placed.create (h : t.Placed) {p : ProcStage} {stages : List ProcStage}
    (hpc : t.main = .create (p :: stages)) :
    Placed { t.moveTo p .born with main := .create stages } := by
  have hnodup := h.nodup
  rw [hpc] at hnodup
  replace hnodup := List.nodup_cons.mp hnodup
  have hother : ∀ q, q ≠ p → (t.moveTo p .born).stage q = t.stage q :=
    fun q hq ↦ Function.update_of_ne hq _ _
  refine ⟨hnodup.2, fun q ↦ ?_, ?_, fun q _ ↦ rfl, fun q hq ↦ ?_, fun q hq ↦ absurd hq id, ?_⟩
  · change (t.moveTo p .born).stage q = .unborn ↔ q ∈ stages
    by_cases hqp : q = p
    · subst hqp
      rw [moveTo_stage]
      exact ⟨nofun, fun hq ↦ absurd hq hnodup.1⟩
    · rw [hother q hqp, h.unborn q, hpc]
      exact List.mem_cons.trans (or_iff_right hqp)
  · exact h.running_sim.trans (by rw [hpc]; rfl)
  · change (t.moveTo p .born).stage q = .exited at hq
    by_cases hqp : q = p
    · subst hqp
      rw [moveTo_stage] at hq
      cases hq
    · rw [hother q hqp] at hq
      have hexited := h.exited q hq
      rw [hpc] at hexited
      cases hexited
  · rintro (hstop | hfalse)
    · cases hstop
    · cases hfalse

/-- Telling the threads to stop, which happens while none of them is in a stage function. -/
theorem Placed.stop (h : t.Inv passed r) (hpc : t.main = .stop) :
    Placed { t with running_sim := false, main := .lastStart } := by
  have hnone : t.main.ticket = none := congrArg MainPC.ticket hpc
  refine ⟨List.nodup_nil, fun p ↦ ?_, rfl, fun p hp ↦ ?_, fun _ _ ↦ rfl,
    fun p hp ↦ absurd hp id, ?_⟩
  · refine (h.unborn p).trans ⟨fun hp ↦ ?_, fun hp ↦ absurd hp id⟩
    rw [hpc] at hp
    exact hp
  · have hparity := h.parity_eq (p := p) (congrArg StagePC.ticket hp) hnone
    rw [hpc, show t.stage p = .stage from hp] at hparity
    cases hparity
  · exact fun _ ↦ h.counted (.inl hpc)

theorem Placed.join (h : t.Placed) {p : ProcStage} {stages : List ProcStage}
    (hpc : t.main = .join (p :: stages)) (hexit : t.stage p = .exited) :
    Placed { t with main := .join stages } := by
  have hnodup := h.nodup
  rw [hpc] at hnodup
  refine h.of_main (by rw [hpc]; rfl) ?_ nofun (List.nodup_cons.mp hnodup).2 (fun q hq ↦ ?_) ?_
  · rw [hpc]
    exact fun _ hp ↦ hp
  · by_cases hqp : q = p
    · exact hqp ▸ hexit
    · refine h.joined q ?_
      rw [hpc]
      exact fun hmem ↦ (List.mem_cons.mp hmem).elim hqp hq
  · exact fun _ ↦ h.counted (.inr (by rw [hpc]; rfl))

/-- After every thread has been joined, all of them have returned. -/
theorem Placed.all_joined (h : t.Placed) {main : MainPC} (hjoined : ∀ p, t.main.joined p)
    (hlooping : t.main.looping = false) (hcreates : ∀ p, ¬t.main.creates p)
    (hlooping' : main.looping = false) (hcreate : ∀ stages, main ≠ .create stages)
    (hpending : main.pending = []) : Placed { t with main := main } := by
  refine h.of_main (hlooping'.trans hlooping.symm) hcreates hcreate ?_
    (fun p _ ↦ h.joined p (hjoined p)) fun _ ↦ h.counted (.inr hlooping)
  rw [hpending]
  exact List.nodup_nil

theorem Placed.mainStep (h : t.Inv passed r) (hstep : MainStep build cycle_max t t') :
    t'.Placed := by
  have hcounted : ∀ main : MainPC, main ≠ .stop → main.looping = t.main.looping →
      main = .stop ∨ main.looping = false → 0 < t.num_instr := by
    rintro main hne hlooping (hstop | hfalse)
    · exact absurd hstop hne
    · exact h.counted (.inr (hlooping.symm.trans hfalse))
  cases hstep with
  | arrive b wait harrival =>
    obtain ⟨hlooping, hcreates, hcreate, hnodup, hjoined, hne⟩ :=
      MainPC.arrival_frame harrival (t.barrier b).generation
    exact h.toPlaced.of_main hlooping hcreates hcreate hnodup (fun p hp ↦ absurd hp (hjoined p))
      (hcounted _ hne hlooping)
  | leave b ticket pc hdeparture hopen =>
    obtain ⟨hlooping, hcreates, hcreate, hnodup, hjoined, hne⟩ :=
      MainPC.departure_frame hdeparture
    exact h.toPlaced.of_main hlooping hcreates hcreate hnodup (fun p hp ↦ absurd hp (hjoined p))
      (hcounted _ hne hlooping)
  | create p stages hpc => exact h.toPlaced.create hpc
  | created hpc =>
    refine h.toPlaced.of_main (by rw [hpc]; rfl) (fun p hp ↦ ?_) nofun List.nodup_nil
      (fun p hp ↦ absurd hp id) ?_
    · rw [hpc] at hp
      exact absurd hp List.not_mem_nil
    · exact hcounted _ nofun (by rw [hpc]; rfl)
  | correct hpc =>
    refine h.toPlaced.of_main ?_ (fun p hp ↦ ?_) ?_ ?_ ?_ fun _ ↦ Nat.succ_pos _
    · rw [hpc]
      split <;> rfl
    · rw [hpc] at hp
      exact hp
    · split <;> exact nofun
    · split <;> exact List.nodup_nil
    · split <;> exact fun p hp ↦ absurd hp id
  | stop hpc => exact Placed.stop h hpc
  | join p stages hpc hexit => exact h.toPlaced.join hpc hexit
  | joined hpc =>
    refine h.toPlaced.all_joined (fun p ↦ ?_) (by rw [hpc]; rfl) (fun p hp ↦ ?_) rfl nofun rfl
    · rw [hpc]
      exact List.not_mem_nil
    · rw [hpc] at hp
      exact hp
  | destroy hpc =>
    refine h.toPlaced.all_joined (fun p ↦ ?_) (by rw [hpc]; rfl) (fun p hp ↦ ?_) rfl nofun rfl
    · rw [hpc]
      exact trivial
    · rw [hpc] at hp
      exact hp

/-- A step of `runElf` keeps the invariant. -/
theorem Inv.mainStep (h : t.Inv passed r) (hstep : MainStep build cycle_max t t') :
    ∃ r', t'.Inv (t.advance none passed) r' := by
  obtain ⟨r', hsynced⟩ := Synced.mainStep h hstep
  exact ⟨r', hsynced, Placed.mainStep h hstep⟩

end

/-! ## Reachable states -/

def Next (build : Build) (cycle_max : ℕ) (t t' : Threads) : Prop :=
  ∃ i, t.step build cycle_max i = some (.ok t')

def Reaches (build : Build) (cycle_max : ℕ) (GPR : ℕ → BitVec 64) (mem : Mem)
    (entry : BitVec 64) : Threads → Prop :=
  ReflTransGen (Next build cycle_max) (initThreads GPR mem entry)

theorem Inv.next {passed : Option ProcStage → ℕ} {r : ℕ} (h : t.Inv passed r)
    {i : Option ProcStage} (hstep : t.step build cycle_max i = some (.ok t')) :
    ∃ r', t'.Inv (t.advance i passed) r' := by
  cases i with
  | none => exact h.mainStep (mainStep_of_step hstep)
  | some p => exact h.stageStep (stageStep_of_step hstep)

variable {GPR : ℕ → BitVec 64} {mem : Mem} {entry : BitVec 64}

theorem inv_init : (initThreads GPR mem entry).Inv (fun _ ↦ 0) 0 := by
  have hticket : (initThreads GPR mem entry).ticket = fun _ ↦ none := by
    funext i
    cases i <;> rfl
  refine ⟨⟨?_, rfl, fun _ ↦ rfl, fun _ _ ↦ rfl⟩, nodup_stages, fun p ↦ ?_, rfl, nofun, nofun,
    fun p hp ↦ absurd hp id, ?_⟩
  · unfold parties
    rw [hticket]
    exact Parties.inRound_init
  · exact ⟨fun _ ↦ mem_stages p, fun _ ↦ rfl⟩
  · rintro (hstop | hfalse)
    · cases hstop
    · cases hfalse

theorem Reaches.inv (h : Reaches build cycle_max GPR mem entry t) :
    ∃ passed r, t.Inv passed r := by
  induction h with
  | refl => exact ⟨_, _, inv_init⟩
  | tail _ hstep ih =>
    obtain ⟨passed, r, hinv⟩ := ih
    obtain ⟨i, hi⟩ := hstep
    obtain ⟨r', hinv'⟩ := hinv.next hi
    exact ⟨_, r', hinv'⟩

/-- The threads make their steps in the given order, and none of the steps crashes. -/
def schedule (build : Build) (cycle_max : ℕ) :
    List (Option ProcStage) → Threads → Option Threads
  | [], t => some t
  | i :: is, t => match t.step build cycle_max i with
    | some (.ok t') => schedule build cycle_max is t'
    | _ => none

theorem schedule_cons {i : Option ProcStage} {is : List (Option ProcStage)}
    (h : t.schedule build cycle_max (i :: is) = some t') :
    ∃ u, t.step build cycle_max i = some (.ok u) ∧ u.schedule build cycle_max is = some t' := by
  rw [schedule] at h
  split at h
  · exact ⟨_, ‹_›, h⟩
  · cases h

theorem reaches_of_schedule {is : List (Option ProcStage)}
    (h : t.schedule build cycle_max is = some t') :
    ReflTransGen (Next build cycle_max) t t' := by
  induction is generalizing t with
  | nil =>
    obtain rfl := Option.some.inj h
    exact ReflTransGen.refl
  | cons i is ih =>
    obtain ⟨u, hstep, hrest⟩ := schedule_cons h
    exact ReflTransGen.head ⟨i, hstep⟩ (ih hrest)

def oneCycle : List (Option ProcStage) :=
  List.replicate 6 none ++ stages.map some ++ [none, none] ++ stages.map some ++
    stages.map some ++ stages.map some ++ [none, none] ++ stages.map some ++ [none, none] ++
    stages.map some ++ [none, none] ++ stages.map some ++ stages.map some ++
    List.replicate 7 none

theorem schedule_oneCycle : ((initThreads (fun _ ↦ 0) (initMem none fun _ ↦ 0) 0).schedule
    ⟨true, false⟩ 1 oneCycle).isSome = true := by
  decide +kernel

/-- What the barriers keep apart. -/
structure Exclusive (t : Threads) : Prop where
  /-- A stage function runs only between the two waits of `runElf` in a cycle. -/
  stage : ∀ p, t.stage p = .stage →
    (∃ ticket, t.main = .startWait ticket) ∨ t.main = .cycleEnd ∨ ∃ ticket, t.main = .endWait ticket
  /-- No thread reads `running_sim` while it is written. -/
  test : ∀ p, t.stage p = .test → t.main ≠ .stop
  /-- No thread is left when the barriers are destroyed. -/
  destroy : t.main = .destroy ∨ t.main = .returned → ∀ p, t.stage p = .exited

/-- In every interleaving the stage functions, the end of a cycle and the end of the run keep out of
each other's way. -/
theorem reaches_exclusive (h : Reaches build cycle_max GPR mem entry t) : t.Exclusive := by
  obtain ⟨passed, r, hinv⟩ := h.inv
  refine ⟨fun p hp ↦ ?_, fun p hp hmain ↦ ?_, fun hmain p ↦ ?_⟩
  · have hlooping := hinv.calling p hp
    have hparity := hinv.parity_eq (p := p) (congrArg StagePC.ticket hp)
    rw [hp] at hparity
    cases hmain : t.main with
    | startWait ticket => exact .inl ⟨ticket, rfl⟩
    | cycleEnd => exact .inr (.inl rfl)
    | endWait ticket => exact .inr (.inr ⟨ticket, rfl⟩)
    | lastStart | lastWait ticket | join stages | destroy | returned =>
      rw [hmain] at hlooping
      cases hlooping
    | create stages | cycleStart | correct | stop =>
      rw [hmain] at hparity
      cases hparity rfl
  · have hparity := hinv.parity_eq (p := p) (congrArg StagePC.ticket hp)
      (congrArg MainPC.ticket hmain)
    rw [hmain, hp] at hparity
    cases hparity
  · refine hinv.joined p ?_
    rcases hmain with hmain | hmain <;> rw [hmain] <;> exact trivial

/-- One cycle of an empty memory. -/
theorem reaches_exclusive_oneCycle : ∃ t,
    (initThreads (fun _ ↦ 0) (initMem none fun _ ↦ 0) 0).schedule ⟨true, false⟩ 1 oneCycle =
        some t ∧
      t.Exclusive := by
  obtain ⟨t, ht⟩ := Option.isSome_iff_exists.mp schedule_oneCycle
  exact ⟨t, ht, reaches_exclusive (reaches_of_schedule ht)⟩

end Threads

end SystemEmulator
