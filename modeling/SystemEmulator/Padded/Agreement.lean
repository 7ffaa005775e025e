import SystemEmulator.Padded.Lockstep

/-!
# The two builds agree on padded programs

On a padded program that halts, both builds end with a halt, in the same state, when the words
behind the returns keep quiet.  Without `PIPE` the word behind the last return is executed, so that
they do not agree when it has an effect.
-/

namespace SystemEmulator

open Outcome Result Relation

/-- A padded program that halts ends in both builds with the same status, registers, flags and
memory, and after the same output. -/
theorem padded_builds_agree (GPR : ℕ → BitVec 64) (mem : Mem) (entry : BitVec 64)
    (hcache : mem.cache = none) (n : ℕ) (c : Core)
    (hseq : seqRun pipeBuild n (initCore GPR mem entry, entry) = throw (.halted c))
    (hpad : FollowsPadding (initCore GPR mem entry, entry))
    (hquiet : ReturnsQuietly (initCore GPR mem entry, entry)) :
    ∃ s t N, (∀ cycle_max, N ≤ cycle_max →
        runElf pipeBuild cycle_max (fun _ ↦ defaultOrder) GPR mem entry = .ok s ∧
          runElf plainBuild cycle_max (fun _ ↦ defaultOrder) GPR mem entry = .ok t) ∧
      s.status = .hlt ∧ t.status = s.status ∧ t.regs = s.regs ∧ t.NZCV = s.NZCV ∧
      (∀ a, byteAt t.mem.ptable a = byteAt s.mem.ptable a) ∧ t.mem.output = s.mem.output := by
  let a₀ := (initCore GPR mem entry, entry)
  have hstart : a₀.1.mem.Prompt := ⟨hcache, MemStatus.noConfusion⟩
  let K (s : Machine) : Prop := s.Paced a₀ c ∧ ∃ t, Run plainBuild (initMachine GPR mem entry) t ∧
    t.running = true ∧ t.Lockstep c s
  have hinit : K (initMachine GPR mem entry) :=
    ⟨initMachine_paced GPR hcache hseq, _, ReflTransGen.refl, initMachine_running GPR mem entry,
      initMachine_lockstep c GPR mem entry⟩
  have hstep : ∀ s s', K s → Step pipeBuild defaultOrder s s' → s'.running = true → K s' := by
    rintro s s' ⟨hs, t, hreach, hrunning, hlockstep⟩ hstep hrun
    obtain ⟨t', hreach', hrunning', hlockstep'⟩ :=
      hlockstep.step hpad hstart hquiet hs hstep hrun hrunning
    exact ⟨hs.step hpad hstart hstep hrun, t', hreach.trans hreach', hrunning', hlockstep'⟩
  obtain ⟨k, hk⟩ := hinit.1.halts.expects
  obtain ⟨u, -, -, ⟨hpaced, t, hreach, hrunning, hlockstep⟩, hstop, -⟩ :=
    reaches_stop (e := .halted c) (fun s hs ↦ ⟨hs.1.halts.inv, hs.1.halts.fetchesQuietly⟩) hstep
      trivial hinit (initMachine_running GPR mem entry) hk
  have hfinished := hlockstep.ends hpaced.halts hpaced.prompt.2 hstop
  obtain ⟨v, w, hrest, hlast, hstatus, hregs, hNZCV, hmem⟩ := hfinished.toSpent.ends hrunning
  have hended : w.running = false := by rw [w.running_eq, hstatus]; rfl
  obtain ⟨N', hN'⟩ := runLoop_of_run (hreach.trans hrest) hlast hended
  obtain ⟨s, N, hN, hs, hsregs, hsNZCV, hsbytes, hsoutput⟩ :=
    runElf_refines_seqRun GPR mem entry hcache n c hseq
  obtain ⟨pt, hpt, hcontent⟩ := hfinished.mem
  refine ⟨s, w, max N N', fun cycle_max hmax ↦ ⟨hN _ ((le_max_left N N').trans hmax),
    hN' _ (((le_max_right N N').trans hmax).trans (le_max_right 1 _))⟩, hs, hstatus.trans hs.symm,
    ?_, ?_, fun a ↦ ?_, ?_⟩
  · rw [hregs, hfinished.regs, hsregs]
  · rw [hNZCV, hfinished.NZCV, hsNZCV]
  · rw [hmem, hpt, hsbytes]
    exact (hcontent a).symm
  · rw [hmem, hpt, hsoutput]

/-! ## Concrete programs -/

/-- What is visited after the first step. -/
theorem visits_succ {a₀ a₁ : Core × BitVec 64} (hstep : seqStep pipeBuild a₀ = pure a₁) {k : ℕ}
    {c : Core} {pc : BitVec 64} : Visits a₀ (k + 1) c pc ↔ Visits a₁ k c pc := by
  unfold Visits
  change seqStep pipeBuild a₀ >>= seqRun pipeBuild k = _ ↔ _
  rw [hstep, pure_bind]

/-- Address zero is left by no step. -/
theorem visits_zero {c₀ c : Core} {k : ℕ} {pc : BitVec 64} (h : Visits (c₀, 0) k c pc) :
    pc = 0 := by
  cases k with
  | zero => exact (congrArg Prod.snd (pure_inj h)).symm
  | succ k => exact absurd h.symm pure_ne_throw

/-- A return changes nothing but the PC. -/
theorem seqStep_ret {c : Core} {pc : BitVec 64} (hop : (c.fetched pc).op = .ret) (hpc : pc ≠ 0)
    (hready : c.mem.dmem_status ≠ .inFlight) :
    seqStep pipeBuild (c, pc) = pure (c, c.returnsTo pc) := by
  have hwf : (instrAt pipeBuild pc c).WF := (wf_fetchedInstr _ _ _ _).decoded c.regs
  have hop' : (instrAt pipeBuild pc c).op = .ret := hop
  have haccesses : (executed (instrAt pipeBuild pc c) c.NZCV).1.accesses = false := by
    have hexec : (executed (instrAt pipeBuild pc c) c.NZCV).1.op = .ret := hop'
    unfold MInstr.accesses
    rw [(hwf.executed c.NZCV).M_sigs, hexec]
    rfl
  have hpasses : (instrAt pipeBuild pc c).status.passes = true := by
    rcases hwf.status with hstatus | ⟨-, hstatus⟩
    · rw [hstatus, hop']
      rfl
    · rw [hstatus]
      rfl
  have hstep := seqStep_of_not_accesses c hpc hready haccesses hpasses
  unfold XInstr.flags nextPC at hstep
  rw [hwf.W_sigs, hwf.X_sigs, hop'] at hstep
  exact hstep

/-- `MOVZ X0, #5; RET; NOP`. -/
theorem padded_builds_agree_movz :
    ∃ s t N, (∀ cycle_max, N ≤ cycle_max →
        runElf pipeBuild cycle_max (fun _ ↦ defaultOrder) (fun _ ↦ 0)
            (textImage [0xD28000A0, 0xD65F03C0, 0xD503201F]) 0x400000 = .ok s ∧
          runElf plainBuild cycle_max (fun _ ↦ defaultOrder) (fun _ ↦ 0)
            (textImage [0xD28000A0, 0xD65F03C0, 0xD503201F]) 0x400000 = .ok t) ∧
      s.status = .hlt ∧ t.status = s.status ∧ t.regs = s.regs ∧ t.NZCV = s.NZCV ∧
      (∀ a, byteAt t.mem.ptable a = byteAt s.mem.ptable a) ∧ t.mem.output = s.mem.output := by
  let c₀ := initCore (fun _ ↦ 0) (textImage [0xD28000A0, 0xD65F03C0, 0xD503201F]) 0x400000
  let c := { c₀ with regs := regfileWrite c₀.regs 0 5 true }
  have hmovz : seqStep pipeBuild (c₀, 0x400000) = pure (c, 0x400004) := by
    have hx : instrAt pipeBuild 0x400000 c₀ =
        { op := .movz, multipurpose_val := 0x400004, W_sigs := { w_enable := true },
          ALU_op := .mov, val_imm := 5, dst := 0, status := .aok } := by decide +kernel
    have hpc : (0x400000 : BitVec 64) ≠ 0 := by decide
    have hstep := seqStep_of_not_accesses c₀ hpc MemStatus.noConfusion (by rw [hx]; rfl)
      (by rw [hx]; rfl)
    rw [hx] at hstep
    exact hstep
  have hmain : c.returnsTo 0x400004 = 0 := by decide +kernel
  have hret : seqStep pipeBuild (c, 0x400004) = pure (c, 0) := by
    have hop : (c.fetched 0x400004).op = .ret := by decide +kernel
    have hstep := seqStep_ret hop (by decide) MemStatus.noConfusion
    rwa [hmain] at hstep
  have hvisits : ∀ k c' pc, Visits (c₀, 0x400000) k c' pc → pc ≠ 0 →
      k = 0 ∧ c' = c₀ ∧ pc = 0x400000 ∨ k = 1 ∧ c' = c ∧ pc = 0x400004 := by
    intro k c' pc h hpc
    match k with
    | 0 =>
      cases pure_inj h
      exact .inl ⟨rfl, rfl, rfl⟩
    | 1 =>
      cases pure_inj ((visits_succ hmovz).mp h)
      exact .inr ⟨rfl, rfl, rfl⟩
    | k + 2 => exact absurd (visits_zero ((visits_succ hret).mp ((visits_succ hmovz).mp h))) hpc
  refine padded_builds_agree (fun _ ↦ 0) (textImage [0xD28000A0, 0xD65F03C0, 0xD503201F]) 0x400000
    rfl 3 c ?_ ⟨?_, ?_⟩ ?_
  · change seqStep pipeBuild (c₀, 0x400000) >>= (fun a ↦ seqStep pipeBuild a >>=
      fun a ↦ seqStep pipeBuild a >>= _) = _
    rw [hmovz, pure_bind, hret, pure_bind]
    rfl
  · rintro j k d d' ⟨c', pc, hj, hpc, rfl⟩ ⟨c'', pc', hk, hpc', rfl⟩ hlt - r ⟨hxzr, hr⟩ ⟨-, hdst⟩
    rcases hvisits j c' pc hj hpc with ⟨rfl, rfl, rfl⟩ | ⟨rfl, rfl, rfl⟩ <;>
      rcases hvisits k c'' pc' hk hpc' with ⟨rfl, rfl, rfl⟩ | ⟨rfl, rfl, rfl⟩
    · omega
    · have hdst' : (c₀.fetched 0x400000).dst = 0 := by decide +kernel
      have hsrc : (c.fetched 0x400004).src1 = 30 ∧ (c.fetched 0x400004).src2 = XZR_NUM := by
        decide +kernel
      rw [hdst'] at hdst
      rw [hsrc.1, hsrc.2, ← hdst] at hr
      revert hr
      decide
    · omega
    · omega
  · intro k c' pc h hpc hop
    exfalso
    revert hop
    rcases hvisits k c' pc h hpc with ⟨rfl, rfl, rfl⟩ | ⟨rfl, rfl, rfl⟩ <;> decide +kernel
  · intro k c' pc h hpc hop
    rcases hvisits k c' pc h hpc with ⟨rfl, rfl, rfl⟩ | ⟨rfl, rfl, rfl⟩
    · exfalso
      revert hop
      decide +kernel
    · have hnop : (c.fetched (0x400004 + 4)).op = .nop := by decide +kernel
      rw [if_pos hmain]
      exact .inr ((wf_fetchedInstr _ _ _ _).inert (.inl hnop))

/-- `RET; ADD X0, X0, #1`: without `PIPE` the addition is executed, too. -/
theorem padded_builds_differ :
    ¬∀ (GPR : ℕ → BitVec 64) (mem : Mem) (entry : BitVec 64), mem.cache = none →
      ∀ (n : ℕ) (c : Core),
        seqRun pipeBuild n (initCore GPR mem entry, entry) = throw (.halted c) →
          FollowsPadding (initCore GPR mem entry, entry) →
      ∃ s t N, (∀ cycle_max, N ≤ cycle_max →
          runElf pipeBuild cycle_max (fun _ ↦ defaultOrder) GPR mem entry = .ok s ∧
            runElf plainBuild cycle_max (fun _ ↦ defaultOrder) GPR mem entry = .ok t) ∧
        s.status = .hlt ∧ t.status = s.status ∧ t.regs = s.regs ∧ t.NZCV = s.NZCV ∧
        (∀ a, byteAt t.mem.ptable a = byteAt s.mem.ptable a) ∧ t.mem.output = s.mem.output := by
  intro hclaim
  let mem := textImage [0xD65F03C0, 0x91000400]
  let c := initCore (fun _ ↦ 0) mem 0x400000
  have hop : (c.fetched 0x400000).op = .ret := by decide +kernel
  have hret : seqStep pipeBuild (c, 0x400000) = pure (c, 0) := by
    have hmain : c.returnsTo 0x400000 = 0 := by decide +kernel
    have hstep := seqStep_ret hop (by decide) MemStatus.noConfusion
    rwa [hmain] at hstep
  have hvisits : ∀ k c' pc, Visits (c, 0x400000) k c' pc → pc ≠ 0 →
      k = 0 ∧ c' = c ∧ pc = 0x400000 := by
    intro k c' pc h hpc
    match k with
    | 0 =>
      cases pure_inj h
      exact ⟨rfl, rfl, rfl⟩
    | k + 1 => exact absurd (visits_zero ((visits_succ hret).mp h)) hpc
  have hseq : seqRun pipeBuild 2 (c, 0x400000) = throw (.halted c) := by
    change seqStep pipeBuild (c, 0x400000) >>= (fun a ↦ seqStep pipeBuild a >>= _) = _
    rw [hret, pure_bind]
    rfl
  have hpad : FollowsPadding (c, 0x400000) := by
    refine ⟨?_, ?_⟩
    · rintro j k d d' ⟨c', pc, hj, hpc, -⟩ ⟨c'', pc', hk, hpc', -⟩ hlt
      obtain ⟨rfl, -⟩ := hvisits j c' pc hj hpc
      obtain ⟨rfl, -⟩ := hvisits k c'' pc' hk hpc'
      exact absurd hlt (lt_irrefl 0)
    · intro k c' pc h hpc hbranch
      obtain ⟨-, rfl, rfl⟩ := hvisits k c' pc h hpc
      rw [hop] at hbranch
      cases hbranch
  obtain ⟨s, t, N, hN, -, -, hregs, -⟩ :=
    hclaim (fun _ ↦ 0) mem 0x400000 rfl 2 c hseq hpad
  -- what the two builds leave in X0
  have hX0 : ∀ (build : Build) (u : Machine) (val : BitVec 64),
      (∀ cycle_max, N ≤ cycle_max →
        runElf build cycle_max (fun _ ↦ defaultOrder) (fun _ ↦ 0) mem 0x400000 = .ok u) →
      (runLoop build 20 (fun _ ↦ defaultOrder) (initMachine (fun _ ↦ 0) mem 0x400000)).map
        (fun u ↦ (u.status, u.regs.GPR 0)) = .ok (.hlt, val) → u.regs.GPR 0 = val := by
    intro build u val hu hrun
    obtain ⟨u', hu', hval⟩ := map_eq_ok.mp hrun
    have hended : u'.running = false := by
      rw [u'.running_eq, show u'.status = .hlt from congrArg Prod.fst hval]
      rfl
    rw [runElf_unique hu' hended hu]
    exact congrArg Prod.snd hval
  have hs := hX0 pipeBuild s 0 (fun m hm ↦ (hN m hm).1) (by decide +kernel)
  have ht := hX0 plainBuild t 1 (fun m hm ↦ (hN m hm).2) (by decide +kernel)
  rw [hregs, hs] at ht
  revert ht
  decide

end SystemEmulator
