import SystemEmulator.Pipeline.Simulation

/-!
# Runs of the pipeline as runs of the sequential machine

The simulation of one cycle, the invariant it needs, and from both the statement about whole runs:
what a state of the pipeline stands for is what the sequential machine reaches from the start.
-/

namespace SystemEmulator

open Outcome Result Relation

section

variable {L : Prop} {s s' : Machine} {r : Mem × DInstr × BitVec 64} {q : Mem × WInstr}

/-- An instruction that completes has not been a stop. -/
theorem not_stop_of_drain (hwf : s.D_out.WF) {c : Core} (h : drain s = pure (c, none)) :
    s.D_out.status.isStop = false := by
  obtain ⟨c₁, c₂, -, -, ⟨-, hcontra⟩ | ⟨-, hX⟩⟩ := drain_eq_pure h
  · cases hcontra
  · obtain ⟨c₃, hexec, ⟨pc, -, hcontra⟩ | ⟨-, hD⟩⟩ := drainX_eq_pure hX
    · cases hcontra
    · cases hstop : s.D_out.status.isStop with
      | false => rfl
      | true =>
        rw [drainD_of_isStop hwf hstop (reaches_of_execute hexec).ready] at hD
        exact absurd hD.symm pure_ne_throw

/-- While decode is held, a latched stop lies on the path of the sequential machine. -/
theorem latched_of_held (hs : s.Inv L) (h : CycleEffect s r q s') (hquiet : s.FetchesQuietly)
    (hloss : L ∨ ¬s.LosesIllegal) (hholds : s.HoldsDecode) (halike : Alike (drain s) (drain s'))
    (hpred : s'.F_out.pred_PC = s.F_out.pred_PC) (hlatched : s'.F_in.status.isStop = true)
    {c' : Core} (hc' : drain s' = pure (c', none)) : StopsAt L c' s'.F_out.pred_PC := by
  rw [hc'] at halike
  obtain ⟨⟨c, redirect⟩, hc, hsame, heq⟩ := halike.of_pure
  simp only at heq
  subst heq
  obtain ⟨hret, hmispred⟩ := not_redirected_of_drain hc
  have hpc := currentPC_of_not_redirected hs.toShape hret hmispred
  have hcleared := clearedStatus_of_not_redirected hs.toShape hret hmispred
  rw [hpred]
  refine StopsAt.congr hsame ?_
  rw [h.F_in] at hlatched
  rcases stop_of_latched hlatched with hstop | hstop
  · cases hhlt : generatesHlt pipeBuild s with
    | true =>
      rw [generatesHlt_iff, hpc, hcleared] at hhlt
      exact hhlt.elim .inl fun hlatched ↦ hs.latched hlatched c hc
    | false =>
      obtain ⟨-, hD_in, -⟩ := fetchResult_of_not_generatesHlt hquiet hhlt h.fetch
      have hstatus : (c.fetched s.F_out.pred_PC).status = r.2.1.status := by
        rw [hD_in, hpc]
        exact Mem.Safe.fetched_status (c := s.core) (hs.safe hc) _
      rcases isStop_cases hstop with hhlt | hins
      · exact .inr (.inl (hstatus.trans hhlt))
      · rcases hloss with hL | hloss
        · exact .inr (.inr ⟨hL, hstatus.trans hins⟩)
        · exact absurd ⟨hholds, c, hc, hstatus.trans hins⟩ hloss
  · rw [hcleared] at hstop
    exact hs.latched hstop c hc

/-- A data access that is in flight after the fetch was so before it. -/
theorem holdsDecode_of_flight (h : CycleEffect s r q s') (hquiet : s.FetchesQuietly)
    (hflight : q.1.dmem_status = .inFlight) : s.HoldsDecode := by
  have hrel := accessed_congr s.M_out (fetchResult_quiet hquiet h.fetch).symm
  rw [h.access] at hrel
  obtain ⟨q', hq', hsame, -⟩ := hrel.exists_of_ok rfl
  refine .inr ⟨q', hq', ?_⟩
  obtain ⟨pt, hpt, -⟩ := hsame
  rw [hpt]
  exact hflight

/-- The data are in order after a cycle, unless a fault is on its way. -/
theorem memOk_cycle (hs : s.Inv L) (h : CycleEffect s r q s') (hquiet : s.FetchesQuietly)
    (hW : s.W_out.status.passes = true) (hkind : CycleKind s s' r q) :
    s'.W_out.status.isError = true ∨ s'.M_out.faults s'.mem = true ∨ s'.mem.Ok := by
  have hsame := fetchResult_quiet hquiet h.fetch
  obtain ⟨hframe, herror⟩ := accessed_frame _ _ _ h.access
  rw [hsame.frame.faults] at herror
  have hframe' := hsame.frame.trans hframe
  rw [h.mem]
  cases hfaults : s.M_out.faults s.mem with
  | false =>
    have hok : s.mem.Ok := by
      rcases hs.memOk with hW' | hM | hok
      · rw [isError_of_passes hW] at hW'
        cases hW'
      · rw [hfaults] at hM
        cases hM
      · exact hok
    have hfaults' : s.M_out.faults r.1 = false := (hsame.frame.faults _).trans hfaults
    exact .inr (.inr (accessed_safe (hsame.ok hok) hfaults' _ h.access).ok)
  | true =>
    rw [hfaults] at herror
    cases hkind with
    | frozen hflight hpred hD hX hM hW' =>
      rw [hM, hframe'.faults]
      exact .inr (.inl hfaults)
    | loadUse hready huse hpred hD hX hM hW' =>
      rw [hW']
      exact .inl herror
    | squash hready hmispred hD hX hM hW' =>
      rw [hW']
      exact .inl herror
    | ret hready huse hmispred hret hD hX hM hW' =>
      rw [hW']
      exact .inl herror
    | load hready huse hmispred hret hpred hD hX hM hW' =>
      rw [hW']
      exact .inl herror

/-- Where the fetch goes on after a cycle in which every instruction moves on. -/
theorem next_of_load (h : CycleEffect s r q s') (hq : q.2.status.passes = true)
    (hpred : s'.F_out.pred_PC = if r.2.1.status.isStop then s.F_out.pred_PC else s'.PC)
    (hstop : r.2.1.status.isStop = false) : s'.F_out.pred_PC = r.2.2 := by
  rw [hpred, if_neg (by rw [hstop]; decide), h.PC, if_neg (by rw [isError_of_passes hq]; decide)]

variable (hs : s.Inv L) (h : CycleEffect s r q s')
  (hrequests : ¬(s.requests r.2.1 q).Contradictory) (hW : s.W_out.status.passes = true)
  (hquiet : s.FetchesQuietly)
include hs h hrequests hW hquiet

/-- One cycle keeps the invariant. -/
theorem Machine.Inv.cycle (hloss : L ∨ ¬s.LosesIllegal) : s'.Inv L where
  toShape := hs.toShape.cycle h hrequests
  memOk := memOk_cycle hs h hquiet hW (h.kind hs.ec_D hrequests)
  latched := by
    intro hlatched c' hc'
    have hpass : q.1.dmem_status ≠ .inFlight → q.2.status.passes = true := by
      intro hready
      cases hq : q.2.status.passes with
      | true => rfl
      | false =>
        obtain ⟨e, he, -⟩ := drain_stopped hs.after_M hs.wf.X_out h hW hquiet hready hq
        rw [hc'] at he
        exact absurd he pure_ne_throw
    cases h.kind hs.ec_D hrequests with
    | frozen hflight hpred hD hX hM hW' =>
      exact latched_of_held hs h hquiet hloss (holdsDecode_of_flight h hquiet hflight)
        (drain_frozen h hW hquiet hflight) hpred hlatched hc'
    | loadUse hready huse hpred hD hX hM hW' =>
      exact latched_of_held hs h hquiet hloss (.inl huse)
        (drain_loadUse h hW hquiet hs.toShape hready (hpass hready) huse hD hX) hpred hlatched hc'
    | squash hready hmispred hD hX hM hW' =>
      exact absurd hc'
        ((drain_squash h hW hquiet hs.toShape hready (hpass hready) hmispred).2 c')
    | ret hready huse hmispred hret hD hX hM hW' =>
      exact absurd hc' ((drain_ret h hW hquiet hs.toShape hready (hpass hready) huse hmispred hret
        hX).2 c')
    | load hready huse hmispred hret hpred hD hX hM hW' =>
      have hstop : r.2.1.status.isStop = true := by
        rw [h.F_in] at hlatched
        rcases stop_of_latched hlatched with hstop | hstop
        · exact hstop
        · rw [fetchResult_of_generatesHlt (generatesHlt_of_cleared hstop) h.fetch]
          rfl
      have hnot := not_stop_of_drain (hs.toShape.cycle h hrequests).wf.D_out hc'
      rw [hD, hstop] at hnot
      cases hnot

/-- One cycle leaves the sequential machine where it is or lets it make a step. -/
theorem Machine.Inv.simulates :
    Alike (resume s') (resume s) ∨ AlikeUpTo L (resume s') (resume s >>= seqStep pipeBuild) := by
  by_cases hready : q.1.dmem_status = .inFlight
  · left
    exact resume_alike (drain_frozen h hW hquiet hready) (.inl (h.frozen hready).1)
  · cases hq : q.2.status.passes with
    | false =>
      left
      obtain ⟨e, he, halike⟩ := drain_stopped hs.after_M hs.wf.X_out h hW hquiet hready hq
      refine resume_alike (he ▸ halike) (.inr fun c hc ↦ ?_)
      rw [he] at hc
      exact absurd hc.symm pure_ne_throw
    | true => cases h.kind hs.ec_D hrequests with
      | frozen hflight hpred hD hX hM hW' => exact absurd hflight hready
      | loadUse _ huse hpred hD hX hM hW' =>
        left
        exact resume_alike (drain_loadUse h hW hquiet hs.toShape hready hq huse hD hX) (.inl hpred)
      | squash _ hmispred hD hX hM hW' =>
        left
        obtain ⟨halike, hredirected⟩ :=
          drain_squash h hW hquiet hs.toShape hready hq hmispred
        exact resume_alike halike (.inr hredirected)
      | ret _ huse hmispred hret hD hX hM hW' =>
        left
        obtain ⟨halike, hredirected⟩ :=
          drain_ret h hW hquiet hs.toShape hready hq huse hmispred hret hX
        exact resume_alike halike (.inr hredirected)
      | load _ huse hmispred hret hpred hD hX hM hW' =>
        rcases load_simulates h hW hquiet hs hready hq hmispred (next_of_load h hq hpred) hD hX huse
          with hnext | ⟨-, halike, hredirected⟩
        · exact .inr hnext
        · exact .inl (resume_alike halike (.inr hredirected))

end

/-! ## Runs -/

theorem seqRun_succ (build : Build) (n : ℕ) (a : Core × BitVec 64) :
    seqRun build (n + 1) a = seqRun build n a >>= seqStep build := by
  induction n generalizing a with
  | zero =>
    change seqStep build a >>= pure = pure a >>= seqStep build
    rw [bind_pure, pure_bind]
  | succ n ih =>
    change seqStep build a >>= seqRun build (n + 1) = (seqStep build a >>= seqRun build n) >>= _
    rw [bind_assoc]
    exact congrArg _ (funext ih)

/-- The pipeline starts empty. -/
theorem resume_initMachine (GPR : ℕ → BitVec 64) (mem : Mem) (entry : BitVec 64) :
    resume (initMachine GPR mem entry) = pure (initCore GPR mem entry, entry) := by
  have hready : (initCore GPR mem entry).mem.dmem_status ≠ .inFlight := MemStatus.noConfusion
  have hdrain : drain (initMachine GPR mem entry) = pure (initCore GPR mem entry, none) := by
    change drainM {} {} {} (initCore GPR mem entry) = _
    unfold drainM
    rw [access_idle MInstr.wf_bubble rfl hready]
    change drainX {} {} (initCore GPR mem entry) = _
    rw [drainX_nop XInstr.wf_bubble rfl _ hready, drainD_idle DInstr.wf_bubble rfl hready]
    rfl
  unfold resume
  rw [hdrain]
  rfl

/-- A cycle after which the loop goes on. -/
theorem effect_of_running {s s' : Machine} (hs : s.Shape)
    (hcycle : cycle pipeBuild defaultOrder s = .ok s') (hrun : s'.running = true) :
    ∃ r q, CycleEffect s r q s' ∧ ¬(s.requests r.2.1 q).Contradictory ∧
      s.W_out.status.passes = true := by
  obtain ⟨r, q, -, -, ⟨-, hhlt⟩ | ⟨hrequests, heffect⟩⟩ := cycle_effect hs.ec_D hs.controls hcycle
  · rw [s'.running_eq, hhlt] at hrun
    cases hrun
  · rw [s'.running_eq, heffect.status] at hrun
    exact ⟨r, q, heffect, hrequests, hrun⟩

/-- Every state of a run in which the loop goes on has the shape. -/
theorem Run.shape {s₀ s : Machine} (hs₀ : s₀.Shape) (h : Run pipeBuild s₀ s)
    (hs : s.running = true) : s.Shape := by
  induction h with
  | refl => exact hs₀
  | tail _ hstep ih =>
    obtain ⟨hrunning, hcycle⟩ := hstep
    obtain ⟨r, q, heffect, hrequests, -⟩ := effect_of_running (ih hrunning) hcycle hs
    exact (ih hrunning).cycle heffect hrequests

/-- The cycles under which the pipeline simulates the sequential machine: the fetch only
materialises a page, and no illegal instruction is lost unless `L` allows for it. -/
def QuietStep (L : Prop) (s s' : Machine) : Prop :=
  Step pipeBuild defaultOrder s s' ∧ s.FetchesQuietly ∧ (L ∨ ¬s.LosesIllegal)

theorem Machine.Inv.step {L : Prop} {s s' : Machine} (hs : s.Inv L) (hstep : QuietStep L s s')
    (hrun : s'.running = true) : s'.Inv L ∧
      (Alike (resume s') (resume s) ∨
        AlikeUpTo L (resume s') (resume s >>= seqStep pipeBuild)) := by
  obtain ⟨⟨-, hcycle⟩, hquiet, hloss⟩ := hstep
  obtain ⟨r, q, heffect, hrequests, hW⟩ := effect_of_running hs.toShape hcycle hrun
  exact ⟨hs.cycle heffect hrequests hW hquiet hloss, hs.simulates heffect hrequests hW hquiet⟩

/-- In a quiet run every state stands for a state that the sequential machine reaches. -/
theorem run_simulates {L : Prop} {s t : Machine} (hs : s.Inv L)
    (hrun : ReflTransGen (fun s s' ↦ QuietStep L s s' ∧ s'.running = true) s t) :
    t.Inv L ∧ ∃ n, AlikeUpTo L (resume t) (resume s >>= seqRun pipeBuild n) := by
  induction hrun with
  | refl =>
    refine ⟨hs, 0, ?_⟩
    change AlikeUpTo L _ (resume s >>= pure)
    rw [bind_pure]
    exact (Alike.refl _).upTo
  | tail _ hstep ih =>
    obtain ⟨ht, n, hn⟩ := ih
    obtain ⟨ht', hsim⟩ := ht.step hstep.1 hstep.2
    refine ⟨ht', ?_⟩
    rcases hsim with hstutter | hnext
    · exact ⟨n, hstutter.upTo.trans hn⟩
    · refine ⟨n + 1, ?_⟩
      have hsucc : resume s >>= seqRun pipeBuild (n + 1) =
          (resume s >>= seqRun pipeBuild n) >>= seqStep pipeBuild := by
        rw [bind_assoc]
        exact congrArg _ (funext fun a ↦ seqRun_succ pipeBuild n a)
      rw [hsucc]
      exact hnext.trans hn.seqStep

end SystemEmulator
