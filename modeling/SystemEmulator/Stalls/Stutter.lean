import SystemEmulator.Stalls.Alike

/-!
# A cycle with the cache and without

A cycle behind the cache that leaves a data access in flight commits the instruction in writeback;
the two pipelines stay in step, and fewer attempts are left.  Every other cycle does what the cycle
on the flat memory does.
-/

namespace SystemEmulator

open Result

/-! ## What every cycle commits -/

section

variable {s s' : Machine} {r : Mem × DInstr × BitVec 64} {q : Mem × WInstr}

/-- What a cycle commits, whether its requests contradict each other or not. -/
structure Commits (s : Machine) (q : Mem × WInstr) (s' : Machine) : Prop where
  regs : s'.regs = written s.W_out s.regs
  NZCV : s'.NZCV =
    if q.1.dmem_status == .inFlight || q.2.status.isError || s.M_out.status.isError then s.NZCV
    else s.flags
  mem : s'.mem = q.1

theorem commits_of_cycle (hfetch : fetchResult pipeBuild s s.mem s.F_PC = .ok r)
    (hacc : accessed s.M_out r.1 = .ok q) (h : cycle pipeBuild defaultOrder s = .ok s') :
    Commits s q s' := by
  obtain ⟨t, hstages, rfl⟩ := cycle_ok h
  rw [runStages_defaultOrder] at hstages
  obtain ⟨r', hfetch', hstages⟩ := bind_eq_ok.mp hstages
  rw [hfetch] at hfetch'
  cases hfetch'
  obtain ⟨q', hacc', rfl⟩ := map_eq_ok.mp hstages
  rw [hacc] at hacc'
  cases hacc'
  refine ⟨?_, finishCycle_NZCV s q.1 r.2.1 _ q.2, ?_⟩
  · rw [finishCycle_eq]
    rfl
  · rw [finishCycle_eq]
    rfl

/-- The effect of a cycle whose fetch and whose data access are known. -/
theorem cycle_effect_of (hs : s.Shape) (hfetch : fetchResult pipeBuild s s.mem s.F_PC = .ok r)
    (hacc : accessed s.M_out r.1 = .ok q) (h : cycle pipeBuild defaultOrder s = .ok s') :
    (s.requests r.2.1 q).Contradictory ∧ s'.status = .hlt ∨
      ¬(s.requests r.2.1 q).Contradictory ∧ CycleEffect s r q s' := by
  obtain ⟨r', q', hfetch', hacc', heffect⟩ := cycle_effect hs.ec_D hs.controls h
  rw [hfetch] at hfetch'
  cases hfetch'
  rw [hacc] at hacc'
  cases hacc'
  exact heffect

/-- While a data access is in flight, no requests contradict each other. -/
theorem not_contradictory_of_inFlight (hflight : q.1.dmem_status = .inFlight) (D_in : DInstr) :
    ¬(s.requests D_in q).Contradictory := by
  unfold Machine.requests
  rw [if_pos hflight]
  rintro (⟨hb, -⟩ | ⟨hb, -⟩ | ⟨hb, -⟩) <;> cases hb

end

/-! ## The data access -/

section

variable {d : ℕ} {s t : Machine} (hd : 1 ≤ d) (h : Shadows d s t)
include h

/-- A stop in memory has no access behind the cache either. -/
theorem Shadows.not_stop_of_accesses (haccess : t.M_out.accesses = true) :
    s.M_out.status.isStop = false ∧ t.M_out = s.M_out := by
  cases hM : s.M_out.status.isStop with
  | false => exact ⟨rfl, h.M_out.eq_of_not_stop hM⟩
  | true =>
    rw [h.shape'.wf.M_out.accesses_of_stop (h.M_out.isStop.trans hM)] at haccess
    cases haccess

include hd

/-- The data access of a cycle behind the cache. -/
theorem Shadows.access (hrejects : s.M_out.rejects s.mem = false) {m m' : Mem}
    (hm : s.mem.Same m) (hm' : t.mem.Same m') {q : Mem × WInstr}
    (hacc : accessed s.M_out m = .ok q) :
    q.1.cache = none ∧ q.1.dmem_status = .ready ∧ q.2.status = s.M_out.status ∧
      ∃ q' w, accessed t.M_out m' = .ok q' ∧ q'.1.Behind d ∧ t.M_out.Attempt m' q' q.1.guest w ∧
        Like WInstr.status q.2 w ∧ (s.D_out.status.isStop = false → w = q.2) := by
  have hflat : m.cache = none := by
    obtain ⟨pt, rfl, -⟩ := hm
    exact h.flat
  have hready : m.dmem_status = .ready := hm.dmem_status.trans h.ready
  have hbehind := hm'.behind h.behind
  have hguest : m'.guest = m.guest :=
    (hm'.guest.trans h.guest).trans hm.guest.symm
  cases hM : s.M_out.status.isStop with
  | false =>
    have hM' := h.M_out.eq_of_not_stop hM
    have hrejects' : s.M_out.rejects m = false := by
      rw [← hrejects]
      unfold MInstr.rejects
      rw [hm.frame.dmemErr]
    obtain ⟨hcache, hstatus, hw, q', hacc', hbehind', hattempt⟩ :=
      accessed_behind h.shape.wf.M_out hflat hready hbehind hguest hd
        (hm'.dmem_status.symm ▸ h.waits) hrejects' hacc
    rw [← hM'] at hacc' hattempt
    exact ⟨hcache, hstatus, hw, q', q.2, hacc', hbehind', hattempt, .refl _, fun _ ↦ rfl⟩
  | true =>
    have hidle := h.shape.wf.M_out.accesses_of_stop hM
    have hidle' := h.shape'.wf.M_out.accesses_of_stop (h.M_out.isStop.trans hM)
    rw [accessed_of_not_accesses hidle] at hacc
    cases hacc
    have hready' : m'.dmem_status = .ready := by
      rcases h.waits with hready' | ⟨hcontra, -⟩
      · exact hm'.dmem_status.trans hready'
      · rw [hidle] at hcontra
        cases hcontra
    refine ⟨hflat, hready, rfl, _, _, accessed_of_not_accesses hidle' m', hbehind,
      .done hready' hguest rfl ?_, ?_, ?_⟩
    · refine (and_iff_left fun hcontra ↦ ?_).symm
      rw [hidle'] at hcontra
      cases hcontra
    · exact .inr (h.M_out.bothStop hM)
    · intro hD
      rw [h.shape.stop_D (h.shape.stop_X hM)] at hD
      cases hD

end

/-! ## A cycle that waits -/

section

variable {d : ℕ} {s t t' : Machine} (h : Shadows d s t) {r r' : Mem × DInstr × BitVec 64}
  {q' : Mem × WInstr} (heffect : CycleEffect t r' q' t')
  (hfetch : fetchResult pipeBuild s s.mem s.F_PC = .ok r)
  (hlike : Like DInstr.status r.2.1 r'.2.1) (hflight : q'.1.dmem_status = .inFlight)
include h heffect hflight

theorem Shadows.inStep_of_waits : InStep s t' := by
  obtain ⟨hpred, hD, hX, hM, hW⟩ := heffect.frozen hflight
  have hNZCV : t'.NZCV = t.NZCV := by
    rw [heffect.NZCV, hflight]
    rfl
  exact ⟨h.shape, h.shape'.cycle heffect (not_contradictory_of_inFlight hflight _),
    hpred.trans h.pred_PC, hNZCV.trans h.NZCV, hD ▸ h.D_out, hX ▸ h.X_out, hM ▸ h.M_out⟩

include hfetch hlike

/-- A stop that is fetched while an access waits is latched, and it is generated again. -/
theorem Shadows.latched_of_waits :
    (generatesHlt pipeBuild s = true → generatesHlt pipeBuild t' = true) ∧
      (generatesHlt pipeBuild t' = true → r.2.1.status.isStop = true) := by
  have hstep := h.inStep_of_waits heffect hflight
  have hstop : r'.2.1.status.isStop = true → r.2.1.status.isStop = true := fun hstop ↦
    hlike.isStop ▸ hstop
  by_cases hpc : currentPC pipeBuild s = 0
  · refine ⟨fun _ ↦ generatesHlt_iff.mpr (.inl (hstep.currentPC_eq.trans hpc)), fun _ ↦ ?_⟩
    rw [fetchResult_of_generatesHlt (generatesHlt_iff.mpr (.inl hpc)) hfetch]
    rfl
  · by_cases hredirected : s.X_out.op = .ret ∨ s.M_out.mispredicted = true
    · have hredirected' : t'.X_out.op = .ret ∨ t'.M_out.mispredicted = true := by
        rwa [hstep.ret_iff, hstep.mispredicted_eq]
      have hclear := clearedStatus_of_redirected h.shape hpc hredirected
      have hclear' := clearedStatus_of_redirected hstep.shape' (hstep.currentPC_eq ▸ hpc)
        hredirected'
      constructor
      · intro hhlt
        rcases generatesHlt_iff.mp hhlt with hzero | hcontra
        · exact absurd hzero hpc
        · rw [hclear] at hcontra
          cases hcontra
      · intro hhlt
        rcases generatesHlt_iff.mp hhlt with hzero | hcontra
        · exact absurd (hstep.currentPC_eq.symm.trans hzero) hpc
        · rw [hclear'] at hcontra
          cases hcontra
    · obtain ⟨hret, hmispred⟩ := not_or.mp hredirected
      rw [Bool.not_eq_true] at hmispred
      have hclear' : clearedStatus pipeBuild t' = t'.F_in.status :=
        clearedStatus_of_not_redirected hstep.shape' (fun hcontra ↦ hret (hstep.ret_iff.mp hcontra))
          (hstep.mispredicted_eq.trans hmispred)
      constructor
      · intro hhlt
        apply generatesHlt_of_cleared
        rw [hclear', heffect.F_in]
        apply isStop_latchedStatus
        rw [fetchResult_of_generatesHlt (h.halts hhlt) heffect.fetch]
        rfl
      · intro hhlt
        rcases generatesHlt_iff.mp hhlt with hzero | hlatched
        · exact absurd (hstep.currentPC_eq.symm.trans hzero) hpc
        · rw [hclear', heffect.F_in] at hlatched
          rcases stop_of_latched hlatched with hstop' | hcleared
          · exact hstop hstop'
          · exact h.stops (generatesHlt_of_cleared hcleared) r hfetch

/-- A cycle that waits commits the instruction in writeback; apart from that nothing happens. -/
theorem Shadows.stutter (hbehind : q'.1.Behind d) (hguest : q'.1.guest = t.mem.guest)
    (haccess : t.M_out.accesses = true ∧ isSpecialAddr t.M_out.val_ex = false) :
    Shadows d s t' ∧ t'.running = true := by
  obtain ⟨-, -, -, hM, hW⟩ := heffect.frozen hflight
  obtain ⟨hhalts, hstops⟩ := h.latched_of_waits heffect hfetch hlike hflight
  obtain ⟨hstop, hsame⟩ := h.not_stop_of_accesses haccess.1
  have hstopW : s.W_out.status.isStop = false := by
    rw [Bool.eq_false_iff]
    exact fun hcontra ↦ Bool.eq_false_iff.mp hstop (h.shape.stop_M hcontra)
  have hpasses : s.W_out.status.passes = true := by
    have hadr := h.not_adr
    revert hstopW hadr
    cases s.W_out.status <;> intro hstopW hadr <;> first
      | rfl
      | (cases hstopW; done)
      | exact absurd rfl hadr
  have hregs : t'.regs = written s.W_out s.regs ∧ t.W_out.status.passes = true := by
    have hregs : t'.regs = written t.W_out t.regs := heffect.regs
    rcases h.W_out with ⟨hold, hlikeW⟩ | ⟨hold, hbubble, -⟩
    · rw [hlikeW.eq_of_not_stop hstopW] at hregs ⊢
      exact ⟨hregs.trans (congrArg _ hold), hpasses⟩
    · rw [hbubble] at hregs ⊢
      exact ⟨hregs.trans hold, rfl⟩
  constructor
  · refine ⟨h.inStep_of_waits heffect hflight, .inr ⟨hregs.1, hW, hpasses⟩, h.not_adr, hhalts, ?_,
      h.flat, h.ready, heffect.mem ▸ hbehind, ?_, .inr (hsame ▸ haccess)⟩
    · intro hhlt r₁ hr₁
      rw [hfetch] at hr₁
      cases hr₁
      exact hstops hhlt
    · rw [heffect.mem, hguest, h.guest]
  · rw [t'.running_eq, heffect.status]
    exact hregs.2

end

/-! ## A cycle that moves on -/

/-- What both pipelines fetch and access in a cycle that moves on. -/
structure MovesOn (d : ℕ) (s t : Machine) (r r' : Mem × DInstr × BitVec 64)
    (q q' : Mem × WInstr) : Prop where
  fetch : fetchResult pipeBuild s s.mem s.F_PC = .ok r
  fetch' : fetchResult pipeBuild t t.mem t.F_PC = .ok r'
  D_in : Like DInstr.status r.2.1 r'.2.1
  F_PC : r.2.1.status.isStop = false → r'.2.2 = r.2.2
  access : accessed s.M_out r.1 = .ok q
  access' : accessed t.M_out r'.1 = .ok q'
  W_in : Like WInstr.status q.2 q'.2
  W_in_eq : s.D_out.status.isStop = false → q'.2 = q.2
  status : q.2.status = s.M_out.status
  flat : q.1.cache = none
  ready : q.1.dmem_status = .ready
  ready' : q'.1.dmem_status = .ready
  behind : q'.1.Behind d
  guest : q'.1.guest = q.1.guest

section

variable {d : ℕ} {s s' t t' : Machine} (h : Shadows d s t) {r r' : Mem × DInstr × BitVec 64}
  {q q' : Mem × WInstr} (hmoves : MovesOn d s t r r' q q')
include h

theorem Shadows.written_eq : written t.W_out t.regs = written s.W_out s.regs := by
  rcases h.W_out with ⟨hregs, hW⟩ | ⟨hregs, hW, -⟩
  · cases hstop : s.W_out.status.isStop with
    | false => rw [hregs, hW.eq_of_not_stop hstop]
    | true =>
      rw [written_of_stop h.shape.wf.W_out hstop,
        written_of_stop h.shape'.wf.W_out (hW.isStop.trans hstop), hregs]
  · rw [hW, written_bubble, hregs]

include hmoves

theorem MovesOn.requests_eq : t.requests r'.2.1 q' = s.requests r.2.1 q :=
  h.requests_eq hmoves.D_in.isStop (not_inFlight_of_ready hmoves.ready)
    (not_inFlight_of_ready hmoves.ready') hmoves.W_in_eq

/-- Both commit the same. -/
theorem MovesOn.commits (hs : Commits s q s') (ht : Commits t q' t') :
    t'.regs = s'.regs ∧ t'.NZCV = s'.NZCV ∧ t'.mem.guest = s'.mem.guest := by
  refine ⟨?_, ?_, ?_⟩
  · rw [ht.regs, hs.regs, h.written_eq]
  · rw [ht.NZCV, hs.NZCV, hmoves.ready, hmoves.ready', h.flags_eq, h.NZCV]
    cases hM : s.M_out.status.isStop with
    | false =>
      have hq : q'.2 = q.2 := by
        apply hmoves.W_in.eq_of_not_stop
        rw [hmoves.status, hM]
      rw [hq, h.M_out.eq_of_not_stop hM]
    | true =>
      rw [h.shape.flags_of_stop (h.shape.stop_X hM), ite_self, ite_self]
  · rw [ht.mem, hs.mem, hmoves.guest]

/-- A fetched stop keeps the predicted PC; otherwise both go on at the same address. -/
theorem MovesOn.pred_PC_eq (hs : CycleEffect s r q s') (ht : CycleEffect t r' q' t') :
    t'.F_out.pred_PC = s'.F_out.pred_PC := by
  rw [ht.pred_PC, hs.pred_PC, hmoves.requests_eq h, h.pred_PC]
  cases hstop : r.2.1.status.isStop with
  | true =>
    have hstall : (s.requests r.2.1 q).F_bubble = false ∧ (s.requests r.2.1 q).F_stall = true := by
      unfold Machine.requests
      rw [if_neg (not_inFlight_of_ready hmoves.ready)]
      unfold hazardRequest
      rcases isStop_cases hstop with hhlt | hins
      · rw [hhlt]
        exact ⟨Bool.and_false _, rfl⟩
      · rw [hins]
        exact ⟨Bool.and_false _, rfl⟩
    unfold requested
    rw [hstall.1, hstall.2]
    rfl
  | false =>
    have hD : s.D_out.status.isStop = false := by
      rw [Bool.eq_false_iff]
      intro hD
      rw [fetchResult_of_generatesHlt (generatesHlt_of_stop h.shape hD).2 hmoves.fetch] at hstop
      cases hstop
    rw [ht.PC, hs.PC, hmoves.W_in_eq hD, (h.same hD).2.2, hmoves.F_PC hstop]

/-- What execute is handed is alike. -/
theorem MovesOn.forwarded_like : Like XInstr.status (s.forwarded q.2) (t.forwarded q'.2) := by
  cases hD : s.D_out.status.isStop with
  | false =>
    rw [hmoves.W_in_eq hD, h.forwarded_eq hD]
    exact .refl _
  | true => exact .inr (h.D_out.bothStop hD)

omit hmoves in
/-- What the memory stage is handed is alike. -/
theorem Shadows.executing_like : Like MInstr.status s.executing t.executing := by
  cases hX : s.X_out.status.isStop with
  | false =>
    rw [h.executing_eq hX]
    exact .refl _
  | true => exact .inr (h.X_out.bothStop hX)

theorem MovesOn.inStep (hrequests : ¬(s.requests r.2.1 q).Contradictory)
    (hs : CycleEffect s r q s') (ht : CycleEffect t r' q' t') (hNZCV : t'.NZCV = s'.NZCV) :
    InStep s' t' := by
  have hcalls := hmoves.requests_eq h
  refine ⟨h.shape.cycle hs hrequests, h.shape'.cycle ht (hcalls ▸ hrequests),
    hmoves.pred_PC_eq h hs ht, hNZCV, ?_, ?_, ?_⟩
  · rw [ht.D_out, hs.D_out, hcalls]
    exact hmoves.D_in.requested h.D_out _ _ _
  · rw [ht.X_out, hs.X_out, hcalls]
    exact (hmoves.forwarded_like h).requested h.X_out _ _ _
  · rw [(hs.moves (not_inFlight_of_ready hmoves.ready)).1,
      (ht.moves (not_inFlight_of_ready hmoves.ready')).1]
    exact h.executing_like

omit h in
/-- Both latch a stop, or none. -/
theorem MovesOn.latched_eq (hs : CycleEffect s r q s') (ht : CycleEffect t r' q' t') :
    t'.F_in.status.isStop = s'.F_in.status.isStop := by
  have hclear : ∀ {u : Machine} {r₁ : Mem × DInstr × BitVec 64},
      fetchResult pipeBuild u u.mem u.F_PC = .ok r₁ → r₁.2.1.status.isStop = false →
        (clearedStatus pipeBuild u).isStop = false := by
    intro u r₁ hfetch hnot
    rw [Bool.eq_false_iff]
    intro hcleared
    rw [fetchResult_of_generatesHlt (generatesHlt_of_cleared hcleared) hfetch] at hnot
    cases hnot
  rw [ht.F_in, hs.F_in]
  cases hstop : r.2.1.status.isStop with
  | true =>
    rw [isStop_latchedStatus hstop, isStop_latchedStatus (hmoves.D_in.isStop.trans hstop)]
  | false =>
    have hstop' := hmoves.D_in.isStop.trans hstop
    rw [latchedStatus_of_not_stop hstop, latchedStatus_of_not_stop hstop',
      hclear hmoves.fetch hstop, hclear hmoves.fetch' hstop']

omit hmoves in
/-- No instruction comes with an address fault. -/
theorem Shadows.status_ne_adr : s.M_out.status ≠ .adr := by
  intro hadr
  rcases h.shape.wf.M_out.status with hstatus | ⟨-, hstatus⟩
  · rw [hstatus] at hadr
    revert hadr
    cases s.M_out.op <;> exact nofun
  · rw [hstatus] at hadr
    cases hadr

/-- The relation holds behind a cycle that moves on. -/
theorem MovesOn.shadows (hrequests : ¬(s.requests r.2.1 q).Contradictory)
    (hs : CycleEffect s r q s') (ht : CycleEffect t r' q' t') (hregs : t'.regs = s'.regs)
    (hNZCV : t'.NZCV = s'.NZCV) : Shadows d s' t' := by
  have hW := (hs.moves (not_inFlight_of_ready hmoves.ready)).2
  have hW' := (ht.moves (not_inFlight_of_ready hmoves.ready')).2
  have hstep := hmoves.inStep h hrequests hs ht hNZCV
  have hhlt := hstep.generatesHlt_eq (hmoves.latched_eq hs ht)
  refine ⟨hstep, .inl ⟨hregs, ?_⟩, ?_, fun hs' ↦ hhlt.trans hs', fun ht' r₁ hr₁ ↦ ?_, ?_, ?_, ?_,
    ?_, .inl ?_⟩
  · rw [hW, hW']
    exact hmoves.W_in
  · rw [hW, hmoves.status]
    exact h.status_ne_adr
  · rw [fetchResult_of_generatesHlt (hhlt.symm.trans ht') hr₁]
    rfl
  · rw [hs.mem]
    exact hmoves.flat
  · rw [hs.mem]
    exact hmoves.ready
  · rw [ht.mem]
    exact hmoves.behind
  · rw [ht.mem, hs.mem]
    exact hmoves.guest
  · rw [ht.mem]
    exact hmoves.ready'

/-- Where the flat run halts, the run behind the cache halts in the same cycle. -/
theorem MovesOn.halts (hcycle : cycle pipeBuild defaultOrder s = .ok s')
    (hcycle' : cycle pipeBuild defaultOrder t = .ok t') (hhlt : s'.status = .hlt) :
    t'.status = .hlt := by
  rcases cycle_effect_of h.shape' hmoves.fetch' hmoves.access' hcycle' with
    ⟨-, hhlt'⟩ | ⟨hrequests', heffect'⟩
  · exact hhlt'
  · rcases cycle_effect_of h.shape hmoves.fetch hmoves.access hcycle with
      ⟨hcontra, -⟩ | ⟨-, heffect⟩
    · rw [← hmoves.requests_eq h] at hcontra
      exact absurd hcontra hrequests'
    · rw [heffect.status] at hhlt
      rw [heffect'.status]
      rcases h.W_out with ⟨-, hlikeW⟩ | ⟨-, -, hpasses⟩
      · exact hlikeW.halts hhlt
      · rw [hhlt] at hpasses
        cases hpasses

theorem MovesOn.goesOn (hcycle : cycle pipeBuild defaultOrder s = .ok s')
    (hcycle' : cycle pipeBuild defaultOrder t = .ok t') (hregs : t'.regs = s'.regs)
    (hNZCV : t'.NZCV = s'.NZCV) (hrunning : s'.running = true) :
    t'.running = true ∧ Shadows d s' t' := by
  rcases cycle_effect_of h.shape hmoves.fetch hmoves.access hcycle with
    ⟨-, hhlt⟩ | ⟨hrequests, heffect⟩
  · rw [s'.running_eq, hhlt] at hrunning
    cases hrunning
  · rcases cycle_effect_of h.shape' hmoves.fetch' hmoves.access' hcycle' with
      ⟨hcontra, -⟩ | ⟨-, heffect'⟩
    · rw [hmoves.requests_eq h] at hcontra
      exact absurd hcontra hrequests
    · refine ⟨?_, hmoves.shadows h hrequests heffect heffect' hregs hNZCV⟩
      rw [s'.running_eq, heffect.status] at hrunning
      rw [t'.running_eq, heffect'.status]
      rcases h.W_out with ⟨-, hlikeW⟩ | ⟨-, hbubble, -⟩
      · have hstop : s.W_out.status.isStop = false := by
          revert hrunning
          cases s.W_out.status <;> intro hrunning <;> first | rfl | cases hrunning
        rwa [hlikeW.eq_of_not_stop hstop]
      · rw [hbubble]
        rfl

end

/-! ## One cycle behind the cache -/

/-- A cycle commits the instruction in writeback, and nothing else happens in it. -/
structure Stutters (t t' : Machine) : Prop where
  regs : t'.regs = written t.W_out t.regs
  W_out : t'.W_out = {}
  pred_PC : t'.F_out.pred_PC = t.F_out.pred_PC
  D_out : t'.D_out = t.D_out
  X_out : t'.X_out = t.X_out
  M_out : t'.M_out = t.M_out
  NZCV : t'.NZCV = t.NZCV
  guest : t'.mem.guest = t.mem.guest

/-- When the data access of a machine is a read that misses, it reads inside the block. -/
def Machine.ReadsInside (t : Machine) : Prop := t.M_out.ReadsInside t.mem

instance (t : Machine) : Decidable t.ReadsInside :=
  inferInstanceAs (Decidable (MInstr.ReadsInside _ _))

/-- A cycle behind the cache does what the cycle from `s` to `s'` does on the flat memory. -/
structure Moves (d : ℕ) (s s' t t' : Machine) : Prop where
  ready : t'.mem.dmem_status = .ready
  regs : t'.regs = s'.regs
  NZCV : t'.NZCV = s'.NZCV
  guest : t'.mem.guest = s'.mem.guest
  halts : s'.status = .hlt → t'.status = .hlt
  goesOn : s'.running = true → t'.running = true ∧ Shadows d s' t'
  undefined : t'.mem.undefined = false ↔ t.mem.undefined = false ∧ t.ReadsInside

/-- A cycle behind the cache waits for a data access, or it moves on. -/
inductive Next (d : ℕ) (s s' t t' : Machine) : Prop
  | waits (stutters : Stutters t t') (shadows : Shadows d s t') (running : t'.running = true)
      (less : t'.mem.waiting s.M_out.val_ex < t.mem.waiting s.M_out.val_ex)
      (undefined : t'.mem.undefined = t.mem.undefined) (inside : t'.ReadsInside ↔ t.ReadsInside)
  | moves (moves : Moves d s s' t t')

theorem Shadows.cycle {d : ℕ} {s s' t : Machine} (hd : 1 ≤ d) (h : Shadows d s t)
    (htext : s.FetchesText) (hrejects : s.M_out.rejects s.mem = false)
    (hcycle : cycle pipeBuild defaultOrder s = .ok s') :
    ∃ t', cycle pipeBuild defaultOrder t = .ok t' ∧ Next d s s' t t' := by
  obtain ⟨r, q, hfetch, hacc, -⟩ := cycle_effect h.shape.ec_D h.shape.controls hcycle
  obtain ⟨r', hfetch', hlike, hF_PC⟩ := h.fetch hd htext hfetch
  obtain ⟨hquiet, hquiet'⟩ := h.fetchesQuietly hd htext
  have hsame := fetchResult_quiet hquiet' hfetch'
  obtain ⟨hflat, hready, hstatus, q', w, hacc', hbehind, hattempt, hW, hW_eq⟩ :=
    h.access hd hrejects (fetchResult_quiet hquiet hfetch) hsame hacc
  obtain ⟨t', hcycle'⟩ := cycle_of_ok hfetch' hacc'
  have hcommits' := commits_of_cycle hfetch' hacc' hcycle'
  refine ⟨t', hcycle', ?_⟩
  -- what the fetch does to the memory changes neither the timer nor the blocks
  obtain ⟨pt, hr', -⟩ := id hsame
  have hinside : t.M_out.ReadsInside r'.1 ↔ t.ReadsInside := by
    rw [hr']
    rfl
  cases hattempt with
  | waits hflight hguest haccess hless hundefined hkeeps =>
    have heffect : CycleEffect t r' q' t' := by
      rcases cycle_effect_of h.shape' hfetch' hacc' hcycle' with ⟨hcontra, -⟩ | ⟨-, heffect⟩
      · exact absurd hcontra (not_contradictory_of_inFlight hflight _)
      · exact heffect
    have hguest' : q'.1.guest = t.mem.guest := hguest.trans hsame.guest
    obtain ⟨hshadows, hrunning⟩ := h.stutter heffect hfetch hlike hflight hbehind hguest' haccess
    obtain ⟨hpred, hD, hX, hM, hW'⟩ := heffect.frozen hflight
    have hNZCV := hcommits'.NZCV
    rw [hflight] at hNZCV
    refine .waits ⟨hcommits'.regs, hW', hpred, hD, hX, hM, hNZCV, ?_⟩ hshadows hrunning ?_ ?_ ?_
    · rw [hcommits'.mem, hguest']
    · rw [(h.not_stop_of_accesses haccess.1).2, hsame.waiting] at hless
      rw [hcommits'.mem]
      exact hless
    · rw [hcommits'.mem, hundefined, hsame.undefined]
    · rw [← hinside, ← hkeeps, Machine.ReadsInside, hM, hcommits'.mem]
  | done hready' hguest hw hdefined =>
    subst hw
    have hmoves : MovesOn d s t r r' q q' := ⟨hfetch, hfetch', hlike, hF_PC, hacc, hacc', hW, hW_eq,
      hstatus, hflat, hready, hready', hbehind, hguest⟩
    obtain ⟨hregs, hNZCV, hguest'⟩ :=
      hmoves.commits h (commits_of_cycle hfetch hacc hcycle) hcommits'
    refine .moves ⟨hcommits'.mem ▸ hready', hregs, hNZCV, hguest', hmoves.halts h hcycle hcycle',
      hmoves.goesOn h hcycle hcycle' hregs hNZCV, ?_⟩
    rw [hcommits'.mem, hdefined, hsame.undefined, hinside]

end SystemEmulator
