import SystemEmulator.Pipeline.Drained

/-!
# The shape of the pipeline

A return in execute and a wrongly predicted branch in memory are followed by bubbles, and a halt or
an illegal instruction is followed by halts that the fetch stage generates.
-/

namespace SystemEmulator

open Outcome Result

/-- What follows a redirect or a stop in the pipeline. -/
structure Machine.Shape (s : Machine) : Prop where
  wf : s.WF
  controls : ¬s.PipeError
  ec_D : s.D_out.op.isEc = false
  ec_X : s.X_out.op.isEc = false
  after_ret : s.X_out.op = .ret → s.D_out.op = .nop
  after_mispredicted : s.M_out.mispredicted = true → s.X_out.op = .nop ∧ s.D_out.op = .nop
  after_D : s.D_out.status.isStop = true → s.F_in.status.isStop = true
  after_X : s.X_out.status.isStop = true → s.D_out.op = .hlt
  after_M : s.M_out.status.isStop = true → s.X_out.op = .hlt
  after_W : s.W_out.status.isStop = true → s.M_out.op = .hlt

/-- Only a `HLT` and a word that is no instruction stop. -/
theorem StatusOk.isStop_iff {op : Opcode} {status : Stat} (h : StatusOk op status) :
    status.isStop = true ↔ op = .hlt ∨ op = .error := by
  rcases h with hstatus | ⟨hop, hstatus⟩
  · rw [hstatus]
    cases op <;> decide
  · rw [hop, hstatus]
    decide

theorem initMachine_shape (GPR : ℕ → BitVec 64) (mem : Mem) (entry : BitVec 64) :
    (initMachine GPR mem entry).Shape where
  wf := initMachine_wf GPR mem entry
  controls := by simp [Machine.PipeError, initMachine]
  ec_D := rfl
  ec_X := rfl
  after_ret := fun _ ↦ rfl
  after_mispredicted := fun _ ↦ ⟨rfl, rfl⟩
  after_D := fun h ↦ Bool.noConfusion h
  after_X := fun h ↦ Bool.noConfusion h
  after_M := fun h ↦ Bool.noConfusion h
  after_W := fun h ↦ Bool.noConfusion h

/-! ## Where the fetch goes on -/

section

variable {s : Machine} (hs : s.Shape)
include hs

theorem Machine.Shape.isIndirectBranch_iff : isIndirectBranch s.X_out.op = true ↔
    s.X_out.op = .ret := by
  have hec := hs.ec_X
  revert hec
  cases s.X_out.op <;> intro hec <;> first | (cases hec; done) | decide

theorem currentPC_of_ret (hret : s.X_out.op = .ret) : currentPC pipeBuild s = s.X_out.val_a := by
  unfold currentPC selectPC
  rw [hs.after_ret hret, hret]
  rfl

theorem currentPC_of_mispredicted (h : s.M_out.mispredicted = true) :
    currentPC pipeBuild s = s.M_out.multipurpose_val := by
  obtain ⟨hX, hD⟩ := hs.after_mispredicted h
  have hbranch : s.M_out.op = .bCond ∧ ¬s.M_out.cond_holds = true := by
    simpa [MInstr.mispredicted] using h
  unfold currentPC selectPC
  rw [hX, hD, hbranch.1]
  simp [isIndirectBranch, hbranch.2]

theorem currentPC_of_not_redirected (hret : s.X_out.op ≠ .ret)
    (hmispred : s.M_out.mispredicted = false) :
    currentPC pipeBuild s = s.F_out.pred_PC := by
  have hindirect : isIndirectBranch s.X_out.op = false := by
    rw [Bool.eq_false_iff, ne_eq, hs.isIndirectBranch_iff]
    exact hret
  have hbranch : ¬(s.M_out.op = .bCond ∧ ¬s.M_out.cond_holds = true) := by
    simpa [MInstr.mispredicted] using hmispred
  unfold currentPC selectPC
  simp only [hindirect, hbranch, Bool.false_eq_true, and_false, ↓reduceIte,
    not_true_eq_false]
  split
  · next h => exact h.2.symm
  · rfl

/-- The latch of the fetch stage is cleared exactly by a redirect. -/
theorem clearedStatus_of_redirected (hpc : currentPC pipeBuild s ≠ 0)
    (h : s.X_out.op = .ret ∨ s.M_out.mispredicted = true) : clearedStatus pipeBuild s = .aok := by
  unfold clearedStatus
  refine if_pos ⟨rfl, hpc, ?_⟩
  rcases h with hret | hmispred
  · exact .inl (hs.isIndirectBranch_iff.mpr hret)
  · exact .inr (by simpa [MInstr.mispredicted] using hmispred)

theorem clearedStatus_of_not_redirected (hret : s.X_out.op ≠ .ret)
    (hmispred : s.M_out.mispredicted = false) : clearedStatus pipeBuild s = s.F_in.status := by
  unfold clearedStatus
  refine if_neg fun h ↦ ?_
  rcases h.2.2 with hindirect | hbranch
  · exact hret (hs.isIndirectBranch_iff.mp hindirect)
  · have hcontra : s.M_out.mispredicted = true := by simpa [MInstr.mispredicted] using hbranch
    rw [hmispred] at hcontra
    cases hcontra

/-- An instruction in decode has not been dropped by a redirect. -/
theorem Machine.Shape.not_redirected (hD : s.D_out.op ≠ .nop) :
    s.X_out.op ≠ .ret ∧ s.M_out.mispredicted = false := by
  refine ⟨fun hret ↦ hD (hs.after_ret hret), ?_⟩
  cases hmispred : s.M_out.mispredicted with
  | false => rfl
  | true => exact absurd (hs.after_mispredicted hmispred).2 hD

/-- An instruction in execute has not been dropped either. -/
theorem Machine.Shape.not_mispredicted (hX : s.X_out.op ≠ .nop) : s.M_out.mispredicted = false := by
  rw [Bool.eq_false_iff]
  exact fun hmispred ↦ hX (hs.after_mispredicted hmispred).1

/-- Behind a stop in decode the fetch stage generates halts. -/
theorem generatesHlt_of_stop (hD : s.D_out.status.isStop = true) :
    clearedStatus pipeBuild s = s.F_in.status ∧ generatesHlt pipeBuild s = true := by
  have hne : s.D_out.op ≠ .nop := by
    rcases hs.wf.D_out.status.isStop_iff.mp hD with hop | hop <;> rw [hop] <;> decide
  obtain ⟨hret, hmispred⟩ := hs.not_redirected hne
  have hcleared := clearedStatus_of_not_redirected hs hret hmispred
  exact ⟨hcleared, generatesHlt_of_cleared (hcleared ▸ hs.after_D hD)⟩

end

theorem fetchResult_of_generatesHlt {s : Machine} {r : Mem × DInstr × BitVec 64}
    (hhlt : generatesHlt pipeBuild s = true)
    (hfetch : fetchResult pipeBuild s s.mem s.F_PC = .ok r) :
    r = (s.mem, generatedHlt s.D_in, s.F_PC) := by
  unfold fetchResult at hfetch
  rw [hhlt] at hfetch
  exact (Except.ok.inj hfetch).symm

/-! ## One cycle keeps the shape -/

section

variable {s s' : Machine} {r : Mem × DInstr × BitVec 64} {q : Mem × WInstr}

theorem fetchResult_wf (h : fetchResult pipeBuild s s.mem s.F_PC = .ok r) :
    r.2.1.WF ∧ r.2.1.op.isEc = false := by
  rcases fetchResult_record h with heq | ⟨pc, insnbits, err, heq⟩
  · rw [heq]
    exact ⟨wf_generatedHlt _, rfl⟩
  · rw [heq]
    exact ⟨wf_fetchedInstr _ _ _ _, isEc_fetchedInstr _ _ _ _⟩

theorem Machine.WF.executing (hs : s.WF) : s.executing.WF := hs.X_out.executed s.NZCV

theorem Machine.WF.forwarded (hs : s.WF) (w : WInstr) : (s.forwarded w).WF :=
  (hs.D_out.decoded s.regs).forward _ _

/-- The five ways in which decode and execute are clocked. -/
inductive CycleKind (s s' : Machine) (r : Mem × DInstr × BitVec 64) (q : Mem × WInstr) : Prop
  | frozen (hflight : q.1.dmem_status = .inFlight)
      (hpred : s'.F_out.pred_PC = s.F_out.pred_PC) (hD : s'.D_out = s.D_out)
      (hX : s'.X_out = s.X_out) (hM : s'.M_out = s.M_out) (hW : s'.W_out = {})
  | loadUse (hready : q.1.dmem_status ≠ .inFlight) (huse : s.loadUse = true)
      (hpred : s'.F_out.pred_PC = s.F_out.pred_PC) (hD : s'.D_out = s.D_out) (hX : s'.X_out = {})
      (hM : s'.M_out = s.executing) (hW : s'.W_out = q.2)
  | squash (hready : q.1.dmem_status ≠ .inFlight) (hmispred : s.executing.mispredicted = true)
      (hD : s'.D_out = {}) (hX : s'.X_out = {}) (hM : s'.M_out = s.executing) (hW : s'.W_out = q.2)
  | ret (hready : q.1.dmem_status ≠ .inFlight) (huse : s.loadUse = false)
      (hmispred : s.executing.mispredicted = false) (hret : s.D_out.op = .ret) (hD : s'.D_out = {})
      (hX : s'.X_out = s.forwarded q.2) (hM : s'.M_out = s.executing) (hW : s'.W_out = q.2)
  | load (hready : q.1.dmem_status ≠ .inFlight) (huse : s.loadUse = false)
      (hmispred : s.executing.mispredicted = false) (hret : s.D_out.op ≠ .ret)
      (hpred : s'.F_out.pred_PC = if r.2.1.status.isStop then s.F_out.pred_PC else s'.PC)
      (hD : s'.D_out = r.2.1) (hX : s'.X_out = s.forwarded q.2) (hM : s'.M_out = s.executing)
      (hW : s'.W_out = q.2)

theorem CycleEffect.kind (hec : s.D_out.op.isEc = false) (h : CycleEffect s r q s')
    (hrequests : ¬(s.requests r.2.1 q).Contradictory) : CycleKind s s' r q := by
  by_cases hready : q.1.dmem_status = .inFlight
  · obtain ⟨hpred, hD, hX, hM, hW⟩ := h.frozen hready
    exact .frozen hready hpred hD hX hM hW
  · obtain ⟨hM, hW⟩ := h.moves hready
    cases huse : s.loadUse with
    | true =>
      obtain ⟨hpred, hD, hX⟩ := h.loadUse hready hrequests huse
      exact .loadUse hready huse hpred hD hX hM hW
    | false => cases hmispred : s.executing.mispredicted with
      | true =>
        obtain ⟨hD, hX⟩ := h.squash hready hmispred
        exact .squash hready hmispred hD hX hM hW
      | false =>
        by_cases hret : s.D_out.op = .ret
        · obtain ⟨hD, hX⟩ := h.ret hready huse hmispred hret
          exact .ret hready huse hmispred hret hD hX hM hW
        · obtain ⟨hpred, hD, hX⟩ := h.load hready huse hmispred hec hret
          exact .load hready huse hmispred hret hpred hD hX hM hW

/-- A load-use hazard needs a load in execute. -/
theorem ldur_of_loadUse (huse : s.loadUse = true) : s.X_out.op = .ldur :=
  ((checkLoadUseHazard_iff _ _ _ _ _).mp huse).2.1

/-- The latch of the fetch stage stays set as long as decode holds a stop. -/
theorem isStop_F_in_of_stop (hs : s.Shape) (h : CycleEffect s r q s')
    (hD : s.D_out.status.isStop = true) : s'.F_in.status.isStop = true := by
  obtain ⟨-, hhlt⟩ := generatesHlt_of_stop hs hD
  rw [h.F_in]
  apply isStop_latchedStatus
  rw [fetchResult_of_generatesHlt hhlt h.fetch]
  rfl

/-- A stop in execute is followed by a cycle in which every instruction moves on. -/
theorem load_of_stop (hs : s.Shape) (hX : s.X_out.status.isStop = true) :
    s.loadUse = false ∧ s.executing.mispredicted = false ∧ s.D_out.op ≠ .ret := by
  have hop := hs.wf.X_out.status.isStop_iff.mp hX
  refine ⟨?_, ?_, ?_⟩
  · rw [Bool.eq_false_iff]
    intro huse
    have hldur := ldur_of_loadUse huse
    rw [hldur] at hop
    rcases hop with hop | hop <;> cases hop
  · apply not_mispredicted_of_ne
    change s.X_out.op ≠ .bCond
    rcases hop with hop | hop <;> rw [hop] <;> decide
  · rw [hs.after_X hX]
    decide

/-- A cycle in which the data access is not in flight.  Memory and writeback move on in each, so
only what decode and execute become is left to say. -/
theorem Machine.Shape.of_moves (hs : s.Shape) (h : CycleEffect s r q s')
    (hM : s'.M_out = s.executing) (hW : s'.W_out = q.2)
    (hD : s'.D_out.WF ∧ s'.D_out.op.isEc = false) (hX : s'.X_out.WF ∧ s'.X_out.op.isEc = false)
    (hret : s'.X_out.op = .ret → s'.D_out.op = .nop)
    (hmispred : s.executing.mispredicted = true → s'.X_out.op = .nop ∧ s'.D_out.op = .nop)
    (hstopD : s'.D_out.status.isStop = true → s'.F_in.status.isStop = true)
    (hstopX : s'.X_out.status.isStop = true → s'.D_out.op = .hlt)
    (hstopM : s.X_out.status.isStop = true → s'.X_out.op = .hlt) : s'.Shape where
  wf := ⟨hD.1, hX.1, hM ▸ hs.wf.executing, hW ▸ hs.wf.M_out.accessed h.access⟩
  controls := h.controls
  ec_D := hD.2
  ec_X := hX.2
  after_ret := hret
  after_mispredicted := by
    rw [hM]
    exact hmispred
  after_D := hstopD
  after_X := hstopX
  after_M := by
    rw [hM]
    exact hstopM
  after_W := by
    rw [hW, hM]
    exact fun hstop ↦ hs.after_M (isStop_of_accessed h.access hstop)

theorem Machine.Shape.frozen (hs : s.Shape) (h : CycleEffect s r q s') (hD : s'.D_out = s.D_out)
    (hX : s'.X_out = s.X_out) (hM : s'.M_out = s.M_out) (hW : s'.W_out = {}) : s'.Shape := by
  have hkeep := isStop_F_in_of_stop hs h
  refine ⟨⟨?_, ?_, ?_, ?_⟩, h.controls, ?_, ?_, ?_, ?_, ?_, ?_, ?_, ?_⟩
  all_goals simp only [hD, hX, hM, hW]
  · exact hs.wf.D_out
  · exact hs.wf.X_out
  · exact hs.wf.M_out
  · exact WInstr.wf_bubble
  · exact hs.ec_D
  · exact hs.ec_X
  · exact hs.after_ret
  · exact hs.after_mispredicted
  · exact hkeep
  · exact hs.after_X
  · exact hs.after_M
  · exact nofun

/-- The load in execute moves on to memory, and decode waits behind a bubble. -/
theorem Machine.Shape.loadUse (hs : s.Shape) (h : CycleEffect s r q s') (huse : s.loadUse = true)
    (hD : s'.D_out = s.D_out) (hX : s'.X_out = {}) (hM : s'.M_out = s.executing)
    (hW : s'.W_out = q.2) : s'.Shape := by
  have hldur := ldur_of_loadUse huse
  have hkeep := isStop_F_in_of_stop hs h
  apply hs.of_moves h hM hW
  all_goals simp only [hD, hX]
  · exact ⟨hs.wf.D_out, hs.ec_D⟩
  · exact ⟨XInstr.wf_bubble, rfl⟩
  · exact nofun
  · intro hmispred
    rw [not_mispredicted_of_ne (m := s.executing) (by change s.X_out.op ≠ _; rw [hldur]; decide)]
      at hmispred
    cases hmispred
  · exact hkeep
  · exact nofun
  · intro hstop
    rw [(load_of_stop hs hstop).1] at huse
    cases huse

/-- The two instructions fetched behind a wrongly predicted branch become bubbles. -/
theorem Machine.Shape.squash (hs : s.Shape) (h : CycleEffect s r q s')
    (hmispred : s.executing.mispredicted = true) (hD : s'.D_out = {}) (hX : s'.X_out = {})
    (hM : s'.M_out = s.executing) (hW : s'.W_out = q.2) : s'.Shape := by
  apply hs.of_moves h hM hW
  all_goals simp only [hD, hX]
  · exact ⟨DInstr.wf_bubble, rfl⟩
  · exact ⟨XInstr.wf_bubble, rfl⟩
  · exact nofun
  · exact fun _ ↦ ⟨trivial, trivial⟩
  · exact nofun
  · exact nofun
  · intro hstop
    rw [(load_of_stop hs hstop).2.1] at hmispred
    cases hmispred

/-- Behind a return comes a bubble. -/
theorem Machine.Shape.ret (hs : s.Shape) (h : CycleEffect s r q s')
    (hmispred : s.executing.mispredicted = false) (hret : s.D_out.op = .ret) (hD : s'.D_out = {})
    (hX : s'.X_out = s.forwarded q.2) (hM : s'.M_out = s.executing) (hW : s'.W_out = q.2) :
    s'.Shape := by
  apply hs.of_moves h hM hW
  all_goals simp only [hD, hX]
  · exact ⟨DInstr.wf_bubble, rfl⟩
  · exact ⟨hs.wf.forwarded q.2, hs.ec_D⟩
  · exact fun _ ↦ trivial
  · intro hcontra
    rw [hmispred] at hcontra
    cases hcontra
  · exact nofun
  · intro hstop
    rcases hs.wf.D_out.status.isStop_iff.mp hstop with hop | hop <;>
      rw [hret] at hop <;> cases hop
  · intro hstop
    exact absurd hret (load_of_stop hs hstop).2.2

/-- Every instruction moves on and the fetched one enters decode. -/
theorem Machine.Shape.load (hs : s.Shape) (h : CycleEffect s r q s')
    (hmispred : s.executing.mispredicted = false) (hret : s.D_out.op ≠ .ret) (hD : s'.D_out = r.2.1)
    (hX : s'.X_out = s.forwarded q.2) (hM : s'.M_out = s.executing) (hW : s'.W_out = q.2) :
    s'.Shape := by
  apply hs.of_moves h hM hW
  all_goals simp only [hD, hX]
  · exact fetchResult_wf h.fetch
  · exact ⟨hs.wf.forwarded q.2, hs.ec_D⟩
  · exact fun hcontra ↦ absurd hcontra hret
  · intro hcontra
    rw [hmispred] at hcontra
    cases hcontra
  · intro hstop
    rw [h.F_in]
    exact isStop_latchedStatus hstop
  · intro hstop
    rw [fetchResult_of_generatesHlt (generatesHlt_of_stop hs hstop).2 h.fetch]
    rfl
  · exact hs.after_X

theorem Machine.Shape.cycle (hs : s.Shape) (h : CycleEffect s r q s')
    (hrequests : ¬(s.requests r.2.1 q).Contradictory) : s'.Shape := by
  cases h.kind hs.ec_D hrequests with
  | frozen hflight hpred hD hX hM hW => exact hs.frozen h hD hX hM hW
  | loadUse hready huse hpred hD hX hM hW => exact hs.loadUse h huse hD hX hM hW
  | squash hready hmispred hD hX hM hW => exact hs.squash h hmispred hD hX hM hW
  | ret hready huse hmispred hret hD hX hM hW => exact hs.ret h hmispred hret hD hX hM hW
  | load hready huse hmispred hret hpred hD hX hM hW => exact hs.load h hmispred hret hD hX hM hW

end

end SystemEmulator
