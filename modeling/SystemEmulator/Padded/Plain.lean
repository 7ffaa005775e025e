import SystemEmulator.Pipeline.Effect
import SystemEmulator.Sequential.Complete

/-!
# The build without hazard control

Without `PIPE` nothing is forwarded, and no instruction is held: the stages read the register file
as it is, and a return to an address other than zero is the only one that drops the instruction
fetched behind it.
-/

namespace SystemEmulator

open Result Relation

abbrev plainBuild : Build := ⟨false, false⟩

def Machine.returnAddress (s : Machine) : BitVec 64 := (decoded s.D_out s.regs).val_a

/-- Decode holds a return to an address other than zero. -/
def Machine.returns (s : Machine) : Bool :=
  s.D_out.op == .ret && s.returnAddress != RET_FROM_MAIN_ADDR

/-- Decode holds a return to address zero. -/
def Machine.returnsFromMain (s : Machine) : Bool :=
  s.D_out.op == .ret && s.returnAddress == RET_FROM_MAIN_ADDR

/-- The state after a cycle whose fetch results in `r` and whose data access results in `q`. -/
structure PlainEffect (s : Machine) (r : Mem × DInstr × BitVec 64) (q : Mem × WInstr)
    (s' : Machine) : Prop where
  status : s'.status = s.W_out.status
  regs : s'.regs = regfileWrite s.regs s.W_out.dst s.W_out.wval
    (s.W_out.W_sigs.w_enable && s.W_out.status == .aok)
  NZCV : s'.NZCV = if s.deassert_flags then s.NZCV else s.flags
  deassert_flags : s'.deassert_flags = s.deassert_flags
  mem : s'.mem = q.1
  F_in : s'.F_in.status = latchedStatus plainBuild s r.2.1
  pred_PC : s'.F_out.pred_PC = requested (s.returnsFromMain && !r.2.1.status.isStop)
    r.2.1.status.isStop (overriddenPC plainBuild s r.2.2) s.F_out.pred_PC 0
  D_out : s'.D_out = if s.returns then {} else r.2.1
  X_out : s'.X_out = decoded s.D_out s.regs
  M_out : s'.M_out = s.executing
  W_out : s'.W_out = q.2
  controls : ¬s'.PipeError

/-- The requests of the hazard logic without `PIPE`. -/
theorem hazardCalls_plain (s : Machine) (mem : Mem) (D_in : DInstr) (F_PC : BitVec 64)
    (W_in : WInstr) :
    hazardCalls plainBuild (forwardReg plainBuild (stagesState plainBuild s mem D_in F_PC W_in)) =
      { F_bubble := s.returnsFromMain && !D_in.status.isStop
        F_stall := D_in.status.isStop
        D_bubble := s.returns } := by
  unfold hazardCalls
  rw [if_neg fun h ↦ Bool.false_ne_true h.1, requestOf_forwardReg]
  have hstall : (D_in.status == .hlt || D_in.status == .ins) = D_in.status.isStop := by
    cases D_in.status <;> rfl
  change ({
    F_bubble := s.returnsFromMain && !(D_in.status == .hlt || D_in.status == .ins)
    F_stall := D_in.status == .hlt || D_in.status == .ins
    D_bubble := s.returns } : HazardRequest) = _
  rw [hstall]

/-- A cycle whose fetch and whose data access succeed takes place. -/
theorem plain_cycle {s : Machine} {r : Mem × DInstr × BitVec 64} {q : Mem × WInstr}
    (hctl : ¬s.PipeError) (hfetch : fetchResult plainBuild s s.mem s.F_PC = .ok r)
    (hacc : accessed s.M_out r.1 = .ok q) :
    ∃ s', cycle plainBuild defaultOrder s = .ok s' ∧ PlainEffect s r q s' := by
  let t := stagesState plainBuild s q.1 r.2.1 (overriddenPC plainBuild s r.2.2) q.2
  have hstages : runStages plainBuild defaultOrder s = .ok t := by
    rw [runStages_defaultOrder, fetchFirst, hfetch]
    simp only [bind, Except.bind, hacc]
    rfl
  refine ⟨finishCycle plainBuild t, ?_, ?_⟩
  · unfold cycle
    rw [hstages]
    rfl
  · have hcalls := hazardCalls_plain s q.1 r.2.1 (overriddenPC plainBuild s r.2.2) q.2
    have hcontra : ¬(hazardCalls plainBuild (forwardReg plainBuild t)).Contradictory := by
      rw [hcalls]
      unfold HazardRequest.Contradictory
      cases r.2.1.status.isStop <;> simp
    have herror : ¬(finishCycle plainBuild t).PipeError := by
      rw [finishCycle_pipeError]
      exact applyRequest_not_pipeError hctl hcontra
    obtain ⟨hF, hD, hX, hM, hW⟩ : s.F_ctl ≠ .error ∧ s.D_ctl ≠ .error ∧ s.X_ctl ≠ .error ∧
        s.M_ctl ≠ .error ∧ s.W_ctl ≠ .error := by
      simpa only [Machine.PipeError, not_or] using hctl
    have hcommit := finishCycle_eq plainBuild t
    rw [hcommit] at herror ⊢
    refine ⟨if_neg herror, rfl, ?_, rfl, rfl, rfl, ?_, ?_, ?_, ?_, ?_, herror⟩
    · change (if !s.deassert_flags && s.X_out.X_sigs.set_flags then _ else s.NZCV) = _
      unfold Machine.flags
      cases s.deassert_flags <;> rfl
    · change (clock (pipeControlStage s.F_ctl (hazardCalls plainBuild _).F_bubble
        (hazardCalls plainBuild _).F_stall) _ _ {} : FInstr).pred_PC = _
      rw [hcalls, clock_requested hF (by cases r.2.1.status.isStop <;> simp)]
      unfold requested
      cases (s.returnsFromMain && !r.2.1.status.isStop) with
      | true => rfl
      | false => cases r.2.1.status.isStop <;> rfl
    · change clock (pipeControlStage s.D_ctl (hazardCalls plainBuild _).D_bubble
        (hazardCalls plainBuild _).D_stall) r.2.1 s.D_out {} = _
      rw [hcalls, clock_requested hD (by simp)]
      unfold requested
      cases s.returns <;> rfl
    · change clock (pipeControlStage s.X_ctl (hazardCalls plainBuild _).X_bubble
        (hazardCalls plainBuild _).X_stall) (decoded s.D_out s.regs) s.X_out {} = _
      rw [hcalls, clock_requested hX (by simp)]
      rfl
    · change clock (pipeControlStage s.M_ctl false (hazardCalls plainBuild _).M_stall) s.executing
        s.M_out {} = _
      rw [hcalls, clock_requested hM (by simp)]
      rfl
    · change clock (pipeControlStage s.W_ctl (hazardCalls plainBuild _).W_bubble false) q.2
        s.W_out {} = _
      rw [hcalls, clock_requested hW (by simp)]
      rfl

theorem PlainEffect.running {s s' : Machine} {r : Mem × DInstr × BitVec 64} {q : Mem × WInstr}
    (h : PlainEffect s r q s') (hpasses : s.W_out.status.passes = true) : s'.running = true := by
  rw [s'.running_eq, h.status, hpasses]

/-! ## Instructions without effect -/

/-- A legal instruction that neither sets the flags nor accesses the data. -/
def Opcode.isInert (op : Opcode) : Bool :=
  op != .error && !(generateDXMWControl op).X_sigs.set_flags &&
    !(generateDXMWControl op).M_sigs.dmem_read && !(generateDXMWControl op).M_sigs.dmem_write

/-- An instruction in decode that writes no register and no flags and makes no data access. -/
structure DInstr.Inert (d : DInstr) : Prop where
  wf : d.WF
  op : d.op.isInert = true
  dst : (generateDXMWControl d.op).W_sigs.w_enable = true → d.dst = XZR_NUM

structure XInstr.Inert (x : XInstr) : Prop where
  wf : x.WF
  op : x.op.isInert = true
  dst : x.W_sigs.w_enable = true → x.dst = XZR_NUM

structure MInstr.Inert (m : MInstr) : Prop where
  wf : m.WF
  op : m.op.isInert = true
  dst : m.W_sigs.w_enable = true → m.dst = XZR_NUM

structure WInstr.Inert (w : WInstr) : Prop where
  status : StatusOk w.op w.status
  op : w.op ≠ .error
  dst : w.W_sigs.w_enable = true → w.dst = XZR_NUM

theorem inert_bubbleD : ({} : DInstr).Inert := ⟨DInstr.wf_bubble, rfl, fun h ↦ nomatch h⟩

/-- A `NOP` or a `HLT` does nothing. -/
theorem DInstr.WF.inert {d : DInstr} (h : d.WF) (hop : d.op = .nop ∨ d.op = .hlt) : d.Inert := by
  refine ⟨h, ?_, fun henable ↦ ?_⟩
  · rcases hop with hop | hop <;> rw [hop] <;> rfl
  · rcases hop with hop | hop <;> rw [hop] at henable <;> cases henable

theorem XInstr.WF.inert {x : XInstr} (h : x.WF) (hop : x.op = .nop ∨ x.op = .hlt) : x.Inert := by
  refine ⟨h, ?_, fun henable ↦ ?_⟩
  · rcases hop with hop | hop <;> rw [hop] <;> rfl
  · rw [h.W_sigs] at henable
    rcases hop with hop | hop <;> rw [hop] at henable <;> cases henable

theorem MInstr.WF.inert {m : MInstr} (h : m.WF) (hop : m.op = .nop ∨ m.op = .hlt) : m.Inert := by
  refine ⟨h, ?_, fun henable ↦ ?_⟩
  · rcases hop with hop | hop <;> rw [hop] <;> rfl
  · rw [h.W_sigs] at henable
    rcases hop with hop | hop <;> rw [hop] at henable <;> cases henable

theorem DInstr.Inert.decoded {d : DInstr} (h : d.Inert) (regs : Regs) :
    (decoded d regs).Inert :=
  ⟨h.wf.decoded regs, h.op, h.dst⟩

theorem XInstr.Inert.executed {x : XInstr} (h : x.Inert) (nzcv : BitVec 8) :
    (executed x nzcv).1.Inert :=
  ⟨h.wf.executed nzcv, h.op, h.dst⟩

theorem XInstr.Inert.set_flags {x : XInstr} (h : x.Inert) : x.X_sigs.set_flags = false := by
  have hop := h.op
  unfold Opcode.isInert at hop
  rw [h.wf.X_sigs]
  simp only [Bool.and_eq_true, Bool.not_eq_true'] at hop
  exact hop.1.1.2

theorem MInstr.Inert.accesses {m : MInstr} (h : m.Inert) : m.accesses = false := by
  have hop := h.op
  unfold Opcode.isInert at hop
  unfold MInstr.accesses
  rw [h.wf.M_sigs]
  simp only [Bool.and_eq_true, Bool.not_eq_true'] at hop
  rw [hop.1.2, hop.2]
  rfl

theorem MInstr.Inert.accessed {m : MInstr} (h : m.Inert) (mem : Mem) :
    accessed m mem = .ok (mem, m.toWInstr 0 false) :=
  accessed_of_not_accesses h.accesses mem

theorem MInstr.Inert.toWInstr {m : MInstr} (h : m.Inert) : (m.toWInstr 0 false).Inert := by
  refine ⟨h.wf.status, ?_, h.dst⟩
  intro hop
  have hinert := h.op
  rw [show m.op = .error from hop] at hinert
  cases hinert

theorem WInstr.Inert.regfileWrite {w : WInstr} (h : w.Inert) (regs : Regs) (val : BitVec 64)
    (ok : Bool) : regfileWrite regs w.dst val (w.W_sigs.w_enable && ok) = regs := by
  cases henable : w.W_sigs.w_enable with
  | false => rfl
  | true =>
    rw [h.dst henable]
    cases ok <;> rfl

/-! ## The end of a run -/

/-- No instruction in flight has an effect, and the fetch stage generates halts. -/
structure Machine.Spent (s : Machine) : Prop where
  D : s.D_out.Inert
  X : s.X_out.Inert
  M : s.M_out.Inert
  W : s.W_out.Inert
  generates : generatesHlt plainBuild s = true
  controls : ¬s.PipeError

theorem generatesHlt_of_latched {s : Machine} (h : s.F_in.status.isStop = true) :
    generatesHlt plainBuild s = true :=
  generatesHlt_of_cleared h

/-- The fetch of a latched fetch stage. -/
theorem fetchResult_of_latched {s : Machine} (h : generatesHlt plainBuild s = true) (mem : Mem)
    (F_PC : BitVec 64) :
    fetchResult plainBuild s mem F_PC = .ok (mem, generatedHlt s.D_in, F_PC) :=
  if_pos h

/-- How far the first halt is from writeback. -/
def Machine.distance (s : Machine) : ℕ :=
  if s.W_out.op = .hlt then 0 else if s.M_out.op = .hlt then 1 else if s.X_out.op = .hlt then 2
  else if s.D_out.op = .hlt then 3 else if s.D_out.op = .ret then 5 else 4

/-- A cycle of such a machine moves the instructions on and changes nothing else. -/
theorem Machine.Spent.cycle {s : Machine} (hs : s.Spent) :
    ∃ s', cycle plainBuild defaultOrder s = .ok s' ∧ s'.Spent ∧ s'.regs = s.regs ∧
      s'.NZCV = s.NZCV ∧ s'.mem = s.mem ∧ s'.status = s.W_out.status ∧
        (s.W_out.op ≠ .hlt → s'.distance < s.distance) := by
  have hfetch := fetchResult_of_latched hs.generates s.mem s.F_PC
  obtain ⟨s', hcycle, heffect⟩ := plain_cycle hs.controls hfetch (hs.M.accessed s.mem)
  have hD : s'.D_out = {} ∧ s.D_out.op = .ret ∨ s'.D_out = generatedHlt s.D_in := by
    rw [heffect.D_out]
    cases hret : s.returns with
    | false => exact .inr rfl
    | true =>
      unfold Machine.returns at hret
      rw [Bool.and_eq_true, beq_iff_eq] at hret
      exact .inl ⟨rfl, hret.1⟩
  refine ⟨s', hcycle, ⟨?_, ?_, ?_, ?_, ?_, heffect.controls⟩, ?_, ?_, heffect.mem, heffect.status,
    fun hW ↦ ?_⟩
  · rcases hD with ⟨hD, -⟩ | hD <;> rw [hD]
    · exact inert_bubbleD
    · exact (wf_generatedHlt s.D_in).inert (.inr rfl)
  · rw [heffect.X_out]
    exact hs.D.decoded s.regs
  · rw [heffect.M_out]
    exact hs.X.executed s.NZCV
  · rw [heffect.W_out]
    exact hs.M.toWInstr
  · apply generatesHlt_of_latched
    rw [heffect.F_in]
    exact isStop_latchedStatus rfl
  · rw [heffect.regs]
    exact hs.W.regfileWrite _ _ _
  · rw [heffect.NZCV]
    unfold Machine.flags
    rw [hs.X.set_flags]
    exact ite_self _
  · have hW' : s'.W_out.op = s.M_out.op := by rw [heffect.W_out]; rfl
    have hM' : s'.M_out.op = s.X_out.op := by rw [heffect.M_out]; rfl
    have hX' : s'.X_out.op = s.D_out.op := by rw [heffect.X_out]; rfl
    have hD' : s'.D_out.op = .nop ∧ s.D_out.op = .ret ∨ s'.D_out.op = .hlt := by
      rcases hD with ⟨hD, hret⟩ | hD <;> rw [hD]
      · exact .inl ⟨rfl, hret⟩
      · exact .inr rfl
    unfold Machine.distance
    rw [hW', hM', hX', if_neg hW]
    split
    · exact zero_lt_one
    · split
      · exact Nat.one_lt_two
      · split
        · exact Nat.lt_succ_self 2
        · next hhlt =>
          rcases hD' with ⟨hnop, hret⟩ | hhlt'
          · rw [hnop, hret]
            decide
          · rw [hhlt', if_pos rfl]
            split <;> decide

/-- The status with which an instruction without effect leaves writeback. -/
theorem WInstr.Inert.status_cases {w : WInstr} (h : w.Inert) :
    w.op = .hlt ∧ w.status = .hlt ∨ w.op ≠ .hlt ∧ w.status.passes = true := by
  rcases h.status with hstatus | ⟨hop, hstatus⟩
  · have herror := h.op
    rw [hstatus]
    revert herror
    cases w.op <;> intro herror <;> first
      | exact absurd rfl herror
      | exact .inl ⟨rfl, rfl⟩
      | exact .inr ⟨Opcode.noConfusion, rfl⟩
  · rw [hop, hstatus]
    exact .inr ⟨Opcode.noConfusion, rfl⟩

/-- Such a machine comes to an end, and changes nothing until then. -/
theorem Machine.Spent.ends {s : Machine} (hs : s.Spent) (hrunning : s.running = true) :
    ∃ t u, Run plainBuild s t ∧ Step plainBuild defaultOrder t u ∧ u.status = .hlt ∧
      u.regs = s.regs ∧ u.NZCV = s.NZCV ∧ u.mem = s.mem := by
  obtain ⟨distance, hdistance⟩ : ∃ distance, s.distance = distance := ⟨_, rfl⟩
  induction distance using Nat.strong_induction_on generalizing s with
  | _ distance ih =>
    obtain ⟨s', hcycle, hs', hregs, hNZCV, hmem, hstatus, hless⟩ := hs.cycle
    rcases hs.W.status_cases with ⟨-, hhlt⟩ | ⟨hop, hpass⟩
    · exact ⟨s, s', .refl, ⟨hrunning, hcycle⟩, hstatus.trans hhlt, hregs, hNZCV, hmem⟩
    · have hrunning' : s'.running = true := by rw [s'.running_eq, hstatus, hpass]
      obtain ⟨t, u, hrun, hlast, hu, hregs', hNZCV', hmem'⟩ :=
        ih s'.distance (hdistance ▸ hless hop) hs' hrunning' rfl
      exact ⟨t, u, ReflTransGen.head ⟨hrunning, hcycle⟩ hrun, hlast, hu, hregs'.trans hregs,
        hNZCV'.trans hNZCV, hmem'.trans hmem⟩

end SystemEmulator
