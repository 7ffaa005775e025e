import SystemEmulator.Cycle.Run
import SystemEmulator.Memory.Frame

/-!
# The contents of the pipeline registers

What the five stages and the clock edge do to the registers, for every order of the stages, and the
resulting invariant: the control signals and the status of an instruction are determined by its
opcode wherever it is in the pipeline.
-/

namespace SystemEmulator

open Relation Result

/-! ## One cycle -/

/-- The effect of the five stages on the state, up to the memory that fetch and memory see. -/
structure StagesEffect (build : Build) (s t : Machine) : Prop where
  outputs : t.F_out.pred_PC = s.F_out.pred_PC ∧ t.D_out = s.D_out ∧ t.X_out = s.X_out ∧
    t.M_out = s.M_out ∧ t.W_out = s.W_out
  controls : t.F_ctl = s.F_ctl ∧ t.D_ctl = s.D_ctl ∧ t.X_ctl = s.X_ctl ∧ t.M_ctl = s.M_ctl ∧
    t.W_ctl = s.W_ctl
  D_in : t.D_in = generatedHlt s.D_in ∨
    ∃ pc insnbits err, t.D_in = fetchedInstr build pc insnbits err
  X_in : t.X_in = decoded s.D_out s.regs
  D_src : t.D_src1 = s.D_out.src1 ∧ t.D_src2 = s.D_out.src2
  M_in : t.M_in = (executed s.X_out s.NZCV).1
  W_in : ∃ mem mem', accessed s.M_out mem = .ok (mem', t.W_in)

theorem fetchResult_record {build : Build} {s : Machine} {mem : Mem} {F_PC : BitVec 64}
    {r : Mem × DInstr × BitVec 64} (h : fetchResult build s mem F_PC = .ok r) :
    r.2.1 = generatedHlt s.D_in ∨
      ∃ pc insnbits err, r.2.1 = fetchedInstr build pc insnbits err := by
  unfold fetchResult at h
  split at h
  · cases h
    exact Or.inl rfl
  · obtain ⟨q, -, rfl⟩ := map_eq_ok.mp h
    exact Or.inr ⟨_, _, _, rfl⟩

theorem stagesEffect_fetchFirst {build : Build} {s t : Machine}
    (h : fetchFirst build s s.mem s.F_PC = .ok t) : StagesEffect build s t := by
  obtain ⟨r, hfetch, h⟩ := bind_eq_ok.mp h
  obtain ⟨q, hacc, rfl⟩ := map_eq_ok.mp h
  exact ⟨⟨rfl, rfl, rfl, rfl, rfl⟩, ⟨rfl, rfl, rfl, rfl, rfl⟩, fetchResult_record hfetch, rfl,
    ⟨rfl, rfl⟩, rfl, ⟨r.1, q.1, hacc⟩⟩

theorem stagesEffect_memoryFirst {build : Build} {s t : Machine}
    (h : memoryFirst build s s.mem s.F_PC = .ok t) : StagesEffect build s t := by
  obtain ⟨q, hacc, h⟩ := bind_eq_ok.mp h
  obtain ⟨r, hfetch, rfl⟩ := map_eq_ok.mp h
  exact ⟨⟨rfl, rfl, rfl, rfl, rfl⟩, ⟨rfl, rfl, rfl, rfl, rfl⟩, fetchResult_record hfetch, rfl,
    ⟨rfl, rfl⟩, rfl, ⟨s.mem, q.1, hacc⟩⟩

/-- The stages have the same effect on the registers in every order. -/
theorem stagesEffect_of_perm {build : Build} {order : List ProcStage}
    (horder : order.Perm defaultOrder) {s t : Machine} (h : runStages build order s = .ok t) :
    StagesEffect build s t := by
  rcases runStages_perm build horder s with heq | heq
  · exact stagesEffect_fetchFirst (heq ▸ h)
  · exact stagesEffect_memoryFirst (heq ▸ h)

/-- A cycle is the stages followed by the hazard logic and the clock edge. -/
theorem cycle_ok {build : Build} {order : List ProcStage} {s s' : Machine}
    (h : cycle build order s = .ok s') :
    ∃ t, runStages build order s = .ok t ∧ s' = finishCycle build t := by
  obtain ⟨t, hstages, ht⟩ := bind_eq_ok.mp h
  exact ⟨t, hstages, (Except.ok.inj ht).symm⟩

/-! ## Well-formed records -/

/-- The status that an opcode gives an instruction that raises no address fault. -/
def opStatus : Opcode → Stat
  | .error => .ins
  | .hlt => .hlt
  | _ => .aok

/-- The status of an instruction agrees with its opcode; only a bubble is exempt. -/
def StatusOk (op : Opcode) (status : Stat) : Prop :=
  status = opStatus op ∨ (op = .nop ∧ status = .bub)

/-- A decode record that the fetch stage or a bubble can leave. -/
structure DInstr.WF (d : DInstr) : Prop where
  format : d.op ≠ .nop → d.format = ftable d.op
  status : StatusOk d.op d.status

/-- An execute record whose control signals are those of its opcode. -/
structure XInstr.WF (x : XInstr) : Prop where
  X_sigs : x.X_sigs = (generateDXMWControl x.op).X_sigs
  M_sigs : x.M_sigs = (generateDXMWControl x.op).M_sigs
  W_sigs : x.W_sigs = (generateDXMWControl x.op).W_sigs
  ALU_op : x.op ≠ .nop → x.ALU_op = decideAluOp x.op
  status : StatusOk x.op x.status

/-- A memory record whose control signals are those of its opcode. -/
structure MInstr.WF (m : MInstr) : Prop where
  M_sigs : m.M_sigs = (generateDXMWControl m.op).M_sigs
  W_sigs : m.W_sigs = (generateDXMWControl m.op).W_sigs
  status : StatusOk m.op m.status

/-- A writeback record whose control signals are those of its opcode. -/
structure WInstr.WF (w : WInstr) : Prop where
  W_sigs : w.W_sigs = (generateDXMWControl w.op).W_sigs
  status : w.status = .adr ∨ StatusOk w.op w.status

structure Machine.WF (s : Machine) : Prop where
  D_out : s.D_out.WF
  X_out : s.X_out.WF
  M_out : s.M_out.WF
  W_out : s.W_out.WF

theorem DInstr.wf_bubble : DInstr.WF {} := ⟨fun h ↦ absurd rfl h, Or.inr ⟨rfl, rfl⟩⟩

theorem XInstr.wf_bubble : XInstr.WF {} :=
  ⟨rfl, rfl, rfl, fun h ↦ absurd rfl h, Or.inr ⟨rfl, rfl⟩⟩

theorem MInstr.wf_bubble : MInstr.WF {} := ⟨rfl, rfl, Or.inr ⟨rfl, rfl⟩⟩

theorem WInstr.wf_bubble : WInstr.WF {} := ⟨rfl, Or.inr (Or.inr ⟨rfl, rfl⟩)⟩

theorem wf_generatedHlt (d : DInstr) : (generatedHlt d).WF := ⟨fun _ ↦ rfl, Or.inl rfl⟩

theorem wf_fetchedInstr (build : Build) (pc : BitVec 64) (insnbits : BitVec 32) (err : Bool) :
    (fetchedInstr build pc insnbits err).WF := by
  cases err with
  | true => exact ⟨fun _ ↦ rfl, Or.inl rfl⟩
  | false =>
    have hstatus : ∀ op : Opcode, (if op = .error then Stat.ins
        else if op = .hlt then .hlt else .aok) = opStatus op := by
      intro op
      cases op <;> rfl
    refine ⟨fun _ ↦ ?_, Or.inl (hstatus _)⟩
    change (if decodeOpcode build insnbits ≠ .error then ftable (decodeOpcode build insnbits)
      else .error) = ftable (decodeOpcode build insnbits)
    by_cases hop : decodeOpcode build insnbits = .error
    · rw [if_neg (by simp [hop]), hop]
      rfl
    · rw [if_pos hop]

/-- Every fetched word but an `ADRP` carries the address behind it. -/
theorem multipurpose_val_of_ne_adrp {build : Build} {pc : BitVec 64} {insnbits : BitVec 32}
    {err : Bool} (h : (fetchedInstr build pc insnbits err).op ≠ .adrp) :
    (fetchedInstr build pc insnbits err).multipurpose_val = pc + 4 := by
  cases err with
  | true => rfl
  | false => exact if_neg h

theorem DInstr.WF.decoded {d : DInstr} (h : d.WF) (regs : Regs) : (decoded d regs).WF :=
  ⟨rfl, rfl, rfl, fun _ ↦ rfl, h.status⟩

/-- Forwarding only replaces the two operands. -/
theorem XInstr.WF.forward {x : XInstr} (h : x.WF) (val_a val_b : BitVec 64) :
    XInstr.WF { x with val_a := val_a, val_b := val_b } :=
  ⟨h.X_sigs, h.M_sigs, h.W_sigs, h.ALU_op, h.status⟩

theorem XInstr.WF.executed {x : XInstr} (h : x.WF) (nzcv : BitVec 8) : (executed x nzcv).1.WF :=
  ⟨h.M_sigs, h.W_sigs, h.status⟩

theorem MInstr.WF.accessed {m : MInstr} (h : m.WF) {mem mem' : Mem} {w : WInstr}
    (hacc : accessed m mem = .ok (mem', w)) : w.WF := by
  obtain ⟨val_mem, err, -, rfl⟩ := accessed_ok hacc
  refine ⟨h.W_sigs, ?_⟩
  cases err with
  | true => exact Or.inl rfl
  | false => exact Or.inr h.status

/-! ## The invariant -/

/-- A property of all three values a clock edge can choose from holds after the edge. -/
theorem clock_ind {α : Type} {P : α → Prop} {in_ out zero : α} (hin : P in_) (hout : P out)
    (hzero : P zero) (ctl : PipeCtl) : P (clock ctl in_ out zero) := by
  cases ctl
  · exact hin
  · exact hzero
  · exact hzero
  · exact hout

def forwardedRecord (build : Build) (t : Machine) : XInstr := (forwardReg build t).X_in

/-- Forwarding changes the two operands of the execute record and nothing else. -/
theorem forwardedRecord_eq (build : Build) (t : Machine) : ∃ val_a val_b,
    forwardedRecord build t = { t.X_in with val_a := val_a, val_b := val_b } := by
  unfold forwardedRecord forwardReg
  by_cases hpipe : build.pipe = true
  · rw [if_pos hpipe]
    exact ⟨_, _, rfl⟩
  · rw [if_neg hpipe]
    exact ⟨t.X_in.val_a, t.X_in.val_b, rfl⟩

theorem forwardReg_eq (build : Build) (t : Machine) :
    forwardReg build t = { t with X_in := forwardedRecord build t } := by
  unfold forwardedRecord forwardReg
  cases build.pipe <;> rfl

/-- The requests with which `handle_hazards` calls `pipe_control_stage`. -/
def hazardCalls (build : Build) (t : Machine) : HazardRequest :=
  if build.pipe ∧ t.mem.dmem_status = .inFlight then inFlightRequest else requestOf build t

/-- `F_PC` after `handle_hazards`. -/
def hazardPC (build : Build) (t : Machine) : BitVec 64 :=
  if build.pipe = true ∧ t.mem.dmem_status ≠ .inFlight ∧
      (!checkLoadUseHazard t.D_out.op t.D_src1 t.D_src2 t.X_out.op t.X_out.dst &&
        checkCbHazard t.D_out.op t.X_in.val_a) = true then t.D_out.multipurpose_val
  else t.F_PC

/-- `deassert_flags` after `handle_hazards`. -/
def hazardFlags (build : Build) (t : Machine) : Bool :=
  if build.pipe then
    t.mem.dmem_status == .inFlight || t.W_in.status.isError || t.M_out.status.isError
  else t.deassert_flags

/-- Hazard handling sets the controls, `F_PC` and `deassert_flags`. -/
theorem handleHazards_eq (build : Build) (t : Machine) :
    handleHazards build t =
      { applyRequest t (hazardCalls build t) with
        F_PC := hazardPC build t, deassert_flags := hazardFlags build t } := by
  unfold handleHazards hazardCalls hazardPC hazardFlags
  by_cases hpipe : build.pipe = true
  · by_cases hflight : t.mem.dmem_status = .inFlight
    · simp only [hpipe, hflight, ne_eq, not_true_eq_false, false_and, and_false, and_self,
        ↓reduceIte, beq_self_eq_true, Bool.true_or]
      rfl
    · have hbeq : (t.mem.dmem_status == .inFlight) = false := by simpa using hflight
      simp only [hpipe, hflight, hbeq, and_false, ne_eq, not_false_eq_true, true_and, ↓reduceIte,
        Bool.false_or]
  · simp only [hpipe, false_and, Bool.false_eq_true, ↓reduceIte]
    rfl

/-- The state that the commit and the clock edge work on. -/
def hazardState (build : Build) (t : Machine) : Machine :=
  { applyRequest t (hazardCalls build (forwardReg build t)) with
    X_in := forwardedRecord build t
    status := t.W_out.status
    F_PC := hazardPC build (forwardReg build t)
    deassert_flags := hazardFlags build t }

theorem finishCycle_eq (build : Build) (t : Machine) :
    finishCycle build t = clockEdge (commit build (hazardState build t)) := by
  unfold finishCycle
  simp only [handleHazards_eq]
  unfold hazardState
  rw [forwardReg_eq]
  rfl

theorem Machine.WF.cycle {build : Build} {order : List ProcStage}
    (horder : order.Perm defaultOrder) {s s' : Machine} (hs : s.WF)
    (h : cycle build order s = .ok s') : s'.WF := by
  obtain ⟨t, hstages, rfl⟩ := cycle_ok h
  have ht := stagesEffect_of_perm horder hstages
  obtain ⟨-, hD, hX, hM, hW⟩ := ht.outputs
  rw [finishCycle_eq]
  have hD_in : t.D_in.WF := by
    rcases ht.D_in with heq | ⟨pc, insnbits, err, heq⟩
    · exact heq ▸ wf_generatedHlt _
    · exact heq ▸ wf_fetchedInstr _ _ _ _
  have hX_in : (forwardedRecord build t).WF := by
    obtain ⟨val_a, val_b, heq⟩ := forwardedRecord_eq build t
    exact heq ▸ (ht.X_in ▸ hs.D_out.decoded s.regs).forward val_a val_b
  obtain ⟨mem, mem', hacc⟩ := ht.W_in
  constructor
  · exact clock_ind hD_in (hD ▸ hs.D_out) DInstr.wf_bubble _
  · exact clock_ind hX_in (hX ▸ hs.X_out) XInstr.wf_bubble _
  · exact clock_ind (ht.M_in ▸ hs.X_out.executed s.NZCV) (hM ▸ hs.M_out) MInstr.wf_bubble _
  · exact clock_ind (hs.M_out.accessed hacc) (hW ▸ hs.W_out) WInstr.wf_bubble _

theorem initMachine_wf (GPR : ℕ → BitVec 64) (mem : Mem) (entry : BitVec 64) :
    (initMachine GPR mem entry).WF :=
  ⟨DInstr.wf_bubble, XInstr.wf_bubble, MInstr.wf_bubble, WInstr.wf_bubble⟩

/-- Every reachable state is well formed. -/
theorem Reachable.wf {build : Build} {s s' : Machine} (hs : s.WF) (h : Reachable build s s') :
    s'.WF := by
  induction h with
  | refl => exact hs
  | tail _ hstep ih =>
    obtain ⟨order, horder, -, hcycle⟩ := hstep
    exact ih.cycle horder hcycle

end SystemEmulator
