import SystemEmulator.Branches.Transfer
import SystemEmulator.Pipeline.Invariant

/-!
# The PC of a fault

In the cycle in which a fault is detected the PC is set to the address of the instruction that
raised it.  One more cycle runs, and unless its fetch stage generates a `HLT`, the PC moves on to
the successor that is predicted for the word fetched from there.
-/

namespace SystemEmulator

open Relation Result

/-! ## Runs with the addresses of the instructions -/

/-- The addresses from which the instructions in the four registers have been fetched. -/
structure Addresses where
  D : BitVec 64 := 0
  X : BitVec 64 := 0
  M : BitVec 64 := 0
  W : BitVec 64 := 0

def Addresses.next (build : Build) (a : Addresses) (s s' : Machine) : Addresses where
  D := clock s'.D_ctl (currentPC build s) a.D 0
  X := clock s'.X_ctl a.D a.X 0
  M := clock s'.M_ctl a.X a.M 0
  W := clock s'.W_ctl a.M a.W 0

/-- A run with a history variable: the addresses of the instructions in the pipeline. -/
inductive AddressRun (build : Build) (s₀ : Machine) : Machine → Addresses → Prop
  | start : AddressRun build s₀ s₀ {}
  | step {s s' : Machine} {a : Addresses} (hrun : AddressRun build s₀ s a)
      (hstep : Step build defaultOrder s s') : AddressRun build s₀ s' (a.next build s s')

theorem AddressRun.run {build : Build} {s₀ s : Machine} {a : Addresses}
    (h : AddressRun build s₀ s a) : Run build s₀ s := by
  induction h with
  | start => exact .refl
  | step _ hstep ih => exact ih.tail hstep

theorem exists_addressRun {build : Build} {s₀ s : Machine} (h : Run build s₀ s) :
    ∃ a, AddressRun build s₀ s a := by
  induction h with
  | refl => exact ⟨{}, .start⟩
  | tail _ hstep ih =>
    obtain ⟨a, ha⟩ := ih
    exact ⟨_, ha.step hstep⟩

/-! ## The records keep the addresses -/

/-- The record of an instruction fetched at `pc` holds its successor, unless it is a bubble, a halt
or an `ADRP`. -/
def KeepsAddress (op : Opcode) (multipurpose_val pc : BitVec 64) : Prop :=
  op ≠ .nop → op ≠ .hlt → op ≠ .adrp → multipurpose_val = pc + 4

/-- The clock edge moves a record and its address together. -/
theorem KeepsAddress.clock {α : Type} (op : α → Opcode) (multipurpose_val : α → BitVec 64)
    {in_ out zero : α} {pc_in pc_out : BitVec 64}
    (hin : KeepsAddress (op in_) (multipurpose_val in_) pc_in)
    (hout : KeepsAddress (op out) (multipurpose_val out) pc_out) (hzero : op zero = .nop)
    (ctl : PipeCtl) :
    KeepsAddress (op (clock ctl in_ out zero)) (multipurpose_val (clock ctl in_ out zero))
      (clock ctl pc_in pc_out 0) := by
  cases ctl with
  | load => exact hin
  | stall => exact hout
  | bubble => exact fun hop ↦ absurd hzero hop
  | error => exact fun hop ↦ absurd hzero hop

theorem keepsAddress_fetchResult {build : Build} {s : Machine} {mem : Mem} {F_PC : BitVec 64}
    {r : Mem × DInstr × BitVec 64} (h : fetchResult build s mem F_PC = .ok r) :
    KeepsAddress r.2.1.op r.2.1.multipurpose_val (currentPC build s) := by
  unfold fetchResult at h
  split at h
  · cases h
    exact fun _ hop ↦ absurd rfl hop
  · obtain ⟨q, -, rfl⟩ := map_eq_ok.mp h
    intro _ _ hadrp
    simp only [fetchedInstr] at hadrp ⊢
    split
    · rfl
    · next herr =>
      rw [if_neg herr] at hadrp
      exact if_neg hadrp

/-- An instruction that raises a fault in memory. -/
theorem MInstr.WF.op_of_faults {m : MInstr} (h : m.WF) {mem : Mem} (hfault : m.faults mem = true) :
    m.op ≠ .nop ∧ m.op ≠ .hlt ∧ m.op ≠ .adrp := by
  unfold MInstr.faults MInstr.accesses at hfault
  rw [h.M_sigs] at hfault
  rcases h.status with hstatus | ⟨hop, hstatus⟩
  · rw [hstatus] at hfault
    revert hfault
    cases m.op <;> intro hfault <;> first | (cases hfault; done) | decide
  · rw [hop, hstatus] at hfault
    cases hfault

/-- The records and the history variable agree, and the PC is the address of the fault in
writeback. -/
structure Machine.Traced (s : Machine) (a : Addresses) : Prop where
  D : KeepsAddress s.D_out.op s.D_out.multipurpose_val a.D
  X : KeepsAddress s.X_out.op s.X_out.multipurpose_val a.X
  M : KeepsAddress s.M_out.op s.M_out.multipurpose_val a.M
  W : s.W_out.status.isError = true → s.PC = a.W

/-- The address of an instruction in memory that raises a fault. -/
theorem Machine.Traced.M_PC {s : Machine} {a : Addresses} (h : s.Traced a) (hwf : s.M_out.WF)
    {mem : Mem} (hfault : s.M_out.faults mem = true) : s.M_out.multipurpose_val - 4 = a.M := by
  obtain ⟨hnop, hhlt, hadrp⟩ := hwf.op_of_faults hfault
  rw [h.M hnop hhlt hadrp]
  exact BitVec.add_sub_cancel a.M 4

/-! ## The PC after a cycle -/

/-- Decode holds a `CBZ` or `CBNZ` that the cycle corrects. -/
def Machine.Corrects (build : Build) (s : Machine) : Prop :=
  ∃ r q, fetchResult build s s.mem s.F_PC = .ok r ∧ accessed s.M_out r.1 = .ok q ∧
    q.1.dmem_status ≠ .inFlight ∧ s.loadUse = false ∧
      checkCbHazard s.D_out.op (s.forwarded q.2).val_a = true

section

variable {ec : Bool} {s s' : Machine}

/-- The state after the stages of a cycle in the default order. -/
theorem stages_of_cycle (h : cycle ⟨true, ec⟩ defaultOrder s = .ok s') :
    ∃ r q, fetchResult ⟨true, ec⟩ s s.mem s.F_PC = .ok r ∧ accessed s.M_out r.1 = .ok q ∧
      s' = finishCycle ⟨true, ec⟩ (stagesState ⟨true, ec⟩ s q.1 r.2.1
        (faultPC ⟨true, ec⟩ s q.2 r.2.2) q.2) := by
  obtain ⟨t, hstages, rfl⟩ := cycle_ok h
  rw [runStages_defaultOrder] at hstages
  obtain ⟨r, hfetch, hstages⟩ := bind_eq_ok.mp hstages
  obtain ⟨q, hacc, ht⟩ := map_eq_ok.mp hstages
  exact ⟨r, q, hfetch, hacc, ht ▸ rfl⟩

theorem isError_of_stages {r : Mem × DInstr × BitVec 64} {q : Mem × WInstr}
    (hfetch : fetchResult ⟨true, ec⟩ s s.mem s.F_PC = .ok r) (hacc : accessed s.M_out r.1 = .ok q) :
    q.2.status.isError = s.M_out.faults s.mem := by
  have hframe : s.mem.Frame r.1 := by
    unfold fetchResult at hfetch
    split at hfetch
    · cases hfetch
      exact Mem.Frame.refl s.mem
    · obtain ⟨q, himem, rfl⟩ := map_eq_ok.mp hfetch
      exact imem_frame _ _ _ himem
  rw [(accessed_frame _ _ _ hacc).2, hframe.faults]

theorem corrects_iff {r : Mem × DInstr × BitVec 64} {q : Mem × WInstr}
    (hfetch : fetchResult ⟨true, ec⟩ s s.mem s.F_PC = .ok r) (hacc : accessed s.M_out r.1 = .ok q) :
    s.Corrects ⟨true, ec⟩ ↔ q.1.dmem_status ≠ .inFlight ∧ s.loadUse = false ∧
      checkCbHazard s.D_out.op (s.forwarded q.2).val_a = true := by
  constructor
  · rintro ⟨r', q', hfetch', hacc', hrest⟩
    rw [hfetch] at hfetch'
    rw [← Except.ok.inj hfetch', hacc] at hacc'
    rwa [Except.ok.inj hacc']
  · intro hrest
    exact ⟨r, q, hfetch, hacc, hrest⟩

/-- `F_PC` after the hazard logic. -/
theorem hazardPC_stagesState (ec : Bool) (mem : Mem) (D_in : DInstr) (F_PC : BitVec 64)
    (W_in : WInstr) :
    hazardPC ⟨true, ec⟩ (forwardReg ⟨true, ec⟩ (stagesState ⟨true, ec⟩ s mem D_in F_PC W_in)) =
      if mem.dmem_status ≠ .inFlight ∧ s.loadUse = false ∧
        checkCbHazard s.D_out.op (s.forwarded W_in).val_a = true then s.D_out.multipurpose_val
      else F_PC := by
  unfold hazardPC
  refine if_congr ?_ rfl rfl
  change (true = true ∧ mem.dmem_status ≠ .inFlight ∧
    (!s.loadUse && checkCbHazard s.D_out.op (s.forwarded W_in).val_a) = true) ↔ _
  rw [Bool.and_eq_true, Bool.not_eq_true']
  exact ⟨fun h ↦ h.2, fun h ↦ ⟨rfl, h⟩⟩

open Classical in
/-- The PC and `F_PC` after a cycle. -/
theorem PC_of_cycle (h : cycle ⟨true, ec⟩ defaultOrder s = .ok s') :
    ∃ r, fetchResult ⟨true, ec⟩ s s.mem s.F_PC = .ok r ∧
      s'.PC = (if s.M_out.faults s.mem then s.M_out.multipurpose_val - 4
        else if s.Corrects ⟨true, ec⟩ then s.D_out.multipurpose_val else r.2.2) ∧
      s'.F_PC = if s.Corrects ⟨true, ec⟩ then s.D_out.multipurpose_val
        else if s.M_out.faults s.mem then s.M_out.multipurpose_val - 4 else r.2.2 := by
  obtain ⟨r, q, hfetch, hacc, rfl⟩ := stages_of_cycle h
  have hfault := isError_of_stages hfetch hacc
  have hcorrects := corrects_iff hfetch hacc
  have hF_PC := hazardPC_stagesState (s := s) ec q.1 r.2.1 (faultPC ⟨true, ec⟩ s q.2 r.2.2) q.2
  rw [← if_congr hcorrects rfl rfl] at hF_PC
  have hlatched : faultPC ⟨true, ec⟩ s q.2 r.2.2 =
      if s.M_out.faults s.mem then s.M_out.multipurpose_val - 4 else r.2.2 := by
    rw [← hfault]
    rfl
  rw [hlatched] at hF_PC ⊢
  rw [finishCycle_eq]
  refine ⟨r, hfetch, ?_, hF_PC⟩
  change (if q.2.status.isError then s.M_out.multipurpose_val - 4 else hazardPC ⟨true, ec⟩ _) = _
  rw [hF_PC, hfault]
  cases s.M_out.faults s.mem <;> rfl

/-- A fault enters writeback in the cycle in which it is detected. -/
theorem W_out_of_cycle (h : cycle ⟨true, ec⟩ defaultOrder s = .ok s') :
    ∃ mem q, accessed s.M_out mem = .ok q ∧ q.2.status.isError = s.M_out.faults s.mem ∧
      s'.W_out = clock s'.W_ctl q.2 s.W_out {} ∧ s'.W_ctl ≠ .stall := by
  obtain ⟨r, q, hfetch, hacc, rfl⟩ := stages_of_cycle h
  refine ⟨r.1, q, hacc, isError_of_stages hfetch hacc, ?_, ?_⟩
  · rw [finishCycle_eq]
    rfl
  · rw [finishCycle_eq]
    change pipeControlStage _ (hazardCalls ⟨true, ec⟩ _).W_bubble false ≠ _
    unfold pipeControlStage
    split
    · decide
    · cases (hazardCalls ⟨true, ec⟩ _).W_bubble <;> decide

/-- Writeback never stalls, so that a fault in it has just come from memory. -/
theorem load_of_isError {ctl : PipeCtl} (hstall : ctl ≠ .stall) {w out : WInstr}
    (herror : (clock ctl w out {}).status.isError = true) : ctl = .load := by
  cases ctl with
  | load => rfl
  | stall => exact absurd rfl hstall
  | bubble => cases herror
  | error => cases herror

/-- One cycle keeps the addresses. -/
theorem Machine.Traced.cycle {a : Addresses} (hs : s.Traced a) (hwf : s.WF)
    (h : cycle ⟨true, ec⟩ defaultOrder s = .ok s') : s'.Traced (a.next ⟨true, ec⟩ s s') := by
  obtain ⟨-, W_in, -, hfault, hW, hstall⟩ := W_out_of_cycle h
  have hPC : s.M_out.faults s.mem = true → s'.PC = a.M := by
    intro hM
    obtain ⟨r, -, hPC, -⟩ := PC_of_cycle h
    rw [hPC, if_pos hM]
    exact hs.M_PC hwf.M_out hM
  obtain ⟨r, q, hfetch, hacc, hs'⟩ := stages_of_cycle h
  rw [finishCycle_eq] at hs'
  obtain ⟨val_a, val_b, hforward⟩ := forwardedRecord_eq ⟨true, ec⟩
    (stagesState ⟨true, ec⟩ s q.1 r.2.1 (faultPC ⟨true, ec⟩ s q.2 r.2.2) q.2)
  have hD : s'.D_out = clock s'.D_ctl r.2.1 s.D_out {} := by
    rw [hs']
    rfl
  have hX : s'.X_out =
      clock s'.X_ctl { decoded s.D_out s.regs with val_a := val_a, val_b := val_b } s.X_out {} := by
    rw [hs']
    exact congrArg (clock _ · s.X_out {}) hforward
  have hM : s'.M_out = clock s'.M_ctl s.executing s.M_out {} := by
    rw [hs']
    rfl
  refine ⟨?_, ?_, ?_, fun herror ↦ ?_⟩
  · rw [hD]
    exact .clock DInstr.op DInstr.multipurpose_val (keepsAddress_fetchResult hfetch) hs.D rfl _
  · rw [hX]
    exact .clock XInstr.op XInstr.multipurpose_val hs.D hs.X rfl _
  · rw [hM]
    exact .clock MInstr.op MInstr.multipurpose_val hs.X hs.M rfl _
  · rw [hW] at herror
    have hload := load_of_isError hstall herror
    change s'.PC = clock s'.W_ctl a.M a.W 0
    rw [hload] at herror ⊢
    exact hPC (hfault ▸ herror)

end

/-! ## What follows a stop -/

/-- A `HLT` and an illegal instruction are followed by halts that the fetch stage generates. -/
structure Machine.HaltsBehind (s : Machine) : Prop where
  after_D : s.D_out.status.isStop = true → s.F_in.status.isStop = true
  after_X : s.X_out.status.isStop = true → s.D_out.op = .hlt
  after_M : s.M_out.status.isStop = true → s.X_out.op = .hlt
  after_W : s.W_out.status.isStop = true → s.M_out.op = .hlt

theorem initMachine_haltsBehind (GPR : ℕ → BitVec 64) (mem : Mem) (entry : BitVec 64) :
    (initMachine GPR mem entry).HaltsBehind :=
  ⟨fun h ↦ Bool.noConfusion h, fun h ↦ Bool.noConfusion h, fun h ↦ Bool.noConfusion h,
    fun h ↦ Bool.noConfusion h⟩

section

variable {ec : Bool} {s s' : Machine}

/-- Behind a stop in decode the fetch stage generates a `HLT`. -/
theorem Machine.HaltsBehind.generatesHlt (hs : s.HaltsBehind) (hguarded : s.Guarded)
    (hD : s.D_out.status.isStop = true) : generatesHlt ⟨true, ec⟩ s = true := by
  have hne : s.D_out ≠ {} := by
    intro hD'
    rw [hD'] at hD
    cases hD
  have hindirect : isIndirectBranch s.X_out.op = false := by
    rw [Bool.eq_false_iff]
    exact fun hbranch ↦ hne (hguarded.after_indirect hbranch)
  have hmispred : s.M_out.mispredicted = false := by
    rw [Bool.eq_false_iff]
    exact fun hmispred ↦ hne (hguarded.after_mispredicted hmispred).2
  apply generatesHlt_of_cleared
  rw [(currentPC_of_predicted hindirect hmispred).2]
  exact hs.after_D hD

/-- A stop in decode lets the fetched instruction in behind it. -/
theorem Transfer.follows (h : Transfer ec s s') (hready : s'.mem.dmem_status ≠ .inFlight)
    (hop : s.D_out.op = .hlt ∨ s.D_out.op = .error) (huse : s.loadUse = false)
    (hmispred : s.executing.mispredicted = false) : s'.D_out = s'.D_in := by
  have hreq : s.cycleRequests s' = _ := if_neg hready
  have hmispred' : checkMispredBranchHazard s.X_out.op s.executing.cond_holds = false := hmispred
  unfold Machine.loadUse at huse
  rw [h.D_out, hreq]
  simp only [hazardRequest, ↓reduceIte, huse, hmispred']
  rcases hop with hop | hop <;> rw [hop] <;> rfl

/-- One cycle keeps the halts behind a stop. -/
theorem Machine.HaltsBehind.transfer (hs : s.HaltsBehind) (hguarded : s.Guarded)
    (h : Transfer ec s s') : s'.HaltsBehind := by
  have hlatch : s.D_out.status.isStop = true →
      s'.D_in.op = .hlt ∧ s'.F_in.status.isStop = true := by
    intro hD
    obtain ⟨mem, F_PC, r, -, hfetch, hD_in⟩ := h.fetch
    unfold fetchResult at hfetch
    rw [if_pos (hs.generatesHlt hguarded hD)] at hfetch
    have hhlt : s'.D_in = generatedHlt s.D_in := by
      rw [hD_in, ← Except.ok.inj hfetch]
    rw [h.F_in, hhlt]
    exact ⟨rfl, isStop_latchedStatus rfl⟩
  by_cases hready : s'.mem.dmem_status = .inFlight
  · obtain ⟨-, hD, hX, hM, hW, -⟩ := h.frozen hready
    refine ⟨?_, ?_, ?_, ?_⟩
    all_goals simp only [hD, hX, hM, hW]
    · exact fun hstop ↦ (hlatch hstop).2
    · exact hs.after_X
    · exact hs.after_M
    · exact fun hstop ↦ Bool.noConfusion hstop
  · obtain ⟨hM, hW⟩ := h.moves hready
    have hX := h.X_out_eq hready
    have hmoves : s.X_out.status.isStop = true →
        ¬(s.loadUse || s.executing.mispredicted) = true := by
      intro hstop hheld
      have hop := hguarded.wf.X_out.status.isStop_iff.mp hstop
      rcases Bool.or_eq_true _ _ ▸ hheld with huse | hmispred
      · rw [ldur_of_loadUse huse] at hop
        rcases hop with hop | hop <;> cases hop
      · have hne : s.executing.op ≠ .bCond := by
          change s.X_out.op ≠ .bCond
          rcases hop with hop | hop <;> rw [hop] <;> decide
        rw [not_mispredicted_of_ne hne] at hmispred
        cases hmispred
    refine ⟨fun hstop ↦ ?_, fun hstop ↦ ?_, fun hstop ↦ ?_, fun hstop ↦ ?_⟩
    · rw [h.D_out] at hstop
      unfold requested at hstop
      split at hstop
      · cases hstop
      · split at hstop
        · exact (hlatch hstop).2
        · rw [h.F_in]
          exact isStop_latchedStatus hstop
    · rw [hX] at hstop
      split at hstop
      · cases hstop
      · next hissue =>
        simp only [Bool.or_eq_true, not_or, Bool.not_eq_true] at hissue
        have hD : s.D_out.status.isStop = true := hstop
        rw [h.follows hready (hguarded.wf.D_out.status.isStop_iff.mp hD) hissue.1 hissue.2]
        exact (hlatch hD).1
    · have hstopX : s.X_out.status.isStop = true := by
        rw [hM] at hstop
        exact hstop
      rw [hX, if_neg (hmoves hstopX)]
      exact hs.after_X hstopX
    · obtain ⟨mem, mem', hacc⟩ := h.access
      rw [hW] at hstop
      rw [hM]
      exact hs.after_M (isStop_of_accessed hacc hstop)

end

/-! ## Runs -/

theorem Machine.Corrects.op {build : Build} {s : Machine} (h : s.Corrects build) :
    s.D_out.op = .cbz ∨ s.D_out.op = .cbnz := by
  obtain ⟨r, q, -, -, -, -, hcb⟩ := h
  revert hcb
  cases s.D_out.op <;> intro hcb <;> first | exact .inl rfl | exact .inr rfl | cases hcb

/-- The cycle that detects an illegal instruction sets `F_PC`, too. -/
theorem F_PC_of_illegal {ec : Bool} {s s' : Machine} (hwf : s.WF) (hs : s.HaltsBehind)
    (h : cycle ⟨true, ec⟩ defaultOrder s = .ok s') (hins : s'.W_out.status = .ins) :
    s'.F_PC = s'.PC := by
  have hM : s.M_out.status = .ins := by
    obtain ⟨mem, q, hacc, -, hW, hstall⟩ := W_out_of_cycle h
    have herror : (clock s'.W_ctl q.2 s.W_out {}).status.isError = true := by
      rw [← hW, hins]
      rfl
    have hload := load_of_isError hstall herror
    have hq : q.2.status = .ins := by
      rw [hW, hload] at hins
      exact hins
    rcases status_of_accessed hacc with hadr | hsame
    · rw [hadr] at hq
      cases hq
    · exact hsame.symm.trans hq
  have hX : s.X_out.op = .hlt := hs.after_M (by rw [hM]; rfl)
  have hD : s.D_out.op = .hlt := hs.after_X (hwf.X_out.status.isStop_iff.mpr (.inl hX))
  have hcorrects : ¬s.Corrects ⟨true, ec⟩ := by
    intro hcorrects
    rcases hcorrects.op with hop | hop <;> rw [hD] at hop <;> cases hop
  obtain ⟨r, -, hPC, hF_PC⟩ := PC_of_cycle h
  rw [hPC, hF_PC, if_neg hcorrects, if_neg hcorrects]

/-- What is known when the loop goes on. -/
theorem AddressRun.traced {ec : Bool} {GPR : ℕ → BitVec 64} {mem : Mem} {entry : BitVec 64}
    {s : Machine} {a : Addresses} (h : AddressRun ⟨true, ec⟩ (initMachine GPR mem entry) s a)
    (hs : s.running = true) :
    s.Traced a ∧ s.HaltsBehind ∧ (s.W_out.status = .ins → s.F_PC = s.PC) := by
  induction h with
  | start =>
    exact ⟨⟨fun hop ↦ absurd rfl hop, fun hop ↦ absurd rfl hop, fun hop ↦ absurd rfl hop,
      fun herror ↦ Bool.noConfusion herror⟩, initMachine_haltsBehind GPR mem entry,
      fun hins ↦ nomatch hins⟩
  | step hrun hstep ih =>
    obtain ⟨htraced, hhalts, -⟩ := ih hstep.1
    have hguarded := hrun.run.reachable.guarded (initMachine_guarded GPR mem entry) hstep.1
    have hany : AnyStep ⟨true, ec⟩ _ _ := ⟨defaultOrder, List.Perm.refl _, hstep⟩
    exact ⟨htraced.cycle hguarded.wf hstep.2,
      hhalts.transfer hguarded (hany.transfer (hany.not_pipeError hs)),
      F_PC_of_illegal hguarded.wf hhalts hstep.2⟩

/-- The fetch stage predicts `pc` as the address of the instruction behind the one it fetches. -/
def Machine.Predicts (build : Build) (s : Machine) (pc : BitVec 64) : Prop :=
  ∃ r, imem s.mem (currentPC build s) = .ok r ∧
    fetchedPC build (currentPC build s) r.2.1 r.2.2 = pc

/-- The cases in which the PC is still the address of the fault in writeback after the last
cycle.  What moves it are the three instructions behind the fault, in memory, execute and decode,
and the one that is fetched. -/
inductive Machine.KeepsPC (build : Build) (s : Machine) (a : Addresses) : Prop
  -- only generated `HLT`s are behind an illegal instruction
  | illegal (hW : s.W_out.status = .ins)
  -- a `HLT`, an illegal word or a `RET` to address zero behind the fault has stopped the fetch
  | halts (hM : s.M_out.faults s.mem = false) (hD : ¬s.Corrects build)
      (hhlt : generatesHlt build s = true) (hF_PC : s.F_PC = s.PC)
  -- an indirect branch in execute, a `B.cond` in memory that is not taken or a fetch that was
  -- stalled leads to a word in front of the fault or to a branch to it; the fetch repeats the load
  -- or store otherwise, and goes on behind it
  | predicts (hM : s.M_out.faults s.mem = false) (hD : ¬s.Corrects build)
      (hhlt : generatesHlt build s = false) (hpredicts : s.Predicts build a.W)
  -- the `CBZ` or `CBNZ` in decode stands directly in front of the fault
  | corrects (hM : s.M_out.faults s.mem = false) (hD : s.Corrects build)
      (haddr : s.D_out.multipurpose_val = a.W)
  -- does not occur: no load or store follows itself
  | faults (hM : s.M_out.faults s.mem = true) (haddr : a.M = a.W)

theorem status_of_cycle {build : Build} {order : List ProcStage} (horder : order.Perm defaultOrder)
    {s s' : Machine} (h : cycle build order s = .ok s') :
    s'.status = .hlt ∨ s'.status = s.W_out.status := by
  obtain ⟨t, hstages, rfl⟩ := cycle_ok h
  have hW := (stagesEffect_of_perm horder hstages).outputs.2.2.2.2
  rw [finishCycle_eq]
  by_cases herror : (clockEdge (commit build (hazardState build t))).PipeError
  · exact .inl (if_pos herror)
  · exact .inr ((if_neg herror).trans (congrArg WInstr.status hW))

/-- Behind an illegal instruction in writeback the cycle touches neither the PC nor `F_PC`. -/
theorem quiet_of_illegal (ec : Bool) {s : Machine} (hguarded : s.Guarded) (hs : s.HaltsBehind)
    (hW : s.W_out.status = .ins) :
    s.M_out.faults s.mem = false ∧ ¬s.Corrects ⟨true, ec⟩ ∧ generatesHlt ⟨true, ec⟩ s = true := by
  have hwf := hguarded.wf
  have hM : s.M_out.op = .hlt := hs.after_W (by rw [hW]; rfl)
  have hX : s.X_out.op = .hlt := hs.after_M (hwf.M_out.status.isStop_iff.mpr (.inl hM))
  have hD : s.D_out.op = .hlt := hs.after_X (hwf.X_out.status.isStop_iff.mpr (.inl hX))
  have hstop : s.D_out.status.isStop = true := hwf.D_out.status.isStop_iff.mpr (.inl hD)
  refine ⟨?_, fun hcorrects ↦ ?_, hs.generatesHlt hguarded hstop⟩
  · rw [Bool.eq_false_iff]
    exact fun hfault ↦ (hwf.M_out.op_of_faults hfault).2.1 hM
  · rcases hcorrects.op with hop | hop <;> rw [hD] at hop <;> cases hop

/-- In a run that a fault ends, the PC is the address of the instruction that raised it exactly in
these cases. -/
theorem fault_PC (ec : Bool) (GPR : ℕ → BitVec 64) (mem : Mem) (entry : BitVec 64)
    {s s' : Machine} {a : Addresses}
    (hrun : AddressRun ⟨true, ec⟩ (initMachine GPR mem entry) s a)
    (hlast : Step ⟨true, ec⟩ defaultOrder s s') (hfault : s'.status.isError = true) :
    s'.PC = a.W ↔ s.KeepsPC ⟨true, ec⟩ a := by
  obtain ⟨hs, hcycle⟩ := hlast
  obtain ⟨htraced, hhalts, hF_PC⟩ := hrun.traced hs
  have hguarded := hrun.run.reachable.guarded (initMachine_guarded GPR mem entry) hs
  have hW : s.W_out.status.isError = true := by
    rcases status_of_cycle (List.Perm.refl _) hcycle with hstatus | hstatus
    · rw [hstatus] at hfault
      cases hfault
    · rw [← hstatus]
      exact hfault
  have hPC := htraced.W hW
  obtain ⟨r, hfetch, hPC', -⟩ := PC_of_cycle hcycle
  constructor
  · intro haddr
    rw [hPC'] at haddr
    by_cases hM : s.M_out.faults s.mem = true
    · rw [if_pos hM, htraced.M_PC hguarded.wf.M_out hM] at haddr
      exact .faults hM haddr
    · rw [if_neg hM] at haddr
      rw [Bool.not_eq_true] at hM
      by_cases hD : s.Corrects ⟨true, ec⟩
      · rw [if_pos hD] at haddr
        exact .corrects hM hD haddr
      · rw [if_neg hD] at haddr
        unfold fetchResult at hfetch
        cases hhlt : generatesHlt ⟨true, ec⟩ s with
        | true =>
          rw [if_pos hhlt] at hfetch
          rw [← Except.ok.inj hfetch] at haddr
          exact .halts hM hD hhlt (haddr.trans hPC.symm)
        | false =>
          rw [hhlt] at hfetch
          obtain ⟨q, himem, rfl⟩ := map_eq_ok.mp hfetch
          exact .predicts hM hD hhlt ⟨q, himem, haddr⟩
  · have hhalts' : s.M_out.faults s.mem = false → ¬s.Corrects ⟨true, ec⟩ →
        generatesHlt ⟨true, ec⟩ s = true → s.F_PC = s.PC → s'.PC = a.W := by
      intro hM hD hhlt hF_PC
      unfold fetchResult at hfetch
      rw [if_pos hhlt] at hfetch
      rw [hPC', hM, if_neg Bool.false_ne_true, if_neg hD, ← Except.ok.inj hfetch]
      exact hF_PC.trans hPC
    intro hkeeps
    cases hkeeps with
    | illegal hins =>
      obtain ⟨hM, hD, hhlt⟩ := quiet_of_illegal ec hguarded hhalts hins
      exact hhalts' hM hD hhlt (hF_PC hins)
    | halts hM hD hhlt hF_PC => exact hhalts' hM hD hhlt hF_PC
    | predicts hM hD hhlt hpredicts =>
      obtain ⟨q, himem, haddr⟩ := hpredicts
      unfold fetchResult at hfetch
      rw [hhlt, himem] at hfetch
      rw [hPC', hM, if_neg Bool.false_ne_true, if_neg hD, ← Except.ok.inj hfetch]
      exact haddr
    | corrects hM hD haddr =>
      rw [hPC', hM, if_neg Bool.false_ne_true, if_pos hD]
      exact haddr
    | faults hM haddr =>
      rw [hPC', if_pos hM, htraced.M_PC hguarded.wf.M_out hM]
      exact haddr

/-- A load from an unaligned address with a return from `main` behind it. -/
theorem fault_PC_return : ∃ s s' a,
    AddressRun pipeBuild (initMachine (fun n ↦ if n = 0 then 0x800000 else 0)
      (textImage [0xF8404002, 0xD65F03C0]) 0x400000) s a ∧
    Step pipeBuild defaultOrder s s' ∧ s'.status = .adr ∧ s'.PC = a.W := by
  have hcycles : (runLoop pipeBuild 4 (fun _ ↦ defaultOrder)
      (initMachine (fun n ↦ if n = 0 then 0x800000 else 0) (textImage [0xF8404002, 0xD65F03C0])
        0x400000) >>=
      fun s ↦ (cycle pipeBuild defaultOrder s).map fun s' ↦
        decide (s.running = true ∧ s.D_out.op = .hlt ∧ s.M_out.faults s.mem = false ∧
          generatesHlt pipeBuild s = true ∧ s.F_PC = s.PC ∧ s'.status = .adr)) = .ok true := by
    decide +kernel
  obtain ⟨s, hs, hmap⟩ := bind_eq_ok.mp hcycles
  obtain ⟨s', hs', hfacts⟩ := map_eq_ok.mp hmap
  obtain ⟨hrunning, hop, hM, hhlt, hF_PC, hadr⟩ := of_decide_eq_true hfacts
  obtain ⟨a, ha⟩ := exists_addressRun (runLoop_run (initMachine_running _ _ _) hs)
  have hD : ¬s.Corrects pipeBuild := by
    intro hcorrects
    rcases hcorrects.op with hcb | hcb <;> rw [hop] at hcb <;> cases hcb
  exact ⟨s, s', a, ha, ⟨hrunning, hs'⟩, hadr,
    (fault_PC false _ _ _ ha ⟨hrunning, hs'⟩ (by rw [hadr]; rfl)).mpr (.halts hM hD hhlt hF_PC)⟩

/-- `MOVZ X0, #0x80, LSL #16; MOVZ X1, #1; LDUR X2, [X0, #4]` with `NOP`s behind it: the PC is the
address behind the load. -/
theorem fault_PC_moves :
    ¬∀ (GPR : ℕ → BitVec 64) (mem : Mem) (entry : BitVec 64) (s s' : Machine) (a : Addresses),
      AddressRun pipeBuild (initMachine GPR mem entry) s a → Step pipeBuild defaultOrder s s' →
        s'.status.isError = true → s'.PC = a.W := by
  intro hclaim
  have hcycles : (runLoop pipeBuild 6 (fun _ ↦ defaultOrder)
      (initMachine (fun _ ↦ 0) (textImage [0xD2A01000, 0xD2800021, 0xF8404002, 0xD503201F,
        0xD503201F, 0xD503201F, 0xD503201F]) 0x400000) >>=
      fun s ↦ (cycle pipeBuild defaultOrder s).map fun s' ↦
        decide (s.running = true ∧ s.W_out.status = .adr ∧ s.PC = 0x400008 ∧ s'.status = .adr ∧
          s'.PC = 0x40000c)) = .ok true := by
    decide +kernel
  obtain ⟨s, hs, hmap⟩ := bind_eq_ok.mp hcycles
  obtain ⟨s', hs', hfacts⟩ := map_eq_ok.mp hmap
  obtain ⟨hrunning, hW, hPC, hadr, hPC'⟩ := of_decide_eq_true hfacts
  obtain ⟨a, ha⟩ := exists_addressRun (runLoop_run (initMachine_running _ _ _) hs)
  have haddr := hclaim _ _ _ s s' a ha ⟨hrunning, hs'⟩ (by rw [hadr]; rfl)
  have htraced := (ha.traced hrunning).1.W (by rw [hW]; rfl)
  rw [← htraced, hPC, hPC'] at haddr
  exact absurd haddr (by decide)

end SystemEmulator
