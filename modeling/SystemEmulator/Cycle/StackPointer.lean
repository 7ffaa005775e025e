import SystemEmulator.Cycle.PipeControl

/-!
# Writes of the stack pointer

The register number 31 is remapped to the zero register in `fix_regs`, by opcode, and then travels
to `regfile_write`.  `ADRP` is missing from the switch, and so it is the one opcode beside `ADD` and
`SUB` with an immediate that can write the stack pointer.
-/

namespace SystemEmulator

open Relation Result

/-! ## The destination of an instruction -/

/-- The destination number that decode gives an instruction word. -/
def encodedDst (op : Opcode) (insnbits : BitVec 32) : ℕ :=
  DInstr.dst { insnbits := insnbits, op := op, format := ftable op }

/-- The instruction writes the register that bits 4 to 0 of its word name. -/
def Opcode.writesRd (op : Opcode) : Bool :=
  (generateDXMWControl op).W_sigs.w_enable && !(generateDXMWControl op).W_sigs.dst_sel

/-- `ADD` and `SUB` with an immediate, which name the stack pointer by 31. -/
def Opcode.isAddSubRI : Opcode → Bool
  | .addRI | .subRI => true
  | _ => false

/-- Register 31 of the register file is written by three opcodes only. -/
theorem encodedDst_eq_sp_iff {op : Opcode} (hw : (generateDXMWControl op).W_sigs.w_enable = true)
    (insnbits : BitVec 32) : encodedDst op insnbits = SP_NUM ↔
      (op.isAddSubRI = true ∨ op = .adrp) ∧ regField insnbits 0 = 31 := by
  have hxzr : ∀ r : ℕ, spToXzr r ≠ SP_NUM := by
    intro r
    unfold spToXzr
    split
    · decide
    · assumption
  have hlt := regField_lt insnbits 0
  cases op <;> first
    | (cases hw; done)
    | exact iff_of_false (hxzr _) (by simp [Opcode.isAddSubRI])
    | exact iff_of_false (by decide : (30 : ℕ) ≠ SP_NUM) (by simp [Opcode.isAddSubRI])
    | exact (and_iff_right (by simp [Opcode.isAddSubRI])).symm

/-- Every other opcode that writes `Rd` turns 31 into the zero register. -/
theorem encodedDst_eq_xzr {op : Opcode} (hw : op.writesRd = true)
    (hop : op.isAddSubRI = false) (hadrp : op ≠ .adrp) {insnbits : BitVec 32}
    (hrd : regField insnbits 0 = 31) : encodedDst op insnbits = XZR_NUM := by
  have hxzr : spToXzr (regField insnbits 0) = XZR_NUM := by
    rw [hrd]
    rfl
  cases op <;> first
    | (cases hw; done)
    | (cases hop; done)
    | exact absurd rfl hadrp
    | exact hxzr

/-! ## The number travels to writeback -/

/-- The destination of a record is the one that decode gave to some word; a bubble has none. -/
def DstOk (op : Opcode) (dst : ℕ) : Prop := op ≠ .nop → ∃ insnbits, dst = encodedDst op insnbits

/-- The destinations in the three last registers come from instruction words. -/
structure Machine.DstsOk (s : Machine) : Prop where
  X_out : DstOk s.X_out.op s.X_out.dst
  M_out : DstOk s.M_out.op s.M_out.dst
  W_out : DstOk s.W_out.op s.W_out.dst

theorem DInstr.WF.dstOk {d : DInstr} (h : d.WF) : DstOk d.op d.dst := by
  intro hop
  refine ⟨d.insnbits, ?_⟩
  unfold encodedDst DInstr.dst
  rw [h.format hop]

theorem Machine.DstsOk.cycle {build : Build} {order : List ProcStage}
    (horder : order.Perm defaultOrder) {s s' : Machine} (hwf : s.WF) (hs : s.DstsOk)
    (h : cycle build order s = .ok s') : s'.DstsOk := by
  obtain ⟨t, hstages, rfl⟩ := cycle_ok h
  have ht := stagesEffect_of_perm horder hstages
  obtain ⟨-, -, hX, hM, hW⟩ := ht.outputs
  obtain ⟨val_a, val_b, hforward⟩ := forwardedRecord_eq build t
  have hX_in : DstOk (forwardedRecord build t).op (forwardedRecord build t).dst := by
    rw [hforward, ht.X_in]
    exact hwf.D_out.dstOk
  have hM_in : DstOk t.M_in.op t.M_in.dst := by
    rw [ht.M_in]
    exact hs.X_out
  have hW_in : DstOk t.W_in.op t.W_in.dst := by
    obtain ⟨mem, mem', hacc⟩ := ht.W_in
    obtain ⟨val_mem, err, -, heq⟩ := accessed_ok hacc
    rw [heq]
    exact hs.M_out
  have hbubble : DstOk .nop 0 := fun hop ↦ absurd rfl hop
  rw [finishCycle_eq]
  constructor
  · exact clock_ind (P := fun x : XInstr ↦ DstOk x.op x.dst) hX_in (hX ▸ hs.X_out) hbubble _
  · exact clock_ind (P := fun m : MInstr ↦ DstOk m.op m.dst) hM_in (hM ▸ hs.M_out) hbubble _
  · exact clock_ind (P := fun w : WInstr ↦ DstOk w.op w.dst) hW_in (hW ▸ hs.W_out) hbubble _

theorem initMachine_dstsOk (GPR : ℕ → BitVec 64) (mem : Mem) (entry : BitVec 64) :
    (initMachine GPR mem entry).DstsOk :=
  ⟨fun hop ↦ absurd rfl hop, fun hop ↦ absurd rfl hop, fun hop ↦ absurd rfl hop⟩

theorem Reachable.dstsOk {build : Build} {s s' : Machine} (hwf : s.WF) (hs : s.DstsOk)
    (h : Reachable build s s') : s'.DstsOk := by
  induction h with
  | refl => exact hs
  | tail hreach hstep ih =>
    obtain ⟨order, horder, -, hcycle⟩ := hstep
    exact ih.cycle horder (Reachable.wf hwf hreach) hcycle

/-! ## The register file in one cycle -/

/-- A cycle changes the register file by the write of the instruction in writeback. -/
theorem cycle_regs {build : Build} {order : List ProcStage} (horder : order.Perm defaultOrder)
    {s s' : Machine} (h : cycle build order s = .ok s') :
    s'.regs = regfileWrite s.regs s.W_out.dst s.W_out.wval
      (s.W_out.W_sigs.w_enable && s.W_out.status == .aok) := by
  obtain ⟨t, hstages, rfl⟩ := cycle_ok h
  have ht : t.regs = s.regs ∧ t.W_out = s.W_out ∧ t.W_wval = s.W_out.wval := by
    rcases runStages_perm build horder s with heq | heq
    · obtain ⟨r, -, hr⟩ := bind_eq_ok.mp (heq ▸ hstages)
      obtain ⟨q, -, rfl⟩ := map_eq_ok.mp hr
      exact ⟨rfl, rfl, rfl⟩
    · obtain ⟨q, -, hq⟩ := bind_eq_ok.mp (heq ▸ hstages)
      obtain ⟨r, -, rfl⟩ := map_eq_ok.mp hq
      exact ⟨rfl, rfl, rfl⟩
  obtain ⟨hregs, hW, hwval⟩ := ht
  rw [finishCycle_eq, ← hregs, ← hwval, ← hW]
  rfl

/-- In this cycle the stack pointer changes only by an `ADD` or `SUB` immediate whose `Rd` field is
31, and every other instruction that writes register 31 discards its result. -/
structure StackPointerFrame (s s' : Machine) : Prop where
  encoded : s.W_out.op ≠ .nop → ∃ insnbits, s.W_out.dst = encodedDst s.W_out.op insnbits
  changes : s'.regs.SP ≠ s.regs.SP → s.W_out.op.isAddSubRI = true ∧
    ∃ insnbits, s.W_out.dst = encodedDst s.W_out.op insnbits ∧ regField insnbits 0 = 31
  discards : ∀ insnbits, s.W_out.dst = encodedDst s.W_out.op insnbits →
    regField insnbits 0 = 31 → s.W_out.op.writesRd = true → s.W_out.op.isAddSubRI = false →
      s'.regs = s.regs

/-- An `ADRP` with the `Rd` field 31 commits another value than the stack pointer holds. -/
def Machine.AdrpWritesSP (s : Machine) : Prop :=
  s.W_out.op = .adrp ∧ s.W_out.dst = SP_NUM ∧ s.W_out.status = .aok ∧ s.W_out.wval ≠ s.regs.SP

/-- The frame holds in a cycle of a run exactly when no `ADRP` writes the stack pointer in it. -/
theorem stackPointerFrame_iff (build : Build) (GPR : ℕ → BitVec 64) (mem : Mem)
    (entry : BitVec 64) {s s' : Machine} (hreach : Reachable build (initMachine GPR mem entry) s)
    (hstep : AnyStep build s s') : StackPointerFrame s s' ↔ ¬s.AdrpWritesSP := by
  obtain ⟨order, horder, -, hcycle⟩ := hstep
  have hregs := cycle_regs horder hcycle
  have hwf := (Reachable.wf (initMachine_wf GPR mem entry) hreach).W_out
  have hdst := (Reachable.dstsOk (initMachine_wf GPR mem entry)
    (initMachine_dstsOk GPR mem entry) hreach).W_out
  have hwrite : ∀ dst w_enable, w_enable = false ∨ dst = XZR_NUM →
      regfileWrite s.regs dst s.W_out.wval w_enable = s.regs := by
    rintro dst w_enable (rfl | rfl)
    · rfl
    · unfold regfileWrite
      cases w_enable <;> rfl
  constructor
  · rintro hframe ⟨hop, hsp, hstatus, hne⟩
    have hSP : s'.regs.SP = s.W_out.wval := by
      rw [hregs, hwf.W_sigs, hop, hstatus, hsp]
      rfl
    have hadd := (hframe.changes (hSP ▸ hne)).1
    rw [hop] at hadd
    cases hadd
  · intro hadrp
    refine ⟨hdst, fun hchange ↦ ?_, fun insnbits hinsn hrd hwrites hop ↦ ?_⟩
    · -- the write is enabled and goes to the stack pointer
      have henable : s.W_out.W_sigs.w_enable = true ∧ s.W_out.status = .aok := by
        by_contra hcontra
        refine hchange ?_
        rw [hregs, hwrite]
        left
        cases hw : s.W_out.W_sigs.w_enable with
        | false => rfl
        | true => simpa [hw] using hcontra
      have hsp : s.W_out.dst = SP_NUM := by
        by_contra hcontra
        refine hchange ?_
        rw [hregs]
        unfold regfileWrite
        split
        · rfl
        · split
          · rfl
          · rfl
      have hop : s.W_out.op ≠ .nop := by
        intro hnop
        have hw := henable.1
        rw [hwf.W_sigs, hnop] at hw
        cases hw
      have hw : (generateDXMWControl s.W_out.op).W_sigs.w_enable = true := hwf.W_sigs ▸ henable.1
      obtain ⟨insnbits, hinsn⟩ := hdst hop
      obtain ⟨hadd | hop', hrd⟩ := (encodedDst_eq_sp_iff hw insnbits).mp (hinsn ▸ hsp)
      · exact ⟨hadd, insnbits, hinsn, hrd⟩
      · refine absurd ⟨hop', hsp, henable.2, fun heq ↦ hchange ?_⟩ hadrp
        rw [hregs, henable.1, henable.2, hsp]
        exact heq
    · by_cases hadrpOp : s.W_out.op = .adrp
      · have hsp : s.W_out.dst = SP_NUM := by
          rw [hinsn, hadrpOp]
          exact hrd
        by_cases hstatus : s.W_out.status = .aok
        · have heq : s.W_out.wval = s.regs.SP := by
            by_contra hne
            exact hadrp ⟨hadrpOp, hsp, hstatus, hne⟩
          rw [hregs, hwf.W_sigs, hadrpOp, hstatus, hsp, heq]
          rfl
        · rw [hregs, hwrite _ _ (.inl ?_)]
          rw [beq_false_of_ne hstatus, Bool.and_false]
      · rw [hregs, hwrite _ _ (.inr ?_)]
        rw [hinsn]
        exact encodedDst_eq_xzr hwrites hop hadrpOp hrd

/-- The cycle in which `ADD SP, SP, #16` writes the stack pointer. -/
theorem stackPointerFrame_iff_add : ∃ s s',
    Reachable ⟨true, false⟩ (initMachine (fun _ ↦ 0)
      (textImage [0x910043FF, 0x9100041F, 0xD503201F, 0xD503201F, 0xD503201F]) 0x400000) s ∧
    AnyStep ⟨true, false⟩ s s' ∧ s'.regs.SP = s.regs.SP + 16 ∧ StackPointerFrame s s' := by
  have hrun : (runLoop ⟨true, false⟩ 4 (fun _ ↦ defaultOrder) (initMachine (fun _ ↦ 0)
      (textImage [0x910043FF, 0x9100041F, 0xD503201F, 0xD503201F, 0xD503201F]) 0x400000) >>=
        fun s ↦ (cycle ⟨true, false⟩ defaultOrder s).map fun s' ↦
          (s.running, s.W_out.op, decide (s'.regs.SP = s.regs.SP + 16))) =
      .ok (true, .addRI, true) := by
    decide +kernel
  obtain ⟨s, hloop, hmap⟩ := bind_eq_ok.mp hrun
  obtain ⟨s', hcycle, hpair⟩ := map_eq_ok.mp hmap
  obtain ⟨hrunning, hop, hSP⟩ := by simpa only [Prod.mk.injEq, decide_eq_true_eq] using hpair
  have hreach := runLoop_reachable (fun _ ↦ List.Perm.refl _) (initMachine_running _ _ _) hloop
  have hstep : AnyStep ⟨true, false⟩ s s' := ⟨defaultOrder, List.Perm.refl _, hrunning, hcycle⟩
  refine ⟨s, s', hreach, hstep, hSP, (stackPointerFrame_iff _ _ _ _ hreach hstep).mpr ?_⟩
  rintro ⟨hadrp, -⟩
  rw [hop] at hadrp
  cases hadrp

/-- `ADRP` to register 31 moves the stack pointer to the page of the instruction. -/
theorem stackPointerFrame_fails : ¬∀ (build : Build) (GPR : ℕ → BitVec 64) (mem : Mem)
    (entry : BitVec 64) (s s' : Machine), Reachable build (initMachine GPR mem entry) s →
      AnyStep build s s' → StackPointerFrame s s' := by
  intro hclaim
  have hrun : (runLoop ⟨true, false⟩ 4 (fun _ ↦ defaultOrder)
      (initMachine (fun _ ↦ 0)
        (textImage [0x9000001F, 0xD503201F, 0xD503201F, 0xD503201F, 0xD503201F]) 0x400000) >>=
        fun s ↦ (cycle ⟨true, false⟩ defaultOrder s).map fun s' ↦
          (s.running, s.W_out.op, decide (s'.regs.SP ≠ s.regs.SP))) = .ok (true, .adrp, true) := by
    decide +kernel
  obtain ⟨s, hloop, hmap⟩ := bind_eq_ok.mp hrun
  obtain ⟨s', hcycle, hpair⟩ := map_eq_ok.mp hmap
  obtain ⟨hrunning, hop, hSP⟩ := by simpa only [Prod.mk.injEq, decide_eq_true_eq] using hpair
  have hreach := runLoop_reachable (fun _ ↦ List.Perm.refl _) (initMachine_running _ _ _) hloop
  have hadd := ((hclaim _ _ _ _ s s' hreach
    ⟨defaultOrder, List.Perm.refl _, hrunning, hcycle⟩).changes hSP).1
  rw [hop] at hadd
  cases hadd

end SystemEmulator
