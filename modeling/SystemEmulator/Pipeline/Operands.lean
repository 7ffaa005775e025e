import SystemEmulator.Pipeline.Forwarding

/-!
# Operands

With which operands an instruction leaves decode: those that it finds in the register file once the
three instructions before it have written it.  The exception is a data access that is rejected in
the same cycle, since `forward_reg` does not look at the status of what it forwards.
-/

namespace SystemEmulator

open Relation Result

/-- What register number `src` yields: zero for 32, and the stack pointer for 31. -/
structure Regs.Yields (regs : Regs) (src : ℕ) (val : BitVec 64) : Prop where
  xzr : src = 32 → val = 0
  sp : src = 31 → val = regs.SP
  gpr : src < 31 → val = regs.GPR src

theorem Regs.yields_read (regs : Regs) (src : ℕ) : regs.Yields src (regs.read src) := by
  refine ⟨fun h ↦ ?_, fun h ↦ ?_, fun h ↦ ?_⟩
  · exact if_pos h
  · exact (if_neg (by rw [h]; decide)).trans (if_pos h)
  · have hxzr : src ≠ XZR_NUM := by
      rintro rfl
      exact absurd h (by decide)
    have hsp : src ≠ SP_NUM := by
      rintro rfl
      exact absurd h (by decide)
    exact (if_neg hxzr).trans (if_neg hsp)

/-- The state in which the loop calls `forward_reg`, for any sources and any register file: the
registers hold bubbles or what decode makes of instructions, the stages have run, and
`regfile_read` has read the operands. -/
structure Machine.Staged (t : Machine) : Prop where
  X_out : t.X_out.WF
  M_out : t.M_out.WF
  W_out : t.W_out.WF
  no_ec : t.D_out.op.isEc = false
  M_in : ∃ nzcv, t.M_in = (executed t.X_out nzcv).1
  W_in : ∃ mem mem', accessed t.M_out mem = .ok (mem', t.W_in)
  X_in : (t.X_in.val_a, t.X_in.val_b) = regfileRead t.regs t.D_src1 t.D_src2

/-- No output register has a fault status, and decode waits for neither a load nor the memory. -/
structure Machine.Unhindered (t : Machine) : Prop where
  X_fault : t.X_out.status.isError = false
  M_fault : t.M_out.status.isError = false
  W_fault : t.W_out.status.isError = false
  no_stall : (hazardCalls pipeBuild (forwardReg pipeBuild t)).D_stall = false
  ready : t.mem.dmem_status = .ready

/-- The operands are those that the register file yields after the instructions in writeback, memory
and execute have each performed their `regfile_write`, whatever comes of the data access of the last
one. -/
def Machine.OperandsArchitectural (t : Machine) : Prop :=
  ∀ mem mem' w, accessed t.M_in mem = .ok (mem', w) →
    (written w (written t.W_in (written t.W_out t.regs))).Yields t.D_src1 t.X_in.val_a ∧
      (written w (written t.W_in (written t.W_out t.regs))).Yields t.D_src2 t.X_in.val_b

/-! ## The stages -/

theorem runStages_regs {build : Build} {order : List ProcStage} (horder : order.Perm defaultOrder)
    {s t : Machine} (h : runStages build order s = .ok t) : t.regs = s.regs := by
  rcases runStages_perm build horder s with heq | heq
  · rw [heq] at h
    obtain ⟨r, -, h⟩ := bind_eq_ok.mp h
    obtain ⟨q, -, rfl⟩ := map_eq_ok.mp h
    rfl
  · rw [heq] at h
    obtain ⟨q, -, h⟩ := bind_eq_ok.mp h
    obtain ⟨r, -, rfl⟩ := map_eq_ok.mp h
    rfl

/-- The stages leave such a state in every order. -/
theorem staged_of_runStages {order : List ProcStage} (horder : order.Perm defaultOrder)
    {s t : Machine} (hs : s.WF) (hec : s.D_out.op.isEc = false)
    (h : runStages pipeBuild order s = .ok t) : t.Staged := by
  have ht := stagesEffect_of_perm horder h
  obtain ⟨-, hD, hX, hM, hW⟩ := ht.outputs
  refine ⟨hX ▸ hs.X_out, hM ▸ hs.M_out, hW ▸ hs.W_out, hD ▸ hec, ⟨s.NZCV, hX ▸ ht.M_in⟩,
    hM ▸ ht.W_in, ?_⟩
  rw [ht.X_in, ht.D_src.1, ht.D_src.2, runStages_regs horder h]
  rfl

/-- Without `EC` none of its instructions reaches decode. -/
theorem Reachable.no_ec {s₀ s : Machine} (hs₀ : s₀.D_out.op.isEc = false)
    (h : Reachable pipeBuild s₀ s) : s.D_out.op.isEc = false := by
  induction h with
  | refl => exact hs₀
  | tail _ hstep ih =>
    obtain ⟨order, horder, -, hcycle⟩ := hstep
    obtain ⟨t, hstages, rfl⟩ := cycle_ok hcycle
    have ht := stagesEffect_of_perm horder hstages
    rw [finishCycle_eq]
    refine clock_ind (P := fun d : DInstr ↦ d.op.isEc = false) ?_ (ht.outputs.2.1 ▸ ih) rfl _
    rcases ht.D_in with heq | ⟨pc, insnbits, err, heq⟩
    · exact heq ▸ rfl
    · exact heq ▸ isEc_fetchedInstr true pc insnbits err

/-- In every cycle of every run, whatever the order of the stages. -/
theorem Reachable.staged {GPR : ℕ → BitVec 64} {mem : Mem} {entry : BitVec 64} {s t : Machine}
    (h : Reachable pipeBuild (initMachine GPR mem entry) s) {order : List ProcStage}
    (horder : order.Perm defaultOrder) (hstages : runStages pipeBuild order s = .ok t) :
    t.Staged :=
  staged_of_runStages horder (h.wf (initMachine_wf GPR mem entry)) (h.no_ec rfl) hstages

/-! ## Forwarding -/

theorem loadUse_of_unhindered {t : Machine}
    (h : (hazardCalls pipeBuild (forwardReg pipeBuild t)).D_stall = false) :
    checkLoadUseHazard t.D_out.op t.D_src1 t.D_src2 t.X_out.op t.X_out.dst = false := by
  unfold hazardCalls at h
  split at h
  · cases h
  · exact h

/-- No access is rejected when none is made. -/
theorem err_eq_false_of_dmem {mem mem' : Mem} {dmem_addr dmem_wval val_mem : BitVec 64}
    {dmem_read dmem_write err : Bool}
    (h : dmem mem dmem_addr dmem_wval dmem_read dmem_write = .ok (mem', val_mem, err))
    (hread : dmem_read = false) (hwrite : dmem_write = false) : err = false := by
  subst hread hwrite
  cases h
  rfl

/-- A rejected access matters to the register file only if it is a load. -/
theorem written_toWInstr {m : MInstr} (hm : m.WF) {mem mem' : Mem} {val_mem : BitVec 64}
    {err : Bool} (h : dmem mem m.val_ex m.val_b m.M_sigs.dmem_read m.M_sigs.dmem_write =
      .ok (mem', val_mem, err)) (hload : m.op = .ldur → err = false) (regs : Regs) :
    written (m.toWInstr val_mem err) regs = written (m.toWInstr val_mem false) regs := by
  cases henable : m.W_sigs.w_enable with
  | true =>
    obtain rfl : err = false := by
      by_cases hop : m.op = .ldur
      · exact hload hop
      · obtain ⟨hread, hwrite⟩ := no_access_of_w_enable hop (hm.W_sigs ▸ henable)
        exact err_eq_false_of_dmem h (hm.M_sigs ▸ hread) (hm.M_sigs ▸ hwrite)
    rfl
  | false =>
    unfold written MInstr.toWInstr
    simp only [henable, Bool.false_and]
    rfl

/-- The operands are forwarded as if the data access in memory were accepted. -/
theorem Machine.Staged.forwardReg_yields {t : Machine} (ht : t.Staged) (hclear : t.Unhindered)
    {val_mem : BitVec 64} {err : Bool} (hW_in : t.W_in = t.M_out.toWInstr val_mem err)
    {mem mem' : Mem} {w : WInstr} (hw : accessed t.M_in mem = .ok (mem', w)) :
    let regs := written w (written (t.M_out.toWInstr val_mem false) (written t.W_out t.regs))
    regs.Yields t.D_src1 (forwardReg pipeBuild t).X_in.val_a ∧
      regs.Yields t.D_src2 (forwardReg pipeBuild t).X_in.val_b := by
  obtain ⟨nzcv, hM_in⟩ := ht.M_in
  obtain ⟨loaded, err', hdmem, rfl⟩ := accessed_ok hw
  have herr : t.X_out.M_sigs.dmem_read = false → t.X_out.M_sigs.dmem_write = false →
      err' = false := by
    rw [hM_in] at hdmem
    exact err_eq_false_of_dmem hdmem
  have hfault : t.W_out.status ≠ .adr := by
    intro hadr
    have hcontra := hclear.W_fault
    rw [hadr] at hcontra
    cases hcontra
  have huse := loadUse_of_unhindered hclear.no_stall
  have hforward : ∀ src val, src = t.D_src1 ∨ src = t.D_src2 → val = t.regs.read src →
      (written (t.M_in.toWInstr loaded err') (written (t.M_out.toWInstr val_mem false)
        (written t.W_out t.regs))).Yields src
      (forwardOne src t.X_out.dst t.M_out.dst t.W_out.dst t.M_in.val_ex t.M_out.val_ex
        t.W_in.val_mem t.W_out.val_ex t.W_out.val_mem t.M_out.W_sigs.wval_sel
        t.W_out.W_sigs.wval_sel t.X_out.W_sigs.w_enable t.M_out.W_sigs.w_enable
        t.W_out.W_sigs.w_enable val) := by
    rintro src val hsrc rfl
    have hval := forwardOne_eq_read ht.X_out ht.M_out ht.W_out hfault
      (dst_eq_xzr_of_not_loadUse huse ht.no_ec hsrc) nzcv val_mem loaded herr t.regs
    rw [hM_in, hW_in]
    change Regs.Yields _ src (forwardOne src _ _ _ _ _ val_mem _ _ _ _ _ _ _ _)
    rw [hval]
    exact Regs.yields_read _ src
  obtain ⟨hread₁, hread₂⟩ := Prod.mk.inj ht.X_in
  exact ⟨hforward _ _ (.inl rfl) hread₁, hforward _ _ (.inr rfl) hread₂⟩

/-- Forwarded operands are the architectural ones, unless a load in memory is rejected in the same
cycle. -/
theorem forwardReg_architectural {t : Machine} (ht : t.Staged) (hclear : t.Unhindered)
    (haccess : t.M_out.op = .ldur → t.W_in.status.isError = false) :
    (forwardReg pipeBuild t).OperandsArchitectural := by
  obtain ⟨mem₀, mem₁, hW_in⟩ := ht.W_in
  obtain ⟨val_mem, err, hdmem, hW_in⟩ := accessed_ok hW_in
  have hload : t.M_out.op = .ldur → err = false := by
    intro hop
    have haccess := haccess hop
    cases err with
    | false => rfl
    | true =>
      rw [hW_in] at haccess
      cases haccess
  intro mem mem' w hw
  change (written w (written t.W_in _)).Yields _ _ ∧ (written w (written t.W_in _)).Yields _ _
  rw [hW_in, written_toWInstr ht.M_out hdmem hload]
  exact ht.forwardReg_yields hclear hW_in hw

/-- `MOVZ X1, #1; MOVZ X2, #2; NOP; SUBS X3, X1, X2`. -/
theorem forwardReg_architectural_subs : ∃ s t,
    Reachable pipeBuild (initMachine (fun _ ↦ 0)
      (textImage [0xD2800021, 0xD2800042, 0xD503201F, 0xEB020023]) 0x400000) s ∧
    runStages pipeBuild defaultOrder s = .ok t ∧ t.Unhindered ∧
    (forwardReg pipeBuild t).X_in.val_a = 1 ∧ (forwardReg pipeBuild t).X_in.val_b = 2 ∧
    (forwardReg pipeBuild t).OperandsArchitectural := by
  have hvalues : (runLoop pipeBuild 4 (fun _ ↦ defaultOrder) (initMachine (fun _ ↦ 0)
      (textImage [0xD2800021, 0xD2800042, 0xD503201F, 0xEB020023]) 0x400000) >>= fun s ↦
        (runStages pipeBuild defaultOrder s).map fun t ↦
          (decide (t.X_out.status.isError = false ∧ t.M_out.status.isError = false ∧
            t.W_out.status.isError = false ∧
            (hazardCalls pipeBuild (forwardReg pipeBuild t)).D_stall = false ∧
            t.mem.dmem_status = .ready ∧ t.W_in.status.isError = false),
          (forwardReg pipeBuild t).X_in.val_a, (forwardReg pipeBuild t).X_in.val_b)) =
      .ok (true, 1, 2) := by
    decide +kernel
  obtain ⟨s, hs, hvalues⟩ := bind_eq_ok.mp hvalues
  obtain ⟨t, ht, hvalues⟩ := map_eq_ok.mp hvalues
  simp only [Prod.mk.injEq, decide_eq_true_eq] at hvalues
  obtain ⟨⟨hX, hM, hW, hstall, hready, haccess⟩, hval_a, hval_b⟩ := hvalues
  have hreach := (runLoop_run (initMachine_running _ _ _) hs).reachable
  have hclear : t.Unhindered := ⟨hX, hM, hW, hstall, hready⟩
  exact ⟨s, t, hreach, ht, hclear, hval_a, hval_b,
    forwardReg_architectural (hreach.staged (.refl _) ht) hclear fun _ ↦ haccess⟩

/-- `ADRP X0, #0; LDUR X1, [X0]; NOP; ADD X2, X1, #0` loads from the text segment: what is forwarded
is the word that has been read, but `X1` is never written. -/
theorem forwardReg_rejected_load : ∃ s t,
    Reachable pipeBuild (initMachine (fun _ ↦ 0)
      (textImage [0x90000000, 0xF8400001, 0xD503201F, 0x91000022]) 0x400000) s ∧
    runStages pipeBuild defaultOrder s = .ok t ∧ t.Staged ∧ t.Unhindered ∧
    ¬(forwardReg pipeBuild t).OperandsArchitectural := by
  have hvalues : (runLoop pipeBuild 4 (fun _ ↦ defaultOrder) (initMachine (fun _ ↦ 0)
      (textImage [0x90000000, 0xF8400001, 0xD503201F, 0x91000022]) 0x400000) >>= fun s ↦
        (runStages pipeBuild defaultOrder s).map fun t ↦
          (decide (t.X_out.status.isError = false ∧ t.M_out.status.isError = false ∧
            t.W_out.status.isError = false ∧
            (hazardCalls pipeBuild (forwardReg pipeBuild t)).D_stall = false ∧
            t.mem.dmem_status = .ready),
          t.M_in.accesses, t.D_src1, (forwardReg pipeBuild t).X_in.val_a,
          (written (t.M_in.toWInstr 0 false) (written t.W_in (written t.W_out t.regs))).GPR 1)) =
      .ok (true, false, 1, 0xF840000190000000, 0) := by
    decide +kernel
  obtain ⟨s, hs, hvalues⟩ := bind_eq_ok.mp hvalues
  obtain ⟨t, ht, hvalues⟩ := map_eq_ok.mp hvalues
  simp only [Prod.mk.injEq, decide_eq_true_eq] at hvalues
  obtain ⟨⟨hX, hM, hW, hstall, hready⟩, haccesses, hsrc, hval, hreg⟩ := hvalues
  have hreach := (runLoop_run (initMachine_running _ _ _) hs).reachable
  refine ⟨s, t, hreach, ht, hreach.staged (.refl _) ht, ⟨hX, hM, hW, hstall, hready⟩,
    fun hclaim ↦ ?_⟩
  have hyields := (hclaim _ _ _ (accessed_of_not_accesses haccesses t.mem)).1.gpr
    (show t.D_src1 < 31 by omega)
  change (forwardReg pipeBuild t).X_in.val_a =
    (written (t.M_in.toWInstr 0 false) (written t.W_in (written t.W_out t.regs))).GPR t.D_src1
    at hyields
  rw [hsrc, hreg, hval] at hyields
  exact absurd hyields (by decide)

end SystemEmulator
