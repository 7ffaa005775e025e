import SystemEmulator.Sequential.Drain
import SystemEmulator.Cycle.Records

/-!
# One sequential step as a drained instruction

Without `EC` the fetch stage predicts the successor of every instruction but a return and a
conditional branch that is not taken, and these two redirect it.
-/

namespace SystemEmulator

open Outcome

/-- The opcodes that only the `EC` build decodes. -/
def Opcode.isEc : Opcode → Bool
  | .csel | .csinv | .csinc | .csneg | .cbz | .cbnz | .br | .blr => true
  | _ => false

theorem isEc_fixInstrAliases (insnbits : BitVec 32) {op : Opcode} (h : op.isEc = false) :
    (fixInstrAliases insnbits op).isEc = false := by
  cases op <;> first
    | rfl
    | (unfold fixInstrAliases; dsimp only; split <;> rfl)
    | cases h

theorem isEc_itable (top11 : ℕ) : (itable false top11).isEc = false := by
  have hentries : ∀ entry ∈ initItable false, entry.1.isEc = false := by decide
  unfold itable
  split
  · next entry hfind => exact hentries entry (List.mem_of_find?_eq_some hfind)
  · rfl

theorem isEc_decodeOpcode (pipe : Bool) (insnbits : BitVec 32) :
    (decodeOpcode ⟨pipe, false⟩ insnbits).isEc = false :=
  isEc_fixInstrAliases insnbits (isEc_itable _)

theorem isEc_fetchedInstr (pipe : Bool) (pc : BitVec 64) (insnbits : BitVec 32) (err : Bool) :
    (fetchedInstr ⟨pipe, false⟩ pc insnbits err).op.isEc = false := by
  cases err with
  | true => rfl
  | false => exact isEc_decodeOpcode pipe insnbits

/-! ## Instructions without an effect -/

/-- A bubble, a `HLT`, and a word that is no instruction: they reach nothing. -/
def Opcode.isIdle : Opcode → Bool
  | .nop | .hlt | .error => true
  | _ => false

/-- What an idle instruction does to the sequential machine; its `multipurpose_val` follows its
address. -/
def idleResult (op : Opcode) (multipurpose_val : BitVec 64) (c : Core) :
    ExceptT Halt Option Core :=
  match op with
  | .error => throw (.illegal (multipurpose_val - 4))
  | .hlt => throw (.halted c)
  | _ => pure c

theorem MInstr.WF.accesses_idle {m : MInstr} (h : m.WF) (hidle : m.op.isIdle = true) :
    m.accesses = false := by
  unfold MInstr.accesses
  rw [h.M_sigs]
  revert hidle
  cases m.op <;> first | (intro _; rfl) | (intro hidle; cases hidle)

theorem access_idle {m : MInstr} (h : m.WF) (hidle : m.op.isIdle = true) {c : Core}
    (hmem : c.mem.dmem_status ≠ .inFlight) : access m c = idleResult m.op m.multipurpose_val c := by
  have henable : m.W_sigs.w_enable = false := by
    rw [h.W_sigs]
    revert hidle
    cases m.op <;> first | (intro _; rfl) | (intro hidle; cases hidle)
  have hregs : regfileWrite c.regs (m.toWInstr 0 false).dst (m.toWInstr 0 false).wval
      ((m.toWInstr 0 false).W_sigs.w_enable && (m.toWInstr 0 false).status == .aok) = c.regs := by
    change regfileWrite c.regs m.dst _ (m.W_sigs.w_enable && _) = _
    rw [henable]
    rfl
  unfold access
  rw [settle_of_done (accessed_of_not_accesses (h.accesses_idle hidle) c.mem) hmem]
  simp only [writeback, hregs]
  have hpassed : (m.toWInstr 0 false).status = m.status := rfl
  rw [hpassed]
  rcases h.status with hstatus | ⟨hop, hstatus⟩
  · rw [hstatus]
    revert hidle
    cases m.op <;> intro hidle <;> first | (cases hidle; done) | rfl
  · rw [hstatus, hop]
    rfl

theorem execute_idle {x : XInstr} (h : x.WF) (hidle : x.op.isIdle = true) {c : Core}
    (hmem : c.mem.dmem_status ≠ .inFlight) :
    execute x c = idleResult x.op x.multipurpose_val c := by
  have hflags : x.X_sigs.set_flags = false := by
    rw [h.X_sigs]
    revert hidle
    cases x.op <;> first | (intro _; rfl) | (intro hidle; cases hidle)
  unfold execute
  rw [hflags]
  exact access_idle (h.executed c.NZCV) hidle hmem

/-- Only a return and a conditional branch redirect the fetch. -/
theorem redirect_eq_none {x : XInstr} (hret : x.op ≠ .ret) (hbcond : x.op ≠ .bCond)
    (nzcv : BitVec 8) : x.redirect nzcv = none := by
  have hpredicted : (executed x nzcv).1.mispredicted = false := by
    change (x.op == .bCond && _) = false
    rw [beq_false_of_ne hbcond, Bool.false_and]
  exact redirect_of_not_mispredicted hret hpredicted

/-- Idle instructions do not redirect the fetch. -/
theorem redirect_idle {x : XInstr} (hidle : x.op.isIdle = true) (nzcv : BitVec 8) :
    x.redirect nzcv = none := by
  apply redirect_eq_none
  · intro hop
    rw [hop] at hidle
    cases hidle
  · intro hop
    rw [hop] at hidle
    cases hidle

theorem drainD_idle {d : DInstr} (h : d.WF) (hidle : d.op.isIdle = true) {c : Core}
    (hmem : c.mem.dmem_status ≠ .inFlight) :
    drainD d c = idleResult d.op d.multipurpose_val c >>= fun c ↦ pure (c, none) := by
  unfold drainD
  simp only [execute_idle (h.decoded c.regs) hidle hmem,
    redirect_idle (x := decoded d c.regs) hidle]
  rfl

/-! ## One step -/

/-- Whether a conditional branch is taken depends on its condition and the flags only. -/
theorem executed_cond_holds {x : XInstr} (h : x.WF) (hop : x.op = .bCond) (nzcv : BitVec 8) :
    (executed x nzcv).1.cond_holds = condHolds x.cond nzcv := by
  have halu : x.ALU_op = .passA := by
    rw [h.ALU_op (by simp [hop]), hop]
    rfl
  simp only [executed, alu, halu, aluResult]

/-- The fetch prediction, corrected by the redirect of the instruction, is the next PC. -/
theorem redirect_getD_predictPC {x : XInstr} (hwf : x.WF) (hec : x.op.isEc = false)
    {pc : BitVec 64} (hmp : x.op ≠ .adrp → x.multipurpose_val = pc + 4) (insnbits : BitVec 32)
    (nzcv : BitVec 8) :
    (x.redirect nzcv).getD (predictPC pc insnbits x.op) = nextPC pc insnbits x nzcv := by
  by_cases hret : x.op = .ret
  · unfold XInstr.redirect nextPC
    rw [if_pos hret, hret]
    rfl
  · by_cases hbcond : x.op = .bCond
    · have hcond := executed_cond_holds hwf hbcond nzcv
      have hexec : (executed x nzcv).1.mispredicted = !condHolds x.cond nzcv := by
        change (x.op == .bCond && !_) = _
        rw [hcond, hbcond]
        rfl
      have hne : x.op ≠ .adrp := by
        rw [hbcond]
        decide
      unfold XInstr.redirect nextPC predictPC
      rw [if_neg hret, hexec, hmp hne, hbcond]
      cases condHolds x.cond nzcv <;> rfl
    · rw [redirect_eq_none hret hbcond, Option.getD_none]
      unfold nextPC predictPC
      revert hret hbcond hec
      cases x.op <;> intro hec hret hbcond <;> first
        | exact absurd rfl hret
        | exact absurd rfl hbcond
        | (cases hec; done)
        | rfl

/-- The instruction that is fetched without an error, as decode hands it on. -/
theorem redirect_getD_fetchedPC (pipe : Bool) (pc : BitVec 64) (insnbits : BitVec 32)
    (regs : Regs) (nzcv : BitVec 8) :
    ((decoded (fetchedInstr ⟨pipe, false⟩ pc insnbits false) regs).redirect nzcv).getD
        (fetchedPC ⟨pipe, false⟩ pc insnbits false) =
      nextPC pc insnbits (decoded (fetchedInstr ⟨pipe, false⟩ pc insnbits false) regs) nzcv := by
  have hwf := (wf_fetchedInstr ⟨pipe, false⟩ pc insnbits false).decoded regs
  have hop : (fetchedInstr ⟨pipe, false⟩ pc insnbits false).op =
      decodeOpcode ⟨pipe, false⟩ insnbits := rfl
  refine redirect_getD_predictPC hwf ?_ ?_ insnbits nzcv
  · exact isEc_fetchedInstr pipe pc insnbits false
  · intro hne
    exact if_neg hne

/-- One step completes the instruction that the fetch stage would hand to decode. -/
theorem seqStep_eq (pipe : Bool) {c : Core} {pc : BitVec 64} (hpc : pc ≠ 0)
    (hmem : c.mem.dmem_status ≠ .inFlight) :
    seqStep ⟨pipe, false⟩ (c, pc) =
      resumeAt (fetchedPC ⟨pipe, false⟩ pc (fetchedWord c.mem.ptable pc) (imemErr c.mem pc)) <$>
        drainD (fetchedInstr ⟨pipe, false⟩ pc (fetchedWord c.mem.ptable pc) (imemErr c.mem pc))
          c := by
  unfold seqStep drainD instrAt
  simp only [hpc, ↓reduceIte]
  cases imemErr c.mem pc with
  | false => simp only [map_bind, map_pure, resumeAt, redirect_getD_fetchedPC]
  | true =>
    have hidle := execute_idle (((wf_fetchedInstr ⟨pipe, false⟩ pc (fetchedWord c.mem.ptable pc)
      true).decoded c.regs)) rfl hmem
    rw [hidle]
    rfl

end SystemEmulator
