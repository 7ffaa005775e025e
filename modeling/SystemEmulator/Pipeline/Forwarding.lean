import SystemEmulator.Pipeline.Effect
import SystemEmulator.Sequential.Complete

/-!
# Forwarding

The operands that `forward_reg` hands to the instruction in decode are those that it finds in the
register file once the three instructions before it have completed.
-/

namespace SystemEmulator

open Outcome

/-- Reading a register after a write. -/
theorem read_regfileWrite (regs : Regs) (dst : ℕ) (val : BitVec 64) (w_enable : Bool) (src : ℕ) :
    (regfileWrite regs dst val w_enable).read src =
      if w_enable = true ∧ dst = src ∧ src ≠ XZR_NUM then val else regs.read src := by
  have hnum : SP_NUM ≠ XZR_NUM := by decide
  unfold regfileWrite Regs.read
  cases w_enable with
  | false => rfl
  | true =>
    by_cases hsrc : src = XZR_NUM
    · simp only [hsrc, ↓reduceIte, ne_eq, not_true_eq_false, and_false]
    · by_cases hdst : dst = src
      · subst hdst
        by_cases hsp : dst = SP_NUM
        · simp [hsp, hnum]
        · simp [hsrc, hsp]
      · by_cases hxzr : dst = XZR_NUM
        · have hne : XZR_NUM ≠ src := fun h ↦ hsrc h.symm
          simp [hsrc, hxzr, hne]
        · by_cases hsp : dst = SP_NUM
          · have hne : src ≠ SP_NUM := fun h ↦ hdst (hsp.trans h.symm)
            simp [hsrc, hsp, hnum, hne, Ne.symm hne]
          · simp [hsrc, hdst, hxzr, hsp, Function.update_of_ne (Ne.symm hdst)]

/-- The register file after the `regfile_write` of an instruction in writeback. -/
def written (w : WInstr) (regs : Regs) : Regs :=
  regfileWrite regs w.dst w.wval (w.W_sigs.w_enable && w.status == .aok)

/-- Without a load-use hazard, a load in execute writes none of the two source registers. -/
theorem dst_eq_xzr_of_not_loadUse {D_opcode X_opcode : Opcode} {D_src1 D_src2 X_dst : ℕ}
    (huse : checkLoadUseHazard D_opcode D_src1 D_src2 X_opcode X_dst = false)
    (hec : D_opcode.isEc = false) {src : ℕ} (hsrc : src = D_src1 ∨ src = D_src2)
    (hldur : X_opcode = .ldur) (hdst : X_dst = src) : src = XZR_NUM := by
  have hbr : checkBrHazard D_opcode = false := by
    revert hec
    cases D_opcode <;> intro hec <;> first | (cases hec; done) | rfl
  by_contra hxzr
  have hcontra := (checkLoadUseHazard_iff _ _ _ _ _).mpr ⟨hbr, hldur, hdst ▸ hxzr, hdst ▸ hsrc⟩
  rw [huse] at hcontra
  cases hcontra

/-- Only a load takes the value it writes from the memory. -/
theorem wval_sel_eq_false {op : Opcode} (h : op ≠ .ldur) :
    (generateDXMWControl op).W_sigs.wval_sel = false := by
  cases op <;> first | rfl | exact absurd rfl h

/-- An instruction other than a load that writes a register accesses no data. -/
theorem no_access_of_w_enable {op : Opcode} (h : op ≠ .ldur)
    (henable : (generateDXMWControl op).W_sigs.w_enable = true) :
    (generateDXMWControl op).M_sigs.dmem_read = false ∧
      (generateDXMWControl op).M_sigs.dmem_write = false := by
  revert h henable
  cases op <;> intro h henable <;>
    first | exact ⟨rfl, rfl⟩ | (cases henable; done) | exact absurd rfl h

/-- One forwarded operand: the register after the instructions in writeback, memory and execute have
written it, if the data access of the one in memory is accepted. -/
theorem forwardOne_eq_read {x : XInstr} {m : MInstr} {w : WInstr} (hx : x.WF) (hm : m.WF)
    (hw : w.WF) (hfault : w.status ≠ .adr) {src : ℕ}
    (hload : x.op = .ldur → x.dst = src → src = XZR_NUM) (nzcv : BitVec 8)
    (val_mem loaded : BitVec 64) {err : Bool}
    (herr : x.M_sigs.dmem_read = false → x.M_sigs.dmem_write = false → err = false) (regs : Regs) :
    forwardOne src x.dst m.dst w.dst (executed x nzcv).1.val_ex m.val_ex val_mem w.val_ex w.val_mem
      m.W_sigs.wval_sel w.W_sigs.wval_sel x.W_sigs.w_enable m.W_sigs.w_enable w.W_sigs.w_enable
      (regs.read src) =
    (written ((executed x nzcv).1.toWInstr loaded err)
      (written (m.toWInstr val_mem false) (written w regs))).read src := by
  unfold written
  rw [read_regfileWrite, read_regfileWrite, read_regfileWrite, hw.writes hfault]
  change _ = if (x.W_sigs.w_enable && (if err then Stat.adr else x.status) == .aok) = true ∧
      x.dst = src ∧ src ≠ XZR_NUM then
      (if x.W_sigs.wval_sel then loaded else (executed x nzcv).1.val_ex)
    else if (m.W_sigs.w_enable && m.status == .aok) = true ∧ m.dst = src ∧ src ≠ XZR_NUM then
      (if m.W_sigs.wval_sel then val_mem else m.val_ex)
    else _
  rw [hm.writes]
  unfold forwardOne
  by_cases hexecute : x.W_sigs.w_enable = true ∧ x.dst = src ∧ src ≠ XZR_NUM
  · obtain ⟨henable, hdst, hxzr⟩ := hexecute
    have hop : x.op ≠ .ldur := fun hldur ↦ hxzr (hload hldur hdst)
    obtain ⟨hread, hwrite⟩ := no_access_of_w_enable hop (hx.W_sigs ▸ henable)
    have hsel : x.W_sigs.wval_sel = false := hx.W_sigs ▸ wval_sel_eq_false hop
    have hstatus : x.status = .aok := hx.status.aok (hx.W_sigs ▸ henable)
    rw [if_pos ⟨henable, hdst, hxzr⟩, herr (hx.M_sigs ▸ hread) (hx.M_sigs ▸ hwrite), henable,
      hstatus, hsel]
    exact (if_pos ⟨rfl, hdst, hxzr⟩).symm
  · have hnot : ¬((x.W_sigs.w_enable && (if err then Stat.adr else x.status) == .aok) = true ∧
        x.dst = src ∧ src ≠ XZR_NUM) := by
      rintro ⟨henable, hdst, hxzr⟩
      exact hexecute ⟨(Bool.and_eq_true_iff.mp henable).1, hdst, hxzr⟩
    rw [if_neg hexecute, if_neg hnot]
    rfl

section

variable {s s' : Machine} {r : Mem × DInstr × BitVec 64} {q : Mem × WInstr}

/-- The instruction in decode goes on with the operands it has after the three before it. -/
theorem forwarded_eq_decoded (hs : s.WF) (hec : s.D_out.op.isEc = false)
    (huse : s.loadUse = false) (hW : s.W_out.status.passes = true)
    (hq : q.2.status.passes = true) (heffect : CycleEffect s r q s') {c c' : Core}
    (hc : c.regs = regfileWrite s'.regs q.2.dst q.2.wval
      (q.2.W_sigs.w_enable && q.2.status == .aok))
    (hcompletes : Completes s.executing c c') :
    s.forwarded q.2 = decoded s.D_out c'.regs := by
  obtain ⟨val_mem, err, -, hw⟩ := accessed_ok heffect.access
  obtain ⟨loaded, hc'⟩ := hcompletes.regs
  have herr : err = false := by
    cases err with
    | false => rfl
    | true =>
      rw [hw] at hq
      cases hq
  have hregs : c'.regs = written (s.executing.toWInstr loaded false)
      (written (s.M_out.toWInstr val_mem false) (written s.W_out s.regs)) := by
    rw [hc', hc, heffect.regs, hw, herr]
    rfl
  have hforward : ∀ src, src = s.D_out.src1 ∨ src = s.D_out.src2 →
      forwardOne src s.X_out.dst s.M_out.dst s.W_out.dst s.executing.val_ex s.M_out.val_ex
        q.2.val_mem s.W_out.val_ex s.W_out.val_mem s.M_out.W_sigs.wval_sel
        s.W_out.W_sigs.wval_sel s.X_out.W_sigs.w_enable s.M_out.W_sigs.w_enable
        s.W_out.W_sigs.w_enable (s.regs.read src) = c'.regs.read src := by
    intro src hsrc
    rw [hregs, hw]
    exact forwardOne_eq_read hs.X_out hs.M_out hs.W_out (ne_adr_of_passes hW)
      (dst_eq_xzr_of_not_loadUse huse hec hsrc) s.NZCV val_mem loaded (fun _ _ ↦ rfl) s.regs
  unfold Machine.forwarded decoded regfileRead
  dsimp only
  rw [hforward _ (.inl rfl), hforward _ (.inr rfl)]

end

end SystemEmulator
