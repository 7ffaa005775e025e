import SystemEmulator.Datapath.Adder
import SystemEmulator.Datapath.Bitfields
import SystemEmulator.Library.A64
import SystemEmulator.Sequential.Machine

/-!
# Data-processing instructions

The tables and the switches of fetch, decode and execute agree with A64 on the data-processing
words: an instruction has exactly the effect of A64 on the registers and the flags.
-/

namespace SystemEmulator

open A64

/-! ## The fields of the word formats -/

section

variable {imm6 : BitVec 6} {imm12 : BitVec 12} {imm16 : BitVec 16} {hw : BitVec 2}
  {rm rn rd : BitVec 5}

@[simp]
theorem regField_registerWord_rd (top : BitVec 11) :
    regField (registerWord top rm imm6 rn rd) 0 = rd.toNat := by
  rw [regField_eq _ (by decide), (registerWord_slices rm rn rd top imm6).2.2.2.2.2]

@[simp]
theorem regField_registerWord_rn (top : BitVec 11) :
    regField (registerWord top rm imm6 rn rd) 5 = rn.toNat := by
  rw [regField_eq _ (by decide), (registerWord_slices rm rn rd top imm6).2.2.2.2.1]

@[simp]
theorem regField_registerWord_rm (top : BitVec 11) :
    regField (registerWord top rm imm6 rn rd) 16 = rm.toNat := by
  rw [regField_eq _ (by decide), (registerWord_slices rm rn rd top imm6).2.1]

/-- The low bits of the second opcode. -/
@[simp]
theorem bitfieldU32_registerWord (top : BitVec 11) :
    bitfieldU32 (registerWord top rm imm6 rn rd) 10 2 = (imm6.extractLsb' 0 2).setWidth 32 := by
  rw [bitfieldU32_eq _ (by decide) (by decide), (registerWord_slices rm rn rd top imm6).2.2.2.1]

@[simp]
theorem regField_immediateWord_rd (top : BitVec 10) :
    regField (immediateWord top imm12 rn rd) 0 = rd.toNat := by
  rw [regField_eq _ (by decide), (immediateWord_slices rn rd top imm12).2.2.2]

@[simp]
theorem regField_immediateWord_rn (top : BitVec 10) :
    regField (immediateWord top imm12 rn rd) 5 = rn.toNat := by
  rw [regField_eq _ (by decide), (immediateWord_slices rn rd top imm12).2.2.1]

@[simp]
theorem bitfieldU32_immediateWord (top : BitVec 10) :
    bitfieldU32 (immediateWord top imm12 rn rd) 10 12 = imm12.setWidth 32 := by
  rw [bitfieldU32_eq _ (by decide) (by decide), (immediateWord_slices rn rd top imm12).2.1]

@[simp]
theorem bitfieldU32_immr (top : BitVec 10) (immr imms : BitVec 6) :
    bitfieldU32 (immediateWord top (immr ++ imms) rn rd) 16 6 = immr.setWidth 32 := by
  rw [bitfieldU32_eq _ (by decide) (by decide), (bitfieldWord_slices rn rd top immr imms).1]

@[simp]
theorem bitfieldU32_imms (top : BitVec 10) (immr imms : BitVec 6) :
    bitfieldU32 (immediateWord top (immr ++ imms) rn rd) 10 6 = imms.setWidth 32 := by
  rw [bitfieldU32_eq _ (by decide) (by decide), (bitfieldWord_slices rn rd top immr imms).2]

@[simp]
theorem regField_wideWord (top : BitVec 9) :
    regField (wideWord top hw imm16 rd) 0 = rd.toNat := by
  rw [regField_eq _ (by decide), (wideWord_slices rd top hw imm16).2.2.2]

@[simp]
theorem bitfieldU32_wideWord (top : BitVec 9) :
    bitfieldU32 (wideWord top hw imm16 rd) 5 16 = imm16.setWidth 32 := by
  rw [bitfieldU32_eq _ (by decide) (by decide), (wideWord_slices rd top hw imm16).2.2.1]

@[simp]
theorem bitfieldU32_wideWord_hw (top : BitVec 9) :
    bitfieldU32 (wideWord top hw imm16 rd) 21 2 = hw.setWidth 32 := by
  rw [bitfieldU32_eq _ (by decide) (by decide), (wideWord_slices rd top hw imm16).2.1]

end

/-! ## The architectural state -/

def archState (regs : Regs) (nzcv : BitVec 8) : State where
  X i := regs.GPR i
  SP := regs.SP
  flags := ⟨getNF nzcv, getZF nzcv, getCF nzcv, getVF nzcv⟩

section

variable (regs : Regs) (nzcv : BitVec 8) (r : BitVec 5) (val : BitVec 64)

theorem spToXzr_of_lt {r : ℕ} (h : r < 31) : spToXzr r = r := if_neg (Nat.ne_of_lt h)

theorem archState_read : (archState regs nzcv).read r = regs.read (spToXzr r.toNat) := by
  have hlt := r.isLt
  unfold State.read
  by_cases h : r.toNat < 31
  · rw [dif_pos h, spToXzr_of_lt h, Regs.read, XZR_NUM, SP_NUM, if_neg (by omega),
      if_neg (by omega)]
    rfl
  · rw [dif_neg h, show r.toNat = 31 by omega]
    rfl

theorem archState_readSP : (archState regs nzcv).readSP r = regs.read r.toNat := by
  have hlt := r.isLt
  unfold State.readSP
  by_cases h : r.toNat < 31
  · rw [dif_pos h, Regs.read, XZR_NUM, SP_NUM, if_neg (by omega), if_neg (by omega)]
    rfl
  · rw [dif_neg h, show r.toNat = 31 by omega]
    rfl

/-- A write of a general register. -/
theorem archState_regfileWrite (h : r.toNat < 31) :
    archState (regfileWrite regs r.toNat val true) nzcv =
      { archState regs nzcv with
        X := Function.update (archState regs nzcv).X ⟨r.toNat, h⟩ val } := by
  rw [regfileWrite, if_neg (by simp), XZR_NUM, SP_NUM, if_neg (by omega), if_neg (by omega)]
  refine congrArg (fun X ↦ { archState regs nzcv with X := X }) (funext fun i ↦ ?_)
  by_cases hi : i = ⟨r.toNat, h⟩
  · rw [hi, Function.update_self]
    exact Function.update_self _ _ _
  · rw [Function.update_of_ne hi]
    exact Function.update_of_ne (fun heq ↦ hi (Fin.ext heq)) _ _

theorem archState_write : archState (regfileWrite regs (spToXzr r.toNat) val true) nzcv =
    (archState regs nzcv).write r val := by
  have hlt := r.isLt
  unfold State.write
  by_cases h : r.toNat < 31
  · rw [dif_pos h, spToXzr_of_lt h, archState_regfileWrite]
  · rw [dif_neg h, show r.toNat = 31 by omega]
    rfl

theorem archState_writeSP : archState (regfileWrite regs r.toNat val true) nzcv =
    (archState regs nzcv).writeSP r val := by
  have hlt := r.isLt
  unfold State.writeSP
  by_cases h : r.toNat < 31
  · rw [dif_pos h, archState_regfileWrite]
  · rw [dif_neg h, show r.toNat = 31 by omega]
    rfl

end

/-! ## The opcodes of the words -/

def Opcode.isDataProcessing : Opcode → Bool
  | .movk | .movz | .addRI | .addsRR | .cmnRR | .subRI | .subsRR | .cmpRR | .mvn | .orrRR | .eorRR
  | .andsRR | .tstRR | .lslRI | .lsrRI | .lslRR | .lsrRR | .asr => true
  | _ => false

def opcodeOf : Instr → Opcode
  | .addSubImm sub _ _ _ => if sub then .subRI else .addRI
  | .addsSubs sub _ _ rd =>
      if rd.toNat = 31 then (if sub then .cmpRR else .cmnRR) else if sub then .subsRR else .addsRR
  | .logical .orr _ _ _ => .orrRR
  | .logical .orn _ _ _ => .mvn
  | .logical .eor _ _ _ => .eorRR
  | .logical .ands _ _ rd => if rd.toNat = 31 then .tstRR else .andsRR
  -- `LSL` by zero has the word of `LSR` by zero
  | .shiftImm .lsl shift _ _ => if shift = 0 then .lsrRI else .lslRI
  | .shiftImm .lsr _ _ _ => .lsrRI
  | .shiftImm .asr _ _ _ => .asr
  | .shiftReg right _ _ _ => if right then .lsrRR else .lslRR
  | .moveWide keep _ _ _ => if keep then .movk else .movz

section

variable {ec : Bool} {op : Opcode} {rm rn rd : BitVec 5}

theorem itable_registerWord {top : BitVec 11} {imm6 : BitVec 6} {hi lo : ℕ}
    (hmem : (op, lo, hi) ∈ initItable ec) (hop : op ≠ .error) (hlo : lo ≤ top.toNat)
    (hhi : top.toNat ≤ hi) :
    itable ec (bitfieldU32 (registerWord top rm imm6 rn rd) 21 11).toNat = op :=
  itable_of_top (k := 0) (registerWord_slices rm rn rd top imm6).1 rfl hmem hop (by omega)
    (by omega)

theorem itable_immediateWord {top : BitVec 10} {imm12 : BitVec 12} {hi lo : ℕ}
    (hmem : (op, lo, hi) ∈ initItable ec) (hop : op ≠ .error) (hlo : lo ≤ top.toNat * 2)
    (hhi : top.toNat * 2 + 1 ≤ hi) :
    itable ec (bitfieldU32 (immediateWord top imm12 rn rd) 21 11).toNat = op :=
  itable_of_top (k := 1) (immediateWord_slices rn rd top imm12).1 rfl hmem hop hlo hhi

theorem itable_wideWord {top : BitVec 9} {hw : BitVec 2} {imm16 : BitVec 16} {hi lo : ℕ}
    (hmem : (op, lo, hi) ∈ initItable ec) (hop : op ≠ .error) (hlo : lo ≤ top.toNat * 4)
    (hhi : top.toNat * 4 + 3 ≤ hi) :
    itable ec (bitfieldU32 (wideWord top hw imm16 rd) 21 11).toNat = op :=
  itable_of_top (k := 2) (wideWord_slices rd top hw imm16).1 rfl hmem hop hlo hhi

end

theorem opcodeOf_isDataProcessing (i : Instr) : (opcodeOf i).isDataProcessing = true := by
  cases i <;> simp only [opcodeOf] <;> repeat' split
  all_goals rfl

theorem decodeOpcode_encode (build : Build) (i : Instr) :
    decodeOpcode build i.encode = opcodeOf i := by
  have hmem : ∀ entry : Opcode × ℕ × ℕ, entry ∈ initItable false → entry ∈ initItable build.ec := by
    intro entry hentry
    cases build.ec
    · exact hentry
    · exact List.mem_append_left _ (by simpa [initItable] using hentry)
  unfold decodeOpcode
  cases i with
  | addSubImm sub imm12 rn rd =>
    cases sub
    · rw [Instr.encode, itable_immediateWord (hmem (.addRI, 0x488, 0x489) (by decide)) (by decide)
        (by decide) (by decide)]
      rfl
    · rw [Instr.encode, itable_immediateWord (hmem (.subRI, 0x688, 0x689) (by decide)) (by decide)
        (by decide) (by decide)]
      rfl
  | addsSubs sub rm rn rd =>
    cases sub
    · rw [Instr.encode, itable_registerWord (hmem (.addsRR, 0x558, 0x558) (by decide)) (by decide)
        (by decide) (by decide)]
      simp [fixInstrAliases, opcodeOf]
    · rw [Instr.encode, itable_registerWord (hmem (.subsRR, 0x758, 0x758) (by decide)) (by decide)
        (by decide) (by decide)]
      simp [fixInstrAliases, opcodeOf]
  | logical op rm rn rd =>
    cases op
    · rw [Instr.encode, itable_registerWord (hmem (.orrRR, 0x550, 0x550) (by decide)) (by decide)
        (by decide) (by decide)]
      rfl
    · rw [Instr.encode, itable_registerWord (hmem (.mvn, 0x551, 0x551) (by decide)) (by decide)
        (by decide) (by decide)]
      rfl
    · rw [Instr.encode, itable_registerWord (hmem (.eorRR, 0x650, 0x650) (by decide)) (by decide)
        (by decide) (by decide)]
      rfl
    · rw [Instr.encode, itable_registerWord (hmem (.andsRR, 0x750, 0x750) (by decide)) (by decide)
        (by decide) (by decide)]
      simp [fixInstrAliases, opcodeOf]
  | shiftImm op shift rn rd =>
    cases op
    · rw [Instr.encode, itable_immediateWord (hmem (.ubfm, 0x69a, 0x69b) (by decide)) (by decide)
        (by decide) (by decide)]
      have hzero : ((63 - shift).setWidth 32 = (63 : BitVec 32)) = (shift = 0) := by
        rw [eq_iff_iff]
        bv_omega
      simp only [fixInstrAliases, opcodeOf, bitfieldU32_imms, hzero]
    · rw [Instr.encode, itable_immediateWord (hmem (.ubfm, 0x69a, 0x69b) (by decide)) (by decide)
        (by decide) (by decide)]
      simp [fixInstrAliases, opcodeOf]
    · rw [Instr.encode, itable_immediateWord (hmem (.asr, 0x49a, 0x49b) (by decide)) (by decide)
        (by decide) (by decide)]
      rfl
  | shiftReg right rm rn rd =>
    cases right
    · rw [Instr.encode, itable_registerWord (hmem (.ubfmv, 0x4d6, 0x4d6) (by decide)) (by decide)
        (by decide) (by decide)]
      simp [fixInstrAliases, opcodeOf]
    · rw [Instr.encode, itable_registerWord (hmem (.ubfmv, 0x4d6, 0x4d6) (by decide)) (by decide)
        (by decide) (by decide)]
      simp [fixInstrAliases, opcodeOf]
  | moveWide keep hw imm16 rd =>
    cases keep
    · rw [Instr.encode, itable_wideWord (hmem (.movz, 0x694, 0x697) (by decide)) (by decide)
        (by decide) (by decide)]
      rfl
    · rw [Instr.encode, itable_wideWord (hmem (.movk, 0x794, 0x797) (by decide)) (by decide)
        (by decide) (by decide)]
      rfl

/-! ## The effect of a word -/

/-- One instruction: `itable` and `fix_instr_aliases`, `decode_instr`, `execute_instr`,
`memory_instr`, `wback_instr`, and the writes of the register file and the flags. -/
def instrEffect (build : Build) (PC : BitVec 64) (insnbits : BitVec 32) (c : Core) :
    Except Crash Core := do
  let x := decoded (fetchedInstr build PC insnbits false) c.regs
  let r := executed x c.NZCV
  let (mem, w) ← accessed r.1 c.mem
  pure
    { regs := regfileWrite c.regs w.dst w.wval (w.W_sigs.w_enable && w.status == .aok)
      NZCV := if x.X_sigs.set_flags then r.2 else c.NZCV
      mem := mem }

/-- The value and the flags that the ALU computes for a data-processing word. -/
def processed (op : Opcode) (insnbits : BitVec 32) (regs : Regs) (nzcv : BitVec 8) :
    BitVec 64 × BitVec 8 :=
  let nums := extractRegs insnbits op (ftable op)
  let sigs := (generateDXMWControl op).X_sigs
  aluResult (regs.read nums.src1)
    (if sigs.valb_sel then regs.read nums.src2 else extractImmval insnbits op)
    ((bitfieldU32 insnbits 21 2 * 16).setWidth 8) nzcv (decideAluOp op) sigs.set_flags
    (extractCond insnbits op)

theorem fetchedInstr_eq {build : Build} {insnbits : BitVec 32} {op : Opcode}
    (hop : decodeOpcode build insnbits = op) (hdp : op.isDataProcessing = true) (PC : BitVec 64) :
    fetchedInstr build PC insnbits false =
      { insnbits := insnbits, op := op, format := ftable op, multipurpose_val := PC + 4,
        status := .aok } := by
  simp only [fetchedInstr, hop]
  cases op <;> first
    | (cases hdp; done)
    | rfl

/-- The control signals that no data-processing opcode has. -/
theorem Opcode.dataProcessing_sigs {op : Opcode} (hdp : op.isDataProcessing = true) :
    (generateDXMWControl op).D_sigs.src2_sel = false ∧
      (generateDXMWControl op).X_sigs.vala_sel = false ∧ (generateDXMWControl op).M_sigs = {} ∧
      (generateDXMWControl op).W_sigs.dst_sel = false ∧
      (generateDXMWControl op).W_sigs.wval_sel = false := by
  cases op <;> first
    | (cases hdp; done)
    | exact ⟨rfl, rfl, rfl, rfl, rfl⟩

section

variable {build : Build} {insnbits : BitVec 32} {op : Opcode}
  (hop : decodeOpcode build insnbits = op) (hdp : op.isDataProcessing = true)
  (PC : BitVec 64) (regs : Regs) (nzcv : BitVec 8)
include hop hdp

theorem executed_dataProcessing :
    (executed (decoded (fetchedInstr build PC insnbits false) regs) nzcv).1.val_ex =
        (processed op insnbits regs nzcv).1 ∧
      (executed (decoded (fetchedInstr build PC insnbits false) regs) nzcv).2 =
        (processed op insnbits regs nzcv).2 := by
  obtain ⟨hsrc2, hvala, -⟩ := Opcode.dataProcessing_sigs hdp
  rw [fetchedInstr_eq hop hdp]
  simp only [executed, decoded, DInstr.src1, DInstr.src2, regfileRead, hsrc2, hvala,
    Bool.false_eq_true, ↓reduceIte, processed, alu, and_self]

theorem accesses_of_dataProcessing :
    (executed (decoded (fetchedInstr build PC insnbits false) regs) nzcv).1.accesses = false := by
  obtain ⟨-, -, hM, -⟩ := Opcode.dataProcessing_sigs hdp
  rw [fetchedInstr_eq hop hdp]
  simp only [executed, decoded, MInstr.accesses, hM, Bool.or_self]

/-- The write of the register file. -/
theorem regfileWrite_dataProcessing :
    let m := (executed (decoded (fetchedInstr build PC insnbits false) regs) nzcv).1
    regfileWrite regs (m.toWInstr 0 false).dst (m.toWInstr 0 false).wval
        ((m.toWInstr 0 false).W_sigs.w_enable && (m.toWInstr 0 false).status == .aok) =
      regfileWrite regs (extractRegs insnbits op (ftable op)).dst
        (processed op insnbits regs nzcv).1 (generateDXMWControl op).W_sigs.w_enable := by
  obtain ⟨-, -, -, hdst, hwval⟩ := Opcode.dataProcessing_sigs hdp
  rw [← (executed_dataProcessing hop hdp PC regs nzcv).1, fetchedInstr_eq hop hdp]
  simp only [MInstr.toWInstr, WInstr.wval, executed, decoded, DInstr.dst, hdst, hwval,
    Bool.false_eq_true, ↓reduceIte, beq_self_eq_true, Bool.and_true]

end

/-- A data-processing word accesses no memory and writes at most its register and the flags. -/
theorem instrEffect_eq {build : Build} {insnbits : BitVec 32} {op : Opcode}
    (hop : decodeOpcode build insnbits = op) (hdp : op.isDataProcessing = true) (PC : BitVec 64)
    (c : Core) : instrEffect build PC insnbits c = .ok
      { regs := regfileWrite c.regs (extractRegs insnbits op (ftable op)).dst
          (processed op insnbits c.regs c.NZCV).1 (generateDXMWControl op).W_sigs.w_enable
        NZCV := if (generateDXMWControl op).X_sigs.set_flags then
          (processed op insnbits c.regs c.NZCV).2 else c.NZCV
        mem := c.mem } := by
  have hset : (decoded (fetchedInstr build PC insnbits false) c.regs).X_sigs =
      (generateDXMWControl op).X_sigs := by
    rw [fetchedInstr_eq hop hdp]
    rfl
  unfold instrEffect
  simp only [accessed_of_not_accesses (accesses_of_dataProcessing hop hdp PC c.regs c.NZCV), hset]
  rw [← regfileWrite_dataProcessing hop hdp PC, ← (executed_dataProcessing hop hdp PC _ _).2]
  rfl

section

variable (regs : Regs) (val_a val_b : BitVec 64) (valhw nzcv : BitVec 8) (cond : Cond)

theorem aluResult_plus_eq (set_flags : Bool) :
    (aluResult val_a val_b valhw nzcv .plus set_flags cond).1 =
      (addWithCarry val_a val_b false).1 := by
  rw [aluResult_plus, addWithCarry_add]

theorem aluResult_minus_eq (set_flags : Bool) :
    (aluResult val_a val_b valhw nzcv .minus set_flags cond).1 =
      (addWithCarry val_a (~~~val_b) true).1 := by
  rw [aluResult_minus, addWithCarry_sub]

/-- Flags that describe the same result are the same. -/
theorem ArithFlags.archState_flags {flags : BitVec 8} {carry : Prop} {value : ℤ} {x y : BitVec 64}
    {c : Bool} (h : ArithFlags flags (addWithCarry x y c).1 carry value)
    (hC : (addWithCarry x y c).2.C = true ↔ carry)
    (hV : (addWithCarry x y c).2.V = true ↔ ¬(-2 ^ 63 ≤ value ∧ value < 2 ^ 63)) :
    (archState regs flags).flags = (addWithCarry x y c).2 := by
  have hflags : (addWithCarry x y c).2 =
      ⟨getNF flags, getZF flags, getCF flags, getVF flags⟩ := by
    rw [h.N, Bool.eq_iff_iff.mpr (h.C.trans hC.symm), Bool.eq_iff_iff.mpr (h.V.trans hV.symm),
      Bool.eq_iff_iff.mpr (h.Z.trans beq_iff_eq.symm)]
    rfl
  exact hflags.symm

theorem archState_plus :
    (archState regs (aluResult val_a val_b valhw nzcv .plus true cond).2).flags =
      (addWithCarry val_a val_b false).2 := by
  have h := arithFlags_plus val_a val_b valhw nzcv cond
  rw [← addWithCarry_add] at h
  exact h.archState_flags regs (addWithCarry_add_C _ _) (addWithCarry_add_V _ _)

theorem archState_minus :
    (archState regs (aluResult val_a val_b valhw nzcv .minus true cond).2).flags =
      (addWithCarry val_a (~~~val_b) true).2 := by
  have h := arithFlags_minus val_a val_b valhw nzcv cond
  rw [← addWithCarry_sub] at h
  exact h.archState_flags regs (addWithCarry_sub_C _ _) (addWithCarry_sub_V _ _)

end

/-- The operands and the destination of a word with three registers. -/
theorem processed_registerWord {op : Opcode} (hdp : op.isDataProcessing = true)
    (hrr : ftable op = .rr) (top : BitVec 11) (rm : BitVec 5) (imm6 : BitVec 6) (rn rd : BitVec 5)
    (regs : Regs) (nzcv : BitVec 8) :
    (extractRegs (registerWord top rm imm6 rn rd) op (ftable op)).dst = spToXzr rd.toNat ∧
    ∃ valhw cond, processed op (registerWord top rm imm6 rn rd) regs nzcv =
      aluResult ((archState regs nzcv).read rn) ((archState regs nzcv).read rm) valhw nzcv
        (decideAluOp op) (generateDXMWControl op).X_sigs.set_flags cond := by
  rw [archState_read, archState_read]
  refine ⟨?_, (bitfieldU32 (registerWord top rm imm6 rn rd) 21 2 * 16).setWidth 8,
    extractCond (registerWord top rm imm6 rn rd) op, ?_⟩
  all_goals cases op <;> first
    | (cases hdp; done)
    | (cases hrr; done)
    | simp [processed, extractRegs, extractRegsTable, fixRegs, ftable, generateDXMWControl]

/-- The effect of a word with three registers, in terms of the ALU. -/
theorem registerWord_effect {build : Build} {top : BitVec 11} {imm6 : BitVec 6}
    {rm rn rd : BitVec 5} {op : Opcode}
    (hop : decodeOpcode build (registerWord top rm imm6 rn rd) = op)
    (hdp : op.isDataProcessing = true) (hrr : ftable op = .rr)
    (hw : (generateDXMWControl op).W_sigs.w_enable = true ∨ rd.toNat = 31) (PC : BitVec 64)
    (c : Core) :
    ∃ c' valhw cond, instrEffect build PC (registerWord top rm imm6 rn rd) c = .ok c' ∧
      c'.mem = c.mem ∧
      let s := archState c.regs c.NZCV
      let r := aluResult (s.read rn) (s.read rm) valhw c.NZCV (decideAluOp op)
        (generateDXMWControl op).X_sigs.set_flags cond
      archState c'.regs c'.NZCV =
        if (generateDXMWControl op).X_sigs.set_flags then
          { s.write rd r.1 with flags := (archState c.regs r.2).flags }
        else s.write rd r.1 := by
  obtain ⟨hdst, valhw, cond, hr⟩ :=
    processed_registerWord hdp hrr top rm imm6 rn rd c.regs c.NZCV
  refine ⟨_, valhw, cond, instrEffect_eq hop hdp PC c, rfl, ?_⟩
  simp only [hdst, hr]
  generalize aluResult _ _ _ _ _ _ _ = r
  have hregs : ∀ nzcv, archState (regfileWrite c.regs (spToXzr rd.toNat) r.1
      (generateDXMWControl op).W_sigs.w_enable) nzcv = (archState c.regs nzcv).write rd r.1 := by
    intro nzcv
    obtain henable | hzr := hw
    · rw [henable, archState_write]
    · rw [State.write_of_not_lt _ (by omega), hzr]
      cases (generateDXMWControl op).W_sigs.w_enable <;> rfl
  rw [hregs]
  unfold State.write
  cases (generateDXMWControl op).X_sigs.set_flags <;> split <;> rfl

theorem addSubImm_effect (build : Build) (PC : BitVec 64) (sub : Bool) (imm12 : BitVec 12)
    (rn rd : BitVec 5) (c : Core) :
    ∃ c', instrEffect build PC (Instr.addSubImm sub imm12 rn rd).encode c = .ok c' ∧
      c'.mem = c.mem ∧ archState c'.regs c'.NZCV =
        (Instr.addSubImm sub imm12 rn rd).exec (archState c.regs c.NZCV) := by
  have hop := decodeOpcode_encode build (.addSubImm sub imm12 rn rd)
  cases sub <;> refine ⟨_, instrEffect_eq hop rfl PC c, rfl, ?_⟩ <;>
    simp [Instr.encode, Instr.exec, opcodeOf, generateDXMWControl, extractRegs, extractRegsTable,
      ftable, fixRegs, processed, extractImmval, decideAluOp, archState_writeSP, archState_readSP,
      aluResult_plus_eq, aluResult_minus_eq]

theorem addsSubs_effect (build : Build) (PC : BitVec 64) (sub : Bool) (rm rn rd : BitVec 5)
    (c : Core) :
    ∃ c', instrEffect build PC (Instr.addsSubs sub rm rn rd).encode c = .ok c' ∧
      c'.mem = c.mem ∧ archState c'.regs c'.NZCV =
        (Instr.addsSubs sub rm rn rd).exec (archState c.regs c.NZCV) := by
  have hop := decodeOpcode_encode build (.addsSubs sub rm rn rd)
  -- a comparison is an opcode of its own, which writes no register
  by_cases hrd : rd.toNat = 31
  all_goals
    simp only [opcodeOf, hrd, ↓reduceIte] at hop
    cases sub
    all_goals
      simp only [Bool.false_eq_true, ↓reduceIte] at hop
      obtain ⟨c', valhw, cond, heffect, hmem, hstate⟩ :=
        registerWord_effect hop rfl rfl (by first | exact .inr hrd | exact .inl rfl) PC c
      refine ⟨c', heffect, hmem, hstate.trans ?_⟩
      simp [generateDXMWControl, decideAluOp, Instr.exec, aluResult_plus_eq, aluResult_minus_eq,
        archState_plus, archState_minus]

/-- The flags of a logical operation. -/
theorem archState_logicFlags (regs : Regs) (result : BitVec 64) :
    (archState regs (logicFlags result)).flags = ⟨result.msb, result == 0, false, false⟩ := by
  simp [archState, logicFlags]

theorem logical_effect (build : Build) (PC : BitVec 64) (op : LogicOp) (rm rn rd : BitVec 5)
    (c : Core) :
    ∃ c', instrEffect build PC (Instr.logical op rm rn rd).encode c = .ok c' ∧
      c'.mem = c.mem ∧ archState c'.regs c'.NZCV =
        (Instr.logical op rm rn rd).exec (archState c.regs c.NZCV) := by
  have hop := decodeOpcode_encode build (.logical op rm rn rd)
  by_cases hrd : rd.toNat = 31
  all_goals
    cases op
    all_goals
      simp only [opcodeOf, hrd, ↓reduceIte] at hop
      obtain ⟨c', valhw, cond, heffect, hmem, hstate⟩ :=
        registerWord_effect hop rfl rfl (by first | exact .inr hrd | exact .inl rfl) PC c
      refine ⟨c', heffect, hmem, hstate.trans ?_⟩
      simp [generateDXMWControl, decideAluOp, Instr.exec, LogicOp.apply, aluResult,
        archState_logicFlags]

/-- A shift amount is taken modulo 64. -/
theorem and_63 (n : ℕ) : n &&& 63 = n % 64 := Nat.and_two_pow_sub_one_eq_mod n 6

theorem shiftReg_effect (build : Build) (PC : BitVec 64) (right : Bool) (rm rn rd : BitVec 5)
    (c : Core) :
    ∃ c', instrEffect build PC (Instr.shiftReg right rm rn rd).encode c = .ok c' ∧
      c'.mem = c.mem ∧ archState c'.regs c'.NZCV =
        (Instr.shiftReg right rm rn rd).exec (archState c.regs c.NZCV) := by
  have hop := decodeOpcode_encode build (.shiftReg right rm rn rd)
  cases right
  all_goals
    simp only [opcodeOf, Bool.false_eq_true, ↓reduceIte] at hop
    obtain ⟨c', valhw, cond, heffect, hmem, hstate⟩ :=
      registerWord_effect hop rfl rfl (.inl rfl) PC c
    refine ⟨c', heffect, hmem, hstate.trans ?_⟩
    simp [generateDXMWControl, decideAluOp, Instr.exec, ShiftOp.apply, aluResult, and_63]

/-- The shift that an opcode with an immediate amount stands for. -/
def Opcode.shiftRI : Opcode → Option ShiftOp
  | .lslRI => some .lsl
  | .lsrRI => some .lsr
  | .asr => some .asr
  | _ => none

/-- The effect of a word that is executed as a shift by an immediate. -/
theorem shiftRI_effect {build : Build} {top : BitVec 10} {imm12 : BitVec 12} {rn rd : BitVec 5}
    {op : Opcode} {shift : ShiftOp}
    (hop : decodeOpcode build (immediateWord top imm12 rn rd) = op)
    (hshift : op.shiftRI = some shift) (PC : BitVec 64) (c : Core) :
    ∃ c', instrEffect build PC (immediateWord top imm12 rn rd) c = .ok c' ∧ c'.mem = c.mem ∧
      archState c'.regs c'.NZCV = (archState c.regs c.NZCV).write rd
        (shift.apply ((archState c.regs c.NZCV).read rn)
          (extractImmval (immediateWord top imm12 rn rd) op &&& 0x3F).toNat) := by
  have hdp : op.isDataProcessing = true := by
    cases op <;> first
      | (cases hshift; done)
      | rfl
  refine ⟨_, instrEffect_eq hop hdp PC c, rfl, ?_⟩
  rw [archState_read, ← archState_write]
  cases op <;> first
    | (cases hshift; done)
    | skip
  all_goals
    cases hshift
    simp only [processed, extractRegs, extractRegsTable, ftable, fixRegs, generateDXMWControl,
      decideAluOp, regField_immediateWord_rn, regField_immediateWord_rd]
    rfl

/-- The amounts that `extract_immval` makes of the rotation of a bitfield move. -/
theorem shiftAmount : ∀ shift : BitVec 6,
    ((64 - (-shift).setWidth 32 : BitVec 32).setWidth 64 &&& (0x3F : BitVec 64)).toNat =
      shift.toNat ∧
    ((shift.setWidth 32).setWidth 64 &&& (0x3F : BitVec 64)).toNat = shift.toNat := by
  decide

theorem shiftImm_effect (build : Build) (PC : BitVec 64) (op : ShiftOp) (shift : BitVec 6)
    (rn rd : BitVec 5) (c : Core) :
    ∃ c', instrEffect build PC (Instr.shiftImm op shift rn rd).encode c = .ok c' ∧
      c'.mem = c.mem ∧ archState c'.regs c'.NZCV =
        (Instr.shiftImm op shift rn rd).exec (archState c.regs c.NZCV) := by
  have hop := decodeOpcode_encode build (.shiftImm op shift rn rd)
  cases op with
  | lsl =>
    by_cases hzero : shift = 0
    · rw [opcodeOf, if_pos hzero] at hop
      obtain ⟨c', heffect, hmem, hstate⟩ := shiftRI_effect hop rfl PC c
      refine ⟨c', heffect, hmem, hstate.trans ?_⟩
      rw [extractImmval, bitfieldU32_immr, (shiftAmount (-shift)).2, hzero]
      simp [Instr.exec, ShiftOp.apply]
    · rw [opcodeOf, if_neg hzero] at hop
      obtain ⟨c', heffect, hmem, hstate⟩ := shiftRI_effect hop rfl PC c
      refine ⟨c', heffect, hmem, hstate.trans ?_⟩
      rw [extractImmval, bitfieldU32_immr, (shiftAmount shift).1]
      rfl
  | lsr =>
    obtain ⟨c', heffect, hmem, hstate⟩ := shiftRI_effect hop rfl PC c
    refine ⟨c', heffect, hmem, hstate.trans ?_⟩
    rw [opcodeOf, extractImmval, bitfieldU32_immr, (shiftAmount shift).2]
    rfl
  | asr =>
    obtain ⟨c', heffect, hmem, hstate⟩ := shiftRI_effect hop rfl PC c
    refine ⟨c', heffect, hmem, hstate.trans ?_⟩
    rw [opcodeOf, extractImmval, bitfieldU32_immr, (shiftAmount shift).2]
    rfl

/-- The position of the immediate of a move. -/
theorem wideAmount : ∀ hw : BitVec 2,
    ((hw.setWidth 32 * 16).setWidth 8).toNat = 16 * hw.toNat := by
  decide

theorem moveWide_effect (build : Build) (PC : BitVec 64) (keep : Bool) (hw : BitVec 2)
    (imm16 : BitVec 16) (rd : BitVec 5) (c : Core) :
    ∃ c', instrEffect build PC (Instr.moveWide keep hw imm16 rd).encode c = .ok c' ∧
      c'.mem = c.mem ∧ archState c'.regs c'.NZCV =
        (Instr.moveWide keep hw imm16 rd).exec (archState c.regs c.NZCV) := by
  have hop := decodeOpcode_encode build (.moveWide keep hw imm16 rd)
  have himm : (imm16.setWidth 32).setWidth 64 = imm16.setWidth 64 :=
    by simp
  cases keep with
  | false =>
    refine ⟨_, instrEffect_eq hop rfl PC c, rfl, ?_⟩
    simp only [Instr.encode, opcodeOf, processed, extractRegs, extractRegsTable, ftable, fixRegs,
      generateDXMWControl, extractImmval, decideAluOp, aluResult, regField_wideWord,
      bitfieldU32_wideWord, bitfieldU32_wideWord_hw, wideAmount, himm, Bool.false_eq_true,
      ↓reduceIte, archState_write]
    simp [Instr.exec, Regs.read, spToXzr, XZR_NUM, SP_NUM]
  | true =>
    refine ⟨_, instrEffect_eq hop rfl PC c, rfl, ?_⟩
    simp only [Instr.encode, opcodeOf, processed, extractRegs, extractRegsTable, ftable, fixRegs,
      generateDXMWControl, extractImmval, decideAluOp, aluResult, regField_wideWord,
      bitfieldU32_wideWord, bitfieldU32_wideWord_hw, wideAmount, himm, Bool.false_eq_true,
      ↓reduceIte, archState_write, ← archState_read _ c.NZCV]
    rfl

theorem encode_effect (build : Build) (PC : BitVec 64) (i : Instr) (c : Core) :
    ∃ c', instrEffect build PC i.encode c = .ok c' ∧ c'.mem = c.mem ∧
      archState c'.regs c'.NZCV = i.exec (archState c.regs c.NZCV) := by
  cases i with
  | addSubImm sub imm12 rn rd => exact addSubImm_effect build PC sub imm12 rn rd c
  | addsSubs sub rm rn rd => exact addsSubs_effect build PC sub rm rn rd c
  | logical op rm rn rd => exact logical_effect build PC op rm rn rd c
  | shiftImm op shift rn rd => exact shiftImm_effect build PC op shift rn rd c
  | shiftReg right rm rn rd => exact shiftReg_effect build PC right rm rn rd c
  | moveWide keep hw imm16 rd => exact moveWide_effect build PC keep hw imm16 rd c

/-- Every data-processing word of 64 bits whose second operand is shifted, if at all, by `LSL #0`
has the effect of A64 on the registers and the flags.  It accesses no memory. -/
theorem instrEffect_encode (build : Build) (PC : BitVec 64) (i : Instr) (c : Core) :
    (executed (decoded (fetchedInstr build PC i.encode false) c.regs) c.NZCV).1.accesses = false ∧
    ∃ c', instrEffect build PC i.encode c = .ok c' ∧ c'.mem = c.mem ∧
      archState c'.regs c'.NZCV = i.exec (archState c.regs c.NZCV) :=
  ⟨accesses_of_dataProcessing (decodeOpcode_encode build i) (opcodeOf_isDataProcessing i) PC _ _,
    encode_effect build PC i c⟩

/-- The word of an `ADDS` whose second operand is shifted by zero places; `shift` is the shift type,
which is `LSL` for 0 and does not matter then. -/
def addsShiftedWord (shift : BitVec 2) (rm rn rd : BitVec 5) : BitVec 32 :=
  registerWord (0b10101011#8 ++ shift ++ 0#1) rm 0 rn rd

/-- `ADDS X0, X1, X2, LSR #0` is not decoded: the tables know the shift type `LSL` only. -/
theorem adds_lsr_not_decoded : ¬∀ (build : Build) (PC : BitVec 64) (shift : BitVec 2)
    (rm rn rd : BitVec 5) (c : Core), shift ≠ 3 →
      ∃ c', instrEffect build PC (addsShiftedWord shift rm rn rd) c = .ok c' ∧ c'.mem = c.mem ∧
        archState c'.regs c'.NZCV = (Instr.addsSubs false rm rn rd).exec (archState c.regs c.NZCV) := by
  intro hclaim
  obtain ⟨c', heffect, -, hstate⟩ := hclaim ⟨true, true⟩ 0x400000 1 2 1 0
    ⟨⟨fun i ↦ BitVec.ofNat 64 i, 0⟩, 0, initMem none fun _ ↦ 0⟩ (by decide)
  have hsame : c'.regs.GPR 0 = 0 := by
    obtain rfl := Except.ok.inj heffect
    rfl
  have hsum : c'.regs.GPR 0 = 3 := congrFun (congrArg State.X hstate) 0
  rw [hsame] at hsum
  exact absurd hsum (by decide)

/-- The sequential machine executes a data-processing word in one step. -/
theorem seqStep_of_instrEffect {build : Build} {PC : BitVec 64} {c c' : Core} {op : Opcode}
    (hop : decodeOpcode build (fetchedWord c.mem.ptable PC) = op)
    (hdp : op.isDataProcessing = true) (hpc : PC ≠ 0) (herr : imemErr c.mem PC = false)
    (hready : c.mem.dmem_status ≠ .inFlight)
    (h : instrEffect build PC (fetchedWord c.mem.ptable PC) c = .ok c') :
    seqStep build (c, PC) = pure (c', PC + 4) := by
  have hfetch := fetchedInstr_eq hop hdp PC
  have hidle := accesses_of_dataProcessing hop hdp PC c.regs c.NZCV
  have hinstr : instrAt build PC c =
      decoded (fetchedInstr build PC (fetchedWord c.mem.ptable PC) false) c.regs := by
    rw [instrAt, herr]
  have hnext : nextPC PC (fetchedWord c.mem.ptable PC) (instrAt build PC c) c.NZCV = PC + 4 := by
    rw [hinstr, hfetch]
    cases op <;> first
      | (cases hdp; done)
      | rfl
  have hexecute : execute (instrAt build PC c) c = pure c' := by
    have hstatus : ((executed (instrAt build PC c) c.NZCV).1.toWInstr 0 false).status = .aok := by
      rw [hinstr, hfetch]
      rfl
    rw [← hinstr] at hidle
    simp only [instrEffect, ← hinstr, accessed_of_not_accesses hidle] at h
    obtain rfl := Except.ok.inj h
    simp only [execute, access, apply_ite Core.mem, ite_self,
      settle_of_done (accessed_of_not_accesses hidle c.mem) hready, writeback, hstatus]
    cases (instrAt build PC c).X_sigs.set_flags <;> rfl
  rw [seqStep, if_neg hpc]
  simp only [hexecute, hnext, pure_bind]

/-- In the sequential machine an instruction word in the text segment has the effect of A64. -/
theorem seqStep_encode {build : Build} {PC : BitVec 64} {c : Core} (i : Instr)
    (hword : fetchedWord c.mem.ptable PC = i.encode) (hpc : PC ≠ 0)
    (herr : imemErr c.mem PC = false) (hready : c.mem.dmem_status ≠ .inFlight) :
    ∃ c', seqStep build (c, PC) = pure (c', PC + 4) ∧ c'.mem = c.mem ∧
      archState c'.regs c'.NZCV = i.exec (archState c.regs c.NZCV) := by
  obtain ⟨c', heffect, hmem, hstate⟩ := encode_effect build PC i c
  have hop := decodeOpcode_encode build i
  rw [← hword] at hop heffect
  exact ⟨c', seqStep_of_instrEffect hop (opcodeOf_isDataProcessing i) hpc herr hready heffect, hmem,
    hstate⟩

end SystemEmulator
