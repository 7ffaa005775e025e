import SystemEmulator.Datapath.Bitfields
import SystemEmulator.Pipe.Decode
import SystemEmulator.Pipe.Stages

/-!
# PC-relative addresses

The predicted PC of a fetched word, the page address of `ADRP` and the link address of `BL`, in
terms of the immediate fields of A64.
-/

namespace SystemEmulator

/-! ## The opcodes of the PC-relative words -/

section

variable {build : Build} {insnbits : BitVec 32}

/-- The opcodes whose predicted PC or result is relative to the PC. -/
def Opcode.isPCRelative : Opcode → Bool
  | .b | .bl | .bCond | .adrp | .cbz | .cbnz => true
  | _ => false

/-- No alias is resolved to or from such an opcode. -/
theorem fixInstrAliases_eq_iff {op op' : Opcode} (hop : op.isPCRelative = true) :
    fixInstrAliases insnbits op' = op ↔ op' = op := by
  cases op' <;> simp only [fixInstrAliases]
  all_goals
    split <;> constructor <;> (rintro rfl; cases hop)

/-- The ranges of the table that give such an opcode. -/
theorem decodeOpcode_eq_iff {op : Opcode} (hop : op.isPCRelative = true) :
    decodeOpcode build insnbits = op ↔
      ∃ entry ∈ initItable build.ec, entry.1 = op ∧
        entry.2.1 ≤ (bitfieldU32 insnbits 21 11).toNat ∧
        (bitfieldU32 insnbits 21 11).toNat ≤ entry.2.2 := by
  have herror : op ≠ .error := by
    rintro rfl
    cases hop
  rw [decodeOpcode, fixInstrAliases_eq_iff hop, itable_eq_iff herror]

/-- An opcode whose entries are the values of the eleven bits that begin with `top`. -/
theorem decodeOpcode_iff_top {op : Opcode} (hop : op.isPCRelative = true) {n : ℕ}
    (k : ℕ) (top : BitVec n) (hn : n + k = 11)
    (hentries : ∀ top11, (∃ entry ∈ initItable build.ec, entry.1 = op ∧
      entry.2.1 ≤ top11 ∧ top11 ≤ entry.2.2) ↔ top11 / 2 ^ k = top.toNat) :
    decodeOpcode build insnbits = op ↔ insnbits.extractLsb' (21 + k) n = top := by
  rw [decodeOpcode_eq_iff hop, hentries, top11_div insnbits hn, BitVec.toNat_inj]

theorem decodeOpcode_b_iff :
    decodeOpcode build insnbits = .b ↔ insnbits.extractLsb' 26 6 = 0b000101#6 :=
  decodeOpcode_iff_top rfl 5 0b000101#6 rfl fun top11 ↦ by
    cases build.ec <;> simp [initItable] <;> omega

theorem decodeOpcode_bl_iff :
    decodeOpcode build insnbits = .bl ↔ insnbits.extractLsb' 26 6 = 0b100101#6 :=
  decodeOpcode_iff_top rfl 5 0b100101#6 rfl fun top11 ↦ by
    cases build.ec <;> simp [initItable] <;> omega

theorem decodeOpcode_bCond_iff :
    decodeOpcode build insnbits = .bCond ↔ insnbits.extractLsb' 24 8 = 0b01010100#8 :=
  decodeOpcode_iff_top rfl 3 0b01010100#8 rfl fun top11 ↦ by
    cases build.ec <;> simp [initItable] <;> omega

/-- Bits 30 and 29 of an `ADRP` belong to its immediate. -/
theorem decodeOpcode_adrp_iff : decodeOpcode build insnbits = .adrp ↔
    insnbits.extractLsb' 31 1 = 1#1 ∧ insnbits.extractLsb' 24 5 = 0b10000#5 := by
  have hlt := insnbits.isLt
  rw [decodeOpcode_eq_iff rfl, top11_eq, ← BitVec.toNat_inj, ← BitVec.toNat_inj,
    BitVec.extractLsb'_toNat, BitVec.extractLsb'_toNat, Nat.shiftRight_eq_div_pow,
    Nat.shiftRight_eq_div_pow]
  cases build.ec <;> simp [initItable] <;> omega

theorem decodeOpcode_cbz_iff (hec : build.ec = true) :
    decodeOpcode build insnbits = .cbz ↔ insnbits.extractLsb' 24 8 = 0b10110100#8 :=
  decodeOpcode_iff_top rfl 3 0b10110100#8 rfl fun top11 ↦ by
    simp [hec, initItable]
    omega

theorem decodeOpcode_cbnz_iff (hec : build.ec = true) :
    decodeOpcode build insnbits = .cbnz ↔ insnbits.extractLsb' 24 8 = 0b10110101#8 :=
  decodeOpcode_iff_top rfl 3 0b10110101#8 rfl fun top11 ↦ by
    simp [hec, initItable]
    omega

/-- Without `EC` no word is a compare-and-branch. -/
theorem decodeOpcode_ne_cb (hec : build.ec = false) :
    decodeOpcode build insnbits ≠ .cbz ∧ decodeOpcode build insnbits ≠ .cbnz := by
  rw [Ne, Ne, decodeOpcode_eq_iff rfl, decodeOpcode_eq_iff rfl, hec]
  simp [initItable]

end

/-! ## The immediates -/

/-- An immediate that counts units of `2 ^ scale` bytes. -/
theorem bitfieldS64_shiftLeft (insnbits : BitVec 32) {frompos width : ℕ} (scale : ℕ)
    (hpos : 0 < width) (hwidth : width < 32) (h : frompos + width ≤ 32) :
    bitfieldS64 insnbits frompos width <<< scale =
      BitVec.twoPow 64 scale * (insnbits.extractLsb' frompos width).signExtend 64 := by
  rw [bitfieldS64_eq insnbits hpos hwidth h, BitVec.shiftLeft_eq_mul_twoPow, BitVec.mul_comm]

/-- `immhi:immlo`. -/
theorem adrpImmediate_eq (insnbits : BitVec 32) :
    ((bitfieldU32 insnbits 5 19 <<< 2) ||| bitfieldU32 insnbits 29 2).extractLsb' 0 21 =
      insnbits.extractLsb' 5 19 ++ insnbits.extractLsb' 29 2 := by
  refine BitVec.eq_of_getLsbD_eq fun i hi ↦ ?_
  rw [bitfieldU32_eq insnbits (by decide) (by decide),
    bitfieldU32_eq insnbits (by decide) (by decide)]
  simp only [BitVec.getLsbD_extractLsb', BitVec.getLsbD_or, BitVec.getLsbD_shiftLeft,
    BitVec.getLsbD_setWidth, BitVec.getLsbD_append]
  by_cases hlo : i < 2
  · simp [hlo, hi, show i < 32 by omega]
  · simp [hlo, hi, show i < 32 by omega, show i - 2 < 32 by omega, show i - 2 < 19 by omega]

/-- Clearing the low twelve bits keeps the page. -/
theorem page_eq (PC : BitVec 64) : PC &&& ~~~0xFFF#64 = PC.extractLsb' 12 52 ++ 0#12 := by
  refine BitVec.eq_of_getLsbD_eq fun i hi ↦ ?_
  have hmask : (0xFFF#64).getLsbD i = decide (i < 12) := getLsbD_mask (by decide : 12 < 64) i
  rw [BitVec.getLsbD_and, BitVec.getLsbD_not, hmask, BitVec.getLsbD_append,
    BitVec.getLsbD_extractLsb']
  by_cases hlo : i < 12
  · simp [hlo]
  · simp [hlo, hi, show i - 12 < 52 by omega, show 12 + (i - 12) = i by omega]

/-! ## Fetch, decode and execute -/

/-- What the emulator computes from the PC and a word fetched there.  The PC of the instruction
after a compare-and-branch is predicted as for a conditional branch. -/
structure Targets (build : Build) (PC : BitVec 64) (insnbits : BitVec 32) (imem_err : Bool) :
    Prop where
  branch : (fetchedInstr build PC insnbits imem_err).op = .b ∨
    (fetchedInstr build PC insnbits imem_err).op = .bl →
      fetchedPC build PC insnbits imem_err = PC + 4 * (insnbits.extractLsb' 0 26).signExtend 64
  conditional : (fetchedInstr build PC insnbits imem_err).op = .bCond ∨
    (fetchedInstr build PC insnbits imem_err).op = .cbz ∨
    (fetchedInstr build PC insnbits imem_err).op = .cbnz →
      fetchedPC build PC insnbits imem_err = PC + 4 * (insnbits.extractLsb' 5 19).signExtend 64
  sequential : (fetchedInstr build PC insnbits imem_err).op.isPCRelative = false ∨
    (fetchedInstr build PC insnbits imem_err).op = .adrp →
      fetchedPC build PC insnbits imem_err = PC + 4
  adrp : (fetchedInstr build PC insnbits imem_err).op = .adrp →
    (fetchedInstr build PC insnbits imem_err).multipurpose_val =
      (PC.extractLsb' 12 52 ++ 0#12) +
        4096 * (insnbits.extractLsb' 5 19 ++ insnbits.extractLsb' 29 2).signExtend 64
  link : (fetchedInstr build PC insnbits imem_err).op = .bl → ∀ regs nzcv,
    let m := (executed (decoded (fetchedInstr build PC insnbits imem_err) regs) nzcv).1
    m.val_ex = PC + 4 ∧ m.dst = 30
  page : (fetchedInstr build PC insnbits imem_err).op = .adrp → ∀ regs nzcv,
    (executed (decoded (fetchedInstr build PC insnbits imem_err) regs) nzcv).1.val_ex =
      (fetchedInstr build PC insnbits imem_err).multipurpose_val

section

variable (build : Build) (PC : BitVec 64) (insnbits : BitVec 32) (imem_err : Bool)

theorem fetchedPC_eq : fetchedPC build PC insnbits imem_err =
    predictPC PC insnbits (fetchedInstr build PC insnbits imem_err).op := by
  cases imem_err <;> rfl

theorem fetchedInstr_multipurpose_val :
    (fetchedInstr build PC insnbits imem_err).multipurpose_val =
      if (fetchedInstr build PC insnbits imem_err).op = .adrp then adrpVal PC insnbits
      else PC + 4 := by
  cases imem_err <;> rfl

/-- A link and a page address pass the ALU unchanged. -/
theorem executed_val_ex_of_passA (d : DInstr) (hop : d.op = .bl ∨ d.op = .adrp) (regs : Regs)
    (nzcv : BitVec 8) : (executed (decoded d regs) nzcv).1.val_ex = d.multipurpose_val := by
  obtain hop | hop := hop <;> simp [executed, decoded, hop, generateDXMWControl, decideAluOp, alu,
    aluResult]

theorem targets_of_fetch : Targets build PC insnbits imem_err where
  branch hop := by
    have hoffset :=
      bitfieldS64_shiftLeft insnbits 2 (by decide) (by decide) (by decide : 0 + 26 ≤ 32)
    rw [fetchedPC_eq]
    obtain hop | hop := hop <;> rw [hop, predictPC, hoffset] <;> rfl
  conditional hop := by
    have hoffset :=
      bitfieldS64_shiftLeft insnbits 2 (by decide) (by decide) (by decide : 5 + 19 ≤ 32)
    rw [fetchedPC_eq]
    obtain hop | hop | hop := hop <;> rw [hop, predictPC, hoffset] <;> rfl
  sequential hop := by
    rw [fetchedPC_eq]
    obtain hop | hop := hop
    · cases h : (fetchedInstr build PC insnbits imem_err).op <;> rw [h] at hop <;>
        first
          | (cases hop; done)
          | rfl
    · rw [hop]
      rfl
  adrp hop := by
    rw [fetchedInstr_multipurpose_val, if_pos hop, adrpVal, page_eq,
      bitfieldS64_shiftLeft _ 12 (by decide) (by decide) (by decide), adrpImmediate_eq]
    rfl
  link hop regs nzcv := by
    refine ⟨?_, ?_⟩
    · rw [executed_val_ex_of_passA _ (.inl hop), fetchedInstr_multipurpose_val, hop]
      rfl
    · simp only [executed, decoded, DInstr.dst, hop]
      rfl
  page hop regs nzcv := executed_val_ex_of_passA _ (.inr hop) regs nzcv

end

/-- The words that fetch treats as PC-relative are those of A64. -/
structure PCRelativeOpcodes (build : Build) (insnbits : BitVec 32) (op : Opcode) : Prop where
  b : op = .b ↔ insnbits.extractLsb' 26 6 = 0b000101#6
  bl : op = .bl ↔ insnbits.extractLsb' 26 6 = 0b100101#6
  bCond : op = .bCond ↔ insnbits.extractLsb' 24 8 = 0b01010100#8
  adrp : op = .adrp ↔ insnbits.extractLsb' 31 1 = 1#1 ∧ insnbits.extractLsb' 24 5 = 0b10000#5
  cbz : op = .cbz ↔ build.ec = true ∧ insnbits.extractLsb' 24 8 = 0b10110100#8
  cbnz : op = .cbnz ↔ build.ec = true ∧ insnbits.extractLsb' 24 8 = 0b10110101#8

theorem pcRelativeOpcodes (build : Build) (insnbits : BitVec 32) :
    PCRelativeOpcodes build insnbits (decodeOpcode build insnbits) where
  b := decodeOpcode_b_iff
  bl := decodeOpcode_bl_iff
  bCond := decodeOpcode_bCond_iff
  adrp := decodeOpcode_adrp_iff
  cbz := by
    cases hec : build.ec with
    | false => simp [(decodeOpcode_ne_cb hec).1]
    | true => simp [decodeOpcode_cbz_iff hec]
  cbnz := by
    cases hec : build.ec with
    | false => simp [(decodeOpcode_ne_cb hec).2]
    | true => simp [decodeOpcode_cbnz_iff hec]

/-- Every fetched word has its PC-relative addresses, and a word that can be fetched has the opcode
of A64. -/
theorem fetched_targets (build : Build) (m : Mem) (PC : BitVec 64) (insnbits : BitVec 32) :
    Targets build PC insnbits (imemErr m PC) ∧ (imemErr m PC = false →
      PCRelativeOpcodes build insnbits (fetchedInstr build PC insnbits (imemErr m PC)).op) := by
  refine ⟨targets_of_fetch build PC insnbits _, fun herr ↦ ?_⟩
  rw [herr]
  exact pcRelativeOpcodes build insnbits

/-- A compare-and-branch of the `EC` build is predicted to be taken. -/
theorem fetchedPC_cbz : ¬∀ (build : Build) (m : Mem) (PC : BitVec 64) (insnbits : BitVec 32),
    PC ≠ 0 → addrInImem m PC = true →
    (fetchedInstr build PC insnbits (imemErr m PC)).op ∉ [Opcode.b, .bl, .bCond] →
      fetchedPC build PC insnbits (imemErr m PC) = PC + 4 := by
  intro h
  have hcbz := h ⟨true, true⟩ (initMem none (fun _ ↦ 0)) 0x400000 0xB4000040 (by decide) (by decide)
    (by decide)
  revert hcbz
  decide

end SystemEmulator
