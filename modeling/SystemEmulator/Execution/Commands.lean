import SystemEmulator.Execution.Guest
import SystemEmulator.Datapath.DataProcessing
import SystemEmulator.Datapath.Targets

/-!
# The instructions of a program

Fetch, decode, execute, memory and writeback of the sequential machine do with the word of an
instruction what A64 has it do, loads, stores and branches included.
-/

namespace SystemEmulator

open A64 Outcome

/-! ## The words of loads, stores and branches -/

section

variable {imm9 : BitVec 9} {rn rt : BitVec 5}

@[simp]
theorem regField_unscaledWord_rt (top : BitVec 11) :
    regField (unscaledWord top imm9 rn rt) 0 = rt.toNat := by
  rw [regField_eq _ (by decide), (unscaledWord_slices rn rt top imm9).2.2.2]

@[simp]
theorem regField_unscaledWord_rn (top : BitVec 11) :
    regField (unscaledWord top imm9 rn rt) 5 = rn.toNat := by
  rw [regField_eq _ (by decide), (unscaledWord_slices rn rt top imm9).2.2.1]

@[simp]
theorem bitfieldS64_unscaledWord (top : BitVec 11) :
    bitfieldS64 (unscaledWord top imm9 rn rt) 12 9 = imm9.signExtend 64 := by
  rw [bitfieldS64_eq _ (by decide) (by decide) (by decide),
    (unscaledWord_slices rn rt top imm9).2.1]

theorem bitfieldS64_branchWord (top : BitVec 6) (imm26 : BitVec 26) :
    bitfieldS64 (branchWord top imm26) 0 26 <<< 2 = 4 * imm26.signExtend 64 := by
  rw [bitfieldS64_shiftLeft _ 2 (by decide) (by decide) (by decide),
    (branchWord_slices top imm26).2]
  rfl

theorem bitfieldS64_conditionalWord (imm19 : BitVec 19) (cond : BitVec 4) :
    bitfieldS64 (conditionalWord imm19 cond) 5 19 <<< 2 = 4 * imm19.signExtend 64 := by
  rw [bitfieldS64_shiftLeft _ 2 (by decide) (by decide) (by decide),
    (conditionalWord_slices imm19 cond).2.1]
  rfl

theorem bitfieldU32_conditionalWord (imm19 : BitVec 19) (cond : BitVec 4) :
    bitfieldU32 (conditionalWord imm19 cond) 0 4 = cond.setWidth 32 := by
  rw [bitfieldU32_eq _ (by decide) (by decide), (conditionalWord_slices imm19 cond).2.2]

end

@[simp]
theorem bitfieldU32_selectWord (top : BitVec 11) (rm : BitVec 5) (cond : BitVec 4)
    (op2 : BitVec 2) (rn rd : BitVec 5) :
    bitfieldU32 (registerWord top rm (cond ++ op2) rn rd) 12 4 = cond.setWidth 32 := by
  rw [bitfieldU32_eq _ (by decide) (by decide), (selectWord_slices rn rd top rm cond op2).1]

theorem bitfieldU32_selectWord_op2 (top : BitVec 11) (rm : BitVec 5) (cond : BitVec 4)
    (op2 : BitVec 2) (rn rd : BitVec 5) :
    bitfieldU32 (registerWord top rm (cond ++ op2) rn rd) 10 1 =
      (op2.extractLsb' 0 1).setWidth 32 := by
  rw [bitfieldU32_eq _ (by decide) (by decide), (selectWord_slices rn rd top rm cond op2).2]

/-- The instructions that the emulator executes as A64 has them.  `fix_regs` leaves the register
31 of `ADRP` and `RET` the stack pointer, and only `EC` decodes a conditional select. -/
def Emulated (build : Build) : Command → Prop
  | .adrp _ _ rd => rd ≠ 31
  | .ret rn => rn ≠ 31
  | .select .. => build.ec = true
  | _ => True

/-- Such an instruction, which loads from an address that satisfies `loads` if it loads at all. -/
def Runs (build : Build) (loads : BitVec 64 → Prop) (a : Config Guest) (i : Command) : Prop :=
  Emulated build i ∧ ∀ addr, i.loadAddr a.state = some addr → loads addr

def commandOpcode : Command → Opcode
  | .process i => opcodeOf i
  | .ldur .. => .ldur
  | .stur .. => .stur
  | .adrp .. => .adrp
  | .branch link _ => if link then .bl else .b
  | .bCond .. => .bCond
  | .select inv inc _ _ _ _ =>
      if inv then (if inc then .csneg else .csinv) else if inc then .csinc else .csel
  | .ret _ => .ret
  | .nop => .nop
  | .hlt _ => .hlt

/-- An opcode of the tables of both builds that stands for one value of the top eleven bits and is
not an alias. -/
theorem decodeOpcode_of_top {build : Build} {insnbits : BitVec 32} (op : Opcode) {top : BitVec 11}
    (htop : insnbits.extractLsb' 21 11 = top) (hmem : (op, top.toNat, top.toNat) ∈ initItable false)
    (hop : op ≠ .error) (halias : ∀ insnbits, fixInstrAliases insnbits op = op) :
    decodeOpcode build insnbits = op := by
  have hmem' : (op, top.toNat, top.toNat) ∈ initItable build.ec := by
    cases build.ec
    · exact hmem
    · exact List.mem_append_left _ (by simpa [initItable] using hmem)
  unfold decodeOpcode
  rw [itable_of_top (k := 0) htop rfl hmem' hop (by omega) (by omega), halias]

theorem decodeOpcode_command {build : Build} {i : Command} (hi : Emulated build i) :
    decodeOpcode build i.encode = commandOpcode i := by
  cases i with
  | process i => exact decodeOpcode_encode build i
  | ldur imm9 rn rt =>
    exact decodeOpcode_of_top .ldur (unscaledWord_slices rn rt _ imm9).1 (by decide) (by decide)
      fun _ ↦ rfl
  | stur imm9 rn rt =>
    exact decodeOpcode_of_top .stur (unscaledWord_slices rn rt _ imm9).1 (by decide) (by decide)
      fun _ ↦ rfl
  | adrp immlo immhi rd =>
    obtain ⟨htop, -, hmid, -⟩ := pageWord_slices immlo immhi rd
    exact decodeOpcode_adrp_iff.mpr ⟨htop, hmid⟩
  | branch link imm26 =>
    cases link with
    | false => exact decodeOpcode_b_iff.mpr (branchWord_slices _ imm26).1
    | true => exact decodeOpcode_bl_iff.mpr (branchWord_slices _ imm26).1
  | bCond imm19 cond => exact decodeOpcode_bCond_iff.mpr (conditionalWord_slices imm19 cond).1
  | select inv inc rm cond rn rd =>
    have hec : build.ec = true := hi
    unfold decodeOpcode
    cases inv with
    | false =>
      have hmem : (Opcode.csel, 0x4d4, 0x4d4) ∈ initItable true := by decide
      rw [hec, Command.encode, itable_registerWord hmem (by decide) (by decide) (by decide),
        fixInstrAliases, bitfieldU32_selectWord_op2]
      cases inc <;> rfl
    | true =>
      have hmem : (Opcode.csneg, 0x6d4, 0x6d4) ∈ initItable true := by decide
      rw [hec, Command.encode, itable_registerWord hmem (by decide) (by decide) (by decide),
        fixInstrAliases, bitfieldU32_selectWord_op2]
      cases inc <;> rfl
  | ret rn =>
    exact decodeOpcode_of_top .ret (registerWord_slices 31 rn 0 _ 0).1 (by decide) (by decide)
      fun _ ↦ rfl
  | nop =>
    have htop : (0xD503201F : BitVec 32).extractLsb' 21 11 = 0b11010101000#11 := by decide
    exact decodeOpcode_of_top .nop htop (by decide) (by decide) fun _ ↦ rfl
  | hlt imm16 =>
    exact decodeOpcode_of_top .hlt (haltWord_slice imm16) (by decide) (by decide) fun _ ↦ rfl

/-- The condition codes of the emulator are those of A64. -/
theorem condHolds_eq (nzcv : BitVec 8) (cond : BitVec 4) :
    condHolds (condOfBits (cond.setWidth 32)) nzcv =
      Flags.holds ⟨getNF nzcv, getZF nzcv, getCF nzcv, getVF nzcv⟩ cond := by
  unfold condHolds
  generalize getNF nzcv = n
  generalize getZF nzcv = z
  generalize getCF nzcv = c
  generalize getVF nzcv = v
  revert cond n z c v
  decide +kernel

theorem fetchedInstr_command {build : Build} {i : Command} (hi : Emulated build i)
    (pc : BitVec 64) :
    fetchedInstr build pc i.encode false =
      { insnbits := i.encode
        op := commandOpcode i
        format := ftable (commandOpcode i)
        multipurpose_val := if commandOpcode i = .adrp then adrpVal pc i.encode else pc + 4
        status := if commandOpcode i = .hlt then .hlt else .aok } := by
  have herror : commandOpcode i ≠ .error := by
    cases i with
    | process i =>
      have hdp := opcodeOf_isDataProcessing i
      intro hcontra
      rw [show opcodeOf i = .error from hcontra] at hdp
      cases hdp
    | branch link imm26 => cases link <;> exact Opcode.noConfusion
    | select inv inc rm cond rn rd => cases inv <;> cases inc <;> exact Opcode.noConfusion
    | _ => exact Opcode.noConfusion
  simp only [fetchedInstr, Bool.false_eq_true, ↓reduceIte, decodeOpcode_command hi, herror, ne_eq,
    not_false_eq_true]

/-! ## One step -/

/-- The state of A64 that a state of the sequential machine stands for. -/
def Core.config (c : Core) (pc : BitVec 64) : Config Guest :=
  ⟨archState c.regs c.NZCV, pc, c.mem.guest⟩

/-- The data port is ready, the cache is in order, and nothing undefined has been executed. -/
structure Core.InOrder (c : Core) : Prop where
  ok : c.mem.Ok
  ready : c.mem.dmem_status = .ready
  defined : c.mem.undefined = false

/-- What the sequential machine does when the effect of the instruction in A64 is `r`. -/
def Follows (build : Build) (c : Core) (pc : BitVec 64) : Except Stop (Config Guest) → Prop
  | .ok b => ∃ c', seqStep build (c, pc) = pure (c', b.pc) ∧ c'.InOrder ∧ c'.config b.pc = b
  | .error .halt => seqStep build (c, pc) = throw (.halted c)
  | .error .abort => seqStep build (c, pc) = hang ∨
      (∃ crash, seqStep build (c, pc) = throw (.crashed crash)) ∨
      ∃ c', seqStep build (c, pc) = throw (.addressFault pc c') ∧ c'.regs = c.regs ∧
        c'.NZCV = c.NZCV

/-- One step, by the decoded instruction. -/
theorem seqStep_def {build : Build} {c : Core} {pc : BitVec 64} (hpc : pc ≠ 0) :
    seqStep build (c, pc) = execute (instrAt build pc c) c >>= fun c' ↦
      pure (c', nextPC pc (fetchedWord c.mem.ptable pc) (instrAt build pc c) c.NZCV) := by
  rw [seqStep, if_neg hpc]

section

variable {build : Build} {c : Core} {pc : BitVec 64} {i : Command}

theorem instrAt_command (hi : Emulated build i) (hc : c.InOrder)
    (hfetch : Guest.platform.fetch c.mem.guest pc = some i.encode) : instrAt build pc c = decoded
    { insnbits := i.encode
      op := commandOpcode i
      format := ftable (commandOpcode i)
      multipurpose_val := if commandOpcode i = .adrp then adrpVal pc i.encode else pc + 4
      status := if commandOpcode i = .hlt then .hlt else .aok } c.regs := by
  obtain ⟨-, herr, hword⟩ := fetch_guest hc.ok hfetch
  rw [instrAt, herr, hword, fetchedInstr_command hi]

/-- A step with one data access that is refused. -/
theorem seqStep_of_refused (hpc : pc ≠ 0) {x : XInstr} (hx : instrAt build pc c = x)
    (hone : x.M_sigs.dmem_read = !x.M_sigs.dmem_write) (hmp : x.multipurpose_val = pc + 4)
    (hflags : x.X_sigs.set_flags = false)
    (hsee : (executed x c.NZCV).1.dataOp.visible c.mem.guest = none) :
    Follows build c pc (.error .abort) := by
  have hNZCV : x.flags c.NZCV = c.NZCV := by
    unfold XInstr.flags
    rw [hflags]
    rfl
  unfold Follows
  rw [seqStep_def hpc, hx, execute_eq, access, hNZCV]
  rcases settle_accessed_refused (i := (executed x c.NZCV).1) hone hsee with ⟨crash, hcrash⟩ | hadr
  · rw [hcrash]
    exact .inr (.inl ⟨crash, rfl⟩)
  · cases hsettle : settle (accessed (executed x c.NZCV).1) c.mem with
    | none => exact .inl rfl
    | some y => cases y with
      | error crash => exact .inr (.inl ⟨crash, rfl⟩)
      | ok r =>
        have hadr' : r.2.status = .adr := hadr r hsettle
        have hval : (executed x c.NZCV).1.multipurpose_val - 4 = pc := by
          change x.multipurpose_val - 4 = pc
          rw [hmp]
          exact BitVec.add_sub_cancel _ _
        refine .inr (.inr ⟨{ c with mem := r.1 }, ?_, rfl, rfl⟩)
        simp only [writeback, hadr', hval]
        rfl

section

variable (hc : c.InOrder) (hfetch : Guest.platform.fetch c.mem.guest pc = some i.encode)
  {x : XInstr}
  (hx : instrAt build pc c = x) (hstatus : x.status = .aok) {b : Config Guest}
  (hnext : nextPC pc i.encode x c.NZCV = b.pc)
include hc hfetch hx hstatus hnext

/-- A step without a data access. -/
theorem follows_of_idle (haccess : (executed x c.NZCV).1.accesses = false)
    (hstate : archState (regfileWrite c.regs x.dst ((executed x c.NZCV).1.toWInstr 0 false).wval
      x.W_sigs.w_enable) (x.flags c.NZCV) = b.state) (hmem : c.mem.guest = b.mem) :
    Follows build c pc (.ok b) := by
  obtain ⟨hpc, -, hword⟩ := fetch_guest hc.ok hfetch
  have hstatus' : ((executed x c.NZCV).1.toWInstr 0 false).status = .aok := hstatus
  have hpasses : ((executed x c.NZCV).1.toWInstr 0 false).status.passes = true := by
    rw [hstatus']
    rfl
  refine ⟨⟨regfileWrite c.regs x.dst ((executed x c.NZCV).1.toWInstr 0 false).wval
    x.W_sigs.w_enable, x.flags c.NZCV, c.mem⟩, ?_, ⟨hc.ok, hc.ready, hc.defined⟩, ?_⟩
  · rw [seqStep_def hpc, hx, hword, hnext, execute_eq, access,
      settle_of_done (accessed_of_not_accesses haccess _) (not_inFlight_of_ready hc.ready)]
    simp only [writeback_of_passes hpasses, pure_bind, hstatus', beq_self_eq_true, Bool.and_true]
    rfl
  · unfold Core.config
    rw [hmem]
    exact congrArg (fun state ↦ (⟨state, b.pc, b.mem⟩ : Config Guest)) hstate

/-- A step with one data access that the program sees. -/
theorem follows_of_visible (hone : x.M_sigs.dmem_read = !x.M_sigs.dmem_write) {v : BitVec 64}
    (hsee : (executed x c.NZCV).1.dataOp.visible c.mem.guest = some (b.mem, v))
    (hdefined : (executed x c.NZCV).1.dataOp.Defined c.mem)
    (hstate : archState (regfileWrite c.regs x.dst ((executed x c.NZCV).1.toWInstr v false).wval
      x.W_sigs.w_enable) (x.flags c.NZCV) = b.state) : Follows build c pc (.ok b) := by
  obtain ⟨hpc, -, hword⟩ := fetch_guest hc.ok hfetch
  have hstatus' : ((executed x c.NZCV).1.toWInstr v false).status = .aok := hstatus
  have hpasses : ((executed x c.NZCV).1.toWInstr v false).status.passes = true := by
    rw [hstatus']
    rfl
  obtain ⟨mem, hsettle, hok, hready, hguest, hkeeps⟩ :=
    settle_accessed (i := (executed x c.NZCV).1) hone hc.ok hc.ready hsee hdefined
  refine ⟨⟨regfileWrite c.regs x.dst ((executed x c.NZCV).1.toWInstr v false).wval
    x.W_sigs.w_enable, x.flags c.NZCV, mem⟩, ?_, ⟨hok, hready, hkeeps.trans hc.defined⟩, ?_⟩
  · rw [seqStep_def hpc, hx, hword, hnext, execute_eq, access, hsettle]
    simp only [writeback_of_passes hpasses, pure_bind, hstatus', beq_self_eq_true, Bool.and_true]
    rfl
  · unfold Core.config
    rw [hguest]
    exact congrArg (fun state ↦ (⟨state, b.pc, b.mem⟩ : Config Guest)) hstate

end

end

/-! ## Every instruction -/

section

variable {build : Build} {c : Core} {pc : BitVec 64} (hc : c.InOrder)
include hc

theorem follows_process {i : Instr}
    (hfetch : Guest.platform.fetch c.mem.guest pc = some (Command.process i).encode) :
    Follows build c pc ((Command.process i).exec Guest.platform (c.config pc)) := by
  obtain ⟨hpc, herr, hword⟩ := fetch_guest hc.ok hfetch
  obtain ⟨c', hstep, hmem, hstate⟩ :=
    @seqStep_encode build pc c i hword hpc herr (not_inFlight_of_ready hc.ready)
  refine ⟨c', hstep, ⟨hmem ▸ hc.ok, hmem ▸ hc.ready, hmem ▸ hc.defined⟩, ?_⟩
  unfold Core.config
  rw [hstate, hmem]

theorem follows_ldur {imm9 : BitVec 9} {rn rt : BitVec 5}
    (hloads : LoadDefined c.mem.cache c.mem.checkpoint
      ((archState c.regs c.NZCV).readSP rn + imm9.signExtend 64))
    (hfetch : Guest.platform.fetch c.mem.guest pc = some (Command.ldur imm9 rn rt).encode) :
    Follows build c pc ((Command.ldur imm9 rn rt).exec Guest.platform (c.config pc)) := by
  have hx := @instrAt_command build c pc (.ldur imm9 rn rt) trivial hc hfetch
  have haddr : (executed (instrAt build pc c) c.NZCV).1.dataOp =
      .read ((archState c.regs c.NZCV).readSP rn + imm9.signExtend 64) := by
    rw [hx, archState_readSP]
    simp [commandOpcode, Command.encode, executed, decoded, MInstr.dataOp, generateDXMWControl,
      DInstr.src1, DInstr.src2, extractRegs, extractRegsTable, ftable, fixRegs, decideAluOp, alu,
      aluResult_plus_eq, addWithCarry_add, extractImmval, regfileRead]
  cases hload : c.mem.guest.load ((archState c.regs c.NZCV).readSP rn + imm9.signExtend 64) with
  | none =>
    simp only [Command.exec, Guest.platform, Core.config, hload]
    refine seqStep_of_refused (fetch_guest hc.ok hfetch).1 rfl ?_ ?_ ?_ ?_
    · rw [hx]
      rfl
    · rw [hx]
      rfl
    · rw [hx]
      rfl
    · rw [haddr]
      exact hload
  | some r =>
    simp only [Command.exec, Guest.platform, Core.config, hload]
    refine follows_of_visible hc hfetch rfl ?_ ?_ ?_ (v := r.2) ?_ ?_ ?_
    · rw [hx]
      rfl
    · rw [hx]
      rfl
    · rw [hx]
      rfl
    · rw [haddr]
      exact hload
    · rw [haddr]
      exact hloads
    · rw [hx]
      simp [commandOpcode, Command.encode, decoded, executed, generateDXMWControl, DInstr.dst,
        extractRegs, extractRegsTable, ftable, fixRegs, MInstr.toWInstr, WInstr.wval, XInstr.flags,
        archState_write]

theorem follows_stur {imm9 : BitVec 9} {rn rt : BitVec 5}
    (hfetch : Guest.platform.fetch c.mem.guest pc = some (Command.stur imm9 rn rt).encode) :
    Follows build c pc ((Command.stur imm9 rn rt).exec Guest.platform (c.config pc)) := by
  have hx := @instrAt_command build c pc (.stur imm9 rn rt) trivial hc hfetch
  have haddr : (executed (instrAt build pc c) c.NZCV).1.dataOp =
      .write ((archState c.regs c.NZCV).readSP rn + imm9.signExtend 64)
        ((archState c.regs c.NZCV).read rt) := by
    rw [hx, archState_readSP, archState_read]
    simp [commandOpcode, Command.encode, executed, decoded, MInstr.dataOp, generateDXMWControl,
      DInstr.src1, DInstr.src2, extractRegs, extractRegsTable, ftable, fixRegs, decideAluOp, alu,
      aluResult_plus_eq, addWithCarry_add, extractImmval, regfileRead]
  cases hstore : c.mem.guest.store ((archState c.regs c.NZCV).readSP rn + imm9.signExtend 64)
      ((archState c.regs c.NZCV).read rt) with
  | none =>
    simp only [Command.exec, Guest.platform, Core.config, hstore]
    refine seqStep_of_refused (fetch_guest hc.ok hfetch).1 rfl ?_ ?_ ?_ ?_
    · rw [hx]
      rfl
    · rw [hx]
      rfl
    · rw [hx]
      rfl
    · rw [haddr, DataOp.visible, hstore]
      rfl
  | some g =>
    simp only [Command.exec, Guest.platform, Core.config, hstore]
    refine follows_of_visible hc hfetch rfl ?_ ?_ ?_ (v := 0) ?_ ?_ ?_
    · rw [hx]
      rfl
    · rw [hx]
      rfl
    · rw [hx]
      rfl
    · rw [haddr, DataOp.visible, hstore]
      rfl
    · rw [haddr]
      trivial
    · rw [hx]
      rfl

theorem follows_adrp {immlo : BitVec 2} {immhi : BitVec 19} {rd : BitVec 5} (hrd : rd ≠ 31)
    (hfetch : Guest.platform.fetch c.mem.guest pc = some (Command.adrp immlo immhi rd).encode) :
    Follows build c pc ((Command.adrp immlo immhi rd).exec Guest.platform (c.config pc)) := by
  have hx := @instrAt_command build c pc (.adrp immlo immhi rd) hrd hc hfetch
  refine follows_of_idle hc hfetch hx rfl rfl rfl ?_ rfl
  have hlt : rd.toNat < 31 := by bv_omega
  have hpage : adrpVal pc (pageWord immlo immhi rd) =
      pc.extractLsb' 12 52 ++ 0#12 + 4096 * (immhi ++ immlo).signExtend 64 := by
    obtain ⟨-, hlo, -, hhi, -⟩ := pageWord_slices immlo immhi rd
    rw [adrpVal, page_eq, bitfieldS64_shiftLeft _ 12 (by decide) (by decide) (by decide),
      adrpImmediate_eq, hlo, hhi]
    rfl
  have hdst : regField (pageWord immlo immhi rd) 0 = spToXzr rd.toNat := by
    rw [regField_eq _ (by decide), (pageWord_slices immlo immhi rd).2.2.2.2, spToXzr_of_lt hlt]
  change archState (regfileWrite c.regs (regField (pageWord immlo immhi rd) 0)
    (adrpVal pc (pageWord immlo immhi rd)) true) c.NZCV = _
  rw [hdst, hpage, archState_write]
  rfl

theorem follows_branch {link : Bool} {imm26 : BitVec 26}
    (hfetch : Guest.platform.fetch c.mem.guest pc = some (Command.branch link imm26).encode) :
    Follows build c pc ((Command.branch link imm26).exec Guest.platform (c.config pc)) := by
  have hx := @instrAt_command build c pc (.branch link imm26) trivial hc hfetch
  cases link with
  | false =>
    refine follows_of_idle hc hfetch hx rfl ?_ rfl ?_ rfl
    · exact congrArg (pc + ·) (bitfieldS64_branchWord _ imm26)
    · rfl
  | true =>
    refine follows_of_idle hc hfetch hx rfl ?_ rfl ?_ rfl
    · exact congrArg (pc + ·) (bitfieldS64_branchWord _ imm26)
    · exact archState_write c.regs c.NZCV 30 (pc + 4)

theorem follows_bCond {imm19 : BitVec 19} {cond : BitVec 4}
    (hfetch : Guest.platform.fetch c.mem.guest pc = some (Command.bCond imm19 cond).encode) :
    Follows build c pc ((Command.bCond imm19 cond).exec Guest.platform (c.config pc)) := by
  have hx := @instrAt_command build c pc (.bCond imm19 cond) trivial hc hfetch
  refine follows_of_idle hc hfetch hx rfl ?_ rfl rfl rfl
  simp only [nextPC, decoded, commandOpcode, Command.encode, extractCond,
    bitfieldU32_conditionalWord, bitfieldS64_conditionalWord, condHolds_eq]
  rfl

theorem follows_select {inv inc : Bool} {rm : BitVec 5} {cond : BitVec 4} {rn rd : BitVec 5}
    (hec : build.ec = true) (hfetch : Guest.platform.fetch c.mem.guest pc =
      some (Command.select inv inc rm cond rn rd).encode) :
    Follows build c pc ((Command.select inv inc rm cond rn rd).exec Guest.platform
      (c.config pc)) := by
  have hx := @instrAt_command build c pc (.select inv inc rm cond rn rd) hec hc hfetch
  cases inv
  all_goals
    cases inc
    all_goals
      refine follows_of_idle hc hfetch hx rfl rfl rfl ?_ rfl
      simp [commandOpcode, Command.encode, decoded, executed, generateDXMWControl, DInstr.dst,
        DInstr.src1, DInstr.src2, extractRegs, extractRegsTable, ftable, fixRegs, MInstr.toWInstr,
        WInstr.wval, XInstr.flags, archState_write, decideAluOp, alu, aluResult, extractCond,
        condHolds_eq, regfileRead, rippleCarryAdd_plus, ← archState_read _ c.NZCV]
      rfl

theorem follows_ret {rn : BitVec 5} (hrn : rn ≠ 31)
    (hfetch : Guest.platform.fetch c.mem.guest pc = some (Command.ret rn).encode) :
    Follows build c pc ((Command.ret rn).exec Guest.platform (c.config pc)) := by
  have hx := @instrAt_command build c pc (.ret rn) hrn hc hfetch
  refine follows_of_idle hc hfetch hx rfl ?_ rfl rfl rfl
  have hlt : rn.toNat < 31 := by bv_omega
  change c.regs.read (regField (registerWord 0b11010110010#11 31 0 rn 0) 5) =
    (archState c.regs c.NZCV).read rn
  rw [archState_read, regField_registerWord_rn, spToXzr_of_lt hlt]

theorem follows_nop (hfetch : Guest.platform.fetch c.mem.guest pc = some Command.nop.encode) :
    Follows build c pc (Command.nop.exec Guest.platform (c.config pc)) := by
  have hx := @instrAt_command build c pc .nop trivial hc hfetch
  exact follows_of_idle hc hfetch hx rfl rfl rfl rfl rfl

theorem follows_hlt {imm16 : BitVec 16}
    (hfetch : Guest.platform.fetch c.mem.guest pc = some (Command.hlt imm16).encode) :
    Follows build c pc ((Command.hlt imm16).exec Guest.platform (c.config pc)) := by
  have hx := @instrAt_command build c pc (.hlt imm16) trivial hc hfetch
  change seqStep build (c, pc) = throw (.halted c)
  rw [seqStep_def (fetch_guest hc.ok hfetch).1, hx, execute_eq, access,
    settle_of_done (accessed_of_not_accesses rfl _) (not_inFlight_of_ready hc.ready)]
  rfl

end

end SystemEmulator
