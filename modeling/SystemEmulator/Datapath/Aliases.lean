import SystemEmulator.Datapath.DataProcessing

/-!
# Bitfield moves and two-source words

`fix_instr_aliases` takes every `UBFM` for `LSL` or `LSR` by an immediate, and every two-source word
for `LSLV` or `LSRV`.  The words for which that agrees with A64.
-/

namespace SystemEmulator

open A64

/-! ## The words -/

section

variable (insnbits : BitVec 32)

theorem eq_immediateWord : insnbits = immediateWord (insnbits.extractLsb' 22 10)
    (insnbits.extractLsb' 16 6 ++ insnbits.extractLsb' 10 6) (insnbits.extractLsb' 5 5)
    (insnbits.extractLsb' 0 5) := by
  rw [immediateWord, BitVec.extractLsb'_append_extractLsb'_eq_extractLsb' (by decide),
    BitVec.extractLsb'_append_extractLsb'_eq_extractLsb' (by decide),
    BitVec.extractLsb'_append_extractLsb'_eq_extractLsb' (by decide),
    BitVec.extractLsb'_append_extractLsb'_eq_extractLsb' (by decide)]
  exact BitVec.extractLsb'_eq_self.symm

theorem eq_registerWord : insnbits = registerWord (insnbits.extractLsb' 21 11)
    (insnbits.extractLsb' 16 5) (insnbits.extractLsb' 10 6) (insnbits.extractLsb' 5 5)
    (insnbits.extractLsb' 0 5) := by
  rw [registerWord, BitVec.extractLsb'_append_extractLsb'_eq_extractLsb' (by decide),
    BitVec.extractLsb'_append_extractLsb'_eq_extractLsb' (by decide),
    BitVec.extractLsb'_append_extractLsb'_eq_extractLsb' (by decide),
    BitVec.extractLsb'_append_extractLsb'_eq_extractLsb' (by decide)]
  exact BitVec.extractLsb'_eq_self.symm

theorem itable_ubfm_iff {ec : Bool} : itable ec (bitfieldU32 insnbits 21 11).toNat = .ubfm ↔
    insnbits.extractLsb' 22 10 = 0b1101001101#10 := by
  rw [itable_eq_iff (by decide), ← BitVec.toNat_inj, ← top11_div insnbits (k := 1) rfl]
  cases ec <;> simp [initItable] <;> omega

theorem itable_ubfmv_iff {ec : Bool} : itable ec (bitfieldU32 insnbits 21 11).toNat = .ubfmv ↔
    insnbits.extractLsb' 21 11 = 0b10011010110#11 := by
  rw [itable_eq_iff (by decide), ← BitVec.toNat_inj, ← top11_div insnbits (k := 0) rfl]
  cases ec <;> simp [initItable] <;> omega

end

/-! ## What the emulator makes of them -/

/-- The source operand of a bitfield move, shifted as its opcode says. -/
def aliasedBitfield (immr imms : BitVec 6) (src : BitVec 64) : BitVec 64 :=
  if imms = 63 then src >>> immr.toNat else src <<< (-immr).toNat

/-- The first operand of a two-source word, shifted as its opcode says. -/
def aliasedTwoSource (opcode2 : BitVec 6) (x y : BitVec 64) : BitVec 64 :=
  if opcode2.extractLsb' 0 2 = 0 then x <<< (y.toNat % 64) else x >>> (y.toNat % 64)

theorem ubfm_effect {build : Build} {insnbits : BitVec 32}
    (hop : itable build.ec (bitfieldU32 insnbits 21 11).toNat = .ubfm) (PC : BitVec 64) (c : Core) :
    ∃ c', instrEffect build PC insnbits c = .ok c' ∧ c'.mem = c.mem ∧
      archState c'.regs c'.NZCV = (archState c.regs c.NZCV).write (insnbits.extractLsb' 0 5)
        (aliasedBitfield (insnbits.extractLsb' 16 6) (insnbits.extractLsb' 10 6)
          ((archState c.regs c.NZCV).read (insnbits.extractLsb' 5 5))) := by
  have hword := eq_immediateWord insnbits
  generalize insnbits.extractLsb' 22 10 = top at hword
  generalize insnbits.extractLsb' 16 6 = immr at hword ⊢
  generalize insnbits.extractLsb' 10 6 = imms at hword ⊢
  generalize insnbits.extractLsb' 5 5 = rn at hword ⊢
  generalize insnbits.extractLsb' 0 5 = rd at hword ⊢
  subst hword
  have hopcode : decodeOpcode build (immediateWord top (immr ++ imms) rn rd) =
      if imms = 63 then .lsrRI else .lslRI := by
    have himms : (imms.setWidth 32 = (63 : BitVec 32)) = (imms = 63) := by
      rw [eq_iff_iff]
      bv_omega
    simp only [decodeOpcode, hop, fixInstrAliases, bitfieldU32_imms, himms]
  unfold aliasedBitfield
  by_cases h : imms = 63
  · rw [if_pos h] at hopcode ⊢
    obtain ⟨c', heffect, hmem, hstate⟩ := shiftRI_effect hopcode rfl PC c
    refine ⟨c', heffect, hmem, hstate.trans ?_⟩
    rw [extractImmval, bitfieldU32_immr, (shiftAmount immr).2]
    rfl
  · rw [if_neg h] at hopcode ⊢
    obtain ⟨c', heffect, hmem, hstate⟩ := shiftRI_effect hopcode rfl PC c
    refine ⟨c', heffect, hmem, hstate.trans ?_⟩
    have hamount := (shiftAmount (-immr)).1
    rw [BitVec.neg_neg] at hamount
    rw [extractImmval, bitfieldU32_immr, hamount]
    rfl

theorem ubfmv_effect {build : Build} {insnbits : BitVec 32}
    (hop : itable build.ec (bitfieldU32 insnbits 21 11).toNat = .ubfmv) (PC : BitVec 64)
    (c : Core) :
    ∃ c', instrEffect build PC insnbits c = .ok c' ∧ c'.mem = c.mem ∧
      archState c'.regs c'.NZCV = (archState c.regs c.NZCV).write (insnbits.extractLsb' 0 5)
        (aliasedTwoSource (insnbits.extractLsb' 10 6)
          ((archState c.regs c.NZCV).read (insnbits.extractLsb' 5 5))
          ((archState c.regs c.NZCV).read (insnbits.extractLsb' 16 5))) := by
  have hword := eq_registerWord insnbits
  generalize insnbits.extractLsb' 21 11 = top at hword
  generalize insnbits.extractLsb' 16 5 = rm at hword ⊢
  generalize insnbits.extractLsb' 10 6 = opcode2 at hword ⊢
  generalize insnbits.extractLsb' 5 5 = rn at hword ⊢
  generalize insnbits.extractLsb' 0 5 = rd at hword ⊢
  subst hword
  have hopcode : decodeOpcode build (registerWord top rm opcode2 rn rd) =
      if opcode2.extractLsb' 0 2 = 0 then .lslRR else .lsrRR := by
    have hlow : ((opcode2.extractLsb' 0 2).setWidth 32 = (0 : BitVec 32)) =
        (opcode2.extractLsb' 0 2 = 0) := by
      rw [eq_iff_iff]
      bv_omega
    simp only [decodeOpcode, hop, fixInstrAliases, bitfieldU32_registerWord, hlow]
  unfold aliasedTwoSource
  by_cases h : opcode2.extractLsb' 0 2 = 0
  all_goals
    simp only [h, ↓reduceIte] at hopcode ⊢
    obtain ⟨c', valhw, cond, heffect, hmem, hstate⟩ :=
      registerWord_effect hopcode rfl rfl (.inl rfl) PC c
    refine ⟨c', heffect, hmem, hstate.trans ?_⟩
    simp [generateDXMWControl, decideAluOp, aluResult, and_63]

/-! ## Where that agrees with A64 -/

theorem aliasedBitfield_eq_iff (immr imms : BitVec 6) :
    (∀ src, aliasedBitfield immr imms src = ubfm immr imms src) ↔
      imms = 63 ∨ imms.toNat + 1 = immr.toNat := by
  have hr := immr.isLt
  have hs := imms.isLt
  constructor
  · intro h
    by_contra hne
    rw [not_or] at hne
    have hshift : ∀ src, aliasedBitfield immr imms src = src <<< (-immr).toNat :=
      fun src ↦ if_neg hne.1
    have hne63 : imms.toNat ≠ 63 := fun heq ↦ hne.1 (BitVec.eq_of_toNat_eq heq)
    -- a single bit of the source tells the two words apart
    have hbit : ∀ k i, i < 64 → ((BitVec.twoPow 64 k <<< (-immr).toNat).getLsbD i =
        ((BitVec.twoPow 64 k).getLsbD ((i + immr.toNat) % 64) &&
          decide ((i + immr.toNat) % 64 ≤ imms.toNat) && decide (i ≤ (imms - immr).toNat))) := by
      intro k i hi
      rw [← getLsbD_ubfm _ _ _ hi, ← h, hshift]
    simp only [BitVec.getLsbD_shiftLeft, BitVec.getLsbD_twoPow] at hbit
    by_cases hzero : immr.toNat = 0
    · have hneg : (-immr).toNat = 0 := by bv_omega
      have h63 := hbit 63 63 (by decide)
      simp [hneg, hzero, show ¬63 ≤ imms.toNat by omega] at h63
    · have hneg : (-immr).toNat = 64 - immr.toNat := by bv_omega
      by_cases hle : immr.toNat ≤ imms.toNat
      · have h0 := hbit immr.toNat 0 (by decide)
        simp [hneg, hle, show 0 < 64 - immr.toNat by omega, Nat.mod_eq_of_lt hr] at h0
        omega
      · have hk := hbit (imms.toNat + 1) (imms.toNat + 1 + (64 - immr.toNat)) (by omega)
        have hindex : (imms.toNat + 1 + (64 - immr.toNat) + immr.toNat) % 64 = imms.toNat + 1 := by
          omega
        simp [hneg, hindex, show imms.toNat + 1 < 64 by omega,
          show imms.toNat + 1 + (64 - immr.toNat) < 64 by omega] at hk
  · rintro (rfl | h) src
    · rw [ubfm_lsr]
      rfl
    · have hne : imms ≠ 63 := by
        rintro rfl
        have h63 : (63 : BitVec 6).toNat = 63 := rfl
        omega
      have hneg : (-immr).toNat = 64 - immr.toNat := by bv_omega
      rw [ubfm_lsl h, aliasedBitfield, if_neg hne, hneg]

/-- Where a two-source word is executed as it should be, for registers with the given numbers. -/
def twoSourceSound (rm rn rd : BitVec 5) : Option TwoSource → Prop
  | some .lslv | some .lsrv => True
  | some .asrv | some .rorv => rd = 31 ∨ rn = 31 ∨ rm = 31
  | some .udiv | some .sdiv => rd = 31 ∨ rn = 31
  | none => False

/-- The words of the two classes that are executed as A64 says, whatever the registers hold: a
bitfield move that is a shift, a shift by a register, and words whose result is zero or discarded
anyway. -/
def AliasSound (insnbits : BitVec 32) : Prop :=
  let rm := insnbits.extractLsb' 16 5
  let rn := insnbits.extractLsb' 5 5
  let rd := insnbits.extractLsb' 0 5
  let immr := insnbits.extractLsb' 16 6
  let imms := insnbits.extractLsb' 10 6
  if insnbits.extractLsb' 22 10 = 0b1101001101#10 then
    rd = 31 ∨ rn = 31 ∨ imms = 63 ∨ imms.toNat + 1 = immr.toNat
  else twoSourceSound rm rn rd (TwoSource.ofOpcode2 (insnbits.extractLsb' 10 6))

instance (rm rn rd : BitVec 5) : (op : Option TwoSource) → Decidable (twoSourceSound rm rn rd op)
  | some .lslv | some .lsrv => inferInstanceAs (Decidable True)
  | some .asrv | some .rorv => inferInstanceAs (Decidable (rd = 31 ∨ rn = 31 ∨ rm = 31))
  | some .udiv | some .sdiv => inferInstanceAs (Decidable (rd = 31 ∨ rn = 31))
  | none => inferInstanceAs (Decidable False)

instance (insnbits : BitVec 32) : Decidable (AliasSound insnbits) :=
  inferInstanceAs (Decidable (if insnbits.extractLsb' 22 10 = 0b1101001101#10 then
      insnbits.extractLsb' 0 5 = 31 ∨ insnbits.extractLsb' 5 5 = 31 ∨
        insnbits.extractLsb' 10 6 = 63 ∨
        (insnbits.extractLsb' 10 6).toNat + 1 = (insnbits.extractLsb' 16 6).toNat
    else twoSourceSound (insnbits.extractLsb' 16 5) (insnbits.extractLsb' 5 5)
      (insnbits.extractLsb' 0 5) (TwoSource.ofOpcode2 (insnbits.extractLsb' 10 6))))

def uniformRegs (val : BitVec 64) : Regs where
  GPR _ := val
  SP := val

theorem read_uniformRegs (val : BitVec 64) (nzcv : BitVec 8) {r : BitVec 5} (hr : r ≠ 31) :
    (archState (uniformRegs val) nzcv).read r = val := by
  have hlt : r.toNat < 31 := by bv_omega
  exact dif_pos hlt

theorem read_zr (regs : Regs) (nzcv : BitVec 8) : (archState regs nzcv).read 31 = 0 := rfl

/-- Two values of a destination register are the same in every state. -/
theorem forall_write_iff {f g : State → BitVec 64} {rd : BitVec 5} :
    (∀ regs nzcv, (archState regs nzcv).write rd (f (archState regs nzcv)) =
      (archState regs nzcv).write rd (g (archState regs nzcv))) ↔
      rd = 31 ∨ ∀ regs nzcv, f (archState regs nzcv) = g (archState regs nzcv) := by
  by_cases hrd : rd = 31
  · subst hrd
    simp [State.write_of_not_lt]
  · have hlt : rd.toNat < 31 := by bv_omega
    simp only [State.write_inj _ hlt, hrd, false_or]

theorem forall_read_iff {f g : BitVec 64 → BitVec 64} (hzero : f 0 = g 0) {rn : BitVec 5} :
    (∀ regs nzcv, f ((archState regs nzcv).read rn) = g ((archState regs nzcv).read rn)) ↔
      rn = 31 ∨ ∀ val, f val = g val := by
  by_cases hrn : rn = 31
  · subst hrn
    simp only [read_zr, hzero, implies_true, true_or]
  · simp only [hrn, false_or]
    refine ⟨fun h val ↦ ?_, fun h regs nzcv ↦ h _⟩
    have hval := h (uniformRegs val) 0
    rwa [read_uniformRegs val 0 hrn] at hval

/-- Only the second opcode of `LSLV` is executed as a shift to the left. -/
theorem aliasedTwoSource_eq {opcode2 : BitVec 6} {op : TwoSource}
    (hop : TwoSource.ofOpcode2 opcode2 = some op) (x y : BitVec 64) :
    aliasedTwoSource opcode2 x y = (if op = .lslv then .lslv else .lsrv : TwoSource).apply x y := by
  have hlow : ∀ opcode2 : BitVec 6, (TwoSource.ofOpcode2 opcode2).all
      (fun op ↦ decide (op = .lslv) == decide (opcode2.extractLsb' 0 2 = 0)) = true := by
    decide
  have hiff := hlow opcode2
  rw [hop, Option.all_some, beq_iff_eq, decide_eq_decide] at hiff
  unfold aliasedTwoSource
  by_cases h : op = .lslv
  · rw [if_pos (hiff.mp h), if_pos h]
    rfl
  · rw [if_neg (hiff.not.mp h), if_neg h]
    rfl

/-- Two operations that agree in every state agree on equal operands. -/
theorem TwoSource.eq_of_forall_read {op op' : TwoSource} {rm rn : BitVec 5}
    (h : ∀ regs nzcv, op.apply ((archState regs nzcv).read rn) ((archState regs nzcv).read rm) =
      op'.apply ((archState regs nzcv).read rn) ((archState regs nzcv).read rm)) (hrn : rn ≠ 31)
    (val : BitVec 64) :
    op.apply val (if rm = 31 then 0 else val) = op'.apply val (if rm = 31 then 0 else val) := by
  have hval := h (uniformRegs val) 0
  rw [read_uniformRegs val 0 hrn] at hval
  by_cases hrm : rm = 31
  · rw [hrm, read_zr] at hval
    rwa [if_pos hrm]
  · rw [read_uniformRegs val 0 hrm] at hval
    rwa [if_neg hrm]

/-- The words that `LSRV` executes: another operation differs from it for some contents of its
registers, unless the zero register is among them. -/
theorem lsrv_eq_iff {op : TwoSource} (hop : op ≠ .lslv) (rm rn rd : BitVec 5) :
    (rd = 31 ∨ ∀ regs nzcv, TwoSource.lsrv.apply ((archState regs nzcv).read rn)
        ((archState regs nzcv).read rm) =
      op.apply ((archState regs nzcv).read rn) ((archState regs nzcv).read rm)) ↔
      twoSourceSound rm rn rd (some op) := by
  cases op with
  | lslv => exact absurd rfl hop
  | lsrv => exact iff_of_true (.inr fun _ _ ↦ rfl) trivial
  | asrv =>
    refine or_congr_right ⟨fun h ↦ ?_, ?_⟩
    · by_contra hne
      rw [not_or] at hne
      have hval := TwoSource.eq_of_forall_read h hne.1 0x8000000000000001
      rw [if_neg hne.2] at hval
      exact absurd hval (by decide)
    · rintro (rfl | rfl) regs nzcv <;> rw [read_zr] <;> simp [TwoSource.apply]
  | rorv =>
    refine or_congr_right ⟨fun h ↦ ?_, ?_⟩
    · by_contra hne
      rw [not_or] at hne
      have hval := TwoSource.eq_of_forall_read h hne.1 1
      rw [if_neg hne.2] at hval
      exact absurd hval (by decide)
    · rintro (rfl | rfl) regs nzcv <;> rw [read_zr]
      · exact BitVec.zero_ushiftRight.trans
          (zero_rotateRight (Nat.mod_lt _ (by decide))).symm
      · exact (BitVec.ushiftRight_zero _).trans (rotateRight_zero _).symm
  | udiv =>
    refine or_congr_right ⟨fun h ↦ ?_, ?_⟩
    · by_contra hrn
      have hval := TwoSource.eq_of_forall_read h hrn 2
      split at hval <;> exact absurd hval (by decide)
    · rintro rfl regs nzcv
      rw [read_zr]
      simp [TwoSource.apply]
  | sdiv =>
    refine or_congr_right ⟨fun h ↦ ?_, ?_⟩
    · by_contra hrn
      have hval := TwoSource.eq_of_forall_read h hrn 2
      split at hval <;> exact absurd hval (by decide)
    · rintro rfl regs nzcv
      rw [read_zr]
      simp [TwoSource.apply]

/-! ## The classes -/

/-- The word has the effect of A64, or it is an error, which ends the run with `STAT_INS`. -/
def ExecutedAs (build : Build) (PC : BitVec 64) (insnbits : BitVec 32) (c : Core) : Prop :=
  (∃ exec c', execWord insnbits = some exec ∧ instrEffect build PC insnbits c = .ok c' ∧
    archState c'.regs c'.NZCV = exec (archState c.regs c.NZCV)) ∨
  (fetchedInstr build PC insnbits false).status = .ins

/-- A word of the two classes never ends the run. -/
theorem fetchedInstr_status_alias {build : Build} {insnbits : BitVec 32}
    (hop : itable build.ec (bitfieldU32 insnbits 21 11).toNat = .ubfm ∨
      itable build.ec (bitfieldU32 insnbits 21 11).toNat = .ubfmv) (PC : BitVec 64) :
    (fetchedInstr build PC insnbits false).status ≠ .ins := by
  have hdp : (decodeOpcode build insnbits).isDataProcessing = true := by
    obtain hop | hop := hop <;> simp only [decodeOpcode, hop, fixInstrAliases] <;> split <;> rfl
  rw [fetchedInstr_eq rfl hdp]
  exact fun h ↦ Stat.noConfusion h

/-- A word is executed as A64 says where its effect is that of A64. -/
theorem executedAs_iff_of_effect {build : Build} {insnbits : BitVec 32}
    (hop : itable build.ec (bitfieldU32 insnbits 21 11).toNat = .ubfm ∨
      itable build.ec (bitfieldU32 insnbits 21 11).toNat = .ubfmv) (effect : State → State)
    (heffect : ∀ PC c, ∃ c', instrEffect build PC insnbits c = .ok c' ∧ c'.mem = c.mem ∧
      archState c'.regs c'.NZCV = effect (archState c.regs c.NZCV)) :
    (∀ PC c, ExecutedAs build PC insnbits c) ↔ ∃ exec, execWord insnbits = some exec ∧
      ∀ regs nzcv, effect (archState regs nzcv) = exec (archState regs nzcv) := by
  constructor
  · intro h
    have hexec : ∃ exec, execWord insnbits = some exec := by
      obtain ⟨exec, -, hexec, -⟩ | hstatus :=
        h 0 { regs := uniformRegs 0, NZCV := 0, mem := initMem none fun _ ↦ 0 }
      · exact ⟨exec, hexec⟩
      · exact absurd hstatus (fetchedInstr_status_alias hop 0)
    obtain ⟨exec, hexec⟩ := hexec
    refine ⟨exec, hexec, fun regs nzcv ↦ ?_⟩
    obtain ⟨c', hc', -, hstate⟩ := heffect 0 ⟨regs, nzcv, initMem none fun _ ↦ 0⟩
    obtain ⟨exec', c'', hexec', hc'', hstate'⟩ | hstatus := h 0 ⟨regs, nzcv, initMem none fun _ ↦ 0⟩
    · obtain rfl := Option.some.inj (hexec.symm.trans hexec')
      obtain rfl := Except.ok.inj (hc'.symm.trans hc'')
      exact hstate.symm.trans hstate'
    · exact absurd hstatus (fetchedInstr_status_alias hop 0)
  · rintro ⟨exec, hexec, heq⟩ PC c
    obtain ⟨c', hc', -, hstate⟩ := heffect PC c
    exact .inl ⟨exec, c', hexec, hc', hstate.trans (heq c.regs c.NZCV)⟩

theorem executedAs_ubfm_iff {build : Build} {insnbits : BitVec 32}
    (hop : itable build.ec (bitfieldU32 insnbits 21 11).toNat = .ubfm) :
    (∀ PC c, ExecutedAs build PC insnbits c) ↔ AliasSound insnbits := by
  have htop := (itable_ubfm_iff insnbits).mp hop
  have hzero : ∀ immr imms, aliasedBitfield immr imms 0 = ubfm immr imms 0 := by
    intro immr imms
    have hshift : aliasedBitfield immr imms 0 = 0 := by
      unfold aliasedBitfield
      split
      · exact BitVec.zero_ushiftRight
      · exact BitVec.zero_shiftLeft _
    rw [hshift]
    refine BitVec.eq_of_getLsbD_eq fun i hi ↦ ?_
    rw [getLsbD_ubfm _ _ _ hi]
    simp
  rw [executedAs_iff_of_effect (.inl hop) (fun s ↦ s.write (insnbits.extractLsb' 0 5)
    (aliasedBitfield (insnbits.extractLsb' 16 6) (insnbits.extractLsb' 10 6)
      (s.read (insnbits.extractLsb' 5 5)))) (ubfm_effect hop)]
  simp only [execWord, htop, ↓reduceIte, Option.some.injEq, exists_eq_left', AliasSound]
  rw [forall_write_iff (f := fun s ↦ aliasedBitfield _ _ (s.read _))
    (g := fun s ↦ ubfm _ _ (s.read _)), forall_read_iff (hzero _ _), aliasedBitfield_eq_iff]

theorem executedAs_ubfmv_iff {build : Build} {insnbits : BitVec 32}
    (hop : itable build.ec (bitfieldU32 insnbits 21 11).toNat = .ubfmv) :
    (∀ PC c, ExecutedAs build PC insnbits c) ↔ AliasSound insnbits := by
  have htop := (itable_ubfmv_iff insnbits).mp hop
  have hne : insnbits.extractLsb' 22 10 ≠ 0b1101001101#10 :=
    (@itable_ubfm_iff insnbits build.ec).not.mp (by rw [hop]; decide)
  rw [executedAs_iff_of_effect (.inr hop) (fun s ↦ s.write (insnbits.extractLsb' 0 5)
    (aliasedTwoSource (insnbits.extractLsb' 10 6) (s.read (insnbits.extractLsb' 5 5))
      (s.read (insnbits.extractLsb' 16 5)))) (ubfmv_effect hop)]
  simp only [execWord, hne, htop, ↓reduceIte, AliasSound]
  cases h : TwoSource.ofOpcode2 (insnbits.extractLsb' 10 6) with
  | none => simp [twoSourceSound]
  | some op =>
    simp only [Option.map_some, Option.some.injEq, exists_eq_left', aliasedTwoSource_eq h]
    rw [forall_write_iff (f := fun s ↦ TwoSource.apply (s.read _) (s.read _) _)
      (g := fun s ↦ op.apply (s.read _) (s.read _))]
    by_cases hop : op = .lslv
    · subst hop
      exact iff_of_true (.inr fun _ _ ↦ rfl) trivial
    · rw [if_neg hop]
      exact lsrv_eq_iff hop _ _ _

/-- A word of the two classes is executed as A64 says, whatever the registers hold, exactly if it is
one of the sound ones. -/
theorem executedAs_iff {build : Build} {insnbits : BitVec 32}
    (hop : itable build.ec (bitfieldU32 insnbits 21 11).toNat = .ubfm ∨
      itable build.ec (bitfieldU32 insnbits 21 11).toNat = .ubfmv) :
    (∀ PC c, ExecutedAs build PC insnbits c) ↔ AliasSound insnbits := by
  obtain hubfm | hubfmv := hop
  · exact executedAs_ubfm_iff hubfm
  · exact executedAs_ubfmv_iff hubfmv

/-- `LSL X0, X1, X2`, with the second opcode of `LSLV`. -/
theorem executedAs_lslv : AliasSound 0x9AC22020 ∧
    ∀ PC c, ExecutedAs ⟨true, false⟩ PC 0x9AC22020 c := by
  have hsound : AliasSound 0x9AC22020 := by decide
  exact ⟨hsound, (executedAs_iff (.inr (by decide))).mpr hsound⟩

/-- The word of `UBFX X0, X1, #4, #8` is executed as `LSL X0, X1, #60`. -/
theorem not_executedAs_ubfx : ¬∀ (build : Build) (insnbits : BitVec 32),
    (itable build.ec (bitfieldU32 insnbits 21 11).toNat = .ubfm ∨
      itable build.ec (bitfieldU32 insnbits 21 11).toNat = .ubfmv) →
      ∀ PC c, ExecutedAs build PC insnbits c := by
  intro h
  have hsound :=
    (executedAs_ubfm_iff (by decide)).mp (h ⟨true, false⟩ 0xD3442C20 (.inl (by decide)))
  revert hsound
  decide

end SystemEmulator
