import SystemEmulator.Base.HwElts

/-!
# The adder and its flags

The ripple-carry loop computes the sum of its operands and the carry out of the last cell.  The
flags of a subtraction then decide the unsigned and the signed comparisons of its operands.
-/

namespace SystemEmulator

/-! ## The ripple-carry loop -/

/-- The carry out of a cell is the majority of its inputs. -/
theorem fullAdder_eq (bit_a bit_b c_in : Bool) :
    fullAdder bit_a bit_b c_in = (bit_a ^^ (bit_b ^^ c_in), Bool.atLeastTwo bit_a bit_b c_in) := by
  cases bit_a <;> cases bit_b <;> cases c_in <;> rfl

/-- Setting one more bit of a partial sum. -/
theorem getLsbD_setBit {result : BitVec 64} {f : ℕ → Bool} {i : ℕ} (hi : i < 64)
    (hresult : ∀ j, result.getLsbD j = (decide (j < i) && f j)) (j : ℕ) :
    (if f i then result ||| (1#64 <<< i) else result).getLsbD j =
      (decide (j < i + 1) && f j) := by
  have hone : (1#64 <<< i).getLsbD j = decide (j = i) := by
    rw [BitVec.getLsbD_shiftLeft, BitVec.getLsbD_one]
    by_cases hji : j = i
    · simp [hji, hi]
    · by_cases hlt : j < i
      · simp [hji, hlt]
      · simp [hji, show j - i ≠ 0 by omega]
  have hbit : (if f i then result ||| (1#64 <<< i) else result).getLsbD j =
      (result.getLsbD j || (decide (j = i) && f i)) := by
    cases hset : f i with
    | false => simp
    | true => rw [if_pos rfl, BitVec.getLsbD_or, hone, Bool.and_true]
  rw [hbit, hresult]
  by_cases hji : j = i
  · simp [hji]
  · simp [hji, show (j < i + 1) = (j < i) by rw [eq_iff_iff]; omega]

/-- The loop from cell `64 - remaining` on, with the sum of the cells before it in `result`; the
induction is on the cells that are left. -/
theorem rippleCarryLoop_eq (val_a val_b : BitVec 64) (c_in : Bool) (remaining : ℕ)
    (hremaining : remaining ≤ 64) (result : BitVec 64)
    (hresult : ∀ j, result.getLsbD j = (decide (j < 64 - remaining) &&
      (val_a.getLsbD j ^^ (val_b.getLsbD j ^^ BitVec.carry j val_a val_b c_in)))) :
    rippleCarryLoop val_a val_b remaining (BitVec.carry (64 - remaining) val_a val_b c_in) result =
      (val_a + val_b + BitVec.setWidth 64 (BitVec.ofBool c_in),
        BitVec.carry 64 val_a val_b c_in) := by
  induction remaining generalizing result with
  | zero =>
    refine Prod.ext (BitVec.eq_of_getLsbD_eq fun j hj ↦ ?_) rfl
    change result.getLsbD j = _
    rw [hresult, BitVec.getLsbD_add_add_bool hj]
    simp [hj]
  | succ remaining ih =>
    have hnext : 64 - remaining = 64 - (remaining + 1) + 1 := by omega
    rw [rippleCarryLoop]
    simp only [fullAdder_eq]
    rw [← BitVec.carry_succ, ← hnext]
    refine ih (by omega) _ fun j ↦ ?_
    rw [hnext]
    exact getLsbD_setBit
      (f := fun j ↦ val_a.getLsbD j ^^ (val_b.getLsbD j ^^ BitVec.carry j val_a val_b c_in))
      (by omega) hresult j

theorem rippleCarryAdd_eq (val_a val_b : BitVec 64) (c_in : Bool) :
    rippleCarryAdd val_a val_b c_in =
      (val_a + val_b + BitVec.setWidth 64 (BitVec.ofBool c_in),
        BitVec.carry 64 val_a val_b c_in) := by
  have hloop := rippleCarryLoop_eq val_a val_b c_in 64 le_rfl 0 fun j ↦ by simp
  rwa [BitVec.carry_zero] at hloop

theorem rippleCarryAdd_plus (val_a val_b : BitVec 64) :
    rippleCarryAdd val_a val_b false = (val_a + val_b, BitVec.carry 64 val_a val_b false) := by
  rw [rippleCarryAdd_eq]
  simp

theorem rippleCarryAdd_minus (val_a val_b : BitVec 64) :
    rippleCarryAdd val_a (~~~val_b) true =
      (val_a - val_b, BitVec.carry 64 val_a (~~~val_b) true) := by
  have hneg : val_a + ~~~val_b + 1#64 = val_a - val_b := by
    rw [BitVec.sub_eq_add_neg, BitVec.neg_eq_not_add, BitVec.add_assoc]
  rw [rippleCarryAdd_eq, ← hneg]
  rfl

/-! ## The flags -/

section

variable (n z c v : Bool)

@[simp]
theorem getNF_packCC : getNF (packCC n z c v) = n := by
  cases n <;> cases z <;> cases c <;> cases v <;> rfl

@[simp]
theorem getZF_packCC : getZF (packCC n z c v) = z := by
  cases n <;> cases z <;> cases c <;> cases v <;> rfl

@[simp]
theorem getCF_packCC : getCF (packCC n z c v) = c := by
  cases n <;> cases z <;> cases c <;> cases v <;> rfl

@[simp]
theorem getVF_packCC : getVF (packCC n z c v) = v := by
  cases n <;> cases z <;> cases c <;> cases v <;> rfl

end

/-- The flags of an addition or a subtraction: `carry` is the unsigned carry, and `value` is the
signed result before it is reduced to 64 bits. -/
structure ArithFlags (flags : BitVec 8) (result : BitVec 64) (carry : Prop) (value : ℤ) : Prop where
  N : getNF flags = result.msb
  Z : getZF flags = true ↔ result = 0
  C : getCF flags = true ↔ carry
  V : getVF flags = true ↔ ¬(-2 ^ 63 ≤ value ∧ value < 2 ^ 63)

theorem carry_plus_iff (val_a val_b : BitVec 64) :
    BitVec.carry 64 val_a val_b false = true ↔ 2 ^ 64 ≤ val_a.toNat + val_b.toNat := by
  rw [BitVec.carry_width, Bool.toNat_false, Nat.add_zero, decide_eq_true_eq]

theorem carry_minus_iff (val_a val_b : BitVec 64) :
    BitVec.carry 64 val_a (~~~val_b) true = true ↔ val_b.toNat ≤ val_a.toNat := by
  rw [← BitVec.ule_eq_carry, BitVec.ule_iff_toNat_le]

/-- Operands of the same sign and a sum of another sign. -/
theorem overflow_plus_iff (val_a val_b : BitVec 64) :
    (val_a.msb == val_b.msb && (val_a + val_b).msb != val_a.msb) = true ↔
      ¬(-2 ^ 63 ≤ val_a.toInt + val_b.toInt ∧ val_a.toInt + val_b.toInt < 2 ^ 63) := by
  have hoverflow := BitVec.saddOverflow_eq val_a val_b
  rw [bne, ← hoverflow, BitVec.saddOverflow, Bool.or_eq_true, decide_eq_true_eq, decide_eq_true_eq]
  omega

/-- Operands of different signs and a difference whose sign is not that of the first. -/
theorem overflow_minus_iff (val_a val_b : BitVec 64) :
    (val_a.msb != val_b.msb && (val_a - val_b).msb != val_a.msb) = true ↔
      ¬(-2 ^ 63 ≤ val_a.toInt - val_b.toInt ∧ val_a.toInt - val_b.toInt < 2 ^ 63) := by
  have hoverflow := BitVec.ssubOverflow_eq val_a val_b
  have hsigns : (val_a.msb != val_b.msb && (val_a - val_b).msb != val_a.msb) =
      val_a.ssubOverflow val_b := by
    rw [hoverflow]
    cases val_a.msb <;> cases val_b.msb <;> cases (val_a - val_b).msb <;> rfl
  rw [hsigns, BitVec.ssubOverflow, Bool.or_eq_true, decide_eq_true_eq, decide_eq_true_eq]
  omega

theorem aluResult_plus (val_a val_b : BitVec 64) (valhw nzcv : BitVec 8) (set_flags : Bool)
    (cond : Cond) : aluResult val_a val_b valhw nzcv .plus set_flags cond =
      (val_a + val_b, if set_flags then
        packCC (val_a + val_b).msb (val_a + val_b == 0) (BitVec.carry 64 val_a val_b false)
          (val_a.msb == val_b.msb && (val_a + val_b).msb != val_a.msb) else nzcv) := by
  simp only [aluResult, rippleCarryAdd_plus]

theorem aluResult_minus (val_a val_b : BitVec 64) (valhw nzcv : BitVec 8) (set_flags : Bool)
    (cond : Cond) : aluResult val_a val_b valhw nzcv .minus set_flags cond =
      (val_a - val_b, if set_flags then
        packCC (val_a - val_b).msb (val_a - val_b == 0) (BitVec.carry 64 val_a (~~~val_b) true)
          (val_a.msb != val_b.msb && (val_a - val_b).msb != val_a.msb) else nzcv) := by
  simp only [aluResult, rippleCarryAdd_minus]

theorem arithFlags_plus (val_a val_b : BitVec 64) (valhw nzcv : BitVec 8) (cond : Cond) :
    ArithFlags (aluResult val_a val_b valhw nzcv .plus true cond).2 (val_a + val_b)
      (2 ^ 64 ≤ val_a.toNat + val_b.toNat) (val_a.toInt + val_b.toInt) := by
  rw [aluResult_plus]
  refine ⟨getNF_packCC _ _ _ _, ?_, ?_, ?_⟩
  · rw [if_pos rfl, getZF_packCC, beq_iff_eq]
  · rw [if_pos rfl, getCF_packCC, carry_plus_iff]
  · rw [if_pos rfl, getVF_packCC, overflow_plus_iff]

theorem arithFlags_minus (val_a val_b : BitVec 64) (valhw nzcv : BitVec 8) (cond : Cond) :
    ArithFlags (aluResult val_a val_b valhw nzcv .minus true cond).2 (val_a - val_b)
      (val_b.toNat ≤ val_a.toNat) (val_a.toInt - val_b.toInt) := by
  rw [aluResult_minus]
  refine ⟨getNF_packCC _ _ _ _, ?_, ?_, ?_⟩
  · rw [if_pos rfl, getZF_packCC, beq_iff_eq]
  · rw [if_pos rfl, getCF_packCC, carry_minus_iff]
  · rw [if_pos rfl, getVF_packCC, overflow_minus_iff]

/-! ## The conditions after a subtraction -/

/-- The comparison of its operands that a condition decides after a subtraction. -/
def Cond.compares (val_a val_b : BitVec 64) : Cond → Prop
  | .eq => val_a = val_b
  | .ne => val_a ≠ val_b
  | .cs => val_b.toNat ≤ val_a.toNat
  | .cc => val_a.toNat < val_b.toNat
  | .hi => val_b.toNat < val_a.toNat
  | .ls => val_a.toNat ≤ val_b.toNat
  | .ge => val_b.toInt ≤ val_a.toInt
  | .lt => val_a.toInt < val_b.toInt
  | .gt => val_b.toInt < val_a.toInt
  | .le => val_a.toInt ≤ val_b.toInt
  | .mi => (val_a - val_b).toInt < 0
  | .pl => 0 ≤ (val_a - val_b).toInt
  | .vs => ¬(-2 ^ 63 ≤ val_a.toInt - val_b.toInt ∧ val_a.toInt - val_b.toInt < 2 ^ 63)
  | .vc => -2 ^ 63 ≤ val_a.toInt - val_b.toInt ∧ val_a.toInt - val_b.toInt < 2 ^ 63
  | .al | .nv => True

section

variable {flags : BitVec 8} {val_a val_b : BitVec 64}
  (h : ArithFlags flags (val_a - val_b) (val_b.toNat ≤ val_a.toNat) (val_a.toInt - val_b.toInt))
include h

theorem ArithFlags.zero_iff : getZF flags = true ↔ val_a = val_b := by
  simp only [h.Z, BitVec.sub_eq_iff_eq_add, BitVec.ofNat_eq_ofNat, BitVec.zero_add]

/-- The sign of the difference and the overflow tell which operand is smaller. -/
theorem ArithFlags.less_iff : getNF flags ≠ getVF flags ↔ val_a.toInt < val_b.toInt := by
  have hmsb : (val_a - val_b).msb = decide ((val_a - val_b).toInt < 0) := BitVec.msb_eq_toInt
  have hsub : (val_a - val_b).toInt = (val_a.toInt - val_b.toInt).bmod (2 ^ 64) :=
    BitVec.toInt_sub
  have ha : -2 ^ 63 ≤ val_a.toInt := BitVec.le_toInt val_a
  have ha' : val_a.toInt < 2 ^ 63 := BitVec.toInt_lt
  have hb : -2 ^ 63 ≤ val_b.toInt := BitVec.le_toInt val_b
  have hb' : val_b.toInt < 2 ^ 63 := BitVec.toInt_lt
  have hV := h.V
  rw [h.N, hmsb, hsub]
  cases hv : getVF flags with
  | true =>
    rw [hv] at hV
    simp only [ne_eq, decide_eq_true_eq, true_iff, Int.bmod_def] at hV ⊢
    omega
  | false =>
    rw [hv] at hV
    simp only [ne_eq, decide_eq_false_iff_not, Bool.false_eq_true, false_iff, not_not,
      Int.bmod_def] at hV ⊢
    omega

/-- Every condition tests the flags for the comparison it is named after. -/
theorem ArithFlags.condHolds_iff (cond : Cond) :
    condHolds cond flags = true ↔ cond.compares val_a val_b := by
  have hzero := h.zero_iff
  have hless := h.less_iff
  have hnotless : getNF flags = getVF flags ↔ val_b.toInt ≤ val_a.toInt := by
    rw [← not_ne_iff, hless, not_lt]
  have hC := h.C
  have heq : val_a = val_b ↔ val_a.toNat = val_b.toNat := BitVec.toNat_inj.symm
  have hsigned : val_a = val_b ↔ val_a.toInt = val_b.toInt := BitVec.toInt_inj.symm
  cases cond with
  | eq => exact hzero
  | ne => rw [condHolds, Bool.not_eq_true', ← Bool.not_eq_true, hzero]; rfl
  | cs => exact hC
  | cc => rw [condHolds, Bool.not_eq_true', ← Bool.not_eq_true, hC, not_le]; rfl
  | mi =>
    have hmsb : (val_a - val_b).msb = decide ((val_a - val_b).toInt < 0) := BitVec.msb_eq_toInt
    rw [condHolds, h.N, hmsb, decide_eq_true_eq]
    rfl
  | pl =>
    have hmsb : (val_a - val_b).msb = decide ((val_a - val_b).toInt < 0) := BitVec.msb_eq_toInt
    rw [condHolds, h.N, hmsb, Bool.not_eq_true', decide_eq_false_iff_not, not_lt]
    rfl
  | vs => exact h.V
  | vc => rw [condHolds, Bool.not_eq_true', ← Bool.not_eq_true, h.V, not_not]; rfl
  | hi =>
    rw [condHolds, Bool.and_eq_true, Bool.not_eq_true', ← Bool.not_eq_true, hC, hzero, heq]
    simp only [Cond.compares]
    omega
  | ls =>
    rw [condHolds, Bool.or_eq_true, Bool.not_eq_true', ← Bool.not_eq_true, hC, hzero, heq]
    simp only [Cond.compares]
    omega
  | ge => rw [condHolds, beq_iff_eq, hnotless]; rfl
  | lt => rw [condHolds, bne_iff_ne, hless]; rfl
  | gt =>
    rw [condHolds, Bool.and_eq_true, Bool.not_eq_true', ← Bool.not_eq_true, hzero, beq_iff_eq,
      hnotless, hsigned]
    simp only [Cond.compares]
    omega
  | le =>
    rw [condHolds, Bool.or_eq_true, hzero, bne_iff_ne, hless, hsigned]
    simp only [Cond.compares]
    omega
  | al => exact iff_of_true rfl trivial
  | nv => exact iff_of_true rfl trivial

end

/-- The ALU adds and subtracts modulo `2 ^ 64` with the flags of the unsigned and of the signed
result, and every condition decides its comparison from the flags of a subtraction. -/
theorem alu_plus_minus (val_a val_b : BitVec 64) (valhw nzcv : BitVec 8) (cond : Cond) :
    ((alu val_a val_b valhw nzcv .plus true cond).1 = val_a + val_b ∧
      ArithFlags (alu val_a val_b valhw nzcv .plus true cond).2.2 (val_a + val_b)
        (2 ^ 64 ≤ val_a.toNat + val_b.toNat) (val_a.toInt + val_b.toInt)) ∧
    ((alu val_a val_b valhw nzcv .minus true cond).1 = val_a - val_b ∧
      ArithFlags (alu val_a val_b valhw nzcv .minus true cond).2.2 (val_a - val_b)
        (val_b.toNat ≤ val_a.toNat) (val_a.toInt - val_b.toInt)) ∧
    ∀ cond', condHolds cond' (alu val_a val_b valhw nzcv .minus true cond).2.2 = true ↔
      cond'.compares val_a val_b := by
  have hplus := arithFlags_plus val_a val_b valhw nzcv cond
  have hminus := arithFlags_minus val_a val_b valhw nzcv cond
  refine ⟨⟨?_, hplus⟩, ⟨?_, hminus⟩, hminus.condHolds_iff⟩
  · exact congrArg Prod.fst (aluResult_plus val_a val_b valhw nzcv true cond)
  · exact congrArg Prod.fst (aluResult_minus val_a val_b valhw nzcv true cond)

end SystemEmulator
