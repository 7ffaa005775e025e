import Mathlib.Data.List.Pairwise
import SystemEmulator.Pipe.Fetch

/-!
# Fields of an instruction word

A field that is shifted down and masked is the slice of the word, and the two shifts of
`bitfield_s64` extend its sign.
-/

namespace SystemEmulator

/-- The mask of `width` ones. -/
theorem getLsbD_mask {n width : ℕ} (hwidth : width < n) (i : ℕ) :
    ((1#n <<< width) - 1).getLsbD i = decide (i < width) := by
  have hpos : 0 < 2 ^ width := Nat.two_pow_pos width
  have hlt : 2 ^ width < 2 ^ n := Nat.pow_lt_pow_right (by decide) hwidth
  have hone : (1#n).toNat = 1 := by
    rw [BitVec.toNat_ofNat]
    exact Nat.mod_eq_of_lt (Nat.one_lt_two_pow (by omega))
  have hmask : ((1#n <<< width) - 1).toNat = 2 ^ width - 1 := by
    have hshift : (1#n <<< width).toNat = 2 ^ width := by
      rw [BitVec.toNat_shiftLeft, hone, Nat.shiftLeft_eq, Nat.one_mul, Nat.mod_eq_of_lt hlt]
    have hle : (1#n) ≤ (1#n <<< width) := by
      rw [BitVec.le_def, hshift, hone]
      exact hpos
    exact (BitVec.toNat_sub_of_le hle).trans (by rw [hshift, hone])
  rw [← BitVec.testBit_toNat, hmask, Nat.testBit_two_pow_sub_one]

/-- `bitfield_u32` is a slice of the word. -/
theorem bitfieldU32_eq (src : BitVec 32) {frompos width : ℕ} (hwidth : width < 32)
    (h : frompos + width ≤ 32) :
    bitfieldU32 src frompos width = (src.extractLsb' frompos width).setWidth 32 := by
  refine BitVec.eq_of_getLsbD_eq fun i hi ↦ ?_
  rw [bitfieldU32, BitVec.getLsbD_and, getLsbD_mask hwidth, BitVec.getLsbD_sshiftRight,
    BitVec.getLsbD_setWidth, BitVec.getLsbD_extractLsb']
  by_cases hlt : i < width
  · simp [hlt, hi, show frompos + i < 32 by omega]
  · simp [hlt]

/-- `bitfield_s64` is the slice with its sign extended. -/
theorem bitfieldS64_eq (src : BitVec 32) {frompos width : ℕ} (hpos : 0 < width)
    (hwidth : width < 32) (h : frompos + width ≤ 32) :
    bitfieldS64 src frompos width = (src.extractLsb' frompos width).signExtend 64 := by
  have hslice : ∀ i < width, ((src.signExtend 64).sshiftRight frompos).getLsbD i =
      src.getLsbD (frompos + i) := by
    intro i hi
    rw [BitVec.getLsbD_sshiftRight, BitVec.getLsbD_signExtend]
    simp [show i < 64 by omega, show frompos + i < 64 by omega, show frompos + i < 32 by omega]
  refine BitVec.eq_of_getLsbD_eq fun i hi ↦ ?_
  rw [bitfieldS64, BitVec.getLsbD_sshiftRight, BitVec.getLsbD_signExtend,
    BitVec.getLsbD_extractLsb', BitVec.msb_eq_getLsbD_last, BitVec.msb_eq_getLsbD_last,
    BitVec.getLsbD_extractLsb']
  simp only [BitVec.getLsbD_shiftLeft, BitVec.getLsbD_and,
    getLsbD_mask (show width < 64 by omega)]
  by_cases hlt : i < width
  · have hindex : 64 - width + i - (64 - width) = i := by omega
    rw [if_pos (by omega), hindex, hslice i hlt]
    simp [hlt, hi, show 64 - width + i < 64 by omega, show ¬64 ≤ i by omega]
  · have hindex : 63 - (64 - width) = width - 1 := by omega
    rw [if_neg (by omega), hindex, hslice (width - 1) (by omega)]
    simp [hlt, hi, show ¬63 < 64 - width by omega, show ¬64 ≤ i by omega,
      show width - 1 < width by omega]

theorem regField_eq (insnbits : BitVec 32) {frompos : ℕ} (h : frompos + 5 ≤ 32) :
    regField insnbits frompos = (insnbits.extractLsb' frompos 5).toNat := by
  rw [regField, bitfieldU32_eq insnbits (by decide) h, BitVec.toNat_setWidth]
  exact Nat.mod_eq_of_lt (Nat.lt_of_lt_of_le (BitVec.isLt _) (by decide))

/-! ## The instruction table -/

def EntriesApart (entry entry' : Opcode × ℕ × ℕ) : Prop :=
  entry.2.2 < entry'.2.1 ∨ entry'.2.2 < entry.2.1
  deriving Decidable

instance : Std.Symm EntriesApart := ⟨fun _ _ h ↦ h.symm⟩

theorem initItable_apart (ec : Bool) : (initItable ec).Pairwise EntriesApart := by
  cases ec <;> decide

/-- The table gives an opcode to the values of its ranges and to no other. -/
theorem itable_eq_iff {ec : Bool} {top11 : ℕ} {op : Opcode} (hop : op ≠ .error) :
    itable ec top11 = op ↔
      ∃ entry ∈ initItable ec, entry.1 = op ∧ entry.2.1 ≤ top11 ∧ top11 ≤ entry.2.2 := by
  constructor
  · intro h
    unfold itable at h
    split at h
    · rename_i entry hfind
      have hrange := List.find?_some hfind
      rw [Bool.and_eq_true, decide_eq_true_eq, decide_eq_true_eq] at hrange
      exact ⟨entry, List.mem_of_find?_eq_some hfind, h, hrange⟩
    · exact absurd h.symm hop
  · rintro ⟨entry, hmem, rfl, hlo, hhi⟩
    unfold itable
    split
    · rename_i entry' hfind
      have hrange := List.find?_some hfind
      rw [Bool.and_eq_true, decide_eq_true_eq, decide_eq_true_eq] at hrange
      -- the two ranges share a value, so they are the same entry
      by_contra hne
      have hapart : EntriesApart entry' entry := (initItable_apart ec).forall
        (List.mem_of_find?_eq_some hfind) hmem fun heq ↦ hne (congrArg Prod.fst heq)
      unfold EntriesApart at hapart
      omega
    · rename_i hfind
      have hnone := List.find?_eq_none.mp hfind entry hmem
      simp [hlo, hhi] at hnone

/-- The bits that select the opcode. -/
theorem top11_eq (insnbits : BitVec 32) :
    (bitfieldU32 insnbits 21 11).toNat = insnbits.toNat / 2 ^ 21 := by
  have hlt := insnbits.isLt
  rw [bitfieldU32_eq insnbits (by decide) (by decide), BitVec.toNat_setWidth,
    BitVec.extractLsb'_toNat, Nat.shiftRight_eq_div_pow]
  omega

/-- The first `n` of them. -/
theorem top11_div (insnbits : BitVec 32) {n k : ℕ} (hn : n + k = 11) :
    (bitfieldU32 insnbits 21 11).toNat / 2 ^ k = (insnbits.extractLsb' (21 + k) n).toNat := by
  have hlt : insnbits.toNat / 2 ^ (21 + k) < 2 ^ n := by
    rw [Nat.div_lt_iff_lt_mul (Nat.pos_of_neZero _), ← Nat.pow_add]
    exact Nat.lt_of_lt_of_le insnbits.isLt (Nat.pow_le_pow_right (by decide) (by omega))
  rw [BitVec.extractLsb'_toNat, Nat.shiftRight_eq_div_pow, Nat.mod_eq_of_lt hlt, top11_eq,
    Nat.div_div_eq_div_mul, ← Nat.pow_add]

/-- The entry that covers every word which begins with `top`. -/
theorem itable_of_top {ec : Bool} {insnbits : BitVec 32} {n k : ℕ} {top : BitVec n}
    (htop : insnbits.extractLsb' (21 + k) n = top) (hn : n + k = 11) {op : Opcode} {lo hi : ℕ}
    (hmem : (op, lo, hi) ∈ initItable ec) (hop : op ≠ .error) (hlo : lo ≤ top.toNat * 2 ^ k)
    (hhi : top.toNat * 2 ^ k + (2 ^ k - 1) ≤ hi) :
    itable ec (bitfieldU32 insnbits 21 11).toNat = op := by
  have hdiv := top11_div insnbits hn
  have hsplit := Nat.div_add_mod (bitfieldU32 insnbits 21 11).toNat (2 ^ k)
  have hmod : (bitfieldU32 insnbits 21 11).toNat % 2 ^ k < 2 ^ k :=
    Nat.mod_lt _ (Nat.pos_of_neZero _)
  rw [hdiv, htop, Nat.mul_comm] at hsplit
  have hlo' : lo ≤ (bitfieldU32 insnbits 21 11).toNat := by omega
  have hhi' : (bitfieldU32 insnbits 21 11).toNat ≤ hi := by omega
  exact (itable_eq_iff hop).mpr ⟨_, hmem, rfl, hlo', hhi'⟩

end SystemEmulator
