import SystemEmulator.Cache.Cache
import Mathlib.Algebra.Order.Ring.Nat
import Mathlib.Tactic.Ring
import Mathlib.Tactic.NormNum

/-!
# Cache geometry

In a cache with a valid configuration an address is split into a tag, a set index and an offset.
-/

namespace SystemEmulator

/-- A configuration with `2 ^ b` bytes a line, `2 ^ s` sets and `A` lines a set. -/
structure Cache.Valid (cache : Cache) (b s : ℕ) : Prop where
  A_pos : 1 ≤ cache.A
  A_le : cache.A ≤ 8
  B_eq : cache.B = 2 ^ b
  b_ge : 3 ≤ b
  S_eq : cache.C / (cache.A * cache.B) = 2 ^ s
  C_lt : cache.C < 2 ^ 32

/-- The configuration says nothing about the sets. -/
theorem Cache.Valid.of_sets {cache : Cache} {b s : ℕ} (h : cache.Valid b s)
    (sets : ℕ → CacheSet) : ({ cache with sets := sets } : Cache).Valid b s :=
  ⟨h.A_pos, h.A_le, h.B_eq, h.b_ge, h.S_eq, h.C_lt⟩

theorem logLoop_two_pow (k fuel result : ℕ) (h : k < fuel) :
    logLoop fuel (2 ^ k) result = result + k := by
  induction k generalizing fuel result with
  | zero =>
    obtain ⟨fuel, rfl⟩ : ∃ n, fuel = n + 1 := ⟨fuel - 1, by omega⟩
    simp [logLoop]
  | succ k ih =>
    obtain ⟨fuel, rfl⟩ : ∃ n, fuel = n + 1 := ⟨fuel - 1, by omega⟩
    have hhalf : 2 ^ (k + 1) / 2 = 2 ^ k := by
      rw [pow_succ]
      omega
    have hne : 2 ^ k ≠ 0 := by positivity
    rw [logLoop, hhalf, if_neg hne, ih fuel (result + 1) (by omega)]
    omega

theorem log_two_pow {k : ℕ} (h : k < 64) : log (2 ^ k) = k := by
  rw [log, logLoop_two_pow k 64 0 h, Nat.zero_add]

namespace Cache.Valid

variable {cache : Cache} {b s : ℕ} (h : cache.Valid b s)
include h

theorem capacity : cache.A * cache.B * 2 ^ s ≤ cache.C := by
  rw [← h.S_eq]
  exact Nat.mul_div_le _ _

theorem lines_le : 2 ^ b * 2 ^ s ≤ cache.C := by
  calc 2 ^ b * 2 ^ s = 1 * 2 ^ b * 2 ^ s := by ring
    _ ≤ cache.A * cache.B * 2 ^ s := by
      rw [h.B_eq]
      exact Nat.mul_le_mul_right _ (Nat.mul_le_mul_right _ h.A_pos)
    _ ≤ cache.C := h.capacity

theorem bits_lt : b + s < 32 := by
  have hlt : 2 ^ (b + s) < 2 ^ 32 := by
    rw [pow_add]
    exact lt_of_le_of_lt h.lines_le h.C_lt
  exact (Nat.pow_lt_pow_iff_right (by norm_num)).mp hlt

theorem S_eq_two_pow : cache.S = 2 ^ s := by
  have hle : cache.A * cache.B ≤ cache.C :=
    le_trans (Nat.le_mul_of_pos_right _ (by positivity)) h.capacity
  rw [Cache.S, numSets, Nat.mod_eq_of_lt (lt_of_le_of_lt hle h.C_lt), h.S_eq]

theorem b_eq : cache.b = b := by
  rw [Cache.b, h.B_eq, log_two_pow (by have := h.bits_lt; omega)]

theorem s_eq : cache.s = s := by
  rw [Cache.s, h.S_eq_two_pow, log_two_pow (by have := h.bits_lt; omega)]

theorem setMask_eq : cache.setMask = BitVec.ofNat 64 (2 ^ s - 1) := by
  have hs : 2 ^ s < 2 ^ 32 := Nat.pow_lt_pow_right (by norm_num) (by have := h.bits_lt; omega)
  have hpos : 0 < 2 ^ s := by positivity
  have hmod : (2 ^ s + 2 ^ 32 - 1) % 2 ^ 32 = 2 ^ s - 1 := by omega
  rw [Cache.setMask, h.S_eq_two_pow, hmod]

end Cache.Valid

theorem toNat_and_mask (x : BitVec 64) {k : ℕ} (hk : k < 64) :
    (x &&& BitVec.ofNat 64 (2 ^ k - 1)).toNat = x.toNat % 2 ^ k := by
  have hlt : 2 ^ k - 1 < 2 ^ 64 := by
    have := Nat.pow_lt_pow_right (show 1 < 2 by norm_num) hk
    omega
  rw [BitVec.toNat_and, BitVec.toNat_ofNat, Nat.mod_eq_of_lt hlt, Nat.and_two_pow_sub_one_eq_mod]

namespace Cache.Valid

variable {cache : Cache} {b s : ℕ} (h : cache.Valid b s)
include h

theorem setIndex_eq (addr : BitVec 64) : cache.setIndex addr = addr.toNat / 2 ^ b % 2 ^ s := by
  have hs : s < 64 := by have := h.bits_lt; omega
  rw [Cache.setIndex, h.b_eq, h.setMask_eq, toNat_and_mask _ hs, BitVec.toNat_ushiftRight,
    Nat.shiftRight_eq_div_pow]

theorem tagOf_toNat (addr : BitVec 64) :
    (cache.tagOf addr).toNat = addr.toNat / 2 ^ b / 2 ^ s := by
  rw [Cache.tagOf, h.b_eq, h.s_eq, BitVec.toNat_ushiftRight, Nat.shiftRight_eq_div_pow, pow_add,
    Nat.div_div_eq_div_mul]

theorem offset_eq (addr : BitVec 64) : cache.offset addr = addr.toNat % 2 ^ b := by
  have hb : b < 64 := by have := h.bits_lt; omega
  rw [Cache.offset, h.B_eq, toNat_and_mask _ hb]

/-- The number of a block is spelled by its tag and its set index. -/
theorem block_eq (addr : BitVec 64) :
    addr.toNat / 2 ^ b = (cache.tagOf addr).toNat * 2 ^ s + cache.setIndex addr := by
  rw [h.tagOf_toNat, h.setIndex_eq]
  exact (Nat.div_add_mod' _ _).symm

/-- Two addresses of one set have the same tag exactly when they lie in the same block. -/
theorem tagOf_eq_iff {addr addr' : BitVec 64}
    (hset : cache.setIndex addr = cache.setIndex addr') :
    cache.tagOf addr = cache.tagOf addr' ↔ addr.toNat / 2 ^ b = addr'.toNat / 2 ^ b := by
  rw [h.block_eq addr, h.block_eq addr', hset]
  constructor
  · intro htag
    rw [htag]
  · intro hblock
    have hmul : (cache.tagOf addr).toNat * 2 ^ s = (cache.tagOf addr').toNat * 2 ^ s := by omega
    exact BitVec.eq_of_toNat_eq (Nat.eq_of_mul_eq_mul_right (by positivity) hmul)

end Cache.Valid

/-! ## Blocks -/

/-- Two addresses lie in the same block of `2 ^ b` bytes. -/
def SameBlock (b : ℕ) (a a' : BitVec 64) : Prop := a.toNat / 2 ^ b = a'.toNat / 2 ^ b

instance (b : ℕ) (a a' : BitVec 64) : Decidable (SameBlock b a a') :=
  inferInstanceAs (Decidable (_ = _))

theorem and_not_mask_toNat (x : BitVec 64) {k : ℕ} (hk : k < 64) :
    (x &&& ~~~BitVec.ofNat 64 (2 ^ k - 1)).toNat = x.toNat / 2 ^ k * 2 ^ k := by
  have hsplit : x =
      (x &&& ~~~BitVec.ofNat 64 (2 ^ k - 1)) + (x &&& BitVec.ofNat 64 (2 ^ k - 1)) := by
    rw [BitVec.add_eq_or_of_and_eq_zero]
    · ext i hi
      simp only [BitVec.getElem_or, BitVec.getElem_and, BitVec.getElem_not]
      cases x[i] <;> cases (BitVec.ofNat 64 (2 ^ k - 1))[i] <;> rfl
    · ext i hi
      simp only [BitVec.getElem_and, BitVec.getElem_not, BitVec.getElem_zero]
      cases x[i] <;> cases (BitVec.ofNat 64 (2 ^ k - 1))[i] <;> rfl
  have hand := toNat_and_mask x hk
  have hsub : x &&& ~~~BitVec.ofNat 64 (2 ^ k - 1) = x - (x &&& BitVec.ofNat 64 (2 ^ k - 1)) := by
    rw [BitVec.eq_sub_iff_add_eq]
    exact hsplit.symm
  have hle : x &&& BitVec.ofNat 64 (2 ^ k - 1) ≤ x := by
    rw [BitVec.le_def, hand]
    exact Nat.mod_le _ _
  have hdiv := Nat.div_add_mod' x.toNat (2 ^ k)
  rw [hsub, BitVec.toNat_sub_of_le hle, hand]
  omega

namespace Cache.Valid

variable {cache : Cache} {b s : ℕ} (h : cache.Valid b s)
include h

theorem blockAddress_toNat (addr : BitVec 64) :
    (cache.blockAddress addr).toNat = addr.toNat / 2 ^ b * 2 ^ b := by
  rw [Cache.blockAddress, h.B_eq, and_not_mask_toNat addr (by have := h.bits_lt; omega)]

/-- An address is its block and its offset. -/
theorem toNat_eq (addr : BitVec 64) :
    addr.toNat = (cache.blockAddress addr).toNat + cache.offset addr := by
  rw [h.blockAddress_toNat, h.offset_eq]
  exact (Nat.div_add_mod' _ _).symm

theorem offset_lt (addr : BitVec 64) : cache.offset addr < 2 ^ b := by
  rw [h.offset_eq]
  exact Nat.mod_lt _ (by positivity)

theorem blockAddress_congr {addr addr' : BitVec 64} (hblock : SameBlock b addr addr') :
    cache.blockAddress addr = cache.blockAddress addr' := by
  apply BitVec.eq_of_toNat_eq
  rw [h.blockAddress_toNat, h.blockAddress_toNat, hblock]

/-- The addresses of a block are its first address plus an offset. -/
theorem blockAddress_add_offset {addr addr' : BitVec 64} (hblock : SameBlock b addr addr') :
    cache.blockAddress addr' + BitVec.ofNat 64 (cache.offset addr) = addr := by
  have hlt := h.offset_lt addr
  have hpow : 2 ^ b < 2 ^ 32 := Nat.pow_lt_pow_right (by norm_num) (by have := h.bits_lt; omega)
  have haddr := h.toNat_eq addr
  apply BitVec.eq_of_toNat_eq
  rw [← h.blockAddress_congr hblock, BitVec.toNat_add, BitVec.toNat_ofNat,
    Nat.mod_eq_of_lt (show cache.offset addr < 2 ^ 64 by omega), ← haddr,
    Nat.mod_eq_of_lt addr.isLt]

/-- The distance of an address of a block from the first one. -/
theorem sub_blockAddress {addr addr' : BitVec 64} (hblock : SameBlock b addr addr') :
    (addr - cache.blockAddress addr').toNat = cache.offset addr := by
  have haddr := h.toNat_eq addr
  rw [h.blockAddress_congr hblock] at haddr
  rw [BitVec.toNat_sub_of_le (by rw [BitVec.le_def]; omega)]
  omega

theorem blockAddress_add_le (addr : BitVec 64) :
    (cache.blockAddress addr).toNat + 2 ^ b ≤ 2 ^ 64 := by
  have hb := h.bits_lt
  have hsplit : 2 ^ 64 = 2 ^ (64 - b) * 2 ^ b := by
    rw [← pow_add, Nat.sub_add_cancel (by omega)]
  have hlt : addr.toNat / 2 ^ b < 2 ^ (64 - b) :=
    (Nat.div_lt_iff_lt_mul (by positivity)).mpr (hsplit ▸ addr.isLt)
  calc (cache.blockAddress addr).toNat + 2 ^ b = (addr.toNat / 2 ^ b + 1) * 2 ^ b := by
        rw [h.blockAddress_toNat, Nat.succ_mul]
    _ ≤ 2 ^ (64 - b) * 2 ^ b := Nat.mul_le_mul_right _ hlt
    _ = 2 ^ 64 := hsplit.symm

/-- A block has an address for every offset. -/
theorem exists_offset_eq (addr : BitVec 64) {offset : ℕ} (hoffset : offset < 2 ^ b) :
    ∃ a, SameBlock b a addr ∧ cache.offset a = offset := by
  have hend := h.blockAddress_add_le addr
  have hbase := h.blockAddress_toNat addr
  have hpow : 2 ^ b < 2 ^ 32 := Nat.pow_lt_pow_right (by norm_num) (by have := h.bits_lt; omega)
  have hnat : (cache.blockAddress addr + BitVec.ofNat 64 offset).toNat =
      addr.toNat / 2 ^ b * 2 ^ b + offset := by
    rw [BitVec.toNat_add, BitVec.toNat_ofNat, Nat.mod_eq_of_lt (show offset < 2 ^ 64 by omega),
      Nat.mod_eq_of_lt (by omega), hbase]
  refine ⟨cache.blockAddress addr + BitVec.ofNat 64 offset, ?_, ?_⟩
  · rw [SameBlock, hnat, Nat.add_comm, Nat.add_mul_div_right _ _ (by positivity),
      Nat.div_eq_of_lt hoffset, Nat.zero_add]
  · rw [h.offset_eq, hnat, Nat.add_comm, Nat.add_mul_mod_self_right, Nat.mod_eq_of_lt hoffset]

/-- The addresses less than one block above the first address of a block. -/
theorem sub_blockAddress_lt_iff {addr addr' : BitVec 64} :
    (addr - cache.blockAddress addr').toNat < 2 ^ b ↔ SameBlock b addr addr' := by
  constructor
  · intro hlt
    have hend := h.blockAddress_add_le addr'
    have hbase := h.blockAddress_toNat addr'
    rw [BitVec.toNat_sub] at hlt
    have haddr := addr.isLt
    have hle : (cache.blockAddress addr').toNat ≤ addr.toNat := by omega
    have hdist : addr.toNat - (cache.blockAddress addr').toNat < 2 ^ b := by omega
    rw [hbase] at hle hdist
    exact Nat.div_eq_of_lt_le hle (by rw [Nat.succ_mul]; omega)
  · intro hblock
    rw [h.sub_blockAddress hblock]
    exact h.offset_lt addr

theorem sameBlock_iff {addr addr' : BitVec 64} :
    SameBlock b addr addr' ↔
      cache.setIndex addr = cache.setIndex addr' ∧ cache.tagOf addr = cache.tagOf addr' := by
  constructor
  · intro hblock
    have hset : cache.setIndex addr = cache.setIndex addr' := by
      rw [h.setIndex_eq, h.setIndex_eq, hblock]
    exact ⟨hset, (h.tagOf_eq_iff hset).mpr hblock⟩
  · rintro ⟨hset, htag⟩
    exact (h.tagOf_eq_iff hset).mp htag

theorem getSet_congr {a a' : BitVec 64} (hblock : SameBlock b a a') :
    cache.getSet a = cache.getSet a' :=
  getSet_of_eq (h.sameBlock_iff.mp hblock).1

/-- The addresses of a block are found in the same line. -/
theorem getLine_congr {a a' : BitVec 64} (hblock : SameBlock b a a') :
    getLine cache a = getLine cache a' := by
  unfold getLine
  rw [h.getSet_congr hblock, (h.sameBlock_iff.mp hblock).2]

theorem sameBlock_blockAddress (addr : BitVec 64) :
    SameBlock b (cache.blockAddress addr) addr := by
  refine h.sub_blockAddress_lt_iff.mp ?_
  rw [BitVec.sub_self]
  simp

end Cache.Valid

end SystemEmulator
