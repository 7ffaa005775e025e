import SystemEmulator.Base.Machine
import SystemEmulator.Replacement.Geometry
import Mathlib.Data.List.Nodup

/-!
# Validation of the cache arguments

The option loop rejects block sizes, and nothing else: the test of the number of sets is logged, the
associativity is not tested at all, and a cache is created all the same.
-/

namespace SystemEmulator

/-! ## Powers of two -/

/-- One bit is set. -/
theorem popcountll_eq_one_iff (x : BitVec 64) :
    popcountll x = 1 ↔ ∃ k < 64, x = BitVec.twoPow 64 k := by
  unfold popcountll
  rw [List.countP_eq_length_filter, List.length_eq_one_iff]
  constructor
  · rintro ⟨k, hk⟩
    have hmem : ∀ i, i < 64 ∧ x.getLsbD i = true ↔ i = k := by
      intro i
      rw [← List.mem_range, ← List.mem_filter, hk, List.mem_singleton]
    have hlt : k < 64 := ((hmem k).mpr rfl).1
    refine ⟨k, hlt, ?_⟩
    apply BitVec.eq_of_getLsbD_eq
    intro i hi
    rw [BitVec.getLsbD_twoPow, Bool.eq_iff_iff]
    constructor
    · intro hbit
      have hik := (hmem i).mp ⟨hi, hbit⟩
      simp [hlt, hik]
    · intro hbit
      have hik : k = i := by simpa [hlt] using hbit
      exact ((hmem i).mpr hik.symm).2
  · rintro ⟨k, hk, rfl⟩
    refine ⟨k, ?_⟩
    have hfilter : (List.range 64).filter (BitVec.twoPow 64 k).getLsbD =
        (List.range 64).filter (· == k) := by
      refine List.filter_congr fun i _ ↦ ?_
      rw [BitVec.getLsbD_twoPow, decide_eq_true hk, Bool.true_and, Bool.eq_iff_iff,
        decide_eq_true_eq, beq_iff_eq]
      exact eq_comm
    rw [hfilter, List.filter_beq, List.count_eq_one_of_mem List.nodup_range (List.mem_range.mpr hk)]
    rfl

theorem toInt_eq_toNat_of_nonneg {x : BitVec 32} (h : 0 ≤ x.toInt) : x.toInt = x.toNat := by
  rw [BitVec.toInt_eq_toNat_cond] at h ⊢
  split at h
  · next hlt => rw [if_pos hlt]
  · have := x.isLt
    omega

theorem toInt_twoPow_of_lt {k : ℕ} (hk : k < 63) : (BitVec.twoPow 64 k).toInt = 2 ^ k := by
  have hlt : 2 ^ k < 2 ^ 63 := Nat.pow_lt_pow_right (by norm_num) hk
  rw [BitVec.toInt_eq_toNat_cond, BitVec.toNat_twoPow, Nat.mod_eq_of_lt (by omega),
    if_pos (by omega)]
  exact_mod_cast rfl

/-- The option `-B` takes `-1` and the powers of two from eight on. -/
theorem blockSizeOk_iff (B : BitVec 32) :
    blockSizeOk B = true ↔ B = -1 ∨ ∃ b, 3 ≤ b ∧ B.toInt = 2 ^ b := by
  have hunfold : blockSizeOk B = true ↔
      B = -1 ∨ 8 ≤ B.toInt ∧ popcountll (B.signExtend 64) = 1 := by
    unfold blockSizeOk
    rw [Bool.not_eq_true', Bool.and_eq_false_iff, bne_eq_false_iff_eq, Bool.or_eq_false_iff,
      bne_eq_false_iff_eq, BitVec.slt_eq_decide, decide_eq_false_iff_not, not_lt]
    rfl
  rw [hunfold]
  refine or_congr_right ?_
  constructor
  · rintro ⟨hle, hpop⟩
    obtain ⟨k, hk, heq⟩ := (popcountll_eq_one_iff _).mp hpop
    have hext : B.toInt = (BitVec.twoPow 64 k).toInt := by
      rw [← heq, BitVec.toInt_signExtend_of_le (by norm_num)]
    have hint : B.toInt = 2 ^ k := by
      rcases Nat.lt_or_ge k 63 with hlt | hge
      · rw [hext, toInt_twoPow_of_lt hlt]
      · obtain rfl : k = 63 := by omega
        have hneg : (BitVec.twoPow 64 63).toInt < 0 := by decide
        omega
    refine ⟨k, ?_, hint⟩
    by_contra hlt
    have hpow : (2 : ℤ) ^ k ≤ 2 ^ 2 := pow_le_pow_right₀ (by norm_num) (by omega)
    omega
  · rintro ⟨b, hb, hint⟩
    have hle : (2 : ℤ) ^ 3 ≤ 2 ^ b := pow_le_pow_right₀ (by norm_num) hb
    have hlt : b < 31 := by
      have hB := B.toInt_lt
      rw [hint] at hB
      exact (pow_lt_pow_iff_right₀ (by norm_num : (1 : ℤ) < 2)).mp (by exact_mod_cast hB)
    refine ⟨by omega, (popcountll_eq_one_iff _).mpr ⟨b, by omega, ?_⟩⟩
    apply BitVec.eq_of_toInt_eq
    rw [BitVec.toInt_signExtend_of_le (by norm_num), hint, toInt_twoPow_of_lt (by omega)]

/-- The option loop exits exactly when it meets another block size. -/
theorem foldlM_option_eq_none_iff (options : List CacheOption) (args : CacheArgs) :
    options.foldlM CacheArgs.option args = none ↔
      ∃ B, .B B ∈ options ∧ B ≠ -1 ∧ ¬∃ b, 3 ≤ b ∧ B.toInt = 2 ^ b := by
  induction options generalizing args with
  | nil => simp
  | cons option options ih =>
    rw [List.foldlM_cons]
    cases option with
    | A value => simp [CacheArgs.option, ih]
    | C value => simp [CacheArgs.option, ih]
    | d value => simp [CacheArgs.option, ih]
    | B value =>
      have hok := blockSizeOk_iff value
      have hoption : args.option (.B value) =
          if blockSizeOk value then some { args with B := value } else none := rfl
      rw [hoption]
      cases hvalue : blockSizeOk value with
      | true =>
        have hgood := hok.mp hvalue
        rw [if_pos rfl, Option.bind_eq_bind, Option.bind_some, ih]
        constructor
        · rintro ⟨B, hmem, hB⟩
          exact ⟨B, List.mem_cons_of_mem _ hmem, hB⟩
        · rintro ⟨B, hmem, hne, hpow⟩
          rcases List.mem_cons.mp hmem with heq | hmem
          · rw [CacheOption.B.inj heq] at hne hpow
            exact absurd hgood (not_or.mpr ⟨hne, hpow⟩)
          · exact ⟨B, hmem, hne, hpow⟩
      | false =>
        have hbad : ¬(value = -1 ∨ ∃ b, 3 ≤ b ∧ value.toInt = 2 ^ b) := by
          rw [← hok, hvalue]
          exact Bool.false_ne_true
        rw [if_neg Bool.false_ne_true, Option.bind_eq_bind, Option.bind_none]
        exact ⟨fun _ ↦ ⟨value, List.mem_cons_self, not_or.mp hbad⟩, fun _ ↦ rfl⟩

/-! ## Accepted configurations -/

/-- The configurations that the usage text calls valid. -/
structure CacheArgs.Accepted (args : CacheArgs) : Prop where
  A_pos : 1 ≤ args.A.toInt
  A_le : args.A.toInt ≤ 8
  B_pow : ∃ b, 3 ≤ b ∧ args.B.toInt = 2 ^ b
  no_overflow : args.A.toInt * args.B.toInt < 2 ^ 31
  S_pow : ∃ s, args.C.toInt / (args.A.toInt * args.B.toInt) = 2 ^ s

/-- An accepted configuration splits addresses into tag, set index and offset. -/
theorem CacheArgs.Accepted.valid {args : CacheArgs} (h : args.Accepted) :
    ∃ b s, (createCache args.A.toNat args.B.toNat args.C.toNat args.d.toNat).Valid b s := by
  obtain ⟨b, hb, hB⟩ := h.B_pow
  obtain ⟨s, hS⟩ := h.S_pow
  have hA := h.A_pos
  have hBpos : 0 < args.B.toInt := by
    rw [hB]
    positivity
  have hprod : 0 < args.A.toInt * args.B.toInt := by positivity
  have hC : 0 ≤ args.C.toInt := by
    by_contra hneg
    have hdiv := Int.ediv_neg_of_neg_of_pos (not_le.mp hneg) hprod
    have hpow : (0 : ℤ) < 2 ^ s := by positivity
    omega
  have hA' := toInt_eq_toNat_of_nonneg (show 0 ≤ args.A.toInt by omega)
  have hB' := toInt_eq_toNat_of_nonneg hBpos.le
  have hC' := toInt_eq_toNat_of_nonneg hC
  rw [hA', hB', hC'] at hS
  refine ⟨b, s, ?_, ?_, ?_, hb, ?_, args.C.isLt⟩
  · have hle := h.A_pos
    rw [hA'] at hle
    exact_mod_cast hle
  · have hle := h.A_le
    rw [hA'] at hle
    exact_mod_cast hle
  · rw [hB'] at hB
    exact_mod_cast hB
  · exact_mod_cast hS

structure CacheConfig where
  A : ℕ
  B : ℕ
  C : ℕ
  d : ℕ
  b : ℕ
  s : ℕ
  valid : (createCache A B C d).Valid b s
  d_lt : d < 2 ^ 31

/-- The cache that `init_machine` creates for the configuration. -/
def CacheConfig.cache (config : CacheConfig) : Cache :=
  createCache config.A config.B config.C config.d

/-- No trap, no cache for another configuration, and no block that hits on the line of another. -/
structure Start.Sound (options : List CacheOption) : Prop where
  no_trap : startEmulator options ≠ .divisionTrap
  accepted : ∀ cache, startEmulator options = .started (some cache) →
    ∃ args, CacheArgs.parse options = some args ∧ args.Accepted
  block : ∀ cache, startEmulator options = .started (some cache) → ∀ addr addr',
    cache.setIndex addr = cache.setIndex addr' → cache.tagOf addr = cache.tagOf addr' →
      addr.toNat / cache.B = addr'.toNat / cache.B

theorem CacheArgs.Accepted.not_traps {args : CacheArgs} (h : args.Accepted) :
    args.divisionTraps = false := by
  obtain ⟨b, hb, hB⟩ := h.B_pow
  have hA := h.A_pos
  have hBpos : 0 < args.B.toInt := by
    rw [hB]
    positivity
  have hprod : 0 < args.A.toInt * args.B.toInt := by positivity
  have hlt := h.no_overflow
  rw [toInt_eq_toNat_of_nonneg (show 0 ≤ args.A.toInt by omega),
    toInt_eq_toNat_of_nonneg hBpos.le] at hprod hlt
  have hprod' : 0 < args.A.toNat * args.B.toNat := by exact_mod_cast hprod
  have hlt' : args.A.toNat * args.B.toNat < 2 ^ 31 := by exact_mod_cast hlt
  have hmul : (args.A * args.B).toNat = args.A.toNat * args.B.toNat := by
    rw [BitVec.toNat_mul, Nat.mod_eq_of_lt (by omega)]
  have hne : args.A * args.B ≠ 0 := by
    intro hzero
    rw [hzero] at hmul
    have hcontra : 0 = args.A.toNat * args.B.toNat := hmul
    omega
  have hne' : args.A * args.B ≠ -1 := by
    intro hminus
    rw [hminus] at hmul
    have hcontra : 2 ^ 32 - 1 = args.A.toNat * args.B.toNat := hmul
    omega
  unfold CacheArgs.divisionTraps
  rw [beq_false_of_ne hne, beq_false_of_ne hne', Bool.and_false]
  rfl

/-- Without a cache there is nothing to be unsound. -/
theorem Start.sound_of_cacheless {options : List CacheOption}
    (htrap : startEmulator options ≠ .divisionTrap)
    (hnone : ∀ cache, startEmulator options ≠ .started (some cache)) : Start.Sound options :=
  ⟨htrap, fun cache hcache ↦ absurd hcache (hnone cache), fun cache hcache ↦
    absurd hcache (hnone cache)⟩

theorem startEmulator_of_parse {options : List CacheOption} {args : CacheArgs}
    (hparse : CacheArgs.parse options = some args) : startEmulator options =
      if !args.missing && args.divisionTraps then .divisionTrap else .started args.initCache := by
  unfold startEmulator
  rw [hparse]

/-- In an accepted configuration a set and a tag name one block. -/
theorem CacheArgs.Accepted.sound {options : List CacheOption} {args : CacheArgs}
    (h : args.Accepted) (hparse : CacheArgs.parse options = some args) : Start.Sound options := by
  have hstart := startEmulator_of_parse hparse
  rw [h.not_traps, Bool.and_false] at hstart
  refine ⟨?_, fun cache hcache ↦ ⟨args, hparse, h⟩, fun cache hcache ↦ ?_⟩
  · rw [hstart]
    exact Start.noConfusion
  · obtain ⟨b, s, hvalid⟩ := h.valid
    have heq : args.initCache = some cache := by
      rw [hstart] at hcache
      exact Start.started.inj hcache
    unfold CacheArgs.initCache at heq
    cases hmissing : args.missing with
    | true =>
      rw [hmissing] at heq
      cases heq
    | false =>
      rw [hmissing] at heq
      obtain rfl := Option.some.inj heq
      intro addr addr' hset htag
      rw [hvalid.B_eq]
      exact hvalid.sameBlock_iff.mpr ⟨hset, htag⟩

/-- A sound start with all arguments has accepted them. -/
theorem Start.Sound.accepted_of_parse {options : List CacheOption} {args : CacheArgs}
    (h : Start.Sound options) (hparse : CacheArgs.parse options = some args)
    (hmissing : args.missing = false) : args.Accepted := by
  have hstart := startEmulator_of_parse hparse
  cases htraps : args.divisionTraps with
  | true =>
    rw [hmissing, htraps] at hstart
    exact absurd hstart h.no_trap
  | false =>
    rw [hmissing, htraps] at hstart
    have hcache : startEmulator options = .started (some (createCache args.A.toNat
        args.B.toNat args.C.toNat args.d.toNat)) := by
      rw [hstart, CacheArgs.initCache, hmissing]
      rfl
    obtain ⟨args', hargs', haccepted⟩ := h.accepted _ hcache
    rw [hparse] at hargs'
    exact Option.some.inj hargs' ▸ haccepted

/-- The start is sound exactly when a block size is rejected, an argument is missing, or the
configuration is valid. -/
theorem startEmulator_sound_iff (options : List CacheOption) :
    Start.Sound options ↔
      (∃ B, .B B ∈ options ∧ B ≠ -1 ∧ ¬∃ b, 3 ≤ b ∧ B.toInt = 2 ^ b) ∨
      ∃ args, CacheArgs.parse options = some args ∧ (args.missing = true ∨ args.Accepted) := by
  rw [← foldlM_option_eq_none_iff options {}]
  change _ ↔ CacheArgs.parse options = none ∨ _
  cases hparse : CacheArgs.parse options with
  | none =>
    have hstart : startEmulator options = .exited := by
      unfold startEmulator
      rw [hparse]
    refine ⟨fun _ ↦ .inl rfl, fun _ ↦ Start.sound_of_cacheless ?_ fun cache ↦ ?_⟩
    · rw [hstart]
      exact Start.noConfusion
    · rw [hstart]
      exact Start.noConfusion
  | some args =>
    constructor
    · intro hsound
      refine .inr ⟨args, rfl, ?_⟩
      cases hmissing : args.missing with
      | true => exact .inl rfl
      | false => exact .inr (hsound.accepted_of_parse hparse hmissing)
    · rintro (hnone | ⟨args', hargs', hmissing | haccepted⟩)
      · cases hnone
      · obtain rfl : args = args' := Option.some.inj hargs'
        have hstart : startEmulator options = .started none := by
          rw [startEmulator_of_parse hparse, CacheArgs.initCache, hmissing]
          rfl
        refine Start.sound_of_cacheless ?_ fun cache hcache ↦ ?_
        · rw [hstart]
          exact Start.noConfusion
        · rw [hstart] at hcache
          cases hcache
      · exact haccepted.sound (hparse.trans hargs')

/-- With three sets the addresses 0 and 8 share a set and a tag. -/
theorem startEmulator_unsound : ¬∀ options, Start.Sound options := by
  intro hclaim
  have hstart : startEmulator [.A 1, .B 8, .C 24, .d 1] = .started (some (createCache 1 8 24 1)) :=
    rfl
  have hblock := (hclaim [.A 1, .B 8, .C 24, .d 1]).block _ hstart 0 8 (by decide +kernel)
    (by decide +kernel)
  revert hblock
  decide +kernel

end SystemEmulator
