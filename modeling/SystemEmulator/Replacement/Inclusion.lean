import SystemEmulator.Replacement.Reference

/-!
# Inclusion

A cache with more lines in every set, and as many sets, holds every block that the smaller one
holds.  It is a property of least-recently-used replacement: the blocks of the smaller set are the
first ones of the larger set.
-/

namespace SystemEmulator

open Recency

/-! ## One set -/

/-- The blocks of a set, most recently accessed first. -/
def refBlocks (lines : List RefLine) : List ℕ := lines.map RefLine.block

/-- A set of the reference model holds at most `A` blocks, and none of them twice. -/
structure RefOk (A : ℕ) (lines : List RefLine) : Prop where
  length_le : lines.length ≤ A
  nodup : (refBlocks lines).Nodup

theorem find_block_eq_none {lines : List RefLine} {block : ℕ} :
    lines.find? (fun line ↦ line.block == block) = none ↔ block ∉ refBlocks lines := by
  simp [refBlocks, List.find?_eq_none]

/-- The blocks of a set after an access depend on the blocks before it only. -/
theorem refBlocks_refSetAccess {A : ℕ} (hA : 1 ≤ A) {lines : List RefLine} (h : RefOk A lines)
    (block : ℕ) (operation : Operation) (n : Counters) :
    refBlocks (refSetAccess A block operation lines n).1 = access A block (refBlocks lines) := by
  have hlength : (refBlocks lines).length = lines.length := List.length_map _
  cases hfind : lines.find? (fun line ↦ line.block == block) with
  | some line =>
    have hmem : block ∈ refBlocks lines := by
      by_contra hcontra
      rw [find_block_eq_none.mpr hcontra] at hfind
      cases hfind
    rw [refSetAccess_of_some hfind, access_of_mem hmem (hlength ▸ h.length_le), touch,
      h.nodup.erase_eq_filter]
    simp [refBlocks, List.filter_map, Function.comp_def]
  | none =>
    have hnew := find_block_eq_none.mp hfind
    rw [access_of_notMem hnew hA]
    by_cases hlt : lines.length < A
    · rw [refSetAccess_of_lt hfind hlt, List.take_of_length_le (by omega)]
      rfl
    · have hlen : A - 1 = lines.length - 1 := by
        have hle := h.length_le
        omega
      unfold refSetAccess
      rw [hfind]
      simp only [hlt, ↓reduceIte]
      rw [hlen, refBlocks, List.map_cons, List.dropLast_eq_take, refBlocks, List.map_take]

theorem RefOk.refSetAccess {A : ℕ} (hA : 1 ≤ A) {lines : List RefLine} (h : RefOk A lines)
    (block : ℕ) (operation : Operation) (n : Counters) :
    RefOk A (refSetAccess A block operation lines n).1 := by
  have hblocks := refBlocks_refSetAccess hA h block operation n
  constructor
  · have hlength := congrArg List.length hblocks
    rw [refBlocks, List.length_map] at hlength
    rw [hlength]
    exact length_access_le A block _
  · rw [hblocks]
    exact nodup_access h.nodup A block

/-- An access to a block that the set holds counts a hit. -/
theorem refSetAccess_counts_hit {A block : ℕ} {lines : List RefLine} (h : block ∈ refBlocks lines)
    (operation : Operation) (n : Counters) :
    (refSetAccess A block operation lines n).2 = { n with hit_count := n.hit_count + 1 } := by
  cases hfind : lines.find? (fun line ↦ line.block == block) with
  | none => exact absurd h (find_block_eq_none.mp hfind)
  | some line => rw [refSetAccess_of_some hfind]

/-- An access to another block counts a miss. -/
theorem refSetAccess_counts_miss {A block : ℕ} {lines : List RefLine}
    (h : block ∉ refBlocks lines) (operation : Operation) (n : Counters) :
    (refSetAccess A block operation lines n).2.hit_count = n.hit_count ∧
      (refSetAccess A block operation lines n).2.miss_count = n.miss_count + 1 := by
  unfold refSetAccess
  rw [find_block_eq_none.mpr h]
  dsimp only
  split
  · exact ⟨rfl, rfl⟩
  · dsimp only
    split
    · exact ⟨rfl, rfl⟩
    · split <;> exact ⟨rfl, rfl⟩

/-! ## Two caches -/

/-- The larger reference model holds the blocks of the smaller one, in the same order, and has
counted at least as many hits and at most as many misses. -/
structure Included (A₁ A₂ : ℕ) (small large : (ℕ → List RefLine) × Counters) : Prop where
  small_ok : ∀ idx, RefOk A₁ (small.1 idx)
  large_ok : ∀ idx, RefOk A₂ (large.1 idx)
  blocks : ∀ idx, refBlocks (small.1 idx) <+: refBlocks (large.1 idx)
  hits : small.2.hit_count ≤ large.2.hit_count
  misses : large.2.miss_count ≤ small.2.miss_count

section

variable {A₁ A₂ : ℕ} {small large : (ℕ → List RefLine) × Counters}

theorem included_empty (A₁ A₂ : ℕ) : Included A₁ A₂ (fun _ ↦ [], {}) (fun _ ↦ [], {}) where
  small_ok _ := ⟨Nat.zero_le _, List.nodup_nil⟩
  large_ok _ := ⟨Nat.zero_le _, List.nodup_nil⟩
  blocks _ := List.prefix_refl _
  hits := le_rfl
  misses := le_rfl

/-- One access keeps the inclusion. -/
theorem Included.refAccess (h : Included A₁ A₂ small large) (hA₁ : 1 ≤ A₁) (hA : A₁ ≤ A₂)
    (B S : ℕ) (a : Operation × BitVec 64) :
    Included A₁ A₂ (refAccess A₁ B S small a) (refAccess A₂ B S large a) := by
  have hA₂ := hA₁.trans hA
  have hsmall := h.small_ok (a.2.toNat / B % S)
  have hlarge := h.large_ok (a.2.toNat / B % S)
  have hblocks := h.blocks (a.2.toNat / B % S)
  unfold SystemEmulator.refAccess
  constructor
  · intro idx
    by_cases hidx : idx = a.2.toNat / B % S
    · subst hidx
      simpa only [Function.update_self] using hsmall.refSetAccess hA₁ _ a.1 _
    · simpa only [Function.update_of_ne hidx] using h.small_ok idx
  · intro idx
    by_cases hidx : idx = a.2.toNat / B % S
    · subst hidx
      simpa only [Function.update_self] using hlarge.refSetAccess hA₂ _ a.1 _
    · simpa only [Function.update_of_ne hidx] using h.large_ok idx
  · intro idx
    by_cases hidx : idx = a.2.toNat / B % S
    · subst hidx
      simp only [Function.update_self]
      rw [refBlocks_refSetAccess hA₁ hsmall, refBlocks_refSetAccess hA₂ hlarge]
      exact access_prefix hA hblocks _
    · simpa only [Function.update_of_ne hidx] using h.blocks idx
  all_goals
    have hhits := h.hits
    have hmisses := h.misses
    dsimp only
    by_cases hin : a.2.toNat / B ∈ refBlocks (small.1 (a.2.toNat / B % S))
    · -- a hit in both
      rw [refSetAccess_counts_hit hin, refSetAccess_counts_hit (hblocks.subset hin)]
      dsimp only
      omega
    · obtain ⟨hhit, hmiss⟩ := refSetAccess_counts_miss (A := A₁) hin a.1 small.2
      by_cases hin' : a.2.toNat / B ∈ refBlocks (large.1 (a.2.toNat / B % S))
      · rw [refSetAccess_counts_hit hin']
        dsimp only
        omega
      · obtain ⟨hhit', hmiss'⟩ := refSetAccess_counts_miss (A := A₂) hin' a.1 large.2
        omega

/-- A trace keeps the inclusion. -/
theorem Included.foldl (h : Included A₁ A₂ small large) (hA₁ : 1 ≤ A₁) (hA : A₁ ≤ A₂) (B S : ℕ)
    (accesses : List (Operation × BitVec 64)) :
    Included A₁ A₂ (accesses.foldl (SystemEmulator.refAccess A₁ B S) small)
      (accesses.foldl (SystemEmulator.refAccess A₂ B S) large) := by
  induction accesses generalizing small large with
  | nil => exact h
  | cons a accesses ih => exact ih (h.refAccess hA₁ hA B S a)

end

/-- An access hits exactly if the reference model has its block. -/
theorem Describes.getLine_ne_none_iff {cache : Cache} {b s : ℕ} {ref : ℕ → List RefLine}
    {orders : ℕ → List ℕ} (h : Describes s cache ref orders) (hvalid : cache.Valid b s)
    (addr : BitVec 64) : getLine cache addr ≠ none ↔
      addr.toNat / 2 ^ b ∈ refBlocks (ref (addr.toNat / 2 ^ b % 2 ^ s)) := by
  have hinv : SetInv cache.A (cache.getSet addr) (orders (cache.setIndex addr)) := h.inv _
  have hblocks : refBlocks (ref (cache.setIndex addr)) = refBlocks
      (refLines s (cache.setIndex addr) (cache.getSet addr) (orders (cache.setIndex addr))) :=
    congrArg refBlocks (h.lines _)
  rw [← hvalid.setIndex_eq addr, hblocks, hvalid.block_eq addr]
  cases hline : getLine cache addr with
  | none =>
    have hnone := refLines_find_of_absent s (cache.setIndex addr) ((getLine_eq_none hinv).mp hline)
    simpa using find_block_eq_none.mp hnone
  | some i =>
    obtain ⟨hi, htag⟩ := (getLine_eq_some hinv).mp hline
    have hsome := (refLines_find_of_mem s (cache.setIndex addr) hinv hi htag).1
    refine iff_of_true (by simp) ?_
    by_contra hcontra
    rw [find_block_eq_none.mpr hcontra] at hsome
    cases hsome

/-- The first access after a trace in a cache that is empty at its start: the outcome of `check_hit`
and the counters before it. -/
def accessAfter (cache : Cache) (trace : List (Operation × BitVec 64))
    (a : Operation × BitVec 64) : Except Crash (Bool × Counters) := do
  let (cache, n) ← replayTrace cache {} trace
  let (hit, _, _) ← checkHit cache n a.2 a.1
  pure (hit, n)

theorem accessAfter_eq {A B C d b s : ℕ} (hvalid : (createCache A B C d).Valid b s)
    (trace : List (Operation × BitVec 64)) (a : Operation × BitVec 64) :
    accessAfter (createCache A B C d) trace a =
      .ok (decide (a.2.toNat / 2 ^ b ∈ refBlocks ((trace.foldl (refAccess A B (2 ^ s))
          (fun _ ↦ [], {})).1 (a.2.toNat / 2 ^ b % 2 ^ s))),
        (trace.foldl (refAccess A B (2 ^ s)) (fun _ ↦ [], {})).2) := by
  obtain ⟨cache, orders, hreplay, hgeometry, hdescribes⟩ :=
    replayTrace_described trace hvalid (describes_createCache A B C d s) {}
  change Describes s cache (trace.foldl (refAccess A B (2 ^ s)) (fun _ ↦ [], {})).1 orders
    at hdescribes
  have hvalid' := hvalid.of_geometry hgeometry
  have hiff := hdescribes.getLine_ne_none_iff hvalid' a.2
  unfold accessAfter
  simp only [hreplay, bind, Except.bind]
  cases hline : getLine cache a.2 with
  | none =>
    rw [hline] at hiff
    rw [checkHit_of_none hline, decide_eq_false (hiff.not.mp (by simp))]
    rfl
  | some i =>
    rw [hline] at hiff
    rw [checkHit_of_some hvalid'.A_le hline, decide_eq_true (hiff.mp (by simp))]
    rfl

/-- For every trace and every access after it: it hits in the cache with more lines in every set if
it hits in the one with fewer, and the larger cache has counted at least as many hits and at most as
many misses.  A capacity is an `unsigned int`. -/
theorem lru_inclusion {A₁ A₂ b s d : ℕ} (hA₁ : 1 ≤ A₁) (hA : A₁ ≤ A₂) (hA₂ : A₂ ≤ 8) (hb : 3 ≤ b)
    (hC : A₂ * 2 ^ b * 2 ^ s < 2 ^ 32) (trace : List (Operation × BitVec 64))
    (a : Operation × BitVec 64) :
    ∃ hit₁ n₁ hit₂ n₂,
      accessAfter (createCache A₁ (2 ^ b) (A₁ * 2 ^ b * 2 ^ s) d) trace a = .ok (hit₁, n₁) ∧
      accessAfter (createCache A₂ (2 ^ b) (A₂ * 2 ^ b * 2 ^ s) d) trace a = .ok (hit₂, n₂) ∧
      (hit₁ = true → hit₂ = true) ∧ n₁.hit_count ≤ n₂.hit_count ∧
      n₂.miss_count ≤ n₁.miss_count := by
  have hvalid : ∀ A, 1 ≤ A → A ≤ A₂ →
      (createCache A (2 ^ b) (A * 2 ^ b * 2 ^ s) d).Valid b s := by
    intro A hpos hle
    have hC' : A * 2 ^ b * 2 ^ s ≤ A₂ * 2 ^ b * 2 ^ s :=
      Nat.mul_le_mul_right _ (Nat.mul_le_mul_right _ hle)
    exact ⟨hpos, hle.trans hA₂, rfl, hb, Nat.mul_div_cancel_left _ (by positivity),
      lt_of_le_of_lt hC' hC⟩
  have hincluded := (included_empty A₁ A₂).foldl hA₁ hA (2 ^ b) (2 ^ s) trace
  refine ⟨_, _, _, _, accessAfter_eq (hvalid A₁ hA₁ hA) trace a,
    accessAfter_eq (hvalid A₂ (hA₁.trans hA) le_rfl) trace a, ?_, hincluded.hits,
    hincluded.misses⟩
  rw [decide_eq_true_eq, decide_eq_true_eq]
  exact fun hmem ↦ (hincluded.blocks _).subset hmem

/-- One and two lines of eight bytes; the access after the trace hits in the larger cache only. -/
theorem lru_inclusion_one_two :
    ∃ hit₁ n₁ hit₂ n₂,
      accessAfter (createCache 1 (2 ^ 3) (1 * 2 ^ 3 * 2 ^ 0) 1)
        [(.read, 0x800000), (.write, 0x800008)] (.read, 0x800000) = .ok (hit₁, n₁) ∧
      accessAfter (createCache 2 (2 ^ 3) (2 * 2 ^ 3 * 2 ^ 0) 1)
        [(.read, 0x800000), (.write, 0x800008)] (.read, 0x800000) = .ok (hit₂, n₂) ∧
      (hit₁ = true → hit₂ = true) ∧ n₁.hit_count ≤ n₂.hit_count ∧
      n₂.miss_count ≤ n₁.miss_count :=
  lru_inclusion (by decide) (by decide) (by decide) (by decide) (by decide) _ _

end SystemEmulator
