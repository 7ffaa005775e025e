import SystemEmulator.Replacement.Inclusion

/-!
# Reuse

Which accesses of a trace hit can be told from the trace alone: those to a block since whose last
access fewer than `A` different blocks of its set have been accessed.
-/

namespace SystemEmulator

open Recency

def blockOf (B : ℕ) (a : Operation × BitVec 64) : ℕ := a.2.toNat / B

/-- The blocks of one set that a trace accesses, in order. -/
def setBlocks (B S idx : ℕ) (trace : List (Operation × BitVec 64)) : List ℕ :=
  (trace.map (blockOf B)).filter fun block ↦ block % S == idx

/-- The access finds its block when it comes after the trace. -/
def Reuses (A B S : ℕ) (past : List (Operation × BitVec 64)) (a : Operation × BitVec 64) : Prop :=
  let uses := setBlocks B S (blockOf B a % S) past
  blockOf B a ∈ uses ∧ (since uses (blockOf B a)).dedup.length < A

instance (A B S : ℕ) (past : List (Operation × BitVec 64)) (a : Operation × BitVec 64) :
    Decidable (Reuses A B S past a) :=
  inferInstanceAs (Decidable (_ ∧ _))

/-- The accesses of a trace that find their blocks, after those in `past`. -/
def reuseCount (A B S : ℕ) : List (Operation × BitVec 64) → List (Operation × BitVec 64) → ℕ
  | _, [] => 0
  | past, a :: rest =>
      (if Reuses A B S past a then 1 else 0) + reuseCount A B S (past ++ [a]) rest

section

variable {A B S : ℕ}

theorem setBlocks_concat_self (past : List (Operation × BitVec 64)) (a : Operation × BitVec 64) :
    setBlocks B S (blockOf B a % S) (past ++ [a]) =
      setBlocks B S (blockOf B a % S) past ++ [blockOf B a] := by
  unfold setBlocks
  rw [List.map_append, List.filter_append]
  simp

theorem setBlocks_concat_of_ne {idx : ℕ} (past : List (Operation × BitVec 64))
    {a : Operation × BitVec 64} (h : idx ≠ blockOf B a % S) :
    setBlocks B S idx (past ++ [a]) = setBlocks B S idx past := by
  unfold setBlocks
  rw [List.map_append, List.filter_append]
  simp [Ne.symm h]

/-- What the sets of the reference model hold after a trace. -/
structure Recent (A B S : ℕ) (past : List (Operation × BitVec 64)) (ref : ℕ → List RefLine) :
    Prop where
  ok : ∀ idx, RefOk A (ref idx)
  blocks : ∀ idx, refBlocks (ref idx) = (order (setBlocks B S idx past)).take A

theorem recent_empty (A B S : ℕ) : Recent A B S [] fun _ ↦ [] where
  ok _ := ⟨Nat.zero_le _, List.nodup_nil⟩
  blocks _ := List.take_nil.symm

variable {past : List (Operation × BitVec 64)} {state : (ℕ → List RefLine) × Counters}

theorem refAccess_self (state : (ℕ → List RefLine) × Counters) (a : Operation × BitVec 64) :
    (refAccess A B S state a).1 (blockOf B a % S) =
      (refSetAccess A (blockOf B a) a.1 (state.1 (blockOf B a % S)) state.2).1 :=
  Function.update_self _ _ _

theorem refAccess_of_ne (state : (ℕ → List RefLine) × Counters) {a : Operation × BitVec 64}
    {idx : ℕ} (h : idx ≠ blockOf B a % S) : (refAccess A B S state a).1 idx = state.1 idx :=
  Function.update_of_ne h _ _

theorem refAccess_counts (state : (ℕ → List RefLine) × Counters) (a : Operation × BitVec 64) :
    (refAccess A B S state a).2 =
      (refSetAccess A (blockOf B a) a.1 (state.1 (blockOf B a % S)) state.2).2 := rfl

/-- One access to the reference model. -/
theorem Recent.refAccess (h : Recent A B S past state.1) (hA : 1 ≤ A)
    (a : Operation × BitVec 64) :
    Recent A B S (past ++ [a]) (refAccess A B S state a).1 := by
  have hset := h.ok (blockOf B a % S)
  constructor
  · intro idx
    by_cases hidx : idx = blockOf B a % S
    · subst hidx
      rw [refAccess_self]
      exact hset.refSetAccess hA _ a.1 state.2
    · rw [refAccess_of_ne state hidx]
      exact h.ok idx
  · intro idx
    by_cases hidx : idx = blockOf B a % S
    · subst hidx
      rw [refAccess_self, refBlocks_refSetAccess hA hset, h.blocks, access_take,
        setBlocks_concat_self, order_concat]
      rfl
    · rw [refAccess_of_ne state hidx, setBlocks_concat_of_ne past hidx]
      exact h.blocks idx

/-- A block is in its set exactly if it is reused. -/
theorem Recent.mem_iff (h : Recent A B S past state.1) (a : Operation × BitVec 64) :
    blockOf B a ∈ refBlocks (state.1 (blockOf B a % S)) ↔ Reuses A B S past a := by
  rw [h.blocks, mem_take_order_iff]
  rfl

/-- The reference model counts the reuses. -/
theorem Recent.counts (h : Recent A B S past state.1) (a : Operation × BitVec 64) :
    (SystemEmulator.refAccess A B S state a).2.hit_count =
        state.2.hit_count + (if Reuses A B S past a then 1 else 0) ∧
      (SystemEmulator.refAccess A B S state a).2.miss_count =
        state.2.miss_count + (if Reuses A B S past a then 0 else 1) := by
  by_cases hreuse : Reuses A B S past a
  · have hcounts := refSetAccess_counts_hit (A := A) ((h.mem_iff a).mpr hreuse) a.1 state.2
    rw [if_pos hreuse, if_pos hreuse, refAccess_counts, hcounts]
    exact ⟨rfl, rfl⟩
  · have hcounts := refSetAccess_counts_miss (A := A)
      (fun hmem ↦ hreuse ((h.mem_iff a).mp hmem)) a.1 state.2
    rw [if_neg hreuse, if_neg hreuse]
    exact hcounts

/-- A trace after another one. -/
theorem Recent.foldl (h : Recent A B S past state.1) (hA : 1 ≤ A)
    (trace : List (Operation × BitVec 64)) :
    Recent A B S (past ++ trace) (trace.foldl (SystemEmulator.refAccess A B S) state).1 ∧
      (trace.foldl (SystemEmulator.refAccess A B S) state).2.hit_count =
        state.2.hit_count + reuseCount A B S past trace ∧
      (trace.foldl (SystemEmulator.refAccess A B S) state).2.hit_count +
          (trace.foldl (SystemEmulator.refAccess A B S) state).2.miss_count =
        state.2.hit_count + state.2.miss_count + trace.length := by
  induction trace generalizing past state with
  | nil =>
    rw [List.append_nil]
    exact ⟨h, rfl, rfl⟩
  | cons a trace ih =>
    obtain ⟨hrecent, hhits, hsum⟩ := ih (h.refAccess hA a)
    obtain ⟨hhit, hmiss⟩ := h.counts a
    rw [List.append_assoc] at hrecent
    refine ⟨hrecent, ?_, ?_⟩
    · rw [List.foldl_cons, hhits, hhit, reuseCount, Nat.add_assoc]
    · rw [List.foldl_cons, hsum, hhit, hmiss, List.length_cons]
      split <;> omega

end

/-- For every trace, the simulator counts as hits exactly the accesses to a block since whose last
access fewer than `A` different blocks of its set have been accessed, and as misses the others. -/
theorem replayTrace_counts_reuses {A B C d b s : ℕ} (hvalid : (createCache A B C d).Valid b s)
    (trace : List (Operation × BitVec 64)) :
    ∃ cache n, replayTrace (createCache A B C d) {} trace = .ok (cache, n) ∧
      n.hit_count = reuseCount A B (2 ^ s) [] trace ∧
      n.hit_count + n.miss_count = trace.length := by
  obtain ⟨cache, -, hreplay, -⟩ := replayTrace_described trace hvalid
    (describes_createCache A B C d s) {}
  have hempty : Recent A B (2 ^ s) [] ((fun _ ↦ [], {}) : (ℕ → List RefLine) × Counters).1 :=
    recent_empty A B (2 ^ s)
  obtain ⟨-, hhits, hsum⟩ := hempty.foldl hvalid.A_pos trace
  refine ⟨cache, _, hreplay, ?_, ?_⟩
  · exact hhits.trans (Nat.zero_add _)
  · exact hsum.trans (Nat.zero_add _)

/-- A set of two lines: the third block makes the second access to the first one miss. -/
theorem replayTrace_counts_reuses_two_way : ∃ cache n,
    replayTrace (createCache 2 16 32 1) {}
      [(.read, 0x100), (.read, 0x110), (.write, 0x118), (.read, 0x120), (.read, 0x104)] =
        .ok (cache, n) ∧ n.hit_count = 1 ∧ n.miss_count = 4 := by
  have hvalid : (createCache 2 16 32 1).Valid 4 0 :=
    ⟨by decide, by decide, rfl, by decide, rfl, by decide⟩
  obtain ⟨cache, n, hreplay, hhits, hsum⟩ := replayTrace_counts_reuses hvalid
    [(.read, 0x100), (.read, 0x110), (.write, 0x118), (.read, 0x120), (.read, 0x104)]
  have hone : reuseCount 2 16 (2 ^ 0) []
      [(.read, 0x100), (.read, 0x110), (.write, 0x118), (.read, 0x120), (.read, 0x104)] = 1 := by
    decide +kernel
  rw [hone] at hhits
  refine ⟨cache, n, hreplay, hhits, ?_⟩
  change _ = 5 at hsum
  omega

end SystemEmulator
