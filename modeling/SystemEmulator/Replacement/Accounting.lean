import Mathlib.Algebra.BigOperators.Group.Finset.Basic
import Mathlib.Algebra.Order.BigOperators.Group.Finset
import SystemEmulator.Replacement.Reuse

/-!
# Accounting

How the counters of the simulator, the lines that the cache holds in the end, and the trace belong
together.
-/

namespace SystemEmulator

open Recency

namespace Cache

def countLines (cache : Cache) (p : CacheLine → Bool) (idx : ℕ) : ℕ :=
  (List.range cache.A).countP fun i ↦
    ((cache.sets idx).lines i).valid && p ((cache.sets idx).lines i)

def residentLines (cache : Cache) : ℕ :=
  ∑ idx ∈ Finset.range cache.S, cache.countLines (fun _ ↦ true) idx

/-- The lines of a cache that have to be written back. -/
def dirtyLines (cache : Cache) : ℕ :=
  ∑ idx ∈ Finset.range cache.S, cache.countLines CacheLine.dirty idx

end Cache

/-- The lines in the sets of the reference model that satisfy `p`. -/
def refTotal (S : ℕ) (p : RefLine → Bool) (ref : ℕ → List RefLine) : ℕ :=
  ∑ idx ∈ Finset.range S, (ref idx).countP p

/-- The described cache has as many such lines in a set. -/
theorem Describes.countLines {cache : Cache} {s : ℕ} {ref : ℕ → List RefLine}
    {orders : ℕ → List ℕ} (h : Describes s cache ref orders) {p : CacheLine → Bool}
    {q : RefLine → Bool} (hpq : ∀ line block, p line = q ⟨block, line.dirty⟩) (idx : ℕ) :
    cache.countLines p idx = (ref idx).countP q := by
  have hinv := h.inv idx
  have hperm : ((List.range cache.A).filter fun i ↦ ((cache.sets idx).lines i).valid).Perm
      (orders idx) := by
    refine (List.perm_ext_iff_of_nodup (List.nodup_range.filter _) hinv.nodup).mpr fun i ↦ ?_
    rw [List.mem_filter, List.mem_range, hinv.mem_iff]
  rw [h.lines, refLines, List.countP_map, ← hperm.countP_eq, List.countP_filter]
  refine List.countP_congr fun i _ ↦ ?_
  rw [Function.comp_apply, ← hpq, Bool.and_comm]

/-! ## One access -/

section

variable {A B S : ℕ}

/-- One set changes. -/
theorem refTotal_update {ref : ℕ → List RefLine} {idx : ℕ} (hidx : idx < S) (p : RefLine → Bool)
    (lines : List RefLine) :
    refTotal S p (Function.update ref idx lines) + (ref idx).countP p =
      refTotal S p ref + lines.countP p := by
  have hmem : idx ∈ Finset.range S := Finset.mem_range.mpr hidx
  have hrest : ∑ i ∈ (Finset.range S).erase idx, (Function.update ref idx lines i).countP p =
      ∑ i ∈ (Finset.range S).erase idx, (ref i).countP p := by
    refine Finset.sum_congr rfl fun i hi ↦ ?_
    rw [Function.update_of_ne (Finset.ne_of_mem_erase hi)]
  unfold refTotal
  rw [← Finset.add_sum_erase _ _ hmem, ← Finset.add_sum_erase _ (fun i ↦ (ref i).countP p) hmem,
    hrest, Function.update_self]
  omega

/-- The counters and the lines of a set, before and after an access. -/
structure Balanced (operation : Operation) (lines lines' : List RefLine) (n n' : Counters) :
    Prop where
  resident : n'.miss_count + lines.length + n.dirty_eviction_count + n.clean_eviction_count =
    n.miss_count + lines'.length + n'.dirty_eviction_count + n'.clean_eviction_count
  dirty : n'.dirty_eviction_count + lines'.countP RefLine.dirty ≤
    n.dirty_eviction_count + lines.countP RefLine.dirty +
      if operation == .write then 1 else 0

/-- The line of a block and the other lines. -/
theorem countP_dirty_find {lines : List RefLine} {block : ℕ} {line : RefLine}
    (h : lines.find? (fun line ↦ line.block == block) = some line) :
    (if line.dirty then 1 else 0) +
        (lines.filter fun line ↦ line.block != block).countP RefLine.dirty ≤
      lines.countP RefLine.dirty := by
  have hsplit := (List.filter_append_perm (fun line : RefLine ↦ line.block == block)
    lines).countP_eq RefLine.dirty
  have hblock : (line.block == block) = true := by simpa using List.find?_some h
  have hmem : line ∈ lines.filter fun line ↦ line.block == block :=
    List.mem_filter.mpr ⟨List.mem_of_find?_eq_some h, hblock⟩
  have hline : (if line.dirty then 1 else 0) ≤
      (lines.filter fun line ↦ line.block == block).countP RefLine.dirty := by
    split
    · exact List.countP_pos_iff.mpr ⟨line, hmem, ‹_›⟩
    · exact Nat.zero_le _
  rw [List.countP_append] at hsplit
  rw [← hsplit]
  exact Nat.add_le_add_right hline _

/-- A line that has been written to. -/
theorem ite_or_le (dirty : Bool) (operation : Operation) :
    (if (dirty || operation == .write) = true then 1 else 0) ≤
      (if dirty = true then 1 else 0) + if (operation == .write) = true then 1 else 0 := by
  cases dirty <;> cases operation <;> decide

/-- The last block leaves a full set. -/
theorem refSetAccess_concat {front : List RefLine} {victim : RefLine} {block : ℕ}
    {operation : Operation} {n : Counters}
    (h : (front ++ [victim]).find? (fun line ↦ line.block == block) = none)
    (hge : A ≤ (front ++ [victim]).length) :
    refSetAccess A block operation (front ++ [victim]) n =
      (⟨block, operation == .write⟩ :: front,
        if victim.dirty then
          { n with
            miss_count := n.miss_count + 1
            dirty_eviction_count := n.dirty_eviction_count + 1 }
        else
          { n with
            miss_count := n.miss_count + 1
            clean_eviction_count := n.clean_eviction_count + 1 }) := by
  unfold refSetAccess
  rw [h]
  dsimp only
  rw [if_neg (not_lt.mpr hge), List.dropLast_concat, List.getLast?_concat]

/-- An access changes the counters with the lines. -/
theorem balanced_refSetAccess {lines : List RefLine} (h : RefOk A lines) (hA : 1 ≤ A) (block : ℕ)
    (operation : Operation) (n : Counters) :
    Balanced operation lines (refSetAccess A block operation lines n).1 n
      (refSetAccess A block operation lines n).2 := by
  cases hfind : lines.find? (fun line ↦ line.block == block) with
  | some line =>
    have hmem : block ∈ refBlocks lines := by
      by_contra hcontra
      rw [find_block_eq_none.mpr hcontra] at hfind
      cases hfind
    have hlength : (refSetAccess A block operation lines n).1.length = lines.length := by
      have hblocks := congrArg List.length (refBlocks_refSetAccess hA h block operation n)
      rw [access_of_mem hmem ((List.length_map _).trans_le h.length_le), length_touch_of_mem hmem,
        refBlocks, refBlocks, List.length_map, List.length_map] at hblocks
      exact hblocks
    constructor
    · rw [hlength, refSetAccess_of_some hfind]
    · have hrest := countP_dirty_find hfind
      have hwritten := ite_or_le line.dirty operation
      rw [refSetAccess_of_some hfind, List.countP_cons]
      dsimp only
      omega
  | none =>
    by_cases hlt : lines.length < A
    · rw [refSetAccess_of_lt hfind hlt]
      constructor
      · dsimp only
        rw [List.length_cons]
        omega
      · rw [List.countP_cons]
        dsimp only
        omega
    · obtain rfl | ⟨front, victim, rfl⟩ := List.eq_nil_or_concat' lines
      · exact absurd hA hlt
      · rw [refSetAccess_concat hfind (not_lt.mp hlt)]
        constructor
        · rw [List.length_append]
          dsimp only [List.length_cons, List.length_nil]
          cases victim.dirty with
          | true =>
            rw [if_pos rfl]
            dsimp only
            omega
          | false =>
            rw [if_neg Bool.false_ne_true]
            dsimp only
            omega
        · rw [List.countP_append, List.countP_cons, List.countP_singleton]
          cases victim.dirty with
          | true =>
            rw [if_pos rfl, if_pos rfl]
            dsimp only
            omega
          | false =>
            rw [if_neg Bool.false_ne_true, if_neg Bool.false_ne_true]
            dsimp only
            omega

/-! ## Traces -/

/-- The balance of the reference model after a trace. -/
structure RefBalance (S : ℕ) (trace : List (Operation × BitVec 64))
    (state : (ℕ → List RefLine) × Counters) : Prop where
  resident : state.2.miss_count = state.2.dirty_eviction_count + state.2.clean_eviction_count +
    refTotal S (fun _ ↦ true) state.1
  dirty : state.2.dirty_eviction_count + refTotal S RefLine.dirty state.1 ≤
    trace.countP fun a ↦ a.1 == .write

theorem refBalance_empty (S : ℕ) : RefBalance S [] (fun _ ↦ [], {}) where
  resident := by
    unfold refTotal
    simp
  dirty := by
    unfold refTotal
    simp

variable {past : List (Operation × BitVec 64)} {state : (ℕ → List RefLine) × Counters}

/-- One access keeps the balance. -/
theorem RefBalance.refAccess (h : RefBalance S past state) (hrecent : Recent A B S past state.1)
    (hA : 1 ≤ A) (hS : 0 < S) (a : Operation × BitVec 64) :
    RefBalance S (past ++ [a]) (refAccess A B S state a) := by
  have hidx : blockOf B a % S < S := Nat.mod_lt _ hS
  have hset := balanced_refSetAccess (hrecent.ok (blockOf B a % S)) hA (blockOf B a) a.1 state.2
  have hlines : ∀ p, refTotal S p (SystemEmulator.refAccess A B S state a).1 +
      (state.1 (blockOf B a % S)).countP p = refTotal S p state.1 +
        (refSetAccess A (blockOf B a) a.1 (state.1 (blockOf B a % S)) state.2).1.countP p :=
    fun p ↦ refTotal_update hidx p _
  have hall : ∀ lines : List RefLine, lines.countP (fun _ ↦ true) = lines.length :=
    congrFun List.countP_true
  constructor
  · have hresident := hset.resident
    have hbefore := h.resident
    have hchange := hlines fun _ ↦ true
    rw [hall, hall] at hchange
    rw [refAccess_counts]
    omega
  · have hdirty := hset.dirty
    have hbefore := h.dirty
    have hchange := hlines RefLine.dirty
    rw [refAccess_counts, List.countP_append, List.countP_singleton]
    omega

theorem RefBalance.foldl (h : RefBalance S past state) (hrecent : Recent A B S past state.1)
    (hA : 1 ≤ A) (hS : 0 < S) (trace : List (Operation × BitVec 64)) :
    RefBalance S (past ++ trace) (trace.foldl (SystemEmulator.refAccess A B S) state) := by
  induction trace generalizing past state with
  | nil => simpa using h
  | cons a trace ih =>
    have hnext := ih (h.refAccess hrecent hA hS a) (hrecent.refAccess hA a)
    rwa [List.append_assoc] at hnext

end

/-- For every trace: each access is a hit or a miss, a missing block is in the cache in the end
unless it was evicted, and only stores make lines dirty. -/
theorem replayTrace_accounts {A B C d b s : ℕ} (hvalid : (createCache A B C d).Valid b s)
    (trace : List (Operation × BitVec 64)) :
    ∃ cache n, replayTrace (createCache A B C d) {} trace = .ok (cache, n) ∧
      n.hit_count + n.miss_count = trace.length ∧
      n.miss_count = n.dirty_eviction_count + n.clean_eviction_count + cache.residentLines ∧
      n.dirty_eviction_count + cache.dirtyLines ≤ trace.countP fun a ↦ a.1 == .write := by
  obtain ⟨cache, orders, hreplay, hgeometry, hdescribes⟩ := replayTrace_described trace hvalid
    (describes_createCache A B C d s) {}
  change Describes s cache (trace.foldl (refAccess A B (2 ^ s)) (fun _ ↦ [], {})).1 orders
    at hdescribes
  have hS : cache.S = 2 ^ s := (hvalid.of_geometry hgeometry).S_eq_two_pow
  have hempty : Recent A B (2 ^ s) [] ((fun _ ↦ [], {}) : (ℕ → List RefLine) × Counters).1 :=
    recent_empty A B (2 ^ s)
  obtain ⟨-, -, hsum⟩ := hempty.foldl hvalid.A_pos trace
  have hbalance := (refBalance_empty (2 ^ s)).foldl hempty hvalid.A_pos (Nat.two_pow_pos s) trace
  refine ⟨cache, _, hreplay, hsum.trans (Nat.zero_add _), ?_, ?_⟩
  · refine hbalance.resident.trans (congrArg _ ?_)
    unfold refTotal Cache.residentLines
    rw [hS]
    exact Finset.sum_congr rfl fun idx _ ↦ (hdescribes.countLines (fun _ _ ↦ rfl) idx).symm
  · refine le_of_eq_of_le (congrArg _ ?_) hbalance.dirty
    unfold refTotal Cache.dirtyLines
    rw [hS]
    exact Finset.sum_congr rfl fun idx _ ↦ hdescribes.countLines (fun _ _ ↦ rfl) idx

/-- Two sets of two lines: a dirty block is evicted. -/
theorem replayTrace_accounts_two_way : ∃ cache n,
    replayTrace (createCache 2 16 64 1) {}
      (traceAccesses [(.S, 0x100#64), (.L, 0x120#64), (.M, 0x140#64)]) = .ok (cache, n) ∧
      n.hit_count + n.miss_count = 4 ∧ n.miss_count = n.dirty_eviction_count +
        n.clean_eviction_count + cache.residentLines := by
  have hvalid : (createCache 2 16 64 1).Valid 4 1 :=
    ⟨by decide, by decide, rfl, by decide, rfl, by decide⟩
  obtain ⟨cache, n, hreplay, hsum, hresident, -⟩ := replayTrace_accounts hvalid
    (traceAccesses [(.S, 0x100#64), (.L, 0x120#64), (.M, 0x140#64)])
  exact ⟨cache, n, hreplay, hsum, hresident⟩

/-! ## Cold misses -/

def distinctBlocks (B : ℕ) (trace : List (Operation × BitVec 64)) : ℕ :=
  (trace.map (blockOf B)).dedup.length

def distinctIn (B S idx : ℕ) (trace : List (Operation × BitVec 64)) : ℕ :=
  (setBlocks B S idx trace).dedup.length

section

variable {A B S : ℕ} {past : List (Operation × BitVec 64)}

theorem distinctBlocks_eq_sum (hS : 0 < S) (trace : List (Operation × BitVec 64)) :
    distinctBlocks B trace = ∑ idx ∈ Finset.range S, distinctIn B S idx trace := by
  have hmaps : ∀ block ∈ (trace.map (blockOf B)).toFinset, block % S ∈ Finset.range S :=
    fun block _ ↦ Finset.mem_range.mpr (Nat.mod_lt _ hS)
  unfold distinctBlocks distinctIn setBlocks
  rw [← List.card_toFinset, Finset.card_eq_sum_card_fiberwise hmaps]
  refine Finset.sum_congr rfl fun idx _ ↦ ?_
  rw [← List.card_toFinset, List.toFinset_filter]
  simp only [beq_iff_eq]

/-- A block that is not found again has been accessed before only if its set is too small. -/
theorem not_reuses_new {a : Operation × BitVec 64} (h : ¬Reuses A B S past a)
    (hfit : distinctIn B S (blockOf B a % S) past ≤ A) :
    blockOf B a ∉ past.map (blockOf B) := by
  intro hmem
  have huses : blockOf B a ∈ setBlocks B S (blockOf B a % S) past :=
    List.mem_filter.mpr ⟨hmem, beq_iff_eq.mpr rfl⟩
  refine h ⟨huses, lt_of_lt_of_le ?_ hfit⟩
  obtain ⟨back, hback⟩ := order_eq_append huses
  unfold distinctIn
  rw [← (order_perm_dedup (setBlocks B S (blockOf B a % S) past)).length_eq, hback,
    (order_perm_dedup _).symm.length_eq, List.length_append, List.length_cons]
  omega

theorem distinctBlocks_concat (a : Operation × BitVec 64) :
    distinctBlocks B (past ++ [a]) =
      distinctBlocks B past + if blockOf B a ∈ past.map (blockOf B) then 0 else 1 := by
  unfold distinctBlocks
  rw [← List.card_toFinset, ← List.card_toFinset, List.map_append, List.toFinset_append]
  simp only [List.map_cons, List.map_nil, List.toFinset_cons, List.toFinset_nil,
    insert_empty_eq, Finset.union_singleton]
  by_cases hmem : blockOf B a ∈ past.map (blockOf B)
  · rw [if_pos hmem, Finset.insert_eq_of_mem (List.mem_toFinset.mpr hmem), Nat.add_zero]
  · rw [if_neg hmem, Finset.card_insert_of_notMem fun h ↦ hmem (List.mem_toFinset.mp h)]

theorem distinctIn_concat (idx : ℕ) (a : Operation × BitVec 64) :
    distinctIn B S idx past ≤ distinctIn B S idx (past ++ [a]) := by
  unfold distinctIn setBlocks
  rw [← List.card_toFinset, ← List.card_toFinset, List.map_append, List.filter_append]
  refine Finset.card_le_card fun block hblock ↦ ?_
  rw [List.toFinset_append]
  exact Finset.mem_union_left _ hblock

/-- The misses of the reference model and the different blocks of the trace. -/
structure ColdMisses (A B S : ℕ) (past : List (Operation × BitVec 64))
    (state : (ℕ → List RefLine) × Counters) : Prop where
  recent : Recent A B S past state.1
  distinct_le : distinctBlocks B past ≤ state.2.miss_count
  le_distinct : (∀ idx < S, distinctIn B S idx past ≤ A) →
    state.2.miss_count ≤ distinctBlocks B past

theorem coldMisses_empty (A B S : ℕ) : ColdMisses A B S [] (fun _ ↦ [], {}) where
  recent := recent_empty A B S
  distinct_le := Nat.zero_le _
  le_distinct _ := Nat.zero_le _

theorem ColdMisses.refAccess {state : (ℕ → List RefLine) × Counters}
    (h : ColdMisses A B S past state) (hA : 1 ≤ A) (hS : 0 < S) (a : Operation × BitVec 64) :
    ColdMisses A B S (past ++ [a]) (refAccess A B S state a) := by
  obtain ⟨-, hmiss⟩ := h.recent.counts a
  have hcold := h.distinct_le
  refine ⟨h.recent.refAccess hA a, ?_, fun hfit ↦ ?_⟩
  · rw [hmiss, distinctBlocks_concat]
    by_cases hmem : blockOf B a ∈ past.map (blockOf B)
    · rw [if_pos hmem]
      omega
    · have hnew : ¬Reuses A B S past a := fun hreuse ↦ hmem (List.mem_of_mem_filter hreuse.1)
      rw [if_neg hmem, if_neg hnew]
      omega
  · have hfit' : ∀ idx < S, distinctIn B S idx past ≤ A := fun idx hidx ↦
      (distinctIn_concat idx a).trans (hfit idx hidx)
    have hle := h.le_distinct hfit'
    rw [hmiss, distinctBlocks_concat]
    by_cases hreuse : Reuses A B S past a
    · rw [if_pos hreuse]
      omega
    · rw [if_neg hreuse, if_neg (not_reuses_new hreuse (hfit' _ (Nat.mod_lt _ hS)))]
      omega

theorem ColdMisses.foldl {state : (ℕ → List RefLine) × Counters}
    (h : ColdMisses A B S past state) (hA : 1 ≤ A) (hS : 0 < S)
    (trace : List (Operation × BitVec 64)) :
    ColdMisses A B S (past ++ trace) (trace.foldl (SystemEmulator.refAccess A B S) state) := by
  induction trace generalizing past state with
  | nil => simpa using h
  | cons a trace ih =>
    have hnext := ih (h.refAccess hA hS a)
    rwa [List.append_assoc] at hnext

/-- The reference model holds as many blocks of a set as there are, and at most `A`. -/
theorem Recent.total {ref : ℕ → List RefLine} (h : Recent A B S past ref) :
    refTotal S (fun _ ↦ true) ref =
      ∑ idx ∈ Finset.range S, min A (distinctIn B S idx past) := by
  refine Finset.sum_congr rfl fun idx _ ↦ ?_
  have hlength := congrArg List.length (h.blocks idx)
  rw [refBlocks, List.length_map, List.length_take, (order_perm_dedup _).length_eq] at hlength
  rw [List.countP_true, hlength]
  rfl

/-- Lines are evicted unless the blocks of each set fit into it. -/
theorem ColdMisses.evictions_eq_zero_iff {state : (ℕ → List RefLine) × Counters}
    {trace : List (Operation × BitVec 64)} (h : ColdMisses A B S trace state)
    (hbalance : RefBalance S trace state) (hS : 0 < S) :
    state.2.dirty_eviction_count + state.2.clean_eviction_count = 0 ↔
      ∀ idx < S, distinctIn B S idx trace ≤ A := by
  have hresident := hbalance.resident
  have hdistinct := h.distinct_le
  rw [h.recent.total] at hresident
  rw [distinctBlocks_eq_sum hS] at hdistinct
  constructor
  · intro hzero idx hidx
    by_contra hgt
    have hlt : ∑ idx ∈ Finset.range S, min A (distinctIn B S idx trace) <
        ∑ idx ∈ Finset.range S, distinctIn B S idx trace :=
      Finset.sum_lt_sum (fun idx _ ↦ min_le_right _ _)
        ⟨idx, Finset.mem_range.mpr hidx, (min_eq_left (le_of_not_ge hgt)).trans_lt (not_le.mp hgt)⟩
    omega
  · intro hfit
    have hmin : ∑ idx ∈ Finset.range S, min A (distinctIn B S idx trace) =
        ∑ idx ∈ Finset.range S, distinctIn B S idx trace :=
      Finset.sum_congr rfl fun idx hidx ↦ min_eq_right (hfit idx (Finset.mem_range.mp hidx))
    have hmiss := h.le_distinct hfit
    rw [distinctBlocks_eq_sum hS] at hmiss
    omega

end

/-- A block is missed at least once.  No line is evicted exactly when no set has to hold more than
`A` different blocks, and then each block is missed only once. -/
theorem replayTrace_cold_misses {A B C d b s : ℕ} (hvalid : (createCache A B C d).Valid b s)
    (trace : List (Operation × BitVec 64)) :
    ∃ cache n, replayTrace (createCache A B C d) {} trace = .ok (cache, n) ∧
      distinctBlocks B trace ≤ n.miss_count ∧
      (n.dirty_eviction_count + n.clean_eviction_count = 0 ↔
        ∀ idx < 2 ^ s, distinctIn B (2 ^ s) idx trace ≤ A) ∧
      (n.dirty_eviction_count + n.clean_eviction_count = 0 →
        n.miss_count = distinctBlocks B trace) := by
  have hS : 0 < 2 ^ s := Nat.two_pow_pos s
  obtain ⟨cache, orders, hreplay, -⟩ := replayTrace_described trace hvalid
    (describes_createCache A B C d s) {}
  have hcold := (coldMisses_empty A B (2 ^ s)).foldl hvalid.A_pos hS trace
  have hbalance := (refBalance_empty (2 ^ s)).foldl (recent_empty A B (2 ^ s)) hvalid.A_pos hS trace
  have hfit := hcold.evictions_eq_zero_iff hbalance hS
  exact ⟨cache, _, hreplay, hcold.distinct_le, hfit, fun hzero ↦
    le_antisymm (hcold.le_distinct (hfit.mp hzero)) hcold.distinct_le⟩

/-- Two sets of two lines, and two blocks for each set. -/
theorem replayTrace_cold_misses_two_way : ∃ cache n,
    replayTrace (createCache 2 16 64 1) {}
      (traceAccesses [(.S, 0x100#64), (.L, 0x120#64), (.M, 0x110#64), (.L, 0x12f#64)]) =
        .ok (cache, n) ∧ n.miss_count = 3 := by
  have hvalid : (createCache 2 16 64 1).Valid 4 1 :=
    ⟨by decide, by decide, rfl, by decide, rfl, by decide⟩
  obtain ⟨cache, n, hreplay, -, hfit, hcold⟩ := replayTrace_cold_misses hvalid
    (traceAccesses [(.S, 0x100#64), (.L, 0x120#64), (.M, 0x110#64), (.L, 0x12f#64)])
  refine ⟨cache, n, hreplay, hcold (hfit.mpr ?_)⟩
  decide +kernel

end SystemEmulator
