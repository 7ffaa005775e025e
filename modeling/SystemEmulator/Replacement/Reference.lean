import SystemEmulator.Replacement.Geometry
import SystemEmulator.Replacement.SetInvariant
import SystemEmulator.Memory.Frame

/-!
# The reference model of the cache

A set-associative cache with least-recently-used replacement: every set is a list of at most `A`
blocks, most recently accessed first.  The cache of the emulator counts the same hits, misses and
evictions.
-/

namespace SystemEmulator

open Recency

/-- A block of the reference model; it is dirty when it was written since it was brought in. -/
structure RefLine where
  block : ℕ
  dirty : Bool
  deriving DecidableEq, Repr

def refSetAccess (A block : ℕ) (operation : Operation) (lines : List RefLine) (n : Counters) :
    List RefLine × Counters :=
  match lines.find? (fun line ↦ line.block == block) with
  | some line =>
      (⟨block, line.dirty || operation == .write⟩ ::
          lines.filter (fun line ↦ line.block != block),
        { n with hit_count := n.hit_count + 1 })
  | none =>
      let n := { n with miss_count := n.miss_count + 1 }
      if lines.length < A then (⟨block, operation == .write⟩ :: lines, n)
      else
        (⟨block, operation == .write⟩ :: lines.dropLast,
          match lines.getLast? with
          | none => n
          | some victim =>
              if victim.dirty then
                { n with dirty_eviction_count := n.dirty_eviction_count + 1 }
              else { n with clean_eviction_count := n.clean_eviction_count + 1 })

/-- An access to the reference model with `S` sets of `A` lines of `B` bytes. -/
def refAccess (A B S : ℕ) (state : (ℕ → List RefLine) × Counters)
    (access : Operation × BitVec 64) : (ℕ → List RefLine) × Counters :=
  let block := access.2.toNat / B
  let r := refSetAccess A block access.1 (state.1 (block % S)) state.2
  (Function.update state.1 (block % S) r.1, r.2)

def refLines (s setIdx : ℕ) (set : CacheSet) (order : List ℕ) : List RefLine :=
  order.map fun i ↦ ⟨(set.lines i).tag.toNat * 2 ^ s + setIdx, (set.lines i).dirty⟩

/-! ## One set -/

section

variable {A s idx : ℕ} {set : CacheSet} {order : List ℕ}

theorem refLines_touch (hnodup : order.Nodup) (i : ℕ) (line : CacheLine) :
    refLines s idx (set.touchLine A i line) (touch i order) =
      ⟨line.tag.toNat * 2 ^ s + idx, line.dirty⟩ :: refLines s idx set (order.erase i) := by
  unfold refLines touch
  rw [List.map_cons, CacheSet.touchLine_lines, Function.update_self]
  congr 1
  apply List.map_congr_left
  intro j hj
  have hne : j ≠ i := fun h ↦ hnodup.not_mem_erase (h ▸ hj)
  rw [Function.update_of_ne hne]

/-- A line of a set holds the block exactly when it has its tag. -/
theorem block_beq_iff (i : ℕ) (tag : BitVec 64) :
    ((set.lines i).tag.toNat * 2 ^ s + idx == tag.toNat * 2 ^ s + idx) =
      ((set.lines i).tag == tag) := by
  rw [Bool.eq_iff_iff, beq_iff_eq, beq_iff_eq]
  constructor
  · intro h
    exact BitVec.eq_of_toNat_eq
      (Nat.eq_of_mul_eq_mul_right (show 0 < 2 ^ s by positivity) (by omega))
  · intro h
    rw [h]

/-- The block of a resident line is found, and the others keep their order. -/
theorem refLines_find_of_mem (s idx : ℕ) (h : SetInv A set order) {i : ℕ} (hi : i ∈ order)
    {tag : BitVec 64} (htag : (set.lines i).tag = tag) :
    (refLines s idx set order).find? (fun line ↦ line.block == tag.toNat * 2 ^ s + idx) =
        some ⟨tag.toNat * 2 ^ s + idx, (set.lines i).dirty⟩ ∧
      (refLines s idx set order).filter (fun line ↦ line.block != tag.toNat * 2 ^ s + idx) =
        refLines s idx set (order.erase i) := by
  have hiff : ∀ j ∈ order, ((set.lines j).tag == tag) = (j == i) := by
    intro j hj
    rw [Bool.eq_iff_iff, beq_iff_eq, beq_iff_eq]
    constructor
    · intro hjt
      exact h.tag_inj j hj i hi (hjt.trans htag.symm)
    · intro hji
      rw [hji, htag]
  constructor
  · unfold refLines
    rw [List.find?_map]
    cases hfind : order.find? ((fun line ↦ line.block == tag.toNat * 2 ^ s + idx) ∘
        fun i ↦ (⟨(set.lines i).tag.toNat * 2 ^ s + idx, (set.lines i).dirty⟩ : RefLine)) with
    | none =>
      have hnone := List.find?_eq_none.mp hfind i hi
      simp [htag] at hnone
    | some j =>
      have hmem := List.mem_of_find?_eq_some hfind
      have hblock := List.find?_some hfind
      simp only [Function.comp_apply, block_beq_iff, hiff j hmem, beq_iff_eq] at hblock
      rw [hblock, Option.map_some, htag]
  · unfold refLines
    rw [List.filter_map, h.nodup.erase_eq_filter]
    congr 1
    apply List.filter_congr
    intro j hj
    simp only [Function.comp_apply, bne, block_beq_iff, hiff j hj]

/-- The block of an absent tag is not found. -/
theorem refLines_find_of_absent (s idx : ℕ) {set : CacheSet} {tag : BitVec 64}
    (habsent : ∀ i ∈ order, (set.lines i).tag ≠ tag) :
    (refLines s idx set order).find? (fun line ↦ line.block == tag.toNat * 2 ^ s + idx) = none := by
  unfold refLines
  rw [List.find?_eq_none]
  intro line hline
  obtain ⟨i, hi, rfl⟩ := List.mem_map.mp hline
  rw [block_beq_iff, beq_iff_eq]
  exact habsent i hi

/-- An access to a block that is present. -/
theorem refSetAccess_of_some {A block : ℕ} {operation : Operation} {lines : List RefLine}
    {n : Counters} {line : RefLine}
    (h : lines.find? (fun line ↦ line.block == block) = some line) :
    refSetAccess A block operation lines n =
      (⟨block, line.dirty || operation == .write⟩ ::
          lines.filter (fun line ↦ line.block != block),
        { n with hit_count := n.hit_count + 1 }) := by
  unfold refSetAccess
  rw [h]

/-- An access to a block that is absent, when there is room for it. -/
theorem refSetAccess_of_lt {A block : ℕ} {operation : Operation} {lines : List RefLine}
    {n : Counters} (h : lines.find? (fun line ↦ line.block == block) = none)
    (hlt : lines.length < A) :
    refSetAccess A block operation lines n =
      (⟨block, operation == .write⟩ :: lines, { n with miss_count := n.miss_count + 1 }) := by
  unfold refSetAccess
  rw [h]
  simp only [hlt, ↓reduceIte]

/-- An access to a block that is absent, when the last block has to leave. -/
theorem refSetAccess_of_full {A block : ℕ} {operation : Operation} {lines front : List RefLine}
    {n : Counters} {victim : CacheLine} {number : ℕ}
    (h : lines.find? (fun line ↦ line.block == block) = none) (hge : A ≤ lines.length)
    (hlines : lines = front ++ [⟨number, victim.dirty⟩]) (hvalid : victim.valid = true) :
    refSetAccess A block operation lines n =
      (⟨block, operation == .write⟩ :: front,
        countEviction { n with miss_count := n.miss_count + 1 } victim) := by
  unfold refSetAccess countEviction
  rw [h]
  simp only [not_lt.mpr hge, ↓reduceIte, hvalid, Bool.true_and]
  subst hlines
  rw [List.dropLast_concat, List.getLast?_concat]

/-- A miss of the reference model replaces the line that `select_line` chooses. -/
theorem refSetAccess_miss {cache : Cache} {addr : BitVec 64} {order : List ℕ}
    (hinv : SetInv cache.A (cache.getSet addr) order) (hA : 1 ≤ cache.A) (s idx : ℕ)
    (operation : Operation) (n : Counters) {block : ℕ}
    (hfind : (refLines s idx (cache.getSet addr) order).find?
      (fun line ↦ line.block == block) = none) :
    refSetAccess cache.A block operation (refLines s idx (cache.getSet addr) order) n =
      (⟨block, operation == .write⟩ ::
          refLines s idx (cache.getSet addr) (order.erase (selectLine cache addr)),
        countEviction { n with miss_count := n.miss_count + 1 }
          ((cache.getSet addr).lines (selectLine cache addr))) := by
  have hlength : (refLines s idx (cache.getSet addr) order).length = order.length :=
    List.length_map _
  rcases Nat.lt_or_ge order.length cache.A with hlt | hge
  · -- the chosen line is invalid, so nothing is evicted
    obtain ⟨hselect, hnew⟩ := selectLine_of_lt hinv hlt
    have hinvalid : ((cache.getSet addr).lines (selectLine cache addr)).valid = false := by
      by_contra hcontra
      exact hnew ((hinv.mem_iff _).mpr ⟨hselect, by simpa using hcontra⟩)
    rw [refSetAccess_of_lt hfind (hlength ▸ hlt), List.erase_of_not_mem hnew]
    simp [countEviction, hinvalid]
  · -- the chosen line is the last one of the order
    have hfull : order.length = cache.A := le_antisymm hinv.length_le hge
    obtain ⟨front, hsplit⟩ := selectLine_of_full hinv hA hfull
    have hmem : selectLine cache addr ∈ order := hsplit ▸ List.mem_append_right _ (by simp)
    have hvalid := ((hinv.mem_iff _).mp hmem).2
    have hnodup := hinv.nodup
    have herase : order.erase (selectLine cache addr) = front := by
      rw [hsplit] at hnodup
      have hnot : selectLine cache addr ∉ front := fun hfront ↦
        (List.nodup_append.mp hnodup).2.2 _ hfront _ (List.mem_singleton_self _) rfl
      conv_lhs => rw [hsplit]
      rw [List.erase_append_right _ hnot]
      simp
    have hlines : refLines s idx (cache.getSet addr) order =
        refLines s idx (cache.getSet addr) front ++
          [⟨((cache.getSet addr).lines (selectLine cache addr)).tag.toNat * 2 ^ s + idx,
            ((cache.getSet addr).lines (selectLine cache addr)).dirty⟩] := by
      conv_lhs => rw [hsplit]
      unfold refLines
      rw [List.map_append, List.map_singleton]
    rw [refSetAccess_of_full hfind (hlength ▸ hge) hlines hvalid, herase]

end

/-! ## The whole cache -/

/-- The reference model describes the cache. -/
structure Describes (s : ℕ) (cache : Cache) (ref : ℕ → List RefLine) (orders : ℕ → List ℕ) :
    Prop where
  inv : ∀ idx, SetInv cache.A (cache.sets idx) (orders idx)
  lines : ∀ idx, ref idx = refLines s idx (cache.sets idx) (orders idx)

section

variable {cache : Cache} {b s : ℕ} {ref : ℕ → List RefLine} {orders : ℕ → List ℕ}

/-- Touching a line in the cache and in the reference model keeps the description. -/
theorem Describes.touchLine (h : Describes s cache ref orders) (hA : cache.A ≤ 8)
    (addr : BitVec 64) {i : ℕ} (hi : i < cache.A) {line : CacheLine} (hvalid : line.valid = true)
    (htag : ∀ j ∈ orders (cache.setIndex addr), j ≠ i →
      ((cache.getSet addr).lines j).tag ≠ line.tag) {lines : List RefLine}
    (hlines : lines = ⟨line.tag.toNat * 2 ^ s + cache.setIndex addr, line.dirty⟩ ::
      refLines s (cache.setIndex addr) (cache.getSet addr)
        ((orders (cache.setIndex addr)).erase i)) :
    Describes s (cache.putSet addr ((cache.getSet addr).touchLine cache.A i line))
      (Function.update ref (cache.setIndex addr) lines)
      (Function.update orders (cache.setIndex addr) (touch i (orders (cache.setIndex addr)))) := by
  have hinv := h.inv (cache.setIndex addr)
  constructor
  · intro idx
    by_cases hidx : idx = cache.setIndex addr
    · subst hidx
      simpa [Cache.putSet, Cache.getSet] using hinv.touchLine hA hi hvalid htag
    · simpa [Cache.putSet, Function.update_of_ne hidx] using h.inv idx
  · intro idx
    by_cases hidx : idx = cache.setIndex addr
    · subst hidx
      simp only [Cache.putSet, Function.update_self]
      rw [hlines, refLines_touch hinv.nodup]
    · simpa [Cache.putSet, Function.update_of_ne hidx] using h.lines idx

/-- The reference model sees the set and the block that the cache sees. -/
theorem refAccess_eq (hvalid : cache.Valid b s) (h : Describes s cache ref orders)
    (n : Counters) (addr : BitVec 64) (operation : Operation) {r : List RefLine × Counters}
    (hr : refSetAccess cache.A ((cache.tagOf addr).toNat * 2 ^ s + cache.setIndex addr) operation
      (refLines s (cache.setIndex addr) (cache.getSet addr) (orders (cache.setIndex addr))) n = r) :
    refAccess cache.A cache.B (2 ^ s) (ref, n) (operation, addr) =
      (Function.update ref (cache.setIndex addr) r.1, r.2) := by
  have hmod : addr.toNat / 2 ^ b % 2 ^ s = cache.setIndex addr := (hvalid.setIndex_eq addr).symm
  unfold refAccess
  simp only [hvalid.B_eq, hmod, h.lines]
  rw [hvalid.block_eq]
  change (Function.update ref _ (refSetAccess _ _ _ (refLines _ _ (cache.getSet addr) _) _).1,
    (refSetAccess _ _ _ (refLines _ _ (cache.getSet addr) _) _).2) = _
  rw [hr]

/-- What one access has to achieve. -/
def AccessDescribed (s : ℕ) (cache : Cache) (n : Counters) (addr : BitVec 64)
    (operation : Operation) (r : (ℕ → List RefLine) × Counters) : Prop :=
  ∃ cache' orders', accessData cache n addr operation = .ok (cache', r.2) ∧
    cache'.geometry = cache.geometry ∧ Describes s cache' r.1 orders'

/-- A hit in the cache is a hit in the reference model. -/
theorem accessData_hit (hvalid : cache.Valid b s) (h : Describes s cache ref orders)
    (n : Counters) {addr : BitVec 64} (operation : Operation) {i : ℕ}
    (hline : getLine cache addr = some i) :
    AccessDescribed s cache n addr operation
      (refAccess cache.A cache.B (2 ^ s) (ref, n) (operation, addr)) := by
  have hinv : SetInv cache.A (cache.getSet addr) (orders (cache.setIndex addr)) := h.inv _
  obtain ⟨hi, htag⟩ := (getLine_eq_some hinv).mp hline
  obtain ⟨hfind, hfilter⟩ := refLines_find_of_mem s (cache.setIndex addr) hinv hi htag
  have hother : ∀ j ∈ orders (cache.setIndex addr), j ≠ i →
      ((cache.getSet addr).lines j).tag ≠ (((cache.getSet addr).lines i).access operation).tag :=
    fun j hj hne heq ↦ hne (hinv.tag_inj j hj i hi heq)
  have hdata : accessData cache n addr operation =
      .ok (cache.putSet addr ((cache.getSet addr).touchLine cache.A i
          (((cache.getSet addr).lines i).access operation)),
        { n with hit_count := n.hit_count + 1 }) := by
    unfold accessData
    rw [checkHit_of_some hvalid.A_le hline]
    rfl
  rw [refAccess_eq hvalid h n addr operation (refSetAccess_of_some hfind)]
  have hline' : (((cache.getSet addr).lines i).access operation).valid = true :=
    ((hinv.mem_iff i).mp hi).2
  refine ⟨_, _, hdata, rfl, h.touchLine hvalid.A_le addr (hinv.lt hi) hline' hother ?_⟩
  rw [hfilter, CacheLine.access, htag]

/-- A miss in the cache is a miss in the reference model. -/
theorem accessData_miss (hvalid : cache.Valid b s) (h : Describes s cache ref orders)
    (n : Counters) {addr : BitVec 64} (operation : Operation)
    (hline : getLine cache addr = none) :
    AccessDescribed s cache n addr operation
      (refAccess cache.A cache.B (2 ^ s) (ref, n) (operation, addr)) := by
  have hinv : SetInv cache.A (cache.getSet addr) (orders (cache.setIndex addr)) := h.inv _
  have habsent := (getLine_eq_none hinv).mp hline
  have hfind := refLines_find_of_absent s (cache.setIndex addr) habsent
  have hother : ∀ j ∈ orders (cache.setIndex addr), j ≠ selectLine cache addr →
      ((cache.getSet addr).lines j).tag ≠ cache.tagOf addr := fun j hj _ ↦ habsent j hj
  have hdata : accessData cache n addr operation =
      .ok (missCache cache addr operation fun _ ↦ 0,
        countEviction { n with miss_count := n.miss_count + 1 }
          ((cache.getSet addr).lines (selectLine cache addr))) := by
    unfold accessData
    rw [checkHit_of_none hline]
    simp only [bind, Except.bind, Bool.false_eq_true, ↓reduceIte, handleMiss_eq hvalid.A_le]
    rfl
  rw [refAccess_eq hvalid h n addr operation
    (refSetAccess_miss hinv hvalid.A_pos s _ operation n hfind)]
  exact ⟨_, _, hdata, rfl, h.touchLine hvalid.A_le addr
    (selectLine_lt hinv hvalid.A_pos) rfl hother rfl⟩

/-- Every access to the cache is an access to the reference model. -/
theorem accessData_described (hvalid : cache.Valid b s) (h : Describes s cache ref orders)
    (n : Counters) (addr : BitVec 64) (operation : Operation) :
    AccessDescribed s cache n addr operation
      (refAccess cache.A cache.B (2 ^ s) (ref, n) (operation, addr)) := by
  cases hline : getLine cache addr with
  | none => exact accessData_miss hvalid h n operation hline
  | some i => exact accessData_hit hvalid h n operation hline

end

/-! ## Whole traces -/

theorem Cache.Valid.of_geometry {cache cache' : Cache} {b s : ℕ} (h : cache.Valid b s)
    (hgeometry : cache'.geometry = cache.geometry) : cache'.Valid b s := by
  obtain ⟨hA, hB, hC, -⟩ : cache'.A = cache.A ∧ cache'.B = cache.B ∧ cache'.C = cache.C ∧
      cache'.d = cache.d := by simpa [Cache.geometry] using hgeometry
  exact ⟨hA ▸ h.A_pos, hA ▸ h.A_le, hB ▸ h.B_eq, h.b_ge, by rw [hA, hB, hC, h.S_eq], hC ▸ h.C_lt⟩

/-- A trace keeps the description; the induction is on the trace, from any described cache. -/
theorem replayTrace_described {b s : ℕ} (accesses : List (Operation × BitVec 64)) {cache : Cache}
    (hvalid : cache.Valid b s) {ref : ℕ → List RefLine} {orders : ℕ → List ℕ}
    (h : Describes s cache ref orders) (n : Counters) :
    ∃ cache' orders',
      replayTrace cache n accesses =
        .ok (cache', (accesses.foldl (refAccess cache.A cache.B (2 ^ s)) (ref, n)).2) ∧
      cache'.geometry = cache.geometry ∧
      Describes s cache' (accesses.foldl (refAccess cache.A cache.B (2 ^ s)) (ref, n)).1
        orders' := by
  induction accesses generalizing cache ref orders n with
  | nil => exact ⟨cache, orders, rfl, rfl, h⟩
  | cons access accesses ih =>
    obtain ⟨cache', orders', hdata, hgeometry, hdescribes⟩ :=
      accessData_described hvalid h n access.2 access.1
    obtain ⟨hA, hB, -⟩ : cache'.A = cache.A ∧ cache'.B = cache.B ∧ cache'.C = cache.C ∧
        cache'.d = cache.d := by simpa [Cache.geometry] using hgeometry
    obtain ⟨last, orders'', hlast, hgeometry', hdescribes'⟩ :=
      ih (hvalid.of_geometry hgeometry) hdescribes
        (refAccess cache.A cache.B (2 ^ s) (ref, n) (access.1, access.2)).2
    rw [hA, hB] at hlast hdescribes'
    refine ⟨last, orders'', ?_, hgeometry'.trans hgeometry, hdescribes'⟩
    unfold replayTrace at hlast ⊢
    rw [List.foldlM_cons, hdata]
    change List.foldlM _ (cache', _) accesses = _
    rw [hlast]
    rfl

theorem describes_createCache (A B C d s : ℕ) :
    Describes s (createCache A B C d) (fun _ ↦ []) (fun _ ↦ []) where
  inv := fun _ ↦ setInv_empty A
  lines := fun _ ↦ rfl

/-- The trace simulator counts what a set-associative write-back cache with least-recently-used
replacement counts. -/
theorem replayTrace_counts_lru {A B C d b s : ℕ} (hvalid : (createCache A B C d).Valid b s)
    (trace : List (TraceOp × BitVec 64)) :
    (replayTrace (createCache A B C d) {} (traceAccesses trace)).map (·.2) =
      .ok ((traceAccesses trace).foldl (refAccess A B (2 ^ s)) (fun _ ↦ [], {})).2 := by
  obtain ⟨cache', -, hreplay, -⟩ := replayTrace_described (traceAccesses trace) hvalid
    (describes_createCache A B C d s) {}
  rw [hreplay]
  rfl

/-- Two sets of two lines of 16 bytes, and a trace with a dirty eviction. -/
theorem replayTrace_counts_lru_two_way :
    (createCache 2 16 64 1).Valid 4 1 ∧
      (replayTrace (createCache 2 16 64 1) {}
        (traceAccesses [(.S, 0x100#64), (.L, 0x120#64), (.M, 0x140#64)])).map (·.2) =
        .ok { miss_count := 3, hit_count := 1, dirty_eviction_count := 1 } := by
  have hvalid : (createCache 2 16 64 1).Valid 4 1 :=
    ⟨by decide, by decide, rfl, by decide, rfl, by decide⟩
  refine ⟨hvalid, ?_⟩
  rw [replayTrace_counts_lru hvalid]
  decide +kernel

end SystemEmulator
