import SystemEmulator.Memory.CachedBytes
import SystemEmulator.Replacement.CacheOps

/-!
# Caches with different histories

A set whose matrix has been cleared remembers only the accesses since then.  It is compared with the
set that remembers all of them: the lines accessed since come first in both orders, and of the rest
the one takes the line accessed least recently and the other the first one.
-/

namespace SystemEmulator

open Recency Result Transducer

/-- Two sets with the same tags.  The first has been accessed in the order `since ++ rest`, and the
second remembers the accesses `since` only. -/
structure TwinSets (A : ℕ) (set set' : CacheSet) (since rest : List ℕ) : Prop where
  valid : ∀ i, (set'.lines i).valid = (set.lines i).valid
  tag : ∀ i, (set'.lines i).tag = (set.lines i).tag
  nodup : (since ++ rest).Nodup
  mem_iff : ∀ i, i ∈ since ++ rest ↔ i < A ∧ (set.lines i).valid = true
  matrix : MatrixOf A (since ++ rest) set.lru_matrix
  matrix' : MatrixOf A since set'.lru_matrix
  next_lru : ∀ front last, since ++ rest = front ++ [last] → (since ++ rest).length = A →
    set.next_lru = last
  next_rest : ∀ i < A, i ∉ since → (∀ j < i, j ∈ since) → set'.next_lru = i
  next_since : ∀ front last, since = front ++ [last] → since.length = A → set'.next_lru = last

namespace TwinSets

variable {A : ℕ} {set set' : CacheSet} {since rest : List ℕ}

theorem lt (h : TwinSets A set set' since rest) {i : ℕ} (hi : i ∈ since ++ rest) : i < A :=
  ((h.mem_iff i).mp hi).1

/-- An access to a line, by which it gets the same tag in both sets. -/
theorem touchLine (h : TwinSets A set set' since rest) (hA : A ≤ 8) {i : ℕ} (hi : i < A)
    {line line' : CacheLine} (hvalid : line.valid = true) (hvalid' : line'.valid = true)
    (htag : line'.tag = line.tag) :
    TwinSets A (set.touchLine A i line) (set'.touchLine A i line') (touch i since)
      (rest.erase i) := by
  have hall : ∀ {order : List ℕ}, (∀ j ∈ order, j < A) → ∀ j ∈ touch i order, j < A := by
    intro order hlt j hj
    rcases mem_touch.mp hj with rfl | hj
    · exact hi
    · exact hlt j hj
  have hsince : ∀ j ∈ since, j < A := fun j hj ↦ h.lt (List.mem_append_left _ hj)
  have hnodup := nodup_touch h.nodup i
  have hnodup' := nodup_touch (List.Nodup.of_append_left h.nodup) i
  rw [← touch_append h.nodup] at hnodup
  have hmatrix := h.matrix.lruUpdate hA hi
  rw [← touch_append h.nodup] at hmatrix
  have hmem : ∀ j, j ∈ touch i since ++ rest.erase i ↔ j = i ∨ j ∈ since ++ rest := fun j ↦ by
    rw [touch_append h.nodup, mem_touch]
  refine ⟨fun j ↦ ?_, fun j ↦ ?_, hnodup, fun j ↦ ?_, hmatrix, h.matrix'.lruUpdate hA hi, ?_, ?_,
    ?_⟩
  · rw [CacheSet.touchLine_lines, CacheSet.touchLine_lines]
    by_cases hj : j = i
    · rw [hj, Function.update_self, Function.update_self, hvalid, hvalid']
    · rw [Function.update_of_ne hj, Function.update_of_ne hj]
      exact h.valid j
  · rw [CacheSet.touchLine_lines, CacheSet.touchLine_lines]
    by_cases hj : j = i
    · rw [hj, Function.update_self, Function.update_self, htag]
    · rw [Function.update_of_ne hj, Function.update_of_ne hj]
      exact h.tag j
  · rw [hmem, h.mem_iff, CacheSet.touchLine_lines]
    by_cases hj : j = i
    · simp [hj, hi, hvalid]
    · simp [hj]
  · intro front last hsplit hlength
    have hlt : ∀ j ∈ touch i since ++ rest.erase i, j < A := by
      rw [touch_append h.nodup]
      exact hall fun j ↦ h.lt
    exact hmatrix.lruSelect_last hA hnodup
      (fun j ↦ ⟨hlt j, mem_of_length_eq hnodup hlt hlength⟩) hsplit
  · intro j hj hnot hbelow
    exact (h.matrix'.lruUpdate hA hi).lruSelect_of_notMem hA hj hnot hbelow
  · intro front last hsplit hlength
    exact (h.matrix'.lruUpdate hA hi).lruSelect_last hA hnodup'
      (fun j ↦ ⟨hall hsince j, mem_of_length_eq hnodup' (hall hsince) hlength⟩) hsplit

/-- A change of the data of a line. -/
theorem putLine (h : TwinSets A set set' since rest) {i : ℕ} {line line' : CacheLine}
    (hvalid : line.valid = (set.lines i).valid) (htag : line.tag = (set.lines i).tag)
    (hvalid' : line'.valid = (set'.lines i).valid) (htag' : line'.tag = (set'.lines i).tag) :
    TwinSets A (set.putLine i line) (set'.putLine i line') since rest := by
  have hsame : ∀ {set : CacheSet} {line : CacheLine}, line.valid = (set.lines i).valid →
      line.tag = (set.lines i).tag → ∀ j, ((set.putLine i line).lines j).valid =
        (set.lines j).valid ∧ ((set.putLine i line).lines j).tag = (set.lines j).tag := by
    intro set line hvalid htag j
    change (Function.update set.lines i line j).valid = _ ∧
      (Function.update set.lines i line j).tag = _
    by_cases hj : j = i
    · rw [hj, Function.update_self]
      exact ⟨hvalid, htag⟩
    · rw [Function.update_of_ne hj]
      exact ⟨rfl, rfl⟩
  refine ⟨fun j ↦ ?_, fun j ↦ ?_, h.nodup, fun j ↦ ?_, h.matrix, h.matrix', h.next_lru,
    h.next_rest, h.next_since⟩
  · rw [(hsame hvalid' htag' j).1, (hsame hvalid htag j).1, h.valid]
  · rw [(hsame hvalid' htag' j).2, (hsame hvalid htag j).2, h.tag]
  · rw [(hsame hvalid htag j).1, h.mem_iff]

/-- In a full set the second set chooses the first line not accessed since. -/
theorem next_first (h : TwinSets A set set' since rest) {i : ℕ} (hi : i ∈ rest)
    (hfirst : ∀ j ∈ rest, i ≤ j) (hfull : (since ++ rest).length = A) : set'.next_lru = i := by
  have hdisjoint := List.disjoint_of_nodup_append h.nodup
  have hlt := h.lt (List.mem_append_right since hi)
  refine h.next_rest i hlt (fun hmem ↦ hdisjoint hmem hi) fun j hj ↦ ?_
  have hmem : j ∈ since ++ rest :=
    mem_of_length_eq h.nodup (fun _ ↦ h.lt) hfull (hj.trans hlt)
  rcases List.mem_append.mp hmem with hsince | hrest
  · exact hsince
  · have hle := hfirst j hrest
    omega

/-- The sets choose the same line when the rest was accessed in the order of the lines. -/
theorem next_eq (h : TwinSets A set set' since rest) (hA : 1 ≤ A)
    (hrest : rest.Pairwise (· > ·)) (hfull : (since ++ rest).length = A) :
    set'.next_lru = set.next_lru := by
  rcases List.eq_nil_or_concat rest with rfl | ⟨front, last, hsplit⟩
  · rw [List.append_nil] at hfull
    rcases List.eq_nil_or_concat since with rfl | ⟨front, last, hsplit⟩
    · rw [List.length_nil] at hfull
      omega
    · rw [List.concat_eq_append] at hsplit
      rw [h.next_since front last hsplit hfull,
        h.next_lru front last (by rw [List.append_nil, hsplit]) (by rw [List.append_nil, hfull])]
  · rw [List.concat_eq_append] at hsplit
    rw [h.next_lru (since ++ front) last (by rw [hsplit, List.append_assoc]) hfull]
    refine h.next_first (by simp [hsplit]) (fun j hj ↦ ?_) hfull
    rw [hsplit] at hj hrest
    rcases List.mem_append.mp hj with hfront | hlast
    · exact le_of_lt ((List.pairwise_append.mp hrest).2.2 j hfront last
        (List.mem_singleton_self last))
    · exact le_of_eq (List.mem_singleton.mp hlast).symm

end TwinSets

/-! ## Caches -/

/-- Two sets that no operation tells apart. -/
structure CacheSet.Alike (A : ℕ) (set set' : CacheSet) : Prop where
  lines : set'.lines = set.lines
  twins : ∃ since rest, TwinSets A set set' since rest ∧ rest.Pairwise (· > ·)

/-- Two caches of the same shape that no operation tells apart. -/
structure Cache.Alike (cache cache' : Cache) : Prop where
  shape : ∃ sets, cache' = { cache with sets := sets }
  sets : ∀ idx < cache.S, CacheSet.Alike cache.A (cache.sets idx) (cache'.sets idx)

section

variable {cache : Cache} {sets' : ℕ → CacheSet} {addr : BitVec 64} {since rest : List ℕ}

theorem TwinSets.getLine_eq
    (h : TwinSets cache.A (cache.getSet addr) (sets' (cache.setIndex addr)) since rest) :
    getLine { cache with sets := sets' } addr = getLine cache addr := by
  unfold getLine
  congr 1
  funext i
  change (((sets' (cache.setIndex addr)).lines i).valid &&
    ((sets' (cache.setIndex addr)).lines i).tag == cache.tagOf addr) = _
  rw [h.valid, h.tag]

/-- The lines that are searched for an invalid one are the same. -/
theorem TwinSets.find_invalid_eq
    (h : TwinSets cache.A (cache.getSet addr) (sets' (cache.setIndex addr)) since rest) :
    (List.range cache.A).find? (fun i ↦ !((sets' (cache.setIndex addr)).lines i).valid) =
      (List.range cache.A).find? fun i ↦ !((cache.getSet addr).lines i).valid := by
  congr 1
  funext i
  rw [h.valid]

/-- In a full set both caches choose what `lru` has computed. -/
theorem TwinSets.selectLine_of_full
    (h : TwinSets cache.A (cache.getSet addr) (sets' (cache.setIndex addr)) since rest)
    (hfull : (since ++ rest).length = cache.A) :
    selectLine cache addr = (cache.getSet addr).next_lru ∧
      selectLine { cache with sets := sets' } addr = (sets' (cache.setIndex addr)).next_lru := by
  have hnone : (List.range cache.A).find?
      (fun i ↦ !((cache.getSet addr).lines i).valid) = none := by
    refine List.find?_eq_none.mpr fun i hi ↦ ?_
    have hmem := mem_of_length_eq h.nodup (fun _ ↦ h.lt) hfull (List.mem_range.mp hi)
    simp [((h.mem_iff i).mp hmem).2]
  constructor
  · rw [selectLine, hnone, Option.getD_none]
  · exact congrArg (Option.getD · _) (h.find_invalid_eq.trans hnone)

/-- In a set that is not full both caches choose the same invalid line. -/
theorem TwinSets.selectLine_of_lt
    (h : TwinSets cache.A (cache.getSet addr) (sets' (cache.setIndex addr)) since rest)
    (hlt : (since ++ rest).length < cache.A) :
    selectLine { cache with sets := sets' } addr = selectLine cache addr ∧
      selectLine cache addr < cache.A ∧ selectLine cache addr ∉ since ++ rest := by
  have hsome : ∃ i, (List.range cache.A).find?
      (fun i ↦ !((cache.getSet addr).lines i).valid) = some i := by
    rw [← Option.isSome_iff_exists, List.find?_isSome]
    by_contra hcontra
    have hall : ∀ i ∈ List.range cache.A, i ∈ since ++ rest := by
      intro i hi
      refine (h.mem_iff i).mpr ⟨List.mem_range.mp hi, ?_⟩
      by_contra hinvalid
      exact hcontra ⟨i, hi, by simpa using hinvalid⟩
    have hle := (List.nodup_range (n := cache.A)).length_le_of_subset hall
    rw [List.length_range] at hle
    omega
  obtain ⟨i, hfind⟩ := hsome
  have hselect : selectLine cache addr = i := by
    rw [selectLine, hfind, Option.getD_some]
  refine ⟨?_, ?_⟩
  · rw [hselect]
    exact congrArg (Option.getD · _) (h.find_invalid_eq.trans hfind)
  · rw [hselect]
    have hinvalid := List.find?_some hfind
    refine ⟨List.mem_range.mp (List.mem_of_find?_eq_some hfind), fun hmem ↦ ?_⟩
    rw [((h.mem_iff i).mp hmem).2] at hinvalid
    cases hinvalid

theorem TwinSets.length_le {A : ℕ} {set set' : CacheSet} (h : TwinSets A set set' since rest) :
    (since ++ rest).length ≤ A := by
  have hsub : since ++ rest ⊆ List.range A := fun i hi ↦ List.mem_range.mpr (h.lt hi)
  have hle := h.nodup.length_le_of_subset hsub
  rwa [List.length_range] at hle

/-- Alike caches replace the same line. -/
theorem CacheSet.Alike.selectLine_eq (hA : 1 ≤ cache.A)
    (h : CacheSet.Alike cache.A (cache.getSet addr) (sets' (cache.setIndex addr))) :
    selectLine { cache with sets := sets' } addr = selectLine cache addr := by
  obtain ⟨since, rest, htwins, hrest⟩ := h.twins
  rcases Nat.lt_or_ge (since ++ rest).length cache.A with hlt | hge
  · exact (htwins.selectLine_of_lt hlt).1
  · have hfull := le_antisymm htwins.length_le hge
    obtain ⟨hselect, hselect'⟩ := htwins.selectLine_of_full hfull
    rw [hselect, hselect', htwins.next_eq hA hrest hfull]

end

/-! ## Steps -/

theorem CacheSet.Alike.touchLine {A : ℕ} {set set' : CacheSet} (h : set.Alike A set') (hA : A ≤ 8)
    {i : ℕ} (hi : i < A) {line : CacheLine} (hvalid : line.valid = true) :
    (set.touchLine A i line).Alike A (set'.touchLine A i line) := by
  obtain ⟨since, rest, htwins, hrest⟩ := h.twins
  refine ⟨?_, touch i since, rest.erase i, htwins.touchLine hA hi hvalid hvalid rfl,
    hrest.sublist List.erase_sublist⟩
  rw [CacheSet.touchLine_lines, CacheSet.touchLine_lines, h.lines]

theorem CacheSet.Alike.putLine {A : ℕ} {set set' : CacheSet} (h : set.Alike A set') {i : ℕ}
    {line : CacheLine} (hvalid : line.valid = (set.lines i).valid)
    (htag : line.tag = (set.lines i).tag) : (set.putLine i line).Alike A (set'.putLine i line) := by
  obtain ⟨since, rest, htwins, hrest⟩ := h.twins
  have hlines := h.lines
  refine ⟨?_, since, rest, htwins.putLine hvalid htag ?_ ?_, hrest⟩
  · unfold CacheSet.putLine
    rw [hlines]
  · rw [hlines, hvalid]
  · rw [hlines, htag]

namespace Cache.Alike

variable {cache cache' : Cache} {b s : ℕ}

theorem getSet (h : cache.Alike cache') (hvalid : cache.Valid b s) (addr : BitVec 64) :
    (cache.getSet addr).Alike cache.A (cache'.getSet addr) := by
  have hidx : cache.setIndex addr < cache.S := by
    rw [hvalid.setIndex_eq, hvalid.S_eq_two_pow]
    exact Nat.mod_lt _ (by positivity)
  obtain ⟨sets', rfl⟩ := h.shape
  exact h.sets _ hidx

theorem putSet (h : cache.Alike cache') {addr : BitVec 64} {set set' : CacheSet}
    (hset : set.Alike cache.A set') : (cache.putSet addr set).Alike (cache'.putSet addr set') := by
  obtain ⟨sets', rfl⟩ := h.shape
  refine ⟨⟨_, rfl⟩, fun idx hidx ↦ ?_⟩
  change CacheSet.Alike cache.A (Function.update cache.sets (cache.setIndex addr) set idx)
    (Function.update sets' (cache.setIndex addr) set' idx)
  by_cases heq : idx = cache.setIndex addr
  · rw [heq, Function.update_self, Function.update_self]
    exact hset
  · rw [Function.update_of_ne heq, Function.update_of_ne heq]
    exact h.sets idx hidx

theorem getLine_eq (h : cache.Alike cache') (hvalid : cache.Valid b s) (addr : BitVec 64) :
    getLine cache' addr = getLine cache addr := by
  obtain ⟨since, rest, htwins, -⟩ := (h.getSet hvalid addr).twins
  obtain ⟨sets', rfl⟩ := h.shape
  exact htwins.getLine_eq

theorem selectLine_eq (h : cache.Alike cache') (hvalid : cache.Valid b s) (addr : BitVec 64) :
    selectLine cache' addr = selectLine cache addr := by
  have hset := h.getSet hvalid addr
  obtain ⟨sets', rfl⟩ := h.shape
  exact hset.selectLine_eq hvalid.A_pos

/-- An operation gives the same result on alike caches and leaves them alike. -/
theorem step (h : cache.Alike cache') (hvalid : cache.Valid b s) (hsafe : cache.LruSafe)
    (n n' : Counters) (op : CacheOp) :
    Matches (fun state state' ↦ state.1.Alike state'.1) (Cache.step (cache, n) op)
      (Cache.step (cache', n') op) := by
  have hgetLine := h.getLine_eq hvalid
  have hselect := h.selectLine_eq hvalid
  have hgetSet := h.getSet hvalid
  have hA := hvalid.A_le
  obtain ⟨sets', hshape⟩ := h.shape
  have hA' : cache'.A ≤ 8 := by rw [hshape]; exact hA
  cases op with
  | checkHit addr operation =>
    change Matches _ ((checkHit cache n addr operation).map _)
      ((checkHit cache' n' addr operation).map _)
    cases hline : getLine cache addr with
    | none =>
      rw [checkHit_of_none hline, checkHit_of_none ((hgetLine addr).trans hline)]
      exact .ok ⟨rfl, h⟩
    | some i =>
      rw [checkHit_of_some hA hline, checkHit_of_some hA' ((hgetLine addr).trans hline)]
      refine .ok ⟨rfl, h.putSet ?_⟩
      have hlines := (hgetSet addr).lines
      rw [hlines, show cache'.A = cache.A by rw [hshape]]
      exact (hgetSet addr).touchLine hA (getLine_lt hline) (getLine_valid hline)
  | handleMiss addr operation incoming_data =>
    change Matches _ ((handleMiss cache n addr operation incoming_data).map _)
      ((handleMiss cache' n' addr operation incoming_data).map _)
    rw [handleMiss_eq hA, handleMiss_eq hA']
    have hevicted : evictedLine cache' addr = evictedLine cache addr := by
      unfold evictedLine
      rw [hselect addr, (hgetSet addr).lines, hshape]
      rfl
    have hmiss : (missCache cache addr operation incoming_data).Alike
        (missCache cache' addr operation incoming_data) := by
      unfold missCache
      refine h.putSet ?_
      rw [hselect addr, show cache'.A = cache.A by rw [hshape],
        show cache'.tagOf addr = cache.tagOf addr by rw [hshape]; rfl]
      exact (hgetSet addr).touchLine hA (hsafe.selectLine_lt addr) rfl
    refine .ok ⟨?_, hmiss⟩
    rw [hevicted, hshape]
  | getWord addr =>
    change Matches _ ((getWordCache cache addr).map _) ((getWordCache cache' addr).map _)
    unfold getWordCache
    rw [hgetLine addr]
    cases getLine cache addr with
    | none => exact .error _
    | some i =>
      refine .ok ⟨?_, h⟩
      rw [(hgetSet addr).lines, show cache'.offset addr = cache.offset addr by rw [hshape]; rfl]
  | setWord addr val =>
    change Matches _ ((setWordCache cache addr val).map _) ((setWordCache cache' addr val).map _)
    unfold setWordCache
    rw [hgetLine addr]
    cases getLine cache addr with
    | none => exact .error _
    | some i =>
      refine .ok ⟨rfl, h.putSet ?_⟩
      rw [(hgetSet addr).lines, show cache'.offset addr = cache.offset addr by rw [hshape]; rfl]
      exact (hgetSet addr).putLine rfl rfl

end Cache.Alike

/-! ## Telling two caches apart -/

/-- The tags of some lines are different, and each belongs to an address of the set. -/
structure Distinct (cache : Cache) (addr : BitVec 64) (lines : List ℕ) : Prop where
  tag_inj : ∀ i ∈ lines, ∀ j ∈ lines,
    ((cache.getSet addr).lines i).tag = ((cache.getSet addr).lines j).tag → i = j
  spelled : ∀ i ∈ lines, ∃ a, cache.setIndex a = cache.setIndex addr ∧
    cache.tagOf a = ((cache.getSet addr).lines i).tag

/-- The block address of an evicted line tells the lines apart. -/
theorem Distinct.eq_of_block_addr {cache : Cache} {sets' : ℕ → CacheSet} {b s : ℕ}
    {addr : BitVec 64} {lines since rest : List ℕ} (h : Distinct cache addr lines)
    (hvalid : cache.Valid b s)
    (htwins : TwinSets cache.A (cache.getSet addr) (sets' (cache.setIndex addr)) since rest)
    (hline : selectLine cache addr ∈ lines)
    (hline' : selectLine { cache with sets := sets' } addr ∈ lines)
    (hblock : (evictedLine cache addr).block_addr =
      (evictedLine { cache with sets := sets' } addr).block_addr) :
    selectLine cache addr = selectLine { cache with sets := sets' } addr := by
  have hvalid' := hvalid.of_sets sets'
  obtain ⟨a, hset, htag⟩ := h.spelled _ hline
  obtain ⟨a', hset', htag'⟩ := h.spelled _ hline'
  have haddr := hvalid.evicted_block_addr hset htag.symm
  have haddr' := @Cache.Valid.evicted_block_addr _ _ _ hvalid' addr a' hset'
    ((htwins.tag _).trans htag'.symm)
  have hnat := congrArg BitVec.toNat (haddr.symm.trans (hblock.trans haddr'))
  rw [hvalid.blockAddress_toNat, hvalid'.blockAddress_toNat] at hnat
  have hsame : SameBlock b a a' := Nat.eq_of_mul_eq_mul_right (by positivity) hnat
  refine h.tag_inj _ hline _ hline' ?_
  rw [← htag, ← htag']
  exact (hvalid.sameBlock_iff.mp hsame).2

/-- A miss in one set of two agreeing caches. -/
theorem agree_missCache {cache cache' : Cache} {n n' : Counters} (hA : cache.A ≤ 8)
    (hA' : cache'.A ≤ 8) {P : CacheOp → Prop} {addr : BitVec 64}
    (hP : P (.handleMiss addr .read fun _ ↦ 0))
    (h : Agree Cache.step Cache.step P (cache, n) (cache', n')) :
    (evictedLine cache addr).block_addr = (evictedLine cache' addr).block_addr ∧
      ∃ m m', Agree Cache.step Cache.step P
        (missCache cache addr .read fun _ ↦ 0, m) (missCache cache' addr .read fun _ ↦ 0, m') := by
  have hstep : ∀ {cache : Cache} {n : Counters}, cache.A ≤ 8 →
      Cache.step (cache, n) (.handleMiss addr .read fun _ ↦ 0) =
        .ok ((evictedLine cache addr).result cache.B, missCache cache addr .read fun _ ↦ 0,
          countEviction n ((cache.getSet addr).lines (selectLine cache addr))) := by
    intro cache n hA
    rw [Cache.step, handleMiss_eq hA]
    rfl
  obtain ⟨hresult, hnext⟩ := h.next hP (hstep hA) (hstep hA')
  refine ⟨?_, _, _, hnext⟩
  unfold EvictedLine.result at hresult
  injection hresult

/-- A miss changes one line of its set only. -/
theorem missCache_getSet {cache : Cache} {addr : BitVec 64} {i : ℕ}
    (hselect : selectLine cache addr = i) :
    (missCache cache addr .read fun _ ↦ 0).getSet addr =
      (cache.getSet addr).touchLine cache.A i { valid := true, tag := cache.tagOf addr } := by
  rw [← hselect]
  exact Cache.getSet_putSet_of_eq rfl _

/-- When both caches select line `i`, a miss moves it to the lines accessed since. -/
theorem TwinSets.miss {b s : ℕ} {cache : Cache} {sets' : ℕ → CacheSet} {addr : BitVec 64}
    {since rest : List ℕ} {i : ℕ} (hvalid : cache.Valid b s)
    (h : TwinSets cache.A (cache.getSet addr) (sets' (cache.setIndex addr)) since rest)
    (hi : i < cache.A) (hselect : selectLine cache addr = i)
    (hselect' : selectLine { cache with sets := sets' } addr = i) :
    TwinSets cache.A ((missCache cache addr .read fun _ ↦ 0).getSet addr)
      ((missCache { cache with sets := sets' } addr .read fun _ ↦ 0).getSet addr)
      (touch i since) (rest.erase i) := by
  rw [missCache_getSet hselect, missCache_getSet hselect']
  exact h.touchLine hvalid.A_le hi rfl rfl rfl

/-- The other lines keep their tags. -/
theorem Distinct.miss {cache : Cache} {addr : BitVec 64} {rest : List ℕ} {i : ℕ}
    (h : Distinct cache addr rest) (hnodup : rest.Nodup) (hselect : selectLine cache addr = i) :
    Distinct (missCache cache addr .read fun _ ↦ 0) addr (rest.erase i) := by
  have hlines : ∀ j ∈ rest.erase i, j ∈ rest ∧
      ((missCache cache addr .read fun _ ↦ 0).getSet addr).lines j =
        (cache.getSet addr).lines j := by
    intro j hj
    obtain ⟨hne, hmem⟩ := (List.Nodup.mem_erase_iff hnodup).mp hj
    rw [missCache_getSet hselect, CacheSet.touchLine_lines, Function.update_of_ne hne]
    exact ⟨hmem, rfl⟩
  refine ⟨fun j hj j' hj' htag ↦ ?_, fun j hj ↦ ?_⟩
  · rw [(hlines j hj).2, (hlines j' hj').2] at htag
    exact h.tag_inj j (hlines j hj).1 j' (hlines j' hj').1 htag
  · rw [(hlines j hj).2]
    exact h.spelled j (hlines j hj).1

/-- In a full set the one cache evicts the line accessed least recently and the other the first of
the lines not accessed since.  The same block leaves both, so these are one line. -/
theorem TwinSets.last_least {b s : ℕ} {cache : Cache} {sets' : ℕ → CacheSet} {addr : BitVec 64}
    {since rest front : List ℕ} {last : ℕ} (hvalid : cache.Valid b s)
    (h : TwinSets cache.A (cache.getSet addr) (sets' (cache.setIndex addr)) since rest)
    (hdistinct : Distinct cache addr rest) (hfull : (since ++ rest).length = cache.A)
    (hsplit : rest = front ++ [last])
    (hblock : (evictedLine cache addr).block_addr =
      (evictedLine { cache with sets := sets' } addr).block_addr) :
    selectLine cache addr = last ∧ selectLine { cache with sets := sets' } addr = last ∧
      ∀ j ∈ rest, last ≤ j := by
  obtain ⟨hselect, hselect'⟩ := h.selectLine_of_full hfull
  have hlast : last ∈ rest := by
    rw [hsplit]
    exact List.mem_append_right _ (List.mem_singleton_self last)
  have hex : ∃ j, j ∈ rest := ⟨last, hlast⟩
  obtain ⟨first, hfirst, hle⟩ : ∃ first ∈ rest, ∀ j ∈ rest, first ≤ j :=
    ⟨Nat.find hex, Nat.find_spec hex, fun j hj ↦ Nat.find_min' hex hj⟩
  rw [h.next_lru (since ++ front) last (by rw [hsplit, List.append_assoc]) hfull] at hselect
  rw [h.next_first hfirst hle hfull] at hselect'
  have heq : last = first := by
    rw [← hselect, ← hselect']
    exact hdistinct.eq_of_block_addr hvalid h (hselect ▸ hlast) (hselect' ▸ hfirst) hblock
  exact ⟨hselect, hselect'.trans heq.symm, heq ▸ hle⟩

/-- If no operation tells the caches apart, the lines not accessed since were accessed in the order
of the lines.  Misses in one set evict them one after another; the induction is on the number of
misses until then, first for the invalid lines and then for the rest. -/
theorem TwinSets.rest_descending {b s : ℕ} {P : CacheOp → Prop} {addr : BitVec 64}
    (hP : P (.handleMiss addr .read fun _ ↦ 0)) (k : ℕ) {cache : Cache} {sets' : ℕ → CacheSet}
    {n n' : Counters} {since rest : List ℕ}
    (hk : cache.A - (since ++ rest).length + rest.length = k) (hvalid : cache.Valid b s)
    (h : TwinSets cache.A (cache.getSet addr) (sets' (cache.setIndex addr)) since rest)
    (hdistinct : Distinct cache addr rest)
    (hagree : Agree Cache.step Cache.step P (cache, n) ({ cache with sets := sets' }, n')) :
    rest.Pairwise (· > ·) := by
  induction k using Nat.strong_induction_on generalizing cache sets' n n' since rest with
  | _ k ih =>
    have hA := hvalid.A_le
    have hA' : ({ cache with sets := sets' } : Cache).A ≤ 8 := hA
    have hnodup := List.Nodup.of_append_right h.nodup
    obtain ⟨hblock, m, m', hnext⟩ := agree_missCache hA hA' hP hagree
    -- one miss, by which line `i` moves to the lines accessed since
    have hmiss : ∀ i < cache.A, selectLine cache addr = i →
        selectLine { cache with sets := sets' } addr = i →
        cache.A - (touch i since ++ rest.erase i).length + (rest.erase i).length < k →
        (rest.erase i).Pairwise (· > ·) := fun i hi hselect hselect' hlt ↦
      @ih _ hlt (missCache cache addr .read fun _ ↦ 0) _ _ _ _ _ rfl
        (hvalid.of_sets _) (h.miss hvalid hi hselect hselect')
        (hdistinct.miss hnodup hselect) hnext
    rcases Nat.lt_or_ge (since ++ rest).length cache.A with hlt | hge
    · obtain ⟨hselect', hi, hnot⟩ := h.selectLine_of_lt hlt
      have hrest : selectLine cache addr ∉ rest := fun hmem ↦
        hnot (List.mem_append_right since hmem)
      have hlength : (touch (selectLine cache addr) since ++
          rest.erase (selectLine cache addr)).length = (since ++ rest).length + 1 := by
        rw [touch_append h.nodup, touch_of_notMem hnot, List.length_cons]
      have hpairwise := hmiss _ hi rfl hselect' (by
        rw [hlength, List.erase_of_not_mem hrest]
        omega)
      rwa [List.erase_of_not_mem hrest] at hpairwise
    · have hfull := le_antisymm h.length_le hge
      rcases List.eq_nil_or_concat rest with rfl | ⟨front, last, hsplit⟩
      · exact List.Pairwise.nil
      rw [List.concat_eq_append] at hsplit
      obtain ⟨hselect, hselect', hle⟩ := h.last_least hvalid hdistinct hfull hsplit hblock
      have hlast : last ∈ since ++ rest := by
        rw [hsplit]
        simp
      have hfront : last ∉ front := by
        rw [hsplit] at hnodup
        exact fun hmem ↦ (List.disjoint_of_nodup_append hnodup) hmem (List.mem_singleton_self last)
      have herase : rest.erase last = front := by
        rw [hsplit, List.erase_append_right _ hfront, List.erase_cons_head, List.append_nil]
      have hlength : (touch last since ++ rest.erase last).length = (since ++ rest).length := by
        rw [touch_append h.nodup, length_touch_of_mem hlast]
      have hpairwise := hmiss last (h.lt hlast) hselect hselect' (by
        have hsize : rest.length = front.length + 1 := by rw [hsplit, List.length_append]; rfl
        rw [hlength, herase]
        omega)
      rw [herase] at hpairwise
      rw [hsplit]
      refine List.pairwise_append.mpr ⟨hpairwise, List.pairwise_singleton _ _, ?_⟩
      intro j hj j' hj'
      rw [List.mem_singleton.mp hj']
      have hne : j ≠ last := fun hcontra ↦ hfront (hcontra ▸ hj)
      have hge' := hle j (by rw [hsplit]; exact List.mem_append_left _ hj)
      omega

end SystemEmulator
