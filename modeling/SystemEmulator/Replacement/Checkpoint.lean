import SystemEmulator.Replacement.Allocation
import SystemEmulator.Replacement.Representation
import SystemEmulator.Replacement.Twins
import SystemEmulator.Memory.CachedAccess

/-!
# Checkpoints of a cache

`create_checkpoint` copies one byte of each line and none of the replacement state.  The copy is a
cache of its own, but it behaves like the original only as long as the missing parts do not matter.
-/

namespace SystemEmulator

open Recency Relation Result Transducer

/-- The calls that the emulator makes: a block is brought in after a miss, and a word that is read
or written lies inside a block. -/
def CacheOp.Allowed (cache : Cache) : CacheOp → Prop
  | checkHit _ _ => True
  | handleMiss addr _ _ => getLine cache addr = none
  | getWord addr | setWord addr _ => cache.offset addr + 8 ≤ cache.B

instance (cache : Cache) : (op : CacheOp) → Decidable (op.Allowed cache)
  | .checkHit _ _ => inferInstanceAs (Decidable True)
  | .handleMiss addr _ _ => inferInstanceAs (Decidable (getLine cache addr = none))
  | .getWord addr => inferInstanceAs (Decidable (cache.offset addr + 8 ≤ cache.B))
  | .setWord addr _ => inferInstanceAs (Decidable (cache.offset addr + 8 ≤ cache.B))

namespace Heap

def Called (cell : CacheCell) (heap heap' : Heap) : Prop :=
  ∃ op r, op.Allowed (heap.cache cell) ∧ heap.step cell op = .ok (r, heap')

def CalledOn (cell cell' : CacheCell) (heap heap' : Heap) : Prop :=
  ∃ op r, op.InBlock cell.B ∧
    (heap.step cell op = .ok (r, heap') ∨ heap.step cell' op = .ok (r, heap'))

/-- A faithful copy: the same calls give the same results on both caches, and whatever has been
called on them, a call on one does not change the other. -/
structure FaithfulCopy (heap : Heap) (cell copy : CacheCell) : Prop where
  same : Agree (Heap.step copy) (Heap.step cell) (CacheOp.InBlock cell.B) heap heap
  apart : ∀ heap', ReflTransGen (CalledOn cell copy) heap heap' → ∀ op r heap'',
    op.InBlock cell.B →
      (heap'.step copy op = .ok (r, heap'') → heap''.cache cell = heap'.cache cell) ∧
      (heap'.step cell op = .ok (r, heap'') → heap''.cache copy = heap'.cache copy)

end Heap

/-- What `create_checkpoint` leaves out does not matter: the bytes of the valid lines are zero but
for the first one, and the valid lines were last accessed in the order of their indices. -/
def CacheSet.Checkpointable (A B : ℕ) (set : CacheSet) : Prop :=
  (∀ i < A, (set.lines i).valid = true → ∀ k < B, 1 ≤ k → (set.lines i).data k = 0) ∧
    ∀ i < A, (set.lines i).valid = true → ∀ j < i, (set.lines j).valid = true →
      matrixBit A set.lru_matrix i j = true

instance (A B : ℕ) (set : CacheSet) : Decidable (set.Checkpointable A B) :=
  inferInstanceAs (Decidable (_ ∧ _))

/-- What `create_checkpoint` leaves out matters in no set. -/
def Cache.Checkpointable (cache : Cache) : Prop :=
  ∀ idx < cache.S, (cache.sets idx).Checkpointable cache.A cache.B

instance (cache : Cache) : Decidable cache.Checkpointable :=
  inferInstanceAs (Decidable (∀ idx < cache.S, (cache.sets idx).Checkpointable cache.A cache.B))

/-! ## Reachable caches -/

/-- The lines of a reachable cache are in order, and an invalid line has never been used. -/
structure Cache.Used (cache : Cache) (b s : ℕ) : Prop where
  inv : ∃ orders, cache.Inv b s orders
  empty : ∀ idx j, ((cache.sets idx).lines j).valid = false → (cache.sets idx).lines j = {}

theorem Cache.used_createCache {A B C d b s : ℕ} (h : (createCache A B C d).Valid b s) :
    (createCache A B C d).Used b s :=
  ⟨⟨_, Cache.inv_createCache h⟩, fun _ _ _ ↦ rfl⟩

/-- A valid line takes the place of a line. -/
theorem Cache.empty_putSet {cache : Cache}
    (h : ∀ idx j, ((cache.sets idx).lines j).valid = false → (cache.sets idx).lines j = {})
    {addr : BitVec 64} {i : ℕ} {line : CacheLine} {set : CacheSet} (hvalid : line.valid = true)
    (hset : set.lines = Function.update (cache.getSet addr).lines i line) (idx j : ℕ) :
    (((cache.putSet addr set).sets idx).lines j).valid = false →
      ((cache.putSet addr set).sets idx).lines j = {} := by
  change ((Function.update cache.sets (cache.setIndex addr) set idx).lines j).valid = false →
    (Function.update cache.sets (cache.setIndex addr) set idx).lines j = {}
  by_cases hidx : idx = cache.setIndex addr
  · rw [hidx, Function.update_self, hset]
    by_cases hj : j = i
    · rw [hj, Function.update_self, hvalid]
      exact fun hcontra ↦ by cases hcontra
    · rw [Function.update_of_ne hj]
      exact h _ j
  · rw [Function.update_of_ne hidx]
    exact h idx j

theorem Cache.Used.use {cache cache' : Cache} {b s : ℕ} (h : cache.Used b s)
    (huse : CacheUse cache cache') : cache'.Used b s := by
  obtain ⟨orders, hinv⟩ := h.inv
  refine ⟨huse.inv hinv, ?_⟩
  rcases huse.call.writes hinv.valid.A_le with rfl | ⟨addr, i, line, set, rfl, hlines, hvalid, -⟩
  · exact h.empty
  · exact Cache.empty_putSet h.empty hvalid hlines

theorem Cache.Used.step {state state' : Cache × Counters} {b s : ℕ} (h : state.1.Used b s)
    {op : CacheOp} (hop : op.Allowed state.1) {r : CacheResult}
    (hok : Cache.step state op = .ok (r, state')) : state'.1.Used b s := by
  cases op with
  | checkHit addr operation =>
    obtain ⟨r', hcall, hr'⟩ := map_eq_ok.mp hok
    cases hr'
    exact h.use (.checkHit hcall)
  | handleMiss addr operation incoming_data =>
    obtain ⟨r', hcall, hr'⟩ := map_eq_ok.mp hok
    cases hr'
    exact h.use (.handleMiss hop hcall)
  | getWord addr =>
    obtain ⟨val, -, hval⟩ := map_eq_ok.mp hok
    cases hval
    exact h
  | setWord addr val =>
    obtain ⟨cache', hcall, hcache⟩ := map_eq_ok.mp hok
    cases hcache
    exact h.use (.setWordCache hcall)

namespace Heap

theorem Sound.called {heap heap' : Heap} {cell : CacheCell} {b s : ℕ} (h : heap.Sound cell b s)
    (hused : (heap.cache cell).Used b s) (hcall : heap.Called cell heap') :
    heap'.Sound cell b s ∧ (heap'.cache cell).Used b s := by
  obtain ⟨op, r, hop, hok⟩ := hcall
  have hblock : op.InBlock cell.B := by
    cases op with
    | checkHit => trivial
    | handleMiss => trivial
    | getWord => exact hop
    | setWord => exact hop
  have hclip : (op.clip cell.B).Allowed (heap.cache cell) := by
    cases op <;> exact hop
  obtain ⟨⟨r', state⟩, hstep, -, hstores, -⟩ := (h.step_matches hblock).exists_of_ok hok
  refine ⟨(h.step_ok hblock hok).2, ?_⟩
  rw [hstores.self]
  exact hused.step hclip hstep

theorem sound_createCache (config : CacheConfig) (memory : Heap) :
    (memory.createCache config.A config.B config.C config.d).2.Sound
      (memory.createCache config.A config.B config.C config.d).1 config.b config.s := by
  have hcache := memory.cache_createCache config.A config.B config.C config.d
  refine ⟨memory.owns_createCache _ _ _ _, ?_, ?_⟩
  · rw [hcache]
    exact config.valid
  · rw [hcache]
    exact config.lruSafe

/-- What holds of every reachable cache. -/
theorem sound_of_calls (config : CacheConfig) (memory : Heap) {heap : Heap}
    (hcalls : ReflTransGen (Called (memory.createCache config.A config.B config.C config.d).1)
      (memory.createCache config.A config.B config.C config.d).2 heap) :
    heap.Sound (memory.createCache config.A config.B config.C config.d).1 config.b config.s ∧
      (heap.cache (memory.createCache config.A config.B config.C config.d).1).Used
        config.b config.s := by
  induction hcalls with
  | refl =>
    refine ⟨sound_createCache config memory, ?_⟩
    rw [memory.cache_createCache]
    exact Cache.used_createCache config.valid
  | tail _ hcall ih => exact ih.1.called ih.2 hcall

end Heap

/-! ## The copy as a value -/

namespace Cache

variable {cache : Cache} {b s : ℕ}

theorem checkpoint_sets {idx : ℕ} (hidx : idx < cache.S) : cache.checkpoint.sets idx =
    { lines := fun j ↦ ((cache.sets idx).lines j).clip 1, lru_matrix := 0, next_lru := 0 } :=
  if_pos hidx

theorem valid_checkpoint (h : cache.Valid b s) : cache.checkpoint.Valid b s :=
  h.of_sets _

theorem lruSafe_checkpoint (h : cache.LruSafe) : cache.checkpoint.LruSafe := by
  refine ⟨h.A_pos, h.A_le, fun idx ↦ ?_⟩
  by_cases hidx : idx < cache.S
  · left
    rw [checkpoint_sets hidx]
    exact h.A_pos
  · right
    intro i
    have hempty : cache.checkpoint.sets idx = {} := if_neg hidx
    rw [hempty]

/-- The copy has forgotten all accesses. -/
theorem twins_checkpoint {orders : ℕ → List ℕ} (hinv : cache.Inv b s orders) {idx : ℕ}
    (hidx : idx < cache.S) :
    TwinSets cache.A (cache.sets idx) (cache.checkpoint.sets idx) [] (orders idx) := by
  have hset := hinv.sets idx
  rw [checkpoint_sets hidx]
  refine ⟨fun _ ↦ rfl, fun _ ↦ rfl, hset.nodup, hset.mem_iff, hset.matrix, matrixOf_zero _,
    hset.next_lru, fun i _ _ hbelow ↦ ?_, fun front last hsplit ↦ ?_⟩
  · -- nothing has been accessed since, so the first line is the first one
    rcases Nat.eq_zero_or_pos i with rfl | hpos
    · rfl
    · cases hbelow 0 hpos
  · simp at hsplit

/-- The matrix of a set says whether its lines were accessed in the order of their indices. -/
theorem descending_iff {A : ℕ} {set : CacheSet} {order : List ℕ} (h : SetInv A set order) :
    order.Pairwise (· > ·) ↔ ∀ i < A, (set.lines i).valid = true → ∀ j < i,
      (set.lines j).valid = true → matrixBit A set.lru_matrix i j = true := by
  rw [pairwise_iff_before (fun a b hne ↦ by omega) (fun a b hgt ↦ by omega) h.nodup]
  constructor
  · intro hall i hi hvalid j hj hvalid'
    rw [h.matrix i hi j (hj.trans hi)]
    exact hall i ((h.mem_iff i).mpr ⟨hi, hvalid⟩) j ((h.mem_iff j).mpr ⟨hj.trans hi, hvalid'⟩) hj
  · intro hall i hi j hj hlt
    obtain ⟨hi, hvalid⟩ := (h.mem_iff i).mp hi
    obtain ⟨hj, hvalid'⟩ := (h.mem_iff j).mp hj
    rw [← h.matrix i hi j hj]
    exact hall i hi hvalid j hlt hvalid'

/-- A line of which one byte is copied is copied as a whole when its other bytes are zero. -/
theorem clip_one_eq {B : ℕ} {line : CacheLine} (hclip : line.clip B = line)
    (hzero : ∀ k < B, 1 ≤ k → line.data k = 0) : line.clip 1 = line := by
  rw [← hclip]
  unfold CacheLine.clip
  congr 1
  funext k
  by_cases hk : k < 1
  · simp [hk]
  · by_cases hkB : k < B
    · simp [hk, hkB, hzero k hkB (by omega)]
    · simp [hk, hkB]

/-- A copy in which nothing that matters is missing cannot be told from the original. -/
theorem alike_checkpoint (hused : cache.Used b s)
    (hclip : ∀ idx i, ((cache.sets idx).lines i).clip cache.B = (cache.sets idx).lines i)
    (hlines : ∀ idx i, cache.A ≤ i → (cache.sets idx).lines i = {})
    (h : cache.Checkpointable) : cache.Alike cache.checkpoint := by
  obtain ⟨⟨orders, hinv⟩, hempty⟩ := hused
  refine ⟨⟨_, rfl⟩, fun idx hidx ↦ ⟨?_, [], orders idx, twins_checkpoint hinv hidx,
    (descending_iff (hinv.sets idx)).mpr (h idx hidx).2⟩⟩
  rw [checkpoint_sets hidx]
  funext i
  change ((cache.sets idx).lines i).clip 1 = _
  by_cases hi : i < cache.A
  · cases hvalid : ((cache.sets idx).lines i).valid with
    | false => rw [hempty idx i hvalid, CacheLine.clip_empty]
    | true => exact clip_one_eq (hclip idx i) ((h idx hidx).1 i hi hvalid)
  · rw [hlines idx i (Nat.le_of_not_lt hi), CacheLine.clip_empty]

/-- Reading a word shows every byte of a valid line. -/
theorem data_zero_of_agree {P : CacheOp → Prop} {n n' : Counters} (hused : cache.Used b s)
    (hP : ∀ addr, cache.offset addr + 8 ≤ cache.B → P (.getWord addr))
    (hagree : Agree Cache.step Cache.step P (cache, n) (cache.checkpoint, n')) {idx i k : ℕ}
    (hidx : idx < cache.S) (hi : i < cache.A) (hvalid : ((cache.sets idx).lines i).valid = true)
    (hk : k < cache.B) (hpos : 1 ≤ k) : ((cache.sets idx).lines i).data k = 0 := by
  obtain ⟨⟨orders, hinv⟩, -⟩ := hused
  have hmem := ((hinv.sets idx).mem_iff i).mpr ⟨hi, hvalid⟩
  obtain ⟨a, hset, htag⟩ := hinv.spelled idx i hmem
  have hB := hinv.valid.B_eq
  have hpow : 2 ^ 3 ≤ 2 ^ b := Nat.pow_le_pow_right (by norm_num) hinv.valid.b_ge
  obtain ⟨addr, hblock, hoffset⟩ :=
    hinv.valid.exists_offset_eq a (show min k (cache.B - 8) < 2 ^ b by omega)
  obtain ⟨hset', htag'⟩ := hinv.valid.sameBlock_iff.mp hblock
  rw [hset] at hset'
  subst hset'
  have hline : getLine cache addr = some i :=
    (getLine_eq_some (hinv.set addr)).mpr ⟨hmem, (htag'.trans htag).symm⟩
  have hline' : getLine cache.checkpoint addr = some i :=
    (TwinSets.getLine_eq (twins_checkpoint hinv hidx)).trans hline
  have hcopy : (cache.checkpoint.getSet addr).lines i = ((cache.getSet addr).lines i).clip 1 :=
    congrArg (fun set : CacheSet ↦ set.lines i) (checkpoint_sets hidx)
  have hstep : Cache.step (cache, n) (.getWord addr) = .ok
      (.word (wordAt ((cache.getSet addr).lines i).data (cache.offset addr)), (cache, n)) := by
    rw [Cache.step, getWordCache, hline]
    rfl
  have hstep' : Cache.step (cache.checkpoint, n') (.getWord addr) = .ok
      (.word (wordAt (((cache.getSet addr).lines i).clip 1).data (cache.offset addr)),
        (cache.checkpoint, n')) := by
    rw [Cache.step, getWordCache, hline', ← hcopy]
    rfl
  obtain ⟨hword, -⟩ := hagree.next (hP addr (by omega)) hstep hstep'
  injection hword with hword
  rw [wordAt_eq, wordAt_eq] at hword
  have hbyte := congrArg (LittleEndian.byte · (k - cache.offset addr)) hword
  simp only [LittleEndian.byte_word _ (show k - cache.offset addr < 8 by omega) (le_refl 8),
    show cache.offset addr + (k - cache.offset addr) = k by omega] at hbyte
  exact hbyte.trans (if_neg (by omega))

/-- Misses show in which order the lines were accessed. -/
theorem checkpointable_of_agree {P : CacheOp → Prop} {n n' : Counters} (hused : cache.Used b s)
    (hP : ∀ addr, cache.offset addr + 8 ≤ cache.B → P (.getWord addr))
    (hP' : ∀ addr, P (.handleMiss addr .read fun _ ↦ 0))
    (hagree : Agree Cache.step Cache.step P (cache, n) (cache.checkpoint, n')) :
    cache.Checkpointable := by
  intro idx hidx
  refine ⟨fun i hi hvalid k hk hpos ↦ data_zero_of_agree hused hP hagree hidx hi hvalid hk hpos,
    ?_⟩
  obtain ⟨⟨orders, hinv⟩, -⟩ := hused
  refine (descending_iff (hinv.sets idx)).mp ?_
  rcases List.eq_nil_or_concat (orders idx) with hnil | ⟨front, last, hsplit⟩
  · rw [hnil]
    exact List.Pairwise.nil
  · have hlast : last ∈ orders idx := by rw [hsplit]; simp
    obtain ⟨addr, hset, -⟩ := hinv.spelled idx last hlast
    subst hset
    exact TwinSets.rest_descending (hP' addr) _ rfl hinv.valid (twins_checkpoint hinv hidx)
      ⟨(hinv.set addr).tag_inj, hinv.spelled _⟩ hagree

end Cache

/-! ## The copy in memory -/

namespace Heap

variable {heap : Heap} {cell : CacheCell} {b s : ℕ}

/-- Calls on a cache in memory give the results of the same calls on the cache as a value. -/
theorem Sound.outputs_eq (h : heap.Sound cell b s) (ops : List CacheOp)
    (hops : ∀ op ∈ ops, op.InBlock cell.B) :
    outputs (Heap.step cell) heap ops =
      outputs Cache.step (heap.cache cell, heap.counters) (ops.map (CacheOp.clip cell.B)) := by
  refine outputs_eq_of_matches (CacheOp.clip cell.B)
    (fun heap state ↦ heap.Sound cell b s ∧ state = (heap.cache cell, heap.counters)) ?_
    ⟨h, rfl⟩ ops hops
  rintro heap _ ⟨hsound, rfl⟩ op hop
  have hnext : Ensures (heap.step cell op) fun r ↦ r.2.Sound cell b s :=
    fun r hr ↦ (hsound.step_ok hop hr).2
  refine ((hsound.step_matches hop).and_ensures hnext).mono ?_
  rintro r r' ⟨⟨hresult, hstores, hcounters⟩, hsound'⟩
  exact ⟨hresult, hsound', Prod.ext hstores.self.symm hcounters.symm⟩

theorem Sound.B_pos (h : heap.Sound cell b s) : 1 ≤ cell.B := by
  have hB : cell.B = 2 ^ b := h.valid.B_eq
  rw [hB]
  exact Nat.one_le_two_pow

theorem sound_createCheckpoint (h : heap.Sound cell b s) :
    (heap.createCheckpoint cell).2.Sound (heap.createCheckpoint cell).1 b s := by
  have hcache := cache_createCheckpoint h.owns h.B_pos
  refine ⟨owns_createCheckpoint h.owns, ?_, ?_⟩
  · rw [hcache]
    exact Cache.valid_checkpoint h.valid
  · rw [hcache]
    exact Cache.lruSafe_checkpoint h.lruSafe

theorem sound_of_createCheckpoint (h : heap.Sound cell b s) :
    (heap.createCheckpoint cell).2.Sound cell b s := by
  have hcache := cache_of_createCheckpoint h.owns
  refine ⟨(createCheckpoint_built h.owns).kept.owns h.owns, ?_, ?_⟩
  · rw [hcache]
    exact h.valid
  · rw [hcache]
    exact h.lruSafe

/-- A call on one of two separate caches leaves both in use and the other as it is. -/
theorem Sound.calledOn {copy : CacheCell} (h : heap.Sound cell b s) (h' : heap.Sound copy b s)
    (hsep : heap.Separate cell copy) (hB : copy.B = cell.B) {heap' : Heap}
    (hcall : heap.CalledOn cell copy heap') :
    heap'.Sound cell b s ∧ heap'.Sound copy b s ∧ heap'.Separate cell copy := by
  obtain ⟨op, r, hop, hok | hok⟩ := hcall
  · obtain ⟨hstores, hsound⟩ := h.step_ok hop hok
    exact ⟨hsound, h'.of_stores hstores hsep.symm, hstores.pointers.separate hsep⟩
  · obtain ⟨hstores, hsound⟩ := h'.step_ok (hB ▸ hop) hok
    exact ⟨h.of_stores hstores hsep, hsound, hstores.pointers.separate hsep⟩

/-- Whatever has been called on two separate caches, a call on one does not change the other. -/
theorem apart_of_separate {copy : CacheCell} (h : heap.Sound cell b s) (h' : heap.Sound copy b s)
    (hsep : heap.Separate cell copy) (hB : copy.B = cell.B) {heap' : Heap}
    (hcalls : ReflTransGen (CalledOn cell copy) heap heap') {op : CacheOp} {r : CacheResult}
    {heap'' : Heap} (hop : op.InBlock cell.B) :
    (heap'.step copy op = .ok (r, heap'') → heap''.cache cell = heap'.cache cell) ∧
      (heap'.step cell op = .ok (r, heap'') → heap''.cache copy = heap'.cache copy) := by
  have hrun : heap'.Sound cell b s ∧ heap'.Sound copy b s ∧ heap'.Separate cell copy := by
    induction hcalls with
    | refl => exact ⟨h, h', hsep⟩
    | tail _ hcall ih => exact ih.1.calledOn ih.2.1 ih.2.2 hB hcall
  obtain ⟨hsound, hsound', hsep'⟩ := hrun
  constructor
  · intro hok
    exact (hsound'.step_ok (hB ▸ hop) hok).1.others cell hsep'
  · intro hok
    exact (hsound.step_ok hop hok).1.others copy hsep'.symm

end Heap

/-- The calls that are the same for a cache in memory and for its value. -/
def CacheOp.Plain (B : ℕ) (op : CacheOp) : Prop := op.InBlock B ∧ op.clip B = op

theorem CacheOp.plain_clip {B : ℕ} {op : CacheOp} (hop : op.InBlock B) : (op.clip B).Plain B := by
  cases op with
  | handleMiss addr operation incoming_data =>
    refine ⟨trivial, congrArg (handleMiss addr operation) (funext fun k ↦ ?_)⟩
    by_cases hk : k < B
    · simp [hk]
    · simp [hk]
  | checkHit => exact ⟨hop, rfl⟩
  | getWord => exact ⟨hop, rfl⟩
  | setWord => exact ⟨hop, rfl⟩

theorem CacheOp.plain_miss (B : ℕ) (addr : BitVec 64) :
    (CacheOp.handleMiss addr .read fun _ ↦ 0).Plain B :=
  ⟨trivial, congrArg (CacheOp.handleMiss addr .read) (funext fun _ ↦ ite_self _)⟩

/-- Alike caches agree on all calls. -/
theorem Cache.Alike.agree {cache cache' : Cache} {b s : ℕ} (h : cache.Alike cache')
    (hvalid : cache.Valid b s) (hsafe : cache.LruSafe) (n n' : Counters) (P : CacheOp → Prop) :
    Agree Cache.step Cache.step P (cache, n) (cache', n') := by
  refine agree_of_matches
    (fun state state' ↦ state.1.Alike state'.1 ∧ state.1.Valid b s ∧ state.1.LruSafe) ?_
    ⟨h, hvalid, hsafe⟩
  rintro ⟨cache, n⟩ ⟨cache', n'⟩ ⟨halike, hvalid, hsafe⟩ op -
  have hnext : Ensures (Cache.step (cache, n) op) fun r ↦ r.2.1.Valid b s ∧ r.2.1.LruSafe := by
    intro r hr
    have hcalls := Cache.step_call hr
    exact ⟨hvalid.of_geometry (geometry_of_calls hcalls), hsafe.calls hcalls⟩
  refine ((halike.step hvalid hsafe n n' op).and_ensures hnext).mono ?_
  rintro r r' ⟨⟨hresult, halike'⟩, hkept⟩
  exact ⟨hresult, halike', hkept⟩

namespace Heap

variable {heap : Heap} {cell : CacheCell} {b s : ℕ}

/-- The copy in memory gives the results of the original exactly when the values agree. -/
theorem agree_iff (h : heap.Sound cell b s) :
    Agree (Heap.step (heap.createCheckpoint cell).1) (Heap.step cell) (CacheOp.InBlock cell.B)
        (heap.createCheckpoint cell).2 (heap.createCheckpoint cell).2 ↔
      Agree Cache.step Cache.step (CacheOp.Plain cell.B)
        (heap.cache cell, (heap.createCheckpoint cell).2.counters)
        ((heap.cache cell).checkpoint, (heap.createCheckpoint cell).2.counters) := by
  have houtputs := (sound_of_createCheckpoint h).outputs_eq
  have houtputs' : ∀ ops : List CacheOp, (∀ op ∈ ops, op.InBlock cell.B) →
      outputs (Heap.step (heap.createCheckpoint cell).1) (heap.createCheckpoint cell).2 ops =
        outputs Cache.step ((heap.createCheckpoint cell).2.cache (heap.createCheckpoint cell).1,
          (heap.createCheckpoint cell).2.counters) (ops.map (CacheOp.clip cell.B)) :=
    (sound_createCheckpoint h).outputs_eq
  rw [cache_of_createCheckpoint h.owns] at houtputs
  rw [cache_createCheckpoint h.owns h.B_pos] at houtputs'
  constructor
  · intro hagree ops hops
    have hblock : ∀ op ∈ ops, op.InBlock cell.B := fun op hop ↦ (hops op hop).1
    have hmap : ops.map (CacheOp.clip cell.B) = ops :=
      (List.map_congr_left fun op hop ↦ (hops op hop).2).trans (List.map_id ops)
    have hrun := hagree ops hblock
    rw [houtputs ops hblock, houtputs' ops hblock, hmap] at hrun
    exact hrun.symm
  · intro hagree ops hops
    rw [houtputs ops hops, houtputs' ops hops]
    refine (hagree _ fun op hop ↦ ?_).symm
    obtain ⟨op', hop', rfl⟩ := List.mem_map.mp hop
    exact CacheOp.plain_clip (hops op' hop')

/-- A checkpoint of a reachable cache is a faithful copy exactly when what it leaves out does not
matter. -/
theorem createCheckpoint_faithful_iff (config : CacheConfig) (memory : Heap) {heap : Heap}
    (hcalls : ReflTransGen (Called (memory.createCache config.A config.B config.C config.d).1)
      (memory.createCache config.A config.B config.C config.d).2 heap) :
    (heap.createCheckpoint
          (memory.createCache config.A config.B config.C config.d).1).2.FaithfulCopy
        (memory.createCache config.A config.B config.C config.d).1
        (heap.createCheckpoint (memory.createCache config.A config.B config.C config.d).1).1 ↔
      (heap.cache (memory.createCache config.A config.B config.C config.d).1).Checkpointable := by
  obtain ⟨hsound, hused⟩ := sound_of_calls config memory hcalls
  generalize (memory.createCache config.A config.B config.C config.d).1 = cell at hsound hused ⊢
  constructor
  · intro hfaithful
    exact Cache.checkpointable_of_agree hused (fun _ hoffset ↦ ⟨hoffset, rfl⟩)
      (CacheOp.plain_miss cell.B) ((agree_iff hsound).mp hfaithful.same)
  · intro hcheckpointable
    have halike := Cache.alike_checkpoint hused (clip_lines heap cell) (lines_of_ge heap cell)
      hcheckpointable
    refine ⟨(agree_iff hsound).mpr (halike.agree hsound.valid hsound.lruSafe _ _ _), ?_⟩
    intro heap' hcalls op r heap'' hop
    exact apart_of_separate (sound_of_createCheckpoint hsound) (sound_createCheckpoint hsound)
      (separate_createCheckpoint hsound.owns) rfl hcalls hop

def empty : Heap where
  sets := fun _ _ ↦ {}
  lines := fun _ _ ↦ {}
  data := fun _ _ ↦ 0
  sets_end := 0
  lines_end := 0
  data_end := 0
  counters := {}

/-- The memory after those calls of a list that the emulator may make. -/
def afterCalls (cell : CacheCell) (heap : Heap) (ops : List CacheOp) : Heap :=
  ops.foldl (fun heap op ↦
    if op.Allowed (heap.cache cell) then
      match heap.step cell op with
      | .ok (_, heap') => heap'
      | .error _ => heap
    else heap) heap

theorem calls_afterCalls (cell : CacheCell) (heap : Heap) (ops : List CacheOp) :
    ReflTransGen (Called cell) heap (heap.afterCalls cell ops) := by
  induction ops generalizing heap with
  | nil => exact .refl
  | cons op ops ih =>
    unfold afterCalls
    rw [List.foldl_cons]
    by_cases hop : op.Allowed (heap.cache cell)
    · rw [if_pos hop]
      cases hok : heap.step cell op with
      | ok r => exact (ReflTransGen.single ⟨op, r.1, hop, hok⟩).trans (ih r.2)
      | error e => exact ih heap
    · rw [if_neg hop]
      exact ih heap

end Heap

def smallConfig : CacheConfig where
  A := 2
  B := 8
  C := 32
  d := 0
  b := 3
  s := 1
  valid := ⟨by decide, by decide, by decide, by decide, by decide, by decide⟩
  d_lt := by decide

namespace Heap

/-- A small byte has been stored in a block of zeros, and the copy has it too. -/
theorem createCheckpoint_faithful_small :
    let cell := (empty.createCache 2 8 32 0).1
    let heap := (empty.createCache 2 8 32 0).2.afterCalls cell
      [.handleMiss 0x800000 .write fun _ ↦ 0, .setWord 0x800000 7]
    (heap.createCheckpoint cell).2.FaithfulCopy cell (heap.createCheckpoint cell).1 :=
  (createCheckpoint_faithful_iff smallConfig empty (calls_afterCalls _ _ _)).mpr
    (by decide +kernel)

/-- The second byte of a word is lost. -/
theorem not_createCheckpoint_faithful :
    ¬∀ (config : CacheConfig) (memory heap : Heap),
      ReflTransGen (Called (memory.createCache config.A config.B config.C config.d).1)
        (memory.createCache config.A config.B config.C config.d).2 heap →
      (heap.createCheckpoint
        (memory.createCache config.A config.B config.C config.d).1).2.FaithfulCopy
        (memory.createCache config.A config.B config.C config.d).1
        (heap.createCheckpoint (memory.createCache config.A config.B config.C config.d).1).1 := by
  intro hall
  have hfaithful := hall smallConfig empty _ (calls_afterCalls _ _
    [.handleMiss 0x800000 .write fun _ ↦ 0, .setWord 0x800000 0x100])
  have hsame := hfaithful.same [.getWord 0x800000] (by
    intro op hop
    rw [List.mem_singleton.mp hop]
    change _ ≤ _
    decide +kernel)
  revert hsame
  decide +kernel

end Heap

end SystemEmulator
