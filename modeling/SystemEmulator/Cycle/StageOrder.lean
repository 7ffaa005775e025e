import SystemEmulator.Base.Proc
import Mathlib.Data.List.Permutation

/-!
# The order of the stages

Fetch and memory share the memory and `F_PC`.  The other three stages work on fields of their own
and commute with every stage, so that a cycle depends only on which of fetch and memory comes
first.
-/

namespace SystemEmulator

/-! ## Fetch and memory as a result and a latch -/

/-- What the fetch stage computes from the memory and `F_PC` that it finds: the new memory, the
decode record, and the new `F_PC`. -/
def fetchResult (build : Build) (s : Machine) (mem : Mem) (F_PC : BitVec 64) :
    Except Crash (Mem × DInstr × BitVec 64) :=
  if generatesHlt build s then .ok (mem, generatedHlt s.D_in, F_PC)
  else (imem mem (currentPC build s)).map fun r ↦
    (r.1, fetchedInstr build (currentPC build s) r.2.1 r.2.2,
      fetchedPC build (currentPC build s) r.2.1 r.2.2)

/-- The status that the fetch stage leaves in `F_in`. -/
def latchedStatus (build : Build) (s : Machine) (D_in : DInstr) : Stat :=
  if D_in.status = .ins ∨ D_in.status = .hlt then D_in.status else clearedStatus build s

/-- `F_PC` after the override by a `RET` in decode, which only the build without `PIPE` has. -/
def overriddenPC (build : Build) (s : Machine) (F_PC : BitVec 64) : BitVec 64 :=
  if ¬build.pipe ∧ s.D_out.op = .ret then
    let ret_addr := (regfileRead s.regs (regField s.D_out.insnbits 5) XZR_NUM).1
    if ret_addr ≠ RET_FROM_MAIN_ADDR then ret_addr else F_PC
  else F_PC

def latchFetch (build : Build) (s : Machine) (r : Mem × DInstr × BitVec 64) : Machine :=
  { s with
    mem := r.1
    D_in := r.2.1
    F_PC := overriddenPC build s r.2.2
    F_in := { s.F_in with status := latchedStatus build s r.2.1 }
    F_out := { s.F_out with status := r.2.1.status } }

theorem fetchInstr_eq (build : Build) (s : Machine) :
    fetchInstr build s = (fetchResult build s s.mem s.F_PC).map (latchFetch build s) := by
  unfold fetchInstr fetchResult
  by_cases hhlt : generatesHlt build s
  · simp only [hhlt, ↓reduceIte]
    rfl
  · simp only [hhlt, ↓reduceIte, Bool.false_eq_true]
    cases imem s.mem (currentPC build s) with
    | error crash => rfl
    | ok r => rfl

def latchMemory (build : Build) (s : Machine) (r : Mem × WInstr) : Machine :=
  { s with
    mem := r.1
    W_in := r.2
    M_PC := s.M_out.multipurpose_val - 4
    F_PC := if build.pipe && r.2.status.isError then s.M_out.multipurpose_val - 4 else s.F_PC }

theorem memoryInstr_eq (build : Build) (s : Machine) :
    memoryInstr build s = (accessed s.M_out s.mem).map (latchMemory build s) := by
  unfold memoryInstr
  cases accessed s.M_out s.mem with
  | error crash => rfl
  | ok r => rfl

/-! ## The other three stages commute with everything -/

def touchesMem : ProcStage → Bool
  | .fetch | .memory => true
  | _ => false

/-- A stage that does not reach the memory, as a function on states. -/
def quietStage (s : Machine) : ProcStage → Machine
  | .decode => decodeInstr s
  | .execute => executeInstr s
  | .wback => wbackInstr s
  | _ => s

theorem runStage_eq_quietStage (build : Build) (s : Machine) {stage : ProcStage}
    (h : touchesMem stage = false) : runStage build s stage = .ok (quietStage s stage) := by
  cases stage <;> first | rfl | cases h

theorem quietStage_comm (s : Machine) (stage stage' : ProcStage) :
    quietStage (quietStage s stage) stage' = quietStage (quietStage s stage') stage := by
  cases stage <;> cases stage' <;> rfl

theorem fetchResult_quietStage (build : Build) (s : Machine) (stage : ProcStage) :
    fetchResult build (quietStage s stage) (quietStage s stage).mem (quietStage s stage).F_PC =
      fetchResult build s s.mem s.F_PC := by
  cases stage <;> rfl

theorem latchFetch_quietStage (build : Build) (s : Machine) (stage : ProcStage)
    (r : Mem × DInstr × BitVec 64) :
    latchFetch build (quietStage s stage) r = quietStage (latchFetch build s r) stage := by
  cases stage <;> rfl

theorem latchMemory_quietStage (build : Build) (s : Machine) (stage : ProcStage)
    (r : Mem × WInstr) :
    latchMemory build (quietStage s stage) r = quietStage (latchMemory build s r) stage := by
  cases stage <;> rfl

/-- A stage that reaches the memory commutes with one that does not. -/
theorem runStage_quietStage (build : Build) (s : Machine) {stage : ProcStage}
    (h : touchesMem stage = true) (quiet : ProcStage) :
    runStage build (quietStage s quiet) stage =
      (runStage build s stage).map (quietStage · quiet) := by
  cases stage with
  | fetch =>
    simp only [runStage, fetchInstr_eq, fetchResult_quietStage]
    cases fetchResult build s s.mem s.F_PC with
    | error crash => rfl
    | ok r => exact congrArg Except.ok (latchFetch_quietStage build s quiet r)
  | memory =>
    have hacc : accessed (quietStage s quiet).M_out (quietStage s quiet).mem =
        accessed s.M_out s.mem := by cases quiet <;> rfl
    simp only [runStage, memoryInstr_eq, hacc]
    cases accessed s.M_out s.mem with
    | error crash => rfl
    | ok r => exact congrArg Except.ok (latchMemory_quietStage build s quiet r)
  | decode => cases h
  | execute => cases h
  | wback => cases h

theorem runStages_cons (build : Build) (stage : ProcStage) (order : List ProcStage) (s : Machine) :
    runStages build (stage :: order) s = runStage build s stage >>= runStages build order :=
  List.foldlM_cons

theorem runStages_quietStage (build : Build) (quiet : ProcStage) (order : List ProcStage)
    (horder : ∀ stage ∈ order, touchesMem stage = true) (s : Machine) :
    runStages build order (quietStage s quiet) =
      (runStages build order s).map (quietStage · quiet) := by
  induction order generalizing s with
  | nil => rfl
  | cons stage order ih =>
    rw [runStages_cons, runStages_cons, runStage_quietStage build s (horder stage (by simp))]
    cases runStage build s stage with
    | error crash => rfl
    | ok t => exact ih (fun stage' h ↦ horder stage' (by simp [h])) t

/-- The quiet stages of an order can be moved behind the others. -/
theorem runStages_filter (build : Build) (order : List ProcStage) (s : Machine) :
    runStages build order s =
      (runStages build (order.filter touchesMem) s).map fun t ↦
        (order.filter fun stage ↦ !touchesMem stage).foldl quietStage t := by
  induction order generalizing s with
  | nil => rfl
  | cons stage order ih =>
    rw [runStages_cons]
    by_cases htouch : touchesMem stage
    · simp only [List.filter_cons, htouch, ↓reduceIte, Bool.not_true, Bool.false_eq_true,
        runStages_cons]
      cases runStage build s stage with
      | error crash => rfl
      | ok t => exact ih t
    · have hquiet : touchesMem stage = false := by simpa using htouch
      have hfilter : ∀ stage' ∈ order.filter touchesMem, touchesMem stage' = true :=
        fun stage' h ↦ (List.mem_filter.mp h).2
      simp only [List.filter_cons, hquiet, Bool.false_eq_true, ↓reduceIte, Bool.not_false,
        List.foldl_cons, runStage_eq_quietStage build s hquiet]
      change runStages build order (quietStage s stage) = _
      rw [ih, runStages_quietStage build stage _ hfilter]
      cases runStages build (order.filter touchesMem) s <;> rfl

/-! ## The two orders that remain -/

def quietStages (s : Machine) : Machine := wbackInstr (executeInstr (decodeInstr s))

/-- The state after the five stages, from the memory, the decode record and `F_PC` that fetch and
memory leave, and from the writeback record. -/
def stagesState (build : Build) (s : Machine) (mem : Mem) (D_in : DInstr) (F_PC : BitVec 64)
    (W_in : WInstr) : Machine :=
  { s with
    F_in := { s.F_in with status := latchedStatus build s D_in }
    F_out := { s.F_out with status := D_in.status }
    D_in := D_in
    X_in := decoded s.D_out s.regs
    D_src1 := s.D_out.src1
    D_src2 := s.D_out.src2
    M_in := (executed s.X_out s.NZCV).1
    X_nzcvval := (executed s.X_out s.NZCV).2
    X_set_flags := s.X_out.X_sigs.set_flags
    W_in := W_in
    M_PC := s.M_out.multipurpose_val - 4
    W_wval := s.W_out.wval
    F_PC := F_PC
    mem := mem }

/-- `F_PC` after the memory stage. -/
def faultPC (build : Build) (s : Machine) (W_in : WInstr) (F_PC : BitVec 64) : BitVec 64 :=
  if build.pipe && W_in.status.isError then s.M_out.multipurpose_val - 4 else F_PC

/-- The stages in an order that fetches first. -/
def fetchFirst (build : Build) (s : Machine) (mem : Mem) (F_PC : BitVec 64) :
    Except Crash Machine :=
  fetchResult build s mem F_PC >>= fun r ↦ (accessed s.M_out r.1).map fun q ↦
    stagesState build s q.1 r.2.1 (faultPC build s q.2 (overriddenPC build s r.2.2)) q.2

/-- The stages in an order that fetches after the data access. -/
def memoryFirst (build : Build) (s : Machine) (mem : Mem) (F_PC : BitVec 64) :
    Except Crash Machine :=
  accessed s.M_out mem >>= fun q ↦
    (fetchResult build s q.1 (faultPC build s q.2 F_PC)).map fun r ↦
      stagesState build s r.1 r.2.1 (overriddenPC build s r.2.2) q.2

theorem quietStages_fetch_memory (build : Build) (s : Machine) :
    (runStages build [.fetch, .memory] s).map quietStages =
      fetchFirst build s s.mem s.F_PC := by
  unfold fetchFirst
  simp only [runStages_cons, runStage, fetchInstr_eq]
  cases fetchResult build s s.mem s.F_PC with
  | error crash => rfl
  | ok r =>
    change (memoryInstr build (latchFetch build s r) >>= pure).map quietStages = _
    rw [bind_pure, memoryInstr_eq]
    change ((accessed s.M_out r.1).map _).map quietStages = (accessed s.M_out r.1).map _
    cases accessed s.M_out r.1 with
    | error crash => rfl
    | ok q => rfl

theorem quietStages_memory_fetch (build : Build) (s : Machine) :
    (runStages build [.memory, .fetch] s).map quietStages =
      memoryFirst build s s.mem s.F_PC := by
  unfold memoryFirst
  simp only [runStages_cons, runStage, memoryInstr_eq]
  cases accessed s.M_out s.mem with
  | error crash => rfl
  | ok q =>
    change (fetchInstr build (latchMemory build s q) >>= pure).map quietStages =
      (fetchResult build s q.1 (faultPC build s q.2 s.F_PC)).map _
    rw [bind_pure, fetchInstr_eq]
    change ((fetchResult build s q.1 (faultPC build s q.2 s.F_PC)).map _).map quietStages = _
    cases fetchResult build s q.1 (faultPC build s q.2 s.F_PC) with
    | error crash => rfl
    | ok r => rfl

/-- Every order of the five stages agrees with one of two. -/
theorem runStages_perm (build : Build) {order : List ProcStage} (h : order.Perm defaultOrder)
    (s : Machine) :
    runStages build order s = fetchFirst build s s.mem s.F_PC ∨
      runStages build order s = memoryFirst build s s.mem s.F_PC := by
  have hmem : (order.filter touchesMem).Perm [.fetch, .memory] := h.filter touchesMem
  have hquiet : (order.filter fun stage ↦ !touchesMem stage).Perm [.decode, .execute, .wback] :=
    h.filter fun stage ↦ !touchesMem stage
  have hfold : ∀ t, (order.filter fun stage ↦ !touchesMem stage).foldl quietStage t =
      quietStages t := fun t ↦
    hquiet.foldl_eq' (fun x _ y _ s ↦ quietStage_comm s x y) t
  rw [runStages_filter, ← quietStages_fetch_memory, ← quietStages_memory_fetch]
  simp only [hfold]
  rcases List.perm_pair.mp hmem with hlist | hlist
  · exact Or.inl (by rw [hlist])
  · exact Or.inr (by rw [hlist])

/-- The default order fetches first. -/
theorem runStages_defaultOrder (build : Build) (s : Machine) :
    runStages build defaultOrder s = fetchFirst build s s.mem s.F_PC := by
  rw [← quietStages_fetch_memory]
  exact runStages_filter build defaultOrder s

end SystemEmulator
