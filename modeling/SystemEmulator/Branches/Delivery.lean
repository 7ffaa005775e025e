import SystemEmulator.Branches.Transfer
import SystemEmulator.Pipeline.Forwarding

/-!
# Deliveries that are bound to happen

A cycle that leaves a data access in flight is repeated: the data access is attempted again, and so
is the fetch, unless it has latched a halt or a fault.  An instruction is delivered to decode only
when the two come back together, in whatever order the stages are called.
-/

namespace SystemEmulator

open Relation Result

/-! ## The attempts of a fetch and a data access -/

/-- The fetch at `pc`: the memory, and the status of the instruction.  At address zero nothing is
read. -/
def fetchStatus (pc : BitVec 64) (mem : Mem) : Except Crash (Mem × Stat) :=
  if pc = 0 then .ok (mem, .hlt)
  else (imem mem pc).map fun r ↦ (r.1, (fetchedInstr ecBuild pc r.2.1 r.2.2).status)

def fetchThenAccess (pc : BitVec 64) (m : MInstr) (mem : Mem) :
    Except Crash (Mem × Stat × WInstr) :=
  fetchStatus pc mem >>= fun r ↦ (accessed m r.1).map fun q ↦ (q.1, r.2, q.2)

def accessThenFetch (pc : BitVec 64) (m : MInstr) (mem : Mem) :
    Except Crash (Mem × Stat × WInstr) :=
  accessed m mem >>= fun q ↦ (fetchStatus pc q.1).map fun r ↦ (r.1, r.2, q.2)

/-- The result of an attempt, whose order is not known. -/
def Attempted (pc : BitVec 64) (m : MInstr) (mem : Mem) (x : Except Crash (Mem × Stat × WInstr)) :
    Prop :=
  x = fetchThenAccess pc m mem ∨ x = accessThenFetch pc m mem

/-- The address of the next fetch after one in a cycle that is repeated.  Where a halt or a fault
stays latched, `HLT`s are generated from then on; behind a fault this loses the instruction. -/
def refetched (latches : Bool) (pc : BitVec 64) (status : Stat) : Option (BitVec 64) :=
  if latches then
    match status with
    | .hlt => some 0
    | .ins => none
    | _ => some pc
  else some pc

/-- However the attempts are ordered, they come back, none of them loses the instruction, and the
last one leaves nothing undefined. -/
inductive ComesBack (latches : Bool) (m : MInstr) : BitVec 64 → Mem → Prop
  | intro {pc : BitVec 64} {mem : Mem}
      (hreturns : ∀ x, Attempted pc m mem x →
        ∃ r, x = .ok r ∧ (r.1.dmem_status = .inFlight ∨ r.1.undefined = false))
      (hagain : ∀ r, Attempted pc m mem (.ok r) → r.1.dmem_status = .inFlight →
        refetched latches pc r.2.1 ≠ none)
      (hrest : ∀ r pc', Attempted pc m mem (.ok r) → r.1.dmem_status = .inFlight →
        refetched latches pc r.2.1 = some pc' → ComesBack latches m pc' r.1) :
      ComesBack latches m pc mem

/-- At most `n` attempts are made. -/
def comesBackWithin (latches : Bool) (m : MInstr) : ℕ → BitVec 64 → Mem → Bool
  | 0, _, _ => false
  | n + 1, pc, mem =>
    [fetchThenAccess pc m mem, accessThenFetch pc m mem].all fun x ↦
      match x with
      | .error _ => false
      | .ok r =>
        if r.1.dmem_status = .inFlight then
          match refetched latches pc r.2.1 with
          | none => false
          | some pc' => comesBackWithin latches m n pc' r.1
        else !r.1.undefined

theorem comesBack_of_within {latches : Bool} {m : MInstr} {n : ℕ} {pc : BitVec 64} {mem : Mem}
    (h : comesBackWithin latches m n pc mem = true) : ComesBack latches m pc mem := by
  induction n generalizing pc mem with
  | zero => cases h
  | succ n ih =>
    unfold comesBackWithin at h
    rw [List.all_eq_true] at h
    replace h := fun x (hx : Attempted pc m mem x) ↦ h x (by simpa [Attempted] using hx)
    refine .intro (fun x hx ↦ ?_) (fun r hr hflight ↦ ?_) fun r pc' hr hflight hpc' ↦ ?_
    · have hx' := h x hx
      cases x with
      | error crash => cases hx'
      | ok r =>
        refine ⟨r, rfl, or_iff_not_imp_left.mpr fun hready ↦ ?_⟩
        simpa [hready] using hx'
    · intro hnone
      have hr' := h _ hr
      simp only [hflight, ↓reduceIte, hnone] at hr'
      cases hr'
    · have hr' := h _ hr
      simp only [hflight, ↓reduceIte, hpc'] at hr'
      exact ih hr'

/-! ## Fetches from plain pages -/

section

variable {pc : BitVec 64} {m : MInstr} {mem : Mem}

theorem fetchStatus_quiet (h : pc = 0 ∨ QuietFetch mem pc) :
    ∃ r, fetchStatus pc mem = .ok r ∧ mem.Same r.1 := by
  unfold fetchStatus
  by_cases hpc : pc = 0
  · rw [if_pos hpc]
    exact ⟨_, rfl, Mem.Same.refl mem⟩
  · obtain ⟨pt, himem, hpt⟩ := imem_quiet (h.resolve_left hpc)
    rw [if_neg hpc, himem]
    exact ⟨_, rfl, pt, rfl, hpt⟩

/-- Beside a plain fetch the data access has the result that it has alone. -/
theorem Attempted.of_quiet {x : Except Crash (Mem × Stat × WInstr)} (h : Attempted pc m mem x)
    (hfetch : pc = 0 ∨ QuietFetch mem pc) {q : Mem × WInstr} (hacc : accessed m mem = .ok q) :
    ∃ r, x = .ok r ∧ q.1.Same r.1 ∧ r.2.2 = q.2 := by
  rcases h with rfl | rfl
  · obtain ⟨r, hr, hsame⟩ := fetchStatus_quiet hfetch
    obtain ⟨q', hacc', hsame', hw⟩ := (accessed_congr m hsame).exists_of_ok hacc
    unfold fetchThenAccess
    rw [hr]
    simp only [bind, Except.bind, hacc', Except.map]
    exact ⟨_, rfl, hsame', hw.symm⟩
  · have hframe := (accessed_frame m mem q hacc).1
    obtain ⟨r, hr, hsame⟩ := fetchStatus_quiet (hfetch.imp_right hframe.quietFetch)
    unfold accessThenFetch
    rw [hacc]
    simp only [bind, Except.bind, hr, Except.map]
    exact ⟨_, rfl, hsame, rfl⟩

/-- A fetch that latches nothing and only reads pages comes back with the data access; the
induction is on the attempts of the access. -/
theorem ComesBack.of_quiet (hfetch : pc = 0 ∨ QuietFetch mem pc) {q : Mem × WInstr}
    (hsettle : settle (accessed m) mem = some (.ok q)) (hdefined : q.1.undefined = false) :
    ComesBack false m pc mem := by
  refine Mem.settle.partial_correctness (accessed m) (fun mem x ↦ ∀ q, x = .ok q →
    q.1.undefined = false → ∀ mem', mem.Same mem' → (pc = 0 ∨ QuietFetch mem' pc) →
      ComesBack false m pc mem') ?_ mem _ hsettle q rfl hdefined mem (Mem.Same.refl mem) hfetch
  intro rec ih mem x hx q hq hdefined mem' hsame hfetch
  cases hacc : accessed m mem with
  | error crash =>
    rw [hacc] at hx
    cases hx
    cases hq
  | ok q₁ =>
    rw [hacc] at hx
    obtain ⟨q₂, hacc', hsame', -⟩ := (accessed_congr m hsame).exists_of_ok hacc
    have hframe := (accessed_frame m mem' q₂ hacc').1
    refine .intro (fun x hx' ↦ ?_) (fun r _ _ ↦ Option.some_ne_none pc)
      fun r pc' hr hflight hpc' ↦ ?_
    · obtain ⟨r, rfl, hr, -⟩ := hx'.of_quiet hfetch hacc'
      have hrq := hsame'.trans hr
      refine ⟨r, rfl, or_iff_not_imp_left.mpr fun hready ↦ ?_⟩
      rw [hrq.dmem_status] at hready
      simp only [hready, ↓reduceIte, Option.some.injEq] at hx
      obtain rfl : q₁ = q := Except.ok.inj (hx.trans hq)
      rw [hrq.undefined]
      exact hdefined
    · obtain ⟨r', hr', hrr', -⟩ := hr.of_quiet hfetch hacc'
      obtain rfl : r = r' := Except.ok.inj hr'
      obtain rfl : pc = pc' := Option.some.inj hpc'
      have hrq := hsame'.trans hrr'
      rw [hrq.dmem_status] at hflight
      simp only [hflight, ↓reduceIte] at hx
      exact ih q₁.1 x hx q hq hdefined r.1 hrq
        (hfetch.imp_right fun hquiet ↦ (hframe.trans hrr'.frame).quietFetch hquiet)

end

/-! ## The attempts of a cycle -/

/-- The address from which the fetch of this cycle reads, zero when it generates a `HLT`. -/
def Machine.fetchPC (s : Machine) : BitVec 64 :=
  if generatesHlt ecBuild s then 0 else currentPC ecBuild s

/-- Whether a halt or a fault that the fetch of this cycle meets stays latched: no redirect clears
it. -/
def Machine.latches (s : Machine) : Bool :=
  !(isIndirectBranch s.X_out.op || s.M_out.mispredicted)

/-- The fetch of this cycle and the data access come back together, repeated as long as a data
access is in flight. -/
def Machine.FetchComesBack (s : Machine) : Prop := ComesBack s.latches s.M_out s.fetchPC s.mem

theorem fetchResult_status (s : Machine) (mem : Mem) (F_PC : BitVec 64) :
    (fetchResult ecBuild s mem F_PC).map (fun r ↦ (r.1, r.2.1.status)) =
      fetchStatus s.fetchPC mem := by
  unfold fetchResult fetchStatus Machine.fetchPC
  cases hhlt : generatesHlt ecBuild s with
  | true => rfl
  | false =>
    have hpc := (not_generatesHlt_iff.mp hhlt).1
    simp only [Bool.false_eq_true, ↓reduceIte, if_neg hpc]
    cases imem mem (currentPC ecBuild s) <;> rfl

/-- What a cycle leaves of its attempt. -/
def Machine.attempt (s : Machine) : Mem × Stat × WInstr := (s.mem, s.D_in.status, s.W_in)

theorem attempt_finishCycle (t : Machine) : (finishCycle ecBuild t).attempt = t.attempt := by
  rw [finishCycle_eq]
  rfl

theorem cycle_attempt (order : List ProcStage) (s : Machine) :
    (cycle ecBuild order s).map Machine.attempt =
      (runStages ecBuild order s).map Machine.attempt := by
  unfold cycle
  cases runStages ecBuild order s with
  | error crash => rfl
  | ok t => exact congrArg Except.ok (attempt_finishCycle t)

theorem fetchFirst_attempt (s : Machine) :
    (fetchFirst ecBuild s s.mem s.F_PC).map Machine.attempt =
      fetchThenAccess s.fetchPC s.M_out s.mem := by
  unfold fetchFirst fetchThenAccess
  rw [← fetchResult_status s s.mem s.F_PC]
  cases fetchResult ecBuild s s.mem s.F_PC with
  | error crash => rfl
  | ok r =>
    change ((accessed s.M_out r.1).map _).map _ = (accessed s.M_out r.1).map _
    cases accessed s.M_out r.1 <;> rfl

theorem memoryFirst_attempt (s : Machine) :
    (memoryFirst ecBuild s s.mem s.F_PC).map Machine.attempt =
      accessThenFetch s.fetchPC s.M_out s.mem := by
  unfold memoryFirst accessThenFetch
  cases accessed s.M_out s.mem with
  | error crash => rfl
  | ok q =>
    change ((fetchResult ecBuild s q.1 (faultPC ecBuild s q.2 s.F_PC)).map _).map _ =
      (fetchStatus s.fetchPC q.1).map _
    rw [← fetchResult_status s q.1 (faultPC ecBuild s q.2 s.F_PC)]
    cases fetchResult ecBuild s q.1 (faultPC ecBuild s q.2 s.F_PC) <;> rfl

def memoryOrder : List ProcStage := [.memory, .fetch, .decode, .execute, .wback]

theorem runStages_memoryOrder (build : Build) (s : Machine) :
    runStages build memoryOrder s = memoryFirst build s s.mem s.F_PC := by
  rw [← quietStages_memory_fetch]
  exact runStages_filter build memoryOrder s

/-- Every order of the stages agrees with one of these two. -/
theorem cycle_eq_of_perm {build : Build} {order : List ProcStage}
    (horder : order.Perm defaultOrder) (s : Machine) :
    cycle build order s = cycle build defaultOrder s ∨
      cycle build order s = cycle build memoryOrder s := by
  unfold cycle
  rw [runStages_defaultOrder, runStages_memoryOrder]
  exact (runStages_perm build horder s).imp (fun h ↦ by rw [h]) fun h ↦ by rw [h]

/-- Every cycle is an attempt of its fetch and its data access. -/
theorem attempted_of_perm {order : List ProcStage} (horder : order.Perm defaultOrder)
    (s : Machine) :
    Attempted s.fetchPC s.M_out s.mem ((cycle ecBuild order s).map Machine.attempt) := by
  rw [cycle_attempt]
  rcases runStages_perm ecBuild horder s with heq | heq
  · exact .inl (by rw [heq, fetchFirst_attempt])
  · exact .inr (by rw [heq, memoryFirst_attempt])

/-- Both orders of an attempt occur. -/
theorem Attempted.exists_order {s : Machine} {x : Except Crash (Mem × Stat × WInstr)}
    (h : Attempted s.fetchPC s.M_out s.mem x) :
    ∃ order : List ProcStage, order.Perm defaultOrder ∧
      (cycle ecBuild order s).map Machine.attempt = x := by
  rcases h with rfl | rfl
  · refine ⟨defaultOrder, List.Perm.refl _, ?_⟩
    rw [cycle_attempt, runStages_defaultOrder, fetchFirst_attempt]
  · refine ⟨memoryOrder, by decide, ?_⟩
    rw [cycle_attempt, runStages_memoryOrder, memoryFirst_attempt]

theorem AnyStep.attempted {s s' : Machine} (h : AnyStep ecBuild s s') :
    Attempted s.fetchPC s.M_out s.mem (.ok s'.attempt) := by
  obtain ⟨order, horder, -, hcycle⟩ := h
  have hattempt := attempted_of_perm horder s
  rw [hcycle] at hattempt
  exact hattempt

/-! ## Waiting for the next instruction -/

/-- Decode holds a bubble, and nothing ahead of it keeps the next instruction out, except for a data
access in flight. -/
structure Machine.AwaitsNext (s : Machine) : Prop where
  guarded : s.Guarded
  running : s.running = true
  passes : s.W_out.status.passes = true
  D_out : s.D_out = {}
  X_out : s.X_out.op ≠ .bCond ∧ s.X_out.op ≠ .ldur

section

variable {s s' : Machine} (h : s.AwaitsNext) (hstep : AnyStep ecBuild s s')
include h hstep

theorem Machine.AwaitsNext.transfer : Transfer true s s' ∧ ¬s'.PipeError := by
  obtain ⟨order, horder, -, hcycle⟩ := hstep
  have herror : ¬s'.PipeError := by
    refine cycle_not_pipeError horder h.guarded.wf h.guarded.controls ?_ hcycle
    rintro ⟨hop, -⟩
    rw [h.D_out] at hop
    cases hop
  exact ⟨transfer_of_cycle horder hcycle herror, herror⟩

theorem Machine.AwaitsNext.waits (hflight : s'.mem.dmem_status = .inFlight) :
    s'.AwaitsNext ∧ s'.X_out = s.X_out ∧ s'.M_out = s.M_out := by
  obtain ⟨htransfer, herror⟩ := h.transfer hstep
  obtain ⟨-, hD, hX, hM, hW, -⟩ := htransfer.frozen hflight
  obtain ⟨order, horder, -, hcycle⟩ := hstep
  refine ⟨⟨h.guarded.transfer (h.guarded.wf.cycle horder hcycle) herror htransfer, ?_, ?_,
    hD.trans h.D_out, hX ▸ h.X_out⟩, hX, hM⟩
  · rw [s'.running_eq, htransfer.status]
    exact h.passes
  · rw [hW]
    rfl

theorem Machine.AwaitsNext.delivers (hready : s'.mem.dmem_status ≠ .inFlight) :
    s'.D_out = s'.D_in :=
  ((h.transfer hstep).1.delivers hready h.D_out
    (not_mispredicted_of_ne (m := s.executing) h.X_out.1) h.X_out.2).1

end

/-! ## Frozen cycles -/

section

variable {s s' : Machine}

theorem fetchPC_eq (s : Machine) : s.fetchPC =
    if (clearedStatus ecBuild s).isStop then 0 else currentPC ecBuild s := by
  unfold Machine.fetchPC
  rw [generatesHlt_eq]
  by_cases hpc : currentPC ecBuild s = 0
  · rw [hpc, ite_self, ite_self]
  · rw [beq_false_of_ne hpc, Bool.false_or]

/-- The status of the fetch register, unless a redirect clears it. -/
theorem clearedStatus_eq (s : Machine) : clearedStatus ecBuild s =
    if s.latches = false ∧ currentPC ecBuild s ≠ 0 then .aok else s.F_in.status := by
  unfold clearedStatus Machine.latches MInstr.mispredicted
  refine if_congr ?_ rfl rfl
  rw [Bool.not_eq_false', Bool.or_eq_true, Bool.and_eq_true, beq_iff_eq, Bool.not_eq_true']
  simp [and_comm]

/-- A frozen cycle fetches again at the same address, unless a halt or a fault stays latched. -/
theorem Transfer.refetches (h : Transfer true s s') (hflight : s'.mem.dmem_status = .inFlight)
    {pc : BitVec 64} (hpc : refetched s.latches s.fetchPC s'.D_in.status = some pc) :
    s'.fetchPC = pc ∧ s'.latches = s.latches := by
  obtain ⟨hpred, hD, hX, hM, -, -⟩ := h.frozen hflight
  have hlatches : s'.latches = s.latches := by
    unfold Machine.latches
    rw [hX, hM]
  have hcurrent : currentPC ecBuild s' = currentPC ecBuild s := by
    unfold currentPC
    rw [hpred, hD, hX, hM]
  refine ⟨?_, hlatches⟩
  rw [fetchPC_eq s', clearedStatus_eq s', hlatches, hcurrent, h.F_in]
  rw [fetchPC_eq s] at hpc
  cases hl : s.latches with
  | false =>
    -- a redirect clears the latch, at address zero there is nothing to clear
    rw [hl] at hpc
    rw [← Option.some.inj hpc, clearedStatus_eq s, hl]
    by_cases hzero : currentPC ecBuild s = 0
    · rw [hzero, ite_self, ite_self]
    · simp only [ne_eq, hzero, not_false_eq_true, and_self, ↓reduceIte]
  | true =>
    rw [hl] at hpc
    simp only [Bool.true_eq_false, false_and, ↓reduceIte]
    cases hstop : s'.D_in.status.isStop with
    | false =>
      rw [latchedStatus_of_not_stop hstop]
      revert hstop hpc
      cases s'.D_in.status <;> intro hpc hstop <;> first
        | (cases hstop; done)
        | exact Option.some.inj hpc
    | true =>
      rw [latchedStatus_of_stop hstop, hstop]
      revert hstop hpc
      cases s'.D_in.status <;> intro hpc hstop <;> first
        | (cases hstop; done)
        | (cases hpc; done)
        | exact Option.some.inj hpc

end

/-! ## Deliveries -/

/-- No cycle of a run from `s` fails, decode holds bubbles until a step of which `P` holds, and
every run comes to such a step. -/
inductive Machine.Inevitable (P : Machine → Machine → Prop) : Machine → Prop
  | intro {s : Machine} (hrunning : s.running = true)
      (hreturns : ∀ order : List ProcStage, order.Perm defaultOrder →
        ∃ s', cycle ecBuild order s = .ok s')
      (hwaits : ∀ s', AnyStep ecBuild s s' → ¬P s s' → s'.D_out = {})
      (hrest : ∀ s', AnyStep ecBuild s s' → ¬P s s' → Inevitable P s') : Inevitable P s

/-- What comes into decode in the first step is delivered. -/
theorem Machine.Inevitable.of_step {P : Machine → Machine → Prop} {s s' : Machine}
    (h : s.Inevitable P) (hstep : AnyStep ecBuild s s') (hD : s'.D_out ≠ {}) : P s s' := by
  cases h with
  | intro _ _ hwaits _ => exact by_contra fun hP ↦ hD (hwaits s' hstep hP)

theorem exists_cycle_of_attempted {order : List ProcStage} (horder : order.Perm defaultOrder)
    {s : Machine} {Q : Mem × Stat × WInstr → Prop}
    (h : ∀ x, Attempted s.fetchPC s.M_out s.mem x → ∃ r, x = .ok r ∧ Q r) :
    ∃ s', cycle ecBuild order s = .ok s' ∧ Q s'.attempt := by
  obtain ⟨r, hr, hQ⟩ := h _ (attempted_of_perm horder s)
  obtain ⟨s', hcycle, rfl⟩ := map_eq_ok.mp hr
  exact ⟨s', hcycle, hQ⟩

/-- When its fetch comes back, a state that waits for the next instruction gets it.  `K` holds as
long as it waits. -/
theorem Machine.AwaitsNext.inevitable {K : Machine → Prop} {P : Machine → Machine → Prop}
    (hK : ∀ u u', u.AwaitsNext → K u → AnyStep ecBuild u u' → u'.mem.dmem_status = .inFlight →
      refetched u.latches u.fetchPC u'.D_in.status ≠ none → K u')
    (hP : ∀ u u', u.AwaitsNext → K u → AnyStep ecBuild u u' → u'.mem.dmem_status ≠ .inFlight →
      u'.mem.undefined = false → P u u')
    {s : Machine} (hs : s.AwaitsNext) (hKs : K s) (h : s.FetchComesBack) : s.Inevitable P := by
  -- induction on the attempts, for every state that makes them
  suffices H : ∀ latches m pc mem, ComesBack latches m pc mem → ∀ u : Machine, u.AwaitsNext → K u →
      u.latches = latches → u.M_out = m → u.fetchPC = pc → u.mem = mem → u.Inevitable P from
    H _ _ _ _ h s hs hKs rfl rfl rfl rfl
  intro latches m pc mem h
  induction h with
  | intro hreturns hagain hrest ih =>
    rintro u hu hKu rfl rfl rfl rfl
    have hattempt : ∀ u', AnyStep ecBuild u u' → ¬P u u' → u'.mem.dmem_status = .inFlight := by
      intro u' hstep hP'
      by_contra hready
      obtain ⟨r, hr, hdefined⟩ := hreturns _ hstep.attempted
      obtain rfl := Except.ok.inj hr
      exact hP' (hP u u' hu hKu hstep hready (hdefined.resolve_left hready))
    refine .intro hu.running (fun order horder ↦ ?_) (fun u' hstep hP' ↦ ?_) fun u' hstep hP' ↦ ?_
    · obtain ⟨u', hcycle, -⟩ := exists_cycle_of_attempted horder hreturns
      exact ⟨u', hcycle⟩
    · exact (hu.waits hstep (hattempt u' hstep hP')).1.D_out
    · have hflight := hattempt u' hstep hP'
      obtain ⟨hu', -, hM⟩ := hu.waits hstep hflight
      have hagain' := hagain _ hstep.attempted hflight
      obtain ⟨pc', hpc'⟩ := Option.ne_none_iff_exists'.mp hagain'
      obtain ⟨hfetch, hlatches⟩ := (hu.transfer hstep).1.refetches hflight hpc'
      exact ih _ pc' hstep.attempted hflight hpc' u' hu' (hK u u' hu hKu hstep hflight hagain')
        hlatches hM hfetch rfl

/-- What a fetch hands on is no bubble. -/
theorem Transfer.D_in_ne {ec : Bool} {s s' : Machine} (h : Transfer ec s s') :
    s'.D_in.status ≠ .bub := by
  obtain ⟨mem, F_PC, r, -, hfetch, hD⟩ := h.fetch
  rw [hD]
  rcases fetchResult_record hfetch with heq | ⟨pc, insnbits, err, heq⟩
  · rw [heq]
    exact Stat.noConfusion
  · rw [heq]
    exact status_ne_bub_of_fetched _ _ _ _

/-- Behind a redirect nothing is delivered unless the fetch comes back. -/
theorem Machine.AwaitsNext.fetchComesBack {P : Machine → Machine → Prop}
    (hP : ∀ u u', P u u' → u'.D_out ≠ {} ∧ u'.mem.undefined = false) {s : Machine}
    (hs : s.AwaitsNext) (hlatches : s.latches = false) (h : s.Inevitable P) : s.FetchComesBack := by
  induction h with
  | @intro s hrunning hreturns hwaits hrest ih =>
    have hstep : ∀ x, Attempted s.fetchPC s.M_out s.mem x →
        ∃ s', AnyStep ecBuild s s' ∧ x = .ok s'.attempt := by
      intro x hx
      obtain ⟨order, horder, rfl⟩ := hx.exists_order
      obtain ⟨s', hcycle⟩ := hreturns order horder
      exact ⟨s', ⟨order, horder, hrunning, hcycle⟩, by rw [hcycle]; rfl⟩
    have hnot : ∀ s', AnyStep ecBuild s s' → s'.mem.dmem_status = .inFlight → ¬P s s' :=
      fun s' hstep hflight hP' ↦ (hP s s' hP').1 (hs.waits hstep hflight).1.D_out
    refine .intro (fun x hx ↦ ?_) (fun r _ _ ↦ ?_) fun r pc' hr hflight hpc' ↦ ?_
    · obtain ⟨s', hs', rfl⟩ := hstep x hx
      refine ⟨_, rfl, or_iff_not_imp_left.mpr fun hready ↦ (hP s s' (by_contra fun hP' ↦ ?_)).2⟩
      have hD := hwaits s' hs' hP'
      rw [hs.delivers hs' hready] at hD
      exact (hs.transfer hs').1.D_in_ne (by rw [hD])
    · rw [hlatches]
      exact Option.some_ne_none _
    · obtain ⟨s', hs', hr'⟩ := hstep _ hr
      obtain rfl := Except.ok.inj hr'
      obtain ⟨hawaits, -, hM⟩ := hs.waits hs' hflight
      obtain ⟨hfetch, hlatches'⟩ := (hs.transfer hs').1.refetches hflight hpc'
      have hrest' := ih s' hs' (hnot s' hs' hflight) hawaits (hlatches'.trans hlatches)
      unfold Machine.FetchComesBack at hrest'
      rwa [hlatches', hM, hfetch] at hrest'

end SystemEmulator
