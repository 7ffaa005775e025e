import SystemEmulator.Cycle.Records

/-!
# Independence of the stage order

Fetch and memory are the only stages that share state.  While a data access is under way that fetch
cannot observe, the two orders differ in one wire only: when the memory stage raises a fault and
fetch reads the instruction memory in the same cycle, the later of the two decides `F_PC`.  The PC
of that cycle does not depend on `F_PC`, but the next one does if fetch then generates a `HLT`.
-/

namespace SystemEmulator

open Relation Result

/-- The data access of this cycle and the fetch do not observe each other. -/
def Machine.FetchIndependent (build : Build) (s : Machine) : Prop :=
  generatesHlt build s = true ∨ s.M_out.accesses = false ∨
    (QuietFetch s.mem (currentPC build s) ∧
      Ensures (accessed s.M_out s.mem) fun r ↦
        fetchedWord r.1.ptable (currentPC build s) = fetchedWord s.mem.ptable (currentPC build s))

/-- The value of `F_PC` does not reach the PC of this cycle. -/
def Machine.IgnoresPC (build : Build) (s : Machine) : Prop :=
  generatesHlt build s = false ∨ s.M_out.faults s.mem = true

/-- The order of fetch and memory in this cycle cannot be observed. -/
structure Machine.OrderSafe (build : Build) (s : Machine) : Prop where
  independent : s.FetchIndependent build
  redirect : s.M_out.faults s.mem = true → generatesHlt build s = false →
    ∀ s', cycle build defaultOrder s = .ok s' → s'.IgnoresPC build

def Machine.withMem (s : Machine) (mem : Mem) (F_PC : BitVec 64) : Machine :=
  { s with mem := mem, F_PC := F_PC }

/-- Two states that agree but for the shape of the page table, and whose `F_PC` agrees unless `P`
holds. -/
def Machine.Matches (P : Machine → Prop) (s s' : Machine) : Prop :=
  ∃ mem F_PC, s' = s.withMem mem F_PC ∧ s.mem.Same mem ∧ (F_PC = s.F_PC ∨ P s)

/-! ## The stages -/

/-- The results of fetch from memories with the same content. -/
def FetchMatches (build : Build) (s : Machine) (F_PC F_PC' : BitVec 64)
    (r r' : Mem × DInstr × BitVec 64) : Prop :=
  r.1.Same r'.1 ∧ r'.2.1 = r.2.1 ∧
    if generatesHlt build s then r.2.2 = F_PC ∧ r'.2.2 = F_PC' else r'.2.2 = r.2.2

theorem fetchResult_match (build : Build) (s : Machine) {mem mem' : Mem} (hmem : mem.Same mem')
    (F_PC F_PC' : BitVec 64) :
    Rel (FetchMatches build s F_PC F_PC') (fetchResult build s mem F_PC)
      (fetchResult build s mem' F_PC') := by
  unfold fetchResult FetchMatches
  cases generatesHlt build s with
  | true => exact Rel.ok ⟨hmem, rfl, rfl, rfl⟩
  | false =>
    refine Rel.map (imem_congr hmem _) ?_
    rintro ⟨mem₁, word, err⟩ ⟨mem₂, _⟩ ⟨hsame, rfl⟩
    exact ⟨hsame, rfl, rfl⟩

theorem fetchResult_frame (build : Build) (s : Machine) (mem : Mem) (F_PC : BitVec 64) :
    Ensures (fetchResult build s mem F_PC) fun r ↦ mem.Frame r.1 := by
  unfold fetchResult
  cases generatesHlt build s with
  | true => exact Ensures.ok (Mem.Frame.refl mem)
  | false =>
    intro r hr
    obtain ⟨q, himem, rfl⟩ := map_eq_ok.mp hr
    exact imem_frame mem _ q himem

theorem overriddenPC_of_pipe {build : Build} (hpipe : build.pipe = true) (s : Machine)
    (F_PC : BitVec 64) : overriddenPC build s F_PC = F_PC := by
  simp [overriddenPC, hpipe]

/-- The states after the stages: `F_PC` may differ in a cycle that takes its PC from `M_PC`. -/
def StagesMatch (build : Build) (s : Machine) : Machine → Machine → Prop :=
  Machine.Matches fun t ↦ t.W_in.status.isError = true ∧ generatesHlt build s = false

theorem stagesState_match {build : Build} {s : Machine} {mem mem' : Mem} {D_in : DInstr}
    {F_PC F_PC' : BitVec 64} {W_in : WInstr} (hmem : mem.Same mem')
    (hpc : F_PC' = F_PC ∨ (W_in.status.isError = true ∧ generatesHlt build s = false)) :
    StagesMatch build s (stagesState build s mem D_in F_PC W_in)
      (stagesState build s mem' D_in F_PC' W_in) :=
  ⟨mem', F_PC', rfl, hmem, hpc⟩

/-- The data access of the memory stage in two memories with the same content. -/
theorem accessed_match (m : MInstr) {mem mem' : Mem} (h : mem.Same mem') :
    Rel (fun q q' ↦ SameResult q q' ∧ mem.Frame q.1 ∧ q.2.status.isError = m.faults mem)
      (accessed m mem) (accessed m mem') :=
  (accessed_congr m h).and_ensures (accessed_frame m mem)

variable {build : Build} {s : Machine} {mem : Mem} {F_PC : BitVec 64}

/-- The two values of `F_PC` agree once a fault has been raised. -/
theorem faultPC_eq (hpipe : build.pipe = true) (hhlt : generatesHlt build s = true)
    (hF_PC : F_PC = s.F_PC ∨ s.IgnoresPC build) {W_in : WInstr}
    (hfault : W_in.status.isError = s.M_out.faults s.mem) :
    faultPC build s W_in F_PC = faultPC build s W_in s.F_PC := by
  unfold faultPC
  rcases hF_PC with hF_PC | hgen | hF_PC
  · rw [hF_PC]
  · rw [hhlt] at hgen
    cases hgen
  · rw [hfault, hF_PC, hpipe]
    rfl

theorem fetchFirst_match (hpipe : build.pipe = true) (hmem : s.mem.Same mem)
    (hF_PC : F_PC = s.F_PC ∨ s.IgnoresPC build) :
    Rel (StagesMatch build s) (fetchFirst build s s.mem s.F_PC) (fetchFirst build s mem F_PC) := by
  unfold fetchFirst
  refine Rel.bind ((fetchResult_match build s hmem _ _).and_ensures
    (fetchResult_frame build s s.mem s.F_PC)) ?_
  rintro ⟨mem₁, D_in, F_PC₁⟩ ⟨mem₂, _, F_PC₂⟩ ⟨⟨hsame, rfl, hpc⟩, hframe⟩
  refine Rel.map (accessed_match s.M_out hsame) ?_
  rintro ⟨mem₃, W_in⟩ ⟨mem₄, _⟩ ⟨⟨hsame', rfl⟩, -, hfault⟩
  refine stagesState_match hsame' (Or.inl ?_)
  simp only [overriddenPC_of_pipe hpipe]
  cases hhlt : generatesHlt build s with
  | false =>
    simp only [hhlt, Bool.false_eq_true, ↓reduceIte] at hpc
    rw [hpc]
  | true =>
    simp only [hhlt, ↓reduceIte] at hpc
    rw [hpc.1, hpc.2]
    exact faultPC_eq hpipe hhlt hF_PC (hfault.trans (hframe.faults _))

/-- With a generated `HLT` the two stages do not meet. -/
theorem memoryFirst_match_of_generatesHlt (hpipe : build.pipe = true) (hmem : s.mem.Same mem)
    (hF_PC : F_PC = s.F_PC ∨ s.IgnoresPC build) (hhlt : generatesHlt build s = true) :
    Rel (StagesMatch build s) (fetchFirst build s s.mem s.F_PC) (memoryFirst build s mem F_PC) := by
  unfold fetchFirst memoryFirst fetchResult
  simp only [hhlt, ↓reduceIte]
  change Rel _ ((accessed s.M_out s.mem).map _) _
  rw [map_eq_bind]
  refine Rel.bind (accessed_match s.M_out hmem) ?_
  rintro ⟨mem₁, W_in⟩ ⟨mem₂, _⟩ ⟨⟨hsame, rfl⟩, -, hfault⟩
  refine Rel.ok (stagesState_match hsame (Or.inl ?_))
  simp only [overriddenPC_of_pipe hpipe]
  exact faultPC_eq hpipe hhlt hF_PC hfault

/-- Without a data access the memory stage only passes its record on. -/
theorem memoryFirst_match_of_not_accesses (hpipe : build.pipe = true) (hmem : s.mem.Same mem)
    (hhlt : generatesHlt build s = false) (hacc : s.M_out.accesses = false) :
    Rel (StagesMatch build s) (fetchFirst build s s.mem s.F_PC) (memoryFirst build s mem F_PC) := by
  unfold fetchFirst memoryFirst
  simp only [accessed_of_not_accesses hacc]
  change Rel _ _ ((fetchResult build s mem _).map _)
  rw [map_eq_bind]
  refine Rel.bind (fetchResult_match build s hmem _ _) ?_
  rintro ⟨mem₁, D_in, F_PC₁⟩ ⟨mem₂, _, F_PC₂⟩ ⟨hsame, rfl, hpc⟩
  simp only [hhlt, Bool.false_eq_true, ↓reduceIte] at hpc
  refine Rel.ok (stagesState_match hsame ?_)
  simp only [overriddenPC_of_pipe hpipe, faultPC, hpc, hpipe, Bool.true_and]
  cases hfault : (s.M_out.toWInstr 0 false).status.isError with
  | true => exact Or.inr ⟨rfl, hhlt⟩
  | false => exact Or.inl rfl

/-- A quiet fetch reads the same word before and after a data access that leaves this word
alone. -/
theorem memoryFirst_match_of_quietFetch (hpipe : build.pipe = true) (hmem : s.mem.Same mem)
    (hhlt : generatesHlt build s = false) (hquiet : QuietFetch s.mem (currentPC build s))
    (hword : Ensures (accessed s.M_out s.mem) fun r ↦
      fetchedWord r.1.ptable (currentPC build s) = fetchedWord s.mem.ptable (currentPC build s)) :
    Rel (StagesMatch build s) (fetchFirst build s s.mem s.F_PC) (memoryFirst build s mem F_PC) := by
  obtain ⟨pt, himem, hpt⟩ := imem_quiet hquiet
  unfold fetchFirst memoryFirst fetchResult
  simp only [hhlt, Bool.false_eq_true, ↓reduceIte, himem]
  change Rel _ ((accessed s.M_out { s.mem with ptable := pt }).map _) _
  rw [map_eq_bind]
  have hacc : Rel (fun q q' ↦ SameResult q q' ∧ s.mem.Frame q'.1 ∧
        fetchedWord q'.1.ptable (currentPC build s) = fetchedWord s.mem.ptable (currentPC build s))
      (accessed s.M_out { s.mem with ptable := pt }) (accessed s.M_out mem) := by
    refine Rel.trans ?_ (accessed_congr s.M_out (Mem.Same.symm ⟨pt, rfl, hpt⟩))
      ((accessed_match s.M_out hmem).and_ensures hword)
    rintro q q₁ q₂ ⟨hqq₁, heq⟩ ⟨⟨⟨hq₁q₂, heq'⟩, hframe, -⟩, hq₁⟩
    exact ⟨⟨hqq₁.trans hq₁q₂, heq.trans heq'⟩, hframe.trans hq₁q₂.frame,
      (hq₁q₂.fetchedWord _).symm.trans hq₁⟩
  refine Rel.bind hacc ?_
  rintro ⟨mem₁, W_in⟩ ⟨mem₂, _⟩ ⟨⟨hsame, rfl⟩, hframe, hfetched⟩
  obtain ⟨pt', himem', hpt'⟩ := imem_quiet (hframe.quietFetch hquiet)
  simp only at hfetched hframe
  rw [himem', hfetched, hframe.imemErr]
  refine Rel.ok (stagesState_match (hsame.trans ⟨pt', rfl, hpt'⟩) ?_)
  simp only [overriddenPC_of_pipe hpipe, faultPC, hpipe, Bool.true_and]
  cases hfault : W_in.status.isError with
  | true => exact Or.inr ⟨rfl, hhlt⟩
  | false => exact Or.inl rfl

/-- Every order of the stages matches the default order. -/
theorem runStages_match (hpipe : build.pipe = true) {s' : Machine}
    (h : s.Matches (Machine.IgnoresPC build) s') (hsafe : s.FetchIndependent build)
    {order : List ProcStage} (horder : order.Perm defaultOrder) :
    Rel (StagesMatch build s) (runStages build defaultOrder s) (runStages build order s') := by
  obtain ⟨mem, F_PC, rfl, hmem, hF_PC⟩ := h
  rw [runStages_defaultOrder]
  rcases runStages_perm build horder (s.withMem mem F_PC) with heq | heq
  · rw [heq]
    exact fetchFirst_match hpipe hmem hF_PC
  · rw [heq]
    change Rel _ _ (memoryFirst build s mem F_PC)
    cases hhlt : generatesHlt build s with
    | true => exact memoryFirst_match_of_generatesHlt hpipe hmem hF_PC hhlt
    | false =>
      rcases hsafe with hgen | hacc | ⟨hquiet, hword⟩
      · rw [hhlt] at hgen
        cases hgen
      · exact memoryFirst_match_of_not_accesses hpipe hmem hhlt hacc
      · exact memoryFirst_match_of_quietFetch hpipe hmem hhlt hquiet hword

/-! ## The rest of the cycle -/

/-- `F_PC` reaches the committed state only through the PC, and not in a cycle with a fault. -/
theorem clockEdge_commit_update (hpipe : build.pipe = true) (u : Machine) (mem : Mem)
    (F_PC : BitVec 64) (h : F_PC = u.F_PC ∨ u.W_in.status.isError = true) :
    clockEdge (commit build (u.withMem mem F_PC)) =
      (clockEdge (commit build u)).withMem mem F_PC := by
  unfold commit clockEdge Machine.withMem
  rcases h with rfl | hfault
  · rfl
  · simp only [hpipe, hfault, Bool.and_self, ↓reduceIte]

theorem forwardReg_withMem (t : Machine) (mem : Mem) (F_PC : BitVec 64) :
    forwardReg build (t.withMem mem F_PC) = (forwardReg build t).withMem mem F_PC := by
  unfold forwardReg
  cases build.pipe <;> rfl

theorem hazardState_withMem (t : Machine) (pt : Ptable) (F_PC : BitVec 64) :
    hazardState build (t.withMem { t.mem with ptable := pt } F_PC) =
      (hazardState build t).withMem { t.mem with ptable := pt }
        (hazardPC build (forwardReg build (t.withMem { t.mem with ptable := pt } F_PC))) := by
  unfold hazardState forwardedRecord
  rw [forwardReg_withMem, forwardReg_eq]
  rfl

theorem hazardPC_withMem (t : Machine) (pt : Ptable) :
    hazardPC build (forwardReg build (t.withMem { t.mem with ptable := pt } t.F_PC)) =
      hazardPC build (forwardReg build t) := by
  rw [forwardReg_withMem, forwardReg_eq]
  rfl

theorem finishCycle_match {t t' : Machine} (hpipe : build.pipe = true)
    (h : StagesMatch build s t t') :
    (finishCycle build t).Matches
      (fun _ ↦ t.W_in.status.isError = true ∧ generatesHlt build s = false)
      (finishCycle build t') := by
  obtain ⟨mem, F_PC, rfl, ⟨pt, rfl, hpt⟩, hF_PC⟩ := h
  rw [finishCycle_eq, finishCycle_eq, hazardState_withMem]
  have hpc : F_PC = t.F_PC → hazardPC build
      (forwardReg build (t.withMem { t.mem with ptable := pt } F_PC)) =
        (hazardState build t).F_PC := by
    rintro rfl
    exact hazardPC_withMem t pt
  refine ⟨_, _, clockEdge_commit_update hpipe _ _ _ ?_, ⟨pt, rfl, hpt⟩, hF_PC.imp_left hpc⟩
  exact hF_PC.imp hpc And.left

/-- Whether the memory stage raises a fault is known before the cycle. -/
theorem fetchFirst_isError (build : Build) (s : Machine) :
    Ensures (fetchFirst build s s.mem s.F_PC) fun t ↦
      t.W_in.status.isError = s.M_out.faults s.mem := by
  unfold fetchFirst
  refine Ensures.bind (fetchResult_frame build s s.mem s.F_PC) ?_
  rintro r hframe t ht
  obtain ⟨q, hacc, rfl⟩ := map_eq_ok.mp ht
  exact (accessed_frame s.M_out r.1 q hacc).2.trans (hframe.faults s.M_out)

theorem cycle_match (hpipe : build.pipe = true) {s' : Machine}
    (h : s.Matches (Machine.IgnoresPC build) s') (hsafe : s.OrderSafe build)
    {order : List ProcStage} (horder : order.Perm defaultOrder) :
    Rel (Machine.Matches (Machine.IgnoresPC build)) (cycle build defaultOrder s)
      (cycle build order s') := by
  have hfault := fetchFirst_isError build s
  rw [← runStages_defaultOrder] at hfault
  have hredirect := hsafe.redirect
  have hstages := (runStages_match hpipe h hsafe.independent horder).and_ensures hfault
  unfold cycle at hredirect ⊢
  generalize runStages build defaultOrder s = x at hstages hredirect ⊢
  generalize runStages build order s' = y at hstages ⊢
  cases hstages with
  | error crash => exact Rel.error crash
  | ok hmatch =>
    obtain ⟨mem, F_PC, heq, hmem, hF_PC⟩ := finishCycle_match hpipe hmatch.1
    refine Rel.ok ⟨mem, F_PC, heq, hmem, hF_PC.imp_right fun hc ↦ ?_⟩
    exact hredirect (hmatch.2 ▸ hc.1) hc.2 _ rfl

/-! ## Runs -/

structure SameEnd (s s' : Machine) : Prop where
  status : s'.status = s.status
  PC : s'.PC = s.PC
  regs : s'.regs = s.regs
  NZCV : s'.NZCV = s.NZCV
  mem : s.mem.Same s'.mem

theorem Machine.Matches.sameEnd {P : Machine → Prop} {s s' : Machine} (h : s.Matches P s') :
    SameEnd s s' := by
  obtain ⟨mem, F_PC, rfl, hmem, -⟩ := h
  exact ⟨rfl, rfl, rfl, rfl, hmem⟩

theorem runLoop_match (hpipe : build.pipe = true) (fuel : ℕ) {orders : ℕ → List ProcStage}
    (horders : ∀ n, (orders n).Perm defaultOrder) {s s' : Machine}
    (h : s.Matches (Machine.IgnoresPC build) s') (hs : s.running = true)
    (hsafe : ∀ t, Run build s t → t.running = true → t.OrderSafe build) :
    Rel SameEnd (runLoop build fuel (fun _ ↦ defaultOrder) s) (runLoop build fuel orders s') := by
  induction fuel generalizing s s' orders with
  | zero => exact Rel.ok h.sameEnd
  | succ fuel ih =>
    rw [runLoop_succ, runLoop_succ]
    have hcycle := cycle_match hpipe h (hsafe s ReflTransGen.refl hs) (horders 0)
    have hstep : Ensures (cycle build defaultOrder s) (Step build defaultOrder s) :=
      fun t ht ↦ ⟨hs, ht⟩
    refine Rel.bind (hcycle.and_ensures hstep) ?_
    rintro t t' ⟨hmatch, hstep⟩
    have hrunning : t'.running = t.running := by
      unfold Machine.running
      rw [hmatch.sameEnd.status]
    rw [hrunning]
    cases ht : t.running with
    | true =>
      exact ih (fun n ↦ horders (n + 1)) hmatch ht fun u hu ↦
        hsafe u (ReflTransGen.head hstep hu)
    | false => exact Rel.ok hmatch.sameEnd

/-- The order of the stages cannot be observed in a run in which, in every cycle, fetch and the data
access are independent and a fault raised while fetch reads the instruction memory is not followed
by a generated `HLT`. -/
theorem stage_order_irrelevant (build : Build) (hpipe : build.pipe = true)
    (GPR : ℕ → BitVec 64) (mem : Mem) (entry : BitVec 64) (cycle_max : ℕ)
    (orders : ℕ → List ProcStage) (horders : ∀ n, (orders n).Perm defaultOrder)
    (hsafe : ∀ s, Run build (initMachine GPR mem entry) s → s.running = true →
      s.OrderSafe build) :
    Rel SameEnd (runElf build cycle_max (fun _ ↦ defaultOrder) GPR mem entry)
      (runElf build cycle_max orders GPR mem entry) :=
  runLoop_match hpipe _ horders
    ⟨{ mem with dmem_status := .ready }, 0, rfl, Mem.Same.refl _, Or.inl rfl⟩
    (initMachine_running GPR mem entry) hsafe

/-- Whether the memory stage raises no fault and leaves the word that fetch reads alone. -/
def Machine.quietAccess (build : Build) (s : Machine) : Bool :=
  let pc := currentPC build s
  !s.M_out.faults s.mem && (generatesHlt build s || !s.M_out.accesses ||
    decide (QuietFetch s.mem pc) && match accessed s.M_out s.mem with
      | .ok r => fetchedWord r.1.ptable pc == fetchedWord s.mem.ptable pc
      | .error _ => true)

theorem orderSafe_of_quietAccess {build : Build} {s : Machine}
    (h : s.quietAccess build = true) : s.OrderSafe build := by
  simp only [Machine.quietAccess, Bool.and_eq_true, Bool.or_eq_true, Bool.not_eq_true',
    decide_eq_true_eq] at h
  obtain ⟨hfaults, hindependent⟩ := h
  refine ⟨?_, fun hfault ↦ absurd (hfault.symm.trans hfaults) (by decide)⟩
  rcases hindependent with (hhlt | hidle) | ⟨hquiet, hword⟩
  · exact .inl hhlt
  · exact .inr (.inl hidle)
  · refine .inr (.inr ⟨hquiet, fun r hr ↦ ?_⟩)
    rw [hr] at hword
    exact beq_iff_eq.mp hword

/-- `MOVZ X0, #0x80, LSL #16; MOVZ X1, #5; STUR X1, [X0]; LDUR X2, [X0]; SUBS X3, X2, X1; HLT`. -/
def storeProgram : List (BitVec 32) :=
  [0xD2A01000, 0xD28000A1, 0xF8000001, 0xF8400002, 0xEB010043, 0xD4400000]

/-- The program stores a word, loads it again and sets the flags, with memory called before fetch
in every cycle. -/
theorem stage_order_irrelevant_store :
    Rel SameEnd
      (runElf ⟨true, false⟩ 20 (fun _ ↦ defaultOrder) (fun _ ↦ 0) (textImage storeProgram)
        (segStarts .text))
      (runElf ⟨true, false⟩ 20 (fun _ ↦ [.memory, .fetch, .decode, .execute, .wback]) (fun _ ↦ 0)
        (textImage storeProgram) (segStarts .text)) := by
  have hcheck : checkRun ⟨true, false⟩ (Machine.quietAccess ⟨true, false⟩) 20
      (initMachine (fun _ ↦ 0) (textImage storeProgram) (segStarts .text)) = true := by
    decide +kernel
  exact stage_order_irrelevant ⟨true, false⟩ rfl (fun _ ↦ 0) (textImage storeProgram)
    (segStarts .text) 20 (fun _ ↦ [.memory, .fetch, .decode, .execute, .wback])
    (fun _ ↦ by decide) fun s hrun hs ↦ orderSafe_of_quietAccess (of_checkRun hcheck hrun hs)

/-- `MOVZ X0, #1; LDUR X2, [X0]; NOP; NOP; HLT`: the PC at the end depends on whether memory or
fetch comes first. -/
theorem stage_order_observable :
    ¬∀ (GPR : ℕ → BitVec 64) (mem : Mem) (entry : BitVec 64) (cycle_max : ℕ)
      (orders : ℕ → List ProcStage), (∀ n, (orders n).Perm defaultOrder) →
      Rel SameEnd (runElf ⟨true, false⟩ cycle_max (fun _ ↦ defaultOrder) GPR mem entry)
        (runElf ⟨true, false⟩ cycle_max orders GPR mem entry) := by
  intro hclaim
  have hrel := hclaim (fun _ ↦ 0)
    (textImage [0xD2800020, 0xF8400002, 0xD503201F, 0xD503201F, 0xD4400000]) (segStarts .text) 40
    (fun _ ↦ [.memory, .fetch, .decode, .execute, .wback]) (fun _ ↦ by decide)
  have hpc := Rel.map (S := Eq) hrel fun s s' h ↦ h.PC.symm
  have hne : (runElf ⟨true, false⟩ 40 (fun _ ↦ defaultOrder) (fun _ ↦ 0)
        (textImage [0xD2800020, 0xF8400002, 0xD503201F, 0xD503201F, 0xD4400000])
        (segStarts .text)).map (·.PC) = .ok 0x400004 ∧
      (runElf ⟨true, false⟩ 40 (fun _ ↦ [.memory, .fetch, .decode, .execute, .wback]) (fun _ ↦ 0)
        (textImage [0xD2800020, 0xF8400002, 0xD503201F, 0xD503201F, 0xD4400000])
        (segStarts .text)).map (·.PC) = .ok 0x400014 := by
    decide +kernel
  rw [hne.1, hne.2] at hpc
  cases hpc with
  | ok h => exact absurd h (by decide)

end SystemEmulator
