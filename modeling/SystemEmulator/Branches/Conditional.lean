import SystemEmulator.Branches.Compare
import SystemEmulator.Cycle.Isolation
import SystemEmulator.Padded.Paced

/-!
# Recovery from a conditional branch that is not taken

`B.cond` is predicted taken and decided in execute.  When its condition does not hold,
`handle_hazards` drops the instructions in decode and fetch, and the next fetch goes on behind the
branch.  The requests are not made while `dmem_status` is `IN_FLIGHT`.  The fetch on the wrong path
sets this status as well, when it misses in the data cache, and no cycle resets it before the next
data access.
-/

namespace SystemEmulator

open Relation Result

/-! ## Memory accesses past the cache -/

/-- The memory record asks for an access that goes through the cache. -/
def MInstr.cached (m : MInstr) (mem : Mem) : Bool :=
  m.accesses && !isSpecialAddr m.val_ex && usesCache mem m.val_ex

theorem memRead_dmem_status {m : Mem} {addr : BitVec 64}
    (h : isSpecialAddr addr = true ∨ usesCache m addr = false) (width : ℕ) :
    Ensures (memRead m addr width) fun r ↦ r.1.dmem_status = m.dmem_status := by
  refine (memRead_uncached h width).mono fun r hr ↦ ?_
  obtain ⟨pos, trap, pt, hr⟩ := hr
  rw [hr]

theorem memWrite_dmem_status {m : Mem} {addr : BitVec 64}
    (h : isSpecialAddr addr = true ∨ usesCache m addr = false) (data : BitVec 64) (width : ℕ) :
    Ensures (memWrite m addr data width) fun m' ↦ m'.dmem_status = m.dmem_status := by
  refine (memWrite_uncached h data width).mono fun m' hm' ↦ ?_
  obtain ⟨output, pt, rfl⟩ := hm'
  rfl

theorem accessed_dmem_status {m : MInstr} {mem : Mem} (h : m.cached mem = false) :
    Ensures (accessed m mem) fun q ↦ q.1.dmem_status = mem.dmem_status := by
  cases haccess : m.accesses with
  | false =>
    rw [accessed_of_not_accesses haccess]
    exact Ensures.ok rfl
  | true =>
    have hroute : isSpecialAddr m.val_ex = true ∨ usesCache mem m.val_ex = false := by
      unfold MInstr.cached at h
      rw [haccess] at h
      cases hspecial : isSpecialAddr m.val_ex with
      | true => exact .inl rfl
      | false =>
        rw [hspecial] at h
        exact .inr h
    have hread : Ensures (dmemRead mem m.val_ex m.M_sigs.dmem_read) fun r ↦
        r.1.dmem_status = mem.dmem_status ∧
          (isSpecialAddr m.val_ex = true ∨ usesCache r.1 m.val_ex = false) := by
      unfold dmemRead
      split
      · intro r hr
        have hframe : mem.Frame r.1 := memRead_frame _ _ _ r hr
        exact ⟨memRead_dmem_status hroute 8 r hr, by rwa [hframe.usesCache]⟩
      · exact Ensures.ok ⟨rfl, hroute⟩
    unfold accessed dmem
    split
    · exact Ensures.ok rfl
    · refine Ensures.bind (Ensures.bind hread fun r hr ↦ ?_) fun _ hq ↦ Ensures.ok hq
      have hwrite : Ensures (dmemWrite r.1 m.val_ex m.val_b m.M_sigs.dmem_write) fun mem' ↦
          mem'.dmem_status = mem.dmem_status := by
        unfold dmemWrite
        split
        · rw [← hr.1]
          exact memWrite_dmem_status hr.2 m.val_b 8
        · exact Ensures.ok hr.1
      exact Ensures.bind hwrite fun _ hm ↦ Ensures.ok hm

/-! ## The recovery -/

/-- The memory after the fetch of this cycle. -/
def Machine.FetchLeaves (s : Machine) (mem : Mem) : Prop :=
  (generatesHlt pipeBuild s = true ∧ mem = s.mem) ∨
    (generatesHlt pipeBuild s = false ∧ ∃ w, memReadI s.mem (currentPC pipeBuild s) = .ok (mem, w))

/-- A `B.cond` whose condition does not hold is in execute, no older instruction faults, and the
data access of this cycle comes back. -/
structure Machine.FallsThrough (s : Machine) : Prop where
  running : s.running = true
  branch : s.X_out.op = .bCond
  fails : condHolds s.X_out.cond s.NZCV = false
  older : s.W_out.status.isError = false ∧ s.M_out.faults s.mem = false
  completes : ∀ mem, s.FetchLeaves mem → ∃ q, accessed s.M_out mem = .ok q ∧
    (s.M_out.cached s.mem = true → q.1.dmem_status ≠ .inFlight)

def XInstr.IsBubble (x : XInstr) : Prop := x.op = .nop ∧ x.status = .bub

/-- In the run from a state, the next instruction in decode is the one at `pc`.  Until then every
cycle repeats what is in execute and decode or puts bubbles there, and no register enters
`P_ERROR`. -/
inductive Machine.ResumesAt (pc : BitVec 64) : Machine → Prop
  | delivers {s s' : Machine} (hstep : Step pipeBuild defaultOrder s s') (hctl : ¬s'.PipeError)
      (hX : s'.X_out.IsBubble) (hD : s.FetchedAt pipeBuild pc s'.D_out) : ResumesAt pc s
  | drops {s s' : Machine} (hstep : Step pipeBuild defaultOrder s s') (hctl : ¬s'.PipeError)
      (hX : s'.X_out.IsBubble) (hD : s'.D_out = {}) (hrest : ResumesAt pc s') : ResumesAt pc s
  | repeats {s s' : Machine} (hstep : Step pipeBuild defaultOrder s s') (hctl : ¬s'.PipeError)
      (hX : s'.X_out = s.X_out) (hD : s'.D_out = s.D_out) (hrest : ResumesAt pc s') :
      ResumesAt pc s

/-- The fetch of this cycle does not leave a miss in flight, or a data access through the cache
comes after it. -/
def Machine.FetchCompletes (s : Machine) : Prop :=
  ∃ mem, s.FetchLeaves mem ∧ (s.M_out.cached s.mem = true ∨ mem.dmem_status ≠ .inFlight)

/-- The fetch comes back when it is repeated. -/
def Machine.FetchSettles (s : Machine) : Prop :=
  generatesHlt pipeBuild s = true ∨
    ∃ r, settle (fun mem ↦ memReadI mem (currentPC pipeBuild s)) s.mem = some (.ok r)

def Machine.FetchesUncached (s : Machine) : Prop :=
  generatesHlt pipeBuild s = true ∨ isSpecialAddr (currentPC pipeBuild s) = true ∨
    usesCache s.mem (currentPC pipeBuild s) = false

instance (s : Machine) : Decidable s.FetchesUncached :=
  inferInstanceAs (Decidable (_ ∨ _ ∨ _))

/-! ## One cycle -/

section

variable {s s' : Machine} {mem : Mem} {r : Mem × DInstr × BitVec 64} {q : Mem × WInstr}

theorem fetchLeaves_of_fetchResult (h : fetchResult pipeBuild s s.mem s.F_PC = .ok r) :
    s.FetchLeaves r.1 := by
  unfold fetchResult imem at h
  cases hhlt : generatesHlt pipeBuild s with
  | true =>
    rw [hhlt] at h
    rw [← Except.ok.inj h]
    exact .inl ⟨hhlt, rfl⟩
  | false =>
    rw [hhlt] at h
    obtain ⟨w, hw, rfl⟩ := map_eq_ok.mp h
    obtain ⟨a, ha, ha'⟩ := bind_eq_ok.mp hw
    rw [← Except.ok.inj ha']
    exact .inr ⟨hhlt, a.2, ha⟩

theorem Machine.FetchLeaves.fetchResult (h : s.FetchLeaves mem) :
    ∃ r, fetchResult pipeBuild s s.mem s.F_PC = .ok r ∧ r.1 = mem := by
  unfold SystemEmulator.fetchResult imem
  rcases h with ⟨hhlt, rfl⟩ | ⟨hhlt, w, hw⟩
  · rw [hhlt]
    exact ⟨_, rfl, rfl⟩
  · rw [hhlt, hw]
    exact ⟨_, rfl, rfl⟩

theorem Machine.FetchLeaves.frame (h : s.FetchLeaves mem) : s.mem.Frame mem := by
  obtain ⟨r, hfetch, rfl⟩ := h.fetchResult
  exact fetchResult_frame _ _ _ _ r hfetch

theorem Machine.FetchLeaves.dmem_status (h : s.FetchLeaves mem) (huncached : s.FetchesUncached) :
    mem.dmem_status = s.mem.dmem_status := by
  rcases h with ⟨-, rfl⟩ | ⟨hhlt, w, hw⟩
  · rfl
  · obtain ⟨r, hr, hrw⟩ := bind_eq_ok.mp hw
    have hroute := huncached.resolve_left (by rw [hhlt]; exact Bool.false_ne_true)
    rw [← (Prod.mk.inj (Except.ok.inj hrw)).1]
    exact memRead_dmem_status hroute 4 r hr

/-- Without an access through the cache the status is the one that the fetch leaves. -/
theorem dmem_status_of_not_cached (hleaves : s.FetchLeaves mem)
    (hcached : s.M_out.cached s.mem = false) (hacc : accessed s.M_out mem = .ok q) :
    q.1.dmem_status = mem.dmem_status := by
  refine accessed_dmem_status ?_ q hacc
  unfold MInstr.cached at hcached ⊢
  rwa [hleaves.frame.usesCache]

/-- Without a load in execute the requests are consistent. -/
theorem CycleEffect.of_cycle (hs : s.Shape) (hldur : s.X_out.op ≠ .ldur)
    (h : cycle pipeBuild defaultOrder s = .ok s') :
    ∃ r q, CycleEffect s r q s' ∧ s'.Shape := by
  obtain ⟨r, q, -, -, ⟨hcontra, -⟩ | ⟨hrequests, heffect⟩⟩ := cycle_effect hs.ec_D hs.controls h
  · exact absurd (null_of_contradictory hs hcontra).1 hldur
  · exact ⟨r, q, heffect, hs.cycle heffect hrequests⟩

end

/-! ## A miss on the wrong path -/

/-- An address from the data segment on is no instruction address. -/
theorem imemErr_of_usesCache {m : Mem} {addr : BitVec 64} (h : usesCache m addr = true) :
    imemErr m addr = true := by
  unfold usesCache at h
  obtain ⟨-, hdata⟩ := Bool.and_eq_true_iff.mp h
  have hdata' := of_decide_eq_true hdata
  have hlt : decide (addr < m.seg_start_addr .data) = false := by
    rw [decide_eq_false_iff_not, BitVec.not_lt]
    exact hdata'
  unfold imemErr addrInImem
  rw [hlt, Bool.and_false]
  rfl

/-- A branch is held in execute by a miss of the fetch, which is not repeated. -/
structure Machine.Stuck (s : Machine) : Prop where
  shape : s.Shape
  branch : s.X_out.op = .bCond
  uncached : s.M_out.cached s.mem = false
  inFlight : s.mem.dmem_status = .inFlight
  fetch : s.FetchesUncached

section

variable {s s' : Machine}

theorem predicted_of_bCond (hs : s.Shape) (hbranch : s.X_out.op = .bCond) :
    currentPC pipeBuild s = s.F_out.pred_PC ∧ clearedStatus pipeBuild s = s.F_in.status := by
  refine currentPC_of_predicted (by rw [hbranch]; rfl) (hs.not_mispredicted ?_)
  rw [hbranch]
  exact Opcode.noConfusion

/-- A fetch that latches nothing has not reached the cache. -/
theorem not_usesCache_of_not_stop {r : Mem × DInstr × BitVec 64}
    (hfetch : fetchResult pipeBuild s s.mem s.F_PC = .ok r) (hstop : r.2.1.status.isStop = false) :
    usesCache s.mem (currentPC pipeBuild s) = false := by
  unfold fetchResult at hfetch
  cases hhlt : generatesHlt pipeBuild s with
  | true =>
    rw [hhlt] at hfetch
    rw [← Except.ok.inj hfetch] at hstop
    cases hstop
  | false =>
    rw [hhlt] at hfetch
    obtain ⟨a, himem, rfl⟩ := map_eq_ok.mp hfetch
    rw [Bool.eq_false_iff]
    intro huses
    have herr : a.2.2 = true := by
      obtain ⟨b, -, hb⟩ := bind_eq_ok.mp himem
      rw [← Except.ok.inj hb]
      exact imemErr_of_usesCache huses
    simp only [herr, fetchedInstr, ↓reduceIte] at hstop
    cases hstop

/-- The next fetch does not reach the cache: this one has latched a fault, or it has not reached
the cache either. -/
theorem stuck_of_inFlight (hs : s.Shape) (hbranch : s.X_out.op = .bCond)
    (hcached : s.M_out.cached s.mem = false) (hstep : Step pipeBuild defaultOrder s s')
    (hflight : s'.mem.dmem_status = .inFlight) :
    s'.Stuck ∧ s'.X_out = s.X_out := by
  obtain ⟨r, q, heffect, hs'⟩ :=
    CycleEffect.of_cycle hs (by rw [hbranch]; exact Opcode.noConfusion) hstep.2
  obtain ⟨hpred, -, hX, hM, -⟩ := heffect.frozen (heffect.mem ▸ hflight)
  have hbranch' : s'.X_out.op = .bCond := hX ▸ hbranch
  obtain ⟨hpc, hcleared⟩ := predicted_of_bCond hs hbranch
  obtain ⟨hpc', hcleared'⟩ := predicted_of_bCond hs' hbranch'
  have hcached' : s'.M_out.cached s'.mem = false := by
    rw [hM]
    unfold MInstr.cached at hcached ⊢
    rwa [heffect.frame.usesCache]
  refine ⟨⟨hs', hbranch', hcached', hflight, ?_⟩, hX⟩
  cases hstop : r.2.1.status.isStop with
  | true =>
    left
    apply generatesHlt_of_cleared
    rw [hcleared', heffect.F_in]
    exact isStop_latchedStatus hstop
  | false =>
    right
    right
    rw [heffect.frame.usesCache, hpc', hpred, ← hpc]
    exact not_usesCache_of_not_stop heffect.fetch hstop

theorem Machine.Stuck.step (h : s.Stuck) (hstep : Step pipeBuild defaultOrder s s') :
    s'.Stuck ∧ s'.X_out = s.X_out := by
  obtain ⟨r, q, heffect, -⟩ :=
    CycleEffect.of_cycle h.shape (by rw [h.branch]; exact Opcode.noConfusion) hstep.2
  have hleaves := fetchLeaves_of_fetchResult heffect.fetch
  have hflight : s'.mem.dmem_status = .inFlight := by
    rw [heffect.mem, dmem_status_of_not_cached hleaves h.uncached heffect.access,
      hleaves.dmem_status h.fetch]
    exact h.inFlight
  exact stuck_of_inFlight h.shape h.branch h.uncached hstep hflight

/-- Nothing behind the branch is ever delivered. -/
theorem Machine.Stuck.not_resumesAt {pc : BitVec 64} (h : s.Stuck) : ¬s.ResumesAt pc := by
  intro hresumes
  induction hresumes with
  | delivers hstep _ hX =>
    have hnop := hX.1
    rw [(h.step hstep).2, h.branch] at hnop
    cases hnop
  | drops hstep _ hX =>
    have hnop := hX.1
    rw [(h.step hstep).2, h.branch] at hnop
    cases hnop
  | repeats hstep _ _ _ _ ih => exact ih (h.step hstep).1

end

/-! ## The cycle of the branch -/

/-- The branch is alone in the pipeline, and the next fetch is at `pc`. -/
structure Machine.Redirected (pc : BitVec 64) (s : Machine) : Prop where
  shape : s.Shape
  running : s.running = true
  D_out : s.D_out = {}
  X_out : s.X_out = {}
  branch : s.M_out.op = .bCond
  fails : s.M_out.mispredicted = true
  target : s.M_out.multipurpose_val = pc
  passes : s.W_out.status.passes = true

section

variable {s s' : Machine} (h : s.FallsThrough) (hs : s.Shape)
include h

theorem Machine.FallsThrough.ne_ldur : s.X_out.op ≠ .ldur := by
  rw [h.branch]
  exact Opcode.noConfusion

include hs

/-- The branch leaves execute with the outcome that its condition has. -/
theorem Machine.FallsThrough.mispredicted : s.executing.mispredicted = true := by
  have hX := hs.wf.X_out
  have halu := hX.ALU_op (by rw [h.branch]; exact Opcode.noConfusion)
  have hcond : s.executing.cond_holds = condHolds s.X_out.cond s.NZCV := by
    unfold Machine.executing executed
    dsimp only
    rw [hX.X_sigs, halu, h.branch]
    rfl
  have hop : s.executing.op = .bCond := h.branch
  unfold MInstr.mispredicted
  rw [hcond, hop, h.fails]
  rfl

/-- A `HLT` ahead of the branch would be followed by another one. -/
theorem Machine.FallsThrough.not_stop :
    s.M_out.status.isStop = false ∧ s.W_out.status.isStop = false := by
  have hM : s.M_out.status.isStop = false := by
    rw [Bool.eq_false_iff]
    intro hstop
    have hX := hs.after_M hstop
    rw [h.branch] at hX
    cases hX
  refine ⟨hM, ?_⟩
  rw [Bool.eq_false_iff]
  intro hstop
  have hstop' := hs.wf.M_out.status.isStop_iff.mpr (.inl (hs.after_W hstop))
  rw [hM] at hstop'
  cases hstop'

end

/-- The cycle of the branch drops the instructions behind it when the fetch comes back. -/
theorem Machine.FallsThrough.redirected {s : Machine} (h : s.FallsThrough) (hs : s.Shape)
    (hfetch : s.FetchCompletes) :
    ∃ s', Step pipeBuild defaultOrder s s' ∧ s'.Redirected s.X_out.multipurpose_val ∧
      s'.mem.dmem_status ≠ .inFlight := by
  obtain ⟨mem, hleaves, hready⟩ := hfetch
  obtain ⟨r, hr, rfl⟩ := hleaves.fetchResult
  obtain ⟨q, hq, hcompletes⟩ := h.completes r.1 hleaves
  obtain ⟨s', hcycle⟩ := cycle_of_ok hr hq
  obtain ⟨r', q', heffect, hs'⟩ := CycleEffect.of_cycle hs h.ne_ldur hcycle
  obtain rfl : r = r' := Except.ok.inj (hr.symm.trans heffect.fetch)
  obtain rfl : q = q' := Except.ok.inj (hq.symm.trans heffect.access)
  have hreadyq : q.1.dmem_status ≠ .inFlight := by
    cases hcached : s.M_out.cached s.mem with
    | true => exact hcompletes hcached
    | false =>
      rw [dmem_status_of_not_cached hleaves hcached hq]
      exact hready.resolve_left (by rw [hcached]; exact Bool.false_ne_true)
  obtain ⟨hD, hX⟩ := heffect.squash hreadyq (h.mispredicted hs)
  obtain ⟨hM, hW⟩ := heffect.moves hreadyq
  obtain ⟨hstopM, hstopW⟩ := h.not_stop hs
  refine ⟨s', ⟨h.running, hcycle⟩, ⟨hs', ?_, hD, hX, ?_, ?_, ?_, ?_⟩, ?_⟩
  · rw [s'.running_eq, heffect.status]
    exact passes_of_not_stop hstopW h.older.1
  · rw [hM]
    exact h.branch
  · rw [hM]
    exact h.mispredicted hs
  · rw [hM]
    rfl
  · -- no fault is raised in memory
    have herror : q.2.status.isError = false := by
      rw [(accessed_frame s.M_out r.1 q hq).2, hleaves.frame.faults]
      exact h.older.2
    rw [hW]
    rw [← status_of_not_error hq herror] at hstopM
    exact passes_of_not_stop hstopM herror
  · rw [heffect.mem]
    exact hreadyq

/-! ## The fetch behind the branch -/

section

variable {pc : BitVec 64} {s s' : Machine} (h : s.Redirected pc)
include h

theorem Machine.Redirected.ne_ldur : s.X_out.op ≠ .ldur := by
  rw [h.X_out]
  exact Opcode.noConfusion

/-- The fetch goes on at `pc`, and the latch is cleared. -/
theorem Machine.Redirected.currentPC : currentPC pipeBuild s = pc ∧
    (pc ≠ 0 → (clearedStatus pipeBuild s).isStop = false) := by
  have hpc : SystemEmulator.currentPC pipeBuild s = pc := by
    rw [currentPC_of_mispredicted h.shape h.fails, h.target]
  refine ⟨hpc, fun hne ↦ ?_⟩
  rw [clearedStatus_of_redirected h.shape (by rwa [hpc]) (.inr h.fails)]
  rfl

/-- The branch does not access the data. -/
theorem Machine.Redirected.accessed (mem : Mem) :
    accessed s.M_out mem = .ok (mem, s.M_out.toWInstr 0 false) := by
  refine accessed_of_not_accesses ?_ mem
  unfold MInstr.accesses
  rw [h.shape.wf.M_out.M_sigs, h.branch]
  rfl

theorem Machine.Redirected.exists_step {mem : Mem} (hleaves : s.FetchLeaves mem) :
    ∃ s', Step pipeBuild defaultOrder s s' ∧ s'.mem = mem := by
  obtain ⟨r, hr, rfl⟩ := hleaves.fetchResult
  obtain ⟨s', hcycle⟩ := cycle_of_ok hr (h.accessed r.1)
  obtain ⟨r', q, heffect, -⟩ := CycleEffect.of_cycle h.shape h.ne_ldur hcycle
  obtain rfl : r = r' := Except.ok.inj (hr.symm.trans heffect.fetch)
  refine ⟨s', ⟨h.running, hcycle⟩, ?_⟩
  rw [heffect.mem, ← Except.ok.inj ((h.accessed r.1).symm.trans heffect.access)]

variable (hstep : Step pipeBuild defaultOrder s s')
include hstep

theorem Machine.Redirected.fetchLeaves : s.FetchLeaves s'.mem := by
  obtain ⟨r, q, heffect, -⟩ := CycleEffect.of_cycle h.shape h.ne_ldur hstep.2
  rw [heffect.mem, ← Except.ok.inj ((h.accessed r.1).symm.trans heffect.access)]
  exact fetchLeaves_of_fetchResult heffect.fetch

/-- The fetch is repeated while it is in flight. -/
theorem Machine.Redirected.waits (hflight : s'.mem.dmem_status = .inFlight) :
    s'.Redirected pc := by
  obtain ⟨r, q, heffect, hs'⟩ := CycleEffect.of_cycle h.shape h.ne_ldur hstep.2
  obtain ⟨-, hD, hX, hM, hW⟩ := heffect.frozen (heffect.mem ▸ hflight)
  refine ⟨hs', ?_, hD.trans h.D_out, hX.trans h.X_out, hM ▸ h.branch, hM ▸ h.fails, hM ▸ h.target,
    ?_⟩
  · rw [s'.running_eq, heffect.status]
    exact h.passes
  · rw [hW]
    rfl

/-- Then the instruction at `pc` follows two bubbles. -/
theorem Machine.Redirected.delivers (hready : s'.mem.dmem_status ≠ .inFlight) :
    ¬s'.PipeError ∧ s'.X_out.IsBubble ∧ s.FetchedAt pipeBuild pc s'.D_out := by
  obtain ⟨-, -, -, hs'⟩ := CycleEffect.of_cycle h.shape h.ne_ldur hstep.2
  have htransfer : Transfer false s s' :=
    transfer_of_cycle (List.Perm.refl _) hstep.2 hs'.controls
  have hmispred : s.executing.mispredicted = false := by
    refine not_mispredicted_of_ne ?_
    change s.X_out.op ≠ .bCond
    rw [h.X_out]
    exact Opcode.noConfusion
  obtain ⟨hpc, hcleared⟩ := h.currentPC
  refine ⟨hs'.controls, ?_, ?_⟩
  · rw [htransfer.X_out_eq hready]
    split
    · exact ⟨rfl, rfl⟩
    · unfold Machine.forwarded
      rw [h.D_out]
      exact ⟨rfl, rfl⟩
  · rw [(htransfer.delivers hready h.D_out hmispred h.ne_ldur).1, ← hpc]
    exact htransfer.fetchedAt fun hne ↦ hcleared (hpc ▸ hne)

end

/-! ## The delivery -/

section

variable {pc : BitVec 64} {s s' : Machine} (h : s.Redirected pc)
include h

/-- At address zero the fetch stage generates a `HLT`. -/
theorem Machine.Redirected.generatesHlt_iff : generatesHlt pipeBuild s = true ↔ pc = 0 := by
  obtain ⟨hpc, hcleared⟩ := h.currentPC
  rw [SystemEmulator.generatesHlt_iff, hpc]
  refine or_iff_left_of_imp fun hstop ↦ by_contra fun hne ↦ ?_
  rw [hcleared hne] at hstop
  cases hstop

/-- When the fetch comes back, the instruction behind the branch is delivered. -/
theorem Machine.Redirected.resumesAt (hready : s.mem.dmem_status ≠ .inFlight)
    (hsettles : s.FetchSettles) : s.ResumesAt pc := by
  by_cases hzero : pc = 0
  · obtain ⟨s', hstep, hmem⟩ := h.exists_step (.inl ⟨h.generatesHlt_iff.mpr hzero, rfl⟩)
    obtain ⟨hctl, hX, hD⟩ := h.delivers hstep (hmem ▸ hready)
    exact .delivers hstep hctl hX hD
  · have hreads : ∀ {u : Machine}, u.Redirected pc → generatesHlt pipeBuild u = false := by
      intro u hu
      rw [Bool.eq_false_iff, ne_eq, hu.generatesHlt_iff]
      exact hzero
    obtain ⟨r, hr⟩ := hsettles.resolve_left (by rw [hreads h]; exact Bool.false_ne_true)
    rw [h.currentPC.1] at hr
    -- induction on the attempts of the fetch
    refine Mem.settle.partial_correctness (fun mem ↦ memReadI mem pc)
      (fun m x ↦ ∀ r, x = .ok r → ∀ u : Machine, u.Redirected pc → u.mem = m → u.ResumesAt pc)
      ?_ s.mem _ hr r rfl s h rfl
    intro rec ih m x hx r hr u hu hmem
    cases hread : memReadI m pc with
    | error crash =>
      rw [hread] at hx
      cases hx
      cases hr
    | ok a =>
      rw [hread] at hx
      have hleaves : u.FetchLeaves a.1 := by
        refine .inr ⟨hreads hu, a.2, ?_⟩
        rw [hmem, hu.currentPC.1]
        exact hread
      obtain ⟨u', hstep, hmem'⟩ := hu.exists_step hleaves
      by_cases hflight : a.1.dmem_status = .inFlight
      · simp only [hflight, ↓reduceIte] at hx
        have hu' := hu.waits hstep (hmem' ▸ hflight)
        refine .drops hstep hu'.shape.controls ?_ hu'.D_out (ih a.1 x hx r hr u' hu' hmem')
        rw [hu'.X_out]
        exact ⟨rfl, rfl⟩
      · obtain ⟨hctl, hX, hD⟩ := hu.delivers hstep (hmem' ▸ hflight)
        exact .delivers hstep hctl hX hD

theorem Machine.Redirected.fetchSettles_of_step (hstep : Step pipeBuild defaultOrder s s')
    (hnext : s'.Redirected pc → s'.FetchSettles) : s.FetchSettles := by
  rcases h.fetchLeaves hstep with ⟨hhlt, -⟩ | ⟨hhlt, w, hw⟩
  · exact .inl hhlt
  · right
    by_cases hflight : s'.mem.dmem_status = .inFlight
    · have hs' := h.waits hstep hflight
      have hhlt' : ¬generatesHlt pipeBuild s' = true := by
        rw [hs'.generatesHlt_iff, ← h.generatesHlt_iff, hhlt]
        exact Bool.false_ne_true
      obtain ⟨r, hr⟩ := (hnext hs').resolve_left hhlt'
      rw [hs'.currentPC.1, ← h.currentPC.1] at hr
      exact ⟨r, (settle_of_wait hw hflight).trans hr⟩
    · exact ⟨_, settle_of_done hw hflight⟩

/-- The instruction behind the branch is delivered only when its fetch comes back. -/
theorem Machine.Redirected.fetchSettles (hresumes : s.ResumesAt pc) : s.FetchSettles := by
  induction hresumes with
  | delivers hstep _ _ hD =>
    refine h.fetchSettles_of_step hstep fun hs' ↦ absurd ?_ hD.status_ne_bub
    rw [hs'.D_out]
  | drops hstep _ _ _ _ ih => exact h.fetchSettles_of_step hstep ih
  | repeats hstep _ _ _ _ ih => exact h.fetchSettles_of_step hstep ih

end

/-! ## Fetches past the cache -/

section

variable {s s' : Machine} {mem : Mem}

theorem Machine.FetchesUncached.exists_leaves (h : s.FetchesUncached) :
    ∃ mem, s.FetchLeaves mem ∧ mem.dmem_status = s.mem.dmem_status := by
  cases hhlt : generatesHlt pipeBuild s with
  | true => exact ⟨s.mem, .inl ⟨hhlt, rfl⟩, rfl⟩
  | false =>
    have hroute := h.resolve_left (by rw [hhlt]; exact Bool.false_ne_true)
    have hnull : currentPC pipeBuild s ≠ NULL_ADDR := (not_generatesHlt_iff.mp hhlt).1
    obtain ⟨r, hr, hsame⟩ := (memRead_sameCache_iff s.mem (.inl (rfl : 4 = 4)) hnull).mpr hroute
    refine ⟨r.1, .inr ⟨hhlt, r.2.setWidth 32, ?_⟩, hsame.dmem_status⟩
    unfold memReadI
    rw [hr]
    rfl

theorem Machine.FetchesUncached.completes (h : s.FetchesUncached)
    (hready : s.mem.dmem_status ≠ .inFlight) : s.FetchCompletes := by
  obtain ⟨mem, hleaves, hstatus⟩ := h.exists_leaves
  exact ⟨mem, hleaves, .inr (hstatus ▸ hready)⟩

theorem Machine.FetchesUncached.settles (h : s.FetchesUncached)
    (hready : s.mem.dmem_status ≠ .inFlight) : s.FetchSettles := by
  obtain ⟨mem, ⟨hhlt, -⟩ | ⟨-, w, hw⟩, hstatus⟩ := h.exists_leaves
  · exact .inl hhlt
  · exact .inr ⟨_, settle_of_done hw (hstatus ▸ hready)⟩

theorem Mem.Prompt.fetchesUncached (h : s.mem.Prompt) : s.FetchesUncached :=
  .inr (.inr (h.usesCache _))

theorem Machine.FetchLeaves.prompt (h : s.FetchLeaves mem) (hs : s.mem.Prompt) : mem.Prompt := by
  rcases h with ⟨-, rfl⟩ | ⟨-, w, hw⟩
  · exact hs
  · obtain ⟨r, hr, hrw⟩ := bind_eq_ok.mp hw
    rw [← (Prod.mk.inj (Except.ok.inj hrw)).1]
    exact memRead_prompt hs _ _ r hr

theorem CycleEffect.prompt {r : Mem × DInstr × BitVec 64} {q : Mem × WInstr}
    (h : CycleEffect s r q s') (hs : s.mem.Prompt) : s'.mem.Prompt := by
  rw [h.mem]
  exact accessed_prompt ((fetchLeaves_of_fetchResult h.fetch).prompt hs) s.M_out q h.access

theorem Run.prompt {s₀ : Machine} (hs₀ : s₀.Shape) (hmem : s₀.mem.Prompt)
    (h : Run pipeBuild s₀ s) (hs : s.running = true) : s.mem.Prompt := by
  induction h with
  | refl => exact hmem
  | tail hrun hstep ih =>
    obtain ⟨r, q, heffect, -⟩ := effect_of_running (Run.shape hs₀ hrun hstep.1) hstep.2 hs
    exact heffect.prompt (ih hstep.1)

/-- With no data access in memory, nothing is in flight there. -/
theorem completes_of_not_accesses (h : s.M_out.accesses = false) (mem : Mem) :
    ∃ q, accessed s.M_out mem = .ok q ∧
      (s.M_out.cached s.mem = true → q.1.dmem_status ≠ .inFlight) := by
  refine ⟨_, accessed_of_not_accesses h mem, fun hcached ↦ ?_⟩
  unfold MInstr.cached at hcached
  rw [h] at hcached
  cases hcached

end

/-! ## The recovery -/

theorem Machine.FallsThrough.resumesAt {s : Machine} (h : s.FallsThrough) (hs : s.Shape)
    (hfetch : s.FetchCompletes)
    (hnext : ∀ s', Step pipeBuild defaultOrder s s' → s'.FetchSettles) :
    s.ResumesAt s.X_out.multipurpose_val := by
  obtain ⟨s', hstep, hs', hready⟩ := h.redirected hs hfetch
  refine .drops hstep hs'.shape.controls ?_ hs'.D_out (hs'.resumesAt hready (hnext s' hstep))
  rw [hs'.X_out]
  exact ⟨rfl, rfl⟩

/-- A branch behind which a fetch is left in flight stays in execute forever. -/
theorem Machine.FallsThrough.not_resumesAt {s s' : Machine} (h : s.FallsThrough) (hs : s.Shape)
    (hcached : s.M_out.cached s.mem = false) (hstep : Step pipeBuild defaultOrder s s')
    (hflight : s'.mem.dmem_status = .inFlight) {pc : BitVec 64} : ¬s.ResumesAt pc := by
  obtain ⟨hstuck, hX⟩ := stuck_of_inFlight hs h.branch hcached hstep hflight
  have hbubble : ¬s'.X_out.IsBubble := by
    rintro ⟨hnop, -⟩
    rw [hX, h.branch] at hnop
    cases hnop
  intro hresumes
  cases hresumes with
  | delivers hstep' _ hX' => exact hbubble (hstep.unique hstep' ▸ hX')
  | drops hstep' _ hX' => exact hbubble (hstep.unique hstep' ▸ hX')
  | repeats hstep' _ _ _ hrest =>
    obtain rfl := hstep.unique hstep'
    exact hstuck.not_resumesAt hrest

theorem Machine.ResumesAt.exists_step {pc : BitVec 64} {s : Machine} (h : s.ResumesAt pc) :
    ∃ s', Step pipeBuild defaultOrder s s' := by
  cases h with
  | delivers hstep => exact ⟨_, hstep⟩
  | drops hstep => exact ⟨_, hstep⟩
  | repeats hstep => exact ⟨_, hstep⟩

theorem Machine.FallsThrough.fetchCompletes {s : Machine} (h : s.FallsThrough) (hs : s.Shape)
    {pc : BitVec 64} (hresumes : s.ResumesAt pc) : s.FetchCompletes := by
  obtain ⟨s', hstep⟩ := hresumes.exists_step
  obtain ⟨r, q, heffect, -⟩ := CycleEffect.of_cycle hs h.ne_ldur hstep.2
  have hleaves := fetchLeaves_of_fetchResult heffect.fetch
  cases hcached : s.M_out.cached s.mem with
  | true => exact ⟨r.1, hleaves, .inl hcached⟩
  | false =>
    refine ⟨r.1, hleaves, .inr fun hflight ↦ h.not_resumesAt hs hcached hstep ?_ hresumes⟩
    rw [heffect.mem, dmem_status_of_not_cached hleaves hcached heffect.access]
    exact hflight

/-- A conditional branch that is not taken is recovered from exactly when the fetch on the wrong
path does not leave a miss in flight and the fetch behind the branch comes back. -/
theorem bCond_recovers_iff (GPR : ℕ → BitVec 64) (mem : Mem) (entry : BitVec 64) {s : Machine}
    (hrun : Run pipeBuild (initMachine GPR mem entry) s) (h : s.FallsThrough) :
    s.ResumesAt s.X_out.multipurpose_val ↔ s.FetchCompletes ∧
      ∀ s', Step pipeBuild defaultOrder s s' → s'.FetchSettles := by
  have hs := hrun.shape (initMachine_shape GPR mem entry) h.running
  constructor
  · intro hresumes
    have hfetch := h.fetchCompletes hs hresumes
    refine ⟨hfetch, fun u hu ↦ ?_⟩
    obtain ⟨s', hstep, hs', -⟩ := h.redirected hs hfetch
    obtain rfl := hstep.unique hu
    refine hs'.fetchSettles ?_
    cases hresumes with
    | delivers hstep' _ _ hD =>
      obtain rfl := hstep.unique hstep'
      refine absurd ?_ hD.status_ne_bub
      rw [hs'.D_out]
    | drops hstep' _ _ _ hrest =>
      obtain rfl := hstep.unique hstep'
      exact hrest
    | repeats hstep' _ hX _ hrest =>
      obtain rfl := hstep.unique hstep'
      exact hrest
  · rintro ⟨hfetch, hnext⟩
    exact h.resumesAt hs hfetch hnext

/-- `B.NE` is not taken with a `RET` to address zero in decode and an illegal word behind it. -/
theorem bCond_recovers_ret : ∃ s, Run pipeBuild (initMachine (fun _ ↦ 0)
      ((textImage [0x54000041, 0xD503201F, 0xD65F03C0]).withEmptyCache 1 8 8 2) 0x400000) s ∧
    s.FallsThrough ∧ s.ResumesAt s.X_out.multipurpose_val := by
  have hvalues : (runLoop pipeBuild 2 (fun _ ↦ defaultOrder) (initMachine (fun _ ↦ 0)
      ((textImage [0x54000041, 0xD503201F, 0xD65F03C0]).withEmptyCache 1 8 8 2) 0x400000) >>=
        fun s ↦ (cycle pipeBuild defaultOrder s).map fun s' ↦
          (decide (s.running = true ∧ s.X_out.op = .bCond ∧ s.D_out.op = .ret ∧
              condHolds s.X_out.cond s.NZCV = false ∧ s.W_out.status.isError = false ∧
              s.M_out.faults s.mem = false ∧ s.M_out.accesses = false),
            decide (s.FetchesUncached ∧ s.mem.dmem_status ≠ .inFlight),
            decide (s'.FetchesUncached ∧ s'.mem.dmem_status ≠ .inFlight))) =
      .ok (true, true, true) := by
    decide +kernel
  obtain ⟨s, hs, hvalues⟩ := bind_eq_ok.mp hvalues
  obtain ⟨s', hs', hvalues⟩ := map_eq_ok.mp hvalues
  simp only [Prod.mk.injEq, decide_eq_true_eq] at hvalues
  obtain ⟨⟨hrunning, hop, -, hfails, hW, hM, haccess⟩, ⟨hfetch, hready⟩, hfetch', hready'⟩ :=
    hvalues
  have hrun := runLoop_run (initMachine_running _ _ _) hs
  have hfalls : s.FallsThrough :=
    ⟨hrunning, hop, hfails, ⟨hW, hM⟩, fun mem _ ↦ completes_of_not_accesses haccess mem⟩
  refine ⟨s, hrun, hfalls, (bCond_recovers_iff _ _ _ hrun hfalls).mpr
    ⟨hfetch.completes hready, fun u hu ↦ ?_⟩⟩
  obtain rfl : s' = u := Step.unique ⟨hrunning, hs'⟩ hu
  exact hfetch'.settles hready'

/-- `B.NE` is not taken with a branch to the data segment in decode. -/
theorem bCond_wrong_path_freezes : ¬∀ (GPR : ℕ → BitVec 64) (mem : Mem) (entry : BitVec 64)
    (s : Machine), Run pipeBuild (initMachine GPR mem entry) s → s.FallsThrough →
      s.ResumesAt s.X_out.multipurpose_val := by
  intro hclaim
  have hvalues : (runLoop pipeBuild 2 (fun _ ↦ defaultOrder) (initMachine (fun _ ↦ 0)
      ((textImage [0x54000041, 0xD4400000, 0x140FFFFE]).withEmptyCache 1 8 8 2) 0x400000) >>=
        fun s ↦ (cycle pipeBuild defaultOrder s).map fun s' ↦
          (decide (s.running = true ∧ s.X_out.op = .bCond ∧
              condHolds s.X_out.cond s.NZCV = false ∧ s.W_out.status.isError = false ∧
              s.M_out.faults s.mem = false ∧ s.M_out.accesses = false),
            decide (s'.mem.dmem_status = .inFlight))) = .ok (true, true) := by
    decide +kernel
  obtain ⟨s, hs, hvalues⟩ := bind_eq_ok.mp hvalues
  obtain ⟨s', hs', hvalues⟩ := map_eq_ok.mp hvalues
  simp only [Prod.mk.injEq, decide_eq_true_eq] at hvalues
  obtain ⟨⟨hrunning, hop, hfails, hW, hM, haccess⟩, hflight⟩ := hvalues
  have hrun := runLoop_run (initMachine_running _ _ _) hs
  have hfalls : s.FallsThrough :=
    ⟨hrunning, hop, hfails, ⟨hW, hM⟩, fun mem _ ↦ completes_of_not_accesses haccess mem⟩
  refine hfalls.not_resumesAt (hrun.shape (initMachine_shape _ _ _) hrunning) ?_
    ⟨hrunning, hs'⟩ hflight (hclaim _ _ _ s hrun hfalls)
  unfold MInstr.cached
  rw [haccess]
  rfl

/-- Without a cache every conditional branch that is not taken is recovered from. -/
theorem bCond_recovers_of_cacheless (GPR : ℕ → BitVec 64) {mem : Mem} (hcache : mem.cache = none)
    (entry : BitVec 64) {s : Machine} (hrun : Run pipeBuild (initMachine GPR mem entry) s)
    (h : s.FallsThrough) : s.ResumesAt s.X_out.multipurpose_val := by
  have hinit := initMachine_shape GPR mem entry
  have hs := hrun.shape hinit h.running
  have hprompt : s.mem.Prompt := hrun.prompt hinit ⟨hcache, MemStatus.noConfusion⟩ h.running
  refine h.resumesAt hs (hprompt.fetchesUncached.completes hprompt.2) fun s' hstep ↦ ?_
  obtain ⟨r, q, heffect, -⟩ := CycleEffect.of_cycle hs h.ne_ldur hstep.2
  have hprompt' := heffect.prompt hprompt
  exact hprompt'.fetchesUncached.settles hprompt'.2

end SystemEmulator
