import SystemEmulator.Branches.Delivery
import SystemEmulator.Pipeline.FaultPC

/-!
# Recovery from a compare-and-branch that is not taken

`CBZ` and `CBNZ` are predicted taken and decided in decode.  When the branch is not taken,
`handle_hazards` drops the instruction fetched at the predicted target and overrides `F_PC` with
the address behind the branch.  The fetch register takes the override over only when it is not
stalled, and it is stalled when the fetch at the predicted target meets a halt or a fault, which is
latched in `F_in` besides; nothing clears the latch.
-/

namespace SystemEmulator

open Relation Result

/-- In the run from `s` to `v`, the instruction at `pc` has been fetched, and it is in decode.  A
`HLT` may be there in the form in which the fetch stage generates it. -/
def DeliversFrom (pc : BitVec 64) (s v : Machine) : Prop :=
  ∃ w d, Reachable ecBuild s w ∧ Reachable ecBuild w v ∧ w.FetchedAt ecBuild pc d ∧
    (v.D_out = d ∨ (d.op = .hlt ∧ v.D_out = generatedHlt d))

/-- A `CBZ` or `CBNZ` on the correct path is in decode with its final operand, no data access is in
flight, no older instruction raises a fault, and the branch is not taken. -/
structure Machine.DecidesUntaken (s : Machine) : Prop where
  running : s.running = true
  branch : s.D_out.op = .cbz ∨ s.D_out.op = .cbnz
  correctPath : s.executing.mispredicted = false
  final : s.loadUse = false
  older : s.W_out.status.isError = false
  untaken : ∃ q, accessed s.M_out s.mem = .ok q ∧ q.1.dmem_status ≠ .inFlight ∧
    q.2.status.isError = false ∧ checkCbHazard s.D_out.op (s.forwarded q.2).val_a = true

/-- The instruction fetched at the predicted target is dropped, and the next one in decode, which
gets there in every run, is the one behind the branch. -/
def Machine.Recovers (s : Machine) : Prop :=
  ∃ pc insnbits, s.D_out = fetchedInstr ecBuild pc insnbits false ∧
    (∀ order : List ProcStage, order.Perm defaultOrder → ∃ s', cycle ecBuild order s = .ok s') ∧
    ∀ s', AnyStep ecBuild s s' → s'.D_out = {} ∧
      s'.Inevitable fun _ v ↦ DeliversFrom (pc + 4) s v ∧ v.mem.undefined = false

/-- The fetch at the predicted target reads a valid instruction from a page, or the `HLT` directly
behind the branch. -/
structure Machine.FetchesValid (s : Machine) : Prop where
  reads : generatesHlt ecBuild s = false
  plain : QuietFetch s.mem (currentPC ecBuild s)
  valid : ∀ d, s.FetchedAt ecBuild (currentPC ecBuild s) d → d.status.isStop = true →
    d.op = .hlt ∧ currentPC ecBuild s = s.D_out.multipurpose_val

/-! ## The cycle in which the branch is decided -/

/-- The branch goes on to execute, the wrong instruction is dropped, and the fetch register takes
the override over unless it is stalled. -/
theorem Transfer.overrides {ec : Bool} {s s' : Machine} (h : Transfer ec s s')
    (hready : s'.mem.dmem_status ≠ .inFlight) (hbranch : s.D_out.op = .cbz ∨ s.D_out.op = .cbnz)
    (huse : s.loadUse = false) (hcb : checkCbHazard s.D_out.op (s.forwarded s'.W_in).val_a = true) :
    s'.D_out = {} ∧
      s'.F_out.pred_PC = if s'.D_in.status.isStop then s.F_out.pred_PC else s'.PC := by
  have hreq : s.cycleRequests s' = _ := if_neg hready
  have hret : (s.D_out.op == .ret) = false ∧ checkBrHazard s.D_out.op = false := by
    rcases hbranch with hop | hop <;> rw [hop] <;> exact ⟨rfl, rfl⟩
  unfold Machine.loadUse at huse
  obtain ⟨hpred, hD⟩ := And.intro h.pred_PC h.D_out
  rw [hreq] at hpred hD
  simp only [hazardRequest, ↓reduceIte, huse, hcb, hret, checkRetHazard, Bool.not_false,
    Bool.and_true, Bool.false_and, Bool.or_false, Bool.or_true] at hpred hD
  refine ⟨hD, hpred.trans ?_⟩
  cases s'.D_in.status <;> rfl

/-- What decode holds has been fetched, generated or dropped. -/
theorem Reachable.D_out_record {build : Build} {GPR : ℕ → BitVec 64} {mem : Mem}
    {entry : BitVec 64} {s : Machine} (h : Reachable build (initMachine GPR mem entry) s) :
    s.D_out = {} ∨ (∃ d, s.D_out = generatedHlt d) ∨
      ∃ pc insnbits err, s.D_out = fetchedInstr build pc insnbits err := by
  induction h with
  | refl => exact .inl rfl
  | tail _ hstep ih =>
    obtain ⟨order, horder, -, hcycle⟩ := hstep
    obtain ⟨t, hstages, rfl⟩ := cycle_ok hcycle
    have ht := stagesEffect_of_perm horder hstages
    rw [finishCycle_eq]
    refine clock_ind (P := fun d : DInstr ↦ d = {} ∨ (∃ d', d = generatedHlt d') ∨
      ∃ pc insnbits err, d = fetchedInstr build pc insnbits err) ?_ ?_ (.inl rfl) _
    · exact .inr (ht.D_in.imp (fun h ↦ ⟨_, h⟩) id)
    · change t.D_out = {} ∨ (∃ d', t.D_out = generatedHlt d') ∨
        ∃ pc insnbits err, t.D_out = fetchedInstr build pc insnbits err
      rw [ht.outputs.2.1]
      exact ih

/-- A branch in decode has been fetched at the address in front of its `multipurpose_val`. -/
theorem Reachable.branch_fetched {GPR : ℕ → BitVec 64} {mem : Mem} {entry : BitVec 64}
    {s : Machine} (h : Reachable ecBuild (initMachine GPR mem entry) s)
    (hbranch : s.D_out.op = .cbz ∨ s.D_out.op = .cbnz) :
    ∃ pc insnbits, s.D_out = fetchedInstr ecBuild pc insnbits false ∧
      s.D_out.multipurpose_val = pc + 4 := by
  rcases h.D_out_record with hD | ⟨d, hD⟩ | ⟨pc, insnbits, err, hD⟩
  · rw [hD] at hbranch
    rcases hbranch with hop | hop <;> cases hop
  · rw [hD] at hbranch
    rcases hbranch with hop | hop <;> cases hop
  · cases err with
    | true =>
      rw [hD] at hbranch
      rcases hbranch with hop | hop <;> cases hop
    | false =>
      refine ⟨pc, insnbits, hD, ?_⟩
      rw [hD] at hbranch ⊢
      refine multipurpose_val_of_ne_adrp fun hadrp ↦ ?_
      rw [hadrp] at hbranch
      rcases hbranch with hop | hop <;> cases hop

theorem Reachable.haltsBehind {ec : Bool} {GPR : ℕ → BitVec 64} {mem : Mem} {entry : BitVec 64}
    {s : Machine} (h : Reachable ⟨true, ec⟩ (initMachine GPR mem entry) s)
    (hs : s.running = true) : s.HaltsBehind := by
  induction h with
  | refl => exact initMachine_haltsBehind GPR mem entry
  | tail hreach hstep ih =>
    have hrunning := hstep.choose_spec.2.1
    have hguarded := Reachable.guarded (initMachine_guarded GPR mem entry) hreach hrunning
    exact (ih hrunning).transfer hguarded (hstep.transfer (hstep.not_pipeError hs))

/-! ## The decision -/

/-- What the cycle of the decision leaves for the next ones. -/
structure LeavesUntaken (s s' : Machine) : Prop where
  ready : s'.mem.dmem_status ≠ .inFlight
  passes : s'.W_in.status.passes = true
  untaken : checkCbHazard s.D_out.op (s.forwarded s'.W_in).val_a = true

section

variable {s : Machine} (h : s.DecidesUntaken) (hhalts : s.HaltsBehind) (hs : s.Guarded)
include h hhalts hs

/-- A `HLT` ahead of the branch would be followed by another one. -/
theorem Machine.DecidesUntaken.not_stop :
    s.M_out.status.isStop = false ∧ s.W_out.status.isStop = false := by
  have hM : s.M_out.status.isStop = false := by
    rw [Bool.eq_false_iff]
    intro hstop
    have hX : s.X_out.status.isStop = true :=
      hs.wf.X_out.status.isStop_iff.mpr (.inl (hhalts.after_M hstop))
    have hD := hhalts.after_X hX
    rcases h.branch with hop | hop <;> rw [hD] at hop <;> cases hop
  refine ⟨hM, ?_⟩
  rw [Bool.eq_false_iff]
  intro hstop
  have hstop' := hs.wf.M_out.status.isStop_iff.mpr (.inl (hhalts.after_W hstop))
  rw [hM] at hstop'
  cases hstop'

/-- Beside a plain fetch the cycle takes place, whatever the order of its stages. -/
theorem Machine.DecidesUntaken.exists_cycle (hvalid : s.FetchesValid) {order : List ProcStage}
    (horder : order.Perm defaultOrder) :
    ∃ s', cycle ecBuild order s = .ok s' ∧ LeavesUntaken s s' := by
  obtain ⟨q, hacc, hready, hok, hcb⟩ := h.untaken
  have hpc : s.fetchPC = currentPC ecBuild s :=
    if_neg (by rw [hvalid.reads]; exact Bool.false_ne_true)
  obtain ⟨s', hcycle, hsame, hW⟩ := exists_cycle_of_attempted horder fun x hx ↦
    hx.of_quiet (.inr (hpc.symm ▸ hvalid.plain)) hacc
  replace hW : s'.W_in = q.2 := hW
  refine ⟨s', hcycle, ?_, ?_, hW ▸ hcb⟩
  · rw [show s'.mem.dmem_status = q.1.dmem_status from hsame.dmem_status]
    exact hready
  · obtain ⟨hM, -⟩ := h.not_stop hhalts hs
    rw [← status_of_not_error hacc hok] at hM
    rw [hW]
    exact passes_of_not_stop hM hok

end

/-! ## The cycles until the next instruction -/

/-- The branch is in execute, and the fetch goes on behind it; or it has done so in a cycle with a
data access in flight and has latched the `HLT` that it met. -/
structure Recovering (pc : BitVec 64) (s u : Machine) : Prop where
  reach : Reachable ecBuild s u
  X_out : u.X_out.op = .cbz ∨ u.X_out.op = .cbnz
  M_out : u.M_out.mispredicted = false
  fetch : (u.F_out.pred_PC = pc ∧ u.F_in.status.isStop = false) ∨
    (u.F_in.status = .hlt ∧ ∃ w d, Reachable ecBuild s w ∧ Reachable ecBuild w u ∧
      w.FetchedAt ecBuild pc d ∧ d.op = .hlt ∧ (u.D_in = d ∨ u.D_in = generatedHlt d))

/-- A record with the status of a halt is one. -/
theorem DInstr.WF.op_of_hlt {d : DInstr} (h : d.WF) (hstatus : d.status = .hlt) :
    d.op = .hlt := by
  rcases h.status with hop | ⟨-, hbub⟩
  · rw [hstatus] at hop
    revert hop
    cases d.op <;> intro hop <;> first | rfl | cases hop
  · rw [hstatus] at hbub
    cases hbub

/-- The decision starts the recovery. -/
theorem recovering_of_untaken {s s' : Machine} (h : s.DecidesUntaken) (hhalts : s.HaltsBehind)
    (hs : s.Guarded) (hvalid : s.FetchesValid) (hstep : AnyStep ecBuild s s') :
    s'.AwaitsNext ∧ Recovering s.D_out.multipurpose_val s s' := by
  obtain ⟨order, horder, -, hcycle⟩ := id hstep
  obtain ⟨t, hcycle', hleaves⟩ := h.exists_cycle hhalts hs hvalid horder
  obtain rfl : t = s' := Except.ok.inj (hcycle'.symm.trans hcycle)
  have herror : ¬t.PipeError := by
    refine cycle_not_pipeError horder hs.wf hs.controls ?_ hcycle
    rintro ⟨hop, -⟩
    rcases h.branch with hop' | hop' <;> rw [hop'] at hop <;> cases hop
  have htransfer : Transfer true s t := transfer_of_cycle horder hcycle herror
  obtain ⟨hM, hW⟩ := htransfer.moves hleaves.ready
  have hX : t.X_out = s.forwarded t.W_in := by
    rw [htransfer.X_out_eq hleaves.ready, h.final, h.correctPath]
    rfl
  have hbranch : t.X_out.op = .cbz ∨ t.X_out.op = .cbnz := hX ▸ h.branch
  obtain ⟨hD, hpred⟩ :=
    htransfer.overrides hleaves.ready h.branch h.final hleaves.untaken
  have hcleared := (not_generatesHlt_iff.mp hvalid.reads).2
  have hfetched := htransfer.fetchedAt fun _ ↦ hcleared
  have hok : t.W_in.status.isError = false := by
    have hpasses := hleaves.passes
    revert hpasses
    cases t.W_in.status <;> intro hpasses <;> first | rfl | cases hpasses
  refine ⟨⟨hs.transfer (hs.wf.cycle horder hcycle) herror htransfer, ?_, hW ▸ hleaves.passes, hD,
    ?_⟩, .single hstep, hbranch, hM ▸ h.correctPath, ?_⟩
  · rw [t.running_eq, htransfer.status]
    exact passes_of_not_stop (h.not_stop hhalts hs).2 h.older
  · rcases hbranch with hop | hop <;> rw [hop] <;> exact ⟨Opcode.noConfusion, Opcode.noConfusion⟩
  · cases hstop : t.D_in.status.isStop with
    | false =>
      left
      rw [hstop] at hpred
      refine ⟨?_, ?_⟩
      · rw [hpred]
        exact htransfer.recovered hleaves.ready hok h.final hleaves.untaken
      · rw [htransfer.F_in, latchedStatus_of_not_stop hstop]
        exact hcleared
    | true =>
      -- the predicted target is the instruction behind the branch, a `HLT`
      right
      obtain ⟨hop, htarget⟩ := hvalid.valid t.D_in hfetched hstop
      have hlatched : t.D_in.status = .hlt := by
        rcases hfetched.wf.status with hop' | ⟨-, hbub⟩
        · rw [hop', hop]
          rfl
        · exact absurd hbub hfetched.status_ne_bub
      refine ⟨?_, s, t.D_in, .refl, .single hstep, htarget ▸ hfetched, hop, .inl rfl⟩
      rw [htransfer.F_in, latchedStatus_of_stop hstop, hlatched]

section

variable {pc : BitVec 64} {s u u' : Machine} (h : Recovering pc s u) (hu : u.AwaitsNext)
  (hstep : AnyStep ecBuild u u')
include h

/-- Nothing redirects the fetch. -/
theorem Recovering.predicted : u.latches = true ∧ currentPC ecBuild u = u.F_out.pred_PC ∧
    clearedStatus ecBuild u = u.F_in.status := by
  have hindirect : isIndirectBranch u.X_out.op = false := by
    rcases h.X_out with hop | hop <;> rw [hop] <;> rfl
  refine ⟨?_, currentPC_of_predicted hindirect h.M_out⟩
  unfold Machine.latches
  rw [hindirect, h.M_out]
  rfl

include hu hstep

/-- The record that the fetch hands on. -/
theorem Recovering.fetched :
    (u.F_out.pred_PC = pc ∧ u.F_in.status.isStop = false ∧ u.FetchedAt ecBuild pc u'.D_in) ∨
      (u'.D_in.status = .hlt ∧ ∃ w d, Reachable ecBuild s w ∧ Reachable ecBuild w u' ∧
        w.FetchedAt ecBuild pc d ∧ d.op = .hlt ∧ u'.D_in = generatedHlt d) := by
  obtain ⟨htransfer, -⟩ := hu.transfer hstep
  obtain ⟨-, hcurrent, hcleared⟩ := h.predicted
  rcases h.fetch with ⟨hpred, hstatus⟩ | ⟨hstatus, w, d, hsw, hwu, hfetched, hop, hD_in⟩
  · refine .inl ⟨hpred, hstatus, ?_⟩
    rw [← hpred, ← hcurrent]
    exact htransfer.fetchedAt fun _ ↦ hcleared ▸ hstatus
  · -- the latched `HLT`
    right
    have hgenerates : generatesHlt ecBuild u = true := by
      apply generatesHlt_of_cleared
      rw [hcleared, hstatus]
      rfl
    have hD_in' : u'.D_in = generatedHlt d := by
      obtain ⟨mem, F_PC, r, -, hfetch, hr⟩ := htransfer.fetch
      unfold fetchResult at hfetch
      rw [if_pos hgenerates] at hfetch
      rw [hr, ← Except.ok.inj hfetch]
      rcases hD_in with heq | heq
      · rw [heq]
      · rw [heq]
        rfl
    exact ⟨by rw [hD_in']; rfl, w, d, hsw, hwu.tail hstep, hfetched, hop, hD_in'⟩

/-- A frozen cycle loses the instruction only when the fetch latches a fault. -/
theorem Recovering.waits (hflight : u'.mem.dmem_status = .inFlight)
    (hagain : refetched u.latches u.fetchPC u'.D_in.status ≠ none) : Recovering pc s u' := by
  obtain ⟨htransfer, -⟩ := hu.transfer hstep
  obtain ⟨hpred', -, hX, hM, -⟩ := htransfer.frozen hflight
  obtain ⟨hlatches, -, hcleared⟩ := h.predicted
  refine ⟨h.reach.tail hstep, hX ▸ h.X_out, hM ▸ h.M_out, ?_⟩
  rcases h.fetched hu hstep with ⟨hpred, hstatus, hfetched⟩ | ⟨hhlt, w, d, hsw, hwu, hrest⟩
  · cases hstop : u'.D_in.status.isStop with
    | false =>
      left
      rw [hpred', htransfer.F_in, latchedStatus_of_not_stop hstop, hcleared]
      exact ⟨hpred, hstatus⟩
    | true =>
      right
      have hhlt : u'.D_in.status = .hlt := by
        rw [hlatches] at hagain
        exact (isStop_cases hstop).resolve_right fun hins ↦ hagain (by rw [hins]; rfl)
      refine ⟨?_, u, u'.D_in, h.reach, .single hstep, hfetched, hfetched.wf.op_of_hlt hhlt,
        .inl rfl⟩
      rw [htransfer.F_in, latchedStatus_of_stop hstop, hhlt]
  · refine .inr ⟨?_, w, d, hsw, hwu, hrest.1, hrest.2.1, .inr hrest.2.2⟩
    rw [htransfer.F_in, latchedStatus_of_stop (by rw [hhlt]; rfl), hhlt]

/-- Any other cycle hands the next instruction to decode. -/
theorem Recovering.delivers (hready : u'.mem.dmem_status ≠ .inFlight) : DeliversFrom pc s u' := by
  have hD := hu.delivers hstep hready
  rcases h.fetched hu hstep with ⟨-, -, hfetched⟩ | ⟨-, w, d, hsw, hwu, hfetched, hop, hD_in⟩
  · exact ⟨u, u'.D_in, h.reach, .single hstep, hfetched, .inl hD⟩
  · exact ⟨w, d, hsw, hwu, hfetched, .inr ⟨hop, hD.trans hD_in⟩⟩

end

/-- A branch that is not taken is recovered from when the word at its predicted target neither
halts nor faults, and the fetch behind the branch comes back. -/
theorem untaken_branch_recovers (GPR : ℕ → BitVec 64) (mem : Mem) (entry : BitVec 64)
    {s : Machine} (hreach : Reachable ecBuild (initMachine GPR mem entry) s)
    (h : s.DecidesUntaken) (hvalid : s.FetchesValid)
    (hnext : ∀ s', AnyStep ecBuild s s' → s'.FetchComesBack) : s.Recovers := by
  obtain ⟨pc, insnbits, hD, hmp⟩ := hreach.branch_fetched h.branch
  have hs := hreach.guarded (initMachine_guarded GPR mem entry) h.running
  have hhalts := hreach.haltsBehind h.running
  refine ⟨pc, insnbits, hD, fun order horder ↦ ?_, fun s' hstep ↦ ?_⟩
  · obtain ⟨s', hcycle, -⟩ := h.exists_cycle hhalts hs hvalid horder
    exact ⟨s', hcycle⟩
  · obtain ⟨hawaits, hrecovering⟩ := recovering_of_untaken h hhalts hs hvalid hstep
    rw [hmp] at hrecovering
    exact ⟨hawaits.D_out, hawaits.inevitable (K := Recovering (pc + 4) s)
      (fun u u' hu hK hstep hflight hagain ↦ hK.waits hu hstep hflight hagain)
      (fun u u' hu hK hstep hready hdefined ↦ ⟨hK.delivers hu hstep hready, hdefined⟩)
      hrecovering (hnext s' hstep)⟩

/-- Without a data access the two orders of fetch and memory read the same text. -/
theorem Machine.FetchSees.eq {s : Machine} {mem : Mem} (h : s.FetchSees mem)
    (haccess : s.M_out.accesses = false) : mem = s.mem := by
  rcases h with heq | ⟨w, hacc⟩
  · exact heq
  · rw [accessed_of_not_accesses haccess] at hacc
    exact (Prod.mk.inj (Except.ok.inj hacc)).1.symm

/-- `CBZ` with an `ADD` behind it, a `NOP` at its target and a load in front of it that misses. -/
theorem untaken_branch_recovers_miss : ∃ s,
    Reachable ecBuild (initMachine (fun _ ↦ 0)
      ((textImage [0xD2A01000, 0xF8400002, 0xB4000040, 0x91000421, 0xD503201F,
        0xD4400000]).withEmptyCache 1 8 8 2) 0x400000) s ∧ s.DecidesUntaken ∧ s.Recovers := by
  have hrun : (runLoop ecBuild 3 (fun _ ↦ defaultOrder) (initMachine (fun _ ↦ 0)
      ((textImage [0xD2A01000, 0xF8400002, 0xB4000040, 0x91000421, 0xD503201F,
        0xD4400000]).withEmptyCache 1 8 8 2) 0x400000) >>= fun s ↦
          accessed s.M_out s.mem >>= fun q ↦ imem s.mem (currentPC ecBuild s) >>= fun r ↦
            cycle ecBuild defaultOrder s >>= fun t ↦ (cycle ecBuild memoryOrder s).map fun u ↦
            (decide (s.running = true ∧ s.D_out.op = .cbz ∧ s.executing.mispredicted = false ∧
                s.loadUse = false ∧ s.W_out.status.isError = false ∧ s.M_out.accesses = false),
              decide (q.1.dmem_status ≠ .inFlight ∧ q.2.status.isError = false ∧
                checkCbHazard s.D_out.op (s.forwarded q.2).val_a = true),
              decide (generatesHlt ecBuild s = false ∧ currentPC ecBuild s ≠ 0 ∧
                QuietFetch s.mem (currentPC ecBuild s) ∧
                  (fetchedInstr ecBuild (currentPC ecBuild s) r.2.1 r.2.2).status = .aok),
              comesBackWithin t.latches t.M_out 2 t.fetchPC t.mem &&
                comesBackWithin u.latches u.M_out 2 u.fetchPC u.mem)) =
      .ok (true, true, true, true) := by
    decide +kernel
  obtain ⟨s, hs, hrun⟩ := bind_eq_ok.mp hrun
  obtain ⟨q, hq, hrun⟩ := bind_eq_ok.mp hrun
  obtain ⟨r, hr, hrun⟩ := bind_eq_ok.mp hrun
  obtain ⟨t, ht, hrun⟩ := bind_eq_ok.mp hrun
  obtain ⟨u, hu, hvalues⟩ := map_eq_ok.mp hrun
  simp only [Prod.mk.injEq, decide_eq_true_eq, Bool.and_eq_true] at hvalues
  obtain ⟨⟨hrunning, hop, hmispred, huse, hW, haccess⟩, ⟨hready, hok, hcb⟩,
    ⟨hgenerates, hpc, hplain, haok⟩, htback, huback⟩ := hvalues
  have hreach := runLoop_reachable (fun _ ↦ List.Perm.refl _) (initMachine_running _ _ _) hs
  have huntaken : s.DecidesUntaken :=
    ⟨hrunning, .inl hop, hmispred, huse, hW, q, hq, hready, hok, hcb⟩
  refine ⟨s, hreach, huntaken, untaken_branch_recovers _ _ _ hreach huntaken
    ⟨hgenerates, hplain, ?_⟩ ?_⟩
  · rintro d (⟨hzero, -⟩ | ⟨-, mem, r', hsees, hr', rfl⟩) hstop
    · exact absurd hzero hpc
    · rw [hsees.eq haccess, hr] at hr'
      rw [← Except.ok.inj hr', haok] at hstop
      cases hstop
  · rintro s' ⟨order, horder, -, hcycle⟩
    rcases cycle_eq_of_perm horder s with heq | heq
    · obtain rfl : t = s' := Except.ok.inj (ht.symm.trans (heq ▸ hcycle))
      exact comesBack_of_within htback
    · obtain rfl : u = s' := Except.ok.inj (hu.symm.trans (heq ▸ hcycle))
      exact comesBack_of_within huback

/-- `CBZ` to a `HLT` halts although it is not taken. -/
theorem untaken_branch_halts : ¬∀ (GPR : ℕ → BitVec 64) (mem : Mem) (entry : BitVec 64)
    (s : Machine), Reachable ecBuild (initMachine GPR mem entry) s → s.DecidesUntaken →
      s.Recovers := by
  intro hclaim
  have hrun : (runLoop ecBuild 2 (fun _ ↦ defaultOrder) (initMachine (fun _ ↦ 0)
      (textImage [0xD2800020, 0xB4000040, 0x91000421, 0xD4400000]) 0x400000) >>=
        fun s ↦ accessed s.M_out s.mem >>= fun q ↦ cycle ecBuild defaultOrder s >>= fun s' ↦
          (cycle ecBuild defaultOrder s').map fun v ↦
            (decide (s.running = true ∧ s.D_out.op = .cbz ∧ s.executing.mispredicted = false ∧
                s.loadUse = false ∧ s.W_out.status.isError = false ∧
                s.D_out.multipurpose_val = 0x400008),
              decide (q.1.dmem_status ≠ .inFlight ∧ q.2.status.isError = false ∧
                checkCbHazard s.D_out.op (s.forwarded q.2).val_a = true),
              decide (s'.running = true ∧ v.D_out.op = .hlt ∧
                v.D_out.multipurpose_val = 0x400010))) = .ok (true, true, true) := by
    decide +kernel
  obtain ⟨s, hs, hrun⟩ := bind_eq_ok.mp hrun
  obtain ⟨q, hq, hrun⟩ := bind_eq_ok.mp hrun
  obtain ⟨s', hs', hrun⟩ := bind_eq_ok.mp hrun
  obtain ⟨v, hv, hvalues⟩ := map_eq_ok.mp hrun
  simp only [Prod.mk.injEq, decide_eq_true_eq] at hvalues
  obtain ⟨⟨hrunning, hop, hmispred, huse, hW, hmp⟩, ⟨hready, hok, hcb⟩, hrunning', hvop, hvmp⟩ :=
    hvalues
  have hreach := runLoop_reachable (fun _ ↦ List.Perm.refl _) (initMachine_running _ _ _) hs
  obtain ⟨pc, insnbits, hD, -, hnext⟩ := hclaim _ _ _ s hreach
    ⟨hrunning, .inl hop, hmispred, huse, hW, q, hq, hready, hok, hcb⟩
  have hpc : pc + 4 = 0x400008 := by
    rw [← hmp, hD]
    refine (multipurpose_val_of_ne_adrp ?_).symm
    rw [← hD, hop]
    exact Opcode.noConfusion
  obtain ⟨-, hinevitable⟩ := hnext s' ⟨defaultOrder, List.Perm.refl _, hrunning, hs'⟩
  obtain ⟨⟨w, d, -, -, hfetched, heq⟩, -⟩ := hinevitable.of_step
    ⟨defaultOrder, List.Perm.refl _, hrunning', hv⟩ (by
      intro hbubble
      rw [hbubble] at hvop
      cases hvop)
  -- the record in decode carries the address behind the target
  rw [hpc] at hfetched
  have hd : d.op = .hlt ∧ d.multipurpose_val = 0x400010 := by
    rcases heq with heq | ⟨hdop, heq⟩
    · exact heq ▸ ⟨hvop, hvmp⟩
    · rw [heq] at hvmp
      exact ⟨hdop, hvmp⟩
  rcases hfetched with ⟨hzero, -⟩ | ⟨-, mem, r, -, -, rfl⟩
  · exact absurd hzero (by decide)
  · have hmp' := multipurpose_val_of_ne_adrp (by rw [hd.1]; exact Opcode.noConfusion)
    rw [hd.2] at hmp'
    exact absurd hmp' (by decide)

end SystemEmulator
