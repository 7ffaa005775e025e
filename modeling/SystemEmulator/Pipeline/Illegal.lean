import SystemEmulator.Pipeline.Progress
import SystemEmulator.Sequential.Bounded

/-!
# Illegal instructions

A word that is no instruction, or that cannot be fetched, ends the run with `STAT_INS` unless it is
fetched while decode is held: the fetch stage latches the fault in `F_in`, and in the next cycle it
generates a `HLT` in its place.
-/

namespace SystemEmulator

open Outcome Result Relation

/-- A program on which the sequential machine finds an illegal instruction ends with `STAT_INS` when
every fetch of the run leaves the data port alone and no cycle loses an illegal instruction. -/
theorem runElf_illegal (GPR : ℕ → BitVec 64) (mem : Mem) (entry : BitVec 64) (hmem : mem.Ok)
    (n : ℕ) (pc : BitVec 64)
    (hseq : seqRun pipeBuild n (initCore GPR mem entry, entry) = throw (.illegal pc))
    (hkeeps : ∀ s, Run pipeBuild (initMachine GPR mem entry) s → s.running = true →
      s.FetchesQuietly ∧ ¬s.LosesIllegal) :
    ∃ s N, (∀ cycle_max, N ≤ cycle_max →
        runElf pipeBuild cycle_max (fun _ ↦ defaultOrder) GPR mem entry = .ok s) ∧
      s.status = .ins := by
  let K (s : Machine) : Prop :=
    s.Inv False ∧ Run pipeBuild (initMachine GPR mem entry) s ∧ s.running = true
  have hinit : K (initMachine GPR mem entry) :=
    ⟨initMachine_inv False GPR hmem entry, .refl, initMachine_running GPR mem entry⟩
  have hquiet : ∀ s, K s → s.Inv False ∧ s.FetchesQuietly :=
    fun s hs ↦ ⟨hs.1, (hkeeps s hs.2.1 hs.2.2).1⟩
  have hstep : ∀ s s', K s → Step pipeBuild defaultOrder s s' → s'.running = true → K s' := by
    intro s s' hs hstep hrun
    obtain ⟨hfetch, hloss⟩ := hkeeps s hs.2.1 hs.2.2
    exact ⟨(hs.1.step ⟨hstep, hfetch, .inr hloss⟩ hrun).1, hs.2.1.tail hstep, hrun⟩
  have hexpects : Expects False (.illegal pc) n (initMachine GPR mem entry) := by
    unfold Expects
    rw [resume_initMachine, pure_bind, hseq]
    exact (Alike.refl _).upTo
  obtain ⟨t, hreach, htrun, ht, hstop, e', hdrain, hsame⟩ :=
    reaches_stop (e := .illegal pc) hquiet hstep trivial hinit
      (initMachine_running GPR mem entry) hexpects
  obtain ⟨s', hcycle, hstatus, -⟩ := final_cycle ht.1.toShape (hquiet t ht).2 hstop
  have hins : t.W_out.status = .ins := by
    rcases isStop_cases hstop with hhlt | hins
    · have hhalted : drain t = throw (.halted t.core) := by
        unfold drain drainFrom writeback
        rw [hhlt]
        rfl
      rw [hhalted] at hdrain
      rw [← throw_inj hdrain] at hsame
      rcases hsame with hsame | ⟨hL, -⟩
      · cases hsame
      · exact hL.elim
    · exact hins
  have hrunning : s'.running = false := by
    rw [s'.running_eq, hstatus, hins]
    rfl
  obtain ⟨N, hN⟩ := runLoop_of_run hreach ⟨htrun, hcycle⟩ hrunning
  exact ⟨s', N, fun cycle_max hmax ↦ hN _ (hmax.trans (le_max_right 1 _)), hstatus.trans hins⟩

/-- A cycle in which decode is not held. -/
theorem not_losesIllegal {s : Machine} (huse : s.loadUse = false)
    (haccess : s.M_out.accesses = false) (hready : s.mem.dmem_status ≠ .inFlight) :
    ¬s.LosesIllegal := by
  rintro ⟨hholds | ⟨r, hr, hflight⟩, -⟩
  · rw [huse] at hholds
    cases hholds
  · rw [accessed_of_not_accesses haccess] at hr
    rw [← Except.ok.inj hr] at hflight
    exact hready hflight

/-- A `MOVZ` with an illegal word behind it. -/
theorem runElf_illegal_movz :
    ∃ s N, (∀ cycle_max, N ≤ cycle_max →
        runElf pipeBuild cycle_max (fun _ ↦ defaultOrder) (fun _ ↦ 0)
          (textImage [0xD2800020, 0]) 0x400000 = .ok s) ∧ s.status = .ins := by
  have hcheck : checkRun pipeBuild (fun s ↦ decide (s.FetchesQuietly ∧ s.loadUse = false ∧
      s.M_out.accesses = false ∧ s.mem.dmem_status ≠ .inFlight)) 20
      (initMachine (fun _ ↦ 0) (textImage [0xD2800020, 0]) 0x400000) = true := by
    decide +kernel
  refine runElf_illegal (fun _ ↦ 0) (textImage [0xD2800020, 0]) 0x400000 (.inl rfl) 2 0x400004
    (seqRun_illegal (k := 1) (by decide +kernel)) fun s hrun hs ↦ ?_
  obtain ⟨hquiet, huse, haccess, hready⟩ := of_decide_eq_true (of_checkRun hcheck hrun hs)
  exact ⟨hquiet, not_losesIllegal huse haccess hready⟩

/-- `LDUR X2, [X0]; ADD X3, X2, #7` with an illegal word behind it ends with `STAT_HLT`. -/
theorem runElf_illegal_lost :
    ¬∀ (GPR : ℕ → BitVec 64) (mem : Mem) (entry : BitVec 64), mem.Ok → ∀ (n : ℕ) (pc : BitVec 64),
      seqRun pipeBuild n (initCore GPR mem entry, entry) = throw (.illegal pc) →
        ∃ s N, (∀ cycle_max, N ≤ cycle_max →
            runElf pipeBuild cycle_max (fun _ ↦ defaultOrder) GPR mem entry = .ok s) ∧
          s.status = .ins := by
  intro hclaim
  obtain ⟨s, N, hN, hins⟩ := hclaim (fun n ↦ if n = 0 then 0x800000 else 0)
    (textImage [0xF8400002, 0x91001C43, 0]) 0x400000 (.inl rfl) 3 0x400008
    (seqRun_illegal (k := 1) (by decide +kernel))
  have hrun : (runLoop pipeBuild 20 (fun _ ↦ defaultOrder)
      (initMachine (fun n ↦ if n = 0 then 0x800000 else 0)
        (textImage [0xF8400002, 0x91001C43, 0]) 0x400000)).map (fun s ↦ s.status) = .ok .hlt := by
    decide +kernel
  obtain ⟨s', hs', hhlt⟩ := map_eq_ok.mp hrun
  have hended : s'.running = false := by rw [s'.running_eq, hhlt]; rfl
  rw [runElf_unique hs' hended hN, hhlt] at hins
  cases hins

end SystemEmulator
