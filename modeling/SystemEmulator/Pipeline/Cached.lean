import SystemEmulator.Pipeline.Halting

/-!
# Halting with a cache

With a cache, a fetch from the data segments disturbs the data accesses.  A program whose text
predicts no such address never makes one, on its path or off it, and the pipeline halts with it as
it does without a cache.
-/

namespace SystemEmulator

open Outcome Result

/-- The instructions of the text predict no address of the data segments. -/
def Mem.PredictsText (m : Mem) : Prop :=
  ∀ pc, pc ≠ 0 → imemErr m pc = false →
    let insnbits := fetchedWord m.ptable pc
    decodeOpcode pipeBuild insnbits ≠ .hlt → decodeOpcode pipeBuild insnbits ≠ .error →
      usesCache m (predictPC pc insnbits (decodeOpcode pipeBuild insnbits)) = false

theorem Mem.predictsText_of_cacheless {m : Mem} (h : m.cache = none) : m.PredictsText :=
  fun _ _ _ _ _ ↦ usesCache_of_cacheless h _

/-- A safe access leaves the text and its predictions alone. -/
theorem Mem.PredictsText.safe {m m' : Mem} (h : m.PredictsText) (hsafe : m.Safe m') :
    m'.PredictsText := by
  intro pc hpc herr
  rw [hsafe.frame.imemErr] at herr
  simp only [hsafe.fetchedWord herr, hsafe.frame.usesCache]
  exact h pc hpc herr

/-- The text holds no address of the data segments. -/
theorem usesCache_of_imemErr {m : Mem} {pc : BitVec 64} (h : imemErr m pc = false) :
    usesCache m pc = false := by
  unfold imemErr addrInImem at h
  rw [Bool.or_eq_false_iff, Bool.not_eq_false', Bool.and_eq_true] at h
  have hlt : pc < m.seg_start_addr .data := of_decide_eq_true h.1.2
  unfold usesCache
  rw [decide_eq_false (BitVec.not_le.mpr hlt), Bool.and_false]

/-! ## The invariant of a run that halts -/

section

variable {c : Core} {n : ℕ} {s s' : Machine} {r : Mem × DInstr × BitVec 64} {q : Mem × WInstr}

/-- No fault is on its way when a halt is expected. -/
theorem Expects.not_faults (h : Expects True (.halted c) n s)
    (hW : s.W_out.status.passes = true) : s.M_out.faults s.mem = false := by
  rw [Bool.eq_false_iff]
  intro hfaults
  have hdrain := drain_eq_drainM hW
  have hmem : s.afterW.mem = s.mem := rfl
  obtain ⟨e', he', hne⟩ : ∃ e', drain s = throw e' ∧ ∀ c', e' ≠ .halted c' := by
    rw [hdrain]
    unfold drainM access
    cases hsettle : settle (accessed s.M_out) s.afterW.mem with
    | none =>
      refine absurd ?_ h.not_hang
      rw [hdrain]
      unfold drainM access
      rw [hsettle]
      rfl
    | some x => cases x with
      | error crash => exact ⟨_, rfl, fun _ ↦ Halt.noConfusion⟩
      | ok r =>
        have herror := (completes_of_settle hsettle).1
        rw [hmem, hfaults] at herror
        simp only [writeback]
        cases hstatus : r.2.status with
        | bub =>
          rw [hstatus] at herror
          cases herror
        | aok =>
          rw [hstatus] at herror
          cases herror
        | hlt =>
          rw [hstatus] at herror
          cases herror
        | ins => exact ⟨_, rfl, fun _ ↦ Halt.noConfusion⟩
        | adr => exact ⟨_, rfl, fun _ ↦ Halt.noConfusion⟩
  obtain ⟨c', rfl, -⟩ := (h.of_throw he').of_halted
  exact hne c' rfl

/-- The data are in order when a halt is expected. -/
theorem Expects.memOk (h : Expects True (.halted c) n s) (hs : s.Inv True)
    (hW : s.W_out.status.passes = true) : s.mem.Ok := by
  rcases hs.memOk with herror | hfaults | hok
  · rw [isError_of_passes hW] at herror
    cases herror
  · rw [h.not_faults hW] at hfaults
    cases hfaults
  · exact hok

/-- The predicted PC is a word address outside the data segments, or it is not used. -/
def Machine.QuietPC (s : Machine) : Prop :=
  s.F_in.status.isStop = true ∨
    (WordAligned s.F_out.pred_PC ∧
      (s.F_out.pred_PC = 0 ∨ usesCache s.mem s.F_out.pred_PC = false)) ∨
    s.X_out.op = .ret ∨ s.M_out.mispredicted = true

/-- The states of a run whose program predicts its text and halts in `c`. -/
structure Machine.HaltsQuietly (c : Core) (s : Machine) : Prop where
  inv : s.Inv True
  expects : ∃ n, Expects True (.halted c) n s
  text : s.mem.PredictsText
  pc : s.QuietPC

/-- A redirected fetch is on the path of the program. -/
theorem Expects.quiet_of_redirected (h : Expects True (.halted c) n s) (hs : s.Shape)
    (hW : s.W_out.status.passes = true)
    (hredirected : s.X_out.op = .ret ∨ s.M_out.mispredicted = true) :
    currentPC pipeBuild s = 0 ∨ WordAligned (currentPC pipeBuild s) ∧
      usesCache s.mem (currentPC pipeBuild s) = false := by
  obtain ⟨⟨c', redirect⟩, hdrain⟩ := h.drain_of_redirected trivial hs hW hredirected
  have hreaches := (reaches_of_drain hdrain).2.2
  have hresume : resume s = pure (c', currentPC pipeBuild s) := by
    unfold resume
    rw [hdrain, redirect_of_drain hs hdrain hredirected]
    rfl
  rcases h.imemErr hresume hreaches.ready with hzero | herr
  · exact .inl hzero
  · have hframe : s.mem.Frame c'.mem := hreaches.frame
    rw [hframe.imemErr] at herr
    exact .inr ⟨wordAligned_of_imemErr herr, usesCache_of_imemErr herr⟩

theorem Machine.HaltsQuietly.fetchesQuietly (h : s.HaltsQuietly c) : s.FetchesQuietly := by
  obtain ⟨n, hn⟩ := h.expects
  cases hhlt : generatesHlt pipeBuild s with
  | true => exact .inl hhlt
  | false =>
    have hs := h.inv.toShape
    have hzero := (not_generatesHlt_iff.mp hhlt).1
    obtain ⟨haligned, hcache⟩ : WordAligned (currentPC pipeBuild s) ∧
        usesCache s.mem (currentPC pipeBuild s) = false := by
      rcases hn.reads_cases (P := fun pc ↦ WordAligned pc ∧ (pc = 0 ∨ usesCache s.mem pc = false))
        hs h.pc hhlt with ⟨hW, hredirected⟩ | ⟨haligned, hcache⟩
      · exact (hn.quiet_of_redirected hs hW hredirected).resolve_left hzero
      · exact ⟨haligned, hcache.resolve_left hzero⟩
    exact .inr ⟨hzero, haligned.ne_io, fun hcheck ↦ absurd hcheck haligned.ne_checkpoint,
      .inr hcache⟩

/-- One cycle keeps the predicted PC outside the data segments. -/
theorem quietPC_cycle (h : s.HaltsQuietly c) (heffect : CycleEffect s r q s')
    (hrequests : ¬(s.requests r.2.1 q).Contradictory)
    (herror : s'.W_out.status.isError = false) : s'.QuietPC := by
  have hframe := heffect.frame
  refine predicts_cycle heffect
    (P := fun pc ↦ WordAligned pc ∧ (pc = 0 ∨ usesCache s'.mem pc = false)) h.inv.toShape
    hrequests herror ?_ fun hstop ↦ ?_
  · rw [hframe.usesCache]
    exact h.pc
  · obtain ⟨hzero, himem, hhlt, hlegal, hPC⟩ := fetched_of_not_stop heffect h.fetchesQuietly hstop
    rw [hPC, hframe.usesCache]
    exact ⟨wordAligned_fetchedPC himem _, .inr (h.text _ hzero himem hhlt hlegal)⟩

theorem Machine.HaltsQuietly.step (h : s.HaltsQuietly c)
    (hstep : Step pipeBuild defaultOrder s s') (hrun : s'.running = true) : s'.HaltsQuietly c := by
  have hquiet := h.fetchesQuietly
  obtain ⟨n, hn⟩ := h.expects
  obtain ⟨r, q, heffect, hrequests, hW⟩ := effect_of_running h.inv.toShape hstep.2 hrun
  obtain ⟨hinv, hsim⟩ := h.inv.step ⟨hstep, hquiet, .inl trivial⟩ hrun
  have hexpects : ∃ m, Expects True (.halted c) m s' := by
    rcases hsim with hstutter | hnext
    · exact ⟨n, hn.stutter hstutter⟩
    · cases n with
      | zero => exact ⟨0, hn.of_throw' hnext⟩
      | succ m => exact ⟨m, hn.advance hnext⟩
  obtain ⟨m, hm⟩ := hexpects
  refine ⟨hinv, ⟨m, hm⟩, ?_, quietPC_cycle h heffect hrequests hm.not_error⟩
  have hsame := fetchResult_quiet hquiet heffect.fetch
  have hok := hsame.ok (hn.memOk h.inv hW)
  have hfaults : s.M_out.faults r.1 = false := (hsame.frame.faults _).trans (hn.not_faults hW)
  have hfetch : s.mem.Safe r.1 := ⟨hsame.frame, hok, hsame.textKept⟩
  rw [heffect.mem]
  exact h.text.safe (hfetch.trans (accessed_safe hok hfaults _ heffect.access))

end

/-! ## The pipeline halts -/

theorem initMachine_haltsQuietly {n : ℕ} {c : Core} (GPR : ℕ → BitVec 64) {mem : Mem}
    (hmem : mem.Ok) (htext : mem.PredictsText) {entry : BitVec 64}
    (hseq : seqRun pipeBuild n (initCore GPR mem entry, entry) = throw (.halted c)) :
    (initMachine GPR mem entry).HaltsQuietly c := by
  have hresume := resume_initMachine GPR mem entry
  have hready : (initCore GPR mem entry).mem.dmem_status ≠ .inFlight := MemStatus.noConfusion
  have hexpects : Expects True (.halted c) n (initMachine GPR mem entry) := by
    unfold Expects
    rw [hresume, pure_bind, hseq]
    exact (Alike.refl _).upTo
  refine ⟨initMachine_inv True GPR hmem entry, ⟨n, hexpects⟩, htext, .inr (.inl ?_)⟩
  rcases hexpects.imemErr hresume hready with hzero | herr
  · rw [hzero]
    exact ⟨Nat.zero_mod 4, .inl rfl⟩
  · exact ⟨wordAligned_of_imemErr herr, .inr (usesCache_of_imemErr herr)⟩

/-- A machine with the stop in writeback is where the program halts. -/
theorem Machine.HaltsQuietly.stopped {c : Core} {t : Machine} (h : t.HaltsQuietly c)
    (hstop : t.W_out.status.isStop = true) {e : Halt} (hdrain : drain t = throw e)
    (he : HaltAs True e (.halted c)) : t.W_out.status = .hlt ∧ t.core.Same c := by
  have hhlt : t.W_out.status = .hlt := by
    rcases isStop_cases hstop with hhlt | hins
    · exact hhlt
    · obtain ⟨m, hm⟩ := h.expects
      have herror := hm.not_error
      rw [hins] at herror
      cases herror
  obtain ⟨c', rfl, hcore⟩ := he.of_halted
  have hdrain' : drain t = throw (.halted t.core) := by
    unfold drain drainFrom writeback
    rw [hhlt]
    rfl
  cases throw_inj (hdrain'.symm.trans hdrain)
  exact ⟨hhlt, hcore⟩

/-- The last cycle leaves the state in which the program halts. -/
theorem Machine.HaltsQuietly.final_cycle {c : Core} {t : Machine} (h : t.HaltsQuietly c)
    (hstop : t.W_out.status.isStop = true) {e : Halt} (hdrain : drain t = throw e)
    (he : HaltAs True e (.halted c)) : ∃ s, cycle pipeBuild defaultOrder t = .ok s ∧
      s.running = false ∧ s.status = .hlt ∧ c.Same s.core := by
  obtain ⟨s, hcycle, hstatus, hregs, hNZCV, hmem⟩ :=
    SystemEmulator.final_cycle h.inv.toShape h.fetchesQuietly hstop
  obtain ⟨hhlt, hcore⟩ := h.stopped hstop hdrain he
  have hrunning : s.running = false := by
    rw [s.running_eq, hstatus, hhlt]
    rfl
  exact ⟨s, hcycle, hrunning, hstatus.trans hhlt, hcore.symm.trans ⟨hregs, hNZCV, hmem⟩⟩

/-- Where the sequential machine halts the pipeline halts with a cache, too. -/
theorem runElf_halts_quietly {GPR : ℕ → BitVec 64} {mem : Mem} (hmem : mem.Ok)
    (htext : mem.PredictsText) {entry : BitVec 64} {n : ℕ} {c : Core}
    (hseq : seqRun pipeBuild n (initCore GPR mem entry, entry) = throw (.halted c)) :
    ∃ s N, (∀ cycle_max, N ≤ cycle_max →
        runElf pipeBuild cycle_max (fun _ ↦ defaultOrder) GPR mem entry = .ok s) ∧
      s.status = .hlt ∧ c.Same s.core := by
  have hinit := initMachine_haltsQuietly GPR hmem htext hseq
  obtain ⟨k, hk⟩ := hinit.expects
  obtain ⟨t, hreach, htrun, ht, hstop, e', hdrain, hsame⟩ :=
    reaches_stop (e := .halted c) (fun s hs ↦ ⟨hs.inv, hs.fetchesQuietly⟩)
      (fun s s' hs ↦ hs.step) trivial hinit (initMachine_running GPR mem entry) hk
  obtain ⟨s', hcycle, hrunning, hfinal⟩ := ht.final_cycle hstop hdrain hsame
  obtain ⟨N, hN⟩ := runLoop_of_run hreach ⟨htrun, hcycle⟩ hrunning
  exact ⟨s', N, fun cycle_max hmax ↦ hN _ (hmax.trans (le_max_right 1 _)), hfinal⟩

end SystemEmulator
