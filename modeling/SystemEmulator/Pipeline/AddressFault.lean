import SystemEmulator.Pipeline.Refinement
import SystemEmulator.Sequential.Bounded

/-!
# Address faults

When an instruction with a rejected data access is in writeback, the registers, the flags and the
memory are those that the sequential machine leaves when it stops there.  One more cycle runs, in
which the instruction behind it is in memory and the one behind that in execute: their effects are
not suppressed.
-/

namespace SystemEmulator

open Outcome Result Relation

/-! ## Faults of the sequential machine -/

/-- A run that stops does so in its last instruction. -/
theorem exists_last_step {build : Build} {n : ℕ} {a : Core × BitVec 64} {e : Halt}
    (h : seqRun build n a = throw e) :
    ∃ m b, seqRun build m a = pure b ∧ seqStep build b = throw e := by
  induction n with
  | zero => exact absurd h pure_ne_throw
  | succ n ih =>
    rw [seqRun_succ] at h
    rcases Outcome.cases_on (seqRun build n a) with ⟨b, hb⟩ | ⟨e', he'⟩ | hhang
    · rw [hb, pure_bind] at h
      exact ⟨n, b, hb, h⟩
    · rw [he', throw_bind] at h
      exact ih (he'.trans h)
    · rw [hhang, hang_bind] at h
      exact absurd h.symm throw_ne_hang

theorem seqRun_throw_add {build : Build} {n : ℕ} {a : Core × BitVec 64} {e : Halt}
    (h : seqRun build n a = throw e) (k : ℕ) : seqRun build (n + k) a = throw e := by
  induction k with
  | zero => exact h
  | succ k ih =>
    rw [← Nat.add_assoc, seqRun_succ, ih, throw_bind]

/-- The machine stops for one reason. -/
theorem seqRun_throw_inj {build : Build} {m n : ℕ} {a : Core × BitVec 64} {e e' : Halt}
    (h : seqRun build m a = throw e) (h' : seqRun build n a = throw e') : e = e' := by
  have hm := seqRun_throw_add h n
  have hn := seqRun_throw_add h' m
  rw [Nat.add_comm] at hn
  exact throw_inj (hm.symm.trans hn)

/-- Loads and stores are the instructions that access the data. -/
theorem MInstr.WF.op_of_accesses {m : MInstr} (h : m.WF) (haccess : m.accesses = true) :
    m.op = .ldur ∨ m.op = .stur := by
  unfold MInstr.accesses at haccess
  rw [h.M_sigs] at haccess
  revert haccess
  cases m.op <;> intro haccess <;> first | exact .inl rfl | exact .inr rfl | cases haccess

/-- An address fault comes from a data access. -/
theorem accesses_of_adr {m : MInstr} (h : m.WF) {mem mem' : Mem} {w : WInstr}
    (hacc : accessed m mem = .ok (mem', w)) (hadr : w.status = .adr) : m.accesses = true := by
  cases haccess : m.accesses with
  | true => rfl
  | false =>
    rw [accessed_of_not_accesses haccess] at hacc
    rw [← (Prod.mk.inj (Except.ok.inj hacc)).2] at hadr
    have hstatus : m.status = .adr := hadr
    rcases h.status with hop | ⟨-, hbub⟩
    · rw [hstatus] at hop
      revert hop
      cases m.op <;> intro hop <;> cases hop
    · rw [hstatus] at hbub
      cases hbub

/-- The instruction that raises an address fault is the one at the address of the fault, and it
changes neither registers nor flags. -/
theorem addressFault_of_execute {x : XInstr} (hx : x.WF) {c c' : Core} {pc : BitVec 64}
    (h : execute x c = throw (.addressFault pc c')) :
    (x.op = .ldur ∨ x.op = .stur) ∧ pc = x.multipurpose_val - 4 ∧ c'.regs = c.regs ∧
      c'.NZCV = c.NZCV := by
  have hm : (executed x c.NZCV).1.WF := hx.executed c.NZCV
  rw [execute_eq] at h
  unfold access at h
  cases hsettle : settle (accessed (executed x c.NZCV).1) c.mem with
  | none =>
    simp only [hsettle] at h
    exact absurd h.symm throw_ne_hang
  | some r =>
    simp only [hsettle] at h
    cases r with
    | error crash => cases throw_inj h
    | ok r =>
      obtain ⟨mem, w⟩ := r
      simp only [writeback] at h
      cases hstatus : w.status with
      | bub =>
        rw [hstatus] at h
        exact absurd h pure_ne_throw
      | aok =>
        rw [hstatus] at h
        exact absurd h pure_ne_throw
      | hlt =>
        rw [hstatus] at h
        cases throw_inj h
      | ins =>
        rw [hstatus] at h
        cases throw_inj h
      | adr =>
        rw [hstatus] at h
        obtain ⟨mem₀, -, hacc, -⟩ := exists_last_of_settle (P := fun _ ↦ True)
          (fun _ _ _ _ _ ↦ trivial) c.mem _ hsettle trivial _ rfl
        have hop : x.op = .ldur ∨ x.op = .stur :=
          hm.op_of_accesses (accesses_of_adr hm hacc hstatus)
        have hflags : x.flags c.NZCV = c.NZCV := by
          unfold XInstr.flags
          rw [hx.X_sigs]
          rcases hop with hop | hop <;> rw [hop] <;> rfl
        cases throw_inj h
        exact ⟨hop, rfl, rfl, hflags⟩

theorem addressFault_of_seqStep {c c' : Core} {pc pc' : BitVec 64}
    (h : seqStep pipeBuild (c, pc) = throw (.addressFault pc' c')) :
    pc' = pc ∧ c'.regs = c.regs ∧ c'.NZCV = c.NZCV := by
  unfold seqStep at h
  split at h
  · cases throw_inj h
  · have hwf : (instrAt pipeBuild pc c).WF := (wf_fetchedInstr _ _ _ _).decoded _
    rcases Outcome.cases_on (execute (instrAt pipeBuild pc c) c) with ⟨b, hb⟩ | ⟨e, he⟩ | hhang
    · simp only [hb, pure_bind] at h
      exact absurd h pure_ne_throw
    · simp only [he, throw_bind] at h
      rw [throw_inj h] at he
      obtain ⟨hop, hpc, hregs, hNZCV⟩ := addressFault_of_execute hwf he
      refine ⟨?_, hregs, hNZCV⟩
      have hmp : (instrAt pipeBuild pc c).multipurpose_val = pc + 4 := by
        refine multipurpose_val_of_ne_adrp fun hadrp ↦ ?_
        rw [show (instrAt pipeBuild pc c).op = .adrp from hadrp] at hop
        rcases hop with hop | hop <;> cases hop
      rw [hpc, hmp]
      exact BitVec.add_sub_cancel pc 4
    · simp only [hhang, hang_bind] at h
      exact absurd h.symm throw_ne_hang

/-! ## The last cycle -/

/-- The two instructions behind the one in writeback leave the memory and the flags alone: the one
in memory stores nothing and reads neither the cache nor the input, and the one in execute sets no
flags unless the one in memory raises a fault, too. -/
structure Machine.LeavesAlone (s : Machine) : Prop where
  load : s.M_out.op = .ldur → QuietFetch s.mem s.M_out.val_ex
  store : s.M_out.op = .stur → s.M_out.val_ex = NULL_ADDR
  flags : s.X_out.X_sigs.set_flags = false ∨ s.M_out.faults s.mem = true

/-- Such an instruction in memory only materialises a page. -/
theorem same_of_leavesAlone {s : Machine} (hwf : s.M_out.WF) (h : s.LeavesAlone) {mem mem' : Mem}
    (hmem : s.mem.Same mem) {w : WInstr} (hacc : accessed s.M_out mem = .ok (mem', w)) :
    s.mem.Same mem' := by
  cases haccess : s.M_out.accesses with
  | false =>
    rw [accessed_of_not_accesses haccess] at hacc
    exact (Prod.mk.inj (Except.ok.inj hacc)).1 ▸ hmem
  | true =>
    refine hmem.trans ?_
    unfold accessed dmem at hacc
    rcases hwf.op_of_accesses haccess with hop | hop
    · have hsigs : s.M_out.M_sigs = { dmem_read := true } := by
        rw [hwf.M_sigs, hop]
        rfl
      obtain ⟨n, val, hread, hsame⟩ := memRead_quiet (hmem.frame.quietFetch (h.load hop)) 8
      rw [hsigs] at hacc
      have hread' : dmemRead mem s.M_out.val_ex true = .ok (n, val) := hread
      simp only [Bool.not_true, Bool.false_and, Bool.false_eq_true, ↓reduceIte, hread'] at hacc
      exact (Prod.mk.inj (Except.ok.inj hacc)).1 ▸ hsame
    · have hsigs : s.M_out.M_sigs = { dmem_write := true } := by
        rw [hwf.M_sigs, hop]
        rfl
      rw [hsigs, h.store hop] at hacc
      exact (Prod.mk.inj (Except.ok.inj hacc)).1 ▸ Mem.Same.refl mem

/-- A run up to a state in which the loop goes on. -/
theorem quiet_run {s t : Machine} (hrun : Run pipeBuild s t) (ht : t.running = true)
    (hquiet : ∀ u, Run pipeBuild s u → u.running = true → u.FetchesQuietly) :
    ReflTransGen (fun a b ↦ QuietStep True a b ∧ b.running = true) s t := by
  induction hrun with
  | refl => exact .refl
  | tail hrun hstep ih =>
    exact (ih hstep.1).tail ⟨⟨hstep, hquiet _ hrun hstep.1, .inl trivial⟩, ht⟩

/-- The final state `s` is the one in which the sequential machine stops at an address fault: the
registers and flags are those after the instructions in front of it, and the memory is the one that
the rejected access leaves. -/
def PreciseFault (GPR : ℕ → BitVec 64) (mem : Mem) (entry : BitVec 64) (s : Machine) : Prop :=
  ∃ n c pc c', seqRun pipeBuild n (initCore GPR mem entry, entry) = pure (c, pc) ∧
    seqStep pipeBuild (c, pc) = throw (.addressFault pc c') ∧
      s.regs = c.regs ∧ s.NZCV = c.NZCV ∧ c'.mem.Same s.mem

/-- What a state with an address fault in writeback stands for. -/
theorem precise_of_adr {GPR : ℕ → BitVec 64} {mem : Mem} {entry : BitVec 64} {t : Machine}
    (hmem : mem.Ok)
    (hrun : ReflTransGen (fun a b ↦ QuietStep True a b ∧ b.running = true)
      (initMachine GPR mem entry) t) (hadr : t.W_out.status = .adr) :
    t.Shape ∧ PreciseFault GPR mem entry t := by
  obtain ⟨ht, n, hn⟩ := run_simulates (initMachine_inv True GPR hmem entry) hrun
  refine ⟨ht.toShape, ?_⟩
  have hresume : resume t = throw (.addressFault t.PC t.core) := by
    unfold resume drain drainFrom writeback
    rw [hadr]
    rfl
  rw [resume_initMachine, pure_bind, hresume] at hn
  obtain ⟨e, he, hsame⟩ := hn.of_throw_left
  obtain ⟨m, ⟨c, pc⟩, hm, hstep⟩ := exists_last_step he
  rcases hsame with hsame | ⟨-, _, _, hcontra, -⟩
  · cases hsame with
    | addressFault pc' hcore =>
      obtain ⟨rfl, hregs, hNZCV⟩ := addressFault_of_seqStep hstep
      exact ⟨m, c, t.PC, _, hm, hstep, hcore.regs.symm.trans hregs, hcore.NZCV.symm.trans hNZCV,
        hcore.mem.symm⟩
  · cases hcontra

/-- In a run that an address fault ends, the fault is precise when the two instructions behind it
leave the memory and the flags alone in the last cycle. -/
theorem addressFault_precise (GPR : ℕ → BitVec 64) (mem : Mem) (entry : BitVec 64) (hmem : mem.Ok)
    {t s : Machine} (hrun : Run pipeBuild (initMachine GPR mem entry) t)
    (hlast : Step pipeBuild defaultOrder t s) (hadr : s.status = .adr)
    (hquiet : ∀ u, Run pipeBuild (initMachine GPR mem entry) u → u.running = true →
      u.FetchesQuietly) (halone : t.LeavesAlone) : PreciseFault GPR mem entry s := by
  obtain ⟨htrun, hcycle⟩ := hlast
  have hquiet' := hquiet t hrun htrun
  have hshape := (run_simulates (initMachine_inv True GPR hmem entry)
    (quiet_run hrun htrun hquiet)).1.toShape
  obtain ⟨r, q, hfetch, hacc, ⟨-, hhlt⟩ | ⟨hrequests, heffect⟩⟩ :=
    cycle_effect hshape.ec_D hshape.controls hcycle
  · rw [hhlt] at hadr
    cases hadr
  · have hW : t.W_out.status = .adr := heffect.status.symm.trans hadr
    obtain ⟨-, n, c, pc, c', hm, hstep, hregs, hNZCV, hsame⟩ :=
      precise_of_adr hmem (quiet_run hrun htrun hquiet) hW
    have hfetched := fetchResult_quiet hquiet' hfetch
    have hfaults : q.2.status.isError = t.M_out.faults t.mem := by
      rw [(accessed_frame _ _ _ hacc).2, hfetched.frame.faults]
    refine ⟨n, c, pc, c', hm, hstep, ?_, ?_, ?_⟩
    · rw [heffect.regs, hW, ← hregs]
      exact congrArg (regfileWrite t.regs t.W_out.dst t.W_out.wval) (Bool.and_false _)
    · rw [heffect.NZCV, ← hNZCV]
      rcases halone.flags with hflags | hfault
      · have hsame : t.flags = t.NZCV := by
          unfold Machine.flags
          rw [hflags]
          rfl
        rw [hsame, ite_self]
      · rw [hfaults, hfault, Bool.or_true, Bool.true_or]
        rfl
    · rw [heffect.mem]
      exact hsame.trans (same_of_leavesAlone hshape.wf.M_out halone hfetched hacc)

/-- A load from an unaligned address with `NOP`s behind it. -/
theorem addressFault_precise_nop :
    ∃ s, (∃ t, Run pipeBuild (initMachine (fun n ↦ if n = 0 then 0x800000 else 0)
        (textImage [0xF8404002, 0xD503201F, 0xD503201F, 0xD503201F, 0xD503201F]) 0x400000) t ∧
          Step pipeBuild defaultOrder t s) ∧ s.status = .adr ∧
      PreciseFault (fun n ↦ if n = 0 then 0x800000 else 0)
        (textImage [0xF8404002, 0xD503201F, 0xD503201F, 0xD503201F, 0xD503201F]) 0x400000 s := by
  have hcheck : checkRun pipeBuild (fun s ↦ decide s.FetchesQuietly) 20
      (initMachine (fun n ↦ if n = 0 then 0x800000 else 0)
        (textImage [0xF8404002, 0xD503201F, 0xD503201F, 0xD503201F, 0xD503201F]) 0x400000)
        = true := by
    decide +kernel
  have hcycles : (runLoop pipeBuild 4 (fun _ ↦ defaultOrder)
      (initMachine (fun n ↦ if n = 0 then 0x800000 else 0)
        (textImage [0xF8404002, 0xD503201F, 0xD503201F, 0xD503201F, 0xD503201F]) 0x400000) >>=
      fun t ↦ (cycle pipeBuild defaultOrder t).map fun s ↦
        decide (t.running = true ∧ t.M_out.op = .nop ∧ t.X_out.X_sigs.set_flags = false ∧
          s.status = .adr)) = .ok true := by
    decide +kernel
  obtain ⟨t, ht, hmap⟩ := bind_eq_ok.mp hcycles
  obtain ⟨s, hs, hfacts⟩ := map_eq_ok.mp hmap
  obtain ⟨htrun, hop, hflags, hadr⟩ := of_decide_eq_true hfacts
  have hrun := runLoop_run (initMachine_running _ _ _) ht
  refine ⟨s, ⟨t, hrun, htrun, hs⟩, hadr, addressFault_precise _ _ _ (.inl rfl) hrun ⟨htrun, hs⟩ hadr
    (fun u hu hurun ↦ of_decide_eq_true (of_checkRun hcheck hu hurun)) ⟨?_, ?_, .inl hflags⟩⟩
  · intro hldur
    rw [hop] at hldur
    cases hldur
  · intro hstur
    rw [hop] at hstur
    cases hstur

/-- The test for an address fault that leaves a byte of the data segment zero. -/
def Halt.leavesZero (addr : BitVec 64) : Halt → Bool
  | .addressFault _ c => byteAt c.mem.ptable addr == 0
  | _ => false

/-- `STUR X1, [X0, #8]` behind `LDUR X2, [X0, #4]` stores. -/
theorem addressFault_imprecise :
    ¬∀ (GPR : ℕ → BitVec 64) (mem : Mem) (entry : BitVec 64), mem.Ok → ∀ s t : Machine,
      Run pipeBuild (initMachine GPR mem entry) t → Step pipeBuild defaultOrder t s →
        s.status = .adr → PreciseFault GPR mem entry s := by
  intro hclaim
  have hcycles : (runLoop pipeBuild 4 (fun _ ↦ defaultOrder)
      (initMachine (fun n ↦ if n = 0 then 0x800000 else 5)
        (textImage [0xF8404002, 0xF8008001, 0xD503201F, 0xD503201F, 0xD503201F]) 0x400000) >>=
      fun t ↦ (cycle pipeBuild defaultOrder t).map fun s ↦
        decide (t.running = true ∧ s.status = .adr ∧ byteAt s.mem.ptable 0x800008 = 5)) =
      .ok true := by
    decide +kernel
  obtain ⟨t, ht, hmap⟩ := bind_eq_ok.mp hcycles
  obtain ⟨s, hs, hfacts⟩ := map_eq_ok.mp hmap
  obtain ⟨htrun, hadr, hfive⟩ := of_decide_eq_true hfacts
  obtain ⟨n, c, pc, c', hn, hstep, -, -, hsame⟩ := hclaim _ _ _ (.inl rfl) s t
    (runLoop_run (initMachine_running _ _ _) ht) ⟨htrun, hs⟩ hadr
  have hfault : seqRun pipeBuild (n + 1) (initCore (fun n ↦ if n = 0 then 0x800000 else 5)
      (textImage [0xF8404002, 0xF8008001, 0xD503201F, 0xD503201F, 0xD503201F]) 0x400000, 0x400000)
      = throw (.addressFault pc c') := by
    rw [seqRun_succ, hn, pure_bind, hstep]
  have hstops : stopsWithin (Halt.leavesZero 0x800008) 1 pipeBuild 1
      (initCore (fun n ↦ if n = 0 then 0x800000 else 5)
        (textImage [0xF8404002, 0xF8008001, 0xD503201F, 0xD503201F, 0xD503201F]) 0x400000,
          0x400000) = true := by
    decide +kernel
  obtain ⟨e, hfirst, hzero⟩ := seqRun_of_stopsWithin hstops
  rw [seqRun_throw_inj hfirst hfault] at hzero
  obtain ⟨pt, hpt, hcontent⟩ := hsame
  have hbyte : byteAt s.mem.ptable 0x800008 = byteAt c'.mem.ptable 0x800008 := by
    rw [hpt]
    exact (hcontent 0x800008).symm
  rw [hfive, beq_iff_eq.mp hzero] at hbyte
  cases hbyte
end SystemEmulator
