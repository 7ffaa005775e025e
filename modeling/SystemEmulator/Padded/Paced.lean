import SystemEmulator.Padded.Discipline

/-!
# The pipeline on a padded program

On a padded program that halts, decode holds the next instruction of the sequential machine, and it
reads none of the registers that the three older instructions in flight write.  Behind a conditional
branch there are `NOP`s.  So no cycle waits for a load, and the operands in the register file are
those that `forward_reg` hands to decode.
-/

namespace SystemEmulator

open Outcome Result Relation

/-! ## A memory without a cache -/

/-- No data access is in flight, and none ever will be. -/
def Mem.Prompt (m : Mem) : Prop := m.cache = none ∧ m.dmem_status ≠ .inFlight

theorem Mem.Prompt.usesCache {m : Mem} (h : m.Prompt) (addr : BitVec 64) :
    usesCache m addr = false :=
  usesCache_of_cacheless h.1 addr

theorem Mem.Prompt.same {m m' : Mem} (h : m.Prompt) (hsame : m.Same m') : m'.Prompt := by
  obtain ⟨pt, rfl, -⟩ := hsame
  exact h

theorem memRead_prompt {m : Mem} (h : m.Prompt) (addr : BitVec 64) (width : ℕ) :
    Ensures (memRead m addr width) fun r ↦ r.1.Prompt := by
  refine (memRead_uncached (.inr (h.usesCache addr)) width).mono fun r hr ↦ ?_
  obtain ⟨pos, trap, pt, hr⟩ := hr
  rw [hr]
  exact h

theorem memWrite_prompt {m : Mem} (h : m.Prompt) (addr data : BitVec 64) (width : ℕ) :
    Ensures (memWrite m addr data width) Mem.Prompt := by
  refine (memWrite_uncached (.inr (h.usesCache addr)) data width).mono fun m' hm' ↦ ?_
  obtain ⟨output, pt, rfl⟩ := hm'
  exact h

theorem accessed_prompt {mem : Mem} (h : mem.Prompt) (m : MInstr) :
    Ensures (accessed m mem) fun r ↦ r.1.Prompt := by
  have hread : Ensures (dmemRead mem m.val_ex m.M_sigs.dmem_read) fun r ↦ r.1.Prompt := by
    unfold dmemRead
    split
    · exact memRead_prompt h _ _
    · exact Ensures.ok h
  have hwrite : ∀ n : Mem, n.Prompt →
      Ensures (dmemWrite n m.val_ex m.val_b m.M_sigs.dmem_write) Mem.Prompt := by
    intro n hn
    unfold dmemWrite
    split
    · exact memWrite_prompt hn _ _ _
    · exact Ensures.ok hn
  unfold accessed dmem
  split
  · exact Ensures.ok h
  · refine Ensures.bind (Ensures.bind hread fun r hr ↦ ?_) fun _ hq ↦ Ensures.ok hq
    exact Ensures.bind (hwrite r.1 hr) fun _ hm ↦ Ensures.ok hm

/-! ## The instructions in flight -/

section

variable (a₀ : Core × BitVec 64)

/-- If a register is written, it is for one of the last `n` instructions before the `k`th. -/
def WritesWithin (n k : ℕ) (sigs : WSigs) (dst : ℕ) : Prop :=
  sigs.w_enable = true → ∃ j d, Issues a₀ j d ∧ d.writes dst ∧ j < k ∧ k ≤ j + n

/-- The instructions behind decode are among the last ones before the `k`th. -/
structure Machine.Spaced (k : ℕ) (s : Machine) : Prop where
  X : WritesWithin a₀ 1 k s.X_out.W_sigs s.X_out.dst
  M : WritesWithin a₀ 2 k s.M_out.W_sigs s.M_out.dst
  W : WritesWithin a₀ 3 k s.W_out.W_sigs s.W_out.dst

/-- Decode waits for the `k`th instruction. -/
structure Machine.Awaits (k : ℕ) (s : Machine) : Prop where
  spaced : s.Spaced a₀ k
  op : s.D_out.op = .nop
  not_load : s.X_out.op ≠ .ldur
  resumes : AlikeUpTo True (resume s) (seqRun pipeBuild k a₀)

/-- Decode holds the `k`th instruction, which the sequential machine finds at `pc`. -/
structure Machine.Holds (k : ℕ) (c : Core) (pc : BitVec 64) (s : Machine) : Prop where
  spaced : s.Spaced a₀ k
  visits : Visits a₀ k c pc
  pc_ne : pc ≠ 0
  fetched : c.fetched pc = s.D_out
  pred_PC : s.D_out.status.isStop = false →
    s.F_out.pred_PC = fetchedPC pipeBuild pc (fetchedWord c.mem.ptable pc) (imemErr c.mem pc)
  predicted : s.executing.mispredicted = false
  resumes : AlikeUpTo True (resume s) (seqRun pipeBuild (k + 1) a₀)

/-- The states of the run of a padded program that halts in `c`. -/
structure Machine.Paced (c : Core) (s : Machine) : Prop where
  halts : s.Halts c
  prompt : s.mem.Prompt
  text : a₀.1.mem.Safe s.mem
  latched : s.F_in.status.isStop = true → s.D_out.status.isStop = true ∨ s.X_out.op = .ret
  branch : s.X_out.op = .bCond → s.D_out.op = .nop ∧ s.F_out.pred_PC ≠ 0 ∧
    (a₀.1.fetched s.F_out.pred_PC).op = .nop
  decode : s.D_out.op = .hlt ∨ ∃ k, s.Awaits a₀ k ∨ ∃ c' pc, s.Holds a₀ k c' pc

end

section

variable {a₀ : Core × BitVec 64} {k n : ℕ} {sigs : WSigs} {dst : ℕ}

theorem WritesWithin.mono (h : WritesWithin a₀ n k sigs dst) :
    WritesWithin a₀ (n + 1) k sigs dst := by
  intro henable
  obtain ⟨j, d, hissues, hwrites, hlt, hle⟩ := h henable
  exact ⟨j, d, hissues, hwrites, hlt, by omega⟩

theorem WritesWithin.succ (h : WritesWithin a₀ n k sigs dst) :
    WritesWithin a₀ (n + 1) (k + 1) sigs dst := by
  intro henable
  obtain ⟨j, d, hissues, hwrites, hlt, hle⟩ := h henable
  exact ⟨j, d, hissues, hwrites, by omega, by omega⟩

/-- A `HLT` reads no register. -/
theorem DInstr.WF.src_hlt {d : DInstr} (h : d.WF) (hop : d.op = .hlt) :
    d.src1 = XZR_NUM ∧ d.src2 = XZR_NUM := by
  have hformat : d.format = .s := by
    rw [h.format (by simp [hop]), hop]
    rfl
  unfold DInstr.src1 DInstr.src2
  rw [hformat, hop]
  exact ⟨rfl, rfl⟩

variable {c c' : Core} {pc : BitVec 64} {s s' : Machine} (hpad : FollowsPadding a₀)
include hpad

/-- What the three instructions before it write, the instruction in decode does not read. -/
theorem Machine.Holds.not_reads (h : s.Holds a₀ k c' pc) (hn : n ≤ 3)
    (hwrites : WritesWithin a₀ n k sigs dst) (henable : sigs.w_enable = true) :
    ¬s.D_out.reads dst := by
  obtain ⟨j, d, hissues, hd, hlt, hle⟩ := hwrites henable
  intro hreads
  exact hpad.registers j k d s.D_out hissues ⟨c', pc, h.visits, h.pc_ne, h.fetched⟩ hlt (by omega)
    dst hreads hd

/-- Nothing is forwarded. -/
theorem Machine.Holds.forwarded (h : s.Holds a₀ k c' pc) (w : WInstr) :
    s.forwarded w = decoded s.D_out s.regs := by
  have hforward : ∀ src, src = s.D_out.src1 ∨ src = s.D_out.src2 → ∀ val,
      forwardOne src s.X_out.dst s.M_out.dst s.W_out.dst s.executing.val_ex s.M_out.val_ex w.val_mem
        s.W_out.val_ex s.W_out.val_mem s.M_out.W_sigs.wval_sel s.W_out.W_sigs.wval_sel
        s.X_out.W_sigs.w_enable s.M_out.W_sigs.w_enable s.W_out.W_sigs.w_enable val = val := by
    intro src hsrc val
    unfold forwardOne
    rw [if_neg, if_neg, if_neg]
    · rintro ⟨henable, hdst, hxzr⟩
      exact h.not_reads hpad le_rfl h.spaced.W henable (hdst ▸ ⟨hxzr, hsrc⟩)
    · rintro ⟨henable, hdst, hxzr⟩
      exact h.not_reads hpad (Nat.le_succ 2) h.spaced.M henable (hdst ▸ ⟨hxzr, hsrc⟩)
    · rintro ⟨henable, hdst, hxzr⟩
      exact h.not_reads hpad (by decide) h.spaced.X henable (hdst ▸ ⟨hxzr, hsrc⟩)
  unfold Machine.forwarded
  dsimp only
  rw [hforward _ (.inl rfl), hforward _ (.inr rfl)]

/-- No instruction waits for a load. -/
theorem Machine.Paced.loadUse (h : s.Paced a₀ c) : s.loadUse = false := by
  rw [Bool.eq_false_iff]
  intro huse
  obtain ⟨-, hldur, hxzr, hsrc⟩ := (checkLoadUseHazard_iff _ _ _ _ _).mp huse
  have hwf := h.halts.inv.wf
  rcases h.decode with hhlt | ⟨k, hawaits | ⟨c', pc, hholds⟩⟩
  · obtain ⟨hsrc1, hsrc2⟩ := hwf.D_out.src_hlt hhlt
    rw [hsrc1, hsrc2] at hsrc
    exact hxzr (hsrc.elim id id)
  · exact hawaits.not_load hldur
  · have henable : s.X_out.W_sigs.w_enable = true := by
      rw [hwf.X_out.W_sigs, hldur]
      rfl
    exact hholds.not_reads hpad (by decide) hholds.spaced.X henable ⟨hxzr, hsrc⟩

end

/-! ## Where the fetch goes on -/

section

variable {a₀ : Core × BitVec 64} {k : ℕ} {c c' : Core} {pc : BitVec 64} {s s' : Machine}
  {r : Mem × DInstr × BitVec 64} {q : Mem × WInstr}

/-- The text of a visited core is the text of the pipeline. -/
theorem Machine.Paced.fetched (hstart : a₀.1.mem.Prompt) (h : s.Paced a₀ c)
    (hvisits : Visits a₀ k c' pc) {addr : BitVec 64} (hop : (c'.fetched addr).op ≠ .error) :
    s.core.fetched addr = c'.fetched addr := by
  have hsafe := (hvisits.safe (.inl hstart.1) hstart.2).1
  have herr : imemErr a₀.1.mem addr = false := by
    rw [← hsafe.frame.imemErr]
    exact imemErr_of_op hop
  have htext : a₀.1.mem.Safe s.core.mem := h.text
  rw [htext.fetched herr, hsafe.fetched herr]

/-- The sequential successor of an instruction that is no branch. -/
theorem fetchedPC_of_op {addr : BitVec 64}
    (hop : (c'.fetched addr).op = .nop ∨ (c'.fetched addr).op = .ret) :
    fetchedPC pipeBuild addr (fetchedWord c'.mem.ptable addr) (imemErr c'.mem addr) =
      addr + 4 := by
  have herr : imemErr c'.mem addr = false := by
    apply imemErr_of_op
    rcases hop with hop | hop <;> rw [hop] <;> decide
  unfold Core.fetched at hop
  rw [herr] at hop ⊢
  replace hop : decodeOpcode pipeBuild (fetchedWord c'.mem.ptable addr) = .nop ∨
      decodeOpcode pipeBuild (fetchedWord c'.mem.ptable addr) = .ret := hop
  unfold fetchedPC
  rcases hop with hop | hop <;> rw [hop] <;> rfl

/-- A conditional branch is predicted taken. -/
theorem fetchedPC_of_bCond {addr : BitVec 64} (hop : (c'.fetched addr).op = .bCond) :
    fetchedPC pipeBuild addr (fetchedWord c'.mem.ptable addr) (imemErr c'.mem addr) =
      c'.branchTarget addr := by
  have herr : imemErr c'.mem addr = false := imemErr_of_op (by rw [hop]; decide)
  unfold Core.fetched at hop
  rw [herr] at hop ⊢
  replace hop : decodeOpcode pipeBuild (fetchedWord c'.mem.ptable addr) = .bCond := hop
  unfold fetchedPC
  rw [hop]
  rfl

/-- Where nothing redirects the fetch and nothing is latched, it goes on at the predicted PC. -/
theorem Machine.Paced.fetches (h : s.Paced a₀ c) (hret : s.X_out.op ≠ .ret)
    (hmispred : s.M_out.mispredicted = false) (hstop : s.D_out.status.isStop = false) :
    currentPC pipeBuild s = s.F_out.pred_PC ∧
      (s.F_out.pred_PC ≠ 0 → generatesHlt pipeBuild s = false) := by
  have hshape := h.halts.inv.toShape
  have hpc := currentPC_of_not_redirected hshape hret hmispred
  refine ⟨hpc, fun hne ↦ ?_⟩
  have hlatched : s.F_in.status.isStop = false := by
    rw [Bool.eq_false_iff]
    intro hlatched
    rcases h.latched hlatched with hcontra | hcontra
    · rw [hstop] at hcontra
      cases hcontra
    · exact hret hcontra
  rw [not_generatesHlt_iff, clearedStatus_of_not_redirected hshape hret hmispred, hpc]
  exact ⟨hne, hlatched⟩

/-- A branch in execute is followed by `NOP`s. -/
theorem Machine.Paced.behind_branch (h : s.Paced a₀ c) (hbranch : s.X_out.op = .bCond)
    (hfetch : fetchResult pipeBuild s s.mem s.F_PC = .ok r) :
    generatesHlt pipeBuild s = false ∧ r.2.1.op = .nop := by
  obtain ⟨hD, hne, hnop⟩ := h.branch hbranch
  have hshape := h.halts.inv.toShape
  have hmispred : s.M_out.mispredicted = false := by
    rw [Bool.eq_false_iff]
    intro hmispred
    rw [(hshape.after_mispredicted hmispred).1] at hbranch
    cases hbranch
  have hstop : s.D_out.status.isStop = false := by
    rw [Bool.eq_false_iff, ne_eq, hshape.wf.D_out.status.isStop_iff, hD]
    decide
  obtain ⟨hpc, hhlt⟩ := h.fetches (by rw [hbranch]; decide) hmispred hstop
  have hhlt' := hhlt hne
  refine ⟨hhlt', ?_⟩
  have htext : a₀.1.mem.Safe s.core.mem := h.text
  obtain ⟨-, hD_in, -⟩ := fetchResult_of_not_generatesHlt h.halts.fetchesQuietly hhlt' hfetch
  rw [hD_in, hpc, htext.fetched (imemErr_of_op (by rw [hnop]; decide)), hnop]

/-- A branch or a return in decode is an instruction of the program, which no stop precedes. -/
theorem Machine.Paced.holds (h : s.Paced a₀ c)
    (hop : s.D_out.op = .bCond ∨ s.D_out.op = .ret) :
    (∃ k c' pc, s.Holds a₀ k c' pc) ∧ s.X_out.op ≠ .ret ∧ s.M_out.mispredicted = false ∧
      s.X_out.op ≠ .bCond ∧ s.D_out.status.isStop = false := by
  have hshape := h.halts.inv.toShape
  have hnop : s.D_out.op ≠ .nop := by
    rcases hop with hop | hop <;> rw [hop] <;> decide
  have hhlt : s.D_out.op ≠ .hlt := by
    rcases hop with hop | hop <;> rw [hop] <;> decide
  obtain ⟨hret, hmispred⟩ := hshape.not_redirected hnop
  refine ⟨?_, hret, hmispred, fun hbranch ↦ hnop (h.branch hbranch).1, ?_⟩
  · rcases h.decode with hcontra | ⟨k, hawaits | hholds⟩
    · exact absurd hcontra hhlt
    · exact absurd hawaits.op hnop
    · exact ⟨k, hholds⟩
  · rw [Bool.eq_false_iff, ne_eq, hshape.wf.D_out.status.isStop_iff]
    rcases hop with hop | hop <;> rw [hop] <;> decide

/-- A branch in decode is predicted taken, and `NOP`s stand there. -/
theorem Machine.Paced.at_target (hpad : FollowsPadding a₀) (hstart : a₀.1.mem.Prompt)
    (h : s.Paced a₀ c) (hbranch : s.D_out.op = .bCond)
    (hfetch : fetchResult pipeBuild s s.mem s.F_PC = .ok r) :
    generatesHlt pipeBuild s = false ∧ r.2.1.op = .nop ∧ r.2.2 ≠ 0 ∧
      (a₀.1.fetched r.2.2).op = .nop := by
  obtain ⟨⟨k, c', pc, hholds⟩, hret, hmispred, -, hstop⟩ := h.holds (.inl hbranch)
  obtain ⟨hpc, hhlt⟩ := h.fetches hret hmispred hstop
  have hop : (c'.fetched pc).op = .bCond := by rw [hholds.fetched, hbranch]
  have hpred : s.F_out.pred_PC = c'.branchTarget pc := by
    rw [hholds.pred_PC hstop, fetchedPC_of_bCond hop]
  have htarget := hpad.targets k c' pc hholds.visits hholds.pc_ne hop
  obtain ⟨hne, hnop⟩ := htarget 0 (by decide)
  obtain ⟨hne', hnop'⟩ := htarget 1 (by decide)
  have hzero : c'.branchTarget pc + BitVec.ofNat 64 (4 * 0) = c'.branchTarget pc :=
    BitVec.add_zero _
  have hfour : BitVec.ofNat 64 (4 * 1) = 4 := rfl
  rw [hzero] at hne hnop
  rw [hfour] at hne' hnop'
  have hhlt' := hhlt (hpred ▸ hne)
  obtain ⟨-, hD_in, hF_PC⟩ := fetchResult_of_not_generatesHlt h.halts.fetchesQuietly hhlt' hfetch
  rw [hpc, hpred] at hD_in hF_PC
  have hlegal : (c'.fetched (c'.branchTarget pc)).op ≠ .error := by
    rw [hnop]
    decide
  have htext := h.fetched hstart hholds.visits hlegal
  have hnext : r.2.2 = c'.branchTarget pc + 4 := by
    have hop' : (s.core.fetched (c'.branchTarget pc)).op = .nop := by rw [htext, hnop]
    have hseq := fetchedPC_of_op (Or.inl hop')
    exact hF_PC.trans hseq
  refine ⟨hhlt', by rw [hD_in, htext, hnop], by rw [hnext]; exact hne', ?_⟩
  have hsafe := (hholds.visits.safe (.inl hstart.1) hstart.2).1
  have herr : imemErr a₀.1.mem (c'.branchTarget pc + 4) = false := by
    rw [← hsafe.frame.imemErr]
    exact imemErr_of_op (by rw [hnop']; decide)
  rw [hnext, ← hsafe.fetched herr]
  exact hnop'

end

/-! ## One cycle -/

section

variable {a₀ : Core × BitVec 64} {k : ℕ} {c c' : Core} {pc : BitVec 64} {s s' : Machine}
  {r : Mem × DInstr × BitVec 64} {q : Mem × WInstr}

/-- What the instructions behind decode write, one cycle later. -/
theorem Machine.Spaced.move (h : s.Spaced a₀ k) (hM : s'.M_out = s.executing)
    (hW : s'.W_out = q.2) (hacc : accessed s.M_out r.1 = .ok q)
    (hX : WritesWithin a₀ 1 k s'.X_out.W_sigs s'.X_out.dst) : s'.Spaced a₀ k := by
  obtain ⟨val_mem, err, -, hw⟩ := accessed_ok hacc
  refine ⟨hX, ?_, ?_⟩
  · rw [hM]
    exact h.X.mono
  · rw [hW, hw]
    exact h.M.mono

theorem Machine.Spaced.next (h : s.Spaced a₀ k) (hM : s'.M_out = s.executing)
    (hW : s'.W_out = q.2) (hacc : accessed s.M_out r.1 = .ok q)
    (hX : WritesWithin a₀ 1 (k + 1) s'.X_out.W_sigs s'.X_out.dst) : s'.Spaced a₀ (k + 1) := by
  obtain ⟨val_mem, err, -, hw⟩ := accessed_ok hacc
  refine ⟨hX, ?_, ?_⟩
  · rw [hM]
    exact h.X.succ
  · rw [hW, hw]
    exact h.M.succ

/-- The instruction in decode goes on to execute. -/
theorem Machine.Holds.writes (h : s.Holds a₀ k c' pc) (w : WInstr) :
    WritesWithin a₀ 1 (k + 1) (s.forwarded w).W_sigs (s.forwarded w).dst := fun henable ↦
  ⟨k, s.D_out, ⟨c', pc, h.visits, h.pc_ne, h.fetched⟩, ⟨henable, rfl⟩, Nat.lt_succ_self k, le_rfl⟩

variable (h : s.Paced a₀ c) (heffect : CycleEffect s r q s')
include h heffect

theorem Machine.Paced.ready : q.1.Prompt :=
  accessed_prompt (h.prompt.same (fetchResult_quiet h.halts.fetchesQuietly heffect.fetch)) _ q
    heffect.access

variable (hs' : s'.Halts c)
include hs'

/-- Every instruction behind decode moves on, and none is at fault. -/
theorem Machine.Paced.moves : s'.M_out = s.executing ∧ s'.W_out = q.2 ∧ s'.NZCV = s.flags ∧
    q.2.status.isError = false ∧ s.mem.Safe q.1 := by
  have hready := (h.ready heffect).2
  obtain ⟨hM, hW⟩ := heffect.moves hready
  obtain ⟨n, hn⟩ := hs'.expects
  have herror : q.2.status.isError = false := hW ▸ hn.not_error
  have hMerror : s.M_out.status.isError = false := by
    rw [← status_of_not_error heffect.access herror, herror]
  have hsame := fetchResult_quiet h.halts.fetchesQuietly heffect.fetch
  have hfetch : s.mem.Safe r.1 := ⟨hsame.frame, hsame.ok (.inl h.prompt.1), hsame.textKept⟩
  have hfaults : s.M_out.faults r.1 = false :=
    (accessed_frame _ _ q heffect.access).2.symm.trans herror
  refine ⟨hM, hW, ?_, herror, hfetch.trans (accessed_safe hfetch.ok hfaults q heffect.access)⟩
  rw [heffect.NZCV, herror, hMerror, beq_false_of_ne hready]
  rfl

theorem Machine.Paced.mem : s'.mem.Prompt ∧ a₀.1.mem.Safe s'.mem := by
  obtain ⟨-, -, -, -, hsafe⟩ := h.moves heffect hs'
  rw [heffect.mem]
  exact ⟨h.ready heffect, h.text.trans hsafe⟩

/-- What leaves the memory stage ends no run, unless a stop is in decode too. -/
theorem Machine.Paced.passes (hstop : s.D_out.status.isStop = false) :
    q.2.status.passes = true := by
  obtain ⟨-, -, -, herror, -⟩ := h.moves heffect hs'
  have hshape := h.halts.inv.toShape
  have hM : s.M_out.status.isStop = false := by
    rw [Bool.eq_false_iff]
    intro hM
    have hX := hshape.wf.X_out.status.isStop_iff.mpr (.inl (hshape.after_M hM))
    have hD := hshape.wf.D_out.status.isStop_iff.mpr (.inl (hshape.after_X hX))
    rw [hstop] at hD
    cases hD
  rw [← status_of_not_error heffect.access herror] at hM
  exact passes_of_not_stop hM herror

variable (hW : s.W_out.status.passes = true)
include hW

/-- A return in decode goes on to execute, with the address that the sequential machine reads. -/
theorem Machine.Paced.returns (hpad : FollowsPadding a₀) (hret : s.D_out.op = .ret)
    (hholds : s.Holds a₀ k c' pc) :
    s'.D_out = {} ∧ s'.X_out = decoded s.D_out s.regs ∧
      AlikeUpTo True (resume s') (seqRun pipeBuild (k + 1) a₀) ∧
        s.returnAddress = c'.returnsTo pc := by
  have hready := (h.ready heffect).2
  have hquiet := h.halts.fetchesQuietly
  have hshape := h.halts.inv.toShape
  obtain ⟨-, -, -, -, hstop⟩ := h.holds (.inr hret)
  have hq := h.passes heffect hs' hstop
  have huse := h.loadUse hpad
  obtain ⟨hD, hX⟩ := heffect.ret hready huse hholds.predicted hret
  obtain ⟨halike, hredirected⟩ := drain_ret heffect hW hquiet hshape hready hq huse
    hholds.predicted hret hX
  have hresumes : AlikeUpTo True (resume s') (seqRun pipeBuild (k + 1) a₀) :=
    AlikeUpTo.trans (resume_alike halike (.inr hredirected)).upTo hholds.resumes
  rw [hholds.forwarded hpad] at hX
  refine ⟨hD, hX, hresumes, ?_⟩
  -- both sides are the address at which the sequential machine goes on
  have hret' : s'.X_out.op = .ret := by rw [hX]; exact hret
  have hshape' := hs'.inv.toShape
  obtain ⟨n, hn⟩ := hs'.expects
  have hW' : s'.W_out.status.passes = true := by
    rw [(heffect.moves hready).2]
    exact hq
  obtain ⟨⟨c₁, redirect⟩, hdrain⟩ := hn.drain_of_redirected trivial hshape' hW' (.inl hret')
  have hresume : resume s' = pure (c₁, currentPC pipeBuild s') := by
    unfold resume
    rw [hdrain, redirect_of_drain hshape' hdrain (.inl hret')]
    rfl
  rw [hresume] at hresumes
  obtain ⟨⟨c₂, pc₂⟩, hseq, -, hpc⟩ := hresumes.of_pure_left
  rw [seqRun_succ, show seqRun pipeBuild k a₀ = pure (c', pc) from hholds.visits, pure_bind] at hseq
  unfold seqStep at hseq
  rw [if_neg hholds.pc_ne] at hseq
  obtain ⟨c₃, -, hpure⟩ := bind_eq_pure.mp hseq
  have hnext := congrArg Prod.snd (pure_inj hpure)
  have hop : (instrAt pipeBuild pc c').op = .ret := by
    change (c'.fetched pc).op = .ret
    rw [hholds.fetched, hret]
  unfold nextPC at hnext
  rw [hop] at hnext
  calc s.returnAddress = s'.X_out.val_a := by rw [hX]; rfl
    _ = currentPC pipeBuild s' := (currentPC_of_ret hshape' hret').symm
    _ = pc₂ := hpc
    _ = c'.returnsTo pc := hnext.symm

/-- What is fetched behind a return. -/
theorem Machine.Paced.behind_return (hpad : FollowsPadding a₀) (hstart : a₀.1.mem.Prompt)
    (hquiet : ReturnsQuietly a₀) (hret : s.D_out.op = .ret) :
    if s.returnAddress = 0 then r.2.1.Inert
    else generatesHlt pipeBuild s = false ∧ r.2.1.status.isStop = false := by
  obtain ⟨⟨k, c', pc, hholds⟩, hXret, hmispred, -, hstop⟩ := h.holds (.inr hret)
  obtain ⟨-, -, -, hreturns⟩ := h.returns heffect hs' hW hpad hret hholds
  obtain ⟨hpc, hhlt⟩ := h.fetches hXret hmispred hstop
  have hop : (c'.fetched pc).op = .ret := by rw [hholds.fetched, hret]
  have hpred : s.F_out.pred_PC = pc + 4 := by
    rw [hholds.pred_PC hstop, fetchedPC_of_op (.inr hop)]
  rw [hpred] at hpc hhlt
  have hbehind := hquiet k c' pc hholds.visits hholds.pc_ne hop
  rw [← hreturns] at hbehind
  by_cases hmain : s.returnAddress = 0
  · rw [if_pos hmain] at hbehind ⊢
    cases hgen : generatesHlt pipeBuild s with
    | true =>
      rw [fetchResult_of_generatesHlt hgen heffect.fetch]
      exact (wf_generatedHlt s.D_in).inert (.inr rfl)
    | false =>
      obtain ⟨hne, hD_in, -⟩ :=
        fetchResult_of_not_generatesHlt h.halts.fetchesQuietly hgen heffect.fetch
      rw [hpc] at hne hD_in
      have hinert := hbehind.resolve_left hne
      have hlegal : (c'.fetched (pc + 4)).op ≠ .error := fun herror ↦ by
        have hinert' := hinert.op
        rw [herror] at hinert'
        cases hinert'
      rw [hD_in, h.fetched hstart hholds.visits hlegal]
      exact hinert
  · rw [if_neg hmain] at hbehind ⊢
    obtain ⟨hne, hlegal⟩ := hbehind
    have hgen := hhlt hne
    obtain ⟨-, hD_in, -⟩ :=
      fetchResult_of_not_generatesHlt h.halts.fetchesQuietly hgen heffect.fetch
    refine ⟨hgen, ?_⟩
    have herr : (c'.fetched (pc + 4)).op ≠ .error := fun herror ↦ by
      have hwf : (c'.fetched (pc + 4)).WF := wf_fetchedInstr _ _ _ _
      rw [hwf.status.isStop_iff.mpr (.inr herror)] at hlegal
      cases hlegal
    rw [hD_in, hpc, h.fetched hstart hholds.visits herr]
    exact hlegal

/-- Where the sequential machine goes on when an instruction is fetched behind the one in decode. -/
theorem Machine.Paced.resume_eq (hpad : FollowsPadding a₀)
    (hmispred : s.executing.mispredicted = false)
    (hredirects : (s.forwarded q.2).redirect s.flags = none)
    (hhlt : generatesHlt pipeBuild s = false) :
    ∃ c₁, resume s = pure (c₁, currentPC pipeBuild s) ∧ s.mem.Safe c₁.mem ∧
      c₁.mem.dmem_status ≠ .inFlight := by
  have hshape := h.halts.inv.toShape
  obtain ⟨n, hn⟩ := h.halts.expects
  have hstop : s.D_out.status.isStop = false := by
    rw [Bool.eq_false_iff]
    intro hstop
    rw [(generatesHlt_of_stop hshape hstop).2] at hhlt
    cases hhlt
  have hpure : ∃ a, drain s = pure a := by
    rcases Outcome.cases_on (drain s) with ha | ⟨e, he⟩ | hhang
    · exact ha
    · exfalso
      have hD : s.D_out.status.isStop = true := by
        rcases stop_of_drain ((hn.of_throw he).isStop trivial) he hW with hM | hX | hD
        · have hX := hshape.wf.X_out.status.isStop_iff.mpr (.inl (hshape.after_M hM))
          exact hshape.wf.D_out.status.isStop_iff.mpr (.inl (hshape.after_X hX))
        · exact hshape.wf.D_out.status.isStop_iff.mpr (.inl (hshape.after_X hX))
        · exact hD
      rw [hstop] at hD
      cases hD
    · exact absurd hhang hn.not_hang
  obtain ⟨⟨c₁, redirect⟩, hdrain⟩ := hpure
  refine ⟨c₁, ?_, h.halts.inv.safe hdrain, (reaches_of_drain hdrain).2.2.ready⟩
  unfold resume
  rw [hdrain]
  by_cases hredirected : s.X_out.op = .ret ∨ s.M_out.mispredicted = true
  · rw [redirect_of_drain hshape hdrain hredirected]
    rfl
  · rw [not_or, Bool.not_eq_true] at hredirected
    obtain ⟨hret, hM⟩ := hredirected
    have hnext := drain_next heffect hW h.halts.fetchesQuietly h.halts.inv (h.ready heffect).2
      (h.passes heffect hs' hstop) hmispred hret hM (h.loadUse hpad) hredirects
    rw [hdrain] at hnext
    obtain ⟨b, hb, -, hnone⟩ := Rel.of_pure_left hnext
    obtain ⟨c₂, -, hb⟩ := bind_eq_pure.mp hb
    obtain ⟨c₃, -, hb⟩ := bind_eq_pure.mp hb
    have hredirect : redirect = none := by
      rw [← pure_inj hb] at hnone
      exact hnone
    rw [hredirect, currentPC_of_not_redirected hshape hret hM]
    rfl

omit hW in
/-- When an instruction is fetched behind it, the one in decode goes on to execute and the next one
has its number. -/
theorem Machine.Paced.next_spaced (hstop : s.D_out.status.isStop = false)
    (hX : s'.X_out = s.forwarded q.2) :
    ∃ m, s'.Spaced a₀ m ∧ AlikeUpTo True (resume s) (seqRun pipeBuild m a₀) := by
  obtain ⟨hM, hW', -, -, -⟩ := h.moves heffect hs'
  rcases h.decode with hcontra | ⟨k, hawaits | ⟨c', pc, hholds⟩⟩
  · rw [h.halts.inv.wf.D_out.status.isStop_iff.mpr (.inl hcontra)] at hstop
    cases hstop
  · refine ⟨k, hawaits.spaced.move hM hW' heffect.access fun henable ↦ ?_, hawaits.resumes⟩
    rw [hX] at henable
    replace henable : (generateDXMWControl s.D_out.op).W_sigs.w_enable = true := henable
    rw [hawaits.op] at henable
    cases henable
  · refine ⟨k + 1, hholds.spaced.next hM hW' heffect.access ?_, hholds.resumes⟩
    rw [hX]
    exact hholds.writes q.2

/-- Behind a wrongly predicted branch decode has received a `NOP`, and waits. -/
theorem Machine.Paced.awaits_of_mispredicted (hpad : FollowsPadding a₀)
    (hstart : a₀.1.mem.Prompt) (hmispred : s.executing.mispredicted = false)
    (hret : s.D_out.op ≠ .ret) (hstop : s.D_out.status.isStop = false) (hD : s'.D_out = r.2.1)
    (hX : s'.X_out = s.forwarded q.2) (hspaced : s'.Spaced a₀ k)
    (hresumes : AlikeUpTo True (resume s) (seqRun pipeBuild k a₀))
    (hmispred' : (executed (s.forwarded q.2) s.flags).1.mispredicted = true) :
    s'.Awaits a₀ k := by
  have hop : (s.forwarded q.2).op = s.D_out.op := rfl
  have hbranch : s.D_out.op = .bCond := by
    by_contra hne
    rw [not_mispredicted_of_ne (by exact hne)] at hmispred'
    cases hmispred'
  obtain ⟨-, hXret, hMmispred, -, -⟩ := h.holds (.inl hbranch)
  have hredirects := redirect_of_mispredicted (by rw [hop]; exact hret) hmispred'
  obtain ⟨halike, hredirected⟩ := drain_redirected heffect hW h.halts.fetchesQuietly
    h.halts.inv.toShape (h.ready heffect).2 (h.passes heffect hs' hstop) (h.loadUse hpad) hmispred
    hXret hMmispred hX hredirects
  obtain ⟨-, hnop, -, -⟩ := h.at_target hpad hstart hbranch heffect.fetch
  refine ⟨hspaced, by rw [hD, hnop], ?_,
    AlikeUpTo.trans (resume_alike halike (.inr hredirected)).upTo hresumes⟩
  rw [hX, hop, hbranch]
  decide

/-- Otherwise it has received the instruction that the sequential machine executes next. -/
theorem Machine.Paced.holds_of_load (hpad : FollowsPadding a₀)
    (hmispred : s.executing.mispredicted = false) (hret : s.D_out.op ≠ .ret)
    (hstop : s.D_out.status.isStop = false)
    (hpred : s'.F_out.pred_PC = if r.2.1.status.isStop then s.F_out.pred_PC else s'.PC)
    (hD : s'.D_out = r.2.1) (hX : s'.X_out = s.forwarded q.2)
    (hhlt : generatesHlt pipeBuild s = false) (hspaced : s'.Spaced a₀ k)
    (hresumes : AlikeUpTo True (resume s) (seqRun pipeBuild k a₀))
    (hmispred' : s'.executing.mispredicted = false)
    (hexecuting : s'.executing = (executed (s.forwarded q.2) s.flags).1) :
    ∃ c' pc, s'.Holds a₀ k c' pc := by
  have hquiet := h.halts.fetchesQuietly
  have hq := h.passes heffect hs' hstop
  have hop : (s.forwarded q.2).op = s.D_out.op := rfl
  have hredirects : (s.forwarded q.2).redirect s.flags = none :=
    redirect_of_not_mispredicted (by rw [hop]; exact hret) (by rw [← hexecuting, hmispred'])
  obtain ⟨c₁, hresume, hsafe, hready₁⟩ :=
    h.resume_eq heffect hs' hW hpad hmispred hredirects hhlt
  obtain ⟨hne, hD_in, hF_PC⟩ := fetchResult_of_not_generatesHlt hquiet hhlt heffect.fetch
  have hnext : AlikeUpTo True (resume s') (resume s >>= seqStep pipeBuild) := by
    rcases load_simulates heffect hW hquiet h.halts.inv (h.ready heffect).2 hq hmispred
      (next_of_load heffect hq hpred) hD hX (h.loadUse hpad) with hnext | ⟨⟨pc, hcontra⟩, -, -⟩
    · exact hnext
    · rw [hredirects] at hcontra
      cases hcontra
  obtain ⟨⟨c₂, pc₂⟩, hseq, hsame, hpc⟩ := (hresume ▸ hresumes).of_pure_left
  simp only at hsame hpc
  subst hpc
  obtain ⟨n, hn⟩ := h.halts.expects
  have herr : imemErr s.mem (currentPC pipeBuild s) = false := by
    rw [← hsafe.frame.imemErr]
    exact (hn.imemErr hresume hready₁).resolve_left hne
  have hcore : s.core.mem.Safe c₁.mem := hsafe
  refine ⟨c₂, currentPC pipeBuild s, hspaced, hseq, hne, ?_, fun hlegal ↦ ?_, hmispred', ?_⟩
  · rw [hD, hD_in, hsame.fetched, hcore.fetched herr]
  · have hword := (hsame.mem.fetchedWord (currentPC pipeBuild s)).symm.trans
      (hsafe.fetchedWord herr)
    rw [hword, hsame.mem.frame.imemErr, hsafe.frame.imemErr, ← hF_PC]
    exact next_of_load heffect hq hpred (hD ▸ hlegal)
  · rw [seqRun_succ]
    exact hnext.trans hresumes.seqStep

/-- A cycle in which decode receives the next word of the text. -/
theorem Machine.Paced.decode_load (hpad : FollowsPadding a₀) (hstart : a₀.1.mem.Prompt)
    (hmispred : s.executing.mispredicted = false) (hret : s.D_out.op ≠ .ret)
    (hpred : s'.F_out.pred_PC = if r.2.1.status.isStop then s.F_out.pred_PC else s'.PC)
    (hD : s'.D_out = r.2.1) (hX : s'.X_out = s.forwarded q.2)
    (hhlt : generatesHlt pipeBuild s = false) :
    ∃ k, s'.Awaits a₀ k ∨ ∃ c' pc, s'.Holds a₀ k c' pc := by
  obtain ⟨-, -, hNZCV, -, -⟩ := h.moves heffect hs'
  have hstop : s.D_out.status.isStop = false := by
    rw [Bool.eq_false_iff]
    intro hstop
    rw [(generatesHlt_of_stop h.halts.inv.toShape hstop).2] at hhlt
    cases hhlt
  have hexecuting : s'.executing = (executed (s.forwarded q.2) s.flags).1 := by
    unfold Machine.executing
    rw [hX, hNZCV]
  obtain ⟨m, hspaced, hresumes⟩ := h.next_spaced heffect hs' hstop hX
  refine ⟨m, ?_⟩
  cases hmispred' : s'.executing.mispredicted with
  | true =>
    exact .inl (h.awaits_of_mispredicted heffect hs' hW hpad hstart hmispred hret hstop hD hX
      hspaced hresumes (hexecuting ▸ hmispred'))
  | false =>
    exact .inr (h.holds_of_load heffect hs' hW hpad hmispred hret hstop hpred hD hX hhlt hspaced
      hresumes hmispred' hexecuting)

/-- A wrongly predicted branch in execute: the `NOP`s behind it are dropped. -/
theorem Machine.Paced.squash (hmispred : s.executing.mispredicted = true) (hD : s'.D_out = {})
    (hX : s'.X_out = {}) : s'.Paced a₀ c := by
  have hshape := h.halts.inv.toShape
  obtain ⟨hM, hW', -, -, -⟩ := h.moves heffect hs'
  obtain ⟨hprompt, htext⟩ := h.mem heffect hs'
  have hbranch : s.X_out.op = .bCond := by
    by_contra hne
    rw [not_mispredicted_of_ne (m := s.executing) hne] at hmispred
    cases hmispred
  obtain ⟨hhlt, hnop⟩ := h.behind_branch hbranch heffect.fetch
  refine ⟨hs', hprompt, htext, fun hlatched ↦ ?_, fun hcontra ↦ ?_, .inr ?_⟩
  · exfalso
    rw [heffect.F_in] at hlatched
    rcases stop_of_latched hlatched with hstop | hstop
    · rcases (fetchResult_wf heffect.fetch).1.status.isStop_iff.mp hstop with hop | hop <;>
        rw [hnop] at hop <;> cases hop
    · rw [generatesHlt_of_cleared hstop] at hhlt
      cases hhlt
  · rw [hX] at hcontra
    cases hcontra
  · rcases h.decode with hcontra | ⟨k, hawaits | ⟨c', pc, hholds⟩⟩
    · rw [(h.branch hbranch).1] at hcontra
      cases hcontra
    · have hstop : s.D_out.status.isStop = false := by
        rw [Bool.eq_false_iff, ne_eq, hshape.wf.D_out.status.isStop_iff, hawaits.op]
        decide
      obtain ⟨halike, hredirected⟩ := drain_squash heffect hW h.halts.fetchesQuietly hshape
        (h.ready heffect).2 (h.passes heffect hs' hstop) hmispred
      refine ⟨k, .inl ⟨?_, by rw [hD], by rw [hX]; decide,
        AlikeUpTo.trans (resume_alike halike (.inr hredirected)).upTo hawaits.resumes⟩⟩
      refine hawaits.spaced.move hM hW' heffect.access ?_
      rw [hX]
      exact fun henable ↦ nomatch henable
    · rw [hholds.predicted] at hmispred
      cases hmispred

theorem Machine.Paced.ret (hpad : FollowsPadding a₀) (hret : s.D_out.op = .ret)
    (hX : s'.X_out = s.forwarded q.2) : s'.Paced a₀ c := by
  obtain ⟨hM, hW', -, -, -⟩ := h.moves heffect hs'
  obtain ⟨hprompt, htext⟩ := h.mem heffect hs'
  have hXret : s'.X_out.op = .ret := by
    rw [hX]
    exact hret
  refine ⟨hs', hprompt, htext, fun _ ↦ .inr hXret, fun hcontra ↦ ?_, .inr ?_⟩
  · rw [hXret] at hcontra
    cases hcontra
  · obtain ⟨⟨k, c', pc, hholds⟩, -⟩ := h.holds (.inr hret)
    obtain ⟨hD, -, hresumes, -⟩ := h.returns heffect hs' hW hpad hret hholds
    refine ⟨k + 1, .inl ⟨hholds.spaced.next hM hW' heffect.access ?_, by rw [hD], ?_, hresumes⟩⟩
    · rw [hX]
      exact hholds.writes q.2
    · rw [hXret]
      decide

theorem Machine.Paced.load (hpad : FollowsPadding a₀) (hstart : a₀.1.mem.Prompt)
    (hmispred : s.executing.mispredicted = false) (hret : s.D_out.op ≠ .ret)
    (hpred : s'.F_out.pred_PC = if r.2.1.status.isStop then s.F_out.pred_PC else s'.PC)
    (hD : s'.D_out = r.2.1) (hX : s'.X_out = s.forwarded q.2) : s'.Paced a₀ c := by
  obtain ⟨hprompt, htext⟩ := h.mem heffect hs'
  have hop : s'.X_out.op = s.D_out.op := by
    rw [hX]
    rfl
  refine ⟨hs', hprompt, htext, fun hlatched ↦ .inl ?_, fun hbranch ↦ ?_, ?_⟩
  · rw [heffect.F_in] at hlatched
    rw [hD]
    rcases stop_of_latched hlatched with hstop | hstop
    · exact hstop
    · rw [fetchResult_of_generatesHlt (generatesHlt_of_cleared hstop) heffect.fetch]
      rfl
  · obtain ⟨-, hnop, hne, hnop'⟩ :=
      h.at_target hpad hstart (hop ▸ hbranch) heffect.fetch
    have hlegal : r.2.1.status.isStop = false := by
      rw [Bool.eq_false_iff, ne_eq, (fetchResult_wf heffect.fetch).1.status.isStop_iff, hnop]
      decide
    have hstop : s.D_out.status.isStop = false := (h.holds (.inl (hop ▸ hbranch))).2.2.2.2
    rw [hD, next_of_load heffect (h.passes heffect hs' hstop) hpred hlegal]
    exact ⟨hnop, hne, hnop'⟩
  · cases hhlt : generatesHlt pipeBuild s with
    | true =>
      left
      rw [hD, fetchResult_of_generatesHlt hhlt heffect.fetch]
      rfl
    | false =>
      exact .inr (h.decode_load heffect hs' hW hpad hstart hmispred hret hpred hD hX hhlt)

theorem Machine.Paced.cycle (hrequests : ¬(s.requests r.2.1 q).Contradictory)
    (hpad : FollowsPadding a₀) (hstart : a₀.1.mem.Prompt) : s'.Paced a₀ c := by
  cases heffect.kind h.halts.inv.ec_D hrequests with
  | frozen hflight => exact absurd hflight (h.ready heffect).2
  | loadUse _ hcontra =>
    rw [h.loadUse hpad] at hcontra
    cases hcontra
  | squash _ hmispred hD hX => exact h.squash heffect hs' hW hmispred hD hX
  | ret _ _ _ hret _ hX => exact h.ret heffect hs' hW hpad hret hX
  | load _ _ hmispred hret hpred hD hX =>
    exact h.load heffect hs' hW hpad hstart hmispred hret hpred hD hX

end

/-! ## The run -/

section

variable {a₀ : Core × BitVec 64} {c : Core} {s s' : Machine}

theorem Machine.Paced.step (hpad : FollowsPadding a₀) (hstart : a₀.1.mem.Prompt)
    (h : s.Paced a₀ c) (hstep : Step pipeBuild defaultOrder s s') (hrun : s'.running = true) :
    s'.Paced a₀ c := by
  obtain ⟨r, q, heffect, hrequests, hW⟩ := effect_of_running h.halts.inv.toShape hstep.2 hrun
  exact h.cycle heffect (h.halts.step hstep hrun) hW hrequests hpad hstart

end

theorem initMachine_paced {n : ℕ} {c : Core} (GPR : ℕ → BitVec 64) {mem : Mem}
    (hcache : mem.cache = none) {entry : BitVec 64}
    (hseq : seqRun pipeBuild n (initCore GPR mem entry, entry) = throw (.halted c)) :
    (initMachine GPR mem entry).Paced (initCore GPR mem entry, entry) c where
  halts := initMachine_halts GPR hcache hseq
  prompt := ⟨hcache, MemStatus.noConfusion⟩
  text := Mem.Safe.refl (.inl hcache)
  latched := fun h ↦ Bool.noConfusion h
  branch := Opcode.noConfusion
  decode := by
    refine .inr ⟨0, .inl ⟨⟨?_, ?_, ?_⟩, rfl, Opcode.noConfusion, ?_⟩⟩
    · exact fun henable ↦ nomatch henable
    · exact fun henable ↦ nomatch henable
    · exact fun henable ↦ nomatch henable
    · rw [resume_initMachine]
      exact (Alike.refl _).upTo

end SystemEmulator
