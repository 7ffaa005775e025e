import SystemEmulator.Padded.Paced

/-!
# The two builds in lockstep

On a padded program the build without `PIPE` goes through the same states as the one with it,
except that it carries `NOP`s where the other one has bubbles, and that it executes the word behind
the last return.
-/

namespace SystemEmulator

open Outcome Result Relation

/-! ## Records that stand for each other -/

/-- The record of the build without `PIPE` is the same, or both hold a `NOP` or a `HLT`. -/
def DInstr.StandsFor (d' d : DInstr) : Prop :=
  d' = d ∨ d'.WF ∧ d'.op = d.op ∧ (d.op = .nop ∨ d.op = .hlt)

def XInstr.StandsFor (x' x : XInstr) : Prop :=
  x' = x ∨ x'.WF ∧ x'.op = x.op ∧ (x.op = .nop ∨ x.op = .hlt)

def MInstr.StandsFor (m' m : MInstr) : Prop :=
  m' = m ∨ m'.WF ∧ m'.op = m.op ∧ (m.op = .nop ∨ m.op = .hlt)

def WInstr.StandsFor (w' w : WInstr) : Prop :=
  w' = w ∨ w'.Inert ∧ w.Inert ∧ w'.op = w.op

section

variable {d d' : DInstr} {x x' : XInstr} {m m' : MInstr} {w w' : WInstr}

theorem DInstr.StandsFor.op_eq (h : d'.StandsFor d) : d'.op = d.op := by
  rcases h with rfl | ⟨-, hop, -⟩
  · rfl
  · exact hop

theorem DInstr.StandsFor.wf (h : d'.StandsFor d) (hwf : d.WF) : d'.WF := by
  rcases h with rfl | ⟨hwf', -, -⟩
  · exact hwf
  · exact hwf'

/-- Apart from a `NOP` and a `HLT` only the same record will do. -/
theorem DInstr.StandsFor.eq (h : d'.StandsFor d) (hnop : d.op ≠ .nop) (hhlt : d.op ≠ .hlt) :
    d' = d := by
  rcases h with heq | ⟨-, -, hop | hop⟩
  · exact heq
  · exact absurd hop hnop
  · exact absurd hop hhlt

theorem XInstr.StandsFor.eq (h : x'.StandsFor x) (hnop : x.op ≠ .nop) (hhlt : x.op ≠ .hlt) :
    x' = x := by
  rcases h with heq | ⟨-, -, hop | hop⟩
  · exact heq
  · exact absurd hop hnop
  · exact absurd hop hhlt

theorem DInstr.StandsFor.isStop (h : d'.StandsFor d) (hwf : d.WF) :
    d'.status.isStop = d.status.isStop := by
  rw [Bool.eq_iff_iff, (h.wf hwf).status.isStop_iff, hwf.status.isStop_iff, h.op_eq]

theorem DInstr.StandsFor.inert (h : d'.StandsFor d) (hinert : d.Inert) : d'.Inert := by
  rcases h with rfl | ⟨hwf, hop, hidle⟩
  · exact hinert
  · exact hwf.inert (hop ▸ hidle)

/-- The flags that the instruction in execute leaves. -/
theorem XInstr.StandsFor.flags (h : x'.StandsFor x) (hwf : x.WF) (nzcv : BitVec 8) :
    x'.flags nzcv = x.flags nzcv := by
  rcases h with rfl | ⟨hwf', hop, hidle⟩
  · rfl
  · unfold XInstr.flags
    rw [(hwf.inert hidle).set_flags, (hwf'.inert (hop ▸ hidle)).set_flags,
      if_neg Bool.false_ne_true, if_neg Bool.false_ne_true]

theorem XInstr.StandsFor.executed (h : x'.StandsFor x) (nzcv : BitVec 8) :
    (SystemEmulator.executed x' nzcv).1.StandsFor (SystemEmulator.executed x nzcv).1 := by
  rcases h with rfl | ⟨hwf, hop, hidle⟩
  · exact .inl rfl
  · exact .inr ⟨hwf.executed nzcv, hop, hidle⟩

/-- The data access is the same, or there is none. -/
theorem MInstr.StandsFor.accessed (h : m'.StandsFor m) (hwf : m.WF) {mem mem' : Mem}
    (hmem : mem.Same mem') {q : Mem × WInstr} (hacc : accessed m mem = .ok q) :
    ∃ q', accessed m' mem' = .ok q' ∧ q.1.Same q'.1 ∧ q'.2.StandsFor q.2 := by
  rcases h with rfl | ⟨hwf', hop, hidle⟩
  · have hrel := accessed_congr m' hmem
    rw [hacc] at hrel
    generalize SystemEmulator.accessed m' mem' = result at hrel
    cases hrel with
    | @ok _ q' h => exact ⟨q', rfl, h.1, .inl h.2.symm⟩
  · have hinert := hwf.inert hidle
    have hinert' := hwf'.inert (hop ▸ hidle)
    rw [hinert.accessed] at hacc
    cases hacc
    exact ⟨_, hinert'.accessed mem', hmem, .inr ⟨hinert'.toWInstr, hinert.toWInstr, hop⟩⟩

theorem XInstr.StandsFor.inert (h : x'.StandsFor x) (hinert : x.Inert) : x'.Inert := by
  rcases h with rfl | ⟨hwf, hop, hidle⟩
  · exact hinert
  · exact hwf.inert (hop ▸ hidle)

theorem MInstr.StandsFor.inert (h : m'.StandsFor m) (hinert : m.Inert) : m'.Inert := by
  rcases h with rfl | ⟨hwf, hop, hidle⟩
  · exact hinert
  · exact hwf.inert (hop ▸ hidle)

theorem WInstr.StandsFor.inert (h : w'.StandsFor w) (hinert : w.Inert) : w'.Inert := by
  rcases h with rfl | ⟨hinert', -, -⟩
  · exact hinert
  · exact hinert'

/-- What writeback does to the registers. -/
theorem WInstr.StandsFor.regfileWrite (h : w'.StandsFor w) (regs : Regs) :
    regfileWrite regs w'.dst w'.wval (w'.W_sigs.w_enable && w'.status == .aok) =
      regfileWrite regs w.dst w.wval (w.W_sigs.w_enable && w.status == .aok) := by
  rcases h with rfl | ⟨hinert', hinert, -⟩
  · rfl
  · rw [hinert'.regfileWrite, hinert.regfileWrite]

theorem WInstr.StandsFor.passes (h : w'.StandsFor w) (hpasses : w.status.passes = true) :
    w'.status.passes = true := by
  rcases h with rfl | ⟨hinert', hinert, hop⟩
  · exact hpasses
  · rcases hinert'.status_cases with ⟨hhlt, -⟩ | ⟨-, hpasses'⟩
    · rcases hinert.status_cases with ⟨-, hstatus⟩ | ⟨hne, -⟩
      · rw [hstatus] at hpasses
        cases hpasses
      · exact absurd (hop.symm.trans hhlt) hne
    · exact hpasses'

end

/-! ## The fetch stage -/

/-- Without `PIPE` nothing clears the latch. -/
theorem clearedStatus_plain (s : Machine) : clearedStatus plainBuild s = s.F_in.status :=
  if_neg fun h ↦ Bool.false_ne_true h.1

/-- Without `PIPE` only a wrongly predicted branch redirects the fetch. -/
theorem currentPC_plain (s : Machine) : currentPC plainBuild s =
    if s.M_out.mispredicted then s.M_out.multipurpose_val else s.F_out.pred_PC := by
  have hselect : selectPC plainBuild s.F_out.pred_PC s.D_out.op s.F_out.pred_PC s.X_out s.M_out.op
      s.M_out.cond_holds s.M_out.multipurpose_val = s.F_out.pred_PC := by
    unfold selectPC
    split
    · next hmain => exact hmain.2.symm
    · rfl
  unfold currentPC
  rw [hselect]
  unfold MInstr.mispredicted
  by_cases hop : s.M_out.op = .bCond
  · cases s.M_out.cond_holds <;> simp [hop]
  · simp [hop]

/-- The address of a return is the operand that decode reads. -/
theorem overriddenPC_plain {s : Machine} (hwf : s.D_out.WF) (F_PC : BitVec 64) :
    overriddenPC plainBuild s F_PC = if s.returns then s.returnAddress else F_PC := by
  unfold overriddenPC Machine.returns
  by_cases hret : s.D_out.op = .ret
  · have hformat : s.D_out.format = .b3 := by
      rw [hwf.format (by simp [hret]), hret]
      rfl
    have haddr : (regfileRead s.regs (regField s.D_out.insnbits 5) XZR_NUM).1 =
        s.returnAddress := by
      unfold Machine.returnAddress decoded DInstr.src1
      rw [hformat, hret]
      rfl
    rw [haddr]
    simp only [hret, Bool.false_eq_true, not_false_eq_true, and_self, ↓reduceIte, beq_self_eq_true,
      Bool.true_and, bne_iff_ne]
  · simp only [hret, and_false, ↓reduceIte, beq_iff_eq, Bool.and_eq_true, false_and]

section

variable {s t : Machine} {r : Mem × DInstr × BitVec 64}

/-- The two builds fetch the same word. -/
theorem fetchResult_plain (hmem : s.mem.Same t.mem) (hquiet : s.FetchesQuietly)
    (hgenerates : generatesHlt plainBuild t = generatesHlt pipeBuild s)
    (hPC : generatesHlt pipeBuild s = false → currentPC plainBuild t = currentPC pipeBuild s)
    (hfetch : fetchResult pipeBuild s s.mem s.F_PC = .ok r) :
    ∃ r', fetchResult plainBuild t t.mem t.F_PC = .ok r' ∧ r.1.Same r'.1 ∧
      r'.2.1.StandsFor r.2.1 ∧ (generatesHlt pipeBuild s = false → r'.2 = r.2) := by
  cases hhlt : generatesHlt pipeBuild s with
  | true =>
    rw [hhlt] at hgenerates
    rw [fetchResult_of_generatesHlt hhlt hfetch]
    refine ⟨_, fetchResult_of_latched hgenerates _ _, hmem, ?_, fun hcontra ↦ nomatch hcontra⟩
    exact .inr ⟨wf_generatedHlt t.D_in, rfl, .inr rfl⟩
  | false =>
    have hquiet' : QuietFetch s.mem (currentPC pipeBuild s) := by
      rcases hquiet with hcontra | hquiet
      · rw [hhlt] at hcontra
        cases hcontra
      · exact hquiet
    obtain ⟨pt, himem, hpt⟩ := imem_quiet (hmem.frame.quietFetch hquiet')
    have hsame := fetchResult_quiet hquiet hfetch
    obtain ⟨-, hD_in, hF_PC⟩ := fetchResult_of_not_generatesHlt hquiet hhlt hfetch
    have hfetch' : fetchResult plainBuild t t.mem t.F_PC =
        .ok ({ t.mem with ptable := pt }, r.2.1, r.2.2) := by
      unfold fetchResult
      rw [hgenerates, hhlt, hPC hhlt, himem, hD_in, hF_PC, ← hmem.fetchedWord, hmem.frame.imemErr]
      rfl
    exact ⟨_, hfetch', hsame.symm.trans (hmem.trans ⟨pt, rfl, hpt⟩), .inl rfl, fun _ ↦ rfl⟩

end

/-! ## One cycle of both builds -/

/-- What the two builds have committed is the same, up to the shape of the page tables. -/
structure Machine.Agrees (t s : Machine) : Prop where
  regs : t.regs = s.regs
  NZCV : t.NZCV = s.NZCV
  mem : s.mem.Same t.mem
  W : t.W_out.StandsFor s.W_out
  deassert_flags : t.deassert_flags = false
  controls : ¬t.PipeError

/-- Both builds generate a halt, or both fetch from the same address. -/
structure Machine.FetchesAlike (t s : Machine) : Prop where
  generates : generatesHlt plainBuild t = generatesHlt pipeBuild s
  currentPC : generatesHlt pipeBuild s = false →
    SystemEmulator.currentPC plainBuild t = SystemEmulator.currentPC pipeBuild s

theorem Machine.FetchesAlike.of_halts {s t : Machine} (hs : generatesHlt pipeBuild s = true)
    (ht : generatesHlt plainBuild t = true) : t.FetchesAlike s := by
  refine ⟨ht.trans hs.symm, fun hcontra ↦ ?_⟩
  rw [hs] at hcontra
  cases hcontra

theorem Machine.FetchesAlike.of_currentPC {s t : Machine}
    (hPC : SystemEmulator.currentPC plainBuild t = SystemEmulator.currentPC pipeBuild s)
    (hs : SystemEmulator.currentPC pipeBuild s ≠ 0 → (clearedStatus pipeBuild s).isStop = false)
    (ht : t.F_in.status.isStop = false) : t.FetchesAlike s := by
  refine ⟨?_, fun _ ↦ hPC⟩
  rw [generatesHlt_eq, generatesHlt_eq, hPC, clearedStatus_plain, ht]
  by_cases hzero : SystemEmulator.currentPC pipeBuild s = 0
  · rw [hzero]
    rfl
  · rw [hs hzero]

/-- The two builds go through the same state. -/
structure Machine.Tracks (t s : Machine) : Prop extends t.Agrees s, t.FetchesAlike s where
  M : t.M_out.StandsFor s.M_out
  X : t.X_out.StandsFor s.X_out
  D : t.D_out.StandsFor s.D_out

/-- A cycle of the build without `PIPE` beside one of the build with `PIPE`, from `s` to `s'`. -/
structure Machine.MovesAlong (s s' : Machine) (r : Mem × DInstr × BitVec 64) (t t' : Machine)
    (r' : Mem × DInstr × BitVec 64) (q' : Mem × WInstr) : Prop where
  step : Step plainBuild defaultOrder t t'
  running : t'.running = true
  effect : PlainEffect t r' q' t'
  agrees : t'.Agrees s'
  fetched : r'.2.1.StandsFor r.2.1
  next : generatesHlt pipeBuild s = false → r'.2 = r.2

theorem MInstr.StandsFor.mispredicted {m m' : MInstr} (h : m'.StandsFor m) :
    m'.mispredicted = m.mispredicted := by
  rcases h with rfl | ⟨-, hop, hidle⟩
  · rfl
  · have hne : m.op ≠ .bCond := by
      rcases hidle with hidle | hidle <;> rw [hidle] <;> decide
    rw [not_mispredicted_of_ne hne, not_mispredicted_of_ne (hop ▸ hne)]

section

variable {a₀ : Core × BitVec 64} {c : Core} {s s' t t' : Machine} {r r' : Mem × DInstr × BitVec 64}
  {q q' : Mem × WInstr} (hs : s.Paced a₀ c) (heffect : CycleEffect s r q s') (hs' : s'.Halts c)
  (hW : s.W_out.status.passes = true)
include hs heffect hs' hW

/-- The build without `PIPE` makes its cycle, too. -/
theorem Machine.Agrees.cycle (h : t.Agrees s) (hrunning : t.running = true)
    (hfetches : t.FetchesAlike s) (hM : t.M_out.StandsFor s.M_out) (hflags : t.flags = s.flags) :
    ∃ t' r' q', Machine.MovesAlong s s' r t t' r' q' := by
  obtain ⟨r', hfetch, hmem, hD_in, hnext⟩ := fetchResult_plain h.mem hs.halts.fetchesQuietly
    hfetches.generates hfetches.currentPC heffect.fetch
  obtain ⟨q', hacc, hmem', hw⟩ := hM.accessed hs.halts.inv.wf.M_out hmem heffect.access
  obtain ⟨t', hcycle, heffect'⟩ := plain_cycle h.controls hfetch hacc
  obtain ⟨-, hW', hNZCV, -, -⟩ := hs.moves heffect hs'
  refine ⟨t', r', q', ⟨hrunning, hcycle⟩, heffect'.running (h.W.passes hW), heffect',
    ⟨?_, ?_, ?_, ?_, ?_, heffect'.controls⟩, hD_in, hnext⟩
  · rw [heffect'.regs, heffect.regs, h.regs]
    exact h.W.regfileWrite s.regs
  · rw [heffect'.NZCV, h.deassert_flags, hNZCV, ← hflags]
    rfl
  · rw [heffect.mem, heffect'.mem]
    exact hmem'
  · rw [hW', heffect'.W_out]
    exact hw
  · rw [heffect'.deassert_flags, h.deassert_flags]

end

/-- Both builds read the same address for a return. -/
theorem Machine.Tracks.returnAddress {s t : Machine} (h : t.Tracks s) (hret : s.D_out.op = .ret) :
    t.returnAddress = s.returnAddress := by
  unfold Machine.returnAddress
  rw [h.D.eq (by rw [hret]; decide) (by rw [hret]; decide), h.regs]

section

variable {a₀ : Core × BitVec 64} {c : Core} {s s' t t' : Machine} {r r' : Mem × DInstr × BitVec 64}
  {q q' : Mem × WInstr} (hs : s.Paced a₀ c) (h : t.Tracks s)
  (hmoves : Machine.MovesAlong s s' r t t' r' q')
include hs h hmoves

/-- What goes on to execute. -/
theorem Machine.Tracks.decoded (hpad : FollowsPadding a₀) (hX : s'.X_out = s.forwarded q.2) :
    t'.X_out.StandsFor s'.X_out := by
  have hwf := hs.halts.inv.wf
  have hD := h.D.wf hwf.D_out
  rw [hX, hmoves.effect.X_out, h.regs]
  by_cases hidle : s.D_out.op = .nop ∨ s.D_out.op = .hlt
  · exact .inr ⟨hD.decoded s.regs, h.D.op_eq, hidle⟩
  · rw [not_or] at hidle
    obtain ⟨hnop, hhlt⟩ := hidle
    rw [h.D.eq hnop hhlt]
    rcases hs.decode with hcontra | ⟨k, hawaits | ⟨c', pc, hholds⟩⟩
    · exact absurd hcontra hhlt
    · exact absurd hawaits.op hnop
    · exact .inl (hholds.forwarded hpad q.2).symm

variable (heffect : CycleEffect s r q s')
include heffect

omit hs in
/-- A fetch that takes place and finds no stop latches nothing. -/
theorem Machine.Tracks.not_latched (hhlt : generatesHlt pipeBuild s = false)
    (hstop : r.2.1.status.isStop = false) :
    s'.F_in.status.isStop = false ∧ t'.F_in.status.isStop = false := by
  have hstop' : r'.2.1.status.isStop = false := by
    rw [hmoves.fetched.isStop (fetchResult_wf heffect.fetch).1, hstop]
  have hhlt' := h.generates.trans hhlt
  rw [generatesHlt_eq, Bool.or_eq_false_iff] at hhlt hhlt'
  rw [heffect.F_in, hmoves.effect.F_in, latchedStatus_of_not_stop hstop,
    latchedStatus_of_not_stop hstop']
  exact ⟨hhlt.2, hhlt'.2⟩

variable (hs' : s'.Halts c)
include hs'

/-- What goes on to memory. -/
theorem Machine.Tracks.executed : t'.M_out.StandsFor s'.M_out := by
  rw [(hs.moves heffect hs').1, hmoves.effect.M_out]
  unfold Machine.executing
  rw [h.NZCV]
  exact h.X.executed s.NZCV

variable (hpad : FollowsPadding a₀)
include hpad

/-- A cycle in which every instruction moves on. -/
theorem Machine.Tracks.load (hmispred : s.executing.mispredicted = false) (hret : s.D_out.op ≠ .ret)
    (hpred : s'.F_out.pred_PC = if r.2.1.status.isStop then s.F_out.pred_PC else s'.PC)
    (hD : s'.D_out = r.2.1) (hX : s'.X_out = s.forwarded q.2) : t'.Tracks s' := by
  have hshape' := hs'.inv.toShape
  have hM := h.executed hs hmoves heffect hs'
  have hmispred' : s'.M_out.mispredicted = false := by
    rw [(hs.moves heffect hs').1, hmispred]
  have hret' : s'.X_out.op ≠ .ret := by
    rw [hX]
    exact hret
  have hcleared := clearedStatus_of_not_redirected hshape' hret' hmispred'
  have hne : t.D_out.op ≠ .ret := by
    rw [h.D.op_eq]
    exact hret
  have hreturns : t.returns = false ∧ t.returnsFromMain = false := by
    unfold Machine.returns Machine.returnsFromMain
    rw [beq_false_of_ne hne]
    exact ⟨rfl, rfl⟩
  have hwf := (fetchResult_wf heffect.fetch).1
  have hfetches : t'.FetchesAlike s' := by
    cases hstop : r.2.1.status.isStop with
    | true =>
      have hstop' := (hmoves.fetched.isStop hwf).trans hstop
      apply Machine.FetchesAlike.of_halts
      · rw [generatesHlt_eq, hcleared, heffect.F_in, isStop_latchedStatus hstop, Bool.or_true]
      · rw [generatesHlt_eq, clearedStatus_plain, hmoves.effect.F_in, isStop_latchedStatus hstop',
          Bool.or_true]
    | false =>
      have hhlt : generatesHlt pipeBuild s = false := by
        rw [Bool.eq_false_iff]
        intro hhlt
        rw [fetchResult_of_generatesHlt hhlt heffect.fetch] at hstop
        cases hstop
      have hDstop : s.D_out.status.isStop = false := by
        rw [Bool.eq_false_iff]
        intro hDstop
        rw [(generatesHlt_of_stop hs.halts.inv.toShape hDstop).2] at hhlt
        cases hhlt
      have hstop' := (hmoves.fetched.isStop hwf).trans hstop
      obtain ⟨hlatched, hlatched'⟩ := h.not_latched hmoves heffect hhlt hstop
      refine Machine.FetchesAlike.of_currentPC ?_ (fun _ ↦ hcleared ▸ hlatched) hlatched'
      calc currentPC plainBuild t' = t'.F_out.pred_PC := by
            rw [currentPC_plain, hM.mispredicted, hmispred']
            rfl
        _ = r'.2.2 := by
            rw [hmoves.effect.pred_PC, overriddenPC_plain (h.D.wf hs.halts.inv.wf.D_out),
              hreturns.1, hreturns.2, hstop']
            rfl
        _ = r.2.2 := by rw [hmoves.next hhlt]
        _ = s'.F_out.pred_PC :=
            (next_of_load heffect (hs.passes heffect hs' hDstop) hpred hstop).symm
        _ = currentPC pipeBuild s' :=
            (currentPC_of_not_redirected hshape' hret' hmispred').symm
  refine ⟨hmoves.agrees, hfetches, hM, h.decoded hs hmoves hpad hX, ?_⟩
  rw [hD, hmoves.effect.D_out, hreturns.1]
  exact hmoves.fetched

omit hpad in
/-- A cycle in which a wrongly predicted branch drops two `NOP`s. -/
theorem Machine.Tracks.squash (hmispred : s.executing.mispredicted = true) (hD : s'.D_out = {})
    (hX : s'.X_out = {}) : t'.Tracks s' := by
  have hshape' := hs'.inv.toShape
  have hwf := hs.halts.inv.wf
  have hM := h.executed hs hmoves heffect hs'
  have hbranch : s.X_out.op = .bCond := by
    by_contra hne
    rw [not_mispredicted_of_ne (m := s.executing) hne] at hmispred
    cases hmispred
  obtain ⟨hhlt, hnop⟩ := hs.behind_branch hbranch heffect.fetch
  obtain ⟨hDnop, -, -⟩ := hs.branch hbranch
  have hmispred' : s'.M_out.mispredicted = true := by
    rw [(hs.moves heffect hs').1, hmispred]
  have hne : t.D_out.op ≠ .ret := by
    rw [h.D.op_eq, hDnop]
    decide
  have hreturns : t.returns = false := by
    unfold Machine.returns
    rw [beq_false_of_ne hne, Bool.false_and]
  have hwf_in := (fetchResult_wf heffect.fetch).1
  have hstop : r.2.1.status.isStop = false := by
    rw [Bool.eq_false_iff, ne_eq, hwf_in.status.isStop_iff, hnop]
    decide
  have hMeq : t'.M_out = s'.M_out := by
    rw [hmoves.effect.M_out, (hs.moves heffect hs').1]
    unfold Machine.executing
    rw [h.NZCV, h.X.eq (by rw [hbranch]; decide) (by rw [hbranch]; decide)]
  refine ⟨hmoves.agrees, Machine.FetchesAlike.of_currentPC ?_ (fun hzero ↦ ?_)
    (h.not_latched hmoves heffect hhlt hstop).2, hM, .inr ⟨?_, ?_, ?_⟩, .inr ⟨?_, ?_, ?_⟩⟩
  · rw [currentPC_plain, currentPC_of_mispredicted hshape' hmispred', hMeq, hmispred']
    rfl
  · rw [clearedStatus_of_redirected hshape' hzero (.inr hmispred')]
    rfl
  · rw [hmoves.effect.X_out]
    exact (h.D.wf hwf.D_out).decoded t.regs
  · rw [hX, hmoves.effect.X_out]
    exact h.D.op_eq.trans hDnop
  · rw [hX]
    exact .inl rfl
  · rw [hmoves.effect.D_out, hreturns]
    exact hmoves.fetched.wf hwf_in
  · rw [hD, hmoves.effect.D_out, hreturns]
    exact hmoves.fetched.op_eq.trans hnop
  · rw [hD]
    exact .inl rfl

variable (hW : s.W_out.status.passes = true) (hstart : a₀.1.mem.Prompt)
  (hquiet : ReturnsQuietly a₀) (hret : s.D_out.op = .ret)
include hW hstart hquiet hret

/-- A cycle in which a return drops the word that is fetched behind it. -/
theorem Machine.Tracks.ret (hmain : s.returnAddress ≠ 0) : t'.Tracks s' := by
  have hshape' := hs'.inv.toShape
  have hM := h.executed hs hmoves heffect hs'
  obtain ⟨⟨k, c', pc, hholds⟩, -, -, -, -⟩ := hs.holds (.inr hret)
  obtain ⟨hD, hX, -, -⟩ := hs.returns heffect hs' hW hpad hret hholds
  have hbehind := hs.behind_return heffect hs' hW hpad hstart hquiet hret
  rw [if_neg hmain] at hbehind
  obtain ⟨hhlt, hstop⟩ := hbehind
  have hDeq : t.D_out = s.D_out := h.D.eq (by rw [hret]; decide) (by rw [hret]; decide)
  have haddr := h.returnAddress hret
  have hne : (t.returnAddress == RET_FROM_MAIN_ADDR) = false :=
    beq_false_of_ne (haddr.trans_ne hmain)
  have hreturns : t.returns = true ∧ t.returnsFromMain = false := by
    unfold Machine.returns Machine.returnsFromMain
    rw [bne, hne, hDeq, hret]
    exact ⟨rfl, rfl⟩
  have hXeq : t'.X_out = s'.X_out := by rw [hX, hmoves.effect.X_out, hDeq, h.regs]
  have hXret : s'.X_out.op = .ret := by
    rw [hX]
    exact hret
  have hmispred' : s'.M_out.mispredicted = false := by
    rw [(hs.moves heffect hs').1, hholds.predicted]
  have hstop' := (hmoves.fetched.isStop (fetchResult_wf heffect.fetch).1).trans hstop
  have hPC : currentPC pipeBuild s' = s.returnAddress := by
    rw [currentPC_of_ret hshape' hXret, hX]
    rfl
  refine ⟨hmoves.agrees, Machine.FetchesAlike.of_currentPC ?_ (fun hzero ↦ ?_)
    (h.not_latched hmoves heffect hhlt hstop).2, hM, .inl hXeq, .inl ?_⟩
  · rw [hPC, currentPC_plain, hM.mispredicted, hmispred', hmoves.effect.pred_PC, hstop',
      overriddenPC_plain (h.D.wf hs.halts.inv.wf.D_out), hreturns.1, hreturns.2, haddr]
    rfl
  · rw [clearedStatus_of_redirected hshape' hzero (.inl hXret)]
    rfl
  · rw [hD, hmoves.effect.D_out, hreturns.1]
    rfl

end

/-! ## The end of the run -/

/-- The last return is in execute, and the build without `PIPE` holds the word behind it. -/
structure Machine.Returning (t s : Machine) : Prop extends t.Agrees s where
  halts : generatesHlt pipeBuild s = true
  generates : generatesHlt plainBuild t = true
  ret : s.X_out.op = .ret
  M : t.M_out.StandsFor s.M_out
  X : t.X_out = s.X_out
  D : t.D_out.Inert

structure Machine.Returned (t s : Machine) : Prop extends t.Agrees s where
  generates : generatesHlt plainBuild t = true
  ret : s.M_out.op = .ret
  bubble : s.X_out.op = .nop
  hlt : s.D_out.op = .hlt
  M : t.M_out = s.M_out
  X : t.X_out.Inert
  D : t.D_out.Inert

/-- Nothing is left to do, and the build without `PIPE` has the final state. -/
structure Machine.Finished (c : Core) (t : Machine) : Prop extends t.Spent where
  regs : t.regs = c.regs
  NZCV : t.NZCV = c.NZCV
  mem : c.mem.Same t.mem

/-- The states of the two builds after the same number of cycles, until one has finished. -/
inductive Machine.Lockstep (c : Core) (t s : Machine) : Prop
  | tracks (h : t.Tracks s)
  | returning (h : t.Returning s)
  | returned (h : t.Returned s)
  | finished (h : t.Finished c)

section

variable {a₀ : Core × BitVec 64} {c : Core} {s s' t t' : Machine} {r r' : Mem × DInstr × BitVec 64}
  {q q' : Mem × WInstr} (hs : s.Paced a₀ c) (heffect : CycleEffect s r q s') (hs' : s'.Halts c)
  (hmoves : Machine.MovesAlong s s' r t t' r' q')

/-- Without `PIPE` a stop that is fetched stays latched. -/
theorem Machine.MovesAlong.generates (hstop : r'.2.1.status.isStop = true)
    (hmoves : Machine.MovesAlong s s' r t t' r' q') : generatesHlt plainBuild t' = true := by
  rw [generatesHlt_eq, clearedStatus_plain, hmoves.effect.F_in, isStop_latchedStatus hstop,
    Bool.or_true]

include hs heffect hs' hmoves

/-- A cycle in which the last return leaves decode. -/
theorem Machine.Tracks.returning (hW : s.W_out.status.passes = true) (hpad : FollowsPadding a₀)
    (hstart : a₀.1.mem.Prompt) (hquiet : ReturnsQuietly a₀) (h : t.Tracks s)
    (hret : s.D_out.op = .ret) (hmain : s.returnAddress = 0) : t'.Returning s' := by
  have hshape' := hs'.inv.toShape
  have hM := h.executed hs hmoves heffect hs'
  obtain ⟨⟨k, c', pc, hholds⟩, -, -, -, -⟩ := hs.holds (.inr hret)
  obtain ⟨-, hX, -, -⟩ := hs.returns heffect hs' hW hpad hret hholds
  have hbehind := hs.behind_return heffect hs' hW hpad hstart hquiet hret
  rw [if_pos hmain] at hbehind
  have hDeq : t.D_out = s.D_out := h.D.eq (by rw [hret]; decide) (by rw [hret]; decide)
  have hzero : (t.returnAddress == RET_FROM_MAIN_ADDR) = true :=
    beq_iff_eq.mpr ((h.returnAddress hret).trans hmain)
  have hreturns : t.returns = false ∧ t.returnsFromMain = true := by
    unfold Machine.returns Machine.returnsFromMain
    rw [bne, hzero, hDeq, hret]
    exact ⟨rfl, rfl⟩
  have hXret : s'.X_out.op = .ret := by
    rw [hX]
    exact hret
  have hmispred' : s'.M_out.mispredicted = false := by
    rw [(hs.moves heffect hs').1, hholds.predicted]
  refine ⟨hmoves.agrees, ?_, ?_, hXret, hM, ?_, ?_⟩
  · rw [generatesHlt_eq, currentPC_of_ret hshape' hXret, hX]
    change (s.returnAddress == 0 || _) = true
    rw [hmain]
    rfl
  · cases hstop : r'.2.1.status.isStop with
    | true => exact hmoves.generates hstop
    | false =>
      have hpred : t'.F_out.pred_PC = 0 := by
        rw [hmoves.effect.pred_PC, hstop, hreturns.2]
        rfl
      rw [generatesHlt_eq, currentPC_plain, hM.mispredicted, hmispred', hpred]
      rfl
  · rw [hX, hmoves.effect.X_out, hDeq, h.regs]
  · rw [hmoves.effect.D_out, hreturns.1]
    exact hmoves.fetched.inert hbehind

omit hs hs' in
/-- What decode receives behind the last return. -/
theorem Machine.MovesAlong.inert_D (hhlt : generatesHlt pipeBuild s = true) :
    t'.D_out.Inert ∧ generatesHlt plainBuild t' = true := by
  have hwf := (fetchResult_wf heffect.fetch).1
  have hop : r.2.1.op = .hlt := by
    rw [fetchResult_of_generatesHlt hhlt heffect.fetch]
    rfl
  have hinert := hmoves.fetched.inert (hwf.inert (.inr hop))
  refine ⟨?_, hmoves.generates ?_⟩
  · rw [hmoves.effect.D_out]
    split
    · exact inert_bubbleD
    · exact hinert
  · rw [hmoves.fetched.isStop hwf, hwf.status.isStop_iff]
    exact .inl hop

variable (hpad : FollowsPadding a₀)
include hpad

theorem Machine.Returning.returned (h : t.Returning s) : t'.Returned s' := by
  have hshape := hs.halts.inv.toShape
  obtain ⟨hM, -, -, -, -⟩ := hs.moves heffect hs'
  have hnop := hshape.after_ret h.ret
  have hmispred : s.executing.mispredicted = false :=
    not_mispredicted_of_ne (m := s.executing) (by change s.X_out.op ≠ _; rw [h.ret]; decide)
  obtain ⟨-, hD, hX⟩ := heffect.load (hs.ready heffect).2 (hs.loadUse hpad) hmispred hshape.ec_D
    (by rw [hnop]; decide)
  obtain ⟨hinert, hgenerates⟩ := hmoves.inert_D heffect h.halts
  refine ⟨hmoves.agrees, hgenerates, ?_, ?_, ?_, ?_, ?_, hinert⟩
  · rw [hM]
    exact h.ret
  · rw [hX]
    exact hnop
  · rw [hD, fetchResult_of_generatesHlt h.halts heffect.fetch]
    rfl
  · rw [hM, hmoves.effect.M_out]
    unfold Machine.executing
    rw [h.X, h.NZCV]
  · rw [hmoves.effect.X_out]
    exact h.D.decoded t.regs

end

/-- Before a halt in execute, what has been committed is the final state. -/
theorem Machine.Halts.final {c : Core} {s : Machine} (hs : s.Halts c)
    (hready : s.mem.dmem_status ≠ .inFlight) (hW : s.W_out.Inert)
    (hM : s.M_out.op = .nop ∨ s.M_out.op = .hlt) (hX : s.X_out.op = .hlt) : s.core.Same c := by
  have hwf := hs.inv.wf
  have hdrain : drain s = throw (.halted s.core) := by
    rcases hW.status_cases with ⟨-, hhlt⟩ | ⟨-, hpasses⟩
    · unfold drain drainFrom writeback
      rw [hhlt]
      rfl
    · have hafter : s.afterW = s.core := by
        unfold Machine.afterW
        rw [hW.regfileWrite]
        rfl
      have hcore : s.core.mem.dmem_status ≠ .inFlight := hready
      rw [drain_eq_drainM hpasses, hafter]
      unfold drainM
      rcases hM with hM | hM
      · rw [access_idle hwf.M_out (by rw [hM]; rfl) hcore, hM,
          not_mispredicted_of_ne (by rw [hM]; decide)]
        change drainX s.X_out s.D_out s.core = _
        unfold drainX
        rw [execute_idle hwf.X_out (by rw [hX]; rfl) hcore, hX]
        rfl
      · rw [access_idle hwf.M_out (by rw [hM]; rfl) hcore, hM]
        rfl
  obtain ⟨n, hn⟩ := hs.expects
  obtain ⟨c', hc', hsame⟩ := (hn.of_throw hdrain).of_halted
  cases hc'
  exact hsame

theorem Machine.Agrees.finished {c : Core} {s t : Machine} (h : t.Agrees s) (hspent : t.Spent)
    (hfinal : s.core.Same c) : t.Finished c where
  toSpent := hspent
  regs := h.regs.trans hfinal.regs.symm
  NZCV := h.NZCV.trans hfinal.NZCV.symm
  mem := hfinal.mem.symm.trans h.mem

theorem Machine.Returned.finished {a₀ : Core × BitVec 64} {c : Core} {s s' t t' : Machine}
    {r r' : Mem × DInstr × BitVec 64} {q q' : Mem × WInstr} (hs : s.Paced a₀ c)
    (heffect : CycleEffect s r q s') (hs' : s'.Halts c)
    (hmoves : Machine.MovesAlong s s' r t t' r' q') (hpad : FollowsPadding a₀)
    (h : t.Returned s) : t'.Finished c := by
  have hshape := hs.halts.inv.toShape
  have hready := (hs.ready heffect).2
  obtain ⟨hM, hW, -, -, -⟩ := hs.moves heffect hs'
  have hmispred : s.executing.mispredicted = false :=
    not_mispredicted_of_ne (m := s.executing) (by change s.X_out.op ≠ _; rw [h.bubble]; decide)
  obtain ⟨-, -, hX⟩ := heffect.load hready (hs.loadUse hpad) hmispred hshape.ec_D
    (by rw [h.hlt]; decide)
  have hhlt := (generatesHlt_of_stop hshape
    (hshape.wf.D_out.status.isStop_iff.mpr (.inl h.hlt))).2
  obtain ⟨hD', hgenerates⟩ := hmoves.inert_D heffect hhlt
  -- a return neither writes a register nor accesses the data
  have hret : s.M_out.Inert := by
    refine ⟨hshape.wf.M_out, by rw [h.ret]; rfl, fun henable ↦ ?_⟩
    rw [hshape.wf.M_out.W_sigs, h.ret] at henable
    cases henable
  have hWinert : s'.W_out.Inert := by
    have hacc := heffect.access
    rw [hret.accessed] at hacc
    rw [hW, ← Except.ok.inj hacc]
    exact hret.toWInstr
  have hfinal : s'.core.Same c := by
    refine hs'.final (heffect.mem ▸ hready) hWinert (.inl ?_) ?_
    · rw [hM]
      exact h.bubble
    · rw [hX]
      exact h.hlt
  refine hmoves.agrees.finished ⟨hD', ?_, ?_, hmoves.agrees.W.inert hWinert, hgenerates,
    hmoves.agrees.controls⟩ hfinal
  · rw [hmoves.effect.X_out]
    exact h.D.decoded t.regs
  · rw [hmoves.effect.M_out]
    exact h.X.executed t.NZCV

/-- When a halt has reached writeback, both builds have finished. -/
theorem Machine.Tracks.finished {c : Core} {s t : Machine} (h : t.Tracks s) (hs : s.Halts c)
    (hready : s.mem.dmem_status ≠ .inFlight) (hW : s.W_out.status.isStop = true) :
    t.Finished c := by
  have hshape := hs.inv.toShape
  have hM := hshape.after_W hW
  have hX := hshape.after_M (hshape.wf.M_out.status.isStop_iff.mpr (.inl hM))
  have hD := hshape.after_X (hshape.wf.X_out.status.isStop_iff.mpr (.inl hX))
  have hstop := hshape.wf.D_out.status.isStop_iff.mpr (.inl hD)
  have hWinert : s.W_out.Inert := by
    obtain ⟨n, hn⟩ := hs.expects
    have herror := hn.not_error
    have hstatus : StatusOk s.W_out.op s.W_out.status := by
      rcases hshape.wf.W_out.status with hadr | hstatus
      · rw [hadr] at hW
        cases hW
      · exact hstatus
    have hop : s.W_out.op = .hlt := by
      rcases hstatus.isStop_iff.mp hW with hop | hop
      · exact hop
      · rcases hstatus with heq | ⟨hnop, -⟩
        · rw [heq, hop] at herror
          cases herror
        · rw [hnop] at hop
          cases hop
    refine ⟨hstatus, by rw [hop]; decide, fun henable ↦ ?_⟩
    rw [hshape.wf.W_out.W_sigs, hop] at henable
    cases henable
  refine h.toAgrees.finished ⟨h.D.inert (hshape.wf.D_out.inert (.inr hD)),
    h.X.inert (hshape.wf.X_out.inert (.inr hX)), h.M.inert (hshape.wf.M_out.inert (.inr hM)),
    h.W.inert hWinert, ?_, h.controls⟩ (hs.final hready hWinert (.inr hM) hX)
  rw [h.generates, (generatesHlt_of_stop hshape hstop).2]

/-! ## The run -/

/-- One cycle of the build with `PIPE`. -/
theorem Machine.Lockstep.step {a₀ : Core × BitVec 64} {c : Core} {s s' t : Machine}
    (hpad : FollowsPadding a₀) (hstart : a₀.1.mem.Prompt) (hquiet : ReturnsQuietly a₀)
    (hs : s.Paced a₀ c) (hstep : Step pipeBuild defaultOrder s s') (hrun : s'.running = true)
    (h : t.Lockstep c s) (hrunning : t.running = true) :
    ∃ t', Run plainBuild t t' ∧ t'.running = true ∧ t'.Lockstep c s' := by
  have hshape := hs.halts.inv.toShape
  obtain ⟨r, q, heffect, hrequests, hW⟩ := effect_of_running hshape hstep.2 hrun
  have hs' := hs.halts.step hstep hrun
  cases h with
  | tracks h =>
    have hflags : t.flags = s.flags := by
      change t.X_out.flags t.NZCV = s.X_out.flags s.NZCV
      rw [h.NZCV]
      exact h.X.flags hshape.wf.X_out s.NZCV
    obtain ⟨t', r', q', hmoves⟩ :=
      h.toAgrees.cycle hs heffect hs' hW hrunning h.toFetchesAlike h.M hflags
    refine ⟨t', ReflTransGen.single hmoves.step, hmoves.running, ?_⟩
    cases heffect.kind hshape.ec_D hrequests with
    | frozen hflight => exact absurd hflight (hs.ready heffect).2
    | loadUse _ hcontra =>
      rw [hs.loadUse hpad] at hcontra
      cases hcontra
    | squash _ hmispred hD hX =>
      exact .tracks (h.squash hs hmoves heffect hs' hmispred hD hX)
    | ret _ _ _ hret =>
      by_cases hmain : s.returnAddress = 0
      · exact .returning (h.returning hs heffect hs' hmoves hW hpad hstart hquiet hret hmain)
      · exact .tracks (h.ret hs hmoves heffect hs' hpad hW hstart hquiet hret hmain)
    | load _ _ hmispred hret hpred hD hX =>
      exact .tracks (h.load hs hmoves heffect hs' hpad hmispred hret hpred hD hX)
  | returning h =>
    have hflags : t.flags = s.flags := by
      unfold Machine.flags
      rw [h.X, h.NZCV]
    obtain ⟨t', r', q', hmoves⟩ := h.toAgrees.cycle hs heffect hs' hW hrunning
      (.of_halts h.halts h.generates) h.M hflags
    exact ⟨t', ReflTransGen.single hmoves.step, hmoves.running,
      .returned (h.returned hs heffect hs' hmoves hpad)⟩
  | returned h =>
    have hflags : t.flags = s.flags := by
      unfold Machine.flags
      rw [h.X.set_flags, (hshape.wf.X_out.inert (.inl h.bubble)).set_flags, h.NZCV,
        if_neg Bool.false_ne_true, if_neg Bool.false_ne_true]
    have hhalts := (generatesHlt_of_stop hshape
      (hshape.wf.D_out.status.isStop_iff.mpr (.inl h.hlt))).2
    obtain ⟨t', r', q', hmoves⟩ := h.toAgrees.cycle hs heffect hs' hW hrunning
      (.of_halts hhalts h.generates) (.inl h.M) hflags
    exact ⟨t', ReflTransGen.single hmoves.step, hmoves.running,
      .finished (h.finished hs heffect hs' hmoves hpad)⟩
  | finished h => exact ⟨t, ReflTransGen.refl, hrunning, .finished h⟩

/-- When a halt has reached writeback, the build without `PIPE` has finished. -/
theorem Machine.Lockstep.ends {c : Core} {s t : Machine} (h : t.Lockstep c s) (hs : s.Halts c)
    (hready : s.mem.dmem_status ≠ .inFlight) (hW : s.W_out.status.isStop = true) :
    t.Finished c := by
  have hshape := hs.inv.toShape
  have hX := hshape.after_M (hshape.wf.M_out.status.isStop_iff.mpr (.inl (hshape.after_W hW)))
  cases h with
  | tracks h => exact h.finished hs hready hW
  | returning h =>
    have hret := h.ret
    rw [hX] at hret
    cases hret
  | returned h =>
    have hbubble := h.bubble
    rw [hX] at hbubble
    cases hbubble
  | finished h => exact h

theorem initMachine_lockstep (c : Core) (GPR : ℕ → BitVec 64) (mem : Mem) (entry : BitVec 64) :
    (initMachine GPR mem entry).Lockstep c (initMachine GPR mem entry) := by
  have hshape := initMachine_shape GPR mem entry
  refine .tracks ⟨⟨rfl, rfl, Mem.Same.refl _, .inl rfl, rfl, hshape.controls⟩,
    .of_currentPC ?_ (fun _ ↦ ?_) rfl, .inl rfl, .inl rfl, .inl rfl⟩
  · rw [currentPC_of_not_redirected hshape Opcode.noConfusion rfl]
    exact currentPC_plain _
  · rw [clearedStatus_of_not_redirected hshape Opcode.noConfusion rfl]
    rfl

end SystemEmulator
