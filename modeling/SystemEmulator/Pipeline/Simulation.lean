import SystemEmulator.Pipeline.Invariant

/-!
# The pipeline simulates the sequential machine

Every cycle of the pipeline either leaves the drained machine where it is or lets it execute the
instruction that has been fetched.  The one exception is an illegal instruction that is fetched
while decode is held: the fetch stage latches it, and what decode receives later is a halt.
-/

namespace SystemEmulator

open Outcome Result

/-! ## Stops on the path -/

/-- The instruction that the sequential machine goes on with. -/
def Core.fetched (c : Core) (pc : BitVec 64) : DInstr :=
  fetchedInstr pipeBuild pc (fetchedWord c.mem.ptable pc) (imemErr c.mem pc)

/-- The sequential machine stops at this address: it halts, or, if `L` allows for it, it finds an
illegal instruction. -/
def StopsAt (L : Prop) (c : Core) (pc : BitVec 64) : Prop :=
  pc = 0 ∨ (c.fetched pc).status = .hlt ∨ L ∧ (c.fetched pc).status = .ins

/-- The same reason to stop, except that an illegal instruction may be lost if `L` allows for it. -/
def HaltAs (L : Prop) (e e' : Halt) : Prop :=
  HaltSame e e' ∨ L ∧ ∃ c pc, e = .halted c ∧ e' = .illegal pc

/-- The first computation is the second up to lost illegal instructions. -/
abbrev AlikeUpTo {α : Type} (L : Prop) (x y : ExceptT Halt Option (Core × α)) : Prop :=
  Rel (HaltAs L) SameAt x y

theorem Alike.upTo {α : Type} {L : Prop} {x y : ExceptT Halt Option (Core × α)} (h : Alike x y) :
    AlikeUpTo L x y :=
  Rel.mono (fun _ _ he ↦ .inl he) (fun _ _ hab ↦ hab) h

theorem HaltAs.trans {L : Prop} {e₁ e₂ e₃ : Halt} (h : HaltAs L e₁ e₂) (h' : HaltAs L e₂ e₃) :
    HaltAs L e₁ e₃ := by
  rcases h with h | ⟨hL, c, pc, rfl, rfl⟩
  · rcases h' with h' | ⟨hL, c, pc, rfl, rfl⟩
    · exact .inl (h.trans h')
    · cases h with
      | halted h => exact .inr ⟨hL, _, pc, rfl, rfl⟩
  · rcases h' with h' | ⟨-, _, _, h', -⟩
    · cases h' with
      | illegal pc => exact .inr ⟨hL, c, pc, rfl, rfl⟩
    · cases h'

theorem AlikeUpTo.trans {α : Type} {L : Prop} {x y z : ExceptT Halt Option (Core × α)}
    (h : AlikeUpTo L x y) (h' : AlikeUpTo L y z) : AlikeUpTo L x z := by
  refine Rel.trans ?_ ?_ h h'
  · exact fun _ _ _ ↦ HaltAs.trans
  · exact SameAt.trans

theorem Core.Same.fetched {c c' : Core} (h : c.Same c') (pc : BitVec 64) :
    c'.fetched pc = c.fetched pc := by
  unfold Core.fetched
  rw [← h.mem.fetchedWord, h.mem.frame.imemErr]

theorem StopsAt.congr {L : Prop} {c c' : Core} (h : c.Same c') {pc : BitVec 64}
    (hstop : StopsAt L c pc) : StopsAt L c' pc := by
  unfold StopsAt
  rw [h.fetched]
  exact hstop

theorem seqStep_congr {c c' : Core} (h : c.Same c') (pc : BitVec 64) :
    Alike (seqStep pipeBuild (c, pc)) (seqStep pipeBuild (c', pc)) := by
  unfold seqStep
  by_cases hpc : pc = 0
  · simp only [hpc, ↓reduceIte]
    exact .stop (.halted h)
  · have hinstr : instrAt pipeBuild pc c' = instrAt pipeBuild pc c := by
      unfold instrAt
      rw [← h.mem.fetchedWord, h.mem.frame.imemErr, h.regs]
    simp only [hpc, ↓reduceIte, hinstr, ← h.mem.fetchedWord, h.NZCV]
    exact Rel.bind (execute_congr _ h) fun c₁ c₂ h₁ ↦ .ok ⟨h₁, rfl⟩

/-- States that are the same go on alike. -/
theorem AlikeUpTo.seqStep {L : Prop} {x y : ExceptT Halt Option (Core × BitVec 64)}
    (h : AlikeUpTo L x y) :
    AlikeUpTo L (x >>= SystemEmulator.seqStep pipeBuild)
      (y >>= SystemEmulator.seqStep pipeBuild) := by
  refine Rel.bind h fun a b hab ↦ ?_
  obtain ⟨c, pc⟩ := a
  obtain ⟨c', pc'⟩ := b
  obtain ⟨hsame, heq⟩ := hab
  simp only at heq
  rw [← heq]
  exact (seqStep_congr hsame pc).upTo

/-- A `HLT` or an illegal instruction in decode stops the machine. -/
theorem drainD_of_isStop {d : DInstr} (h : d.WF) (hstop : d.status.isStop = true) {c : Core}
    (hmem : c.mem.dmem_status ≠ .inFlight) :
    drainD d c = throw (if d.op = .hlt then .halted c else .illegal (d.multipurpose_val - 4)) := by
  rcases h.status.isStop_iff.mp hstop with hop | hop
  · rw [drainD_idle h (by rw [hop]; rfl) hmem, hop]
    rfl
  · rw [drainD_idle h (by rw [hop]; rfl) hmem, hop]
    rfl

theorem seqStep_of_stopsAt {L : Prop} {c : Core} {pc : BitVec 64} (h : StopsAt L c pc)
    (hmem : c.mem.dmem_status ≠ .inFlight) :
    AlikeUpTo L (throw (.halted c)) (seqStep pipeBuild (c, pc)) := by
  by_cases hpc : pc = 0
  · unfold seqStep
    simp only [hpc, ↓reduceIte]
    exact .stop (.inl (HaltSame.refl _))
  · have hwf : (c.fetched pc).WF := wf_fetchedInstr _ _ _ _
    have hstep : seqStep pipeBuild (c, pc) = resumeAt _ <$> drainD (c.fetched pc) c :=
      seqStep_eq true hpc hmem
    rcases h with hzero | hhlt | ⟨hL, hins⟩
    · exact absurd hzero hpc
    · have hop : (c.fetched pc).op = .hlt := by
        rcases hwf.status.isStop_iff.mp (by rw [hhlt]; rfl) with hop | hop
        · exact hop
        · rcases hwf.status with hstatus | ⟨-, hstatus⟩ <;> rw [hhlt] at hstatus
          · rw [hop] at hstatus
            cases hstatus
          · cases hstatus
      rw [hstep, drainD_of_isStop hwf (by rw [hhlt]; rfl) hmem, if_pos hop]
      exact .stop (.inl (HaltSame.refl _))
    · have hop : (c.fetched pc).op ≠ .hlt := by
        intro hop
        rcases hwf.status with hstatus | ⟨-, hstatus⟩ <;> rw [hins] at hstatus
        · rw [hop] at hstatus
          cases hstatus
        · cases hstatus
      rw [hstep, drainD_of_isStop hwf (by rw [hins]; rfl) hmem, if_neg hop]
      exact .stop (.inr ⟨hL, _, _, rfl, rfl⟩)

/-! ## What the drained machine has kept -/

/-- The data that a completed computation has left alone. -/
theorem reaches_of_drainD {d : DInstr} {c : Core} {a : Core × Option (BitVec 64)}
    (h : drainD d c = pure a) : c.Reaches a.1 := by
  unfold drainD at h
  obtain ⟨c', hexec, ha⟩ := bind_eq_pure.mp h
  rw [← pure_inj ha]
  exact reaches_of_execute hexec

theorem reaches_of_drainX {x : XInstr} {d : DInstr} {c : Core} {a : Core × Option (BitVec 64)}
    (h : drainX x d c = pure a) : c.Reaches a.1 := by
  obtain ⟨c', hexec, ⟨pc, -, rfl⟩ | ⟨-, hD⟩⟩ := drainX_eq_pure h
  · exact reaches_of_execute hexec
  · exact (reaches_of_execute hexec).trans (reaches_of_drainD hD)

/-- What is known when all instructions in flight complete. -/
theorem reaches_of_drain {s : Machine} {a : Core × Option (BitVec 64)} (h : drain s = pure a) :
    s.W_out.status.passes = true ∧ s.M_out.faults s.mem = false ∧ s.core.Reaches a.1 := by
  obtain ⟨c₁, c₂, hwb, hacc, h⟩ := drain_eq_pure h
  have hpasses := passes_of_writeback hwb
  rw [writeback_of_passes hpasses] at hwb
  have hc₁ : c₁.mem = s.core.mem := by rw [← pure_inj hwb]
  have hcompletes := completes_of_access hacc
  have hreaches := hcompletes.reaches
  refine ⟨hpasses, (congrArg s.M_out.faults hc₁).symm.trans hcompletes.faults, ?_⟩
  have hcore : s.core.Reaches c₂ := ⟨hreaches.ready, hc₁ ▸ hreaches.frame, hc₁ ▸ hreaches.safe⟩
  rcases h with ⟨-, rfl⟩ | ⟨-, hX⟩
  · exact hcore
  · exact hcore.trans (reaches_of_drainX hX)

/-- Without a redirect, execute holds no return and memory no wrongly predicted branch. -/
theorem not_redirected_of_drain {s : Machine} {c : Core} (h : drain s = pure (c, none)) :
    s.X_out.op ≠ .ret ∧ s.M_out.mispredicted = false := by
  obtain ⟨c₁, c₂, -, -, ⟨-, hcontra⟩ | ⟨hmispred, hX⟩⟩ := drain_eq_pure h
  · cases hcontra
  · obtain ⟨c₃, -, ⟨pc, -, hcontra⟩ | ⟨hredirect, -⟩⟩ := drainX_eq_pure hX
    · cases hcontra
    · refine ⟨fun hret ↦ ?_, hmispred⟩
      rw [redirect_of_ret hret] at hredirect
      cases hredirect

/-! ## The invariant -/

/-- The invariant of the pipeline.  When the fetch stage has latched a stop and nothing redirects
it, the sequential machine stops too; the data are in order unless a fault is on its way. -/
structure Machine.Inv (L : Prop) (s : Machine) : Prop extends s.Shape where
  latched : s.F_in.status.isStop = true → ∀ c, drain s = pure (c, none) →
    StopsAt L c s.F_out.pred_PC
  memOk : s.W_out.status.isError = true ∨ s.M_out.faults s.mem = true ∨ s.mem.Ok

/-- Decode is held in this cycle: it waits for a load in execute, or a data access is in flight. -/
def Machine.HoldsDecode (s : Machine) : Prop :=
  s.loadUse = true ∨ ∃ r, accessed s.M_out s.mem = .ok r ∧ r.1.dmem_status = .inFlight

/-- Decode is held while the next instruction of the program is illegal. -/
def Machine.LosesIllegal (s : Machine) : Prop :=
  s.HoldsDecode ∧ ∃ c, drain s = pure (c, none) ∧ (c.fetched s.F_out.pred_PC).status = .ins

theorem initMachine_inv (L : Prop) (GPR : ℕ → BitVec 64) {mem : Mem} (hmem : mem.Ok)
    (entry : BitVec 64) : (initMachine GPR mem entry).Inv L where
  toShape := initMachine_shape GPR mem entry
  latched := fun h ↦ Bool.noConfusion h
  memOk := .inr (.inr (hmem.congr (fun _ ↦ rfl) rfl rfl))

section

variable {L : Prop} {s s' : Machine} {r : Mem × DInstr × BitVec 64} {q : Mem × WInstr}

theorem Machine.Inv.safe (hs : s.Inv L) {a : Core × Option (BitVec 64)} (h : drain s = pure a) :
    s.mem.Safe a.1.mem := by
  obtain ⟨hpasses, hfaults, hreaches⟩ := reaches_of_drain h
  apply hreaches.safe
  rcases hs.memOk with herror | hfault | hok
  · rw [isError_of_passes hpasses] at herror
    cases herror
  · rw [hfault] at hfaults
    cases hfaults
  · exact hok

/-- A fetch that does not generate a halt. -/
theorem fetchResult_of_not_generatesHlt (hquiet : s.FetchesQuietly)
    (hhlt : generatesHlt pipeBuild s = false)
    (hfetch : fetchResult pipeBuild s s.mem s.F_PC = .ok r) :
    currentPC pipeBuild s ≠ 0 ∧
      r.2.1 = s.core.fetched (currentPC pipeBuild s) ∧
      r.2.2 = fetchedPC pipeBuild (currentPC pipeBuild s)
        (fetchedWord s.mem.ptable (currentPC pipeBuild s))
        (imemErr s.mem (currentPC pipeBuild s)) := by
  have hquiet' : QuietFetch s.mem (currentPC pipeBuild s) := by
    rcases hquiet with h | h
    · rw [hhlt] at h
      cases h
    · exact h
  obtain ⟨pt, himem, -⟩ := imem_quiet hquiet'
  unfold fetchResult at hfetch
  rw [hhlt] at hfetch
  obtain ⟨q, hq, rfl⟩ := map_eq_ok.mp hfetch
  rw [himem] at hq
  cases hq
  exact ⟨hquiet'.1, rfl, rfl⟩

/-- The status of the instruction at an address is the same as long as the text is. -/
theorem Mem.Safe.fetched_status {c c' : Core} (h : c.mem.Safe c'.mem) (pc : BitVec 64) :
    (c'.fetched pc).status = (c.fetched pc).status := by
  unfold Core.fetched
  rw [h.frame.imemErr]
  cases herr : imemErr c.mem pc with
  | true => rfl
  | false => rw [h.fetchedWord herr]

/-- Completing the fetched instruction is a step of the sequential machine. -/
theorem drainD_fetched {c c' : Core} (h : c.mem.Safe c'.mem) {pc : BitVec 64} (hpc : pc ≠ 0)
    (hmem : c'.mem.dmem_status ≠ .inFlight) {pred : BitVec 64}
    (hpred : (c.fetched pc).status.isStop = false →
      pred = fetchedPC pipeBuild pc (fetchedWord c.mem.ptable pc) (imemErr c.mem pc)) :
    resumeAt pred <$> drainD (c.fetched pc) c' = seqStep pipeBuild (c', pc) := by
  rw [seqStep_eq true hpc hmem, h.frame.imemErr]
  cases herr : imemErr c.mem pc with
  | true =>
    have hwf : ∀ word, (fetchedInstr pipeBuild pc word true).WF := fun word ↦
      wf_fetchedInstr _ _ _ _
    have hfetched : c.fetched pc =
          fetchedInstr pipeBuild pc (fetchedWord c.mem.ptable pc) true := by
      unfold Core.fetched
      rw [herr]
    rw [hfetched, drainD_of_isStop (hwf _) rfl hmem, drainD_of_isStop (hwf _) rfl hmem]
    rfl
  | false =>
    have hfetched : c.fetched pc =
          fetchedInstr pipeBuild pc (fetchedWord c'.mem.ptable pc) false := by
      unfold Core.fetched
      rw [herr, h.fetchedWord herr]
    have hwf : (c.fetched pc).WF := wf_fetchedInstr _ _ _ _
    rw [herr, ← h.fetchedWord herr] at hpred
    rw [← hfetched]
    cases hstop : (c.fetched pc).status.isStop with
    | true =>
      rw [drainD_of_isStop hwf hstop hmem]
      rfl
    | false => rw [hpred hstop]

/-- What decode receives in a cycle, completed after the instructions before it. -/
theorem fetch_simulates (hquiet : s.FetchesQuietly)
    (hfetch : fetchResult pipeBuild s s.mem s.F_PC = .ok r) {c : Core}
    (hsafe : s.mem.Safe c.mem) (hmem : c.mem.dmem_status ≠ .inFlight)
    (hstop : (clearedStatus pipeBuild s).isStop = true → StopsAt L c (currentPC pipeBuild s))
    {pred : BitVec 64} (hpred : r.2.1.status.isStop = false → pred = r.2.2) :
    AlikeUpTo L (resumeAt pred <$> drainD r.2.1 c)
      (seqStep pipeBuild (c, currentPC pipeBuild s)) := by
  cases hhlt : generatesHlt pipeBuild s with
  | true =>
    have hr := fetchResult_of_generatesHlt hhlt hfetch
    have hstopsAt : StopsAt L c (currentPC pipeBuild s) :=
      (generatesHlt_iff.mp hhlt).elim .inl hstop
    have hdrain : resumeAt pred <$> drainD r.2.1 c = throw (.halted c) := by
      rw [hr, drainD_of_isStop (wf_generatedHlt _) rfl hmem]
      rfl
    rw [hdrain]
    exact seqStep_of_stopsAt hstopsAt hmem
  | false =>
    obtain ⟨hpc, hD_in, hF_PC⟩ := fetchResult_of_not_generatesHlt hquiet hhlt hfetch
    rw [hD_in] at hpred ⊢
    rw [hF_PC] at hpred
    rw [drainD_fetched (c := s.core) hsafe hpc hmem hpred]
    exact (Alike.refl _).upTo

/-- A redirected fetch finds the latch cleared, or it halts. -/
theorem stopsAt_of_redirected (hs : s.Shape)
    (hredirected : s.X_out.op = .ret ∨ s.M_out.mispredicted = true) (c : Core) :
    (clearedStatus pipeBuild s).isStop = true → StopsAt L c (currentPC pipeBuild s) := by
  intro hstop
  by_cases hpc : currentPC pipeBuild s = 0
  · exact .inl hpc
  · rw [clearedStatus_of_redirected hs hpc hredirected] at hstop
    cases hstop

/-! ## The kinds of cycles -/

/-- The state of the sequential machine does not depend on the predicted PC after a redirect. -/
theorem resume_alike (h : Alike (drain s) (drain s'))
    (hpred : s'.F_out.pred_PC = s.F_out.pred_PC ∨ ∀ c, drain s' ≠ pure (c, none)) :
    Alike (resume s') (resume s) := by
  unfold resume
  rcases Outcome.cases_on (drain s') with ⟨⟨c', redirect⟩, ha⟩ | ⟨e, he⟩ | hhang
  · rw [ha] at h hpred ⊢
    obtain ⟨⟨c, redirect'⟩, hb, hsame, heq⟩ := h.of_pure
    simp only at heq
    subst heq
    rw [hb]
    cases redirect' with
    | some pc => exact .ok ⟨hsame.symm, rfl⟩
    | none =>
      rcases hpred with hpred | hpred
      · rw [hpred]
        exact .ok ⟨hsame.symm, rfl⟩
      · exact absurd rfl (hpred c')
  · rw [he] at h ⊢
    obtain ⟨e', hb, hsame⟩ := h.of_throw
    rw [hb]
    exact .stop hsame.symm
  · rw [hhang] at h ⊢
    rw [h.of_hang]
    exact .hung

variable (h : CycleEffect s r q s') (hW : s.W_out.status.passes = true)
include h hW

/-- The instruction in decode, completed with the forwarded operands. -/
theorem forwarded_of_access (hs : s.Shape) (huse : s.loadUse = false)
    (hq : q.2.status.passes = true) {c : Core}
    (hc : access s.executing (s.advanced s' q) = pure c) :
    s.forwarded q.2 = decoded s.D_out c.regs :=
  forwarded_eq_decoded hs.wf hs.ec_D huse hW hq h rfl (completes_of_access hc)

variable (hquiet : s.FetchesQuietly)
include hquiet

/-- A load-use hazard delays decode by a bubble. -/
theorem drain_loadUse (hs : s.Shape) (hready : q.1.dmem_status ≠ .inFlight)
    (hq : q.2.status.passes = true) (huse : s.loadUse = true) (hD : s'.D_out = s.D_out)
    (hX : s'.X_out = {}) : Alike (drain s) (drain s') := by
  have hldur := ldur_of_loadUse huse
  have hmispred : s.M_out.mispredicted = false := by
    apply hs.not_mispredicted
    rw [hldur]
    exact Opcode.noConfusion
  have hexec : s.executing.mispredicted = false :=
    not_mispredicted_of_ne (m := s.executing) (by change s.X_out.op ≠ _; rw [hldur]; decide)
  have hredirect : s.X_out.redirect s.NZCV = none :=
    redirect_eq_none (by rw [hldur]; decide) (by rw [hldur]; decide) _
  have hbefore := drain_before h hW hquiet hready hq
  have heq : s.drainAfter (s.advanced s' q) = drain s' := by
    rw [drain_after h hready hq, hD, hX]
    unfold Machine.drainAfter drainM
    rw [hmispred, hexec, hredirect]
    refine bind_congr_of_pure fun c hc ↦ ?_
    exact (drainX_nop XInstr.wf_bubble rfl s.D_out (completes_of_access hc).ready).symm
  exact heq ▸ hbefore

/-- A wrongly predicted branch in execute drops what is in decode. -/
theorem drain_squash (hs : s.Shape) (hready : q.1.dmem_status ≠ .inFlight)
    (hq : q.2.status.passes = true) (hmispred : s.executing.mispredicted = true) :
    Alike (drain s) (drain s') ∧ ∀ c, drain s' ≠ pure (c, none) := by
  have hbranch : s.X_out.op = .bCond := by
    have hand : (s.X_out.op == .bCond && _) = true := hmispred
    simpa using (Bool.and_eq_true_iff.mp hand).1
  have hM : s.M_out.mispredicted = false := by
    apply hs.not_mispredicted
    rw [hbranch]
    exact Opcode.noConfusion
  have hredirect : s.X_out.redirect s.NZCV = some s.executing.multipurpose_val :=
    redirect_of_mispredicted (by rw [hbranch]; decide) hmispred
  have hafter : drain s' = access s.executing (s.advanced s' q) >>= fun c ↦
      pure (c, some s.executing.multipurpose_val) := by
    rw [drain_after h hready hq]
    unfold drainM
    simp only [hmispred, ↓reduceIte]
  constructor
  · have hbefore := drain_before h hW hquiet hready hq
    have heq : s.drainAfter (s.advanced s' q) = drain s' := by
      rw [hafter]
      unfold Machine.drainAfter
      rw [hM, hredirect]
      rfl
    exact heq ▸ hbefore
  · intro c hc
    rw [hafter] at hc
    obtain ⟨c', -, hc'⟩ := bind_eq_pure.mp hc
    cases pure_inj hc'

/-- An instruction in decode that redirects the fetch goes on to execute; what is behind it is
dropped. -/
theorem drain_redirected (hs : s.Shape) (hready : q.1.dmem_status ≠ .inFlight)
    (hq : q.2.status.passes = true) (huse : s.loadUse = false)
    (hmispred : s.executing.mispredicted = false) (hret : s.X_out.op ≠ .ret)
    (hM : s.M_out.mispredicted = false) (hX : s'.X_out = s.forwarded q.2) {pc : BitVec 64}
    (hredirects : (s.forwarded q.2).redirect s.flags = some pc) :
    Alike (drain s) (drain s') ∧ ∀ c, drain s' ≠ pure (c, none) := by
  have hredirect : s.X_out.redirect s.NZCV = none := redirect_of_not_mispredicted hret hmispred
  have hafter : drain s' = access s.executing (s.advanced s' q) >>= fun c ↦
      execute (s.forwarded q.2) c >>= fun c' ↦ pure (c', some pc) := by
    rw [drain_after h hready hq, hX]
    unfold drainM
    refine bind_congr_of_pure fun c hc ↦ ?_
    have hflags : c.NZCV = s.flags := (completes_of_access hc).NZCV
    unfold drainX
    simp only [hmispred, Bool.false_eq_true, ↓reduceIte, hflags, hredirects]
  constructor
  · have hbefore := drain_before h hW hquiet hready hq
    have heq : s.drainAfter (s.advanced s' q) = drain s' := by
      rw [hafter]
      unfold Machine.drainAfter
      rw [hM, hredirect]
      refine bind_congr_of_pure fun c hc ↦ ?_
      have hflags : c.NZCV = s.flags := (completes_of_access hc).NZCV
      have hx := forwarded_of_access h hW hs huse hq hc
      unfold drainD
      rw [← hx, hflags]
      simp only [hredirects]
    exact heq ▸ hbefore
  · intro c hc
    rw [hafter] at hc
    obtain ⟨c₁, -, hc⟩ := bind_eq_pure.mp hc
    obtain ⟨c₂, -, hc⟩ := bind_eq_pure.mp hc
    cases pure_inj hc

/-- A return in decode goes on to execute, behind which nothing is left. -/
theorem drain_ret (hs : s.Shape) (hready : q.1.dmem_status ≠ .inFlight)
    (hq : q.2.status.passes = true) (huse : s.loadUse = false)
    (hmispred : s.executing.mispredicted = false) (hret : s.D_out.op = .ret)
    (hX : s'.X_out = s.forwarded q.2) :
    Alike (drain s) (drain s') ∧ ∀ c, drain s' ≠ pure (c, none) := by
  have hne : s.D_out.op ≠ .nop := by
    rw [hret]
    decide
  obtain ⟨hXret, hM⟩ := hs.not_redirected hne
  exact drain_redirected h hW hquiet hs hready hq huse hmispred hXret hM hX
    (redirect_of_ret hret _)

/-- The instruction in memory has kept the text. -/
theorem safe_of_passes (hs : s.Inv L) (hready : q.1.dmem_status ≠ .inFlight)
    (hq : q.2.status.passes = true) : s.mem.Safe q.1 := by
  have hsame := fetchResult_quiet hquiet h.fetch
  have hacc := access_of_ready h hready s'.regs s.NZCV
  rw [writeback_of_passes hq] at hacc
  have hcompletes := completes_of_access hacc
  have hok : s.mem.Ok := by
    rcases hs.memOk with herror | hfaults | hok
    · rw [isError_of_passes hW] at herror
      cases herror
    · have hnot : s.M_out.faults r.1 = false := hcompletes.faults
      rw [hsame.frame.faults, hfaults] at hnot
      cases hnot
    · exact hok
  have hfetch : s.mem.Safe r.1 := ⟨hsame.frame, hsame.ok hok, hsame.textKept⟩
  exact hfetch.trans (hcompletes.safe hfetch.ok)

variable (hs : s.Inv L) (hready : q.1.dmem_status ≠ .inFlight) (hq : q.2.status.passes = true)
  (hmispred : s.executing.mispredicted = false)
  (hnext : r.2.1.status.isStop = false → s'.F_out.pred_PC = r.2.2)
  (hD : s'.D_out = r.2.1) (hX : s'.X_out = s.forwarded q.2)
include hs hready hq hmispred hnext hD hX

/-- After a wrongly predicted branch the machine goes on with the other side of it. -/
theorem load_after_mispredicted (hM : s.M_out.mispredicted = true) :
    AlikeUpTo L (resume s') (resume s >>= seqStep pipeBuild) := by
  obtain ⟨hXnop, hDnop⟩ := hs.after_mispredicted hM
  have hflags : s.flags = s.NZCV := by
    unfold Machine.flags
    rw [hs.wf.X_out.X_sigs, hXnop]
    rfl
  have hbefore : Alike (drain s) (pure (s.advanced s' q, some s.M_out.multipurpose_val)) := by
    have halike := drain_before h hW hquiet hready hq
    unfold Machine.drainAfter at halike
    rw [hM, ← hflags] at halike
    exact halike
  have hmem : (s.advanced s' q).mem.dmem_status ≠ .inFlight := hready
  have hafter : drain s' = drainD r.2.1 (s.advanced s' q) := by
    have hexec : access s.executing (s.advanced s' q) = pure (s.advanced s' q) := by
      have hop : s.executing.op = .nop := hXnop
      rw [access_idle hs.wf.executing (by rw [hop]; rfl) hmem, hop]
      rfl
    rw [drain_after h hready hq, hD, hX]
    unfold drainM
    rw [hexec, pure_bind, hmispred]
    exact drainX_nop (hs.wf.forwarded q.2) hDnop _ hmem
  have hstep : Alike (resume s >>= seqStep pipeBuild)
      (seqStep pipeBuild (s.advanced s' q, currentPC pipeBuild s)) := by
    obtain ⟨⟨c, redirect⟩, hdrain, hsame, heq⟩ := hbefore.of_pure
    simp only at heq
    unfold resume
    rw [hdrain, heq, map_pure, pure_bind, currentPC_of_mispredicted hs.toShape hM]
    exact seqStep_congr hsame _
  have hfetch := fetch_simulates (L := L) hquiet h.fetch
    (safe_of_passes h hW hquiet hs hready hq) hmem
    (stopsAt_of_redirected hs.toShape (.inr hM) (s.advanced s' q)) hnext
  unfold resume at hfetch ⊢
  rw [hafter]
  exact hfetch.trans hstep.symm.upTo

/-- After a return the machine goes on at the address that it has read. -/
theorem load_after_ret (hret : s.X_out.op = .ret) :
    AlikeUpTo L (resume s') (resume s >>= seqStep pipeBuild) := by
  have hDnop := hs.after_ret hret
  have hM : s.M_out.mispredicted = false := by
    apply hs.not_mispredicted
    rw [hret]
    exact Opcode.noConfusion
  have hredirect : s.X_out.redirect s.NZCV = some (currentPC pipeBuild s) := by
    rw [redirect_of_ret hret, currentPC_of_ret hs.toShape hret]
  have hbefore : Alike (resume s >>= seqStep pipeBuild)
      (access s.executing (s.advanced s' q) >>= fun c ↦
        seqStep pipeBuild (c, currentPC pipeBuild s)) := by
    have halike := (drain_before h hW hquiet hready hq).resumeAt s.F_out.pred_PC
    have hbind := Rel.bind halike fun a b hab ↦ by
      obtain ⟨c, pc⟩ := a
      obtain ⟨c', pc'⟩ := b
      obtain ⟨hsame, heq⟩ := hab
      simp only at heq
      rw [← heq]
      exact seqStep_congr hsame pc
    unfold Machine.drainAfter at hbind
    rw [hM, hredirect] at hbind
    simpa only [resume, Bool.false_eq_true, ↓reduceIte, map_bind, map_pure, bind_assoc, pure_bind,
      resumeAt, Option.getD_some] using hbind
  have hafter : resume s' = access s.executing (s.advanced s' q) >>= fun c ↦
      resumeAt s'.F_out.pred_PC <$> drainD r.2.1 c := by
    unfold resume
    rw [drain_after h hready hq, hD, hX]
    unfold drainM
    rw [map_bind]
    refine bind_congr_of_pure fun c hc ↦ ?_
    rw [hmispred]
    exact congrArg _ (drainX_nop (hs.wf.forwarded q.2) hDnop _ (completes_of_access hc).ready)
  rw [hafter]
  refine AlikeUpTo.trans ?_ hbefore.symm.upTo
  refine Rel.bind_self (fun e ↦ .inl (HaltSame.refl e)) fun c hc ↦ ?_
  have hcompletes := completes_of_access hc
  have hsafe := safe_of_passes h hW hquiet hs hready hq
  exact fetch_simulates hquiet h.fetch (hsafe.trans (hcompletes.safe hsafe.ok)) hcompletes.ready
    (stopsAt_of_redirected hs.toShape (.inl hret) c) hnext

omit hnext hX hD in
/-- Without a redirect the instruction in decode completes like every other. -/
theorem drain_next (hret : s.X_out.op ≠ .ret) (hM : s.M_out.mispredicted = false)
    (huse : s.loadUse = false) (hredirects : (s.forwarded q.2).redirect s.flags = none) :
    Alike (drain s) (access s.executing (s.advanced s' q) >>= fun c ↦
      execute (s.forwarded q.2) c >>= fun c' ↦ pure (c', none)) := by
  have hredirect : s.X_out.redirect s.NZCV = none := redirect_of_not_mispredicted hret hmispred
  have hbefore := drain_before h hW hquiet hready hq
  have heq : s.drainAfter (s.advanced s' q) = access s.executing (s.advanced s' q) >>= fun c ↦
      execute (s.forwarded q.2) c >>= fun c' ↦ pure (c', none) := by
    unfold Machine.drainAfter
    rw [hM, hredirect]
    refine bind_congr_of_pure fun c hc ↦ ?_
    have hflags : c.NZCV = s.flags := (completes_of_access hc).NZCV
    have hx := forwarded_of_access h hW hs.toShape huse hq hc
    unfold drainD
    rw [← hx, hflags]
    simp only [hredirects]
  exact heq ▸ hbefore

/-- Without a redirect the machine goes on at the predicted PC. -/
theorem load_next (hret : s.X_out.op ≠ .ret) (hM : s.M_out.mispredicted = false)
    (huse : s.loadUse = false) (hredirects : (s.forwarded q.2).redirect s.flags = none) :
    AlikeUpTo L (resume s') (resume s >>= seqStep pipeBuild) := by
  have hpc := currentPC_of_not_redirected hs.toShape hret hM
  have hdrain := drain_next h hW hquiet hs hready hq hmispred hret hM huse hredirects
  have hbefore : Alike (resume s >>= seqStep pipeBuild)
      (access s.executing (s.advanced s' q) >>= fun c ↦
        execute (s.forwarded q.2) c >>= fun c' ↦
          seqStep pipeBuild (c', currentPC pipeBuild s)) := by
    have hbind := Rel.bind (hdrain.resumeAt s.F_out.pred_PC) fun a b hab ↦ by
      obtain ⟨c, pc⟩ := a
      obtain ⟨c', pc'⟩ := b
      obtain ⟨hsame, heq⟩ := hab
      simp only at heq
      rw [← heq]
      exact seqStep_congr hsame pc
    simpa only [resume, map_bind, map_pure, bind_assoc, pure_bind, resumeAt, Option.getD_none,
      ← hpc] using hbind
  have hafter : resume s' = access s.executing (s.advanced s' q) >>= fun c ↦
      execute (s.forwarded q.2) c >>= fun c' ↦
        resumeAt s'.F_out.pred_PC <$> drainD r.2.1 c' := by
    unfold resume
    rw [drain_after h hready hq, hD, hX]
    unfold drainM
    rw [map_bind]
    refine bind_congr_of_pure fun c hc ↦ ?_
    have hflags : c.NZCV = s.flags := (completes_of_access hc).NZCV
    unfold drainX
    simp only [hmispred, Bool.false_eq_true, ↓reduceIte, hflags, hredirects, map_bind]
  -- a latched stop lies on the path of the sequential machine
  have hlatched : ∀ c c', access s.executing (s.advanced s' q) = pure c →
      execute (s.forwarded q.2) c = pure c' → (clearedStatus pipeBuild s).isStop = true →
        StopsAt L c' (currentPC pipeBuild s) := by
    intro c c' hc hc' hstop
    rw [clearedStatus_of_not_redirected hs.toShape hret hM] at hstop
    rw [hc, pure_bind, hc', pure_bind] at hdrain
    obtain ⟨⟨c₀, redirect⟩, hdrain₀, hsame, heq⟩ := hdrain.of_pure
    simp only at heq
    subst heq
    rw [hpc]
    exact (hs.latched hstop c₀ hdrain₀).congr hsame
  rw [hafter]
  refine AlikeUpTo.trans ?_ hbefore.symm.upTo
  refine Rel.bind_self (fun e ↦ .inl (HaltSame.refl e)) fun c hc ↦ ?_
  refine Rel.bind_self (fun e ↦ .inl (HaltSame.refl e)) fun c' hc' ↦ ?_
  have hsafe := safe_of_passes h hW hquiet hs hready hq
  have hreaches := (completes_of_access hc).reaches.trans (reaches_of_execute hc')
  exact fetch_simulates hquiet h.fetch (hsafe.trans (hreaches.safe hsafe.ok)) hreaches.ready
    (hlatched c c' hc hc') hnext

/-- In a cycle in which every instruction moves on, the machine executes the one that has been
fetched, unless a branch in decode drops it later. -/
theorem load_simulates (huse : s.loadUse = false) :
    AlikeUpTo L (resume s') (resume s >>= seqStep pipeBuild) ∨
      (∃ pc, (s.forwarded q.2).redirect s.flags = some pc) ∧ Alike (drain s) (drain s') ∧
        ∀ c, drain s' ≠ pure (c, none) := by
  cases hM : s.M_out.mispredicted with
  | true =>
    exact .inl (load_after_mispredicted h hW hquiet hs hready hq hmispred hnext hD hX hM)
  | false =>
    by_cases hret : s.X_out.op = .ret
    · exact .inl (load_after_ret h hW hquiet hs hready hq hmispred hnext hD hX hret)
    · cases hredirects : (s.forwarded q.2).redirect s.flags with
      | some pc =>
        exact .inr ⟨⟨pc, rfl⟩,
          drain_redirected h hW hquiet hs.toShape hready hq huse hmispred hret hM hX hredirects⟩
      | none =>
        exact .inl (load_next h hW hquiet hs hready hq hmispred hnext hD hX hret hM huse
          hredirects)

end

end SystemEmulator
