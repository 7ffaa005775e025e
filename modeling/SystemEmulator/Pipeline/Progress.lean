import SystemEmulator.Pipeline.Refinement

/-!
# The pipeline comes to an end

When the sequential machine halts or finds an illegal instruction, the pipeline ends too.  A data
access is in flight for finitely many cycles; a cycle that moves on without a step of the sequential
machine brings a stop closer to writeback, or it resolves one of finitely many hazards.
-/

namespace SystemEmulator

open Outcome Result Relation

/-- The machine halts, or it finds an illegal instruction. -/
def Halt.IsStop : Halt → Prop
  | .halted _ | .illegal _ => True
  | _ => False

theorem HaltAs.isStop {L : Prop} {e e' : Halt} (h : HaltAs L e' e) (he : e.IsStop) : e'.IsStop := by
  rcases h with h | ⟨-, c, pc, rfl, -⟩
  · cases h with
    | halted h => trivial
    | addressFault pc h => exact he.elim
    | illegal pc => trivial
    | crashed crash => exact he.elim
  · trivial

/-! ## Where a stop comes from -/

theorem stop_of_access {m : MInstr} {c : Core} {e : Halt} (he : e.IsStop)
    (h : access m c = throw e) : m.status.isStop = true := by
  unfold access at h
  cases hsettle : settle (accessed m) c.mem with
  | none =>
    rw [hsettle] at h
    exact absurd h.symm throw_ne_hang
  | some x => cases x with
    | error crash =>
      rw [hsettle] at h
      rw [← throw_inj h] at he
      exact he.elim
    | ok r =>
      obtain ⟨mem, w⟩ := r
      obtain ⟨-, -, -, -, val_mem, err, hw⟩ := completes_of_settle hsettle
      rw [hsettle] at h
      simp only [writeback] at h
      cases hstatus : w.status with
      | bub =>
        rw [hstatus] at h
        exact absurd h pure_ne_throw
      | aok =>
        rw [hstatus] at h
        exact absurd h pure_ne_throw
      | adr =>
        rw [hstatus] at h
        rw [← throw_inj h] at he
        exact he.elim
      | hlt =>
        cases err with
        | true =>
          rw [hw] at hstatus
          cases hstatus
        | false =>
          rw [hw] at hstatus
          have hm : m.status = .hlt := hstatus
          rw [hm]
          rfl
      | ins =>
        cases err with
        | true =>
          rw [hw] at hstatus
          cases hstatus
        | false =>
          rw [hw] at hstatus
          have hm : m.status = .ins := hstatus
          rw [hm]
          rfl

theorem stop_of_execute {x : XInstr} {c : Core} {e : Halt} (he : e.IsStop)
    (h : execute x c = throw e) : x.status.isStop = true := by
  rw [execute_eq] at h
  exact stop_of_access he h

/-- A computation that stops has stopped in its first or in its second part. -/
theorem bind_eq_throw {α β : Type} {x : ExceptT Halt Option α} {f : α → ExceptT Halt Option β}
    {e : Halt} (h : x >>= f = throw e) : x = throw e ∨ ∃ a, x = pure a ∧ f a = throw e := by
  rcases Outcome.cases_on x with ⟨a, rfl⟩ | ⟨e', rfl⟩ | rfl
  · exact .inr ⟨a, rfl, by rwa [pure_bind] at h⟩
  · rw [throw_bind] at h
    rw [throw_inj h]
    exact .inl rfl
  · rw [hang_bind] at h
    exact absurd h.symm throw_ne_hang

theorem stop_of_drainD {d : DInstr} {c : Core} {e : Halt} (he : e.IsStop)
    (h : drainD d c = throw e) : d.status.isStop = true := by
  unfold drainD at h
  rcases bind_eq_throw h with hexec | ⟨c', -, h⟩
  · exact stop_of_execute he hexec
  · exact absurd h pure_ne_throw

/-- What stops the drained machine is in the pipeline. -/
theorem stop_of_drain {s : Machine} {e : Halt} (he : e.IsStop) (h : drain s = throw e)
    (hW : s.W_out.status.passes = true) : s.M_out.status.isStop = true ∨
      s.X_out.status.isStop = true ∨ s.D_out.status.isStop = true := by
  unfold drain drainFrom at h
  rw [writeback_of_passes hW, pure_bind] at h
  unfold drainM at h
  rcases bind_eq_throw h with hacc | ⟨c, -, h⟩
  · exact .inl (stop_of_access he hacc)
  · cases hmispred : s.M_out.mispredicted with
    | true =>
      rw [hmispred] at h
      exact absurd h pure_ne_throw
    | false =>
      rw [hmispred] at h
      unfold drainX at h
      rcases bind_eq_throw h with hexec | ⟨c', -, h⟩
      · exact .inr (.inl (stop_of_execute he hexec))
      · cases hredirect : s.X_out.redirect c.NZCV with
        | some pc =>
          rw [hredirect] at h
          exact absurd h pure_ne_throw
        | none =>
          rw [hredirect] at h
          exact .inr (.inr (stop_of_drainD he h))

/-! ## What is expected of the sequential machine -/

/-- From the state that the pipeline stands for, the sequential machine stops within `n` steps. -/
def Expects (L : Prop) (e : Halt) (n : ℕ) (s : Machine) : Prop :=
  AlikeUpTo L (resume s >>= seqRun pipeBuild n) (throw e)

section

variable {L : Prop} {e : Halt} {n : ℕ} {s s' : Machine}

theorem seqRun_congr (n : ℕ) {a b : Core × BitVec 64} (h : SameAt a b) :
    Alike (seqRun pipeBuild n a) (seqRun pipeBuild n b) := by
  induction n generalizing a b with
  | zero => exact .ok h
  | succ n ih =>
    obtain ⟨c, pc⟩ := a
    obtain ⟨c', pc'⟩ := b
    obtain ⟨hsame, heq⟩ := h
    simp only at heq
    subst heq
    exact Rel.bind (seqStep_congr hsame pc) fun _ _ hab ↦ ih hab

theorem Expects.stutter (h : Expects L e n s) (halike : Alike (resume s') (resume s)) :
    Expects L e n s' :=
  AlikeUpTo.trans (Alike.upTo (Rel.bind halike fun _ _ hab ↦ seqRun_congr n hab)) h

theorem Expects.advance (h : Expects L e (n + 1) s)
    (halike : AlikeUpTo L (resume s') (resume s >>= seqStep pipeBuild)) : Expects L e n s' := by
  have hbind := Rel.bind halike fun _ _ hab ↦ (seqRun_congr n hab).upTo (L := L)
  rw [bind_assoc] at hbind
  exact AlikeUpTo.trans hbind h

/-- Nothing is left to do: the stop is in the pipeline. -/
theorem Expects.throws (h : Expects L e 0 s) : ∃ e', drain s = throw e' ∧ HaltAs L e' e := by
  have hresume : AlikeUpTo L (resume s) (throw e) := by
    have hzero : resume s >>= seqRun pipeBuild 0 = resume s := bind_pure _
    rw [← hzero]
    exact h
  obtain ⟨e', he', hsame⟩ := hresume.of_throw
  refine ⟨e', ?_, hsame⟩
  unfold resume at he'
  rcases Outcome.cases_on (drain s) with ⟨a, ha⟩ | ⟨e'', ha⟩ | ha
  · rw [ha] at he'
    exact absurd he' pure_ne_throw
  · rw [ha] at he'
    rw [ha, throw_inj he']
  · rw [ha] at he'
    exact absurd he'.symm throw_ne_hang

/-- When the drained machine stops, it stops as expected. -/
theorem Expects.of_throw (h : Expects L e n s) {e' : Halt} (hdrain : drain s = throw e') :
    HaltAs L e' e := by
  unfold Expects resume at h
  rw [hdrain] at h
  obtain ⟨e'', he'', hsame⟩ := h.of_throw
  rwa [throw_inj he'']

/-- The drained machine does not end for another reason. -/
theorem Expects.not_hang (h : Expects L e n s) : drain s ≠ hang := by
  intro hdrain
  unfold Expects resume at h
  rw [hdrain] at h
  obtain ⟨e', he', -⟩ := h.of_throw
  exact absurd he'.symm throw_ne_hang

theorem Expects.of_throw' (h : Expects L e 0 s)
    (halike : AlikeUpTo L (resume s') (resume s >>= seqStep pipeBuild)) : Expects L e 0 s' := by
  obtain ⟨e', hdrain, hsame⟩ := h.throws
  unfold Expects
  change AlikeUpTo L (resume s' >>= pure) _
  rw [bind_pure]
  refine AlikeUpTo.trans halike ?_
  unfold resume
  rw [hdrain]
  exact .stop hsame

end

/-! ## A cycle takes place -/

section

variable {L : Prop} {e : Halt} {n : ℕ} {s s' : Machine} {r : Mem × DInstr × BitVec 64}
  {q : Mem × WInstr}

def Machine.afterW (s : Machine) : Core where
  regs := regfileWrite s.regs s.W_out.dst s.W_out.wval
    (s.W_out.W_sigs.w_enable && s.W_out.status == .aok)
  NZCV := s.NZCV
  mem := s.mem

theorem drain_eq_drainM (hW : s.W_out.status.passes = true) :
    drain s = drainM s.M_out s.X_out s.D_out s.afterW := by
  unfold drain drainFrom
  rw [writeback_of_passes hW, pure_bind]
  rfl

theorem fetchResult_ok (hquiet : s.FetchesQuietly) :
    ∃ r, fetchResult pipeBuild s s.mem s.F_PC = .ok r := by
  unfold fetchResult
  cases hhlt : generatesHlt pipeBuild s with
  | true => exact ⟨_, rfl⟩
  | false =>
    rcases hquiet with h | h
    · rw [hhlt] at h
      cases h
    · obtain ⟨pt, himem, -⟩ := imem_quiet h
      rw [himem]
      exact ⟨_, rfl⟩

/-- A stop that is expected does not come from a crash of the emulator. -/
theorem accessed_ok_of_expects (h : Expects L e n s) (he : e.IsStop)
    (hW : s.W_out.status.passes = true) {mem : Mem} (hmem : s.mem.Same mem) :
    ∃ q, accessed s.M_out mem = .ok q := by
  cases hacc : accessed s.M_out mem with
  | ok q => exact ⟨q, rfl⟩
  | error crash =>
    have hrel := accessed_congr s.M_out hmem
    rw [hacc] at hrel
    have herror : accessed s.M_out s.mem = .error crash := by
      generalize accessed s.M_out s.mem = x at hrel
      cases hrel
      rfl
    have hdrain : drain s = throw (.crashed crash) := by
      rw [drain_eq_drainM hW]
      unfold drainM access
      have hafter : s.afterW.mem = s.mem := rfl
      rw [hafter, settle_of_error herror]
      rfl
    exact ((h.of_throw hdrain).isStop he).elim

/-- A load from address zero ends the emulator. -/
theorem execute_null {x : XInstr} (hx : x.WF) (hldur : x.op = .ldur) {c : Core}
    (hnull : (executed x c.NZCV).1.val_ex = NULL_ADDR) :
    execute x c = throw (.crashed .exitFailure) := by
  have hsigs : (executed x c.NZCV).1.M_sigs = { dmem_read := true } := by
    change x.M_sigs = _
    rw [hx.M_sigs, hldur]
    rfl
  have hacc : ∀ mem, accessed (executed x c.NZCV).1 mem = .error .exitFailure := by
    intro mem
    unfold accessed
    rw [hnull, hsigs]
    rfl
  rw [execute_eq]
  unfold access
  rw [settle_of_error (hacc _)]

/-- The contradictory requests come from a return through a load from address zero. -/
theorem returnsThroughNull_of_contradictory (hs : s.Shape)
    (h : (s.requests r.2.1 q).Contradictory) : s.ReturnsThroughNull := by
  unfold Machine.requests at h
  by_cases hflight : q.1.dmem_status = .inFlight
  · rw [if_pos hflight] at h
    simp [HazardRequest.Contradictory, inFlightRequest] at h
  · rw [if_neg hflight, contradictory_hazardRequest] at h
    obtain ⟨huse, hret, hval⟩ := h
    obtain ⟨hxzr, hsrc2⟩ := hs.wf.D_out.src_ret hret
    obtain ⟨-, hldur, hdst_xzr, hdst⟩ := (checkLoadUseHazard_iff _ _ _ _ _).mp huse
    replace hdst : s.X_out.dst = s.D_out.src1 :=
      hdst.resolve_right fun h ↦ hdst_xzr (h.trans hsrc2)
    have henable : s.X_out.W_sigs.w_enable = true := by
      rw [hs.wf.X_out.W_sigs, hldur]
      rfl
    have hforward : (s.forwarded q.2).val_a = s.executing.val_ex := if_pos ⟨henable, hdst, hxzr⟩
    exact ⟨hret, hldur, hdst, hforward.symm.trans hval⟩

theorem null_of_contradictory (hs : s.Shape) (h : (s.requests r.2.1 q).Contradictory) :
    s.X_out.op = .ldur ∧ s.executing.val_ex = NULL_ADDR :=
  have ⟨_, hldur, _, hnull⟩ := returnsThroughNull_of_contradictory hs h
  ⟨hldur, hnull⟩

/-- A cycle of a pipeline in which a stop is expected. -/
theorem exists_effect (hs : s.Inv L) (hquiet : s.FetchesQuietly)
    (hW : s.W_out.status.passes = true) (h : Expects L e n s) (he : e.IsStop) :
    ∃ s' r q, cycle pipeBuild defaultOrder s = .ok s' ∧ CycleEffect s r q s' ∧
      ¬(s.requests r.2.1 q).Contradictory := by
  obtain ⟨r, hfetch⟩ := fetchResult_ok hquiet
  obtain ⟨q, hacc⟩ := accessed_ok_of_expects h he hW (fetchResult_quiet hquiet hfetch)
  obtain ⟨s', hcycle⟩ := cycle_of_ok hfetch hacc
  obtain ⟨r', q', -, -, ⟨hcontra, -⟩ | ⟨hrequests, heffect⟩⟩ :=
    cycle_effect hs.ec_D hs.controls hcycle
  · exfalso
    obtain ⟨hldur, hnull⟩ := null_of_contradictory hs.toShape hcontra
    have hmispred : s.M_out.mispredicted = false := by
      apply hs.not_mispredicted
      rw [hldur]
      exact Opcode.noConfusion
    have hdrain := drain_eq_drainM hW
    unfold drainM at hdrain
    rcases Outcome.cases_on (access s.M_out s.afterW) with ⟨c, hc⟩ | ⟨e', he'⟩ | hhang
    · have hflags : c.NZCV = s.NZCV := (completes_of_access hc).NZCV
      rw [hc, pure_bind, hmispred] at hdrain
      unfold drainX at hdrain
      rw [execute_null hs.wf.X_out hldur (c := c) (by rw [hflags]; exact hnull)] at hdrain
      exact ((h.of_throw hdrain).isStop he).elim
    · rw [he'] at hdrain
      have hstop := stop_of_access ((h.of_throw hdrain).isStop he) he'
      rw [hs.after_M hstop] at hldur
      cases hldur
    · rw [hhang] at hdrain
      exact h.not_hang hdrain
  · exact ⟨s', r', q', hcycle, heffect, hrequests⟩

end

/-! ## A cycle that moves on makes progress -/

/-- How many cycles that move on can pass before the sequential machine makes a step or a stop
reaches writeback. -/
def Machine.rank (s : Machine) : ℕ :=
  if s.W_out.status.isStop then 0
  else if s.M_out.status.isStop then 1
  else if s.X_out.status.isStop then 2
  else if s.loadUse then 4
  else if s.executing.mispredicted ∨ s.D_out.op = .ret then 1
  else if s.D_out.op = .bCond ∨ s.D_out.status.isStop then 3
  else 0

section

variable {L : Prop} {e : Halt} {n : ℕ} {s s' : Machine} {r : Mem × DInstr × BitVec 64}
  {q : Mem × WInstr}

theorem not_isStop_of_passes {status : Stat} (h : status.passes = true) :
    status.isStop = false := by
  cases status <;> first | rfl | cases h

/-- Without a stop in the two oldest stages. -/
theorem Machine.rank_le (hX : s.X_out.status.isStop = false) (huse : s.loadUse = false) :
    s.rank ≤ 3 := by
  unfold Machine.rank
  rw [hX, huse]
  split
  · omega
  · split
    · omega
    · simp only [Bool.false_eq_true, ↓reduceIte]
      split
      · omega
      · split <;> omega

/-- With a bubble in decode and no branch in execute. -/
theorem rank_of_bubble (hW : s.W_out.status.isStop = false) (hM : s.M_out.status.isStop = false)
    (hX : s.X_out.status.isStop = false) (hldur : s.X_out.op ≠ .ldur)
    (hbranch : s.X_out.op ≠ .bCond) (hD : s.D_out = {}) : s.rank = 0 := by
  have huse : s.loadUse = false := by
    rw [Bool.eq_false_iff]
    exact fun hcontra ↦ hldur (ldur_of_loadUse hcontra)
  have hmispred : s.executing.mispredicted = false :=
    not_mispredicted_of_ne (m := s.executing) hbranch
  unfold Machine.rank
  rw [hW, hM, hX, huse, hmispred, hD]
  rfl

variable (hs : s.Inv L) (h : CycleEffect s r q s')
  (hrequests : ¬(s.requests r.2.1 q).Contradictory) (hW : s.W_out.status.passes = true)
  (hquiet : s.FetchesQuietly) (hready : q.1.dmem_status ≠ .inFlight) (hexpects : Expects L e n s)
  (he : e.IsStop)
include hs h hrequests hW hquiet hready hexpects he

omit hrequests in
/-- A stop that leaves the memory stage has reached writeback. -/
theorem progress_of_stop (hq : q.2.status.passes = false) :
    Expects L e n s' ∧ s'.rank < s.rank := by
  obtain ⟨e', hdrain, halike⟩ := drain_stopped hs.after_M hs.wf.X_out h hW hquiet hready hq
  have hresume : Alike (resume s') (resume s) := by
    refine resume_alike (hdrain ▸ halike) (.inr fun c hc ↦ ?_)
    rw [hdrain] at hc
    exact absurd hc.symm pure_ne_throw
  have hexpects' := hexpects.stutter hresume
  have hW' : s'.W_out = q.2 := (h.moves hready).2
  have hstop : q.2.status.isStop = true := by
    have he' := (hexpects'.of_throw hdrain).isStop he
    unfold drain drainFrom writeback at hdrain
    rw [hW'] at hdrain
    cases hstatus : q.2.status with
    | bub =>
      rw [hstatus] at hq
      cases hq
    | aok =>
      rw [hstatus] at hq
      cases hq
    | hlt => rfl
    | ins => rfl
    | adr =>
      rw [hstatus] at hdrain
      rw [← throw_inj hdrain] at he'
      exact he'.elim
  have hM : s.M_out.status.isStop = true := isStop_of_accessed h.access hstop
  refine ⟨hexpects', ?_⟩
  unfold Machine.rank
  rw [hW', hstop, not_isStop_of_passes hW, hM]
  simp only [↓reduceIte, Bool.false_eq_true, zero_lt_one]

omit hs h hrequests hW hquiet hready he in
/-- A step of the sequential machine, which only happens while it has steps left. -/
theorem progress_of_advance (halike : AlikeUpTo L (resume s') (resume s >>= seqStep pipeBuild))
    (hrank : n = 0 → s'.rank < s.rank) :
    (∃ m, n = m + 1 ∧ Expects L e m s') ∨ Expects L e n s' ∧ s'.rank < s.rank := by
  cases n with
  | succ m => exact .inl ⟨m, rfl, hexpects.advance halike⟩
  | zero => exact .inr ⟨hexpects.of_throw' halike, hrank rfl⟩

omit hrequests hquiet hexpects he in
/-- A branch in decode that turns out to be wrongly predicted is squashed in the next cycle. -/
theorem rank_of_redirected (hq : q.2.status.passes = true) (huse : s.loadUse = false)
    (hmispred : s.executing.mispredicted = false) (hret : s.D_out.op ≠ .ret)
    (hX : s'.X_out = s.forwarded q.2) (hM : s'.M_out = s.executing)
    (hW' : s'.W_out = q.2) (hMstop : s.M_out.status.isStop = false) {pc : BitVec 64}
    (hredirects : (s.forwarded q.2).redirect s.flags = some pc) : s'.rank < s.rank := by
  have hop : s.D_out.op = .bCond := by
    by_contra hne
    have hnone := redirect_eq_none (x := s.forwarded q.2) hret hne s.flags
    rw [hnone] at hredirects
    cases hredirects
  have hDstop : s.D_out.status.isStop = false := by
    rw [Bool.eq_false_iff, ne_eq, hs.wf.D_out.status.isStop_iff, hop]
    decide
  have hXstop : s.X_out.status.isStop = false := by
    rw [Bool.eq_false_iff]
    intro hstop
    have hhlt := hs.after_X hstop
    rw [hop] at hhlt
    cases hhlt
  have huse' : s'.loadUse = false := by
    rw [Bool.eq_false_iff]
    intro hcontra
    have hldur := ldur_of_loadUse hcontra
    rw [hX] at hldur
    have hbranch : (s.forwarded q.2).op = .bCond := hop
    rw [hbranch] at hldur
    cases hldur
  have hmispred' : s'.executing.mispredicted = true := by
    unfold Machine.executing
    rw [hX, h.NZCV_of_passes hready hq]
    by_contra hcontra
    rw [redirect_of_not_mispredicted hret (Bool.eq_false_of_not_eq_true hcontra)] at hredirects
    cases hredirects
  have hM' : s'.M_out.status.isStop = false := by
    rw [hM]
    exact hXstop
  have hX' : s'.X_out.status.isStop = false := by
    rw [hX]
    exact hDstop
  have hrank : s.rank = 3 := by
    unfold Machine.rank
    simp only [not_isStop_of_passes hW, hMstop, hXstop, huse, hmispred, hop, reduceCtorEq,
      Bool.false_eq_true, ↓reduceIte, or_self, true_or]
  have hrank' : s'.rank = 1 := by
    unfold Machine.rank
    rw [hM', hX', hW', huse', hmispred']
    simp only [not_isStop_of_passes hq, Bool.false_eq_true, ↓reduceIte, true_or]
  omega

omit hrequests in
/-- A cycle in which every instruction moves on. -/
theorem progress_of_load (hq : q.2.status.passes = true) (huse : s.loadUse = false)
    (hmispred : s.executing.mispredicted = false) (hret : s.D_out.op ≠ .ret)
    (hpred : s'.F_out.pred_PC = if r.2.1.status.isStop then s.F_out.pred_PC else s'.PC)
    (hD : s'.D_out = r.2.1) (hX : s'.X_out = s.forwarded q.2) (hM : s'.M_out = s.executing)
    (hW' : s'.W_out = q.2) (hMstop : s.M_out.status.isStop = false) :
    (∃ m, n = m + 1 ∧ Expects L e m s') ∨ Expects L e n s' ∧ s'.rank < s.rank := by
  rcases load_simulates h hW hquiet hs hready hq hmispred (next_of_load h hq hpred) hD hX huse with
    hnext | ⟨⟨pc, hredirects⟩, halike, hredirected⟩
  · refine progress_of_advance hexpects hnext fun hzero ↦ ?_
    subst hzero
    have hMstop' : s'.M_out.status.isStop = s.X_out.status.isStop := by
      rw [hM]
      rfl
    have hXstop' : s'.X_out.status.isStop = s.D_out.status.isStop := by
      rw [hX]
      rfl
    -- without a step left, the stop is in execute or in decode
    obtain ⟨e', hdrain, hsame⟩ := hexpects.throws
    unfold Machine.rank
    rw [hMstop', hXstop', hW']
    simp only [not_isStop_of_passes hW, not_isStop_of_passes hq, hMstop, huse, hmispred, hret,
      Bool.false_eq_true, ↓reduceIte, or_self]
    rcases stop_of_drain (hsame.isStop he) hdrain hW with hstop | hstop | hstop
    · rw [hMstop] at hstop
      cases hstop
    · rw [hstop]
      simp only [↓reduceIte, Nat.one_lt_ofNat]
    · rw [hstop]
      cases s.X_out.status.isStop <;> simp
  · exact .inr ⟨hexpects.stutter (resume_alike halike (.inr hredirected)),
      rank_of_redirected hs h hW hready hq huse hmispred hret hX hM hW' hMstop
        hredirects⟩

omit hrequests he in
/-- A cycle in which decode waits for a load lowers the rank from four. -/
theorem progress_of_loadUse (hq : q.2.status.passes = true) (huse : s.loadUse = true)
    (hpred : s'.F_out.pred_PC = s.F_out.pred_PC) (hD : s'.D_out = s.D_out) (hX : s'.X_out = {})
    (hMstop : s.M_out.status.isStop = false) : Expects L e n s' ∧ s'.rank < s.rank := by
  have hldur := ldur_of_loadUse huse
  have hXstop : s.X_out.status.isStop = false := by
    rw [Bool.eq_false_iff, ne_eq, hs.wf.X_out.status.isStop_iff, hldur]
    decide
  have hrank : s.rank = 4 := by
    unfold Machine.rank
    simp only [not_isStop_of_passes hW, hMstop, hXstop, huse, Bool.false_eq_true, ↓reduceIte]
  have huse' : s'.loadUse = false := by
    rw [Bool.eq_false_iff]
    intro hcontra
    have hcontra' := ldur_of_loadUse hcontra
    rw [hX] at hcontra'
    cases hcontra'
  have hrank' : s'.rank ≤ 3 := Machine.rank_le (by rw [hX]; rfl) huse'
  exact ⟨hexpects.stutter (resume_alike
    (drain_loadUse h hW hquiet hs.toShape hready hq huse hD hX) (.inl hpred)), by omega⟩

omit hrequests he in
/-- A cycle that drops what was fetched behind a branch leaves nothing to wait for. -/
theorem progress_of_squash (hq : q.2.status.passes = true)
    (hmispred : s.executing.mispredicted = true) (hD : s'.D_out = {}) (hX : s'.X_out = {})
    (hM : s'.M_out = s.executing) (hW' : s'.W_out = q.2)
    (hMstop : s.M_out.status.isStop = false) : Expects L e n s' ∧ s'.rank < s.rank := by
  obtain ⟨halike, hredirected⟩ := drain_squash h hW hquiet hs.toShape hready hq hmispred
  refine ⟨hexpects.stutter (resume_alike halike (.inr hredirected)), ?_⟩
  have hbranch : s.X_out.op = .bCond := by
    have hand : (s.X_out.op == .bCond && _) = true := hmispred
    simpa using (Bool.and_eq_true_iff.mp hand).1
  have hXstop : s.X_out.status.isStop = false := by
    rw [Bool.eq_false_iff, ne_eq, hs.wf.X_out.status.isStop_iff, hbranch]
    decide
  have huse : s.loadUse = false := by
    rw [Bool.eq_false_iff]
    intro hcontra
    have hldur := ldur_of_loadUse hcontra
    rw [hbranch] at hldur
    cases hldur
  have hrank : s.rank = 1 := by
    unfold Machine.rank
    simp only [not_isStop_of_passes hW, hMstop, hXstop, huse, hmispred, Bool.false_eq_true,
      ↓reduceIte, true_or]
  rw [hrank, rank_of_bubble (by rw [hW']; exact not_isStop_of_passes hq)
    (by rw [hM]; exact hXstop) (by rw [hX]; rfl) (by rw [hX]; decide) (by rw [hX]; decide) hD]
  exact zero_lt_one

omit hrequests he in
theorem progress_of_ret (hq : q.2.status.passes = true) (huse : s.loadUse = false)
    (hmispred : s.executing.mispredicted = false) (hret : s.D_out.op = .ret) (hD : s'.D_out = {})
    (hX : s'.X_out = s.forwarded q.2) (hM : s'.M_out = s.executing) (hW' : s'.W_out = q.2)
    (hMstop : s.M_out.status.isStop = false) : Expects L e n s' ∧ s'.rank < s.rank := by
  obtain ⟨halike, hredirected⟩ :=
    drain_ret h hW hquiet hs.toShape hready hq huse hmispred hret hX
  refine ⟨hexpects.stutter (resume_alike halike (.inr hredirected)), ?_⟩
  have hXstop : s.X_out.status.isStop = false := by
    rw [Bool.eq_false_iff]
    intro hstop
    have hhlt := hs.after_X hstop
    rw [hret] at hhlt
    cases hhlt
  have hDstop : s.D_out.status.isStop = false := by
    rw [Bool.eq_false_iff, ne_eq, hs.wf.D_out.status.isStop_iff, hret]
    decide
  have hop : (s.forwarded q.2).op = .ret := hret
  have hrank : s.rank = 1 := by
    unfold Machine.rank
    simp only [not_isStop_of_passes hW, hMstop, hXstop, huse, hret, Bool.false_eq_true,
      ↓reduceIte, or_true]
  rw [hrank, rank_of_bubble (by rw [hW']; exact not_isStop_of_passes hq)
    (by rw [hM]; exact hXstop) (by rw [hX]; exact hDstop) (by rw [hX, hop]; decide)
    (by rw [hX, hop]; decide) hD]
  exact zero_lt_one

/-- Every cycle that moves on makes a step of the sequential machine or lowers the rank. -/
theorem progress :
    (∃ m, n = m + 1 ∧ Expects L e m s') ∨ Expects L e n s' ∧ s'.rank < s.rank := by
  cases hq : q.2.status.passes with
  | false => exact .inr (progress_of_stop hs h hW hquiet hready hexpects he hq)
  | true =>
    have hMstop : s.M_out.status.isStop = false := by
      rw [← status_of_not_error h.access (isError_of_passes hq)]
      exact not_isStop_of_passes hq
    cases h.kind hs.ec_D hrequests with
    | frozen hflight hpred hD hX hM hW' => exact absurd hflight hready
    | loadUse _ huse hpred hD hX hM hW' =>
      exact .inr (progress_of_loadUse hs h hW hquiet hready hexpects hq huse hpred hD hX hMstop)
    | squash _ hmispred hD hX hM hW' =>
      exact .inr (progress_of_squash hs h hW hquiet hready hexpects hq hmispred hD hX hM hW'
        hMstop)
    | ret _ huse hmispred hret hD hX hM hW' =>
      exact .inr (progress_of_ret hs h hW hquiet hready hexpects hq huse hmispred hret hD hX hM
        hW' hMstop)
    | load _ huse hmispred hret hpred hD hX hM hW' =>
      exact progress_of_load hs h hW hquiet hready hexpects he hq huse hmispred hret hpred
        hD hX hM hW' hMstop

end

/-! ## The end of a run -/

section

variable {L : Prop} {e : Halt} {s s' : Machine} {r : Mem × DInstr × BitVec 64} {q : Mem × WInstr}

/-- The loop goes on after a cycle whose writeback passes. -/
theorem running_of_passes (h : CycleEffect s r q s') (hW : s.W_out.status.passes = true) :
    s'.running = true := by
  rw [s'.running_eq, h.status, hW]

/-- A frozen cycle resolves nothing. -/
theorem rank_of_frozen (h : CycleEffect s r q s') (hW : s.W_out.status.passes = true)
    (hflight : q.1.dmem_status = .inFlight) : s'.rank = s.rank := by
  obtain ⟨-, hD, hX, hM, hW'⟩ := h.frozen hflight
  have hNZCV : s'.NZCV = s.NZCV := by
    rw [h.NZCV, hflight]
    rfl
  unfold Machine.rank Machine.loadUse Machine.executing
  rw [hD, hX, hM, hW', hNZCV, not_isStop_of_passes hW]
  rfl

/-- The data access of a pipeline in which a stop is expected settles. -/
theorem Expects.settlesIn {n : ℕ} (h : Expects L e n s) (hW : s.W_out.status.passes = true) :
    ∃ k, SettlesIn (accessed s.M_out) k s.mem := by
  cases hsettle : settle (accessed s.M_out) s.mem with
  | some x => exact settlesIn_of_settle _ _ hsettle
  | none =>
    exfalso
    apply h.not_hang
    rw [drain_eq_drainM hW]
    unfold drainM access
    have hafter : s.afterW.mem = s.mem := rfl
    rw [hafter, hsettle]
    rfl

/-- A stop in writeback is the one that is expected. -/
theorem stop_in_writeback {n : ℕ} (h : Expects L e n s) (he : e.IsStop)
    (hW : s.W_out.status.passes = false) :
    s.W_out.status.isStop = true ∧ ∃ e', drain s = throw e' ∧ HaltAs L e' e := by
  have hthrow : ∃ e', drain s = throw e' ∧ (s.W_out.status = .adr → ¬e'.IsStop) := by
    unfold drain drainFrom writeback
    cases hstatus : s.W_out.status with
    | bub =>
      rw [hstatus] at hW
      cases hW
    | aok =>
      rw [hstatus] at hW
      cases hW
    | hlt => exact ⟨_, rfl, fun hadr ↦ nomatch hadr⟩
    | ins => exact ⟨_, rfl, fun hadr ↦ nomatch hadr⟩
    | adr => exact ⟨_, rfl, fun _ ↦ id⟩
  obtain ⟨e', hdrain, hadr⟩ := hthrow
  have hsame := h.of_throw hdrain
  refine ⟨?_, e', hdrain, hsame⟩
  cases hstatus : s.W_out.status with
  | bub =>
    rw [hstatus] at hW
    cases hW
  | aok =>
    rw [hstatus] at hW
    cases hW
  | hlt => rfl
  | ins => rfl
  | adr => exact absurd (hsame.isStop he) (hadr hstatus)

/-- A stop that is expected reaches writeback.  The induction is on the steps that the sequential
machine has left, then on the rank, then on the cycles for which the data access is in flight. -/
theorem reaches_stop {K : Machine → Prop} (hK : ∀ s, K s → s.Inv L ∧ s.FetchesQuietly)
    (hstep : ∀ s s', K s → Step pipeBuild defaultOrder s s' → s'.running = true → K s')
    (he : e.IsStop) {n : ℕ} (hs : K s) (hrun : s.running = true) (h : Expects L e n s) :
    ∃ t, Run pipeBuild s t ∧ t.running = true ∧ K t ∧ t.W_out.status.isStop = true ∧
      ∃ e', drain t = throw e' ∧ HaltAs L e' e := by
  induction n using Nat.strong_induction_on generalizing s with
  | _ n ihn =>
    obtain ⟨rank, hrank⟩ : ∃ rank, s.rank = rank := ⟨_, rfl⟩
    induction rank using Nat.strong_induction_on generalizing s with
    | _ rank ihrank =>
      cases hW : s.W_out.status.passes with
      | false =>
        obtain ⟨hstop, hdrain⟩ := stop_in_writeback h he hW
        exact ⟨s, ReflTransGen.refl, hrun, hs, hstop, hdrain⟩
      | true =>
        obtain ⟨k, hk⟩ := h.settlesIn hW
        induction k generalizing s with
        | zero =>
          obtain ⟨hinv, hquiet⟩ := hK s hs
          obtain ⟨s', r, q, hcycle, heffect, hrequests⟩ := exists_effect hinv hquiet hW h he
          have hready : q.1.dmem_status ≠ .inFlight :=
            SettlesIn.congr (fun _ _ ↦ accessed_congr s.M_out)
              (fetchResult_quiet hquiet heffect.fetch) hk q heffect.access
          have hrun' := running_of_passes heffect hW
          have hs' := hstep s s' hs ⟨hrun, hcycle⟩ hrun'
          rcases progress hinv heffect hrequests hW hquiet hready h he with
            ⟨m, rfl, h'⟩ | ⟨h', hless⟩
          · obtain ⟨t, hreach, ht⟩ := ihn m (Nat.lt_succ_self m) hs' hrun' h'
            exact ⟨t, ReflTransGen.head ⟨hrun, hcycle⟩ hreach, ht⟩
          · obtain ⟨t, hreach, ht⟩ := ihrank s'.rank (hrank ▸ hless) hs' hrun' h' rfl
            exact ⟨t, ReflTransGen.head ⟨hrun, hcycle⟩ hreach, ht⟩
        | succ k ihk =>
          obtain ⟨hinv, hquiet⟩ := hK s hs
          obtain ⟨s', r, q, hcycle, heffect, hrequests⟩ := exists_effect hinv hquiet hW h he
          have hrun' := running_of_passes heffect hW
          have hs' := hstep s s' hs ⟨hrun, hcycle⟩ hrun'
          by_cases hflight : q.1.dmem_status = .inFlight
          · obtain ⟨hpred, -, -, hM, hW'⟩ := heffect.frozen hflight
            have h' := h.stutter
              (resume_alike (drain_frozen heffect hW hquiet hflight) (.inl hpred))
            have hk' : SettlesIn (accessed s'.M_out) k s'.mem := by
              rw [hM, heffect.mem]
              exact SettlesIn.congr (k := k + 1) (fun _ _ ↦ accessed_congr s.M_out)
                (fetchResult_quiet hquiet heffect.fetch) hk q heffect.access hflight
            obtain ⟨t, hreach, ht⟩ := ihk hs' hrun' h'
              ((rank_of_frozen heffect hW hflight).trans hrank) (by rw [hW']; rfl) hk'
            exact ⟨t, ReflTransGen.head ⟨hrun, hcycle⟩ hreach, ht⟩
          · rcases progress hinv heffect hrequests hW hquiet hflight h he with
              ⟨m, rfl, h'⟩ | ⟨h', hless⟩
            · obtain ⟨t, hreach, ht⟩ := ihn m (Nat.lt_succ_self m) hs' hrun' h'
              exact ⟨t, ReflTransGen.head ⟨hrun, hcycle⟩ hreach, ht⟩
            · obtain ⟨t, hreach, ht⟩ := ihrank s'.rank (hrank ▸ hless) hs' hrun' h' rfl
              exact ⟨t, ReflTransGen.head ⟨hrun, hcycle⟩ hreach, ht⟩

/-- The last cycle of a run that a stop ends. -/
theorem final_cycle (hs : s.Shape) (hquiet : s.FetchesQuietly)
    (hW : s.W_out.status.isStop = true) : ∃ s', cycle pipeBuild defaultOrder s = .ok s' ∧
      s'.status = s.W_out.status ∧ s'.regs = s.regs ∧ s'.NZCV = s.NZCV ∧ s.mem.Same s'.mem := by
  have hM := hs.after_W hW
  have hMstatus : s.M_out.status.isStop = true := hs.wf.M_out.status.isStop_iff.mpr (.inl hM)
  have hX := hs.after_M hMstatus
  obtain ⟨r, hfetch⟩ := fetchResult_ok hquiet
  have haccess : accessed s.M_out r.1 = .ok (r.1, s.M_out.toWInstr 0 false) :=
    accessed_of_not_accesses (hs.wf.M_out.accesses_idle (by rw [hM]; rfl)) _
  obtain ⟨s', hcycle⟩ := cycle_of_ok hfetch haccess
  refine ⟨s', hcycle, ?_⟩
  obtain ⟨r', q', hfetch', haccess', ⟨hcontra, -⟩ | ⟨-, heffect⟩⟩ :=
    cycle_effect hs.ec_D hs.controls hcycle
  · have hldur := (null_of_contradictory hs hcontra).1
    rw [hX] at hldur
    cases hldur
  · obtain rfl : r = r' := Except.ok.inj (hfetch.symm.trans hfetch')
    obtain rfl : _ = q' := Except.ok.inj (haccess.symm.trans haccess')
    have hflags : s.flags = s.NZCV := by
      unfold Machine.flags
      rw [hs.wf.X_out.X_sigs, hX]
      rfl
    refine ⟨heffect.status, ?_, ?_, ?_⟩
    · have hstatus : (s.W_out.status == .aok) = false := by
        rcases isStop_cases hW with hW | hW <;> rw [hW] <;> rfl
      rw [heffect.regs, hstatus, Bool.and_false]
      rfl
    · rw [heffect.NZCV, hflags]
      exact ite_self _
    · rw [heffect.mem]
      exact fetchResult_quiet hquiet hfetch

end

end SystemEmulator
