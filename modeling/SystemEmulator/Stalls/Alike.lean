import SystemEmulator.Stalls.Attempt
import SystemEmulator.Pipeline.Progress

/-!
# Pipelines in step

A pipeline on the flat memory and one behind a cache hold the same instructions.  They may differ
where no instruction passes any more: a word that is fetched again while an access waits becomes a
`HLT`, whether it was illegal or not.  Both then fetch the same, forward the same and ask for the
same bubbles and stalls.
-/

namespace SystemEmulator

open Result

/-! ## Records that differ in their stops -/

/-- Both instructions stop the machine, and the second one halts it if the first one does. -/
structure BothStop (status status' : Stat) : Prop where
  stop : status.isStop = true
  stop' : status'.isStop = true
  halts : status = .hlt → status' = .hlt

/-- The second record is the first one, or both stop the machine. -/
def Like {α : Type} (status : α → Stat) (a a' : α) : Prop :=
  a' = a ∨ BothStop (status a) (status a')

namespace Like

variable {α : Type} {status : α → Stat} {a a' : α}

theorem refl (a : α) : Like status a a := .inl rfl

theorem eq_of_not_stop (h : Like status a a') (hstop : (status a).isStop = false) : a' = a := by
  rcases h with heq | hboth
  · exact heq
  · rw [hboth.stop] at hstop
    cases hstop

theorem isStop (h : Like status a a') : (status a').isStop = (status a).isStop := by
  rcases h with heq | hboth
  · rw [heq]
  · rw [hboth.stop, hboth.stop']

theorem halts (h : Like status a a') (hhlt : status a = .hlt) : status a' = .hlt := by
  rcases h with heq | hboth
  · rw [heq, hhlt]
  · exact hboth.halts hhlt

theorem bothStop (h : Like status a a') (hstop : (status a).isStop = true) :
    BothStop (status a) (status a') :=
  ⟨hstop, h.isStop.trans hstop, h.halts⟩

theorem requested {in_ in_' out out' : α} (hin : Like status in_ in_') (hout : Like status out out')
    (bubble stall : Bool) (zero : α) :
    Like status (SystemEmulator.requested bubble stall in_ out zero)
      (SystemEmulator.requested bubble stall in_' out' zero) := by
  unfold SystemEmulator.requested
  cases bubble with
  | true => exact .refl zero
  | false => cases stall with
    | true => exact hout
    | false => exact hin

end Like

/-! ## Behind a stop -/

section

variable {s : Machine} (hs : s.Shape)
include hs

theorem Machine.Shape.stop_M (h : s.W_out.status.isStop = true) : s.M_out.status.isStop = true :=
  hs.wf.M_out.status.isStop_iff.mpr (.inl (hs.after_W h))

theorem Machine.Shape.stop_X (h : s.M_out.status.isStop = true) : s.X_out.status.isStop = true :=
  hs.wf.X_out.status.isStop_iff.mpr (.inl (hs.after_M h))

theorem Machine.Shape.stop_D (h : s.X_out.status.isStop = true) : s.D_out.status.isStop = true :=
  hs.wf.D_out.status.isStop_iff.mpr (.inl (hs.after_X h))

end

/-- A stop accesses no data and writes no register. -/
theorem MInstr.WF.accesses_of_stop {i : MInstr} (h : i.WF) (hstop : i.status.isStop = true) :
    i.accesses = false := by
  unfold MInstr.accesses
  rw [h.M_sigs]
  rcases h.status.isStop_iff.mp hstop with hop | hop <;> rw [hop] <;> rfl

theorem WInstr.WF.w_enable_of_stop {w : WInstr} (h : w.WF) (hstop : w.status.isStop = true) :
    w.W_sigs.w_enable = false := by
  rw [h.W_sigs]
  rcases h.status with hadr | hstatus
  · rw [hadr] at hstop
    cases hstop
  · rcases hstatus.isStop_iff.mp hstop with hop | hop <;> rw [hop] <;> rfl

theorem written_of_stop {w : WInstr} (h : w.WF) (hstop : w.status.isStop = true) (regs : Regs) :
    written w regs = regs := by
  unfold written
  rw [h.w_enable_of_stop hstop]
  rfl

theorem written_bubble (regs : Regs) : written {} regs = regs := rfl

/-- A stop in execute sets no flags. -/
theorem Machine.Shape.flags_of_stop {s : Machine} (hs : s.Shape)
    (hstop : s.X_out.status.isStop = true) : s.flags = s.NZCV := by
  unfold Machine.flags
  rw [hs.wf.X_out.X_sigs]
  rcases hs.wf.X_out.status.isStop_iff.mp hstop with hop | hop <;> rw [hop] <;> rfl

/-- Decode reads no register for a stop. -/
theorem DInstr.WF.src_of_stop {d : DInstr} (h : d.WF) (hstop : d.status.isStop = true) :
    d.src1 = XZR_NUM ∧ d.src2 = XZR_NUM := by
  rcases h.status.isStop_iff.mp hstop with hop | hop
  · have hformat := h.format (by rw [hop]; decide)
    unfold DInstr.src1 DInstr.src2
    rw [hformat, hop]
    exact ⟨rfl, rfl⟩
  · have hformat := h.format (by rw [hop]; decide)
    unfold DInstr.src1 DInstr.src2
    rw [hformat, hop]
    exact ⟨rfl, rfl⟩

/-! ## The instructions in flight -/

/-- The second pipeline holds the instructions of the first one, up to their stops. -/
structure InStep (s t : Machine) : Prop where
  shape : s.Shape
  shape' : t.Shape
  pred_PC : t.F_out.pred_PC = s.F_out.pred_PC
  NZCV : t.NZCV = s.NZCV
  D_out : Like DInstr.status s.D_out t.D_out
  X_out : Like XInstr.status s.X_out t.X_out
  M_out : Like MInstr.status s.M_out t.M_out

section

variable {s t : Machine} (h : InStep s t)
include h

/-- Without a stop in decode the two pipelines hold the same instructions. -/
theorem InStep.same (hD : s.D_out.status.isStop = false) :
    t.D_out = s.D_out ∧ t.X_out = s.X_out ∧ t.M_out = s.M_out := by
  have hX : s.X_out.status.isStop = false := by
    rw [Bool.eq_false_iff]
    exact fun hX ↦ Bool.eq_false_iff.mp hD (h.shape.stop_D hX)
  have hM : s.M_out.status.isStop = false := by
    rw [Bool.eq_false_iff]
    exact fun hM ↦ Bool.eq_false_iff.mp hX (h.shape.stop_X hM)
  exact ⟨h.D_out.eq_of_not_stop hD, h.X_out.eq_of_not_stop hX, h.M_out.eq_of_not_stop hM⟩

/-- A return in execute is the same in both. -/
theorem InStep.ret_iff : t.X_out.op = .ret ↔ s.X_out.op = .ret := by
  cases hX : s.X_out.status.isStop with
  | false => rw [h.X_out.eq_of_not_stop hX]
  | true =>
    have hX' := h.X_out.isStop.trans hX
    have hop := h.shape.wf.X_out.status.isStop_iff.mp hX
    have hop' := h.shape'.wf.X_out.status.isStop_iff.mp hX'
    constructor
    · intro hret
      rw [hret] at hop'
      rcases hop' with hop' | hop' <;> cases hop'
    · intro hret
      rw [hret] at hop
      rcases hop with hop | hop <;> cases hop

theorem InStep.mispredicted_eq : t.M_out.mispredicted = s.M_out.mispredicted := by
  cases hM : s.M_out.status.isStop with
  | false => rw [h.M_out.eq_of_not_stop hM]
  | true =>
    have hM' := h.M_out.isStop.trans hM
    have hne : ∀ {i : MInstr}, i.WF → i.status.isStop = true → i.mispredicted = false := by
      intro i hi hstop
      apply not_mispredicted_of_ne
      rcases hi.status.isStop_iff.mp hstop with hop | hop <;> rw [hop] <;> decide
    rw [hne h.shape.wf.M_out hM, hne h.shape'.wf.M_out hM']

/-- Both fetch at the same address. -/
theorem InStep.currentPC_eq : currentPC pipeBuild t = currentPC pipeBuild s := by
  by_cases hret : s.X_out.op = .ret
  · have hX : s.X_out.status.isStop = false := by
      rw [Bool.eq_false_iff]
      intro hstop
      rcases h.shape.wf.X_out.status.isStop_iff.mp hstop with hop | hop <;> rw [hret] at hop <;>
        cases hop
    rw [currentPC_of_ret h.shape hret, currentPC_of_ret h.shape' (h.ret_iff.mpr hret),
      h.X_out.eq_of_not_stop hX]
  · have hret' : t.X_out.op ≠ .ret := fun hcontra ↦ hret (h.ret_iff.mp hcontra)
    cases hmispred : s.M_out.mispredicted with
    | true =>
      have hmispred' := h.mispredicted_eq.trans hmispred
      have hM : s.M_out.status.isStop = false := by
        rw [Bool.eq_false_iff]
        intro hstop
        have hbranch : (s.M_out.op == .bCond && _) = true := hmispred
        have hop := eq_of_beq (Bool.and_eq_true_iff.mp hbranch).1
        rcases h.shape.wf.M_out.status.isStop_iff.mp hstop with hop' | hop' <;> rw [hop] at hop' <;>
          cases hop'
      rw [currentPC_of_mispredicted h.shape hmispred, currentPC_of_mispredicted h.shape' hmispred',
        h.M_out.eq_of_not_stop hM]
    | false =>
      have hmispred' := h.mispredicted_eq.trans hmispred
      rw [currentPC_of_not_redirected h.shape hret hmispred,
        currentPC_of_not_redirected h.shape' hret' hmispred', h.pred_PC]

theorem InStep.executing_eq (hX : s.X_out.status.isStop = false) : t.executing = s.executing := by
  unfold Machine.executing
  rw [h.X_out.eq_of_not_stop hX, h.NZCV]

theorem InStep.flags_eq : t.flags = s.flags := by
  cases hX : s.X_out.status.isStop with
  | false =>
    unfold Machine.flags
    rw [h.X_out.eq_of_not_stop hX, h.NZCV]
  | true =>
    rw [h.shape.flags_of_stop hX, h.shape'.flags_of_stop (h.X_out.isStop.trans hX), h.NZCV]

/-- A wrongly predicted branch in execute is the same in both. -/
theorem InStep.mispred_eq : checkMispredBranchHazard t.X_out.op t.executing.cond_holds =
    checkMispredBranchHazard s.X_out.op s.executing.cond_holds := by
  cases hX : s.X_out.status.isStop with
  | false => rw [h.executing_eq hX, h.X_out.eq_of_not_stop hX]
  | true =>
    have hne : ∀ {x : XInstr}, x.WF → x.status.isStop = true → ∀ cond,
        checkMispredBranchHazard x.op cond = false := by
      intro x hx hstop cond
      rcases hx.status.isStop_iff.mp hstop with hop | hop <;> rw [hop] <;> rfl
    rw [hne h.shape.wf.X_out hX, hne h.shape'.wf.X_out (h.X_out.isStop.trans hX)]

/-- A latch that is set alike makes both generate a halt, or none. -/
theorem InStep.generatesHlt_eq (hF : t.F_in.status.isStop = s.F_in.status.isStop) :
    generatesHlt pipeBuild t = generatesHlt pipeBuild s := by
  rw [SystemEmulator.generatesHlt_eq, SystemEmulator.generatesHlt_eq, h.currentPC_eq]
  by_cases hpc : currentPC pipeBuild s = 0
  · rw [hpc]
    rfl
  · by_cases hredirected : s.X_out.op = .ret ∨ s.M_out.mispredicted = true
    · have hredirected' : t.X_out.op = .ret ∨ t.M_out.mispredicted = true := by
        rwa [h.ret_iff, h.mispredicted_eq]
      rw [clearedStatus_of_redirected h.shape hpc hredirected,
        clearedStatus_of_redirected h.shape' (h.currentPC_eq ▸ hpc) hredirected']
    · obtain ⟨hret, hmispred⟩ := not_or.mp hredirected
      rw [Bool.not_eq_true] at hmispred
      rw [clearedStatus_of_not_redirected h.shape hret hmispred,
        clearedStatus_of_not_redirected h.shape' (fun hcontra ↦ hret (h.ret_iff.mp hcontra))
          (h.mispredicted_eq.trans hmispred), hF]

end

/-! ## The relation -/

/-- `t` runs behind a cache of delay `d` the program that `s` runs on the flat memory.  An
instruction in writeback may already be committed, while the data access behind it waits; and an
illegal instruction that is fetched while decode is held has become a halt. -/
structure Shadows (d : ℕ) (s t : Machine) : Prop extends InStep s t where
  W_out : t.regs = s.regs ∧ Like WInstr.status s.W_out t.W_out ∨
    t.regs = written s.W_out s.regs ∧ t.W_out = {} ∧ s.W_out.status.passes = true
  not_adr : s.W_out.status ≠ .adr
  halts : generatesHlt pipeBuild s = true → generatesHlt pipeBuild t = true
  stops : generatesHlt pipeBuild t = true → ∀ r, fetchResult pipeBuild s s.mem s.F_PC = .ok r →
    r.2.1.status.isStop = true
  flat : s.mem.cache = none
  ready : s.mem.dmem_status = .ready
  behind : t.mem.Behind d
  guest : t.mem.guest = s.mem.guest
  waits : t.mem.dmem_status = .ready ∨
    s.M_out.accesses = true ∧ isSpecialAddr s.M_out.val_ex = false

/-! ## Fetching -/

/-- The fetch of this cycle, if there is one, reads from the text segment. -/
def Machine.FetchesText (s : Machine) : Prop :=
  generatesHlt pipeBuild s = true ∨ addrInImem s.mem (currentPC pipeBuild s) = true

instance (s : Machine) : Decidable s.FetchesText := inferInstanceAs (Decidable (_ ∨ _))

/-- A fetch from the text segment leaves the data accesses alone. -/
theorem quietFetch_of_text {m : Mem} {pc : BitVec 64} (hpc : pc ≠ 0)
    (htext : addrInImem m pc = true) (htraps : logTraps m = false) : QuietFetch m pc := by
  unfold addrInImem at htext
  rw [Bool.and_eq_true, decide_eq_true_eq, decide_eq_true_eq] at htext
  refine ⟨hpc, ?_, fun _ ↦ htraps, .inr ?_⟩
  · rintro rfl
    have hlt := htext.2
    have hmax := (m.seg_start_addr .data).isLt
    rw [BitVec.lt_def] at hlt
    have hio : IO_CHAR_ADDR.toNat = 2 ^ 64 - 1 := rfl
    omega
  · unfold usesCache
    rw [decide_eq_false (BitVec.not_le.mpr htext.2), Bool.and_false]

theorem Mem.Behind.logTraps {d : ℕ} {m : Mem} (hd : 1 ≤ d) (h : m.Behind d) :
    logTraps m = false := by
  obtain ⟨b, s, cache, hcached⟩ := h.cached
  unfold SystemEmulator.logTraps
  rw [hcached.cache_eq, Option.elim_some, hcached.d_eq,
    beq_false_of_ne (Nat.one_le_iff_ne_zero.mp hd), Bool.and_false]

/-- Memories that a program cannot tell apart hold the same instructions. -/
theorem fetchedWord_of_guest {m m' : Mem} (hm : m.Ok) (hm' : m'.Ok) (hguest : m'.guest = m.guest)
    {pc : BitVec 64} (hpc : pc ≠ 0) (herr : imemErr m pc = false) :
    fetchedWord m'.ptable pc = fetchedWord m.ptable pc := by
  have hfetch : Guest.platform.fetch m.guest pc =
      some ((m.guest.wordAt pc 4).setWidth 32) := by
    refine if_pos ⟨hpc, ?_⟩
    rw [isText_guest, herr]
    rfl
  have hfetch' := hfetch
  rw [← hguest] at hfetch'
  rw [(fetch_guest hm hfetch).2.2, (fetch_guest hm' hfetch').2.2, hguest]

theorem imemErr_of_guest {m m' : Mem} (hguest : m'.guest = m.guest) (pc : BitVec 64) :
    imemErr m' pc = imemErr m pc := by
  unfold imemErr addrInImem
  rw [show m'.seg_start_addr = m.seg_start_addr from congrArg Guest.seg_start_addr hguest]

theorem Machine.FetchesText.quietly {s : Machine} (h : s.FetchesText)
    (htraps : logTraps s.mem = false) : s.FetchesQuietly := by
  cases hhlt : generatesHlt pipeBuild s with
  | true => exact .inl hhlt
  | false =>
    have htext := h.resolve_left (Bool.eq_false_iff.mp hhlt)
    exact .inr (quietFetch_of_text (not_generatesHlt_iff.mp hhlt).1 htext htraps)

theorem Shadows.fetchesText {d : ℕ} {s t : Machine} (h : Shadows d s t) (htext : s.FetchesText) :
    t.FetchesText := by
  rcases htext with hhlt | htext
  · exact .inl (h.halts hhlt)
  · right
    rw [h.currentPC_eq]
    unfold addrInImem
    rw [show t.mem.seg_start_addr = s.mem.seg_start_addr from
      congrArg Guest.seg_start_addr h.guest]
    exact htext

section

variable {d : ℕ} {s t : Machine} (hd : 1 ≤ d) (h : Shadows d s t) (htext : s.FetchesText)
include hd h htext

theorem Shadows.fetchesQuietly : s.FetchesQuietly ∧ t.FetchesQuietly :=
  ⟨htext.quietly (logTraps_of_cacheless h.flat),
    (h.fetchesText htext).quietly (h.behind.logTraps hd)⟩

/-- Both fetch the same instruction, unless both come to a stop. -/
theorem Shadows.fetch {r : Mem × DInstr × BitVec 64}
    (hfetch : fetchResult pipeBuild s s.mem s.F_PC = .ok r) :
    ∃ r', fetchResult pipeBuild t t.mem t.F_PC = .ok r' ∧ Like DInstr.status r.2.1 r'.2.1 ∧
      (r.2.1.status.isStop = false → r'.2.2 = r.2.2) := by
  obtain ⟨hquiet, hquiet'⟩ := h.fetchesQuietly hd htext
  obtain ⟨r', hfetch'⟩ := fetchResult_ok hquiet'
  refine ⟨r', hfetch', ?_⟩
  cases hhlt : generatesHlt pipeBuild t with
  | true =>
    have hstop := h.stops hhlt r hfetch
    rw [fetchResult_of_generatesHlt hhlt hfetch']
    refine ⟨.inr ⟨hstop, rfl, fun _ ↦ rfl⟩, fun hcontra ↦ ?_⟩
    rw [hstop] at hcontra
    cases hcontra
  | false =>
    have hhlt' : generatesHlt pipeBuild s = false := by
      rw [Bool.eq_false_iff] at hhlt ⊢
      exact fun hcontra ↦ hhlt (h.halts hcontra)
    obtain ⟨hpc, hD, hF⟩ := fetchResult_of_not_generatesHlt hquiet hhlt' hfetch
    obtain ⟨-, hD', hF'⟩ := fetchResult_of_not_generatesHlt hquiet' hhlt hfetch'
    rw [h.currentPC_eq, imemErr_of_guest h.guest] at hF'
    rw [h.currentPC_eq] at hD'
    unfold Core.fetched at hD hD'
    rw [show t.core.mem = t.mem from rfl, imemErr_of_guest h.guest] at hD'
    rw [show s.core.mem = s.mem from rfl] at hD
    cases herr : imemErr s.mem (currentPC pipeBuild s) with
    | true =>
      rw [herr] at hD hD'
      rw [hD, hD']
      exact ⟨.inr ⟨rfl, rfl, fun hcontra ↦ nomatch hcontra⟩, fun hcontra ↦ nomatch hcontra⟩
    | false =>
      have hword := fetchedWord_of_guest (.inl h.flat) h.behind.ok h.guest hpc herr
      rw [hword] at hD' hF'
      exact ⟨.inl (hD'.trans hD.symm), fun _ ↦ hF'.trans hF.symm⟩

end

/-! ## Operands and requests -/

/-- An instruction in writeback is forwarded the value that it writes. -/
theorem forwardOne_written {w : WInstr} (hw : w.WF) (hadr : w.status ≠ .adr) (src X_dst M_dst : ℕ)
    (X_val_ex M_val_ex M_val_mem : BitVec 64) (M_wval_sel X_w_enable M_w_enable : Bool)
    (regs : Regs) :
    forwardOne src X_dst M_dst ({} : WInstr).dst X_val_ex M_val_ex M_val_mem ({} : WInstr).val_ex
      ({} : WInstr).val_mem M_wval_sel ({} : WInstr).W_sigs.wval_sel X_w_enable M_w_enable
      ({} : WInstr).W_sigs.w_enable ((written w regs).read src) =
    forwardOne src X_dst M_dst w.dst X_val_ex M_val_ex M_val_mem w.val_ex w.val_mem M_wval_sel
      w.W_sigs.wval_sel X_w_enable M_w_enable w.W_sigs.w_enable (regs.read src) := by
  have hread : (written w regs).read src =
      if w.W_sigs.w_enable = true ∧ w.dst = src ∧ src ≠ XZR_NUM then
        (if w.W_sigs.wval_sel then w.val_mem else w.val_ex)
      else regs.read src := by
    unfold written
    rw [read_regfileWrite, hw.writes hadr]
    rfl
  have hbubble : ¬(({} : WInstr).W_sigs.w_enable = true ∧ ({} : WInstr).dst = src ∧
      src ≠ XZR_NUM) := fun hcontra ↦ Bool.noConfusion hcontra.1
  unfold forwardOne
  rw [if_neg hbubble, hread]

/-- The requests of a cycle with a stop in decode. -/
def stopRequest (stall mispred : Bool) : HazardRequest :=
  { F_stall := stall, D_bubble := mispred, X_bubble := mispred }

/-- With a stop in decode only a wrongly predicted branch in execute makes a request of its own. -/
theorem hazardRequest_of_stop {op : Opcode} (hop : op = .hlt ∨ op = .error) (F_status : Stat)
    (D_val_a : BitVec 64) (X_opcode : Opcode) (X_dst : ℕ) (X_condval : Bool) :
    hazardRequest pipeBuild F_status op XZR_NUM XZR_NUM D_val_a X_opcode X_dst X_condval =
      stopRequest F_status.isStop (checkMispredBranchHazard X_opcode X_condval) := by
  have huse : checkLoadUseHazard op XZR_NUM XZR_NUM X_opcode X_dst = false := by
    rw [Bool.eq_false_iff]
    intro huse
    obtain ⟨-, -, hdst, hsrc⟩ := (checkLoadUseHazard_iff _ _ _ _ _).mp huse
    exact hdst (hsrc.elim id id)
  unfold hazardRequest stopRequest
  rw [huse]
  rcases hop with rfl | rfl <;> cases F_status <;>
    cases checkMispredBranchHazard X_opcode X_condval <;> rfl

/-- The requests depend on the fetched instruction only through whether it stops the machine. -/
theorem hazardRequest_congr {F_status F_status' : Stat} (h : F_status'.isStop = F_status.isStop)
    (D_opcode : Opcode) (D_src1 D_src2 : ℕ) (D_val_a : BitVec 64) (X_opcode : Opcode) (X_dst : ℕ)
    (X_condval : Bool) :
    hazardRequest pipeBuild F_status' D_opcode D_src1 D_src2 D_val_a X_opcode X_dst X_condval =
      hazardRequest pipeBuild F_status D_opcode D_src1 D_src2 D_val_a X_opcode X_dst X_condval := by
  have hstall : ∀ status : Stat, (status == .hlt || status == .ins) = status.isStop := by
    intro status
    cases status <;> rfl
  unfold hazardRequest
  rw [hstall, hstall, h]

section

variable {d : ℕ} {s t : Machine} (h : Shadows d s t)
include h

/-- A committed instruction leaves in the register file what it would forward. -/
theorem Shadows.forwarded_eq (hD : s.D_out.status.isStop = false) (w : WInstr) :
    t.forwarded w = s.forwarded w := by
  obtain ⟨hD', hX', hM'⟩ := h.same hD
  have hX : s.X_out.status.isStop = false := by
    rw [Bool.eq_false_iff]
    exact fun hX ↦ Bool.eq_false_iff.mp hD (h.shape.stop_D hX)
  have hexec := h.executing_eq hX
  rcases h.W_out with ⟨hregs, hW⟩ | ⟨hregs, hW, -⟩
  · have hW' : s.W_out.status.isStop = false := by
      rw [Bool.eq_false_iff]
      exact fun hW ↦ Bool.eq_false_iff.mp hX (h.shape.stop_X (h.shape.stop_M hW))
    unfold Machine.forwarded
    rw [hexec, hD', hX', hM', hregs, hW.eq_of_not_stop hW']
  · unfold Machine.forwarded
    rw [hexec, hD', hX', hM', hregs, hW]
    have hval : ∀ src, forwardOne src s.X_out.dst s.M_out.dst ({} : WInstr).dst s.executing.val_ex
        s.M_out.val_ex w.val_mem ({} : WInstr).val_ex ({} : WInstr).val_mem
        s.M_out.W_sigs.wval_sel ({} : WInstr).W_sigs.wval_sel s.X_out.W_sigs.w_enable
        s.M_out.W_sigs.w_enable ({} : WInstr).W_sigs.w_enable ((written s.W_out s.regs).read src) =
      forwardOne src s.X_out.dst s.M_out.dst s.W_out.dst s.executing.val_ex s.M_out.val_ex
        w.val_mem s.W_out.val_ex s.W_out.val_mem s.M_out.W_sigs.wval_sel
        s.W_out.W_sigs.wval_sel s.X_out.W_sigs.w_enable s.M_out.W_sigs.w_enable
        s.W_out.W_sigs.w_enable (s.regs.read src) :=
      fun src ↦ forwardOne_written h.shape.wf.W_out h.not_adr src _ _ _ _ _ _ _ _ _
    have ha : (decoded s.D_out (written s.W_out s.regs)).val_a =
        (written s.W_out s.regs).read s.D_out.src1 := rfl
    have hb : (decoded s.D_out (written s.W_out s.regs)).val_b =
        (written s.W_out s.regs).read s.D_out.src2 := rfl
    simp only [ha, hb, hval]
    rfl

/-- In a cycle that moves on, both make the same requests. -/
theorem Shadows.requests_eq {D_in D_in' : DInstr} {q q' : Mem × WInstr}
    (hD_in : D_in'.status.isStop = D_in.status.isStop) (hready : q.1.dmem_status ≠ .inFlight)
    (hready' : q'.1.dmem_status ≠ .inFlight)
    (hq : s.D_out.status.isStop = false → q'.2 = q.2) :
    t.requests D_in' q' = s.requests D_in q := by
  unfold Machine.requests
  rw [if_neg hready, if_neg hready']
  cases hD : s.D_out.status.isStop with
  | false =>
    have hX : s.X_out.status.isStop = false := by
      rw [Bool.eq_false_iff]
      exact fun hX ↦ Bool.eq_false_iff.mp hD (h.shape.stop_D hX)
    obtain ⟨hD', hX', -⟩ := h.same hD
    rw [hazardRequest_congr hD_in, hq hD, h.forwarded_eq hD, h.executing_eq hX, hD', hX']
  | true =>
    have hD' := h.D_out.isStop.trans hD
    obtain ⟨hsrc1, hsrc2⟩ := h.shape.wf.D_out.src_of_stop hD
    obtain ⟨hsrc1', hsrc2'⟩ := h.shape'.wf.D_out.src_of_stop hD'
    rw [hsrc1, hsrc2, hsrc1', hsrc2',
      hazardRequest_of_stop (h.shape.wf.D_out.status.isStop_iff.mp hD),
      hazardRequest_of_stop (h.shape'.wf.D_out.status.isStop_iff.mp hD'), hD_in, h.mispred_eq]

end

end SystemEmulator
