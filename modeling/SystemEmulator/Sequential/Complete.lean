import SystemEmulator.Sequential.Step
import SystemEmulator.Memory.Text

/-!
# Completed instructions

What is known of the sequential machine after an instruction that neither stops it nor runs
forever: at most one register, the flags and the data have changed, and no fault has been raised.
-/

namespace SystemEmulator

open Outcome Result

/-- An instruction that writes a register is neither a bubble nor a stop. -/
theorem StatusOk.aok {op : Opcode} {status : Stat} (h : StatusOk op status)
    (henable : (generateDXMWControl op).W_sigs.w_enable = true) : status = .aok := by
  rcases h with hstatus | ⟨hop, -⟩
  · rw [hstatus]
    revert henable
    cases op <;> intro henable <;> first | rfl | cases henable
  · rw [hop] at henable
    cases henable

/-- The statuses with which writeback lets an instruction pass. -/
def Stat.passes : Stat → Bool
  | .aok | .bub => true
  | _ => false

/-- The loop goes on as long as what leaves writeback passes. -/
theorem Machine.running_eq (s : Machine) : s.running = s.status.passes := by
  unfold Machine.running
  cases s.status <;> rfl

theorem ne_adr_of_passes {status : Stat} (h : status.passes = true) : status ≠ .adr := by
  rintro rfl
  cases h

/-- An instruction in writeback without an address fault that writes a register does write it. -/
theorem WInstr.WF.writes {w : WInstr} (h : w.WF) (hfault : w.status ≠ .adr) :
    (w.W_sigs.w_enable && w.status == .aok) = w.W_sigs.w_enable := by
  cases henable : w.W_sigs.w_enable with
  | false => rfl
  | true =>
    have hstatus := (h.status.resolve_left hfault).aok (h.W_sigs ▸ henable)
    rw [hstatus]
    rfl

theorem MInstr.WF.writes {m : MInstr} (h : m.WF) :
    (m.W_sigs.w_enable && m.status == .aok) = m.W_sigs.w_enable := by
  cases henable : m.W_sigs.w_enable with
  | false => rfl
  | true =>
    rw [h.status.aok (h.W_sigs ▸ henable)]
    rfl

theorem writeback_of_passes {w : WInstr} (h : w.status.passes = true) (pc : BitVec 64) (c : Core) :
    writeback w pc c = pure { c with
      regs := regfileWrite c.regs w.dst w.wval (w.W_sigs.w_enable && w.status == .aok) } := by
  unfold writeback
  cases hstatus : w.status <;> rw [hstatus] at h <;> first | rfl | cases h

theorem passes_of_writeback {w : WInstr} {pc : BitVec 64} {c c' : Core}
    (h : writeback w pc c = pure c') : w.status.passes = true := by
  unfold writeback at h
  cases hstatus : w.status with
  | bub => rfl
  | aok => rfl
  | hlt =>
    rw [hstatus] at h
    exact absurd h.symm pure_ne_throw
  | adr =>
    rw [hstatus] at h
    exact absurd h.symm pure_ne_throw
  | ins =>
    rw [hstatus] at h
    exact absurd h.symm pure_ne_throw

/-- The instruction `m` takes the sequential machine from `c` to `c'`. -/
structure Completes (m : MInstr) (c c' : Core) : Prop where
  passes : m.status.passes = true
  faults : m.faults c.mem = false
  regs : ∃ val_mem, c'.regs = regfileWrite c.regs m.dst
    (if m.W_sigs.wval_sel then val_mem else m.val_ex) (m.W_sigs.w_enable && m.status == .aok)
  NZCV : c'.NZCV = c.NZCV
  ready : c'.mem.dmem_status ≠ .inFlight
  frame : c.mem.Frame c'.mem
  safe : c.mem.Ok → c.mem.Safe c'.mem

/-- The invariant of the attempts: until one raises a fault, they are safe. -/
theorem completes_of_settle {m : MInstr} {c : Core} {mem : Mem} {w : WInstr}
    (hsettle : settle (accessed m) c.mem = some (.ok (mem, w))) :
    w.status.isError = m.faults c.mem ∧ mem.dmem_status ≠ .inFlight ∧ c.mem.Frame mem ∧
      (m.faults c.mem = false → c.mem.Ok → c.mem.Safe mem) ∧
      ∃ val_mem err, w = m.toWInstr val_mem err := by
  have hinv : ∀ n r, (c.mem.Frame n ∧ (m.faults c.mem = false → c.mem.Ok → c.mem.Safe n)) →
      accessed m n = .ok r →
        c.mem.Frame r.1 ∧ (m.faults c.mem = false → c.mem.Ok → c.mem.Safe r.1) := by
    rintro n r ⟨hframe, hsafe⟩ hacc
    refine ⟨hframe.trans (accessed_frame m n r hacc).1, fun hfaults hok ↦ ?_⟩
    have hn := hsafe hfaults hok
    exact hn.trans (accessed_safe hn.ok ((hframe.faults m).trans hfaults) r hacc)
  obtain ⟨n, hn, hacc, hready⟩ := exists_last_of_settle (fun n r hn hacc _ ↦ hinv n r hn hacc)
    c.mem _ hsettle ⟨Mem.Frame.refl _, fun _ hok ↦ Mem.Safe.refl hok⟩ _ rfl
  obtain ⟨hframe, hsafe⟩ := hinv n _ hn hacc
  obtain ⟨val_mem, err, -, hw⟩ := accessed_ok hacc
  refine ⟨?_, hready, hframe, hsafe, val_mem, err, hw⟩
  rw [(accessed_frame m n _ hacc).2, hn.1.faults]

theorem completes_of_access {m : MInstr} {c c' : Core} (h : access m c = pure c') :
    Completes m c c' := by
  unfold access at h
  cases hsettle : settle (accessed m) c.mem with
  | none =>
    rw [hsettle] at h
    exact absurd h.symm pure_ne_hang
  | some x => cases x with
    | error crash =>
      rw [hsettle] at h
      exact absurd h.symm pure_ne_throw
    | ok r =>
      obtain ⟨mem, w⟩ := r
      rw [hsettle] at h
      obtain ⟨herror, hready, hframe, hsafe, val_mem, err, hw⟩ := completes_of_settle hsettle
      have hpasses := passes_of_writeback h
      have hfaults : m.faults c.mem = false := by
        rw [← herror]
        revert hpasses
        cases w.status <;> intro hpasses <;> first | rfl | cases hpasses
      have hstatus : w.status = m.status := by
        cases err with
        | true =>
          rw [hw] at hpasses
          cases hpasses
        | false =>
          rw [hw]
          rfl
      simp only [writeback_of_passes hpasses] at h
      have hc' := pure_inj h
      refine ⟨hstatus ▸ hpasses, hfaults, ⟨val_mem, ?_⟩, ?_, ?_, ?_, ?_⟩
      · rw [← hc', ← hstatus]
        change regfileWrite c.regs w.dst w.wval _ = _
        rw [WInstr.wval, hw]
        rfl
      · rw [← hc']
      · rw [← hc']
        exact hready
      · rw [← hc']
        exact hframe
      · rw [← hc']
        exact hsafe hfaults

def XInstr.flags (x : XInstr) (nzcv : BitVec 8) : BitVec 8 :=
  if x.X_sigs.set_flags then (executed x nzcv).2 else nzcv

theorem execute_eq (x : XInstr) (c : Core) :
    execute x c = access (executed x c.NZCV).1 { c with NZCV := x.flags c.NZCV } := by
  unfold execute XInstr.flags
  cases x.X_sigs.set_flags <;> rfl

/-- An instruction that completes takes the memory to one that is ready and keeps the text. -/
structure Core.Reaches (c c' : Core) : Prop where
  ready : c'.mem.dmem_status ≠ .inFlight
  frame : c.mem.Frame c'.mem
  safe : c.mem.Ok → c.mem.Safe c'.mem

theorem Core.Reaches.trans {c₁ c₂ c₃ : Core} (h : c₁.Reaches c₂) (h' : c₂.Reaches c₃) :
    c₁.Reaches c₃ :=
  ⟨h'.ready, h.frame.trans h'.frame, fun hok ↦ (h.safe hok).trans (h'.safe (h.safe hok).ok)⟩

theorem Completes.reaches {m : MInstr} {c c' : Core} (h : Completes m c c') : c.Reaches c' :=
  ⟨h.ready, h.frame, h.safe⟩

theorem reaches_of_execute {x : XInstr} {c c' : Core} (h : execute x c = pure c') :
    c.Reaches c' := by
  rw [execute_eq] at h
  have hcompletes := completes_of_access h
  exact ⟨hcompletes.ready, hcompletes.frame, hcompletes.safe⟩

/-! ## The text that the machine goes on with -/

/-- The four bytes of an instruction word are pinned. -/
theorem pinned_of_imemErr {m : Mem} {pc : BitVec 64} (h : imemErr m pc = false) {i : ℕ}
    (hi : i < 4) : m.pinned (pc + BitVec.ofNat 64 i) := by
  unfold imemErr addrInImem at h
  rw [Bool.or_eq_false_iff, Bool.not_eq_false', Bool.and_eq_true, decide_eq_true_eq,
    decide_eq_true_eq, bne_eq_false_iff_eq] at h
  obtain ⟨⟨-, hlt⟩, haligned⟩ := h
  have hlow := congrArg BitVec.toNat haligned
  rw [BitVec.toNat_and] at hlow
  change pc.toNat &&& (2 ^ 2 - 1) = 0 at hlow
  rw [Nat.and_two_pow_sub_one_eq_mod] at hlow
  rw [BitVec.lt_def] at hlt
  unfold Mem.pinned
  rw [BitVec.toNat_add, BitVec.toNat_ofNat]
  omega

/-- The instruction at an address does not change while the text is kept. -/
theorem Mem.Safe.fetchedWord {m m' : Mem} (h : m.Safe m') {pc : BitVec 64}
    (hpc : imemErr m pc = false) :
    SystemEmulator.fetchedWord m'.ptable pc = SystemEmulator.fetchedWord m.ptable pc := by
  unfold SystemEmulator.fetchedWord
  rw [LittleEndian.word_congr fun i hi ↦ h.text _ (pinned_of_imemErr hpc hi)]

end SystemEmulator
