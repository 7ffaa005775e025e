import SystemEmulator.Pipeline.Forwarding
import SystemEmulator.Sequential.Drain

/-!
# The drained pipeline across a cycle

In a cycle that is frozen, held or squashed the instructions in flight stay the same, and so does
what is reached when they are completed.
-/

namespace SystemEmulator

open Outcome Result

/-! ## Bubbles -/

theorem writeback_bubble (pc : BitVec 64) (c : Core) : writeback {} pc c = pure c := rfl

/-- An instruction that does nothing. -/
theorem execute_nop {x : XInstr} (h : x.WF) (hnop : x.op = .nop) {c : Core}
    (hmem : c.mem.dmem_status ≠ .inFlight) : execute x c = pure c := by
  rw [execute_idle h (by rw [hnop]; rfl) hmem, hnop]
  rfl

theorem drainX_nop {x : XInstr} (h : x.WF) (hnop : x.op = .nop) (d : DInstr) {c : Core}
    (hmem : c.mem.dmem_status ≠ .inFlight) : drainX x d c = drainD d c := by
  unfold drainX
  rw [execute_nop h hnop hmem, redirect_idle (by rw [hnop]; rfl), pure_bind]

/-! ## One cycle -/

section

variable {s s' : Machine} {r : Mem × DInstr × BitVec 64} {q : Mem × WInstr}

theorem drainFrom_of_passes (h : CycleEffect s r q s') (hW : s.W_out.status.passes = true)
    (mem : Mem) :
    drainFrom s ⟨s.regs, s.NZCV, mem⟩ =
      drainM s.M_out s.X_out s.D_out ⟨s'.regs, s.NZCV, mem⟩ := by
  unfold drainFrom
  rw [writeback_of_passes hW, pure_bind, h.regs]

def Machine.FetchesQuietly (s : Machine) : Prop :=
  generatesHlt pipeBuild s = true ∨ QuietFetch s.mem (currentPC pipeBuild s)

instance (s : Machine) : Decidable s.FetchesQuietly :=
  inferInstanceAs (Decidable (_ ∨ _))

theorem fetchResult_quiet (hquiet : s.FetchesQuietly)
    (hfetch : fetchResult pipeBuild s s.mem s.F_PC = .ok r) : s.mem.Same r.1 := by
  unfold fetchResult at hfetch
  cases hhlt : generatesHlt pipeBuild s with
  | true =>
    rw [hhlt] at hfetch
    cases hfetch
    exact Mem.Same.refl _
  | false =>
    rw [hhlt] at hfetch
    have hquiet' : QuietFetch s.mem (currentPC pipeBuild s) := by
      rcases hquiet with h | h
      · rw [hhlt] at h
        cases h
      · exact h
    obtain ⟨pt, himem, hpt⟩ := imem_quiet hquiet'
    obtain ⟨q, hq, rfl⟩ := map_eq_ok.mp hfetch
    rw [himem] at hq
    cases hq
    exact ⟨pt, rfl, hpt⟩

/-- The drained machine, seen after the fetch and the writeback of a cycle. -/
theorem drain_alike (h : CycleEffect s r q s') (hW : s.W_out.status.passes = true)
    (hquiet : s.FetchesQuietly) :
    Alike (drain s) (drainM s.M_out s.X_out s.D_out ⟨s'.regs, s.NZCV, r.1⟩) := by
  rw [← drainFrom_of_passes h hW]
  exact drainFrom_congr s ⟨rfl, rfl, fetchResult_quiet hquiet h.fetch⟩

/-- While a data access is in flight nothing happens but the writeback. -/
theorem drain_frozen (h : CycleEffect s r q s') (hW : s.W_out.status.passes = true)
    (hquiet : s.FetchesQuietly) (hflight : q.1.dmem_status = .inFlight) :
    Alike (drain s) (drain s') := by
  obtain ⟨-, hD, hX, hM, hW'⟩ := h.frozen hflight
  have hNZCV : s'.NZCV = s.NZCV := by
    rw [h.NZCV, hflight]
    rfl
  have haccess : SystemEmulator.access s.M_out ⟨s'.regs, s.NZCV, r.1⟩ =
      SystemEmulator.access s.M_out ⟨s'.regs, s.NZCV, q.1⟩ := by
    unfold SystemEmulator.access
    rw [settle_of_wait h.access hflight]
  have hdrain : drain s' = drainM s.M_out s.X_out s.D_out ⟨s'.regs, s.NZCV, r.1⟩ := by
    unfold drain drainFrom Machine.core
    rw [hW', writeback_bubble, pure_bind, hD, hX, hM, hNZCV, h.mem]
    unfold drainM
    rw [haccess]
  rw [hdrain]
  exact drain_alike h hW hquiet

/-- The data access of a cycle that moves on. -/
theorem access_of_ready (h : CycleEffect s r q s') (hready : q.1.dmem_status ≠ .inFlight)
    (regs : Regs) (nzcv : BitVec 8) :
    SystemEmulator.access s.M_out ⟨regs, nzcv, r.1⟩ =
      writeback q.2 (s.M_out.multipurpose_val - 4) ⟨regs, nzcv, q.1⟩ := by
  unfold SystemEmulator.access
  rw [settle_of_done h.access hready]

/-- The core after the instruction in memory, with the flags of the one in execute. -/
def Machine.advanced (s s' : Machine) (q : Mem × WInstr) : Core where
  regs := regfileWrite s'.regs q.2.dst q.2.wval (q.2.W_sigs.w_enable && q.2.status == .aok)
  NZCV := s.flags
  mem := q.1

/-- The statuses of the instruction in memory and of what the stage hands on. -/
theorem status_of_accessed {m : MInstr} {mem : Mem} (h : accessed m mem = .ok q) :
    q.2.status = .adr ∨ q.2.status = m.status := by
  obtain ⟨val_mem, err, -, hw⟩ := accessed_ok h
  rw [hw]
  cases err with
  | true => exact .inl rfl
  | false => exact .inr rfl

/-- A data access stops nothing. -/
theorem isStop_of_accessed {m : MInstr} {mem : Mem} (h : accessed m mem = .ok q)
    (hstop : q.2.status.isStop = true) : m.status.isStop = true := by
  rcases status_of_accessed h with hadr | heq
  · rw [hadr] at hstop
    cases hstop
  · rwa [← heq]

theorem status_of_not_error {m : MInstr} {mem : Mem} (h : accessed m mem = .ok q)
    (herror : q.2.status.isError = false) : q.2.status = m.status := by
  rcases status_of_accessed h with hadr | heq
  · rw [hadr] at herror
    cases herror
  · exact heq

theorem isError_of_passes {status : Stat} (h : status.passes = true) : status.isError = false := by
  cases status <;> first | rfl | cases h

theorem passes_of_not_stop {status : Stat} (hstop : status.isStop = false)
    (herror : status.isError = false) : status.passes = true := by
  revert hstop herror
  cases status <;> intro hstop herror <;> first
    | rfl
    | (cases hstop; done)
    | cases herror

theorem CycleEffect.NZCV_of_passes (h : CycleEffect s r q s')
    (hready : q.1.dmem_status ≠ .inFlight) (hq : q.2.status.passes = true) :
    s'.NZCV = s.flags := by
  have hflight : (q.1.dmem_status == .inFlight) = false := beq_false_of_ne hready
  have herror := isError_of_passes hq
  rw [h.NZCV, hflight, ← status_of_not_error h.access herror, herror]
  rfl

/-- After a cycle that moves on, an instruction that has passed the memory stage waits in writeback
with the flags of the next one already committed. -/
theorem drain_after (h : CycleEffect s r q s') (hready : q.1.dmem_status ≠ .inFlight)
    (hq : q.2.status.passes = true) :
    drain s' = drainM s.executing s'.X_out s'.D_out (s.advanced s' q) := by
  obtain ⟨hM, hW'⟩ := h.moves hready
  unfold drain drainFrom Machine.core
  rw [hW', writeback_of_passes hq, pure_bind, hM, h.NZCV_of_passes hready hq, h.mem]
  rfl

/-- The drained machine after the instruction in memory. -/
def Machine.drainAfter (s : Machine) (c : Core) : ExceptT Halt Option (Core × Option (BitVec 64)) :=
  if s.M_out.mispredicted then pure ({ c with NZCV := s.NZCV }, some s.M_out.multipurpose_val)
  else do
    let c' ← access s.executing c
    match s.X_out.redirect s.NZCV with
    | some pc => pure (c', some pc)
    | none => drainD s.D_out c'

theorem drain_before (h : CycleEffect s r q s') (hW : s.W_out.status.passes = true)
    (hquiet : s.FetchesQuietly) (hready : q.1.dmem_status ≠ .inFlight)
    (hq : q.2.status.passes = true) :
    Alike (drain s) (s.drainAfter (s.advanced s' q)) := by
  have hdrain : drainM s.M_out s.X_out s.D_out ⟨s'.regs, s.NZCV, r.1⟩ =
      s.drainAfter (s.advanced s' q) := by
    unfold drainM Machine.drainAfter drainX
    rw [access_of_ready h hready, writeback_of_passes hq, pure_bind, execute_eq]
    rfl
  rw [← hdrain]
  exact drain_alike h hW hquiet

/-- A fault or a stop that leaves the memory stage is all that remains. -/
theorem drain_stopped (hs : s.M_out.status.isStop = true → s.X_out.op = .hlt) (hwf : s.X_out.WF)
    (h : CycleEffect s r q s') (hW : s.W_out.status.passes = true) (hquiet : s.FetchesQuietly)
    (hready : q.1.dmem_status ≠ .inFlight) (hq : q.2.status.passes = false) :
    ∃ e, drain s' = throw e ∧ Alike (drain s) (throw e) := by
  obtain ⟨-, hW'⟩ := h.moves hready
  have hflight : (q.1.dmem_status == .inFlight) = false := beq_false_of_ne hready
  have hNZCV : s'.NZCV = s.NZCV := by
    rw [h.NZCV]
    split
    · rfl
    · next hcond =>
      have hhlt : s.M_out.status = .hlt := by
        rcases status_of_accessed h.access with hadr | heq
        · rw [hadr] at hcond
          simp [Stat.isError] at hcond
        · rw [heq] at hq hcond
          revert hq hcond
          cases s.M_out.status <;> simp [Stat.isError, Stat.passes]
      have hX := hs (by rw [hhlt]; rfl)
      unfold Machine.flags
      rw [hwf.X_sigs, hX]
      rfl
  have hPC : q.2.status.isError = true → s'.PC = s.M_out.multipurpose_val - 4 := by
    intro herror
    rw [h.PC, if_pos herror]
  have hthrow : ∃ e, writeback q.2 (s.M_out.multipurpose_val - 4) ⟨s'.regs, s.NZCV, q.1⟩ = throw e ∧
      writeback q.2 s'.PC ⟨s'.regs, s.NZCV, q.1⟩ = throw e := by
    unfold writeback
    cases hstatus : q.2.status with
    | bub =>
      rw [hstatus] at hq
      cases hq
    | aok =>
      rw [hstatus] at hq
      cases hq
    | hlt => exact ⟨_, rfl, rfl⟩
    | adr =>
      rw [hPC (by rw [hstatus]; rfl)]
      exact ⟨_, rfl, rfl⟩
    | ins =>
      rw [hPC (by rw [hstatus]; rfl)]
      exact ⟨_, rfl, rfl⟩
  obtain ⟨e, hbefore, hafter⟩ := hthrow
  refine ⟨e, ?_, ?_⟩
  · unfold drain drainFrom Machine.core
    rw [hW', hNZCV, h.mem, hafter, throw_bind]
  · have halike := drain_alike h hW hquiet
    unfold drainM at halike
    rwa [access_of_ready h hready, hbefore, throw_bind] at halike

end

end SystemEmulator
