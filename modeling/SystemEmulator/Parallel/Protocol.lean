import SystemEmulator.Base.Threads
import Mathlib.Data.Fintype.Option

/-!
# The barriers of the parallel build

All six threads wait at `cycle_start` and `cycle_end` in turn.  What a step of each thread does is
collected here, and the threads are read as the parties of a barrier protocol.
-/

namespace SystemEmulator

theorem Threads.mem_stages (p : ProcStage) : p ∈ Threads.stages := by
  cases p <;> decide

theorem Threads.nodup_stages : Threads.stages.Nodup := by
  decide

instance : Fintype ProcStage where
  elems := ⟨Threads.stages, Threads.nodup_stages⟩
  complete := Threads.mem_stages

/-- The barriers in the order in which each thread waits at them. -/
def cycleBarriers (k : ℕ) : CycleBarrier := if k % 2 = 0 then .cycle_start else .cycle_end

namespace StagePC

/-- The generation in which a waiting thread has arrived. -/
def ticket : StagePC → Option ℕ
  | .bornWait ticket | .endWait ticket | .startWait ticket => some ticket
  | _ => none

/-- The parity of the number of waits that the thread has behind it. -/
def parity : StagePC → ℕ
  | .stage | .cycleEnd | .endWait _ | .test | .exited => 1
  | _ => 0

def beforeLoop : StagePC → Bool
  | .unborn | .born | .bornWait _ => true
  | _ => false

/-- The barrier at which the thread is about to arrive, and its place while it waits. -/
def arrival : StagePC → Option (CycleBarrier × (ℕ → StagePC))
  | .born => some (.cycle_start, .bornWait)
  | .cycleEnd => some (.cycle_end, .endWait)
  | .cycleStart => some (.cycle_start, .startWait)
  | _ => none

/-- The barrier at which the thread waits, its ticket, and its place behind the wait. -/
def departure : StagePC → Option (CycleBarrier × ℕ × StagePC)
  | .bornWait ticket => some (.cycle_start, ticket, .stage)
  | .endWait ticket => some (.cycle_end, ticket, .cycleStart)
  | .startWait ticket => some (.cycle_start, ticket, .test)
  | _ => none

/-- A thread arrives where its schedule says. -/
theorem arrival_spec {pc : StagePC} {b : CycleBarrier} {wait : ℕ → StagePC}
    (h : pc.arrival = some (b, wait)) (g : ℕ) :
    pc.ticket = none ∧ (wait g).ticket = some g ∧ (wait g).parity = pc.parity ∧
      (wait g).beforeLoop = pc.beforeLoop ∧ ∀ k, k % 2 = pc.parity → cycleBarriers k = b := by
  cases pc <;> cases h <;> refine ⟨rfl, rfl, rfl, rfl, fun k hk ↦ ?_⟩ <;>
    simp only [parity] at hk <;> simp [cycleBarriers, hk]

theorem departure_spec {pc pc' : StagePC} {b : CycleBarrier} {g : ℕ}
    (h : pc.departure = some (b, g, pc')) :
    pc.ticket = some g ∧ pc'.ticket = none ∧ pc'.beforeLoop = false ∧
      ∀ k, k % 2 = pc.parity → cycleBarriers k = b ∧ (k + 1) % 2 = pc'.parity := by
  cases pc <;> cases h <;> refine ⟨rfl, rfl, rfl, fun k hk ↦ ?_⟩ <;>
    simp only [parity] at hk ⊢ <;> simp only [cycleBarriers, hk] <;> refine ⟨rfl, ?_⟩ <;> omega

end StagePC

namespace MainPC

/-- The generation in which `runElf` has arrived. -/
def ticket : MainPC → Option ℕ
  | .startWait ticket | .endWait ticket | .lastWait ticket => some ticket
  | _ => none

/-- The waits since `num_instr` has been increased. -/
def phase : MainPC → ℕ
  | .cycleEnd | .endWait _ | .join _ | .destroy | .returned => 1
  | .correct => 2
  | _ => 0

def arrival : MainPC → Option (CycleBarrier × (ℕ → MainPC))
  | .cycleStart => some (.cycle_start, .startWait)
  | .cycleEnd => some (.cycle_end, .endWait)
  | .lastStart => some (.cycle_start, .lastWait)
  | _ => none

def departure : MainPC → Option (CycleBarrier × ℕ × MainPC)
  | .startWait ticket => some (.cycle_start, ticket, .cycleEnd)
  | .endWait ticket => some (.cycle_end, ticket, .correct)
  | .lastWait ticket => some (.cycle_start, ticket, .join Threads.stages)
  | _ => none

/-- `running_sim` has not been cleared. -/
def looping : MainPC → Bool
  | .lastStart | .lastWait _ | .join _ | .destroy | .returned => false
  | _ => true

def pending : MainPC → List ProcStage
  | .create stages | .join stages => stages
  | _ => []

def creates : MainPC → ProcStage → Prop
  | .create stages, p => p ∈ stages
  | _, _ => False

def joined : MainPC → ProcStage → Prop
  | .join stages, p => p ∉ stages
  | .destroy, _ | .returned, _ => True
  | _, _ => False

theorem arrival_spec {pc : MainPC} {b : CycleBarrier} {wait : ℕ → MainPC}
    (h : pc.arrival = some (b, wait)) (g n : ℕ) :
    pc.ticket = none ∧ (wait g).ticket = some g ∧ (wait g).phase = pc.phase ∧
      cycleBarriers (2 * n + pc.phase) = b := by
  cases pc <;> cases h <;> refine ⟨rfl, rfl, rfl, ?_⟩ <;> simp [cycleBarriers, phase]

/-- An arrival changes nothing but the ticket. -/
theorem arrival_frame {pc : MainPC} {b : CycleBarrier} {wait : ℕ → MainPC}
    (h : pc.arrival = some (b, wait)) (g : ℕ) :
    (wait g).looping = pc.looping ∧ (∀ p, ¬pc.creates p) ∧ (∀ stages, wait g ≠ .create stages) ∧
      (wait g).pending.Nodup ∧ (∀ p, ¬(wait g).joined p) ∧ wait g ≠ .stop := by
  cases pc <;> cases h <;>
    exact ⟨rfl, fun _ hp ↦ hp, nofun, List.nodup_nil, fun _ hp ↦ hp, nofun⟩

theorem departure_frame {pc pc' : MainPC} {b : CycleBarrier} {g : ℕ}
    (h : pc.departure = some (b, g, pc')) :
    pc'.looping = pc.looping ∧ (∀ p, ¬pc.creates p) ∧ (∀ stages, pc' ≠ .create stages) ∧
      pc'.pending.Nodup ∧ (∀ p, ¬pc'.joined p) ∧ pc' ≠ .stop := by
  cases pc <;> cases h <;> refine ⟨rfl, fun _ hp ↦ hp, nofun, ?_, fun p hp ↦ ?_, nofun⟩
  · exact List.nodup_nil
  · exact hp
  · exact List.nodup_nil
  · exact hp
  · exact Threads.nodup_stages
  · exact hp (Threads.mem_stages p)

theorem departure_spec {pc pc' : MainPC} {b : CycleBarrier} {g : ℕ}
    (h : pc.departure = some (b, g, pc')) (n : ℕ) :
    pc.ticket = some g ∧ pc'.ticket = none ∧ pc'.phase = pc.phase + 1 ∧
      cycleBarriers (2 * n + pc.phase) = b := by
  cases pc <;> cases h <;> refine ⟨rfl, rfl, rfl, ?_⟩ <;> simp [cycleBarriers, phase]

end MainPC

namespace Threads

/-! ## Steps -/

/-- What a step of the thread of a stage does. -/
inductive StageStep (build : Build) (p : ProcStage) (t : Threads) : Threads → Prop
  | arrive (b : CycleBarrier) (pc : ℕ → StagePC) (h : (t.stage p).arrival = some (b, pc)) :
      StageStep build p t ((t.moveTo p (pc (t.barrier b).generation)).arrive b)
  | leave (b : CycleBarrier) (ticket : ℕ) (pc : StagePC)
      (h : (t.stage p).departure = some (b, ticket, pc))
      (hopen : (t.barrier b).opened ticket = true) : StageStep build p t (t.moveTo p pc)
  | call (machine : Machine) (h : t.stage p = .stage)
      (hcall : runStage build t.machine p = .ok machine) :
      StageStep build p t { t.moveTo p .cycleEnd with machine := machine }
  | test (h : t.stage p = .test) :
      StageStep build p t (t.moveTo p (if t.running_sim then .stage else .exited))

/-- What a step of `runElf` does. -/
inductive MainStep (build : Build) (cycle_max : ℕ) (t : Threads) : Threads → Prop
  | arrive (b : CycleBarrier) (pc : ℕ → MainPC) (h : t.main.arrival = some (b, pc)) :
      MainStep build cycle_max t { t.arrive b with main := pc (t.barrier b).generation }
  | leave (b : CycleBarrier) (ticket : ℕ) (pc : MainPC)
      (h : t.main.departure = some (b, ticket, pc)) (hopen : (t.barrier b).opened ticket = true) :
      MainStep build cycle_max t { t with main := pc }
  | create (p : ProcStage) (stages : List ProcStage) (h : t.main = .create (p :: stages)) :
      MainStep build cycle_max t { t.moveTo p .born with main := .create stages }
  | created (h : t.main = .create []) :
      MainStep build cycle_max t { t with main := .cycleStart }
  | correct (h : t.main = .correct) :
      MainStep build cycle_max t
        { t with
          machine := finishCycle build t.machine
          num_instr := t.num_instr + 1
          main := if (finishCycle build t.machine).running && decide (t.num_instr + 1 < cycle_max)
            then .cycleStart else .stop }
  | stop (h : t.main = .stop) :
      MainStep build cycle_max t { t with running_sim := false, main := .lastStart }
  | join (p : ProcStage) (stages : List ProcStage) (h : t.main = .join (p :: stages))
      (hexit : t.stage p = .exited) : MainStep build cycle_max t { t with main := .join stages }
  | joined (h : t.main = .join []) : MainStep build cycle_max t { t with main := .destroy }
  | destroy (h : t.main = .destroy) : MainStep build cycle_max t { t with main := .returned }

variable {build : Build} {cycle_max : ℕ} {t t' : Threads}

/-- The five threads differ in the function that they call. -/
theorem stepStage_eq (build : Build) (p : ProcStage) (t : Threads) :
    stepStage build p t = startStage (fun s ↦ runStage build s p) p t := by
  cases p <;> rfl

theorem stageStep_of_step {p : ProcStage} (h : t.step build cycle_max (some p) = some (.ok t')) :
    StageStep build p t t' := by
  change stepStage build p t = _ at h
  rw [stepStage_eq, startStage] at h
  have harrive : ∀ b pc, (t.stage p).arrival = some (b, pc) →
      (t.moveTo p (pc (t.barrier b).generation)).arrive b = t' → StageStep build p t t' := by
    rintro b pc harr rfl
    exact .arrive b pc harr
  have hleave : ∀ b ticket pc, (t.stage p).departure = some (b, ticket, pc) →
      (if (t.barrier b).opened ticket then some (.ok (t.moveTo p pc)) else none :
        Option (Except Crash Threads)) = some (.ok t') → StageStep build p t t' := by
    intro b ticket pc hdep hif
    by_cases hopen : (t.barrier b).opened ticket = true
    · rw [if_pos hopen] at hif
      obtain rfl := Except.ok.inj (Option.some.inj hif)
      exact .leave b ticket pc hdep hopen
    · rw [if_neg hopen] at hif
      cases hif
  cases hpc : t.stage p with
  | unborn => rw [hpc] at h; cases h
  | exited => rw [hpc] at h; cases h
  | born =>
    rw [hpc] at h
    exact harrive _ _ (by rw [hpc]; rfl) (Except.ok.inj (Option.some.inj h))
  | cycleEnd =>
    rw [hpc] at h
    exact harrive _ _ (by rw [hpc]; rfl) (Except.ok.inj (Option.some.inj h))
  | cycleStart =>
    rw [hpc] at h
    exact harrive _ _ (by rw [hpc]; rfl) (Except.ok.inj (Option.some.inj h))
  | bornWait ticket =>
    rw [hpc] at h
    exact hleave _ ticket _ (by rw [hpc]; rfl) h
  | endWait ticket =>
    rw [hpc] at h
    exact hleave _ ticket _ (by rw [hpc]; rfl) h
  | startWait ticket =>
    rw [hpc] at h
    exact hleave _ ticket _ (by rw [hpc]; rfl) h
  | stage =>
    rw [hpc] at h
    have hmap := Option.some.inj h
    cases hcall : runStage build t.machine p with
    | error crash => rw [hcall] at hmap; cases hmap
    | ok machine =>
      rw [hcall] at hmap
      obtain rfl := Except.ok.inj hmap
      exact .call machine hpc hcall
  | test =>
    rw [hpc] at h
    obtain rfl := Except.ok.inj (Option.some.inj h)
    exact .test hpc

theorem mainStep_of_step (h : t.step build cycle_max none = some (.ok t')) :
    MainStep build cycle_max t t' := by
  obtain ⟨u, hu, hok⟩ := Option.map_eq_some_iff.mp h
  obtain rfl := Except.ok.inj hok
  rw [stepMain] at hu
  have hleave : ∀ b ticket pc, t.main.departure = some (b, ticket, pc) →
      (if (t.barrier b).opened ticket then some { t with main := pc } else none) = some u →
        MainStep build cycle_max t u := by
    intro b ticket pc hdep hif
    by_cases hopen : (t.barrier b).opened ticket = true
    · rw [if_pos hopen] at hif
      obtain rfl := Option.some.inj hif
      exact .leave b ticket pc hdep hopen
    · rw [if_neg hopen] at hif
      cases hif
  cases hpc : t.main with
  | create stages =>
    rw [hpc] at hu
    cases stages with
    | nil =>
      obtain rfl := Option.some.inj hu
      exact .created hpc
    | cons p stages =>
      obtain rfl := Option.some.inj hu
      exact .create p stages hpc
  | cycleStart =>
    rw [hpc] at hu
    obtain rfl := Option.some.inj hu
    exact .arrive .cycle_start .startWait (by rw [hpc]; rfl)
  | startWait ticket =>
    rw [hpc] at hu
    exact hleave _ ticket _ (by rw [hpc]; rfl) hu
  | cycleEnd =>
    rw [hpc] at hu
    obtain rfl := Option.some.inj hu
    exact .arrive .cycle_end .endWait (by rw [hpc]; rfl)
  | endWait ticket =>
    rw [hpc] at hu
    exact hleave _ ticket _ (by rw [hpc]; rfl) hu
  | correct =>
    rw [hpc] at hu
    obtain rfl := Option.some.inj hu
    exact .correct hpc
  | stop =>
    rw [hpc] at hu
    obtain rfl := Option.some.inj hu
    exact .stop hpc
  | lastStart =>
    rw [hpc] at hu
    obtain rfl := Option.some.inj hu
    exact .arrive .cycle_start .lastWait (by rw [hpc]; rfl)
  | lastWait ticket =>
    rw [hpc] at hu
    exact hleave _ ticket _ (by rw [hpc]; rfl) hu
  | join stages =>
    rw [hpc] at hu
    cases stages with
    | nil =>
      obtain rfl := Option.some.inj hu
      exact .joined hpc
    | cons p stages =>
      by_cases hexit : t.stage p = .exited
      · simp only [hexit, ↓reduceIte] at hu
        obtain rfl := Option.some.inj hu
        exact .join p stages hpc hexit
      · simp only [hexit, ↓reduceIte] at hu
        cases hu
  | destroy =>
    rw [hpc] at hu
    obtain rfl := Option.some.inj hu
    exact .destroy hpc
  | returned => rw [hpc] at hu; cases hu

/-! ## Rounds -/

/-- The generation in which a waiting thread has arrived. -/
def ticket (t : Threads) : Option ProcStage → Option ℕ
  | none => t.main.ticket
  | some p => (t.stage p).ticket

/-- The threads as parties that have the given numbers of waits behind them. -/
def parties (t : Threads) (passed : Option ProcStage → ℕ) :
    Parties (Option ProcStage) CycleBarrier := ⟨t.barrier, passed, t.ticket⟩

/-- The waits that the threads have behind them after a step of thread `i`. -/
def advance (t : Threads) (i : Option ProcStage) (passed : Option ProcStage → ℕ) :
    Option ProcStage → ℕ :=
  if (t.ticket i).isSome then Function.update passed i (passed i + 1) else passed

/-- The threads have the given numbers of waits behind them, and `r` rounds are complete. -/
structure Synced (t : Threads) (passed : Option ProcStage → ℕ) (r : ℕ) : Prop where
  inRound : (t.parties passed).InRound cycleBarriers r
  main : passed none = 2 * t.num_instr + t.main.phase
  parity : ∀ p, passed (some p) % 2 = (t.stage p).parity
  beforeLoop : ∀ p, (t.stage p).beforeLoop = true → passed (some p) = 0

section

variable {passed : Option ProcStage → ℕ} {p : ProcStage} {b : CycleBarrier}

theorem ticket_moveTo (t : Threads) (p : ProcStage) (pc : StagePC) :
    (t.moveTo p pc).ticket = Function.update t.ticket (some p) pc.ticket := by
  funext i
  cases i with
  | none => rfl
  | some q =>
    by_cases hq : q = p
    · subst hq
      simp [ticket, moveTo]
    · simp [ticket, moveTo, hq]

theorem ticket_main (t : Threads) (pc : MainPC) :
    { t with main := pc }.ticket = Function.update t.ticket none pc.ticket := by
  funext i
  cases i with
  | none => rfl
  | some q => simp [ticket]

/-- A step of a thread whose ticket stays away changes nothing for the barriers. -/
theorem parties_moveTo {pc : StagePC} (h : (t.stage p).ticket = none) (hpc : pc.ticket = none) :
    (t.moveTo p pc).parties passed = t.parties passed := by
  have hticket : (t.moveTo p pc).ticket = t.ticket := by
    rw [ticket_moveTo, hpc, ← h]
    exact Function.update_eq_self (some p) t.ticket
  unfold parties
  rw [hticket]
  rfl

theorem parties_arrive_stage {wait : ℕ → StagePC} (h : (t.stage p).arrival = some (b, wait))
    (hb : cycleBarriers (passed (some p)) = b) :
    ((t.moveTo p (wait (t.barrier b).generation)).arrive b).parties passed =
      (t.parties passed).arrive cycleBarriers (some p) := by
  obtain ⟨-, hticket, -⟩ := StagePC.arrival_spec h (t.barrier b).generation
  have htickets := ticket_moveTo t p (wait (t.barrier b).generation)
  rw [hticket] at htickets
  subst hb
  exact congrArg (Parties.mk _ passed) htickets

theorem parties_arrive_main {wait : ℕ → MainPC} (h : t.main.arrival = some (b, wait))
    (hb : cycleBarriers (passed none) = b) :
    { t.arrive b with main := wait (t.barrier b).generation }.parties passed =
      (t.parties passed).arrive cycleBarriers none := by
  obtain ⟨-, hticket, -⟩ := MainPC.arrival_spec h (t.barrier b).generation 0
  have htickets := ticket_main t (wait (t.barrier b).generation)
  rw [hticket] at htickets
  subst hb
  exact congrArg (Parties.mk _ passed) htickets

theorem parties_leave_stage {pc : StagePC} {g : ℕ} (h : (t.stage p).departure = some (b, g, pc)) :
    (t.moveTo p pc).parties (t.advance (some p) passed) = (t.parties passed).leave (some p) := by
  obtain ⟨hticket, hnone, -⟩ := StagePC.departure_spec h
  have htickets := ticket_moveTo t p pc
  rw [hnone] at htickets
  have hadvance : t.advance (some p) passed =
      Function.update passed (some p) (passed (some p) + 1) := by
    rw [advance, show t.ticket (some p) = some g from hticket]
    rfl
  rw [hadvance]
  exact congrArg (Parties.mk _ _) htickets

theorem parties_leave_main {pc : MainPC} {g : ℕ} (h : t.main.departure = some (b, g, pc)) :
    { t with main := pc }.parties (t.advance none passed) = (t.parties passed).leave none := by
  obtain ⟨hticket, hnone, -⟩ := MainPC.departure_spec h 0
  have htickets := ticket_main t pc
  rw [hnone] at htickets
  have hadvance : t.advance none passed = Function.update passed none (passed none + 1) := by
    rw [advance, show t.ticket none = some g from hticket]
    rfl
  rw [hadvance]
  exact congrArg (Parties.mk _ _) htickets

end

end Threads

end SystemEmulator
