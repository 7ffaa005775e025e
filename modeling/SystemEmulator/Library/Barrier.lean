import Mathlib.Algebra.Group.Int.Defs
import Mathlib.Algebra.Group.Nat.Defs
import Mathlib.Data.Fintype.Card
import Mathlib.Data.Nat.Count
import Mathlib.Logic.Relation

/-!
# Barriers

A fixed number of parties wait at reusable barriers, each of them at the same barriers in the same
order.  A barrier counts the parties that have arrived; the last one completes a generation, and
with it all of them may go on.  However the parties are scheduled, those that do not wait are in one
common round, and never are all parties held.
-/

open Relation

universe u v

/-- The parties that have arrived in the present generation, and the completed generations. -/
structure Barrier where
  arrived : ℕ := 0
  generation : ℕ := 0
  deriving DecidableEq, Repr

namespace Barrier

/-- One of `n` parties arrives; the last one completes the generation. -/
def arrive (n : ℕ) (b : Barrier) : Barrier :=
  if b.arrived + 1 = n then { arrived := 0, generation := b.generation + 1 }
  else { b with arrived := b.arrived + 1 }

/-- A party that has arrived in generation `ticket` may go on. -/
def opened (b : Barrier) (ticket : ℕ) : Bool := decide (ticket < b.generation)

end Barrier

/-- The barriers, the number of waits that each party has behind it, and for a waiting party the
generation in which it has arrived. -/
structure Parties (ι : Type u) (β : Type v) where
  barrier : β → Barrier
  passed : ι → ℕ
  ticket : ι → Option ℕ

namespace Parties

variable {ι : Type u} {β : Type v}

/-- Nobody has arrived anywhere. -/
def init : Parties ι β := ⟨fun _ ↦ {}, fun _ ↦ 0, fun _ ↦ none⟩

def arrivals (s : Parties ι β) (i : ι) : ℕ :=
  s.passed i + if (s.ticket i).isSome then 1 else 0

theorem arrivals_of_none {s : Parties ι β} {i : ι} (h : s.ticket i = none) :
    s.arrivals i = s.passed i := by
  simp [arrivals, h]

theorem arrivals_of_some {s : Parties ι β} {i : ι} {g : ℕ} (h : s.ticket i = some g) :
    s.arrivals i = s.passed i + 1 := by
  simp [arrivals, h]

variable [Fintype ι] [DecidableEq β] (schedule : ℕ → β)

/-- The generations of a barrier that are complete after `r` rounds. -/
abbrev uses (b : β) (r : ℕ) : ℕ := Nat.count (fun k ↦ schedule k = b) r

def blocked (s : Parties ι β) (r : ℕ) : Finset ι := {i | s.arrivals i = r + 1}

/-- Every party has arrived in the `r` rounds before the present one, and some have arrived in it,
but not all. -/
structure InRound (s : Parties ι β) (r : ℕ) : Prop where
  passed_le : ∀ i, s.passed i ≤ r
  le_arrivals : ∀ i, r ≤ s.arrivals i
  ticket : ∀ i g, s.ticket i = some g → g = uses schedule (schedule (s.passed i)) (s.passed i)
  generation : ∀ b, (s.barrier b).generation = uses schedule b r
  arrived : ∀ b, (s.barrier b).arrived = if schedule r = b then (s.blocked r).card else 0
  missing : (s.blocked r).card < Fintype.card ι

namespace InRound

variable {schedule} {s : Parties ι β} {r : ℕ} (h : s.InRound schedule r)
include h

/-- A party that does not wait is in the present round. -/
theorem passed_of_none {i : ι} (hi : s.ticket i = none) : s.passed i = r := by
  have hle := h.passed_le i
  have harr := h.le_arrivals i
  rw [arrivals_of_none hi] at harr
  exact Nat.le_antisymm hle harr

/-- A waiting party is at most one round behind. -/
theorem passed_of_some {i : ι} {g : ℕ} (hi : s.ticket i = some g) :
    s.passed i ≤ r ∧ r ≤ s.passed i + 1 := by
  have harr := h.le_arrivals i
  rw [arrivals_of_some hi] at harr
  exact ⟨h.passed_le i, harr⟩

/-- A waiting party may go on if and only if its round is complete. -/
theorem opened_iff {i : ι} {g : ℕ} (hi : s.ticket i = some g) :
    (s.barrier (schedule (s.passed i))).opened g = true ↔ s.passed i < r := by
  rw [Barrier.opened, decide_eq_true_iff, h.ticket i g hi, h.generation]
  constructor
  · intro hlt
    by_contra hge
    exact absurd (Nat.count_monotone _ (Nat.le_of_not_lt hge)) (Nat.not_le_of_lt hlt)
  · intro hlt
    exact Nat.count_strict_mono rfl hlt

/-- Some party does not wait or may go on. -/
theorem exists_free : ∃ i, s.ticket i = none ∨
    ∃ g, s.ticket i = some g ∧ (s.barrier (schedule (s.passed i))).opened g = true := by
  obtain ⟨i, hi⟩ : ∃ i, i ∉ s.blocked r := by
    by_contra hall
    push Not at hall
    have huniv : s.blocked r = Finset.univ := Finset.eq_univ_of_forall hall
    have hcard := h.missing
    rw [huniv, Finset.card_univ] at hcard
    exact absurd hcard (Nat.lt_irrefl _)
  refine ⟨i, ?_⟩
  cases hticket : s.ticket i with
  | none => exact .inl rfl
  | some g =>
    refine .inr ⟨g, rfl, (h.opened_iff hticket).mpr ?_⟩
    have hne : s.arrivals i ≠ r + 1 := by
      simpa [blocked] using hi
    have hle := h.passed_le i
    rw [arrivals_of_some hticket] at hne
    omega

theorem not_mem_blocked {i : ι} (hi : s.ticket i = none) : i ∉ s.blocked r := by
  simp [blocked, arrivals_of_none hi, h.passed_of_none hi]

end InRound

/-! ## Steps -/

variable [DecidableEq ι]

def leave (s : Parties ι β) (i : ι) : Parties ι β :=
  { s with
    passed := Function.update s.passed i (s.passed i + 1)
    ticket := Function.update s.ticket i none }

omit [Fintype ι] [DecidableEq β] in
/-- Leaving a barrier is not an arrival. -/
theorem arrivals_leave {s : Parties ι β} {i : ι} {g : ℕ} (h : s.ticket i = some g) :
    (s.leave i).arrivals = s.arrivals := by
  funext j
  by_cases hj : j = i
  · subst hj
    simp [arrivals, leave, h]
  · simp [arrivals, leave, hj]

/-- A party arrives at the next barrier of the schedule. -/
def arrive (s : Parties ι β) (i : ι) : Parties ι β :=
  { s with
    barrier := Function.update s.barrier (schedule (s.passed i))
      ((s.barrier (schedule (s.passed i))).arrive (Fintype.card ι))
    ticket := Function.update s.ticket i (some (s.barrier (schedule (s.passed i))).generation) }

/-- One party arrives at a barrier or leaves one. -/
inductive Step (s : Parties ι β) : Parties ι β → Prop
  | arrive (i : ι) (h : s.ticket i = none) : Step s (s.arrive schedule i)
  | leave (i : ι) (g : ℕ) (h : s.ticket i = some g)
      (hopen : (s.barrier (schedule (s.passed i))).opened g = true) : Step s (s.leave i)

namespace InRound

variable {schedule} {s : Parties ι β} {r : ℕ} (h : s.InRound schedule r)
include h

theorem leave {i : ι} {g : ℕ} (hi : s.ticket i = some g)
    (hopen : (s.barrier (schedule (s.passed i))).opened g = true) :
    (s.leave i).InRound schedule r := by
  have hlt := (h.opened_iff hi).mp hopen
  have harrivals := arrivals_leave hi
  have hblocked : (s.leave i).blocked r = s.blocked r := by
    rw [blocked, blocked, harrivals]
  refine ⟨fun j ↦ ?_, fun j ↦ ?_, fun j g' hj ↦ ?_, h.generation, fun b ↦ ?_, ?_⟩
  · by_cases hji : j = i
    · subst hji
      simpa [Parties.leave] using Nat.succ_le_of_lt hlt
    · simpa [Parties.leave, hji] using h.passed_le j
  · rw [harrivals]
    exact h.le_arrivals j
  · by_cases hji : j = i
    · subst hji
      simp [Parties.leave] at hj
    · simp only [Parties.leave, Function.update_of_ne hji] at hj ⊢
      exact h.ticket j g' hj
  · rw [hblocked]
    exact h.arrived b
  · rw [hblocked]
    exact h.missing

/-- The party that arrives is counted. -/
theorem arrivals_arrive {i : ι} (hi : s.ticket i = none) (j : ι) :
    (s.arrive schedule i).arrivals j = if j = i then r + 1 else s.arrivals j := by
  have hr := h.passed_of_none hi
  by_cases hji : j = i
  · subst hji
    simp [arrivals, Parties.arrive, hr]
  · simp [arrivals, Parties.arrive, hji]

theorem blocked_arrive {i : ι} (hi : s.ticket i = none) :
    (s.arrive schedule i).blocked r = insert i (s.blocked r) := by
  refine Finset.ext fun j ↦ ?_
  simp only [blocked, Finset.mem_filter_univ, Finset.mem_insert, h.arrivals_arrive hi j]
  by_cases hji : j = i <;> simp [hji]

theorem ticket_arrive {i : ι} (hi : s.ticket i = none) (j : ι) (g : ℕ)
    (hj : (s.arrive schedule i).ticket j = some g) :
    g = uses schedule (schedule (s.passed j)) (s.passed j) := by
  by_cases hji : j = i
  · subst hji
    simp only [Parties.arrive, Function.update_self, Option.some.injEq] at hj
    rw [← hj, h.generation, h.passed_of_none hi]
  · simp only [Parties.arrive, Function.update_of_ne hji] at hj
    exact h.ticket j g hj

/-- An arrival that is not the last one of its round. -/
theorem arrive_of_ne {i : ι} (hi : s.ticket i = none)
    (hlast : (s.blocked r).card + 1 ≠ Fintype.card ι) :
    (s.arrive schedule i).InRound schedule r := by
  have hr := h.passed_of_none hi
  have hmissing := h.missing
  have hblocked := h.blocked_arrive hi
  have hcard : (insert i (s.blocked r)).card = (s.blocked r).card + 1 :=
    Finset.card_insert_of_notMem (h.not_mem_blocked hi)
  have harrived : (s.barrier (schedule r)).arrived = (s.blocked r).card := by
    rw [h.arrived, if_pos rfl]
  have hbarrier : (s.barrier (schedule r)).arrive (Fintype.card ι) =
      { s.barrier (schedule r) with arrived := (s.blocked r).card + 1 } := by
    rw [Barrier.arrive, harrived, if_neg hlast]
  refine ⟨h.passed_le, fun j ↦ ?_, h.ticket_arrive hi, fun b ↦ ?_, fun b ↦ ?_, ?_⟩
  · rw [h.arrivals_arrive hi]
    split
    · exact Nat.le_succ r
    · exact h.le_arrivals j
  · rw [← h.generation b]
    by_cases hb : b = schedule r
    · subst hb
      simp [Parties.arrive, hr, hbarrier]
    · simp [Parties.arrive, hr, hb]
  · rw [hblocked, hcard]
    by_cases hb : b = schedule r
    · subst hb
      simp [Parties.arrive, hr, hbarrier]
    · simp only [Parties.arrive, hr, Function.update_of_ne hb, h.arrived b, if_neg (Ne.symm hb)]
  · rw [hblocked, hcard]
    omega

/-- The last arrival completes the round. -/
theorem arrive_of_eq {i : ι} (hi : s.ticket i = none)
    (hlast : (s.blocked r).card + 1 = Fintype.card ι) :
    (s.arrive schedule i).InRound schedule (r + 1) := by
  have hr := h.passed_of_none hi
  have hall : ∀ j, (s.arrive schedule i).arrivals j = r + 1 := by
    intro j
    have huniv : (s.arrive schedule i).blocked r = Finset.univ := by
      refine Finset.eq_univ_of_card _ ?_
      rw [h.blocked_arrive hi, Finset.card_insert_of_notMem (h.not_mem_blocked hi), hlast]
    have hj := Finset.mem_univ j
    rw [← huniv] at hj
    simpa [blocked] using hj
  have hempty : (s.arrive schedule i).blocked (r + 1) = ∅ := by
    refine Finset.eq_empty_of_forall_notMem fun j hj ↦ ?_
    simp [blocked, hall j] at hj
  have harrived : (s.barrier (schedule r)).arrived = (s.blocked r).card := by
    rw [h.arrived, if_pos rfl]
  have hbarrier : (s.barrier (schedule r)).arrive (Fintype.card ι) =
      { arrived := 0, generation := (s.barrier (schedule r)).generation + 1 } := by
    rw [Barrier.arrive, harrived, if_pos hlast]
  refine ⟨fun j ↦ Nat.le_succ_of_le (h.passed_le j), fun j ↦ (hall j).ge, h.ticket_arrive hi,
    fun b ↦ ?_, fun b ↦ ?_, ?_⟩
  · rw [uses, Nat.count_succ, ← uses, ← h.generation b]
    by_cases hb : b = schedule r
    · subst hb
      simp [Parties.arrive, hr, hbarrier]
    · simp [Parties.arrive, hr, hb, Ne.symm hb]
  · rw [hempty, Finset.card_empty, ite_self]
    by_cases hb : b = schedule r
    · subst hb
      simp [Parties.arrive, hr, hbarrier]
    · simp [Parties.arrive, hr, hb, h.arrived b, Ne.symm hb]
  · rw [hempty, Finset.card_empty]
    exact Fintype.card_pos_iff.mpr ⟨i⟩

end InRound

variable {schedule}

theorem InRound.step {s s' : Parties ι β} {r : ℕ} (h : s.InRound schedule r)
    (hstep : Step schedule s s') : s'.InRound schedule r ∨ s'.InRound schedule (r + 1) := by
  cases hstep with
  | arrive i hi =>
    by_cases hlast : (s.blocked r).card + 1 = Fintype.card ι
    · exact .inr (h.arrive_of_eq hi hlast)
    · exact .inl (h.arrive_of_ne hi hlast)
  | leave i g hi hopen => exact .inl (h.leave hi hopen)

omit [DecidableEq ι] in
theorem inRound_init [Nonempty ι] : (init : Parties ι β).InRound schedule 0 := by
  have hempty : (init : Parties ι β).blocked 0 = ∅ := by
    refine Finset.eq_empty_of_forall_notMem fun j hj ↦ ?_
    simp [blocked, arrivals, init] at hj
  refine ⟨fun _ ↦ Nat.le_refl 0, fun _ ↦ Nat.zero_le _, ?_, fun b ↦ ?_, fun b ↦ ?_, ?_⟩
  · rintro i g ⟨⟩
  · rw [uses, Nat.count_zero]
    rfl
  · rw [hempty, Finset.card_empty, ite_self]
    rfl
  · rw [hempty, Finset.card_empty]
    exact Fintype.card_pos

end Parties
