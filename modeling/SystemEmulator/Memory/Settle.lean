import SystemEmulator.Memory.Content

/-!
# Settled accesses

The memory stage repeats an access as long as it is in flight.
-/

namespace SystemEmulator

open Result

/-- An access is repeated as long as it is in flight; it may go on forever. -/
def Mem.settle {α : Type} (access : Mem → Except Crash (Mem × α)) (m : Mem) :
    Option (Except Crash (Mem × α)) :=
  match access m with
  | .error crash => some (.error crash)
  | .ok r => if r.1.dmem_status = .inFlight then r.1 |>.settle access else some (.ok r)
partial_fixpoint

export Mem (settle)

section

variable {α : Type} {access : Mem → Except Crash (Mem × α)} {m : Mem}

theorem settle_of_error {crash : Crash} (h : access m = .error crash) :
    settle access m = some (.error crash) := by
  rw [settle, h]

theorem settle_of_wait {r : Mem × α} (h : access m = .ok r) (hwait : r.1.dmem_status = .inFlight) :
    settle access m = settle access r.1 := by
  conv_lhs => rw [settle, h]
  exact if_pos hwait

theorem settle_of_done {r : Mem × α} (h : access m = .ok r) (hdone : r.1.dmem_status ≠ .inFlight) :
    settle access m = some (.ok r) := by
  rw [settle, h]
  exact if_neg hdone

/-- What every attempt that waits preserves holds before the attempt that does not. -/
theorem exists_last_of_settle {P : Mem → Prop}
    (hwait : ∀ m r, P m → access m = .ok r → r.1.dmem_status = .inFlight → P r.1) (m : Mem)
    (x : Except Crash (Mem × α)) (h : settle access m = some x) : P m → ∀ r, x = .ok r →
      ∃ m', P m' ∧ access m' = .ok r ∧ r.1.dmem_status ≠ .inFlight := by
  refine Mem.settle.partial_correctness access (fun m x ↦ P m → ∀ r, x = .ok r →
      ∃ m', P m' ∧ access m' = .ok r ∧ r.1.dmem_status ≠ .inFlight) ?_ m x h
  intro rec ih m x hx hm r hr
  cases hacc : access m with
  | error crash =>
    rw [hacc] at hx
    cases hx
    cases hr
  | ok r' =>
    rw [hacc] at hx
    by_cases hflight : r'.1.dmem_status = .inFlight
    · simp only [hflight, ↓reduceIte] at hx
      exact ih r'.1 x hx (hwait m r' hm hacc hflight) r hr
    · simp only [hflight, ↓reduceIte, Option.some.injEq] at hx
      obtain rfl : r' = r := Except.ok.inj (hx.trans hr)
      exact ⟨m, hm, hacc, hflight⟩

/-- After at most `k` attempts the access is not in flight any more. -/
def SettlesIn {α : Type} (access : Mem → Except Crash (Mem × α)) : ℕ → Mem → Prop
  | 0, m => ∀ r, access m = .ok r → r.1.dmem_status ≠ .inFlight
  | k + 1, m => ∀ r, access m = .ok r → r.1.dmem_status = .inFlight → SettlesIn access k r.1

/-- An access that settles does so after finitely many attempts. -/
theorem settlesIn_of_settle (m : Mem) (x : Except Crash (Mem × α)) (h : settle access m = some x) :
    ∃ k, SettlesIn access k m := by
  refine Mem.settle.partial_correctness access (fun m _ ↦ ∃ k, SettlesIn access k m) ?_ m x h
  intro rec ih m x hx
  cases hacc : access m with
  | error crash =>
    refine ⟨0, fun r hr ↦ ?_⟩
    rw [hacc] at hr
    cases hr
  | ok r =>
    rw [hacc] at hx
    by_cases hflight : r.1.dmem_status = .inFlight
    · simp only [hflight, ↓reduceIte] at hx
      obtain ⟨k, hk⟩ := ih r.1 x hx
      refine ⟨k + 1, fun r' hr' _ ↦ ?_⟩
      obtain rfl : r = r' := Except.ok.inj (hacc.symm.trans hr')
      exact hk
    · refine ⟨0, fun r' hr' ↦ ?_⟩
      obtain rfl : r = r' := Except.ok.inj (hacc.symm.trans hr')
      exact hflight

theorem Mem.Same.dmem_status {m m' : Mem} (h : m.Same m') : m'.dmem_status = m.dmem_status := by
  obtain ⟨pt, rfl, -⟩ := h
  rfl

theorem Mem.Same.undefined {m m' : Mem} (h : m.Same m') : m'.undefined = m.undefined := by
  obtain ⟨pt, rfl, -⟩ := h
  rfl

theorem SettlesIn.congr (haccess : ∀ m m', m.Same m' → Rel SameResult (access m) (access m'))
    {k : ℕ} {m m' : Mem} (hm : m.Same m') (h : SettlesIn access k m) : SettlesIn access k m' := by
  induction k generalizing m m' with
  | zero =>
    intro r' hr'
    have hrel := haccess m' m hm.symm
    obtain ⟨r, hr, hsame, -⟩ := hrel.exists_of_ok hr'
    rw [← hsame.dmem_status]
    exact h r hr
  | succ k ih =>
    intro r' hr' hflight
    have hrel := haccess m' m hm.symm
    obtain ⟨r, hr, hsame, -⟩ := hrel.exists_of_ok hr'
    exact ih hsame.symm (h r hr (hsame.dmem_status.trans hflight))

/-- Two settled results that agree up to the shape of the page table. -/
def SettleSame {α : Type} (r r' : Option (Except Crash (Mem × α))) : Prop :=
  (r = none ∧ r' = none) ∨ ∃ x x', r = some x ∧ r' = some x' ∧ Rel SameResult x x'

/-- What settles in one memory settles alike in a memory with the same content; the induction is on
the attempts. -/
theorem settle_congr_some {α : Type} {access : Mem → Except Crash (Mem × α)}
    (haccess : ∀ m m', m.Same m' → Rel SameResult (access m) (access m')) (m : Mem)
    (x : Except Crash (Mem × α)) (h : settle access m = some x) :
    ∀ m', m.Same m' → ∃ x', settle access m' = some x' ∧ Rel SameResult x x' := by
  refine Mem.settle.partial_correctness access
    (fun m x ↦ ∀ m', m.Same m' → ∃ x', settle access m' = some x' ∧ Rel SameResult x x') ?_ m x h
  intro rec ih m x hx m' hm'
  have hrel := haccess m m' hm'
  cases hacc : access m with
  | error crash =>
    rw [hacc] at hrel hx
    cases hx
    cases hrel' : access m' with
    | ok r =>
      rw [hrel'] at hrel
      cases hrel
    | error crash' =>
      rw [hrel'] at hrel
      cases hrel
      exact ⟨_, settle_of_error hrel', Rel.error _⟩
  | ok r =>
    rw [hacc] at hrel hx
    obtain ⟨r', hacc', hr⟩ := hrel.exists_of_ok rfl
    have hstatus : r'.1.dmem_status = r.1.dmem_status := by
      obtain ⟨⟨pt, hpt, -⟩, -⟩ := hr
      rw [hpt]
    by_cases hwait : r.1.dmem_status = .inFlight
    · simp only [hwait, ↓reduceIte] at hx
      rw [settle_of_wait hacc' (hstatus.trans hwait)]
      exact ih r.1 x hx r'.1 hr.1
    · simp only [hwait, ↓reduceIte, Option.some.injEq] at hx
      refine ⟨_, settle_of_done hacc' (hstatus ▸ hwait), ?_⟩
      rw [← hx]
      exact Rel.ok hr

theorem settle_congr {α : Type} {access : Mem → Except Crash (Mem × α)}
    (haccess : ∀ m m', m.Same m' → Rel SameResult (access m) (access m')) {m m' : Mem}
    (h : m.Same m') : SettleSame (settle access m) (settle access m') := by
  cases hm : settle access m with
  | some x =>
    obtain ⟨x', hx', hrel⟩ := settle_congr_some haccess m x hm m' h
    exact .inr ⟨x, x', rfl, hx', hrel⟩
  | none =>
    cases hm' : settle access m' with
    | none => exact .inl ⟨rfl, rfl⟩
    | some x' =>
      obtain ⟨x, hx, -⟩ := settle_congr_some haccess m' x' hm' m h.symm
      rw [hm] at hx
      cases hx

end

end SystemEmulator
