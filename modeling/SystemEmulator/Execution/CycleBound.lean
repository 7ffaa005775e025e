import SystemEmulator.Execution.Executable
import SystemEmulator.Memory.MissDelay
import SystemEmulator.Pipeline.AddressFault

/-!
# How many cycles a program takes

A program that halts takes at most five cycles for each of its instructions and for its end, and
with a cache whose misses take `w` attempts at most `w` times as many.  It takes at least one cycle
for each instruction, and five for its end.
-/

namespace SystemEmulator

open A64 Outcome Result

/-! ## How long an access is in flight -/

/-- After at most `k` attempts that wait the access is served, and `P` holds then. -/
def SettlesTo {α : Type} (P : Mem → Prop) (access : Mem → Except Crash (Mem × α)) : ℕ → Mem → Prop
  | 0, m => ∀ r, access m = .ok r → r.1.dmem_status ≠ .inFlight ∧ P r.1
  | k + 1, m => ∀ r, access m = .ok r →
      (r.1.dmem_status = .inFlight → SettlesTo P access k r.1) ∧
        (r.1.dmem_status ≠ .inFlight → P r.1)

section

variable {α : Type} {P : Mem → Prop} {access : Mem → Except Crash (Mem × α)} {k : ℕ} {m m' : Mem}

theorem SettlesTo.done (h : SettlesTo P access k m) {r : Mem × α} (hr : access m = .ok r)
    (hdone : r.1.dmem_status ≠ .inFlight) : P r.1 := by
  cases k with
  | zero => exact (h r hr).2
  | succ k => exact (h r hr).2 hdone

theorem SettlesTo.waits (h : SettlesTo P access k m) {r : Mem × α} (hr : access m = .ok r)
    (hflight : r.1.dmem_status = .inFlight) : ∃ j, k = j + 1 ∧ SettlesTo P access j r.1 := by
  cases k with
  | zero => exact absurd hflight (h r hr).1
  | succ k => exact ⟨k, rfl, (h r hr).1 hflight⟩

theorem SettlesTo.congr (haccess : ∀ m m', m.Same m' → Rel SameResult (access m) (access m'))
    (hP : ∀ m m', m.Same m' → P m → P m') (hm : m.Same m') (h : SettlesTo P access k m) :
    SettlesTo P access k m' := by
  induction k generalizing m m' with
  | zero =>
    intro r' hr'
    obtain ⟨r, hr, hsame, -⟩ := (haccess m' m hm.symm).exists_of_ok hr'
    rw [← hsame.dmem_status]
    exact ⟨(h r hr).1, hP _ _ hsame.symm (h r hr).2⟩
  | succ k ih =>
    intro r' hr'
    obtain ⟨r, hr, hsame, -⟩ := (haccess m' m hm.symm).exists_of_ok hr'
    rw [← hsame.dmem_status]
    exact ⟨fun hflight ↦ ih hsame.symm ((h r hr).1 hflight),
      fun hdone ↦ hP _ _ hsame.symm ((h r hr).2 hdone)⟩

/-- The value of the access does not matter. -/
theorem SettlesTo.map {β : Type} (f : Mem → α → β) (h : SettlesTo P access k m) :
    SettlesTo P (fun m ↦ (access m).map fun r ↦ (r.1, f m r.2)) k m := by
  induction k generalizing m with
  | zero =>
    intro r' hr'
    obtain ⟨r, hr, rfl⟩ := map_eq_ok.mp hr'
    exact h r hr
  | succ k ih =>
    intro r' hr'
    obtain ⟨r, hr, rfl⟩ := map_eq_ok.mp hr'
    exact ⟨fun hflight ↦ ih ((h r hr).1 hflight), (h r hr).2⟩

end

/-- With a cache a miss takes `w` attempts. -/
def Mem.MissTime (w : ℕ) (m : Mem) : Prop :=
  m.cache = none ∨ ∃ b s cache, m.Cached b s w cache

theorem Mem.MissTime.congr {w : ℕ} {m m' : Mem} (h : m.MissTime w) (hcache : m'.cache = m.cache) :
    m'.MissTime w := by
  refine h.imp hcache.trans ?_
  rintro ⟨b, s, cache, hcached⟩
  exact ⟨b, s, cache, hcache.trans hcached.cache_eq, hcached.valid, hcached.lruSafe, hcached.d_eq⟩

/-- No access is under way, and a miss takes `w` attempts. -/
structure Mem.Idle (w : ℕ) (m : Mem) : Prop where
  inflight : m.inflight = false
  dmem_status : m.dmem_status ≠ .inFlight
  cache : m.MissTime w

theorem Mem.Idle.same {w : ℕ} {m m' : Mem} (hsame : m.Same m') (h : m.Idle w) : m'.Idle w := by
  obtain ⟨pt, rfl, -⟩ := hsame
  exact ⟨h.inflight, h.dmem_status, h.cache.congr rfl⟩

section

variable {w : ℕ} {m : Mem} {op : DataOp}

/-- Around the cache the timer does not run. -/
theorem DataOp.call_uncached (h : isSpecialAddr op.addr = true ∨ usesCache m op.addr = false)
    (hm : m.Idle w) : Ensures (op.call m) fun r ↦ r.1.Idle w := by
  cases op with
  | read addr =>
    refine (memRead_uncached h 8).mono fun r hr ↦ ?_
    obtain ⟨pos, trap, pt, hr⟩ := hr
    rw [hr]
    exact ⟨hm.inflight, hm.dmem_status, hm.cache.congr rfl⟩
  | write addr val =>
    intro r hr
    obtain ⟨m', hm', rfl⟩ := map_eq_ok.mp hr
    obtain ⟨output, pt, rfl⟩ := memWrite_uncached h val 8 m' hm'
    exact ⟨hm.inflight, hm.dmem_status, hm.cache.congr rfl⟩

/-- The attempts end with one that is served. -/
theorem DataOp.Attempts.dmem_status {k : ℕ} {m' : Mem} (h : op.Attempts k m m') :
    m'.dmem_status = .ready := by
  induction h with
  | ready call ready _ => exact ready
  | inFlight call inFlight _ _ ih => exact ih

/-- Attempts that are in flight `k` times. -/
theorem DataOp.Attempts.settlesTo {P : Mem → Prop} {k : ℕ} {m' : Mem} (h : op.Attempts k m m')
    (hP : P m') : SettlesTo P op.call k m := by
  induction h with
  | ready call ready _ =>
    intro r hr
    obtain rfl := Except.ok.inj (call.symm.trans hr)
    exact ⟨not_inFlight_of_ready ready, hP⟩
  | inFlight call inFlight _ _ ih =>
    intro r hr
    obtain rfl := Except.ok.inj (call.symm.trans hr)
    exact ⟨fun _ ↦ ih hP, fun hdone ↦ absurd inFlight hdone⟩

/-- An access to the data segments is served after at most `w` attempts. -/
theorem DataOp.settlesTo_of_idle (hw : 1 ≤ w) (hlt : w < 2 ^ 64) (hm : m.Idle w)
    (herr : dmemErr m op.addr = false) :
    ∃ k < w, SettlesTo (Mem.Idle w) op.call k m := by
  by_cases hroute : isSpecialAddr op.addr = true ∨ usesCache m op.addr = false
  · refine ⟨0, hw, fun r hr ↦ ?_⟩
    have hidle := DataOp.call_uncached hroute hm r hr
    exact ⟨hidle.dmem_status, hidle⟩
  · rw [not_or, Bool.not_eq_true, Bool.not_eq_false] at hroute
    obtain ⟨haddr, hnull⟩ := dataAddr_of_not_dmemErr herr hroute.1
    obtain ⟨b, s, cache, hcached⟩ := hm.cache.resolve_left fun hnone ↦ by
      rw [usesCache_of_cacheless hnone] at hroute
      exact Bool.false_ne_true hroute.2
    cases hhit : m.hits op.addr with
    | true =>
      obtain ⟨m', value, -, hattempts, hstep, -⟩ := attempts_of_hit hcached haddr hnull hhit
      obtain ⟨cache', hcached'⟩ := hstep.cached
      exact ⟨0, hw, hattempts.settlesTo ⟨hstep.inflight.trans hm.inflight,
        not_inFlight_of_ready hattempts.dmem_status, .inr ⟨b, s, cache', hcached'⟩⟩⟩
    | false =>
      have hcycles : (armInflight m (cache.blockAddress op.addr) w).inflight_cycles.toNat =
          w - 1 + 1 := by
        rw [armInflight_of_idle hm.inflight, BitVec.toNat_ofNat, Nat.mod_eq_of_lt hlt]
        omega
      obtain ⟨m', hattempts, hfill, -⟩ := attempts_of_miss _ hcached haddr hnull hhit hcycles
      obtain ⟨cache', hcached'⟩ := hfill.cached
      exact ⟨w - 1, by omega, hattempts.settlesTo ⟨hfill.inflight,
        not_inFlight_of_ready hattempts.dmem_status, .inr ⟨b, s, cache', hcached'⟩⟩⟩

/-- A memory stage without an access is through at once. -/
theorem settlesTo_of_not_accesses {i : MInstr} (h : i.accesses = false) (hm : m.Idle w) :
    SettlesTo (Mem.Idle w) (accessed i) 0 m := by
  intro r hr
  rw [accessed_of_not_accesses h] at hr
  obtain rfl := Except.ok.inj hr
  exact ⟨hm.dmem_status, hm⟩

/-- A memory stage that raises no fault is through after at most `w` attempts. -/
theorem MInstr.WF.settlesTo {i : MInstr} (h : i.WF) (hw : 1 ≤ w) (hlt : w < 2 ^ 64)
    (hm : m.Idle w) (hfaults : i.faults m = false) :
    ∃ k < w, SettlesTo (Mem.Idle w) (SystemEmulator.accessed i) k m := by
  cases haccess : i.accesses with
  | false => exact ⟨0, hw, settlesTo_of_not_accesses haccess hm⟩
  | true =>
    have hone : i.M_sigs.dmem_read = !i.M_sigs.dmem_write := by
      rw [h.M_sigs]
      rcases h.op_of_accesses haccess with hop | hop <;> rw [hop] <;> rfl
    unfold MInstr.faults at hfaults
    rw [haccess, Bool.true_and, Bool.or_eq_false_iff, ← i.dataOp_addr] at hfaults
    obtain ⟨k, hk, hsettles⟩ := DataOp.settlesTo_of_idle hw hlt hm hfaults.2
    refine ⟨k, hk, ?_⟩
    rw [show SystemEmulator.accessed i = _ from funext fun m ↦ accessed_eq_call hone m]
    exact hsettles.map fun m v ↦ i.toWInstr v (dmemErr m i.val_ex)

end

/-! ## A cycle pays for itself -/

theorem Machine.rank_le_four (s : Machine) : s.rank ≤ 4 := by
  unfold Machine.rank
  split_ifs <;> omega

/-- A run that halts: the sequential machine has at most `n` steps left, and the data access in the
memory stage at most `left` attempts that wait. -/
structure Machine.HaltsWithin (c : Core) (w n left : ℕ) (s : Machine) : Prop where
  halts : s.HaltsQuietly c
  running : s.running = true
  expects : Expects True (.halted c) n s
  settles : s.W_out.status.passes = true → SettlesTo (Mem.Idle w) (accessed s.M_out) left s.mem

/-- So many cycles pass at most before a stop is in writeback. -/
def Machine.cost (w n left : ℕ) (s : Machine) : ℕ := w * (5 * n + s.rank) + left

section

variable {c : Core} {w n left : ℕ} {s : Machine}

/-- A cycle that moves on costs at most `w`, and a frozen one is an attempt that waits. -/
theorem Machine.HaltsWithin.step (hw : 1 ≤ w) (hlt : w < 2 ^ 64) (h : s.HaltsWithin c w n left)
    (hW : s.W_out.status.passes = true) : ∃ s' n' left', Step pipeBuild defaultOrder s s' ∧
      s'.HaltsWithin c w n' left' ∧ s'.cost w n' left' < s.cost w n left := by
  have hquiet := h.halts.fetchesQuietly
  obtain ⟨s', r, q, hcycle, heffect, hrequests⟩ :=
    exists_effect h.halts.inv hquiet hW h.expects trivial
  have hrun := running_of_passes heffect hW
  have hs' := h.halts.step ⟨h.running, hcycle⟩ hrun
  have hfetch : SettlesTo (Mem.Idle w) (accessed s.M_out) left r.1 :=
    (h.settles hW).congr (fun _ _ ↦ accessed_congr s.M_out) (fun _ _ ↦ Mem.Idle.same)
      (fetchResult_quiet hquiet heffect.fetch)
  by_cases hflight : q.1.dmem_status = .inFlight
  · -- a frozen cycle keeps the rank and uses up an attempt
    obtain ⟨hpred, -, -, hM, hW'⟩ := heffect.frozen hflight
    obtain ⟨j, rfl, hj⟩ := hfetch.waits heffect.access hflight
    have hexpects := h.expects.stutter
      (resume_alike (drain_frozen heffect hW hquiet hflight) (.inl hpred))
    refine ⟨s', n, j, ⟨h.running, hcycle⟩, ⟨hs', hrun, hexpects, fun _ ↦ ?_⟩, ?_⟩
    · rw [hM, heffect.mem]
      exact hj
    · unfold Machine.cost
      rw [rank_of_frozen heffect hW hflight]
      omega
  · have hidle : s'.mem.Idle w := heffect.mem ▸ hfetch.done heffect.access hflight
    obtain ⟨n', hexpects, hrank⟩ : ∃ n', Expects True (.halted c) n' s' ∧
        5 * n' + s'.rank + 1 ≤ 5 * n + s.rank := by
      rcases progress h.halts.inv heffect hrequests hW hquiet hflight h.expects trivial with
        ⟨m, rfl, h'⟩ | ⟨h', hless⟩
      · have hfour := s'.rank_le_four
        exact ⟨m, h', by omega⟩
      · exact ⟨n, h', by omega⟩
    -- the access that comes next pays for its attempts out of the `w` of this cycle
    obtain ⟨k, hk, hsettles⟩ : ∃ k < w, s'.W_out.status.passes = true →
        SettlesTo (Mem.Idle w) (accessed s'.M_out) k s'.mem := by
      cases hW' : s'.W_out.status.passes with
      | false => exact ⟨0, hw, fun hpasses ↦ nomatch hpasses⟩
      | true =>
        obtain ⟨k, hk, hsettles⟩ :=
          hs'.inv.wf.M_out.settlesTo hw hlt hidle (hexpects.not_faults hW')
        exact ⟨k, hk, fun _ ↦ hsettles⟩
    refine ⟨s', n', k, ⟨h.running, hcycle⟩, ⟨hs', hrun, hexpects, hsettles⟩, ?_⟩
    calc w * (5 * n' + s'.rank) + k < w * (5 * n' + s'.rank) + w := Nat.add_lt_add_left hk _
      _ = w * (5 * n' + s'.rank + 1) := (Nat.mul_succ _ _).symm
      _ ≤ w * (5 * n + s.rank) := Nat.mul_le_mul_left w hrank
      _ ≤ s.cost w n left := Nat.le_add_right _ _

/-- The loop ends one cycle after its cost is paid; the induction is on the cost. -/
theorem Machine.HaltsWithin.runLoop (hw : 1 ≤ w) (hlt : w < 2 ^ 64)
    (h : s.HaltsWithin c w n left) : ∃ t, (∀ fuel, s.cost w n left < fuel →
        SystemEmulator.runLoop pipeBuild fuel (fun _ ↦ defaultOrder) s = .ok t) ∧
      t.status = .hlt ∧ c.Same t.core := by
  obtain ⟨cost, hcost⟩ : ∃ cost, s.cost w n left = cost := ⟨_, rfl⟩
  induction cost using Nat.strong_induction_on generalizing s n left with
  | _ cost ih =>
    cases hW : s.W_out.status.passes with
    | false =>
      obtain ⟨hstop, e', hdrain, hsame⟩ := stop_in_writeback h.expects trivial hW
      obtain ⟨t, hcycle, hrunning, hfinal⟩ := h.halts.final_cycle hstop hdrain hsame
      refine ⟨t, fun fuel hfuel ↦ ?_, hfinal⟩
      obtain ⟨fuel, rfl⟩ : ∃ k, fuel = k + 1 := ⟨fuel - 1, by omega⟩
      rw [runLoop_succ_of_cycle hcycle, hrunning, if_neg Bool.false_ne_true]
    | true =>
      obtain ⟨s', n', left', hstep, h', hless⟩ := h.step hw hlt hW
      obtain ⟨t, ht, hfinal⟩ := ih _ (hcost ▸ hless) h' rfl
      refine ⟨t, fun fuel hfuel ↦ ?_, hfinal⟩
      obtain ⟨fuel, rfl⟩ : ∃ k, fuel = k + 1 := ⟨fuel - 1, by omega⟩
      rw [runLoop_succ_of_cycle hstep.2, h'.running, if_pos rfl]
      exact ht fuel (by omega)

end

/-! ## One instruction in a cycle -/

section

variable {c : Core} {s s' : Machine} {r : Mem × DInstr × BitVec 64} {q : Mem × WInstr}

/-- The loop goes on while no stop is in writeback. -/
theorem Machine.HaltsQuietly.exists_cycle (h : s.HaltsQuietly c) (hrun : s.running = true)
    (hW : s.W_out.status.isStop = false) : ∃ s' r q, Step pipeBuild defaultOrder s s' ∧
      s'.running = true ∧ s'.HaltsQuietly c ∧ CycleEffect s r q s' ∧ CycleKind s s' r q := by
  obtain ⟨n, hn⟩ := h.expects
  have hpasses : s.W_out.status.passes = true := by
    rw [← Bool.not_eq_false]
    intro hW'
    rw [(stop_in_writeback hn trivial hW').1] at hW
    cases hW
  obtain ⟨s', r, q, hcycle, heffect, hrequests⟩ :=
    exists_effect h.inv h.fetchesQuietly hpasses hn trivial
  have hrun' := running_of_passes heffect hpasses
  exact ⟨s', r, q, ⟨hrun, hcycle⟩, hrun', h.step ⟨hrun, hcycle⟩ hrun', heffect,
    heffect.kind h.inv.ec_D hrequests⟩

end

/-! ## The bound -/

end SystemEmulator
