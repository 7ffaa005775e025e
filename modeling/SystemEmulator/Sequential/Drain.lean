import SystemEmulator.Sequential.Machine

/-!
# Draining the pipeline

A state of the pipeline stands for the state of the sequential machine that is reached when the
instructions in flight are completed one after the other and nothing more is fetched.
-/

namespace SystemEmulator

open Outcome

/-- A conditional branch in memory that was wrongly predicted taken. -/
def MInstr.mispredicted (m : MInstr) : Bool := m.op == .bCond && !m.cond_holds

theorem not_mispredicted_of_ne {m : MInstr} (h : m.op ≠ .bCond) : m.mispredicted = false := by
  unfold MInstr.mispredicted
  rw [beq_false_of_ne h, Bool.false_and]

def XInstr.redirect (x : XInstr) (nzcv : BitVec 8) : Option (BitVec 64) :=
  if x.op = .ret then some x.val_a
  else if (executed x nzcv).1.mispredicted then some x.multipurpose_val
  else none

theorem redirect_of_ret {x : XInstr} (hret : x.op = .ret) (nzcv : BitVec 8) :
    x.redirect nzcv = some x.val_a :=
  if_pos hret

theorem redirect_of_mispredicted {x : XInstr} (hret : x.op ≠ .ret) {nzcv : BitVec 8}
    (hmispred : (executed x nzcv).1.mispredicted = true) :
    x.redirect nzcv = some x.multipurpose_val :=
  (if_neg hret).trans (if_pos hmispred)

theorem redirect_of_not_mispredicted {x : XInstr} (hret : x.op ≠ .ret) {nzcv : BitVec 8}
    (hmispred : (executed x nzcv).1.mispredicted = false) : x.redirect nzcv = none := by
  unfold XInstr.redirect
  rw [if_neg hret, hmispred]
  rfl

/-- Completes the instruction in decode: the core after it, and where it redirects the fetch. -/
def drainD (d : DInstr) (c : Core) : ExceptT Halt Option (Core × Option (BitVec 64)) := do
  let x := decoded d c.regs
  let c' ← execute x c
  pure (c', x.redirect c.NZCV)

/-- Completes the instructions in execute and in decode, which a redirect drops. -/
def drainX (x : XInstr) (d : DInstr) (c : Core) :
    ExceptT Halt Option (Core × Option (BitVec 64)) := do
  let c' ← execute x c
  match x.redirect c.NZCV with
  | some pc => pure (c', some pc)
  | none => drainD d c'

/-- Completes the instructions in memory, execute and decode. -/
def drainM (m : MInstr) (x : XInstr) (d : DInstr) (c : Core) :
    ExceptT Halt Option (Core × Option (BitVec 64)) := do
  let c ← access m c
  if m.mispredicted then pure (c, some m.multipurpose_val) else drainX x d c

def Machine.core (s : Machine) : Core := ⟨s.regs, s.NZCV, s.mem⟩

/-- Completes all instructions in flight from a core.  A fault in writeback has its address in the
PC. -/
def drainFrom (s : Machine) (c : Core) : ExceptT Halt Option (Core × Option (BitVec 64)) :=
  writeback s.W_out s.PC c >>= drainM s.M_out s.X_out s.D_out

/-- Completes all instructions in flight. -/
def drain (s : Machine) : ExceptT Halt Option (Core × Option (BitVec 64)) := drainFrom s s.core

/-- A redirect from execute drops the instruction in decode. -/
theorem drainX_eq_pure {x : XInstr} {d : DInstr} {c : Core} {a : Core × Option (BitVec 64)}
    (h : drainX x d c = pure a) : ∃ c', execute x c = pure c' ∧
      ((∃ pc, x.redirect c.NZCV = some pc ∧ a = (c', some pc)) ∨
        x.redirect c.NZCV = none ∧ drainD d c' = pure a) := by
  unfold drainX at h
  obtain ⟨c', hexec, h⟩ := bind_eq_pure.mp h
  refine ⟨c', hexec, ?_⟩
  cases hredirect : x.redirect c.NZCV with
  | some pc =>
    rw [hredirect] at h
    exact .inl ⟨pc, rfl, (pure_inj h).symm⟩
  | none =>
    rw [hredirect] at h
    exact .inr ⟨rfl, h⟩

/-- A wrongly predicted branch in memory drops the instructions in execute and decode. -/
theorem drain_eq_pure {s : Machine} {a : Core × Option (BitVec 64)} (h : drain s = pure a) :
    ∃ c₁ c₂, writeback s.W_out s.PC s.core = pure c₁ ∧ access s.M_out c₁ = pure c₂ ∧
      (s.M_out.mispredicted = true ∧ a = (c₂, some s.M_out.multipurpose_val) ∨
        s.M_out.mispredicted = false ∧ drainX s.X_out s.D_out c₂ = pure a) := by
  unfold drain drainFrom at h
  obtain ⟨c₁, hwb, h⟩ := bind_eq_pure.mp h
  unfold drainM at h
  obtain ⟨c₂, hacc, h⟩ := bind_eq_pure.mp h
  refine ⟨c₁, c₂, hwb, hacc, ?_⟩
  cases hmispred : s.M_out.mispredicted with
  | true =>
    rw [hmispred] at h
    exact .inl ⟨rfl, (pure_inj h).symm⟩
  | false =>
    rw [hmispred] at h
    exact .inr ⟨rfl, h⟩

/-- Where the sequential machine goes on after the instructions in flight; without a redirect it is
the predicted PC. -/
def resumeAt (pred_PC : BitVec 64) (r : Core × Option (BitVec 64)) : Core × BitVec 64 :=
  (r.1, r.2.getD pred_PC)

/-- The state of the sequential machine that a state of the pipeline stands for. -/
def resume (s : Machine) : ExceptT Halt Option (Core × BitVec 64) :=
  resumeAt s.F_out.pred_PC <$> drain s

/-! ## Memories with the same content -/

/-- Two cores that differ at most in the shape of their page tables. -/
structure Core.Same (c c' : Core) : Prop where
  regs : c'.regs = c.regs
  NZCV : c'.NZCV = c.NZCV
  mem : c.mem.Same c'.mem

theorem Core.Same.refl (c : Core) : c.Same c := ⟨rfl, rfl, Mem.Same.refl _⟩

theorem Core.Same.symm {c c' : Core} (h : c.Same c') : c'.Same c :=
  ⟨h.regs.symm, h.NZCV.symm, h.mem.symm⟩

theorem Core.Same.trans {c₁ c₂ c₃ : Core} (h : c₁.Same c₂) (h' : c₂.Same c₃) : c₁.Same c₃ :=
  ⟨h'.regs.trans h.regs, h'.NZCV.trans h.NZCV, h.mem.trans h'.mem⟩

inductive HaltSame : Halt → Halt → Prop
  | halted {c c' : Core} (h : c.Same c') : HaltSame (.halted c) (.halted c')
  | addressFault (pc : BitVec 64) {c c' : Core} (h : c.Same c') :
      HaltSame (.addressFault pc c) (.addressFault pc c')
  | illegal (pc : BitVec 64) : HaltSame (.illegal pc) (.illegal pc)
  | crashed (crash : Crash) : HaltSame (.crashed crash) (.crashed crash)

theorem HaltSame.refl (e : Halt) : HaltSame e e := by
  cases e with
  | halted c => exact .halted (Core.Same.refl c)
  | addressFault pc c => exact .addressFault pc (Core.Same.refl c)
  | illegal pc => exact .illegal pc
  | crashed crash => exact .crashed crash

theorem HaltSame.symm {e e' : Halt} (h : HaltSame e e') : HaltSame e' e := by
  cases h with
  | halted h => exact .halted h.symm
  | addressFault pc h => exact .addressFault pc h.symm
  | illegal pc => exact .illegal pc
  | crashed crash => exact .crashed crash

theorem HaltSame.trans {e₁ e₂ e₃ : Halt} (h : HaltSame e₁ e₂) (h' : HaltSame e₂ e₃) :
    HaltSame e₁ e₃ := by
  cases h with
  | halted h => cases h' with
    | halted h' => exact .halted (h.trans h')
  | addressFault pc h => cases h' with
    | addressFault _ h' => exact .addressFault pc (h.trans h')
  | illegal pc => exact h'
  | crashed crash => exact h'

def SameAt {α : Type} (a b : Core × α) : Prop := a.1.Same b.1 ∧ a.2 = b.2

theorem SameAt.refl {α : Type} (a : Core × α) : SameAt a a := ⟨Core.Same.refl _, rfl⟩

theorem SameAt.trans {α : Type} (a b c : Core × α) (h : SameAt a b) (h' : SameAt b c) :
    SameAt a c :=
  ⟨h.1.trans h'.1, h.2.trans h'.2⟩

theorem SameAt.symm {α : Type} (a b : Core × α) (h : SameAt a b) : SameAt b a :=
  ⟨h.1.symm, h.2.symm⟩

/-- Two computations of the sequential machine that cannot be told apart. -/
abbrev Alike {α : Type} (x y : ExceptT Halt Option (Core × α)) : Prop := Rel HaltSame SameAt x y

abbrev CoreAlike (x y : ExceptT Halt Option Core) : Prop := Rel HaltSame Core.Same x y

section

variable {α β : Type} {x y z : ExceptT Halt Option (Core × α)}

theorem Alike.refl (x : ExceptT Halt Option (Core × α)) : Alike x x :=
  Rel.refl HaltSame.refl SameAt.refl x

theorem Alike.symm (h : Alike x y) : Alike y x := Rel.symm (fun _ _ ↦ HaltSame.symm) SameAt.symm h

theorem Alike.map (f : α → β) (h : Alike x y) :
    Alike ((fun r ↦ (r.1, f r.2)) <$> x) ((fun r ↦ (r.1, f r.2)) <$> y) := by
  rw [map_eq_pure_bind, map_eq_pure_bind]
  exact Rel.bind h fun a b hab ↦ .ok ⟨hab.1, congrArg f hab.2⟩

end

theorem writeback_congr (w : WInstr) (pc : BitVec 64) {c c' : Core} (h : c.Same c') :
    CoreAlike (writeback w pc c) (writeback w pc c') := by
  unfold writeback
  cases w.status with
  | adr => exact .stop (.addressFault pc h)
  | ins => exact .stop (.illegal pc)
  | hlt => exact .stop (.halted h)
  | bub => exact .ok ⟨by rw [h.regs], h.NZCV, h.mem⟩
  | aok => exact .ok ⟨by rw [h.regs], h.NZCV, h.mem⟩

theorem access_congr (m : MInstr) {c c' : Core} (h : c.Same c') :
    CoreAlike (access m c) (access m c') := by
  unfold access
  rcases settle_congr (fun _ _ ↦ accessed_congr m) h.mem with ⟨hx, hx'⟩ | ⟨x, x', hx, hx', hrel⟩
  · rw [hx, hx']
    exact .hung
  · rw [hx, hx']
    cases hrel with
    | error crash => exact .stop (.crashed crash)
    | @ok r r' hr =>
      obtain ⟨mem, w⟩ := r
      obtain ⟨mem', w'⟩ := r'
      obtain ⟨hmem, hw⟩ := hr
      simp only at hmem hw
      subst hw
      exact writeback_congr w _ ⟨h.regs, h.NZCV, hmem⟩

theorem execute_congr (x : XInstr) {c c' : Core} (h : c.Same c') :
    CoreAlike (execute x c) (execute x c') := by
  unfold execute
  rw [h.NZCV]
  apply access_congr
  cases x.X_sigs.set_flags with
  | true => exact ⟨h.regs, rfl, h.mem⟩
  | false => exact h

theorem drainD_congr (d : DInstr) {c c' : Core} (h : c.Same c') :
    Alike (drainD d c) (drainD d c') := by
  unfold drainD
  rw [h.regs, h.NZCV]
  exact Rel.bind (execute_congr _ h) fun c₁ c₂ h₁ ↦ .ok ⟨h₁, rfl⟩

theorem drainX_congr (x : XInstr) (d : DInstr) {c c' : Core} (h : c.Same c') :
    Alike (drainX x d c) (drainX x d c') := by
  unfold drainX
  rw [h.NZCV]
  refine Rel.bind (execute_congr x h) fun c₁ c₂ h₁ ↦ ?_
  cases x.redirect c.NZCV with
  | some pc => exact .ok ⟨h₁, rfl⟩
  | none => exact drainD_congr d h₁

theorem drainM_congr (m : MInstr) (x : XInstr) (d : DInstr) {c c' : Core} (h : c.Same c') :
    Alike (drainM m x d c) (drainM m x d c') := by
  unfold drainM
  refine Rel.bind (access_congr m h) fun c₁ c₂ h₁ ↦ ?_
  cases m.mispredicted with
  | true => exact .ok ⟨h₁, rfl⟩
  | false => exact drainX_congr x d h₁

theorem drainFrom_congr (s : Machine) {c c' : Core} (h : c.Same c') :
    Alike (drainFrom s c) (drainFrom s c') :=
  Rel.bind (writeback_congr _ _ h) fun _ _ h₁ ↦ drainM_congr _ _ _ h₁

theorem Alike.resumeAt {x y : ExceptT Halt Option (Core × Option (BitVec 64))} (h : Alike x y)
    (pred_PC : BitVec 64) :
    Alike (SystemEmulator.resumeAt pred_PC <$> x) (SystemEmulator.resumeAt pred_PC <$> y) :=
  h.map fun redirect ↦ redirect.getD pred_PC

end SystemEmulator
