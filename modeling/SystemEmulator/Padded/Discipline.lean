import SystemEmulator.Pipeline.Halting
import SystemEmulator.Padded.Plain

/-!
# Padded programs

The padding discipline is a property of the sequential machine: no instruction reads a register that
one of the three instructions before it writes, and `NOP`s stand at the target of every conditional
branch.  The pipeline then never has to wait for a load, and what `forward_reg` hands to decode is
what is in the register file.
-/

namespace SystemEmulator

open Outcome Result Relation

/-! ## The discipline -/

section

variable (a₀ : Core × BitVec 64)

/-- After `k` instructions the sequential machine is at `pc`, with the core `c`. -/
def Visits (k : ℕ) (c : Core) (pc : BitVec 64) : Prop := seqRun pipeBuild k a₀ = pure (c, pc)

/-- The decode record of the instruction that follows on `k` others. -/
def Issues (k : ℕ) (d : DInstr) : Prop :=
  ∃ c pc, Visits a₀ k c pc ∧ pc ≠ 0 ∧ c.fetched pc = d

end

def DInstr.reads (d : DInstr) (r : ℕ) : Prop := r ≠ XZR_NUM ∧ (r = d.src1 ∨ r = d.src2)

def DInstr.writes (d : DInstr) (r : ℕ) : Prop :=
  (generateDXMWControl d.op).W_sigs.w_enable = true ∧ d.dst = r

def Core.branchTarget (c : Core) (pc : BitVec 64) : BitVec 64 :=
  pc + (bitfieldS64 (fetchedWord c.mem.ptable pc) 5 19 <<< 2)

/-- The padding discipline: no instruction reads a register that one of the three before it writes,
and three `NOP`s, none of them at address zero, stand at the target of a conditional branch. -/
structure FollowsPadding (a₀ : Core × BitVec 64) : Prop where
  registers : ∀ j k d d', Issues a₀ j d → Issues a₀ k d' → j < k → k ≤ j + 3 →
    ∀ r, d'.reads r → ¬d.writes r
  targets : ∀ k c pc, Visits a₀ k c pc → pc ≠ 0 → (c.fetched pc).op = .bCond → ∀ i < 3,
    c.branchTarget pc + BitVec.ofNat 64 (4 * i) ≠ 0 ∧
      (c.fetched (c.branchTarget pc + BitVec.ofNat 64 (4 * i))).op = .nop

def Core.returnsTo (c : Core) (pc : BitVec 64) : BitVec 64 := (instrAt pipeBuild pc c).val_a

/-- The word behind a return is legal and no `HLT`; behind the last return, to address zero, it is
legal, writes no register and no flags and makes no data access. -/
def ReturnsQuietly (a₀ : Core × BitVec 64) : Prop :=
  ∀ k c pc, Visits a₀ k c pc → pc ≠ 0 → (c.fetched pc).op = .ret →
    if c.returnsTo pc = 0 then pc + 4 = 0 ∨ (c.fetched (pc + 4)).Inert
    else pc + 4 ≠ 0 ∧ (c.fetched (pc + 4)).status.isStop = false

/-! ## The text of a run -/

theorem Mem.Safe.fetched {c c' : Core} (h : c.mem.Safe c'.mem) {pc : BitVec 64}
    (herr : imemErr c.mem pc = false) : c'.fetched pc = c.fetched pc := by
  unfold Core.fetched
  rw [h.frame.imemErr, h.fetchedWord herr]

/-- A legal instruction is fetched without an error. -/
theorem imemErr_of_op {c : Core} {pc : BitVec 64} (h : (c.fetched pc).op ≠ .error) :
    imemErr c.mem pc = false := by
  rw [Bool.eq_false_iff]
  intro herr
  apply h
  unfold Core.fetched
  rw [herr]
  rfl

/-- The sequential machine keeps the text. -/
theorem Visits.safe {a₀ : Core × BitVec 64} (hok : a₀.1.mem.Ok)
    (hready : a₀.1.mem.dmem_status ≠ .inFlight) {k : ℕ} {c : Core} {pc : BitVec 64}
    (h : Visits a₀ k c pc) : a₀.1.mem.Safe c.mem ∧ c.mem.dmem_status ≠ .inFlight := by
  unfold Visits at h
  induction k generalizing c pc with
  | zero =>
    obtain rfl : c = a₀.1 := (congrArg Prod.fst (pure_inj h)).symm
    exact ⟨Mem.Safe.refl hok, hready⟩
  | succ k ih =>
    rw [seqRun_succ] at h
    obtain ⟨⟨c₁, pc₁⟩, hk, hstep⟩ := bind_eq_pure.mp h
    obtain ⟨hsafe, -⟩ := ih hk
    unfold seqStep at hstep
    split at hstep
    · exact absurd hstep.symm pure_ne_throw
    · obtain ⟨c₂, hexec, hpure⟩ := bind_eq_pure.mp hstep
      have hreaches := reaches_of_execute hexec
      obtain rfl : c₂ = c := congrArg Prod.fst (pure_inj hpure)
      exact ⟨hsafe.trans (hreaches.safe hsafe.ok), hreaches.ready⟩

end SystemEmulator
