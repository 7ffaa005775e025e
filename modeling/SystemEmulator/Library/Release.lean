import Mathlib.Data.List.Nodup
import Mathlib.Data.List.Perm.Basic

/-!
# Releasing resources

A procedure releases resources, each of which may be released once and may not be used afterwards.
A procedure is described by the resources that it releases and by those that it only uses; the rules
derive the description of a composite procedure from those of its parts.
-/

namespace Release

universe u

inductive Fault (α : Type u) where
  | doubleFree (a : α)
  | useAfterFree (a : α)
  deriving DecidableEq, Repr

variable {α : Type u} {ι : Type*}

/-- Releases a resource; `freed` are the resources that have been released. -/
def free [DecidableEq α] (freed : List α) (a : α) : Except (Fault α) (List α) :=
  if a ∈ freed then .error (.doubleFree a) else .ok (a :: freed)

def use [DecidableEq α] (freed : List α) (a : α) : Except (Fault α) PUnit.{u + 1} :=
  if a ∈ freed then .error (.useAfterFree a) else .ok ⟨⟩

theorem use_eq_ok [DecidableEq α] {freed : List α} {a : α} (h : a ∉ freed) :
    use freed a = .ok ⟨⟩ := if_neg h

/-- The procedure releases `blocks` and nothing else, as long as neither these nor the resources
that it uses have been released before. -/
def Frees (act : List α → Except (Fault α) (List α)) (uses blocks : List α) : Prop :=
  ∀ freed, uses.Disjoint freed → (blocks ++ freed).Nodup →
    ∃ freed', act freed = .ok freed' ∧ freed'.Perm (blocks ++ freed)

namespace Frees

variable {act act' : List α → Except (Fault α) (List α)} {uses uses' blocks blocks' : List α}

theorem pure (uses : List α) : Frees (α := α) (fun freed ↦ .ok freed) uses [] :=
  fun freed _ _ ↦ ⟨freed, rfl, .refl freed⟩

theorem free [DecidableEq α] (uses : List α) (a : α) : Frees (Release.free · a) uses [a] := by
  intro freed _ hnodup
  have ha : a ∉ freed := (List.nodup_cons.mp hnodup).1
  exact ⟨a :: freed, if_neg ha, .refl _⟩

/-- A resource that the procedure releases itself counts as released, not as used. -/
theorem of_subset (h : Frees act uses blocks) (huses : ∀ a ∈ uses, a ∈ uses' ∨ a ∈ blocks) :
    Frees act uses' blocks := by
  intro freed hdisjoint hnodup
  refine h freed ?_ hnodup
  intro a ha hfreed
  rcases huses a ha with hused | hblock
  · exact hdisjoint hused hfreed
  · exact List.disjoint_of_nodup_append hnodup hblock hfreed

theorem use [DecidableEq α] (h : Frees act uses blocks) {a : α} (ha : a ∈ uses) :
    Frees (fun freed ↦ Release.use freed a >>= fun _ ↦ act freed) uses blocks := by
  intro freed hdisjoint hnodup
  obtain ⟨freed', hact, hperm⟩ := h freed hdisjoint hnodup
  refine ⟨freed', ?_, hperm⟩
  change Release.use freed a >>= _ = _
  rw [use_eq_ok (hdisjoint ha)]
  exact hact

/-- The second procedure uses nothing that the first one releases. -/
theorem bind (h : Frees act uses blocks) (h' : Frees act' uses blocks')
    (hdisjoint : uses.Disjoint blocks) :
    Frees (fun freed ↦ act freed >>= act') uses (blocks ++ blocks') := by
  intro freed hfreed hnodup
  have hswap : (blocks ++ blocks' ++ freed).Perm (blocks' ++ (blocks ++ freed)) := by
    rw [← List.append_assoc blocks']
    exact List.perm_append_comm.append_right freed
  have hnodup' := hswap.nodup_iff.mp hnodup
  obtain ⟨freed', hact, hperm⟩ := h freed hfreed (List.nodup_append.mp hnodup').2.1
  have hused : uses.Disjoint freed' := by
    intro a ha ha'
    rcases List.mem_append.mp (hperm.mem_iff.mp ha') with hblock | hold
    · exact hdisjoint ha hblock
    · exact hfreed ha hold
  have hperm' := hperm.append_left blocks'
  obtain ⟨freed'', hact', hperm''⟩ := h' freed' hused (hperm'.nodup_iff.mpr hnodup')
  refine ⟨freed'', ?_, (hperm''.trans hperm').trans hswap.symm⟩
  change act freed >>= act' = _
  rw [hact]
  exact hact'

/-- A loop whose rounds use the same resources; the induction is on the rounds. -/
theorem foldlM {body : List α → ι → Except (Fault α) (List α)} {blocks : ι → List α} {is : List ι}
    (h : ∀ i ∈ is, Frees (body · i) uses (blocks i))
    (hdisjoint : ∀ i ∈ is, uses.Disjoint (blocks i)) :
    Frees (is.foldlM body ·) uses (is.flatMap blocks) := by
  induction is with
  | nil => exact pure uses
  | cons i is ih =>
    have hrest := ih (fun i' hi' ↦ h i' (List.mem_cons_of_mem i hi'))
      fun i' hi' ↦ hdisjoint i' (List.mem_cons_of_mem i hi')
    exact (h i List.mem_cons_self).bind hrest (hdisjoint i List.mem_cons_self)

end Frees

end Release
