import Mathlib.Logic.Function.Basic
import Mathlib.Data.Option.Basic

/-!
# Write-back overlays

A memory with cached copies of some of its cells on top.  A copy is dirty when it may differ from
the cell below.  What a reader sees, the view, does not depend on which cells are cached: replacing
clean or dirty copies by others leaves the view alone, and writing to a copy writes to the view.
-/

/-- A memory `base` under cached copies; the Boolean of a copy tells that it is dirty. -/
structure Overlay (α β : Type*) where
  base : α → β
  line : α → Option (β × Bool)

namespace Overlay

variable {α β : Type*}

@[ext]
theorem ext {o o' : Overlay α β} (hbase : ∀ a, o.base a = o'.base a)
    (hline : ∀ a, o.line a = o'.line a) : o = o' := by
  cases o
  cases o'
  congr
  · exact funext hbase
  · exact funext hline

/-- What a reader of the cell sees. -/
def view (o : Overlay α β) (a : α) : β := ((o.line a).map Prod.fst).getD (o.base a)

theorem view_of_line {o : Overlay α β} {a : α} {v : β} {dirty : Bool}
    (h : o.line a = some (v, dirty)) : o.view a = v := by
  unfold view
  rw [h]
  rfl

theorem view_of_none {o : Overlay α β} {a : α} (h : o.line a = none) : o.view a = o.base a := by
  unfold view
  rw [h]
  rfl

/-- A clean copy, and every copy of a cell in `pinned`, agrees with the cell below. -/
def Coherent (pinned : α → Prop) (o : Overlay α β) : Prop :=
  ∀ a v dirty, o.line a = some (v, dirty) → dirty = false ∨ pinned a → o.base a = v

/-- A pinned cell is seen as it is below. -/
theorem Coherent.view_pinned {pinned : α → Prop} {o : Overlay α β} (h : o.Coherent pinned) {a : α}
    (ha : pinned a) : o.view a = o.base a := by
  cases hline : o.line a with
  | none => exact view_of_none hline
  | some copy =>
    obtain ⟨v, dirty⟩ := copy
    rw [view_of_line hline]
    exact (h a v dirty hline (.inr ha)).symm

/-! ## Writing to the copies of a block -/

/-- The copies in `P` are changed by `f` and become dirty. -/
def write (P : α → Prop) [DecidablePred P] (f : α → β → β) (o : Overlay α β) : Overlay α β where
  base := o.base
  line := fun a ↦ if P a then (o.line a).map fun copy ↦ (f a copy.1, true) else o.line a

section

variable {P : α → Prop} [DecidablePred P] {f : α → β → β} {o : Overlay α β}

/-- The view changes where the copies are written. -/
theorem view_write (hcached : ∀ a, P a → o.line a ≠ none) (a : α) :
    (o.write P f).view a = if P a then f a (o.view a) else o.view a := by
  by_cases hP : P a
  · obtain ⟨copy, hline⟩ := Option.ne_none_iff_exists'.mp (hcached a hP)
    have hline' : (o.write P f).line a = some (f a copy.1, true) := by
      simp only [write, hP, ↓reduceIte, hline, Option.map_some]
    rw [view_of_line hline', view_of_line hline, if_pos hP]
  · simp only [view, write, hP, ↓reduceIte]

theorem Coherent.write {pinned : α → Prop} (h : o.Coherent pinned)
    (hpinned : ∀ a v, P a → pinned a → f a v = v) : (o.write P f).Coherent pinned := by
  intro a v dirty hline hclean
  by_cases hP : P a
  · simp only [Overlay.write, hP, ↓reduceIte, Option.map_eq_some_iff, Prod.mk.injEq] at hline
    obtain ⟨⟨w, dirty'⟩, hw, hv, hdirty⟩ := hline
    have hpin : pinned a := hclean.resolve_left (by simp [← hdirty])
    have hbase := h a w dirty' hw (.inr hpin)
    rw [← hv, hpinned a w hP hpin]
    exact hbase
  · simp only [Overlay.write, hP, ↓reduceIte] at hline
    exact h a v dirty hline hclean

end

/-! ## Replacing a block by another -/

/-- The copies in `V` are dropped, the dirty ones after they have been stored below, and copies of
the cells in `P` are brought in. -/
def replace (P V : α → Prop) [DecidablePred P] [DecidablePred V] (dirty : Bool)
    (o : Overlay α β) : Overlay α β where
  base := fun a ↦
    if V a then
      match o.line a with
      | some (v, true) => v
      | _ => o.base a
    else o.base a
  line := fun a ↦ if P a then some (o.base a, dirty) else if V a then none else o.line a

section

variable {P V : α → Prop} [DecidablePred P] [DecidablePred V] {dirty : Bool} {o : Overlay α β}
  {pinned : α → Prop}

/-- The cell below a dropped copy holds what was seen before. -/
theorem Coherent.base_replace (h : o.Coherent pinned) {a : α} (hV : V a) :
    (o.replace P V dirty).base a = o.view a := by
  simp only [replace, hV, ↓reduceIte]
  rcases hline : o.line a with _ | ⟨v, _ | _⟩
  · exact (view_of_none hline).symm
  · rw [view_of_line hline]
    exact h a v false hline (.inl rfl)
  · exact (view_of_line hline).symm

/-- Replacing a block is invisible. -/
theorem Coherent.view_replace (h : o.Coherent pinned) (hnew : ∀ a, P a → o.line a = none) (a : α) :
    (o.replace P V dirty).view a = o.view a := by
  by_cases hP : P a
  · have hline : (o.replace P V dirty).line a = some (o.base a, dirty) := by
      simp only [replace, hP, ↓reduceIte]
    rw [view_of_line hline, view_of_none (hnew a hP)]
  · by_cases hV : V a
    · have hline : (o.replace P V dirty).line a = none := by
        simp only [replace, hP, hV, ↓reduceIte]
      rw [view_of_none hline, h.base_replace hV]
    · simp only [view, replace, hP, hV, ↓reduceIte]

theorem Coherent.replace (h : o.Coherent pinned) (hdisjoint : ∀ a, P a → ¬V a) :
    (o.replace P V dirty).Coherent pinned := by
  intro a v d hline hclean
  by_cases hP : P a
  · simp only [Overlay.replace, hP, ↓reduceIte, Option.some.injEq, Prod.mk.injEq] at hline
    simp only [Overlay.replace, hdisjoint a hP, ↓reduceIte]
    exact hline.1
  · by_cases hV : V a
    · simp only [Overlay.replace, hP, hV, ↓reduceIte, reduceCtorEq] at hline
    · simp only [Overlay.replace, hP, hV, ↓reduceIte] at hline ⊢
      exact h a v d hline hclean

end

end Overlay
