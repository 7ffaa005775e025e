import Mathlib.Logic.Relation

/-!
# Computations that may stop or go on forever

A computation in `ExceptT ε Option` returns a value, stops with a reason, or never ends.  Two
computations are alike when they end in related ways or both never end.
-/

namespace Outcome

universe u

variable {ε ε' : Type u} {α β : Type u}

/-- The computation that never ends. -/
def hang : ExceptT ε Option α := (none : Option (Except ε α))

/-- The lifting of a relation on reasons and of one on values to computations. -/
inductive Rel (E : ε → ε' → Prop) (R : α → β → Prop) :
    ExceptT ε Option α → ExceptT ε' Option β → Prop
  | ok {a : α} {b : β} (h : R a b) : Rel E R (pure a) (pure b)
  | stop {e : ε} {e' : ε'} (h : E e e') : Rel E R (throw e) (throw e')
  | hung : Rel E R hang hang

/-- A computation returns, stops or never ends. -/
theorem cases_on (x : ExceptT ε Option α) :
    (∃ a, x = pure a) ∨ (∃ e, x = throw e) ∨ x = hang := by
  match x with
  | some (.ok a) => exact .inl ⟨a, rfl⟩
  | some (.error e) => exact .inr (.inl ⟨e, rfl⟩)
  | none => exact .inr (.inr rfl)

theorem pure_inj {a b : α} (h : (pure a : ExceptT ε Option α) = pure b) : a = b := by
  cases h
  rfl

theorem throw_inj {e e' : ε} (h : (throw e : ExceptT ε Option α) = throw e') : e = e' := by
  cases h
  rfl

theorem pure_ne_throw {a : α} {e : ε} : (pure a : ExceptT ε Option α) ≠ throw e := by
  intro h
  cases h

theorem throw_bind (e : ε) (f : α → ExceptT ε Option β) :
    (throw e : ExceptT ε Option α) >>= f = throw e := rfl

theorem hang_bind (f : α → ExceptT ε Option β) : (hang : ExceptT ε Option α) >>= f = hang := rfl

theorem pure_ne_hang {a : α} : (pure a : ExceptT ε Option α) ≠ hang := by
  intro h
  cases h

theorem throw_ne_hang {e : ε} : (throw e : ExceptT ε Option α) ≠ hang := by
  intro h
  cases h

/-- A computation that returns has returned from its first part. -/
theorem bind_eq_pure {x : ExceptT ε Option α} {f : α → ExceptT ε Option β} {b : β} :
    x >>= f = pure b ↔ ∃ a, x = pure a ∧ f a = pure b := by
  rcases cases_on x with ⟨a, rfl⟩ | ⟨e, rfl⟩ | rfl
  · rw [pure_bind]
    exact ⟨fun h ↦ ⟨a, rfl, h⟩, fun ⟨_, ha, h⟩ ↦ pure_inj ha ▸ h⟩
  · exact ⟨fun h ↦ absurd h.symm pure_ne_throw, fun ⟨_, ha, _⟩ ↦ absurd ha.symm pure_ne_throw⟩
  · exact ⟨fun h ↦ absurd h.symm pure_ne_hang, fun ⟨_, ha, _⟩ ↦ absurd ha.symm pure_ne_hang⟩

/-- Continuations need to agree on the values that are returned only. -/
theorem bind_congr_of_pure {x : ExceptT ε Option α} {f g : α → ExceptT ε Option β}
    (h : ∀ a, x = pure a → f a = g a) : x >>= f = x >>= g := by
  rcases cases_on x with ⟨a, rfl⟩ | ⟨e, rfl⟩ | rfl
  · rw [pure_bind, pure_bind]
    exact h a rfl
  · rfl
  · rfl

namespace Rel

variable {E : ε → ε → Prop} {R : α → α → Prop} {x y z : ExceptT ε Option α}

theorem refl (hE : ∀ e, E e e) (hR : ∀ a, R a a) (x : ExceptT ε Option α) : Rel E R x x := by
  rcases cases_on x with ⟨a, rfl⟩ | ⟨e, rfl⟩ | rfl
  · exact .ok (hR a)
  · exact .stop (hE e)
  · exact .hung

theorem symm (hE : ∀ e e', E e e' → E e' e) (hR : ∀ a b, R a b → R b a) (h : Rel E R x y) :
    Rel E R y x := by
  cases h with
  | ok h => exact .ok (hR _ _ h)
  | stop h => exact .stop (hE _ _ h)
  | hung => exact .hung

/-- What the second of two related computations tells about the first. -/
theorem of_pure {b : α} (h : Rel E R x (pure b)) : ∃ a, x = pure a ∧ R a b := by
  generalize hy : (pure b : ExceptT ε Option α) = y at h
  cases h with
  | ok h => exact ⟨_, rfl, pure_inj hy ▸ h⟩
  | stop h => exact absurd hy pure_ne_throw
  | hung => exact absurd hy pure_ne_hang

theorem of_throw {e' : ε} (h : Rel E R x (throw e')) : ∃ e, x = throw e ∧ E e e' := by
  generalize hy : (throw e' : ExceptT ε Option α) = y at h
  cases h with
  | ok h => exact absurd hy.symm pure_ne_throw
  | stop h => exact ⟨_, rfl, throw_inj hy ▸ h⟩
  | hung => exact absurd hy throw_ne_hang

/-- What the first of two related computations tells about the second. -/
theorem of_pure_left {a : α} (h : Rel E R (pure a) y) : ∃ b, y = pure b ∧ R a b := by
  generalize hx : (pure a : ExceptT ε Option α) = x at h
  cases h with
  | ok h => exact ⟨_, rfl, pure_inj hx ▸ h⟩
  | stop h => exact absurd hx pure_ne_throw
  | hung => exact absurd hx pure_ne_hang

theorem of_throw_left {e : ε} (h : Rel E R (throw e) y) : ∃ e', y = throw e' ∧ E e e' := by
  generalize hx : (throw e : ExceptT ε Option α) = x at h
  cases h with
  | ok h => exact absurd hx.symm pure_ne_throw
  | stop h => exact ⟨_, rfl, throw_inj hx ▸ h⟩
  | hung => exact absurd hx throw_ne_hang

theorem of_hang (h : Rel E R x hang) : x = hang := by
  generalize hy : (hang : ExceptT ε Option α) = y at h
  cases h with
  | ok h => exact absurd hy.symm pure_ne_hang
  | stop h => exact absurd hy.symm throw_ne_hang
  | hung => rfl

/-- Relations compose, also when they differ. -/
theorem trans {E' E'' : ε → ε → Prop} {R' R'' : α → α → Prop}
    (hE : ∀ e e' e'', E e e' → E' e' e'' → E'' e e'')
    (hR : ∀ a b c, R a b → R' b c → R'' a c) (hxy : Rel E R x y) (hyz : Rel E' R' y z) :
    Rel E'' R'' x z := by
  cases hyz with
  | ok h =>
    obtain ⟨a, rfl, h'⟩ := hxy.of_pure
    exact .ok (hR _ _ _ h' h)
  | stop h =>
    obtain ⟨e, rfl, h'⟩ := hxy.of_throw
    exact .stop (hE _ _ _ h' h)
  | hung =>
    rw [hxy.of_hang]
    exact .hung

/-- Related computations continue alike. -/
theorem bind {β : Type u} {E : ε → ε → Prop} {R : α → α → Prop} {S : β → β → Prop}
    {x y : ExceptT ε Option α} {f g : α → ExceptT ε Option β} (hxy : Rel E R x y)
    (hfg : ∀ a b, R a b → Rel E S (f a) (g b)) : Rel E S (x >>= f) (y >>= g) := by
  cases hxy with
  | ok h =>
    rw [pure_bind, pure_bind]
    exact hfg _ _ h
  | stop h => exact .stop h
  | hung => exact .hung

/-- One computation continued in two ways. -/
theorem bind_self {β : Type u} {E : ε → ε → Prop} {S : β → β → Prop} {x : ExceptT ε Option α}
    {f g : α → ExceptT ε Option β} (hE : ∀ e, E e e)
    (hfg : ∀ a, x = pure a → Rel E S (f a) (g a)) : Rel E S (x >>= f) (x >>= g) := by
  rcases cases_on x with ⟨a, rfl⟩ | ⟨e, rfl⟩ | rfl
  · rw [pure_bind, pure_bind]
    exact hfg a rfl
  · exact .stop (hE e)
  · exact .hung

theorem mono {E' : ε → ε → Prop} {R' : α → α → Prop} (hE : ∀ e e', E e e' → E' e e')
    (hR : ∀ a b, R a b → R' a b) (hxy : Rel E R x y) : Rel E' R' x y := by
  cases hxy with
  | ok hab => exact .ok (hR _ _ hab)
  | stop he => exact .stop (hE _ _ he)
  | hung => exact .hung

end Rel

/-! ## Computations that are cut off -/

/-- `x` is `y`, or it has been cut off. -/
def Approx (x y : ExceptT ε Option α) : Prop := x = hang ∨ x = y

namespace Approx

theorem refl (x : ExceptT ε Option α) : Approx x x := .inr rfl

theorem cut (y : ExceptT ε Option α) : Approx hang y := .inl rfl

theorem bind {x y : ExceptT ε Option α} {f g : α → ExceptT ε Option β} (h : Approx x y)
    (hf : ∀ a, Approx (f a) (g a)) : Approx (x >>= f) (y >>= g) := by
  rcases h with rfl | rfl
  · exact .cut _
  · rcases cases_on x with ⟨a, rfl⟩ | ⟨e, rfl⟩ | rfl
    · rw [pure_bind, pure_bind]
      exact hf a
    · exact .refl _
    · exact .refl _

theorem eq_of_throw {y : ExceptT ε Option α} {e : ε} (h : Approx (throw e) y) : y = throw e :=
  (h.resolve_left throw_ne_hang).symm

end Approx

end Outcome
