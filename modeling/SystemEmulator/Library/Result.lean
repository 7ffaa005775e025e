import Mathlib.Logic.Relation

/-!
# Fallible computations

Inversion of `>>=` for `Except`, postconditions of a value and of a failure, and the lifting of a
relation to results: two computations are related when both fail in the same way or both succeed
with related values.
-/

namespace Result

universe u v

variable {ε : Type v} {α β γ δ : Type u}

theorem bind_eq_ok {x : Except ε α} {f : α → Except ε β} {b : β} :
    x >>= f = .ok b ↔ ∃ a, x = .ok a ∧ f a = .ok b := by
  cases x with
  | error e => exact ⟨fun h ↦ (nomatch h), fun ⟨_, h, _⟩ ↦ (nomatch h)⟩
  | ok a => exact ⟨fun h ↦ ⟨a, rfl, h⟩, fun ⟨_, h, hf⟩ ↦ by cases h; exact hf⟩

theorem map_eq_ok {x : Except ε α} {f : α → β} {b : β} :
    x.map f = .ok b ↔ ∃ a, x = .ok a ∧ f a = b := by
  cases x with
  | error e => exact ⟨fun h ↦ (nomatch h), fun ⟨_, h, _⟩ ↦ (nomatch h)⟩
  | ok a =>
    constructor
    · intro h
      exact ⟨a, rfl, Except.ok.inj h⟩
    · rintro ⟨_, h, rfl⟩
      cases h
      rfl

theorem map_eq_bind (x : Except ε α) (f : α → β) : x.map f = x >>= fun a ↦ .ok (f a) := by
  cases x <;> rfl

/-! ## Postconditions -/

/-- Every value that the computation returns satisfies `P`. -/
def Ensures (x : Except ε α) (P : α → Prop) : Prop := ∀ a, x = .ok a → P a

namespace Ensures

variable {x : Except ε α} {P : α → Prop} {Q : β → Prop}

theorem ok {a : α} (h : P a) : Ensures (.ok a : Except ε α) P := by
  intro a' ha'
  cases ha'
  exact h

theorem error (e : ε) : Ensures (.error e : Except ε α) P := fun _ h ↦ (nomatch h)

theorem bind {f : α → Except ε β} (hx : Ensures x P) (hf : ∀ a, P a → Ensures (f a) Q) :
    Ensures (x >>= f) Q := by
  intro b hb
  obtain ⟨a, ha, hfa⟩ := bind_eq_ok.mp hb
  exact hf a (hx a ha) b hfa

theorem mono {P' : α → Prop} (hx : Ensures x P) (h : ∀ a, P a → P' a) : Ensures x P' :=
  fun a ha ↦ h a (hx a ha)

end Ensures

/-- A returned value satisfies `P`, and a failure satisfies `E`. -/
inductive Post (P : α → Prop) (E : ε → Prop) : Except ε α → Prop
  | ok {a : α} (h : P a) : Post P E (.ok a)
  | error {e : ε} (h : E e) : Post P E (.error e)

namespace Post

variable {P : α → Prop} {Q : β → Prop} {E : ε → Prop} {x : Except ε α}

theorem bind {f : α → Except ε β} (hx : Post P E x) (hf : ∀ a, P a → Post Q E (f a)) :
    Post Q E (x >>= f) := by
  cases hx with
  | ok h => exact hf _ h
  | error h => exact .error h

theorem map {f : α → β} (hx : Post P E x) (hf : ∀ a, P a → Q (f a)) : Post Q E (x.map f) := by
  cases hx with
  | ok h => exact .ok (hf _ h)
  | error h => exact .error h

theorem mono {P' : α → Prop} {E' : ε → Prop} (hx : Post P E x) (hP : ∀ a, P a → P' a)
    (hE : ∀ e, E e → E' e) : Post P' E' x := by
  cases hx with
  | ok h => exact .ok (hP _ h)
  | error h => exact .error (hE _ h)

theorem of_ok (hx : Post P E x) {a : α} (h : x = .ok a) : P a := by
  subst h
  cases hx with
  | ok h => exact h

theorem of_error (hx : Post P E x) {e : ε} (h : x = .error e) : E e := by
  subst h
  cases hx with
  | error h => exact h

end Post

/-! ## Lifting a relation -/

/-- The lifting of a relation to results. -/
inductive Rel (R : α → β → Prop) : Except ε α → Except ε β → Prop
  | ok {a : α} {b : β} (h : R a b) : Rel R (.ok a) (.ok b)
  | error (e : ε) : Rel R (.error e) (.error e)

namespace Rel

variable {R : α → β → Prop} {S : γ → δ → Prop} {x : Except ε α} {y : Except ε β}

theorem refl {R : α → α → Prop} (hR : ∀ a, R a a) (x : Except ε α) : Rel R x x := by
  cases x with
  | error e => exact .error e
  | ok a => exact .ok (hR a)

theorem trans {T : β → γ → Prop} {U : α → γ → Prop} (hU : ∀ a b c, R a b → T b c → U a c)
    {z : Except ε γ} (hxy : Rel R x y) (hyz : Rel T y z) : Rel U x z := by
  cases hxy with
  | error e => cases hyz; exact .error e
  | ok hab => cases hyz with
    | ok hbc => exact .ok (hU _ _ _ hab hbc)

/-- Related computations continue alike. -/
theorem bind {f : α → Except ε γ} {g : β → Except ε δ} (hxy : Rel R x y)
    (hfg : ∀ a b, R a b → Rel S (f a) (g b)) : Rel S (x >>= f) (y >>= g) := by
  cases hxy with
  | error e => exact .error e
  | ok hab => exact hfg _ _ hab

theorem map {f : α → γ} {g : β → δ} (hxy : Rel R x y) (hfg : ∀ a b, R a b → S (f a) (g b)) :
    Rel S (x.map f) (y.map g) := by
  cases hxy with
  | error e => exact .error e
  | ok hab => exact .ok (hfg _ _ hab)

theorem mono {R' : α → β → Prop} (hxy : Rel R x y) (h : ∀ a b, R a b → R' a b) : Rel R' x y := by
  cases hxy with
  | error e => exact .error e
  | ok hab => exact .ok (h _ _ hab)

theorem and_ensures {P : α → Prop} (hxy : Rel R x y) (hx : Ensures x P) :
    Rel (fun a b ↦ R a b ∧ P a) x y := by
  cases hxy with
  | error e => exact .error e
  | ok hab => exact .ok ⟨hab, hx _ rfl⟩

theorem exists_of_ok (hxy : Rel R x y) {a : α} (hx : x = .ok a) : ∃ b, y = .ok b ∧ R a b := by
  subst hx
  cases hxy with
  | ok hab => exact ⟨_, rfl, hab⟩

end Rel

end Result
