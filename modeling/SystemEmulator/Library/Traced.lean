import Mathlib.Logic.Basic

/-!
# Instrumented computations

A fallible computation that leaves a list of events behind.  Forgetting the events commutes with
sequencing, and a predicate holds of all events of a sequence when it holds of those of its parts.
-/

/-- A fallible computation with the events it has gone through, up to a failure. -/
structure Traced (ε η α : Type) where
  events : List η
  result : Except ε α

namespace Traced

variable {ε η α β : Type}

instance : Monad (Traced ε η) where
  pure a := ⟨[], .ok a⟩
  bind x f := match x.result with
    | .ok a => ⟨x.events ++ (f a).events, (f a).result⟩
    | .error e => ⟨x.events, .error e⟩

def lift (x : Except ε α) : Traced ε η α := ⟨[], x⟩

def emit (events : List η) : Traced ε η Unit := ⟨events, .ok ()⟩

@[simp] theorem result_lift (x : Except ε α) : (lift x : Traced ε η α).result = x := rfl

@[simp] theorem result_emit (events : List η) :
    (emit events : Traced ε η Unit).result = .ok () := rfl

@[simp] theorem result_pure (a : α) : (pure a : Traced ε η α).result = .ok a := rfl

@[simp] theorem result_bind (x : Traced ε η α) (f : α → Traced ε η β) :
    (x >>= f).result = x.result >>= fun a ↦ (f a).result := by
  change (match x.result with
    | .ok a => (⟨x.events ++ (f a).events, (f a).result⟩ : Traced ε η β)
    | .error e => ⟨x.events, .error e⟩).result = _
  cases x.result <;> rfl

/-! ## Predicates on events -/

def All (P : η → Prop) (x : Traced ε η α) : Prop := ∀ event ∈ x.events, P event

variable {P : η → Prop}

@[simp] theorem all_lift (x : Except ε α) : (lift x : Traced ε η α).All P := fun _ h ↦ nomatch h

@[simp] theorem all_pure (a : α) : (pure a : Traced ε η α).All P := fun _ h ↦ nomatch h

@[simp] theorem all_emit (events : List η) :
    (emit events : Traced ε η Unit).All P ↔ ∀ event ∈ events, P event := Iff.rfl

/-- The events of a sequence are those of the first part and, if that returns, of the second. -/
@[simp] theorem all_bind (x : Traced ε η α) (f : α → Traced ε η β) :
    (x >>= f).All P ↔ x.All P ∧ ∀ a, x.result = .ok a → (f a).All P := by
  change All P (match x.result with
    | .ok a => (⟨x.events ++ (f a).events, (f a).result⟩ : Traced ε η β)
    | .error e => ⟨x.events, .error e⟩) ↔ _
  cases x.result with
  | error e => exact ⟨fun h ↦ ⟨h, fun _ h' ↦ nomatch h'⟩, fun h ↦ h.1⟩
  | ok a =>
    simp only [All, List.forall_mem_append, Except.ok.injEq, forall_eq']

end Traced
