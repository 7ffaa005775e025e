import SystemEmulator.Library.Result

/-!
# Machines with outputs

A machine consumes inputs one after another; each step gives an output or fails.  Two states agree
when no sequence of inputs tells them apart by its outputs.
-/

namespace Transducer

open Result

universe u v

variable {σ τ ι ω : Type u} {ε : Type v}

/-- The outputs of a machine along a list of inputs; a step that fails ends the run. -/
def outputs (step : σ → ι → Except ε (ω × σ)) : σ → List ι → Except ε (List ω)
  | _, [] => .ok []
  | s, i :: is => step s i >>= fun r ↦ (outputs step r.2 is).map (r.1 :: ·)

/-- No sequence of inputs that satisfy `P` tells the two states apart. -/
def Agree (step : σ → ι → Except ε (ω × σ)) (step' : τ → ι → Except ε (ω × τ)) (P : ι → Prop)
    (s : σ) (t : τ) : Prop :=
  ∀ is : List ι, (∀ i ∈ is, P i) → outputs step s is = outputs step' t is

/-- Two steps give the same output and lead to related states, or fail alike. -/
def Matches (R : σ → τ → Prop) : Except ε (ω × σ) → Except ε (ω × τ) → Prop :=
  Rel fun r r' ↦ r.1 = r'.1 ∧ R r.2 r'.2

variable {step : σ → ι → Except ε (ω × σ)} {step' : τ → ι → Except ε (ω × τ)} {P : ι → Prop}

/-- A run of a machine is a run of any machine that simulates it on translated inputs. -/
theorem outputs_eq_of_matches {κ : Type u} {step' : τ → κ → Except ε (ω × τ)} (f : ι → κ)
    (R : σ → τ → Prop)
    (hstep : ∀ s t, R s t → ∀ i, P i → Matches R (step s i) (step' t (f i))) {s : σ} {t : τ}
    (h : R s t) (is : List ι) (his : ∀ i ∈ is, P i) :
    outputs step s is = outputs step' t (is.map f) := by
  induction is generalizing s t with
  | nil => rfl
  | cons i is ih =>
    have hmatch := hstep s t h i (his i List.mem_cons_self)
    rw [List.map_cons, outputs, outputs]
    generalize step s i = x at hmatch
    generalize step' t (f i) = y at hmatch
    cases hmatch with
    | error e => rfl
    | ok hab =>
      obtain ⟨hout, hnext⟩ := hab
      have htail := ih hnext fun j hj ↦ his j (List.mem_cons_of_mem i hj)
      change (outputs step _ is).map _ = (outputs step' _ (is.map f)).map _
      rw [htail, hout]

/-- States that are related by a simulation agree. -/
theorem agree_of_matches (R : σ → τ → Prop)
    (hstep : ∀ s t, R s t → ∀ i, P i → Matches R (step s i) (step' t i)) {s : σ} {t : τ}
    (h : R s t) : Agree step step' P s t := by
  intro is his
  have hrun := outputs_eq_of_matches id R hstep h is his
  rwa [List.map_id] at hrun

/-- Agreeing states give the same outputs and keep agreeing. -/
theorem Agree.next {s s' : σ} {t t' : τ} (h : Agree step step' P s t) {i : ι} (hi : P i)
    {o o' : ω} (hs : step s i = .ok (o, s')) (ht : step' t i = .ok (o', t')) :
    o = o' ∧ Agree step step' P s' t' := by
  have hrun : ∀ is : List ι, (∀ j ∈ is, P j) →
      (outputs step s' is).map (o :: ·) = (outputs step' t' is).map (o' :: ·) := by
    intro is his
    have hall := h (i :: is) (List.forall_mem_cons.mpr ⟨hi, his⟩)
    rw [outputs, outputs, hs, ht] at hall
    exact hall
  have hout : o = o' := by
    have hnil := hrun [] fun j hj ↦ by cases hj
    have hlist : [o] = [o'] := Except.ok.inj hnil
    exact List.head_eq_of_cons_eq hlist
  refine ⟨hout, fun is his ↦ ?_⟩
  have htail := hrun is his
  rw [hout] at htail
  generalize outputs step s' is = x at htail ⊢
  generalize outputs step' t' is = y at htail ⊢
  cases x with
  | error e => cases y with
    | error e' => exact congrArg _ (Except.error.inj htail)
    | ok os' => cases htail
  | ok os => cases y with
    | error e' => cases htail
    | ok os' =>
      have hcons : o' :: os = o' :: os' := Except.ok.inj htail
      rw [List.tail_eq_of_cons_eq hcons]

end Transducer
