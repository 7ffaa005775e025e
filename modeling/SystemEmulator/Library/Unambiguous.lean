import SystemEmulator.Library.Numeral

/-!
# Unambiguous texts

A writer is unambiguous when a text that starts with what it has written determines the value and
the rest of the text.  Writers are put together one behind another.
-/

/-- No two values are written in ways of which one continues the other. -/
def Unambiguous {α : Type*} (w : α → List Char) : Prop :=
  ∀ ⦃a b : α⦄ ⦃r s : List Char⦄, w a ++ r = w b ++ s → a = b ∧ r = s

namespace Unambiguous

variable {α β : Type*} {w : α → List Char}

/-- A value behind the same text. -/
theorem behind (h : Unambiguous w) {text : List Char} {a b : α} {r s : List Char}
    (hrs : text ++ (w a ++ r) = text ++ (w b ++ s)) : a = b ∧ r = s :=
  h (List.append_cancel_left hrs)

/-- A text in front. -/
theorem label (h : Unambiguous w) (text : List Char) : Unambiguous fun a ↦ text ++ w a := by
  intro a b r s hrs
  rw [List.append_assoc, List.append_assoc] at hrs
  exact h (List.append_cancel_left hrs)

/-- Two values. -/
theorem append (h : Unambiguous w) {v : β → List Char} (hv : Unambiguous v) :
    Unambiguous fun p : α × β ↦ w p.1 ++ v p.2 := by
  rintro ⟨a, b⟩ ⟨a', b'⟩ r s hrs
  rw [List.append_assoc, List.append_assoc] at hrs
  obtain ⟨hfst, hrest⟩ := h hrs
  obtain ⟨hsnd, htail⟩ := hv hrest
  exact ⟨Prod.ext hfst hsnd, htail⟩

/-- The value that another one determines. -/
theorem comp (h : Unambiguous w) {f : β → α} (hf : Function.Injective f) :
    Unambiguous fun b ↦ w (f b) := by
  intro a b r s hrs
  obtain ⟨hab, htail⟩ := h hrs
  exact ⟨hf hab, htail⟩

/-- One value for each index. -/
theorem flatMap {ι : Type*} {w : ι → α → List Char} (h : ∀ i, Unambiguous (w i)) (is : List ι)
    {f g : ι → α} {r s : List Char}
    (hrs : is.flatMap (fun i ↦ w i (f i)) ++ r = is.flatMap (fun i ↦ w i (g i)) ++ s) :
    (∀ i ∈ is, f i = g i) ∧ r = s := by
  induction is with
  | nil => exact ⟨fun i hi ↦ (nomatch hi), hrs⟩
  | cons i is ih =>
    rw [List.flatMap_cons, List.flatMap_cons, List.append_assoc, List.append_assoc] at hrs
    obtain ⟨hi, hrest⟩ := h i hrs
    obtain ⟨his, htail⟩ := ih hrest
    refine ⟨fun j hj ↦ ?_, htail⟩
    rcases List.mem_cons.mp hj with rfl | hmem
    · exact hi
    · exact his j hmem

/-- A list of values, behind which something else comes. -/
theorem list (h : Unambiguous w) {l l' : List α} {r s : List Char}
    (hr : ∀ a t, r ≠ w a ++ t) (hs : ∀ a t, s ≠ w a ++ t)
    (hrs : l.flatMap w ++ r = l'.flatMap w ++ s) : l = l' ∧ r = s := by
  induction l generalizing l' with
  | nil =>
    cases l' with
    | nil => exact ⟨rfl, hrs⟩
    | cons a l' =>
      rw [List.flatMap_cons, List.append_assoc] at hrs
      exact absurd hrs (hr a _)
  | cons a l ih =>
    cases l' with
    | nil =>
      rw [List.flatMap_cons, List.append_assoc] at hrs
      exact absurd hrs.symm (hs a _)
    | cons b l' =>
      rw [List.flatMap_cons, List.flatMap_cons, List.append_assoc, List.append_assoc] at hrs
      obtain ⟨hab, hrest⟩ := h hrs
      obtain ⟨hl, htail⟩ := ih hrest
      exact ⟨by rw [hab, hl], htail⟩

/-- A number, behind which a character comes that is no digit. -/
theorem toDigits {b : ℕ} (hb : 2 ≤ b) (hb' : b ≤ 16) {c : Char}
    (hc : Numeral.digit b c = none) (text : List Char) :
    Unambiguous fun n ↦ Nat.toDigits b n ++ c :: text := by
  intro n m r s hrs
  rw [List.append_assoc, List.append_assoc, List.cons_append, List.cons_append] at hrs
  obtain ⟨hnm, hrest⟩ := Numeral.toDigits_append_inj hb hb' hc hc hrs
  exact ⟨hnm, List.append_cancel_left (List.cons.inj hrest).2⟩

end Unambiguous
