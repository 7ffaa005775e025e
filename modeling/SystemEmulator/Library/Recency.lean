import Mathlib.Data.List.Dedup
import Mathlib.Data.List.DropRight
import Mathlib.Data.List.Infix
import Mathlib.Data.List.Nodup
import Mathlib.Data.Nat.Notation

/-!
# Recency orders

A recency order is a list whose head was used last.  The order is determined by a relation on
pairs, `before order r c`, which an implementation can keep in a bit matrix: using an element sets
its row and then clears its column.  Once every element has been used, the only row without a one is
that of the element used least recently.
-/

namespace Recency

variable {α : Type*} [DecidableEq α]

/-- Using an element moves it to the front. -/
def touch (i : α) (order : List α) : List α := i :: order.erase i

/-- Of two different elements, `r` comes first in the order. -/
def before : List α → α → α → Bool
  | [], _, _ => false
  | x :: xs, r, c => if x = c then false else if x = r then true else before xs r c

theorem mem_touch {i j : α} {order : List α} : j ∈ touch i order ↔ j = i ∨ j ∈ order := by
  unfold touch
  by_cases hij : j = i
  · simp [hij]
  · simp [hij, List.mem_erase_of_ne hij]

theorem nodup_touch {order : List α} (h : order.Nodup) (i : α) : (touch i order).Nodup :=
  List.nodup_cons.mpr ⟨h.not_mem_erase, h.erase i⟩

theorem touch_of_notMem {i : α} {order : List α} (h : i ∉ order) : touch i order = i :: order := by
  rw [touch, List.erase_of_not_mem h]

/-- Using an element of an order in two parts. -/
theorem touch_append {i : α} {front back : List α} (h : (front ++ back).Nodup) :
    touch i front ++ back.erase i = touch i (front ++ back) := by
  have hdisjoint := List.disjoint_of_nodup_append h
  by_cases hi : i ∈ front
  · rw [touch, touch, List.erase_append_left _ hi, List.erase_of_not_mem (hdisjoint hi),
      List.cons_append]
  · rw [touch, touch, List.erase_append_right _ hi, List.erase_of_not_mem hi, List.cons_append]

theorem length_touch_of_mem {i : α} {order : List α} (h : i ∈ order) :
    (touch i order).length = order.length := by
  have hpos := List.length_pos_of_mem h
  rw [touch, List.length_cons, List.length_erase_of_mem h]
  omega

/-! ## The order as a relation -/

theorem before_erase {i r c : α} (hr : i ≠ r) (hc : i ≠ c) (order : List α) :
    before (order.erase i) r c = before order r c := by
  induction order with
  | nil => rfl
  | cons x xs ih =>
    by_cases hx : x = i
    · subst hx
      simp [before, hr, hc]
    · rw [List.erase_cons_tail (by simpa using hx), before, before, ih]

/-- Using an element sets its row and clears its column. -/
theorem before_touch (i : α) (order : List α) (r c : α) :
    before (touch i order) r c =
      if c = i then false else if r = i then true else before order r c := by
  by_cases hc : c = i
  · simp [touch, before, hc]
  · by_cases hr : r = i
    · simp [touch, before, hc, hr, Ne.symm hc]
    · simp [touch, before, hc, hr, Ne.symm hc, Ne.symm hr,
        before_erase (Ne.symm hr) (Ne.symm hc)]

theorem before_of_notMem {r : α} {order : List α} (h : r ∉ order) (c : α) :
    before order r c = false := by
  induction order with
  | nil => rfl
  | cons x xs ih =>
    simp only [List.mem_cons, not_or] at h
    simp [before, Ne.symm h.1, ih h.2]

/-- An element that has been used comes before every one that has not. -/
theorem before_of_mem_of_notMem {r c : α} {order : List α} (hr : r ∈ order) (hc : c ∉ order) :
    before order r c = true := by
  induction order with
  | nil => cases hr
  | cons x xs ih =>
    simp only [List.mem_cons, not_or] at hc
    have hxc : x ≠ c := Ne.symm hc.1
    by_cases hx : x = r
    · subst hx
      simp [before, hxc]
    · have htail := (List.mem_cons.mp hr).resolve_left (Ne.symm hx)
      simp [before, hxc, hx, ih htail hc.2]

/-- The last element comes before nothing in the order. -/
theorem before_last {last : α} {front : List α} (h : last ∉ front) {c : α}
    (hc : c ∈ front ++ [last]) : before (front ++ [last]) last c = false := by
  induction front with
  | nil =>
    obtain rfl : c = last := by simpa using hc
    simp [before]
  | cons x xs ih =>
    simp only [List.mem_cons, not_or] at h
    rcases List.mem_cons.mp hc with rfl | hc
    · simp [before]
    · by_cases hx : x = c
      · simp [before, hx]
      · simp [before, hx, Ne.symm h.1, ih h.2 hc]

/-- Every other element comes before the last one. -/
theorem before_of_mem_front {r last : α} {front : List α} (hr : r ∈ front) (h : last ∉ front) :
    before (front ++ [last]) r last = true := by
  induction front with
  | nil => cases hr
  | cons x xs ih =>
    simp only [List.mem_cons, not_or] at h
    rcases List.mem_cons.mp hr with rfl | hr
    · simp [before, Ne.symm h.1]
    · by_cases hx : x = r
      · simp [before, hx, hx ▸ Ne.symm h.1]
      · simp [before, hx, Ne.symm h.1, ih hr h.2]

/-- The rows without a one, once every element has been used. -/
theorem row_zero_iff {last : α} {front : List α} (h : last ∉ front) {r : α}
    (hr : r ∈ front ++ [last]) :
    (∀ c ∈ front ++ [last], before (front ++ [last]) r c = false) ↔ r = last := by
  constructor
  · intro hrow
    rcases List.mem_append.mp hr with hfront | hlast
    · have hone := before_of_mem_front hfront h
      rw [hrow last (by simp)] at hone
      cases hone
    · exact List.mem_singleton.mp hlast
  · rintro rfl c hc
    exact before_last h hc

/-- An order is sorted by a relation when the relation implies coming first. -/
theorem pairwise_iff_before {R : α → α → Prop} (htotal : ∀ a b, a ≠ b → R a b ∨ R b a)
    (hasymm : ∀ a b, R a b → ¬R b a) {order : List α} (hnodup : order.Nodup) :
    order.Pairwise R ↔ ∀ r ∈ order, ∀ c ∈ order, R r c → before order r c = true := by
  have hirrefl : ∀ a, ¬R a a := fun a h ↦ hasymm a a h h
  induction order with
  | nil => simp
  | cons x xs ih =>
    obtain ⟨hx, htail⟩ := List.nodup_cons.mp hnodup
    have hbefore : ∀ r ∈ xs, ∀ c ∈ xs, before (x :: xs) r c = before xs r c := by
      intro r hr c hc
      have hxr : x ≠ r := fun hcontra ↦ hx (hcontra ▸ hr)
      have hxc : x ≠ c := fun hcontra ↦ hx (hcontra ▸ hc)
      simp [before, hxr, hxc]
    rw [List.pairwise_cons]
    constructor
    · rintro ⟨hfirst, hsorted⟩ r hr c hc hrc
      have hrest := (ih htail).mp hsorted
      rcases List.mem_cons.mp hc with rfl | hc
      · rcases List.mem_cons.mp hr with rfl | hr
        · exact absurd hrc (hirrefl r)
        · exact absurd hrc (hasymm c r (hfirst r hr))
      · have hxc : x ≠ c := fun hcontra ↦ hx (hcontra ▸ hc)
        rcases List.mem_cons.mp hr with rfl | hr
        · simp [before, hxc]
        · rw [hbefore r hr c hc]
          exact hrest r hr c hc hrc
    · intro hall
      refine ⟨fun c hc ↦ ?_, (ih htail).mpr fun r hr c hc hrc ↦ ?_⟩
      · have hxc : x ≠ c := fun hcontra ↦ hx (hcontra ▸ hc)
        rcases htotal x c hxc with hlt | hgt
        · exact hlt
        · have hfirst := hall c (List.mem_cons_of_mem x hc) x List.mem_cons_self hgt
          simp [before] at hfirst
      · rw [← hbefore r hr c hc]
        exact hall r (List.mem_cons_of_mem x hr) c (List.mem_cons_of_mem x hc) hrc

/-! ## Histories -/

/-- The order after a sequence of uses. -/
def order (uses : List α) : List α := uses.foldl (fun order i ↦ touch i order) []

/-- The uses after the last one of `r`; all of them when `r` has not been used. -/
def since (uses : List α) (r : α) : List α := uses.rtakeWhile fun i ↦ decide (i ≠ r)

theorem order_concat (uses : List α) (i : α) : order (uses ++ [i]) = touch i (order uses) := by
  rw [order, List.foldl_append]
  rfl

theorem since_concat_self (uses : List α) (r : α) : since (uses ++ [r]) r = [] :=
  List.rtakeWhile_concat_neg _ _ _ (by simp)

theorem since_concat_of_ne (uses : List α) {r i : α} (h : i ≠ r) :
    since (uses ++ [i]) r = since uses r ++ [i] :=
  List.rtakeWhile_concat_pos _ _ _ (by simpa using h)

theorem mem_order {uses : List α} {r : α} : r ∈ order uses ↔ r ∈ uses := by
  induction uses using List.reverseRecOn with
  | nil => rfl
  | append_singleton uses i ih =>
    rw [order_concat, mem_touch, ih, List.mem_append, List.mem_singleton]
    exact or_comm

theorem nodup_order (uses : List α) : (order uses).Nodup := by
  induction uses using List.reverseRecOn with
  | nil => exact List.nodup_nil
  | append_singleton uses i ih =>
    rw [order_concat]
    exact nodup_touch ih i

/-- One element comes before another when it has been used and the other has not been used since. -/
theorem before_order_iff (uses : List α) (r c : α) :
    before (order uses) r c = true ↔ r ≠ c ∧ r ∈ uses ∧ c ∉ since uses r := by
  induction uses using List.reverseRecOn with
  | nil => simp [order, before]
  | append_singleton uses i ih =>
    rw [order_concat, before_touch, List.mem_append, List.mem_singleton]
    by_cases hc : c = i
    · -- the column of the element just used
      subst hc
      rw [if_pos rfl]
      constructor
      · rintro ⟨⟩
      · rintro ⟨hne, -, hsince⟩
        rw [since_concat_of_ne uses (Ne.symm hne)] at hsince
        exact absurd (List.mem_append_right _ (List.mem_singleton_self c)) hsince
    · by_cases hr : r = i
      · subst hr
        rw [if_neg hc, if_pos rfl, since_concat_self]
        simp [Ne.symm hc]
      · rw [if_neg hc, if_neg hr, ih, since_concat_of_ne uses (Ne.symm hr), List.mem_append,
          List.mem_singleton, or_iff_left hr, or_iff_left hc]

/-- An element that comes before another was used later. -/
theorem since_lt_of_before {uses : List α} {r c : α} (h : before (order uses) r c = true) :
    (since uses r).length < (since uses c).length := by
  induction uses using List.reverseRecOn with
  | nil => simp [order, before] at h
  | append_singleton uses i ih =>
    rw [order_concat, before_touch] at h
    by_cases hc : c = i
    · rw [if_pos hc] at h
      cases h
    · rw [if_neg hc] at h
      rw [since_concat_of_ne uses (Ne.symm hc), List.length_append, List.length_singleton]
      by_cases hr : r = i
      · subst hr
        rw [since_concat_self]
        exact Nat.succ_pos _
      · rw [if_neg hr] at h
        rw [since_concat_of_ne uses (Ne.symm hr), List.length_append, List.length_singleton]
        exact Nat.succ_lt_succ (ih h)

/-! ## Bounded orders -/

/-- Using an element of an order that remembers `A` elements only. -/
def access (A : ℕ) (i : α) (order : List α) : List α := (touch i order).take A

theorem length_access_le (A : ℕ) (i : α) (order : List α) : (access A i order).length ≤ A :=
  List.length_take_le A _

theorem nodup_access {order : List α} (h : order.Nodup) (A : ℕ) (i : α) :
    (access A i order).Nodup :=
  (nodup_touch h i).sublist (List.take_sublist A _)

/-- A smaller memory holds the first elements of a larger one. -/
theorem access_prefix {A₁ A₂ : ℕ} (hA : A₁ ≤ A₂) {order₁ order₂ : List α}
    (h : order₁ <+: order₂) (i : α) : access A₁ i order₁ <+: access A₂ i order₂ := by
  have htouch : touch i order₁ <+: touch i order₂ :=
    List.cons_prefix_cons.mpr ⟨rfl, h.erase i⟩
  exact (htouch.take A₁).trans (List.take_prefix_take_left hA)

theorem access_of_mem {A : ℕ} {i : α} {order : List α} (h : i ∈ order) (hle : order.length ≤ A) :
    access A i order = touch i order := by
  apply List.take_of_length_le
  rwa [length_touch_of_mem h]

theorem access_of_notMem {A : ℕ} {i : α} {order : List α} (h : i ∉ order) (hA : 1 ≤ A) :
    access A i order = i :: order.take (A - 1) := by
  obtain ⟨n, rfl⟩ : ∃ n, A = n + 1 := ⟨A - 1, by omega⟩
  rw [access, touch_of_notMem h, List.take_succ_cons, Nat.add_sub_cancel]

theorem length_le_touch (i : α) (order : List α) : order.length ≤ (touch i order).length := by
  by_cases hmem : i ∈ order
  · rw [length_touch_of_mem hmem]
  · rw [touch_of_notMem hmem]
    exact Nat.le_succ _

/-- What a bounded memory has dropped makes no difference to it. -/
theorem access_take (A : ℕ) (i : α) (order : List α) :
    access A i (order.take A) = access A i order := by
  by_cases hle : order.length ≤ A
  · rw [List.take_of_length_le hle]
  · have hlength : A ≤ (order.take A).length := by
      rw [List.length_take]
      omega
    have hprefix := access_prefix (le_refl A) (List.take_prefix A order) i
    refine hprefix.eq_of_length ?_
    rw [access, access, List.length_take, List.length_take,
      min_eq_left (hlength.trans (length_le_touch i _)),
      min_eq_left ((le_of_not_ge hle).trans (length_le_touch i _))]

/-- The elements used since the last use of `r` come before it. -/
theorem order_eq_append {uses : List α} {r : α} (h : r ∈ uses) :
    ∃ back, order uses = order (since uses r) ++ r :: back := by
  induction uses using List.reverseRecOn with
  | nil => cases h
  | append_singleton uses i ih =>
    by_cases hi : i = r
    · subst hi
      rw [since_concat_self, order_concat]
      exact ⟨_, rfl⟩
    · have hmem : r ∈ uses := by
        rcases List.mem_append.mp h with hmem | hmem
        · exact hmem
        · exact absurd (List.mem_singleton.mp hmem).symm hi
      obtain ⟨back, hback⟩ := ih hmem
      refine ⟨back.erase i, ?_⟩
      have hnodup := nodup_order uses
      rw [hback] at hnodup
      rw [since_concat_of_ne uses hi, order_concat, order_concat, hback, ← touch_append hnodup,
        List.erase_cons_tail (by simpa using Ne.symm hi)]

theorem order_perm_dedup (uses : List α) : (order uses).Perm uses.dedup :=
  (List.perm_ext_iff_of_nodup (nodup_order uses) (List.nodup_dedup uses)).mpr fun r ↦ by
    rw [mem_order, List.mem_dedup]

/-- A memory of `A` elements holds the elements since whose last use fewer than `A` different ones
have been used. -/
theorem mem_take_order_iff {A : ℕ} {uses : List α} {r : α} :
    r ∈ (order uses).take A ↔ r ∈ uses ∧ (since uses r).dedup.length < A := by
  by_cases hmem : r ∈ uses
  · obtain ⟨back, hback⟩ := order_eq_append hmem
    have hnodup := nodup_order uses
    rw [hback] at hnodup
    have hfront : r ∉ order (since uses r) := fun h ↦
      (List.nodup_append.mp hnodup).2.2 r h r List.mem_cons_self rfl
    rw [hback, ← (order_perm_dedup (since uses r)).length_eq, List.take_append, List.mem_append,
      and_iff_right hmem, or_iff_right fun h ↦ hfront (List.mem_of_mem_take h)]
    constructor
    · intro h
      by_contra hge
      rw [Nat.sub_eq_zero_of_le (not_lt.mp hge)] at h
      cases h
    · intro hlt
      obtain ⟨n, hn⟩ := Nat.exists_eq_add_of_lt hlt
      rw [hn, Nat.add_assoc, Nat.add_sub_cancel_left]
      exact List.mem_cons_self
  · exact iff_of_false (fun h ↦ hmem (mem_order.mp (List.mem_of_mem_take h))) fun h ↦ hmem h.1

end Recency
