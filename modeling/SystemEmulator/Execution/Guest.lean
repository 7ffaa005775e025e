import SystemEmulator.Library.A64Program
import SystemEmulator.Memory.Defined
import SystemEmulator.Sequential.Complete

/-!
# The memory that a program sees

Bytes, the segments and the character device, with or without a cache in between.  An access of the
memory stage that is repeated until it is ready does what this view says.
-/

namespace SystemEmulator

open Result LittleEndian

/-- What a program sees of the memory. -/
structure Guest where
  seg_start_addr : Seg → BitVec 64
  view : BitVec 64 → BitVec 8
  stdin : ℕ → BitVec 64
  stdin_pos : ℕ
  output : List (BitVec 64)

def Mem.guest (m : Mem) : Guest :=
  ⟨m.seg_start_addr, m.overlay.view, m.stdin, m.stdin_pos, m.output⟩

namespace Guest

def wordAt (g : Guest) (addr : BitVec 64) (n : ℕ) : BitVec 64 :=
  word (fun i ↦ g.view (addr + BitVec.ofNat 64 i)) n

def isText (g : Guest) (addr : BitVec 64) : Bool :=
  g.seg_start_addr .text ≤ addr && addr < g.seg_start_addr .data && addr.toNat % 4 == 0

def isData (g : Guest) (addr : BitVec 64) : Bool :=
  g.seg_start_addr .data ≤ addr && addr < g.seg_start_addr .kernel && addr.toNat % 8 == 0

/-- A load.  At `IO_CHAR_ADDR` the device delivers the next input. -/
def load (g : Guest) (addr : BitVec 64) : Option (Guest × BitVec 64) :=
  if addr = NULL_ADDR then none
  else if addr = IO_CHAR_ADDR then
    some ({ g with stdin_pos := g.stdin_pos + 1 }, g.stdin g.stdin_pos)
  else if addr = CHECKPOINT_ADDR then some (g, 0)
  else if g.isData addr then some (g, g.wordAt addr 8)
  else none

/-- A store.  At `IO_CHAR_ADDR` the device prints it, and at `NULL_ADDR` it is dropped. -/
def store (g : Guest) (addr val : BitVec 64) : Option Guest :=
  if addr = NULL_ADDR then some g
  else if addr = IO_CHAR_ADDR then some { g with output := g.output ++ [val] }
  else if addr = CHECKPOINT_ADDR then none
  else if g.isData addr then
    some { g with view := fun a ↦
      if (a - addr).toNat < 8 then byte val (a - addr).toNat else g.view a }
  else none

/-- The memory system of the emulator.  A program that comes to address zero has ended. -/
def platform : A64.Platform Guest where
  fetch g pc :=
    if pc ≠ RET_FROM_MAIN_ADDR ∧ g.isText pc then some ((g.wordAt pc 4).setWidth 32) else none
  load := load
  store := store

end Guest

/-! ## Fetching -/

section

variable {m : Mem}

theorem Mem.Kept.guest {m' : Mem} (h : m.Kept m') : m'.guest = m.guest := by
  unfold Mem.guest
  rw [h.seg_start_addr, funext h.view, h.stdin, h.stdin_pos, h.output]

theorem Mem.Same.guest {m' : Mem} (h : m.Same m') : m'.guest = m.guest := by
  obtain ⟨pt, rfl, hpt⟩ := h
  have hoverlay : ({ m with ptable := pt } : Mem).overlay = m.overlay :=
    Overlay.ext (fun a ↦ (hpt a).symm) fun _ ↦ rfl
  unfold Mem.guest
  rw [hoverlay]

theorem isText_guest (m : Mem) (pc : BitVec 64) : m.guest.isText pc = !imemErr m pc := by
  have hlow : (pc &&& 0x3 != 0) = !(pc.toNat % 4 == 0) := by
    rw [bne, ← Nat.and_two_pow_sub_one_eq_mod pc.toNat 2]
    refine congrArg _ (Bool.eq_iff_iff.mpr ?_)
    rw [beq_iff_eq, beq_iff_eq, ← BitVec.toNat_inj, BitVec.toNat_and]
    rfl
  unfold Guest.isText imemErr addrInImem
  rw [hlow, Bool.not_or, Bool.not_not, Bool.not_not]
  rfl

/-- What the program sees at its PC is the word that is fetched. -/
theorem fetch_guest (hm : m.Ok) {pc : BitVec 64} {insnbits : BitVec 32}
    (h : Guest.platform.fetch m.guest pc = some insnbits) :
    pc ≠ 0 ∧ imemErr m pc = false ∧ fetchedWord m.ptable pc = insnbits := by
  simp only [Guest.platform, isText_guest, Option.ite_none_right_eq_some, Bool.not_eq_true',
    Option.some.injEq] at h
  obtain ⟨⟨hpc, herr⟩, rfl⟩ := h
  refine ⟨hpc, herr, ?_⟩
  have hne : pc ≠ CHECKPOINT_ADDR := by
    rintro rfl
    have htext := isText_guest m CHECKPOINT_ADDR
    rw [herr] at htext
    unfold Guest.isText at htext
    rw [show (CHECKPOINT_ADDR.toNat % 4 == 0) = false by decide, Bool.and_false] at htext
    cases htext
  unfold fetchedWord Guest.wordAt
  rw [if_neg hne]
  exact congrArg _ (word_congr fun i hi ↦ hm.byteAt_pinned (pinned_of_imemErr herr hi))

/-! ## Data accesses -/

theorem isData_guest (m : Mem) (addr : BitVec 64) :
    m.guest.isData addr = true ↔ DataAddr m addr := by
  unfold Guest.isData
  rw [Bool.and_eq_true, beq_iff_eq]
  exact ⟨fun h ↦ ⟨h.2, h.1⟩, fun h ↦ ⟨h.inDmem, h.aligned⟩⟩

/-- The error test of the data port. -/
theorem dmemErr_iff {addr : BitVec 64} (hspecial : isSpecialAddr addr = false) :
    dmemErr m addr = false ↔ m.guest.isData addr = true := by
  rw [isData_guest]
  refine ⟨fun h ↦ (dataAddr_of_not_dmemErr h hspecial).1, fun h ↦ ?_⟩
  have hlow : (addr &&& 0x7 != 0) = false := by
    rw [bne_eq_false_iff_eq, ← BitVec.toNat_inj, BitVec.toNat_and]
    exact (Nat.and_two_pow_sub_one_eq_mod addr.toNat 3).trans h.aligned
  unfold dmemErr
  rw [h.inDmem, hlow]
  rfl

/-- A data access, as the program sees it. -/
def DataOp.visible (g : Guest) : DataOp → Option (Guest × BitVec 64)
  | read addr => g.load addr
  | write addr val => (g.store addr val).map fun g ↦ (g, 0)

/-- The effect of an access that took place, as the program sees it. -/
theorem DataOp.Outcome.visible {op : DataOp} {m' : Mem} {value : BitVec 64}
    (h : op.Outcome m m' value) (hspecial : isSpecialAddr op.addr = false)
    (haddr : DataAddr m op.addr) : op.visible m.guest = some (m'.guest, value) := by
  have hdata := (isData_guest m op.addr).mpr haddr
  unfold isSpecialAddr at hspecial
  simp only [Bool.or_eq_false_iff, beq_eq_false_iff_ne] at hspecial
  obtain ⟨⟨hnull, hio⟩, hcheck⟩ := hspecial
  cases op with
  | read addr =>
    obtain ⟨hkept, rfl⟩ := h
    simp only [DataOp.addr] at hdata hnull hio hcheck
    simp only [DataOp.visible, Guest.load, hnull, hio, hcheck, hdata, ↓reduceIte, hkept.guest]
    rfl
  | write addr val =>
    obtain ⟨hstored, rfl⟩ := h
    simp only [DataOp.addr] at hdata hnull hio hcheck
    simp only [DataOp.visible, Guest.store, hnull, hio, hcheck, hdata, ↓reduceIte,
      Option.map_some]
    unfold Mem.guest
    rw [funext hstored.view, hstored.seg_start_addr, hstored.stdin, hstored.stdin_pos,
      hstored.output]

end

/-! ## Repeated accesses -/

section

variable {α β : Type} {access : Mem → Except Crash (Mem × α)}
  {access' : Mem → Except Crash (Mem × β)} {P : Mem → Prop} {f : α → β}

/-- An access that evaluates the result of another one settles with it, as long as `P` holds. -/
theorem settle_map (hwait : ∀ m r, P m → access m = .ok r → r.1.dmem_status = .inFlight → P r.1)
    (heq : ∀ m, P m → access' m = (access m).map fun r ↦ (r.1, f r.2)) (m : Mem)
    (x : Except Crash (Mem × α)) (h : settle access m = some x) :
    P m → settle access' m = some (x.map fun r ↦ (r.1, f r.2)) := by
  refine Mem.settle.partial_correctness access
    (fun m x ↦ P m → settle access' m = some (x.map fun r ↦ (r.1, f r.2))) ?_ m x h
  intro rec ih m x hx hm
  have haccess := heq m hm
  cases hacc : access m with
  | error crash =>
    rw [hacc] at hx haccess
    cases hx
    exact settle_of_error haccess
  | ok r =>
    rw [hacc] at hx haccess
    by_cases hflight : r.1.dmem_status = .inFlight
    · simp only [hflight, ↓reduceIte] at hx
      rw [settle_of_wait haccess hflight]
      exact ih r.1 x hx (hwait m r hm hacc hflight)
    · simp only [hflight, ↓reduceIte, Option.some.injEq] at hx
      subst hx
      exact settle_of_done haccess hflight

end

section

variable {m : Mem}

theorem not_inFlight_of_ready (h : m.dmem_status = .ready) : m.dmem_status ≠ .inFlight := by
  rw [h]
  exact MemStatus.noConfusion

/-- The accesses that the program sees at the special addresses. -/
theorem call_special {op : DataOp} {g : Guest} {v : BitVec 64}
    (hspecial : isSpecialAddr op.addr = true) (h : op.visible m.guest = some (g, v)) :
    ∃ m', op.call m = .ok (m', v) ∧ m'.guest = g ∧ m'.dmem_status = m.dmem_status ∧
      m'.cache = m.cache ∧ m'.ptable = m.ptable ∧ m'.seg_start_addr = m.seg_start_addr := by
  unfold isSpecialAddr at hspecial
  rw [Bool.or_eq_true, Bool.or_eq_true, beq_iff_eq, beq_iff_eq, beq_iff_eq] at hspecial
  cases op with
  | read addr =>
    simp only [DataOp.addr] at hspecial
    obtain (rfl | rfl) | rfl := hspecial
    · cases h
    · obtain ⟨rfl, rfl⟩ := Prod.mk.inj (Option.some.inj h)
      exact ⟨{ m with stdin_pos := m.stdin_pos + 1 }, rfl, rfl, rfl, rfl, rfl, rfl⟩
    · obtain ⟨rfl, rfl⟩ := Prod.mk.inj (Option.some.inj h)
      exact ⟨{ m with undefined := m.undefined || logTraps m }, rfl, rfl, rfl, rfl, rfl, rfl⟩
  | write addr val =>
    simp only [DataOp.addr] at hspecial
    obtain (rfl | rfl) | rfl := hspecial
    · obtain ⟨rfl, rfl⟩ := Prod.mk.inj (Option.some.inj h)
      exact ⟨m, rfl, rfl, rfl, rfl, rfl, rfl⟩
    · obtain ⟨rfl, rfl⟩ := Prod.mk.inj (Option.some.inj h)
      exact ⟨{ m with output := m.output ++ [val] }, rfl, rfl, rfl, rfl, rfl, rfl⟩
    · cases h

/-- The accesses that are refused away from the special addresses. -/
theorem visible_eq_none {op : DataOp} (hspecial : isSpecialAddr op.addr = false) :
    op.visible m.guest = none ↔ m.guest.isData op.addr = false := by
  unfold isSpecialAddr at hspecial
  simp only [Bool.or_eq_false_iff, beq_eq_false_iff_ne] at hspecial
  obtain ⟨⟨hnull, hio⟩, hcheck⟩ := hspecial
  cases op with
  | read addr =>
    simp only [DataOp.addr] at hnull hio hcheck
    simp only [DataOp.visible, Guest.load, DataOp.addr, hnull, hio, hcheck, ↓reduceIte]
    cases m.guest.isData addr <;> simp
  | write addr val =>
    simp only [DataOp.addr] at hnull hio hcheck
    simp only [DataOp.visible, Guest.store, DataOp.addr, hnull, hio, hcheck, ↓reduceIte]
    cases m.guest.isData addr <;> simp

/-- An access that the program sees takes place after finitely many attempts. -/
theorem settle_visible (hm : m.Ok) (hready : m.dmem_status = .ready) {op : DataOp} {g : Guest}
    {v : BitVec 64} (h : op.visible m.guest = some (g, v)) :
    dmemErr m op.addr = false ∧ ∃ m', settle op.call m = some (.ok (m', v)) ∧ m'.Ok ∧
      m'.dmem_status = .ready ∧ m'.guest = g := by
  cases hspecial : isSpecialAddr op.addr with
  | true =>
    obtain ⟨m', hcall, hguest, hstatus, hcache, hpages, hseg⟩ := call_special hspecial h
    rw [hready] at hstatus
    refine ⟨?_, m', settle_of_done hcall (not_inFlight_of_ready hstatus), ?_, hstatus, hguest⟩
    · unfold dmemErr
      rw [hspecial, Bool.not_true, Bool.and_false]
    · exact hm.congr (fun a ↦ by rw [hpages]) hcache hseg
  | false =>
    have hdata : m.guest.isData op.addr = true := by
      cases hdata : m.guest.isData op.addr with
      | true => rfl
      | false =>
        rw [(visible_eq_none hspecial).mpr hdata] at h
        cases h
    have haddr := (isData_guest m op.addr).mp hdata
    have hnull : op.addr ≠ NULL_ADDR := by
      intro hnull
      rw [hnull] at hspecial
      exact absurd hspecial (by decide)
    refine ⟨(dmemErr_iff hspecial).mpr hdata, ?_⟩
    obtain ⟨m', value, hsettle, hready', hok, houtcome⟩ : ∃ m' value,
        settle op.call m = some (.ok (m', value)) ∧ m'.dmem_status = .ready ∧ m'.Ok ∧
          op.Outcome m m' value := by
      rcases hm with hcache | ⟨b, s, hok⟩
      · obtain ⟨m', value, hsettle, hready', hcache', houtcome⟩ :=
          settle_flat op hcache hready haddr hnull
        exact ⟨m', value, hsettle, hready', .inl hcache', houtcome⟩
      · obtain ⟨m', value, hsettle, hready', hok', houtcome⟩ := settle_cached op hok haddr hnull
        exact ⟨m', value, hsettle, hready', .inr ⟨b, s, hok'⟩, houtcome⟩
    have hsee := houtcome.visible hspecial haddr
    rw [h] at hsee
    obtain ⟨rfl, rfl⟩ := Prod.mk.inj (Option.some.inj hsee)
    exact ⟨m', hsettle, hok, hready', rfl⟩

/-! ## The memory stage -/

def MInstr.dataOp (i : MInstr) : DataOp :=
  if i.M_sigs.dmem_write then .write i.val_ex i.val_b else .read i.val_ex

theorem MInstr.dataOp_addr (i : MInstr) : i.dataOp.addr = i.val_ex := by
  unfold MInstr.dataOp
  split <;> rfl

/-- The memory stage with one access. -/
theorem accessed_eq_call {i : MInstr} (h : i.M_sigs.dmem_read = !i.M_sigs.dmem_write) (m : Mem) :
    accessed i m = (i.dataOp.call m).map fun r ↦
      (r.1, i.toWInstr r.2 (dmemErr m i.val_ex)) := by
  unfold accessed dmem MInstr.dataOp
  rw [h]
  cases i.M_sigs.dmem_write with
  | true =>
    change ((memWriteL m i.val_ex i.val_b >>= fun mem ↦ pure (mem, (0 : BitVec 64), _)) >>= _) =
      ((memWriteL m i.val_ex i.val_b).map _).map _
    cases memWriteL m i.val_ex i.val_b <;> rfl
  | false =>
    change ((memReadL m i.val_ex >>= fun r ↦ pure (r.1, r.2, dmemErr m i.val_ex)) >>= _) =
      (memReadL m i.val_ex).map _
    cases memReadL m i.val_ex <;> rfl

/-- An access that the program sees completes the memory stage. -/
theorem settle_accessed {i : MInstr} (h : i.M_sigs.dmem_read = !i.M_sigs.dmem_write) (hm : m.Ok)
    (hready : m.dmem_status = .ready) {g : Guest} {v : BitVec 64}
    (hsee : i.dataOp.visible m.guest = some (g, v)) (hdefined : i.dataOp.Defined m) :
    ∃ m', settle (accessed i) m = some (.ok (m', i.toWInstr v false)) ∧ m'.Ok ∧
      m'.dmem_status = .ready ∧ m'.guest = g ∧ m'.undefined = m.undefined := by
  obtain ⟨herr, m', hsettle, hok, hready', hguest⟩ := settle_visible hm hready hsee
  rw [i.dataOp_addr] at herr
  refine ⟨m', ?_, hok, hready', hguest, hdefined.settle hsettle⟩
  -- the segments, on which the error depends, stay the same while the access is repeated
  refine settle_map (P := fun m' ↦ dmemErr m' i.val_ex = false) (f := fun v ↦ i.toWInstr v false)
    ?_ ?_ m _ hsettle herr
  · intro m₁ r herr₁ hcall _
    exact ((DataOp.call_frame _ _ _ hcall).dmemErr _).trans herr₁
  · intro m₁ herr₁
    rw [accessed_eq_call h, herr₁]

/-- An access that the program does not see does not complete the memory stage. -/
theorem settle_accessed_refused {i : MInstr} (h : i.M_sigs.dmem_read = !i.M_sigs.dmem_write)
    (hsee : i.dataOp.visible m.guest = none) :
    (∃ crash, settle (accessed i) m = some (.error crash)) ∨
      ∀ r, settle (accessed i) m = some (.ok r) → r.2.status = .adr := by
  cases hspecial : isSpecialAddr i.dataOp.addr with
  | true =>
    left
    obtain ⟨crash, hcrash⟩ : ∃ crash, i.dataOp.call m = .error crash := by
      unfold isSpecialAddr at hspecial
      rw [Bool.or_eq_true, Bool.or_eq_true, beq_iff_eq, beq_iff_eq, beq_iff_eq] at hspecial
      generalize i.dataOp = op at hspecial hsee
      cases op with
      | read addr =>
        simp only [DataOp.addr] at hspecial
        obtain (rfl | rfl) | rfl := hspecial
        · exact ⟨.exitFailure, rfl⟩
        · cases hsee
        · cases hsee
      | write addr val =>
        simp only [DataOp.addr] at hspecial
        obtain (rfl | rfl) | rfl := hspecial
        · cases hsee
        · cases hsee
        · exact ⟨.assertFailed, rfl⟩
    refine ⟨crash, settle_of_error ?_⟩
    rw [accessed_eq_call h, hcrash]
    rfl
  | false =>
    right
    intro r hr
    have herr : dmemErr m i.val_ex = true := by
      rw [← Bool.not_eq_false, ← i.dataOp_addr, dmemErr_iff hspecial,
        (visible_eq_none hspecial).mp hsee]
      exact Bool.false_ne_true
    -- every attempt meets the same error
    obtain ⟨m', herr', hacc, -⟩ := exists_last_of_settle
      (P := fun m' ↦ dmemErr m' i.val_ex = true)
      (fun m₁ r₁ herr₁ hacc₁ _ ↦ ((accessed_frame i m₁ r₁ hacc₁).1.dmemErr _).trans herr₁)
      m _ hr herr r rfl
    rw [accessed_eq_call h, herr'] at hacc
    obtain ⟨r', -, rfl⟩ := map_eq_ok.mp hacc
    rfl

end

end SystemEmulator
