import SystemEmulator.Memory.FlatMemory

/-!
# The text segment is never written

A data access that raises no fault reads and writes words of the data segments, with a cache and
without one.  The instruction words in the pages stay what they are.
-/

namespace SystemEmulator

open Result

def Mem.Ok (m : Mem) : Prop := m.cache = none ∨ ∃ b s, m.CacheOk b s

/-- The bytes of the text segment are the same in the pages. -/
def Mem.TextKept (m m' : Mem) : Prop := ∀ a, m.pinned a → byteAt m'.ptable a = byteAt m.ptable a

theorem Mem.pinned_congr {m m' : Mem} (h : m'.seg_start_addr = m.seg_start_addr) :
    m'.pinned = m.pinned := by
  unfold Mem.pinned
  rw [h]

theorem Mem.TextKept.refl (m : Mem) : m.TextKept m := fun _ _ ↦ rfl

theorem Mem.TextKept.trans {m₁ m₂ m₃ : Mem} (hframe : m₁.Frame m₂) (h : m₁.TextKept m₂)
    (h' : m₂.TextKept m₃) : m₁.TextKept m₃ := by
  intro a ha
  rw [h' a (Mem.pinned_congr hframe.seg_start_addr ▸ ha), h a ha]

theorem Mem.Same.textKept {m m' : Mem} (h : m.Same m') : m.TextKept m' := by
  obtain ⟨pt, rfl, hpt⟩ := h
  exact fun a _ ↦ (hpt a).symm

/-- Only the pages, the cache and the segment table matter. -/
theorem Mem.CacheOk.congr {b s : ℕ} {m m' : Mem} (h : m.CacheOk b s)
    (hpages : ∀ a, byteAt m'.ptable a = byteAt m.ptable a) (hcache : m'.cache = m.cache)
    (hseg : m'.seg_start_addr = m.seg_start_addr) : m'.CacheOk b s := by
  have hoverlay : m'.overlay = m.overlay := by
    apply Overlay.ext
    · exact hpages
    · intro a
      change m'.cache.bind _ = m.cache.bind _
      rw [hcache]
  constructor
  · rw [hcache]
    exact h.inv
  · rw [hoverlay, Mem.pinned_congr hseg]
    exact h.coherent

theorem Mem.Ok.congr {m m' : Mem} (h : m.Ok) (hpages : ∀ a, byteAt m'.ptable a = byteAt m.ptable a)
    (hcache : m'.cache = m.cache) (hseg : m'.seg_start_addr = m.seg_start_addr) : m'.Ok := by
  rcases h with hnone | ⟨b, s, hok⟩
  · exact .inl (hcache.trans hnone)
  · exact .inr ⟨b, s, hok.congr hpages hcache hseg⟩

theorem Mem.Same.ok {m m' : Mem} (h : m.Same m') (hm : m.Ok) : m'.Ok := by
  obtain ⟨pt, rfl, hpt⟩ := h
  exact hm.congr (fun a ↦ (hpt a).symm) rfl rfl

theorem Mem.Ok.byteAt_pinned {m : Mem} (h : m.Ok) {a : BitVec 64} (ha : m.pinned a) :
    byteAt m.ptable a = m.overlay.view a := by
  rcases h with hnone | ⟨b, s, hok⟩
  · exact (Mem.view_of_cacheless hnone a).symm
  · exact hok.byteAt_pinned ha

/-! ## Data accesses -/

/-- An access that took place keeps the text. -/
theorem DataOp.Outcome.textKept {op : DataOp} {m m' : Mem} {value : BitVec 64}
    (h : op.Outcome m m' value) (hm : m.Ok) (hm' : m'.Ok) (haddr : DataAddr m op.addr) :
    m.TextKept m' := by
  intro a ha
  have ha' : m'.pinned a := Mem.pinned_congr h.seg_start_addr ▸ ha
  rw [hm.byteAt_pinned ha, hm'.byteAt_pinned ha']
  cases op with
  | read addr => exact h.1.view a
  | write addr val =>
    rw [h.1.view a]
    exact if_neg fun hlt ↦ haddr.not_pinned a hlt ha

/-- The access leaves the text, and a cache in order. -/
structure Mem.Safe (m m' : Mem) : Prop where
  frame : m.Frame m'
  ok : m'.Ok
  text : m.TextKept m'

theorem Mem.Safe.trans {m₁ m₂ m₃ : Mem} (h : m₁.Safe m₂) (h' : m₂.Safe m₃) : m₁.Safe m₃ :=
  ⟨h.frame.trans h'.frame, h'.ok, h.text.trans h.frame h'.text⟩

theorem Mem.Safe.refl {m : Mem} (h : m.Ok) : m.Safe m :=
  ⟨Mem.Frame.refl m, h, Mem.TextKept.refl m⟩

/-- An access to a word of the data segments. -/
theorem DataOp.call_ok {m : Mem} (hm : m.Ok) (op : DataOp) (haddr : DataAddr m op.addr)
    (hnull : op.addr ≠ NULL_ADDR) : Ensures (op.call m) fun r ↦ r.1.Ok ∧ m.TextKept r.1 := by
  intro r hr
  rcases hm with hnone | ⟨b, s, hok⟩
  · obtain ⟨m', value, hcall, -, hcache, houtcome⟩ := call_flat op hnone haddr hnull
    obtain rfl : r = (m', value) := Except.ok.inj (hr.symm.trans hcall)
    exact ⟨.inl hcache, houtcome.textKept (.inl hnone) (.inl hcache) haddr⟩
  · obtain ⟨cache, orders, hcache, -⟩ := hok.inv
    obtain ⟨m', value, hcall, ⟨-, hok', houtcome⟩ | hwaits⟩ :=
      call_attempt hok hcache op haddr hnull
    · obtain rfl : r = (m', value) := Except.ok.inj (hr.symm.trans hcall)
      exact ⟨.inr ⟨b, s, hok'⟩, houtcome.textKept (.inr ⟨b, s, hok⟩) (.inr ⟨b, s, hok'⟩) haddr⟩
    · obtain rfl : r = (m', value) := Except.ok.inj (hr.symm.trans hcall)
      refine ⟨.inr ⟨b, s, hwaits.idles.cacheOk hok⟩, fun a _ ↦ ?_⟩
      rw [hwaits.idles.ptable]

/-- An access without an error is special or reaches a word of the data segments. -/
theorem dataAddr_of_not_dmemErr {m : Mem} {addr : BitVec 64} (h : dmemErr m addr = false)
    (hspecial : isSpecialAddr addr = false) : DataAddr m addr ∧ addr ≠ NULL_ADDR := by
  unfold dmemErr at h
  rw [hspecial, Bool.not_false, Bool.and_true, Bool.or_eq_false_iff, Bool.not_eq_false',
    bne_eq_false_iff_eq] at h
  refine ⟨⟨?_, h.1⟩, ?_⟩
  · have hlow := congrArg BitVec.toNat h.2
    rw [BitVec.toNat_and] at hlow
    change addr.toNat &&& (2 ^ 3 - 1) = 0 at hlow
    rwa [Nat.and_two_pow_sub_one_eq_mod] at hlow
  · rintro rfl
    exact absurd hspecial (by decide)

theorem memReadL_safe {m : Mem} (hm : m.Ok) {addr : BitVec 64} (herr : dmemErr m addr = false) :
    Ensures (memReadL m addr) fun r ↦ m.Safe r.1 := by
  intro r hr
  have hframe : m.Frame r.1 := memRead_frame m addr 8 r hr
  cases hspecial : isSpecialAddr addr with
  | true =>
    have hread : memReadSpecial m addr 8 = .ok r := (memRead_of_special hspecial 8).symm.trans hr
    obtain ⟨pos, trap, hpos⟩ := memReadSpecial_stdin m addr 8 r hread
    rw [hpos] at hframe ⊢
    exact ⟨hframe, hm.congr (fun _ ↦ rfl) rfl rfl, fun _ _ ↦ rfl⟩
  | false =>
    obtain ⟨haddr, hnull⟩ := dataAddr_of_not_dmemErr herr hspecial
    obtain ⟨hok, htext⟩ := DataOp.call_ok hm (.read addr) haddr hnull r hr
    exact ⟨hframe, hok, htext⟩

theorem memWriteL_safe {m : Mem} (hm : m.Ok) {addr : BitVec 64} (herr : dmemErr m addr = false)
    (data : BitVec 64) : Ensures (memWriteL m addr data) m.Safe := by
  intro m' hm'
  have hframe := memWrite_frame m addr data 8 m' hm'
  cases hspecial : isSpecialAddr addr with
  | true =>
    have hwrite : memWriteSpecial m addr data 8 = .ok m' :=
      (memWrite_of_special hspecial data 8).symm.trans hm'
    obtain ⟨output, houtput⟩ := memWriteSpecial_output m addr data 8 m' hwrite
    rw [houtput] at hframe ⊢
    exact ⟨hframe, hm.congr (fun _ ↦ rfl) rfl rfl, fun _ _ ↦ rfl⟩
  | false =>
    obtain ⟨haddr, hnull⟩ := dataAddr_of_not_dmemErr herr hspecial
    have hcall : (DataOp.write addr data).call m = .ok (m', 0) := by
      simp only [DataOp.call, hm']
      rfl
    obtain ⟨hok, htext⟩ := DataOp.call_ok hm (.write addr data) haddr hnull (m', 0) hcall
    exact ⟨hframe, hok, htext⟩

/-- One call of the memory stage that raises no fault is safe. -/
theorem accessed_safe {mem : Mem} (hm : mem.Ok) {m : MInstr} (hfaults : m.faults mem = false) :
    Ensures (accessed m mem) fun r ↦ mem.Safe r.1 := by
  rintro ⟨mem', w⟩ hacc
  obtain ⟨val_mem, err, hdmem, -⟩ := accessed_ok hacc
  unfold MInstr.faults MInstr.accesses at hfaults
  rw [Bool.or_eq_false_iff] at hfaults
  unfold dmem at hdmem
  cases hread : m.M_sigs.dmem_read <;> cases hwrite : m.M_sigs.dmem_write <;>
    rw [hread, hwrite] at hdmem hfaults
  · cases hdmem
    exact Mem.Safe.refl hm
  all_goals
    have herr : dmemErr mem m.val_ex = false := hfaults.2
    obtain ⟨⟨mem₁, val⟩, hr, hdmem⟩ := bind_eq_ok.mp hdmem
    obtain ⟨mem₂, hw, hdmem⟩ := bind_eq_ok.mp hdmem
    cases hdmem
  · cases hr
    exact memWriteL_safe hm herr _ _ hw
  · cases hw
    exact memReadL_safe hm herr _ hr
  · have hsafe := memReadL_safe hm herr _ hr
    exact hsafe.trans (memWriteL_safe hsafe.ok (hsafe.frame.dmemErr _ ▸ herr) _ _ hw)

end SystemEmulator
