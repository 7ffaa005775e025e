import SystemEmulator.Execution.Guest
import SystemEmulator.Pipeline.Drained

/-!
# One attempt of a data access

Behind a cache an access either takes place, with the value and the effect that it has on the flat
memory, or it waits: then the program sees nothing of it, and one attempt fewer is left.  When the
access takes place, the memory stays defined exactly when a read that misses reads inside its block.
-/

namespace SystemEmulator

open Result

section

variable {b s d : ℕ} {m : Mem} {cache : Cache} (hm : m.Cached b s d cache) {op : DataOp}
  (haddr : DataAddr m op.addr) (hnull : op.addr ≠ NULL_ADDR)
include hm haddr hnull

/-- An attempt through the cache either waits, or it is the last one and leaves the memory defined
exactly when it reads inside. -/
theorem call_undefined_iff : ∃ m' value, op.call m = .ok (m', value) ∧
    (∃ cache', m'.Cached b s d cache') ∧ m'.seg_start_addr = m.seg_start_addr ∧
      (m'.dmem_status = .ready ∧ (m'.undefined = false ↔ m.undefined = false ∧ op.ReadsInside m) ∨
        m'.dmem_status = .inFlight ∧ m'.undefined = m.undefined ∧
          (op.ReadsInside m' ↔ op.ReadsInside m)) := by
  cases hhit : m.hits op.addr with
  | true =>
    obtain ⟨m', value, hcall, hattempts, hstep, -⟩ := attempts_of_hit hm haddr hnull hhit
    have hready : m'.dmem_status = .ready := by
      cases hattempts with
      | ready hcall' hready =>
        rw [hcall] at hcall'
        cases hcall'
        exact hready
    exact ⟨m', value, hcall, hstep.cached, hstep.seg_start_addr,
      .inl ⟨hready, undefined_of_hit hhit hstep.undefined⟩⟩
  | false =>
    rcases Nat.eq_zero_or_pos (m.attemptsLeft (cache.blockAddress op.addr) d) with hzero | hpos
    · obtain ⟨m₁, hloop, hstep, -, -⟩ := cacheLoop_fillStep hm op.fill op.operation
        countsDown_of_hit 7 hhit hzero (hm.sameBlock haddr)
      obtain ⟨cache₁, hm₁⟩ := hstep.cached
      obtain ⟨m', value, hcall, hready, hstep', -⟩ :=
        call_of_cacheLoop_done hm haddr hnull hloop hm₁ hstep.hits
      have hfill := hstep.hitStep hstep'
      exact ⟨m', value, hcall, hfill.cached, hfill.seg_start_addr,
        .inl ⟨hready, undefined_of_fill hm hhit hfill.undefined⟩⟩
    · obtain ⟨m₁, hloop, hstep, -, -⟩ := cacheLoop_waitStep (P := CountsDown) hm op.fill
        op.operation 7 hhit hpos
      have hcall := call_of_cacheLoop_wait hm haddr hnull hloop
      refine ⟨m₁, 0, hcall, ⟨cache, hstep.cached⟩, hstep.seg_start_addr,
        .inr ⟨hstep.dmem_status, hstep.undefined, ?_⟩⟩
      unfold DataOp.ReadsInside
      rw [hstep.hits, hstep.cached.cache_eq, hm.cache_eq]

end

/-! ## What the program sees of an attempt -/

/-- Without a special address, the access of an instruction reads inside. -/
def MInstr.ReadsInside (i : MInstr) (m : Mem) : Prop :=
  i.accesses = true → isSpecialAddr i.val_ex = false → i.dataOp.ReadsInside m

instance (i : MInstr) (m : Mem) : Decidable (i.ReadsInside m) :=
  inferInstanceAs (Decidable (_ → _ → _))

/-- The data port refuses the access of an instruction. -/
def MInstr.rejects (i : MInstr) (m : Mem) : Bool := i.accesses && dmemErr m i.val_ex

/-- The memory is behind a cache with delay `d` that calls can have left. -/
structure Mem.Behind (d : ℕ) (m : Mem) : Prop where
  ok : m.Ok
  cached : ∃ b s cache, m.Cached b s d cache

/-- The attempts for which an access to the address still waits. -/
def Mem.waiting (m : Mem) (addr : BitVec 64) : ℕ :=
  m.cache.elim 0 fun cache ↦ m.attemptsLeft (cache.blockAddress addr) cache.d

/-- An attempt of the memory stage: it takes place, with the result `w` and the memory seen as `g`,
or it waits and nothing is seen of it. -/
inductive MInstr.Attempt (i : MInstr) (m : Mem) (q : Mem × WInstr) (g : Guest) (w : WInstr) : Prop
  | done (hready : q.1.dmem_status = .ready) (hguest : q.1.guest = g) (hw : q.2 = w)
      (hdefined : q.1.undefined = false ↔ m.undefined = false ∧ i.ReadsInside m)
  | waits (hflight : q.1.dmem_status = .inFlight) (hguest : q.1.guest = m.guest)
      (haccess : i.accesses = true ∧ isSpecialAddr i.val_ex = false)
      (hless : q.1.waiting i.val_ex < m.waiting i.val_ex) (hdefined : q.1.undefined = m.undefined)
      (hinside : i.ReadsInside q.1 ↔ i.ReadsInside m)

theorem Mem.Behind.congr {d : ℕ} {m m' : Mem} (h : m.Behind d)
    (hpages : ∀ a, byteAt m'.ptable a = byteAt m.ptable a) (hcache : m'.cache = m.cache)
    (hseg : m'.seg_start_addr = m.seg_start_addr) : m'.Behind d := by
  obtain ⟨b, s, cache, hcached⟩ := h.cached
  exact ⟨h.ok.congr hpages hcache hseg, b, s, cache,
    hcached.of_calls .refl (hcache.trans hcached.cache_eq)⟩

theorem Mem.Same.behind {d : ℕ} {m m' : Mem} (hsame : m.Same m') (h : m.Behind d) :
    m'.Behind d := by
  obtain ⟨pt, rfl, hpt⟩ := hsame
  exact h.congr (fun a ↦ (hpt a).symm) rfl rfl

theorem Mem.Same.waiting {m m' : Mem} (hsame : m.Same m') (addr : BitVec 64) :
    m'.waiting addr = m.waiting addr := by
  obtain ⟨pt, rfl, -⟩ := hsame
  refine congrArg (m.cache.elim 0) (funext fun cache ↦ ?_)
  apply Mem.attemptsLeft_congr <;> rfl

/-- A well-formed instruction reads or writes, not both. -/
theorem MInstr.WF.dmem_read {i : MInstr} (h : i.WF) (haccess : i.accesses = true) :
    i.M_sigs.dmem_read = !i.M_sigs.dmem_write := by
  unfold MInstr.accesses at haccess
  rw [h.M_sigs] at haccess ⊢
  revert haccess
  cases i.op <;> intro haccess <;> first | rfl | cases haccess

/-- At a special address the program sees every call that does not end the emulator. -/
theorem visible_of_call_special {op : DataOp} {m : Mem} {r : Mem × BitVec 64}
    (hspecial : isSpecialAddr op.addr = true) (hcall : op.call m = .ok r) :
    op.visible m.guest = some (r.1.guest, r.2) := by
  unfold isSpecialAddr at hspecial
  rw [Bool.or_eq_true, Bool.or_eq_true, beq_iff_eq, beq_iff_eq, beq_iff_eq] at hspecial
  cases op with
  | read addr =>
    simp only [DataOp.addr] at hspecial
    obtain (rfl | rfl) | rfl := hspecial
    · cases hcall
    · cases hcall
      rfl
    · cases hcall
      rfl
  | write addr val =>
    simp only [DataOp.addr] at hspecial
    obtain (rfl | rfl) | rfl := hspecial
    · cases hcall
      rfl
    · cases hcall
      rfl
    · cases hcall

section

variable {d : ℕ} {flat m : Mem}

/-- At a special address the cache plays no role. -/
theorem call_special_behind (hd : 1 ≤ d) (hm : m.Behind d) {op : DataOp} {g : Guest} {v : BitVec 64}
    (hspecial : isSpecialAddr op.addr = true) (hsee : op.visible m.guest = some (g, v)) :
    ∃ m', op.call m = .ok (m', v) ∧ m'.guest = g ∧ m'.dmem_status = m.dmem_status ∧
      m'.Behind d ∧ m'.undefined = m.undefined := by
  obtain ⟨m', hcall, hguest, hstatus, hcache, hpages, hseg⟩ := call_special hspecial hsee
  have hdefined : op.Defined m := by
    obtain ⟨b, s, cache, hcached⟩ := hm.cached
    cases op with
    | read addr =>
      intro c hc
      obtain rfl : cache = c := Option.some.inj (hcached.cache_eq.symm.trans hc)
      rw [show isSpecialAddr addr = true from hspecial, if_pos rfl, hcached.d_eq]
      exact fun _ _ ↦ Nat.one_le_iff_ne_zero.mp hd
    | write addr val => trivial
  exact ⟨m', hcall, hguest, hstatus, hm.congr (fun a ↦ by rw [hpages]) hcache hseg,
    hdefined.call _ hcall⟩

/-- An attempt of an access to the data segments. -/
theorem call_behind (hm : m.Behind d) {op : DataOp} (haddr : DataAddr m op.addr)
    (hnull : op.addr ≠ NULL_ADDR) : ∃ m' value, op.call m = .ok (m', value) ∧ m'.Behind d ∧
      (m'.dmem_status = .ready ∧ op.Outcome m m' value ∧
          (m'.undefined = false ↔ m.undefined = false ∧ op.ReadsInside m) ∨
        m'.dmem_status = .inFlight ∧ m'.guest = m.guest ∧
          m'.waiting op.addr < m.waiting op.addr ∧ m'.undefined = m.undefined ∧
          (op.ReadsInside m' ↔ op.ReadsInside m)) := by
  obtain ⟨b, s, cache, hcached⟩ := hm.cached
  have hcache := hcached.cache_eq
  obtain ⟨m₁, v₁, hcall₁, ⟨cache', hcached'⟩, -, hdefined⟩ :=
    call_undefined_iff hcached haddr hnull
  obtain ⟨b', s', hok⟩ : ∃ b s, m.CacheOk b s := by
    rcases hm.ok with hnone | hok
    · rw [hcache] at hnone
      cases hnone
    · exact hok
  obtain ⟨m', value, hcall, houtcome⟩ := call_attempt hok hcache op haddr hnull
  rw [hcall] at hcall₁
  obtain ⟨rfl, rfl⟩ := Prod.mk.inj (Except.ok.inj hcall₁)
  rcases houtcome with ⟨hready, hok', hout⟩ | hwaits
  · refine ⟨m', value, hcall, ⟨.inr ⟨b', s', hok'⟩, b, s, cache', hcached'⟩,
      .inl ⟨hready, hout, ?_⟩⟩
    rcases hdefined with ⟨-, hdefined⟩ | ⟨hflight, -⟩
    · exact hdefined
    · rw [hready] at hflight
      cases hflight
  · refine ⟨m', value, hcall,
      ⟨.inr ⟨b', s', hwaits.idles.cacheOk hok⟩, b, s, cache', hcached'⟩, .inr ?_⟩
    rcases hdefined with ⟨hready, -⟩ | ⟨hflight, hdefined⟩
    · rw [hwaits.dmem_status] at hready
      cases hready
    · refine ⟨hflight, hwaits.idles.kept.guest, ?_, hdefined⟩
      unfold Mem.waiting
      rw [hwaits.idles.cache, hcache]
      exact Nat.lt_of_succ_le (Nat.le_of_eq hwaits.attemptsLeft)

/-- An access to the flat memory that ends in `q`, and its attempt behind a cache. -/
structure MInstr.Follows (d : ℕ) (i : MInstr) (m : Mem) (q : Mem × WInstr) : Prop where
  flat : q.1.cache = none
  ready : q.1.dmem_status = .ready
  status : q.2.status = i.status
  attempt : ∃ q', accessed i m = .ok q' ∧ q'.1.Behind d ∧ i.Attempt m q' q.1.guest q.2

variable {i : MInstr} (hwf : i.WF) (hflat : flat.cache = none) (hready : flat.dmem_status = .ready)
  (hm : m.Behind d) (hguest : m.guest = flat.guest) {q : Mem × WInstr}

include hflat hready hm hguest in
theorem follows_of_not_accesses (haccess : i.accesses = false) (hready' : m.dmem_status = .ready)
    (hacc : accessed i flat = .ok q) : i.Follows d m q := by
  rw [accessed_of_not_accesses haccess] at hacc
  cases hacc
  refine ⟨hflat, hready, rfl, _, accessed_of_not_accesses haccess m, hm,
    .done hready' hguest rfl ?_⟩
  refine (and_iff_left fun hcontra ↦ ?_).symm
  rw [haccess] at hcontra
  cases hcontra

include hwf in
/-- An access that the data port does not refuse is a call. -/
theorem accessed_iff_call (haccess : i.accesses = true) (herr : dmemErr m i.val_ex = false) :
    accessed i m = .ok q ↔ ∃ v, i.dataOp.call m = .ok (q.1, v) ∧ i.toWInstr v false = q.2 := by
  rw [accessed_eq_call (hwf.dmem_read haccess), herr, map_eq_ok]
  constructor
  · rintro ⟨⟨m', v⟩, hcall, rfl⟩
    exact ⟨v, hcall, rfl⟩
  · rintro ⟨v, hcall, hw⟩
    exact ⟨_, hcall, Prod.ext rfl hw⟩

include hwf hflat hready hm hguest

theorem follows_of_special (hd : 1 ≤ d) (haccess : i.accesses = true)
    (hspecial : isSpecialAddr i.val_ex = true) (hready' : m.dmem_status = .ready)
    (herr : dmemErr flat i.val_ex = false) (herr' : dmemErr m i.val_ex = false)
    (hacc : accessed i flat = .ok q) : i.Follows d m q := by
  obtain ⟨v, hcall, hw⟩ := (accessed_iff_call hwf haccess herr).mp hacc
  have hspecial' : isSpecialAddr i.dataOp.addr = true := i.dataOp_addr ▸ hspecial
  have hsee := visible_of_call_special hspecial' hcall
  obtain ⟨flat', hcall', -, hstatus, hcache, -⟩ := call_special hspecial' hsee
  rw [hcall] at hcall'
  obtain ⟨rfl, -⟩ := Prod.mk.inj (Except.ok.inj hcall')
  obtain ⟨m', hcall'', hguest', hstatus', hm', hdefined⟩ :=
    call_special_behind hd hm hspecial' (hguest ▸ hsee)
  refine ⟨hcache.trans hflat, hstatus.trans hready, hw ▸ rfl, (m', q.2),
    (accessed_iff_call hwf haccess herr').mpr ⟨v, hcall'', hw⟩, hm',
    .done (hstatus'.trans hready') hguest' rfl ?_⟩
  rw [hdefined]
  refine (and_iff_left fun _ hcontra ↦ ?_).symm
  rw [hspecial] at hcontra
  cases hcontra

theorem follows_of_data (haccess : i.accesses = true) (hspecial : isSpecialAddr i.val_ex = false)
    (herr : dmemErr flat i.val_ex = false) (herr' : dmemErr m i.val_ex = false)
    (hacc : accessed i flat = .ok q) : i.Follows d m q := by
  obtain ⟨v, hcall, hw⟩ := (accessed_iff_call hwf haccess herr).mp hacc
  obtain ⟨haddr, hnull⟩ := dataAddr_of_not_dmemErr herr hspecial
  have hseg : m.seg_start_addr = flat.seg_start_addr := congrArg Guest.seg_start_addr hguest
  have haddr' : DataAddr m i.val_ex := haddr.congr hseg
  rw [← i.dataOp_addr] at haddr haddr' hnull hspecial
  obtain ⟨flat', v', hcall', hstatus, hcache, hout⟩ := call_flat i.dataOp hflat haddr hnull
  rw [hcall] at hcall'
  obtain ⟨rfl, rfl⟩ := Prod.mk.inj (Except.ok.inj hcall')
  refine ⟨hcache, hstatus.trans hready, hw ▸ rfl, ?_⟩
  obtain ⟨m', v', hcall', hm', ⟨hready', hout', hdefined⟩ |
    ⟨hflight, hkept, hless, hdefined, hinside⟩⟩ := call_behind hm haddr' hnull
  · have hsee := hout.visible hspecial haddr
    have hsee' := hout'.visible hspecial haddr'
    rw [hguest, hsee] at hsee'
    obtain ⟨hguest', rfl⟩ := Prod.mk.inj (Option.some.inj hsee')
    refine ⟨(m', q.2), (accessed_iff_call hwf haccess herr').mpr ⟨v, hcall', hw⟩, hm',
      .done hready' hguest'.symm rfl ?_⟩
    rw [hdefined]
    refine and_congr_right fun _ ↦ ⟨fun h _ _ ↦ h, fun h ↦ h haccess ?_⟩
    rw [← i.dataOp_addr]
    exact hspecial
  · rw [i.dataOp_addr] at hspecial hless
    refine ⟨(m', i.toWInstr v' false),
      (accessed_iff_call hwf haccess herr').mpr ⟨v', hcall', rfl⟩, hm',
      .waits hflight hkept ⟨haccess, hspecial⟩ hless hdefined ?_⟩
    unfold MInstr.ReadsInside
    rw [hinside]

/-- What an instruction does to the flat memory, it does behind a cache after some attempts. -/
theorem accessed_behind (hd : 1 ≤ d)
    (hidle : m.dmem_status = .ready ∨ i.accesses = true ∧ isSpecialAddr i.val_ex = false)
    (hrejects : i.rejects flat = false) (hacc : accessed i flat = .ok q) : i.Follows d m q := by
  cases haccess : i.accesses with
  | false =>
    refine follows_of_not_accesses hflat hready hm hguest haccess (hidle.resolve_right ?_) hacc
    rintro ⟨hcontra, -⟩
    rw [haccess] at hcontra
    cases hcontra
  | true =>
    have herr : dmemErr flat i.val_ex = false := by
      unfold MInstr.rejects at hrejects
      rwa [haccess, Bool.true_and] at hrejects
    have herr' : dmemErr m i.val_ex = false := by
      rw [← herr]
      unfold dmemErr addrInDmem
      rw [show m.seg_start_addr = flat.seg_start_addr from congrArg Guest.seg_start_addr hguest]
    cases hspecial : isSpecialAddr i.val_ex with
    | true =>
      refine follows_of_special hwf hflat hready hm hguest hd haccess hspecial
        (hidle.resolve_right ?_) herr herr' hacc
      rintro ⟨-, hcontra⟩
      rw [hspecial] at hcontra
      cases hcontra
    | false => exact follows_of_data hwf hflat hready hm hguest haccess hspecial herr herr' hacc

end

end SystemEmulator
