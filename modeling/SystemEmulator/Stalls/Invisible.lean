import SystemEmulator.Stalls.Stutter
import SystemEmulator.Branches.Conditional

/-!
# The cache is invisible to a program that halts

The run behind a cache follows the flat run: each cycle of the flat run is done after finitely many
that wait.  Where the flat run halts, the run behind the cache halts in the same state, and what is
left to ask is whether all its reads are defined.
-/

namespace SystemEmulator

open Relation Result

/-! ## Throughout a run -/

/-- `P` holds in every state in which a cycle of the run from `s` starts. -/
def Throughout (P : Machine → Prop) (s : Machine) : Prop :=
  ∀ u, Run pipeBuild s u → u.running = true → P u

theorem throughout_of_step {P : Machine → Prop} {s s' : Machine}
    (hstep : Step pipeBuild defaultOrder s s') : Throughout P s ↔ P s ∧ Throughout P s' := by
  constructor
  · exact fun h ↦ ⟨h s .refl hstep.1, fun u hu ↦ h u (.head hstep hu)⟩
  · rintro ⟨hs, hs'⟩ u hu hrunning
    cases hu using ReflTransGen.head_induction_on with
    | refl => exact hs
    | head hstep' hrest => exact hs' u (hstep.unique hstep' ▸ hrest) hrunning

theorem running_of_run {s u : Machine} (hrun : Run pipeBuild s u) (hu : u.running = true) :
    s.running = true := by
  cases hrun using ReflTransGen.head_induction_on with
  | refl => exact hu
  | head hstep _ => exact hstep.1

theorem ended_of_hlt {s : Machine} (hs : s.status = .hlt) : s.running = false := by
  rw [s.running_eq, hs]
  rfl

theorem throughout_of_ended {P : Machine → Prop} {s : Machine} (hs : s.running = false) :
    Throughout P s := by
  intro u hu hrunning
  cases hu using ReflTransGen.head_induction_on with
  | refl =>
    rw [hs] at hrunning
    cases hrunning
  | head hstep _ =>
    have hcontra := hstep.1
    rw [hs] at hcontra
    cases hcontra

/-- Every cycle that leaves a data access in flight is a stutter. -/
def Machine.WaitsQuietly (t : Machine) : Prop :=
  ∀ t', cycle pipeBuild defaultOrder t = .ok t' → t'.mem.dmem_status = .inFlight → Stutters t t'

/-- Behind the cache the run from `t` halts in the state `s`, and no stall is seen of it.  It
executes nothing undefined exactly when all its reads that miss read inside their blocks. -/
structure HaltsBehind (s t : Machine) : Prop where
  ends : ∃ u t', Run pipeBuild t u ∧ Step pipeBuild defaultOrder u t' ∧ t'.status = .hlt ∧
    t'.regs = s.regs ∧ t'.NZCV = s.NZCV ∧ t'.mem.guest = s.mem.guest ∧
    (t'.mem.undefined = false ↔ t.mem.undefined = false ∧ Throughout Machine.ReadsInside t)
  waits : Throughout Machine.WaitsQuietly t

theorem Next.waitsQuietly {d : ℕ} {s s' t t' : Machine} (h : Next d s s' t t')
    (hcycle : cycle pipeBuild defaultOrder t = .ok t') : t.WaitsQuietly := by
  intro t₁ ht₁ hflight
  rw [hcycle] at ht₁
  cases ht₁
  cases h with
  | waits hstutters => exact hstutters
  | moves hmoves =>
    rw [hmoves.ready] at hflight
    cases hflight

/-- One more cycle in front of a run that halts. -/
theorem HaltsBehind.head {s t t' : Machine} (h : HaltsBehind s t')
    (hstep : Step pipeBuild defaultOrder t t') (hwaits : t.WaitsQuietly)
    (hdefined : (t'.mem.undefined = false ∧ Throughout Machine.ReadsInside t') ↔
      t.mem.undefined = false ∧ Throughout Machine.ReadsInside t) : HaltsBehind s t := by
  obtain ⟨u, t₁, hrun, hlast, hhlt, hregs, hNZCV, hguest, hundefined⟩ := h.ends
  exact ⟨⟨u, t₁, .head hstep hrun, hlast, hhlt, hregs, hNZCV, hguest, hundefined.trans hdefined⟩,
    (throughout_of_step hstep).mpr ⟨hwaits, h.waits⟩⟩

/-- A data access waits for finitely many cycles; the induction is on the attempts that are left. -/
theorem Shadows.haltsBehind_of_moves {d : ℕ} (hd : 1 ≤ d) {s s' final : Machine}
    (htext : s.FetchesText) (haccepts : s.M_out.rejects s.mem = false)
    (hcycle : SystemEmulator.cycle pipeBuild defaultOrder s = .ok s')
    (hmoves : ∀ {t t'}, Step pipeBuild defaultOrder t t' → Moves d s s' t t' → t.WaitsQuietly →
      HaltsBehind final t)
    {t : Machine} (h : Shadows d s t) (hrunning : t.running = true) : HaltsBehind final t := by
  obtain ⟨left, hleft⟩ : ∃ left, left = t.mem.waiting s.M_out.val_ex := ⟨_, rfl⟩
  induction left using Nat.strong_induction_on generalizing t with
  | _ left ih =>
    obtain ⟨t', hcycle', hnext⟩ := h.cycle hd htext haccepts hcycle
    have hwaits := hnext.waitsQuietly hcycle'
    have hstep : Step pipeBuild defaultOrder t t' := ⟨hrunning, hcycle'⟩
    cases hnext with
    | waits hstutters hshadows hrunning' hless hundefined hinside =>
      refine (ih _ (hleft ▸ hless) hshadows hrunning' rfl).head hstep hwaits ?_
      rw [hundefined, throughout_of_step hstep]
      refine and_congr_right fun _ ↦ ⟨fun hall ↦ ⟨?_, hall⟩, And.right⟩
      exact hinside.mp (hall t' .refl hrunning')
    | moves hmoves' => exact hmoves hstep hmoves' hwaits

/-- Where the flat run halts, the run behind the cache halts; the induction is on the flat run. -/
theorem Shadows.haltsBehind {d : ℕ} (hd : 1 ≤ d) {s u final : Machine} (hrun : Run pipeBuild s u)
    (hlast : Step pipeBuild defaultOrder u final) (hhlt : final.status = .hlt)
    (htext : Throughout Machine.FetchesText s)
    (haccepts : Throughout (fun u ↦ u.M_out.rejects u.mem = false) s) {t : Machine}
    (h : Shadows d s t) (ht : t.running = true) : HaltsBehind final t := by
  induction hrun using ReflTransGen.head_induction_on generalizing t with
  | refl =>
    refine Shadows.haltsBehind_of_moves hd (htext u .refl hlast.1) (haccepts u .refl hlast.1)
      hlast.2 (fun {t t'} hstep hmoves hwaits ↦ ?_) h ht
    have hhlt' := hmoves.halts hhlt
    have hended := ended_of_hlt hhlt'
    refine ⟨⟨t, t', .refl, hstep, hhlt', hmoves.regs, hmoves.NZCV, hmoves.guest, ?_⟩,
      (throughout_of_step hstep).mpr ⟨hwaits, throughout_of_ended hended⟩⟩
    rw [hmoves.undefined, throughout_of_step hstep,
      and_iff_left (throughout_of_ended hended : Throughout Machine.ReadsInside t')]
  | @head s s' hstep hrest ih =>
    have hs' := running_of_run hrest hlast.1
    refine Shadows.haltsBehind_of_moves hd (htext s .refl hstep.1) (haccepts s .refl hstep.1)
      hstep.2 (fun {t t'} hstep' hmoves hwaits ↦ ?_) h ht
    obtain ⟨ht', hshadows⟩ := hmoves.goesOn hs'
    have htail := ih ((throughout_of_step hstep).mp htext).2
      ((throughout_of_step hstep).mp haccepts).2 hshadows ht'
    refine htail.head hstep' hwaits ?_
    rw [hmoves.undefined, throughout_of_step hstep', and_assoc]

/-! ## Accesses that are rejected -/

/-- A pipeline on a flat memory, between two cycles. -/
structure Machine.Flat (s : Machine) : Prop where
  shape : s.Shape
  cache : s.mem.cache = none
  ready : s.mem.dmem_status = .ready

theorem status_of_rejects {i : MInstr} {m : Mem} {q : Mem × WInstr} (hacc : accessed i m = .ok q)
    (hrejects : i.rejects m = true) : q.2.status = .adr := by
  obtain ⟨v, err, hdmem, hw⟩ := accessed_ok hacc
  obtain ⟨-, herr⟩ := dmem_frame _ _ _ _ _ _ hdmem
  rw [hw]
  unfold MInstr.toWInstr
  rw [show err = true from herr.trans hrejects]
  rfl

/-- A cycle on a flat memory hands an access that is rejected on to writeback. -/
theorem Machine.Flat.cycle {s s' : Machine} (h : s.Flat) (htext : s.FetchesText)
    (hcycle : SystemEmulator.cycle pipeBuild defaultOrder s = .ok s') :
    s.ReturnsThroughNull ∨ s'.status = s.W_out.status ∧ s'.Flat ∧
      (s.M_out.rejects s.mem = true → s'.W_out.status = .adr) := by
  obtain ⟨r, q, hfetch, hacc, ⟨hcontra, -⟩ | ⟨hrequests, heffect⟩⟩ :=
    cycle_effect h.shape.ec_D h.shape.controls hcycle
  · exact .inl (returnsThroughNull_of_contradictory h.shape hcontra)
  · right
    have hsame := fetchResult_quiet (htext.quietly (logTraps_of_cacheless h.cache)) hfetch
    have hcache : r.1.cache = none := by
      obtain ⟨pt, hr, -⟩ := hsame
      rw [hr]
      exact h.cache
    have hcached : s.M_out.cached r.1 = false := by
      unfold MInstr.cached
      rw [usesCache_of_cacheless hcache, Bool.and_false]
    have hready : q.1.dmem_status = .ready :=
      ((accessed_dmem_status hcached q hacc).trans hsame.dmem_status).trans h.ready
    have hflat : q.1.cache = none := by
      have hgeometry := (accessed_frame _ _ q hacc).1.geometry
      rw [hcache] at hgeometry
      exact Option.map_eq_none_iff.mp hgeometry
    refine ⟨heffect.status, ⟨h.shape.cycle heffect hrequests, heffect.mem ▸ hflat,
      heffect.mem ▸ hready⟩, fun hrejects ↦ ?_⟩
    rw [(heffect.moves (not_inFlight_of_ready hready)).2]
    refine status_of_rejects hacc ?_
    unfold MInstr.rejects at hrejects ⊢
    rwa [hsame.frame.dmemErr]

/-- A flat run that halts without a return through a load from address zero makes no access that is
rejected. -/
theorem Machine.Flat.accepts {s u final : Machine} (h : s.Flat) (hrun : Run pipeBuild s u)
    (hlast : Step pipeBuild defaultOrder u final) (hhlt : final.status = .hlt)
    (htext : Throughout Machine.FetchesText s)
    (hreturns : Throughout (fun u ↦ ¬u.ReturnsThroughNull) s) :
    Throughout (fun u ↦ u.M_out.rejects u.mem = false) s := by
  have hended := ended_of_hlt hhlt
  induction hrun using ReflTransGen.head_induction_on with
  | refl =>
    refine (throughout_of_step hlast).mpr ⟨?_, throughout_of_ended hended⟩
    obtain ⟨hstatus, -⟩ :=
      (h.cycle (htext u .refl hlast.1) hlast.2).resolve_left (hreturns u .refl hlast.1)
    have hstop : u.M_out.status.isStop = true := by
      apply h.shape.stop_M
      rw [← hstatus, hhlt]
      rfl
    unfold MInstr.rejects
    rw [h.shape.wf.M_out.accesses_of_stop hstop, Bool.false_and]
  | @head s s' hstep hrest ih =>
    obtain ⟨-, hflat, hadr⟩ :=
      (h.cycle (htext s .refl hstep.1) hstep.2).resolve_left (hreturns s .refl hstep.1)
    have htext' := ((throughout_of_step hstep).mp htext).2
    have hreturns' := ((throughout_of_step hstep).mp hreturns).2
    refine (throughout_of_step hstep).mpr ⟨?_, ih hflat htext' hreturns'⟩
    rw [Bool.eq_false_iff]
    intro hrejects
    -- the cycle behind it is the last one, and it reports the address fault
    have hend : ∀ {a}, Step pipeBuild defaultOrder s' a → a.status = .adr := by
      intro a ha
      obtain ⟨hstatus, -⟩ :=
        (hflat.cycle (htext' s' .refl ha.1) ha.2).resolve_left (hreturns' s' .refl ha.1)
      exact hstatus.trans (hadr hrejects)
    cases hrest using ReflTransGen.head_induction_on with
    | refl =>
      have hcontra := hend hlast
      rw [hhlt] at hcontra
      cases hcontra
    | @head _ a ha hrest' =>
      have hrunning := running_of_run hrest' hlast.1
      rw [a.running_eq, hend ha] at hrunning
      cases hrunning

/-! ## The run with the cache -/

/-- The memory with the empty cache of a configuration. -/
abbrev CacheConfig.behind (config : CacheConfig) (mem : Mem) : Mem :=
  mem.withEmptyCache config.A config.B config.C config.d

theorem initMachine_shadows (config : CacheConfig) (GPR : ℕ → BitVec 64) {mem : Mem}
    (hcache : mem.cache = none) (entry : BitVec 64) :
    Shadows config.d (initMachine GPR mem entry) (initMachine GPR (config.behind mem) entry) := by
  obtain ⟨hok, hkept⟩ := Mem.withEmptyCache_ok config.valid hcache
  have hbehind : (config.behind mem).Behind config.d :=
    ⟨.inr ⟨_, _, hok⟩, _, _, _, Mem.withEmptyCache_cached config.valid mem⟩
  have hguest : (config.behind mem).guest = mem.guest := hkept.guest
  have hstep : InStep (initMachine GPR mem entry) (initMachine GPR (config.behind mem) entry) :=
    ⟨initMachine_shape GPR mem entry, initMachine_shape GPR _ entry, rfl, rfl, .refl _, .refl _,
      .refl _⟩
  refine ⟨hstep, .inl ⟨rfl, .refl _⟩, nofun, id, fun hhlt r hr ↦ ?_, hcache, rfl,
    hbehind.congr (fun _ ↦ rfl) rfl rfl, hguest, .inl rfl⟩
  have hhlt' : generatesHlt pipeBuild (initMachine GPR mem entry) = true := hhlt
  rw [fetchResult_of_generatesHlt hhlt' hr]
  rfl

/-- With the cache the program halts like the run without it that has come to `s`, and every cycle
that leaves a data access in flight commits the instruction in writeback and does nothing else. -/
structure CacheHidden (config : CacheConfig) (GPR : ℕ → BitVec 64) (mem : Mem) (entry : BitVec 64)
    (s : Machine) : Prop where
  halts : ∃ t N, (∀ cycle_max, N ≤ cycle_max →
      runElf pipeBuild cycle_max (fun _ ↦ defaultOrder) GPR (config.behind mem) entry = .ok t) ∧
    t.status = .hlt ∧ t.regs = s.regs ∧ t.NZCV = s.NZCV ∧ t.mem.output = s.mem.output ∧
    t.mem.overlay.view = s.mem.overlay.view ∧ t.mem.undefined = false
  waits : Throughout Machine.WaitsQuietly (initMachine GPR (config.behind mem) entry)

theorem haltsBehind_of_runElf (config : CacheConfig) (hd : 1 ≤ config.d) (GPR : ℕ → BitVec 64)
    {mem : Mem} (hcache : mem.cache = none) (entry : BitVec 64) {cycle_max : ℕ} {s : Machine}
    (hrun : runElf pipeBuild cycle_max (fun _ ↦ defaultOrder) GPR mem entry = .ok s)
    (hhlt : s.status = .hlt) (htext : Throughout Machine.FetchesText (initMachine GPR mem entry))
    (haccepts : Throughout (fun u ↦ u.M_out.rejects u.mem = false) (initMachine GPR mem entry)) :
    HaltsBehind s (initMachine GPR (config.behind mem) entry) := by
  have hended := ended_of_hlt hhlt
  obtain ⟨u, hu, hlast⟩ := runLoop_default (initMachine_running GPR mem entry) hrun hended
  exact (initMachine_shadows config GPR hcache entry).haltsBehind hd hu hlast hhlt htext haccepts
    (initMachine_running GPR _ entry)

theorem HaltsBehind.hidden_iff {config : CacheConfig} {GPR : ℕ → BitVec 64} {mem : Mem}
    {entry : BitVec 64} {s : Machine}
    (h : HaltsBehind s (initMachine GPR (config.behind mem) entry)) :
    CacheHidden config GPR mem entry s ↔ mem.undefined = false ∧
      Throughout Machine.ReadsInside (initMachine GPR (config.behind mem) entry) := by
  obtain ⟨⟨u, t, hu, hlast, hhlt, hregs, hNZCV, hguest, hundefined⟩, hwaits⟩ := h
  have hended := ended_of_hlt hhlt
  obtain ⟨N, hN⟩ := runLoop_of_run hu hlast hended
  constructor
  · rintro ⟨⟨t', N', hN', -, -, -, -, -, hdefined'⟩, -⟩
    rw [runElf_unique (hN N le_rfl) hended hN'] at hdefined'
    exact hundefined.mp hdefined'
  · intro hinside
    exact ⟨⟨t, N, fun cycle_max hmax ↦ hN _ (hmax.trans (le_max_right 1 _)), hhlt, hregs, hNZCV,
      congrArg Guest.output hguest, congrArg Guest.view hguest, hundefined.mpr hinside⟩, hwaits⟩

/-- Take a program that halts without a cache and fetches from the text segment only.  It makes no
data access that is rejected, unless it returns through a load from address zero.  When it makes
none, it does the same with an empty cache of any valid configuration and a delay of at least one
exactly when every read that misses takes its word from inside the block. -/
theorem cacheHidden_iff (config : CacheConfig) (hd : 1 ≤ config.d) (GPR : ℕ → BitVec 64) (mem : Mem)
    (hcache : mem.cache = none) (hdefined : mem.undefined = false) (entry : BitVec 64)
    (cycle_max : ℕ) (s : Machine)
    (hrun : runElf pipeBuild cycle_max (fun _ ↦ defaultOrder) GPR mem entry = .ok s)
    (hhlt : s.status = .hlt)
    (htext : Throughout Machine.FetchesText (initMachine GPR mem entry)) :
    (Throughout (fun u ↦ ¬u.ReturnsThroughNull) (initMachine GPR mem entry) →
      Throughout (fun u ↦ u.M_out.rejects u.mem = false) (initMachine GPR mem entry)) ∧
    (Throughout (fun u ↦ u.M_out.rejects u.mem = false) (initMachine GPR mem entry) →
      (CacheHidden config GPR mem entry s ↔
        Throughout Machine.ReadsInside (initMachine GPR (config.behind mem) entry))) := by
  constructor
  · intro hreturns
    obtain ⟨u, hu, hlast⟩ := runLoop_default (initMachine_running GPR mem entry) hrun
      (ended_of_hlt hhlt)
    have hflat : (initMachine GPR mem entry).Flat :=
      ⟨initMachine_shape GPR mem entry, hcache, rfl⟩
    exact hflat.accepts hu hlast hhlt htext hreturns
  · intro haccepts
    have hbehind := haltsBehind_of_runElf config hd GPR hcache entry hrun hhlt htext haccepts
    exact hbehind.hidden_iff.trans (and_iff_right hdefined)

/-- Two sets of one line each, and a delay of two. -/
def twoSets : CacheConfig where
  A := 1
  B := 8
  C := 16
  d := 2
  b := 3
  s := 1
  valid := ⟨by decide, by decide, rfl, by decide, rfl, by decide⟩
  d_lt := by decide

/-- `STUR X1, [X0]` and `LDUR X2, [X0, #8]` miss, and `RET` halts. -/
theorem cacheHidden_iff_stur : ∃ s, s.status = .hlt ∧
    CacheHidden twoSets (fun n ↦ if n = 0 then 0x800000 else 5)
      (textImage [0xF8000001, 0xF8408002, 0xD65F03C0, 0xD503201F]) 0x400000 s := by
  have hend : (runElf pipeBuild 20 (fun _ ↦ defaultOrder) (fun n ↦ if n = 0 then 0x800000 else 5)
      (textImage [0xF8000001, 0xF8408002, 0xD65F03C0, 0xD503201F]) 0x400000).map
        (fun s ↦ decide (s.status = .hlt)) = .ok true := by
    decide +kernel
  have hcheck : checkRun pipeBuild
      (fun u ↦ decide (u.FetchesText ∧ u.M_out.rejects u.mem = false)) 20
      (initMachine (fun n ↦ if n = 0 then 0x800000 else 5)
        (textImage [0xF8000001, 0xF8408002, 0xD65F03C0, 0xD503201F]) 0x400000) = true := by
    decide +kernel
  have hinside : checkRun pipeBuild (fun t ↦ decide t.ReadsInside) 30
      (initMachine (fun n ↦ if n = 0 then 0x800000 else 5)
        (twoSets.behind (textImage [0xF8000001, 0xF8408002, 0xD65F03C0, 0xD503201F])) 0x400000)
        = true := by
    decide +kernel
  obtain ⟨s, hs, hhlt⟩ := map_eq_ok.mp hend
  refine ⟨s, of_decide_eq_true hhlt, ((cacheHidden_iff twoSets (by decide) _ _ rfl rfl _ _ _ hs
    (of_decide_eq_true hhlt) fun u hu hurun ↦ ?_).2 fun u hu hurun ↦ ?_).mpr fun t ht htrun ↦ ?_⟩
  · exact (of_decide_eq_true (of_checkRun hcheck hu hurun)).1
  · exact (of_decide_eq_true (of_checkRun hcheck hu hurun)).2
  · exact of_decide_eq_true (of_checkRun hinside ht htrun)

/-- One line of 65536 bytes, and a delay of one. -/
def wideLine : CacheConfig where
  A := 1
  B := 65536
  C := 65536
  d := 1
  b := 16
  s := 0
  valid := ⟨by decide, by decide, rfl, by decide, rfl, by decide⟩
  d_lt := by decide

/-- `LDUR X2, [X1]` with `X1 = 0x80FFF8` reads the last word of its block, and the word that is
taken from `block` lies far behind it. -/
theorem not_cacheHidden_lastWord :
    ¬∀ (config : CacheConfig) (GPR : ℕ → BitVec 64) (mem : Mem) (entry : BitVec 64)
      (cycle_max : ℕ) (s : Machine), 1 ≤ config.d → mem.cache = none → mem.undefined = false →
        runElf pipeBuild cycle_max (fun _ ↦ defaultOrder) GPR mem entry = .ok s →
        s.status = .hlt → Throughout Machine.FetchesText (initMachine GPR mem entry) →
          CacheHidden config GPR mem entry s := by
  intro hclaim
  have hend : (runElf pipeBuild 12 (fun _ ↦ defaultOrder) (fun _ ↦ 0)
      (textImage [0xD2A01001, 0xF29FFF01, 0xF8400022, 0xD65F03C0, 0xD503201F]) 0x400000).map
        (fun s ↦ decide (s.status = .hlt)) = .ok true := by
    decide +kernel
  have hcheck : checkRun pipeBuild
      (fun u ↦ decide (u.FetchesText ∧ u.M_out.rejects u.mem = false)) 12
      (initMachine (fun _ ↦ 0)
        (textImage [0xD2A01001, 0xF29FFF01, 0xF8400022, 0xD65F03C0, 0xD503201F]) 0x400000)
        = true := by
    decide +kernel
  -- the `LDUR` is in the memory stage, and no block has been filled yet
  have hfive : (runLoop pipeBuild 5 (fun _ ↦ defaultOrder) (initMachine (fun _ ↦ 0)
      (wideLine.behind (textImage [0xD2A01001, 0xF29FFF01, 0xF8400022, 0xD65F03C0, 0xD503201F]))
        0x400000)).map (fun t ↦ decide (t.running = true ∧ ¬t.ReadsInside)) = .ok true := by
    decide +kernel
  obtain ⟨s, hs, hhlt⟩ := map_eq_ok.mp hend
  obtain ⟨t, ht, hfacts⟩ := map_eq_ok.mp hfive
  obtain ⟨htrun, houtside⟩ := of_decide_eq_true hfacts
  have htext : Throughout Machine.FetchesText (initMachine (fun _ ↦ 0)
      (textImage [0xD2A01001, 0xF29FFF01, 0xF8400022, 0xD65F03C0, 0xD503201F]) 0x400000) :=
    fun u hu hurun ↦ (of_decide_eq_true (of_checkRun hcheck hu hurun)).1
  have hhidden := hclaim wideLine _ _ _ _ s le_rfl rfl rfl hs (of_decide_eq_true hhlt) htext
  have hbehind := haltsBehind_of_runElf wideLine le_rfl _ rfl _ hs (of_decide_eq_true hhlt) htext
    (fun u hu hurun ↦ (of_decide_eq_true (of_checkRun hcheck hu hurun)).2)
  exact houtside ((hbehind.hidden_iff.mp hhidden).2 t
    (runLoop_run (initMachine_running _ _ _) ht) htrun)

end SystemEmulator
