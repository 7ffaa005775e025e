import SystemEmulator.Base.MachineLog
import SystemEmulator.Base.Proc
import SystemEmulator.Datapath.DataProcessing
import SystemEmulator.Library.Unambiguous
import SystemEmulator.Memory.MemoryLog

/-!
# What a checkpoint tells

Two checkpoints have the same text exactly if they show the same state of the processor, the same
words of the memory and the same statistics.
-/

namespace SystemEmulator

/-! ## Lines -/

theorem unambiguous_hex {c : Char} (hc : Numeral.digit 16 c = none) (text : List Char) :
    Unambiguous fun value ↦ hex value ++ c :: text :=
  (Unambiguous.toDigits (by decide) (by decide) hc text).comp fun _ _ h ↦ BitVec.eq_of_toNat_eq h

/-- A negative number is told from the others by its sign. -/
theorem unambiguous_decimal {c : Char} (hc : Numeral.digit 10 c = none) (text : List Char) :
    Unambiguous fun value ↦ decimal value ++ c :: text := by
  have hnat : Unambiguous fun n ↦ Nat.toDigits 10 n ++ c :: text :=
    Unambiguous.toDigits (by decide) (by decide) hc text
  have hsign : ∀ (n : ℕ) (r s : List Char), Nat.toDigits 10 n ++ r ≠ '-' :: s := by
    intro n r s hrs
    obtain ⟨d, ds, hdigits⟩ := List.exists_cons_of_ne_nil (Nat.toDigits_ne_nil (n := n) (b := 10))
    have hd : (Numeral.digit 10 d).isSome = true :=
      Numeral.isSome_digit_of_mem (by decide) (by decide) (hdigits ▸ List.mem_cons_self)
    rw [hdigits, List.cons_append] at hrs
    rw [(List.cons.inj hrs).1] at hd
    cases hd
  intro a b r s hrs
  rw [List.append_assoc, List.append_assoc] at hrs
  cases a with
  | ofNat n =>
    cases b with
    | ofNat m =>
      rw [← List.append_assoc, ← List.append_assoc] at hrs
      obtain ⟨rfl, htail⟩ := hnat hrs
      exact ⟨rfl, htail⟩
    | negSucc m => exact absurd hrs (hsign n _ _)
  | negSucc n =>
    cases b with
    | ofNat m => exact absurd hrs.symm (hsign m _ _)
    | negSucc m =>
      have hdigits : Nat.toDigits 10 (n + 1) ++ (c :: text ++ r) =
          Nat.toDigits 10 (m + 1) ++ (c :: text ++ s) := (List.cons.inj hrs).2
      rw [← List.append_assoc, ← List.append_assoc] at hdigits
      obtain ⟨hnm, htail⟩ := hnat hdigits
      exact ⟨by rw [Nat.succ.inj hnm], htail⟩

theorem unambiguous_bit : Unambiguous bit := by
  intro a b r s hrs
  cases a <;> cases b
  · exact ⟨rfl, (List.cons.inj hrs).2⟩
  · exact absurd (List.cons.inj hrs).1 (by decide)
  · exact absurd (List.cons.inj hrs).1 (by decide)
  · exact ⟨rfl, (List.cons.inj hrs).2⟩

theorem unambiguous_cyclesLine : Unambiguous cyclesLine :=
  (Unambiguous.toDigits (by decide) (by decide) rfl _).label _

theorem unambiguous_hexLine (label : String) : Unambiguous (hexLine label) :=
  (unambiguous_hex rfl []).label _

theorem unambiguous_registerLine (i : ℕ) : Unambiguous (registerLine i) := unambiguous_hexLine _

theorem unambiguous_statusLine : Unambiguous statusLine := by
  have hlength : ∀ status, (getStatStr status).toList.length = 3 := by
    intro status
    cases status <;> rfl
  have hinj : ∀ a b, (getStatStr a).toList = (getStatStr b).toList → a = b := by
    intro a b
    cases a <;> cases b <;> decide
  refine Unambiguous.label (fun a b r s hrs ↦ ?_) _
  rw [List.append_assoc, List.append_assoc] at hrs
  obtain ⟨hstatus, htail⟩ := List.append_inj hrs ((hlength a).trans (hlength b).symm)
  exact ⟨hinj a b hstatus, List.append_cancel_left htail⟩

theorem unambiguous_wordLine : Unambiguous wordLine :=
  ((unambiguous_hex rfl " 0x".toList).append (unambiguous_hex rfl [])).label _

/-- The flags that a line shows. -/
theorem flagsLine_inj {cc cc' : BitVec 8} {r s : List Char}
    (h : flagsLine cc ++ r = flagsLine cc' ++ s) :
    (getNF cc = getNF cc' ∧ getZF cc = getZF cc' ∧ getCF cc = getCF cc' ∧ getVF cc = getVF cc') ∧
      r = s := by
  unfold flagsLine at h
  simp only [List.append_assoc] at h
  obtain ⟨hN, h⟩ := unambiguous_bit.behind h
  obtain ⟨hZ, h⟩ := unambiguous_bit.behind h
  obtain ⟨hC, h⟩ := unambiguous_bit.behind h
  obtain ⟨hV, h⟩ := unambiguous_bit.behind h
  have htail := List.append_cancel_left h
  exact ⟨⟨hN, hZ, hC, hV⟩, htail⟩

/-! ## Sections -/

/-- The processor section shows the registers, the flags, the PC and the status. -/
theorem processorText_inj {s s' : Machine} {r r' : List Char}
    (h : processorText s ++ r = processorText s' ++ r') :
    (s.PC = s'.PC ∧ archState s.regs s.NZCV = archState s'.regs s'.NZCV ∧
      s.status = s'.status) ∧ r = r' := by
  unfold processorText at h
  simp only [List.append_assoc] at h
  obtain ⟨hPC, h⟩ := (unambiguous_hexLine _).behind h
  obtain ⟨hSP, h⟩ := unambiguous_hexLine _ h
  obtain ⟨⟨hN, hZ, hC, hV⟩, h⟩ := flagsLine_inj h
  have hregisters := List.append_cancel_left h
  obtain ⟨hGPR, h⟩ := Unambiguous.flatMap unambiguous_registerLine _ hregisters
  obtain ⟨hstatus, h⟩ := unambiguous_statusLine h
  refine ⟨⟨hPC, ?_, hstatus⟩, h⟩
  have hX : (fun i : Fin 31 ↦ s.regs.GPR i) = fun i : Fin 31 ↦ s'.regs.GPR i :=
    funext fun i ↦ hGPR i (List.mem_range.mpr i.isLt)
  unfold archState
  rw [hX, hSP, hN, hZ, hC, hV]

/-- Another line does not start like those with the words. -/
theorem label_ne_wordLine {label : List Char} {c : Char} (h : label[2]? = some c) (hc : c ≠ '\t')
    (rest : List Char) (line : BitVec 64 × BitVec 64) (t : List Char) :
    label ++ rest ≠ wordLine line ++ t := by
  intro heq
  obtain ⟨hlt, -⟩ := List.getElem?_eq_some_iff.mp h
  have htab : (wordLine line ++ t)[2]? = some '\t' := rfl
  rw [← heq, List.getElem?_append_left hlt, h] at htab
  exact hc (Option.some.inj htab)

theorem unambiguous_statistics :
    Unambiguous fun value : ℤ × ℤ ↦ statisticsLine (some value) :=
  ((unambiguous_decimal rfl " ".toList).append (unambiguous_decimal rfl [])).label _

/-- What comes behind the memory section. -/
theorem statisticsLine_inj {statistics statistics' : Option (ℤ × ℤ)}
    (h : statisticsLine statistics ++ "\n".toList = statisticsLine statistics' ++ "\n".toList) :
    statistics = statistics' := by
  cases statistics with
  | none =>
    cases statistics' with
    | none => rfl
    | some value' =>
      have hhead : some '\n' = some '\t' := congrArg List.head? h
      exact absurd (Option.some.inj hhead) (by decide)
  | some value =>
    cases statistics' with
    | none =>
      have hhead : some '\t' = some '\n' := congrArg List.head? h
      exact absurd (Option.some.inj hhead) (by decide)
    | some value' =>
      obtain ⟨rfl, -⟩ := unambiguous_statistics h
      rfl

theorem statisticsLine_ne_wordLine (statistics : Option (ℤ × ℤ)) (line : BitVec 64 × BitVec 64)
    (t : List Char) : statisticsLine statistics ++ "\n".toList ≠ wordLine line ++ t := by
  cases statistics with
  | none =>
    intro heq
    have hhead : some '\n' = some '\t' := congrArg List.head? heq
    exact absurd (Option.some.inj hhead) (by decide)
  | some value =>
    unfold statisticsLine
    rw [List.append_assoc]
    exact label_ne_wordLine (c := 'N') rfl (by decide) _ line t

theorem memoryText_inj {log log' : MemoryLog} {statistics statistics' : Option (ℤ × ℤ)}
    (h : memoryText log statistics = memoryText log' statistics') :
    log = log' ∧ statistics = statistics' := by
  have hdata := fun rest ↦ @label_ne_wordLine "\t\tData segment:\n".toList 'D' rfl (by decide) rest
  have hheap := fun rest ↦ @label_ne_wordLine "\t\tHeap:\n".toList 'H' rfl (by decide) rest
  have hstack := fun rest ↦ @label_ne_wordLine "\t\tStack:\n".toList 'S' rfl (by decide) rest
  unfold memoryText at h
  have h := List.append_cancel_left h
  obtain ⟨hlog₁, h⟩ := unambiguous_wordLine.list (hdata _) (hdata _) h
  have h := List.append_cancel_left h
  obtain ⟨hlog₂, h⟩ := unambiguous_wordLine.list (hheap _) (hheap _) h
  have h := List.append_cancel_left h
  obtain ⟨hlog₃, h⟩ := unambiguous_wordLine.list (hstack _) (hstack _) h
  have h := List.append_cancel_left h
  obtain ⟨hlog₄, hstatistics⟩ := unambiguous_wordLine.list (statisticsLine_ne_wordLine _)
    (statisticsLine_ne_wordLine _) h
  obtain ⟨text, data, heap, stack⟩ := log
  obtain ⟨text', data', heap', stack'⟩ := log'
  cases hlog₁
  cases hlog₂
  cases hlog₃
  cases hlog₄
  exact ⟨rfl, statisticsLine_inj hstatistics⟩

/-! ## The whole checkpoint -/

/-- The processor section is that of the state. -/
theorem processorText_congr {s s' : Machine} (hPC : s.PC = s'.PC)
    (hstate : archState s.regs s.NZCV = archState s'.regs s'.NZCV)
    (hstatus : s.status = s'.status) :
    processorText s = processorText s' := by
  have hX : ∀ i ∈ List.range 31, registerLine i (s.regs.GPR i) = registerLine i (s'.regs.GPR i) :=
    fun i hi ↦ congrArg _ (congrFun (congrArg A64.State.X hstate) ⟨i, List.mem_range.mp hi⟩)
  have hSP : s.regs.SP = s'.regs.SP := congrArg A64.State.SP hstate
  have hflags : flagsLine s.NZCV = flagsLine s'.NZCV := by
    have hN : getNF s.NZCV = getNF s'.NZCV := congrArg (fun state ↦ state.flags.N) hstate
    have hZ : getZF s.NZCV = getZF s'.NZCV := congrArg (fun state ↦ state.flags.Z) hstate
    have hC : getCF s.NZCV = getCF s'.NZCV := congrArg (fun state ↦ state.flags.C) hstate
    have hV : getVF s.NZCV = getVF s'.NZCV := congrArg (fun state ↦ state.flags.V) hstate
    unfold flagsLine
    rw [hN, hZ, hC, hV]
  unfold processorText
  rw [hPC, hSP, hflags, hstatus, List.flatMap_congr hX]

/-- The parts of a checkpoint. -/
theorem logMachineState_eq_some {num_instr : ℕ} {s : Machine} {text : List Char}
    (h : logMachineState num_instr s = some text) : ∃ log statistics,
      logMemory s.mem = some log ∧ logCache s.mem = some statistics ∧
      text = cyclesLine num_instr ++ (processorText s ++ memoryText log statistics) := by
  obtain ⟨log, hlog, h⟩ := Option.bind_eq_some_iff.mp h
  obtain ⟨statistics, hstatistics, htext⟩ := Option.bind_eq_some_iff.mp h
  exact ⟨log, statistics, hlog, hstatistics, (Option.some.inj htext).symm⟩

/-- Two checkpoints that are written have the same text exactly if the cycles, the PC, the registers
and flags, the status, the words of the memory and the cache statistics are the same. -/
theorem logMachineState_eq_iff {num_instr num_instr' : ℕ} {s s' : Machine} {text text' : List Char}
    (h : logMachineState num_instr s = some text)
    (h' : logMachineState num_instr' s' = some text') :
    text = text' ↔ num_instr = num_instr' ∧ s.PC = s'.PC ∧
      archState s.regs s.NZCV = archState s'.regs s'.NZCV ∧ s.status = s'.status ∧
      logMemory s.mem = logMemory s'.mem ∧ logCache s.mem = logCache s'.mem := by
  obtain ⟨log, statistics, hlog, hstatistics, rfl⟩ := logMachineState_eq_some h
  obtain ⟨log', statistics', hlog', hstatistics', rfl⟩ := logMachineState_eq_some h'
  rw [hlog, hlog', hstatistics, hstatistics']
  constructor
  · intro heq
    obtain ⟨hcycles, heq⟩ := unambiguous_cyclesLine heq
    obtain ⟨⟨hPC, hstate, hstatus⟩, heq⟩ := processorText_inj heq
    obtain ⟨rfl, rfl⟩ := memoryText_inj heq
    exact ⟨hcycles, hPC, hstate, hstatus, rfl, rfl⟩
  · rintro ⟨rfl, hPC, hstate, hstatus, hlog, hstatistics⟩
    cases hlog
    cases hstatistics
    rw [processorText_congr hPC hstate hstatus]

/-- A `HLT` and a word in the data segment, with an empty cache. -/
def wordImage (value : BitVec 64) : Mem :=
  { initMem none fun _ ↦ 0 with
    ptable := memWriteLE (memWriteLE Ptable.empty 0x400000 0xD4400000 4) 0x800000 value 8
    cache := some (createCache 1 8 8 2) }

/-- Two memories with a cache that differ in one word of the data segment. -/
theorem logMachineState_eq_iff_word : ∃ text text',
    logMachineState 3 (initMachine (fun _ ↦ 0) (wordImage 5) 0x400000) = some text ∧
      logMachineState 3 (initMachine (fun _ ↦ 0) (wordImage 7) 0x400000) = some text' ∧
      text ≠ text' := by
  have hwritten : ∀ value, ¬(wordImage value).ptable.Mapped 0 → ∃ text log,
      logMachineState 3 (initMachine (fun _ ↦ 0) (wordImage value) 0x400000) = some text ∧
        logMemory (wordImage value) = some log ∧ ∀ addr word, (addr, word) ∈ log.data ↔
          (wordImage value).ptable.InWords nextPage ((wordImage value).firstPage .data) addr ∧
            word ≠ 0 ∧ (wordImage value).pageWord addr = word := by
    intro value hunmapped
    obtain ⟨log, hlog, -, -, hdata, -⟩ := logMemory_words ⟨0, hunmapped⟩
    obtain ⟨text, htext⟩ : ∃ text, logMachineState 3
        (initMachine (fun _ ↦ 0) (wordImage value) 0x400000) = some text := by
      unfold logMachineState
      change ∃ text, (logMemory (wordImage value)).bind _ = some text
      rw [hlog]
      exact ⟨_, rfl⟩
    exact ⟨text, log, htext, hlog, hdata⟩
  obtain ⟨text, log, htext, hlog, hdata⟩ := hwritten 5 (by unfold Ptable.Mapped; decide +kernel)
  obtain ⟨text', log', htext', hlog', hdata'⟩ :=
    hwritten 7 (by unfold Ptable.Mapped; decide +kernel)
  refine ⟨text, text', htext, htext', fun heq ↦ ?_⟩
  obtain ⟨-, -, -, -, hmem, -⟩ := (logMachineState_eq_iff htext htext').mp heq
  obtain rfl : log = log' := Option.some.inj (hlog.symm.trans (hmem.trans hlog'))
  have hrun : (wordImage 5).ptable.InWords nextPage ((wordImage 5).firstPage .data) 0x800000 := by
    refine ⟨0x800000, ⟨0, by decide +kernel, fun j hj ↦ ?_⟩, 0, by decide, rfl, rfl⟩
    obtain rfl := Nat.le_zero.mp hj
    unfold Ptable.Mapped
    decide +kernel
  have hword := (hdata 0x800000 5).mpr ⟨hrun, by decide, by decide +kernel⟩
  have hcontra := ((hdata' 0x800000 5).mp hword).2.2
  revert hcontra
  decide +kernel

end SystemEmulator
