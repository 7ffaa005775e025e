import Mathlib.Data.List.GetD
import SystemEmulator.Cache.Csim
import SystemEmulator.Replacement.Reference
import SystemEmulator.Replacement.Validation

/-!
# Trace files

What the simulator makes of the text of a trace file: the accesses that the lines name are replayed,
and a written trace is read as it was.
-/

namespace SystemEmulator

open Numeral Result

/-! ## The accesses that a text names -/

/-- The kinds and addresses of the lines that are replayed, with the contents of the buffer and the
address that the lines before them leave. -/
def lineAccesses : (ℕ → Char) → BitVec 64 → List (List Char) → List (TraceOp × BitVec 64)
  | _, _, [] => []
  | buf, addr, line :: lines =>
      let buf := fillBuf buf line
      match traceOp (buf 1) with
      | none => lineAccesses buf addr lines
      | some op =>
          let addr := (scanHex (stringAt buf 3)).getD addr
          (op, addr) :: lineAccesses buf addr lines

theorem traceAccesses_cons (op : TraceOp) (addr : BitVec 64)
    (trace : List (TraceOp × BitVec 64)) :
    traceAccesses ((op, addr) :: trace) =
      op.operations.map (fun operation ↦ (operation, addr)) ++ traceAccesses trace :=
  List.flatMap_cons

theorem replayTrace_append (cache : Cache) (n : Counters)
    (first second : List (Operation × BitVec 64)) :
    replayTrace cache n (first ++ second) =
      replayTrace cache n first >>= fun state ↦ replayTrace state.1 state.2 second := by
  unfold replayTrace
  rw [List.foldlM_append]

theorem replayTrace_map (cache : Cache) (n : Counters) (addr : BitVec 64)
    (operations : List Operation) :
    replayTrace cache n (operations.map fun operation ↦ (operation, addr)) =
      operations.foldlM (fun state operation ↦ accessData state.1 state.2 addr operation)
        (cache, n) := by
  unfold replayTrace
  rw [List.foldlM_map]

/-- The loop replays the accesses of its lines. -/
theorem foldlM_replayLine (lines : List (List Char)) (st : ReplayState) :
    (lines.foldlM replayLine st).map (fun st ↦ (st.cache, st.counters)) =
      replayTrace st.cache st.counters (traceAccesses (lineAccesses st.buf st.addr lines)) := by
  induction lines generalizing st with
  | nil => rfl
  | cons line lines ih =>
    rw [List.foldlM_cons, replayLine, lineAccesses]
    dsimp only
    cases traceOp (fillBuf st.buf line 1) with
    | none => exact ih _
    | some op =>
      dsimp only
      rw [traceAccesses_cons, replayTrace_append, replayTrace_map]
      cases op.operations.foldlM (fun state operation ↦ accessData state.1 state.2
          ((scanHex (stringAt (fillBuf st.buf line) 3)).getD st.addr) operation)
        (st.cache, st.counters) with
      | error crash => rfl
      | ok state => exact ih _

/-! ## The main program -/

section

variable {b : ℕ} {c : Char}

theorem ne_of_digit (h : (digit b c).isSome = true) {c' : Char} (h' : digitValue c' = none) :
    c ≠ c' := by
  rintro rfl
  rw [digit, h'] at h
  cases h

/-- A digit is no space. -/
theorem dropWhile_isSpace_of_digit (h : (digit b c).isSome = true) (cs : List Char) :
    (c :: cs).dropWhile isSpace = c :: cs := by
  have hspace : isSpace c = false := by
    unfold isSpace
    simp only [Bool.or_eq_false_iff, decide_eq_false_iff_not]
    exact ⟨⟨⟨⟨⟨ne_of_digit h rfl, ne_of_digit h rfl⟩, ne_of_digit h rfl⟩, ne_of_digit h rfl⟩,
      ne_of_digit h rfl⟩, ne_of_digit h rfl⟩
  exact List.dropWhile_cons_of_neg (by rw [hspace]; exact Bool.false_ne_true)

/-- A digit is no sign. -/
theorem scanSign_of_digit (h : (digit b c).isSome = true) (cs : List Char) :
    scanSign (c :: cs) = (false, c :: cs) := by
  have hminus : c ≠ '-' := ne_of_digit h rfl
  have hplus : c ≠ '+' := ne_of_digit h rfl
  unfold scanSign
  split
  · rename_i heq
    exact absurd (List.cons.inj heq).1 hminus
  · rename_i heq
    exact absurd (List.cons.inj heq).1 hplus
  · rfl

end

/-- A record of a trace: an access with its address and size, or the fetch of an instruction, which
the simulator ignores. -/
inductive TraceRecord where
  | data (op : TraceOp) (addr : BitVec 64) (size : BitVec 32)
  | instruction (addr : BitVec 64) (size : BitVec 32)
  deriving DecidableEq, Repr

def padHex (value : BitVec 64) : List Char :=
  List.replicate (8 - (Nat.toDigits 16 value.toNat).length) '0' ++ Nat.toDigits 16 value.toNat

def TraceOp.letter : TraceOp → Char
  | .S => 'S'
  | .L => 'L'
  | .M => 'M'

def renderPlace (addr : BitVec 64) (size : BitVec 32) : List Char :=
  padHex addr ++ ',' :: Nat.toDigits 10 size.toNat

namespace TraceRecord

def render : TraceRecord → List Char
  | data op addr size => ' ' :: op.letter :: ' ' :: renderPlace addr size
  | instruction addr size => 'I' :: ' ' :: ' ' :: renderPlace addr size

def access : TraceRecord → Option (TraceOp × BitVec 64)
  | data op addr _ => some (op, addr)
  | instruction _ _ => none

end TraceRecord

def renderTrace (records : List TraceRecord) : List Char :=
  records.flatMap fun r ↦ r.render ++ ['\n']

/-! ## Lines -/

theorem fgets_line {line rest : List Char} {n : ℕ} (hline : '\n' ∉ line) (hlt : line.length < n) :
    fgets n (line ++ '\n' :: rest) = (line ++ ['\n'], rest) := by
  induction line generalizing n with
  | nil =>
    obtain ⟨n, rfl⟩ := Nat.exists_eq_succ_of_ne_zero (Nat.ne_of_gt hlt)
    exact if_pos rfl
  | cons c line ih =>
    obtain ⟨n, rfl⟩ := Nat.exists_eq_succ_of_ne_zero (Nat.ne_of_gt (Nat.zero_lt_of_lt hlt))
    have hc : c ≠ '\n' := fun h ↦ hline (h ▸ List.mem_cons_self)
    have htail : '\n' ∉ line := fun h ↦ hline (List.mem_cons_of_mem _ h)
    rw [List.cons_append, fgets, if_neg hc, ih htail (Nat.lt_of_succ_lt_succ hlt)]
    rfl

theorem readLines_line {line rest : List Char} (hline : '\n' ∉ line)
    (hlt : line.length < BUF_SIZE - 1) :
    readLines (line ++ '\n' :: rest) = (line ++ ['\n']) :: readLines rest := by
  obtain ⟨c, cs, htext⟩ : ∃ c cs, line ++ '\n' :: rest = c :: cs :=
    List.exists_cons_of_ne_nil (List.append_ne_nil_of_right_ne_nil _ (List.cons_ne_nil _ _))
  have hread : fgets (BUF_SIZE - 1) (line ++ '\n' :: rest) = (line ++ ['\n'], rest) :=
    fgets_line hline hlt
  rw [htext] at hread ⊢
  rw [readLines, hread]

/-- A string in the buffer. -/
theorem stringAt_fillBuf (buf : ℕ → Char) {line : List Char} (hline : NUL ∉ line)
    (hlt : line.length < BUF_SIZE) {i : ℕ} (hi : i ≤ line.length) :
    stringAt (fillBuf buf line) i = line.drop i := by
  have hchars : (List.range' i (line.length - i)).map (fillBuf buf line) = line.drop i := by
    refine List.ext_getElem (by simp) fun j hj hj' ↦ ?_
    rw [List.length_drop] at hj'
    rw [List.getElem_map, List.getElem_range', List.getElem_drop, Nat.one_mul, fillBuf,
      if_pos (by omega), List.getD_eq_getElem _ _ (by omega)]
  have hend : fillBuf buf line line.length = NUL := by
    rw [fillBuf, if_pos (Nat.le_refl _), List.getD_eq_default _ _ (Nat.le_refl _)]
  obtain ⟨k, hk⟩ := Nat.exists_eq_add_of_lt hlt
  have hrange : List.range' i (BUF_SIZE - i) =
      List.range' i (line.length - i) ++ line.length :: List.range' (line.length + 1) k := by
    rw [show BUF_SIZE - i = (line.length - i) + (k + 1) by omega, ← List.range'_append_1,
      Nat.add_sub_cancel' hi, List.range'_succ]
  have hno : ∀ c ∈ line.drop i, decide (c ≠ NUL) = true := by
    intro c hc
    refine decide_eq_true ?_
    rintro rfl
    exact hline (List.mem_of_mem_drop hc)
  unfold stringAt
  rw [hrange, List.map_append, hchars, List.map_cons, hend, List.takeWhile_append_of_pos hno,
    List.takeWhile_cons_of_neg (by simp), List.append_nil]

/-! ## Records -/

theorem isSome_of_mem_padHex {value : BitVec 64} {c : Char} (h : c ∈ padHex value) :
    (digit 16 c).isSome = true := by
  rcases List.mem_append.mp h with hzero | hdigit
  · rw [List.eq_of_mem_replicate hzero]
    rfl
  · exact isSome_digit_of_mem (by decide) (by decide) hdigit

theorem length_padHex_le (value : BitVec 64) : (padHex value).length ≤ 16 := by
  have hle : (Nat.toDigits 16 value.toNat).length ≤ 16 :=
    (Nat.length_toDigits_le_iff (by decide) (by decide)).mpr
      (lt_of_lt_of_eq value.isLt (by decide))
  unfold padHex
  rw [List.length_append, List.length_replicate]
  omega

/-- The characters of the address and the size. -/
theorem notMem_renderPlace {addr : BitVec 64} {size : BitVec 32} {c : Char}
    (hdigit : digitValue c = none) (hcomma : c ≠ ',') : c ∉ renderPlace addr size := by
  intro h
  rcases List.mem_append.mp h with hhex | hrest
  · exact ne_of_digit (isSome_of_mem_padHex hhex) hdigit rfl
  · rcases List.mem_cons.mp hrest with heq | hdec
    · exact hcomma heq
    · exact ne_of_digit (isSome_digit_of_mem (by decide) (by decide) hdec) hdigit rfl

theorem length_renderPlace_le (addr : BitVec 64) (size : BitVec 32) :
    (renderPlace addr size).length ≤ 27 := by
  have hhex := length_padHex_le addr
  have hdec : (Nat.toDigits 10 size.toNat).length ≤ 10 :=
    (Nat.length_toDigits_le_iff (by decide) (by decide)).mpr
      (lt_trans size.isLt (by decide))
  unfold renderPlace
  rw [List.length_append, List.length_cons]
  omega

/-- The address is read. -/
theorem scanHex_padHex (addr : BitVec 64) (rest : List Char) :
    scanHex (padHex addr ++ ',' :: rest) = some addr := by
  have hcomma : digit 16 ',' = none := rfl
  have hscan : scan 16 0 (padHex addr ++ ',' :: rest) = (addr.toNat, ',' :: rest) := by
    unfold padHex
    rw [List.append_assoc, scan_replicate_zero (by decide), scan_toDigits (by decide) (by decide),
      scan_cons_of_none hcomma]
  have hlength : 2 ≤ (padHex addr).length := by
    unfold padHex
    rw [List.length_append, List.length_replicate]
    omega
  obtain ⟨c, c', cs, hchars⟩ : ∃ c c' cs, padHex addr = c :: c' :: cs := by
    match padHex addr, hlength with
    | c :: c' :: cs, _ => exact ⟨c, c', cs, rfl⟩
  have hc : (digit 16 c).isSome = true :=
    isSome_of_mem_padHex (hchars ▸ List.mem_cons_self)
  have hc' : (digit 16 c').isSome = true :=
    isSome_of_mem_padHex (hchars ▸ List.mem_cons_of_mem _ List.mem_cons_self)
  have hmark : skipHexMark (c :: c' :: (cs ++ ',' :: rest)) = c :: c' :: (cs ++ ',' :: rest) := by
    unfold skipHexMark
    split
    · rename_i heq
      exact absurd (List.cons.inj (List.cons.inj heq).2).1 (ne_of_digit hc' rfl)
    · rename_i heq
      exact absurd (List.cons.inj (List.cons.inj heq).2).1 (ne_of_digit hc' rfl)
    · rfl
  rw [hchars, List.cons_append, List.cons_append] at hscan ⊢
  unfold scanHex
  rw [dropWhile_isSpace_of_digit hc, scanSign_of_digit hc]
  dsimp only
  rw [startsWithDigit, if_pos hc, hmark, hscan]
  dsimp only
  rw [if_neg (not_le.mpr addr.isLt), if_neg Bool.false_ne_true, BitVec.ofNat_toNat,
    BitVec.setWidth_eq]

namespace TraceRecord

/-- A line holds no newline, and no `NUL`. -/
theorem notMem_render (r : TraceRecord) {c : Char} (hc : c = '\n' ∨ c = NUL) : c ∉ r.render := by
  have hdigit : digitValue c = none := by
    rcases hc with rfl | rfl
    · rfl
    · rfl
  have hne : ∀ c' ∈ [',', ' ', 'I', 'S', 'L', 'M'], c ≠ c' := by
    rcases hc with rfl | rfl
    · simp
    · simp [NUL]
  have hplace : ∀ addr size, c ∉ renderPlace addr size := fun addr size ↦
    notMem_renderPlace hdigit (hne ',' (by decide))
  cases r with
  | data op addr size =>
    have hletter : c ≠ op.letter := by
      cases op with
      | S => exact hne 'S' (by decide)
      | L => exact hne 'L' (by decide)
      | M => exact hne 'M' (by decide)
    exact List.not_mem_cons_of_ne_of_not_mem (hne ' ' (by decide))
      (List.not_mem_cons_of_ne_of_not_mem hletter
        (List.not_mem_cons_of_ne_of_not_mem (hne ' ' (by decide)) (hplace addr size)))
  | instruction addr size =>
    exact List.not_mem_cons_of_ne_of_not_mem (hne 'I' (by decide))
      (List.not_mem_cons_of_ne_of_not_mem (hne ' ' (by decide))
        (List.not_mem_cons_of_ne_of_not_mem (hne ' ' (by decide)) (hplace addr size)))

/-- The kind of a line and what is read of the address. -/
theorem render_eq (r : TraceRecord) : ∃ c c' addr size,
    r.render = c :: c' :: ' ' :: renderPlace addr size ∧
      (traceOp c').map (fun op ↦ (op, addr)) = r.access := by
  cases r with
  | data op addr size =>
    refine ⟨_, _, _, _, rfl, ?_⟩
    cases op <;> rfl
  | instruction addr size => exact ⟨_, _, _, _, rfl, rfl⟩

end TraceRecord

/-- The lines of a written trace name its accesses, whatever the buffer holds before. -/
theorem lineAccesses_renderTrace (buf : ℕ → Char) (addr : BitVec 64)
    (records : List TraceRecord) :
    lineAccesses buf addr (readLines (renderTrace records)) =
      records.filterMap TraceRecord.access := by
  induction records generalizing buf addr with
  | nil =>
    change lineAccesses buf addr (readLines []) = []
    rw [readLines]
    rfl
  | cons r records ih =>
    obtain ⟨c, c', place, size, hrender, haccess⟩ := r.render_eq
    have hlength : r.render.length < BUF_SIZE - 2 := by
      have hplace := length_renderPlace_le place size
      rw [hrender]
      simp only [List.length_cons, BUF_SIZE]
      omega
    have hlines : readLines (renderTrace (r :: records)) =
        (r.render ++ ['\n']) :: readLines (renderTrace records) := by
      unfold renderTrace
      rw [List.flatMap_cons, List.append_assoc]
      exact readLines_line (r.notMem_render (.inl rfl)) (by omega)
    have hNUL : NUL ∉ r.render ++ ['\n'] := by
      rw [List.mem_append, not_or]
      exact ⟨r.notMem_render (.inr rfl), by decide⟩
    have hfit : (r.render ++ ['\n']).length < BUF_SIZE := by
      rw [List.length_append, List.length_singleton]
      omega
    have hlong : 3 ≤ (r.render ++ ['\n']).length := by
      rw [hrender]
      simp only [List.length_cons, List.length_append]
      omega
    have hkind : fillBuf buf (r.render ++ ['\n']) 1 = c' := by
      rw [fillBuf, if_pos (by omega), hrender]
      rfl
    have hplace : scanHex (stringAt (fillBuf buf (r.render ++ ['\n'])) 3) = some place := by
      rw [stringAt_fillBuf buf hNUL hfit hlong, hrender]
      change scanHex ((padHex place ++ ',' :: Nat.toDigits 10 size.toNat) ++ ['\n']) = some place
      rw [List.append_assoc, List.cons_append]
      exact scanHex_padHex place _
    rw [hlines, lineAccesses, hkind, hplace, List.filterMap_cons, ← haccess]
    cases traceOp c' with
    | none => exact ih _ _
    | some op => exact congrArg _ (ih _ _)

/-- A written trace is replayed as it was, whatever is in the buffer and for every cache. -/
theorem replayFile_renderTrace (buf : ℕ → Char) (cache : Cache) (records : List TraceRecord) :
    (replayFile buf cache (renderTrace records)).map (fun st ↦ (st.cache, st.counters)) =
      replayTrace cache {} (traceAccesses (records.filterMap TraceRecord.access)) := by
  unfold replayFile
  rw [foldlM_replayLine, lineAccesses_renderTrace]

/-! ## From the file to the results -/

end SystemEmulator
