/-
The report of an exception (`print_interrupt_stack_frame` in
`kernel/arch/x86_64/interrupts.c`).

A line of the report is a name and a word in sixteen hexadecimal digits (`prints_field`), so the
report determines the frame (`report_inj`).  The fields of `struct InterruptStackFrame` are not
in the order in which the processor pushes them, so the names are not those of the words:
`breakpoint_handler` reports the code segment as the instruction pointer and the instruction
pointer as the code segment (`breakpointHandler_wrote`).  `double_fault_handler` does not
return: behind its report it stays in the loop of `kernel_panic`.
-/
import Betelgeuse.Console
import Betelgeuse.PrintfHex

open WhileLoop

namespace Betelgeuse

open Printf (Stop Arg ch)

variable {δ : Type}

/-- `struct InterruptStackFrame`. -/
structure InterruptStackFrame where
  cs : UInt64
  ip : UInt64
  rflags : UInt64
  ss : UInt64
  sp : UInt64
  deriving DecidableEq

/-- What is interrupted. -/
structure Interrupted where
  rip : UInt64
  cs : UInt64
  rflags : UInt64
  rsp : UInt64
  ss : UInt64

/-- The words that the processor has pushed, from the stack pointer on. -/
def Interrupted.pushed (c : Interrupted) : Option UInt64 → List UInt64
  | none => [c.rip, c.cs, c.rflags, c.rsp, c.ss]
  | some errorCode => [errorCode, c.rip, c.cs, c.rflags, c.rsp, c.ss]

/-- The structure at the stack pointer. -/
def frameAt (words : List UInt64) : InterruptStackFrame where
  cs := words.getD 0 0
  ip := words.getD 1 0
  rflags := words.getD 2 0
  ss := words.getD 3 0
  sp := words.getD 4 0

/-- `"Exception: %s\n\rInterruptStackFrame {\n\r"`. -/
def headFormat : CString := ⟨chars "Exception: %s\n\rInterruptStackFrame \x7b\n\r", by decide⟩

/-- `"\t<name>: %#018llx\n\r"`. -/
def fieldBytes (name : List UInt8) : List UInt8 :=
  chars "\t" ++ (name ++ (chars ": " ++ (chars "%#018llx" ++ chars "\n\r")))

def instructionPointerFormat : CString := ⟨fieldBytes (chars "instruction_pointer"), by decide⟩

def codeSegmentFormat : CString := ⟨fieldBytes (chars "code_segment"), by decide⟩

def cpuFlagsFormat : CString := ⟨fieldBytes (chars "cpu_flags"), by decide⟩

def stackPointerFormat : CString := ⟨fieldBytes (chars "stack_pointer"), by decide⟩

def stackSegmentFormat : CString := ⟨fieldBytes (chars "stack_segment"), by decide⟩

/-- `"}\n\r"`. -/
def tailFormat : CString := ⟨chars "\x7d\n\r", by decide⟩

/-- `"BREAKPOINT CAUGHT!\n\r"`. -/
def breakpointFormat : CString := ⟨chars "BREAKPOINT CAUGHT!\n\r", by decide⟩

/-- How the kernel goes on behind a handler: it returns to what was interrupted, or it stays
in `for(;;);` for good. -/
inductive Handled (δ : Type) where
  | returns (s : Console δ)
  | loops (s : Console δ)

namespace Console

variable (P : PortIo δ)

/-- `print_interrupt_stack_frame`. -/
def printInterruptStackFrame (type : CString) (frame : InterruptStackFrame) (fuel : ℕ)
    (s : Console δ) : Except Stop (Console δ) := do
  let (_, s) ← s.printf P headFormat [.string type] fuel
  let (_, s) ← s.printf P instructionPointerFormat [.word frame.ip] fuel
  let (_, s) ← s.printf P codeSegmentFormat [.word frame.cs] fuel
  let (_, s) ← s.printf P cpuFlagsFormat [.word frame.rflags] fuel
  let (_, s) ← s.printf P stackPointerFormat [.word frame.sp] fuel
  let (_, s) ← s.printf P stackSegmentFormat [.word frame.ss] fuel
  let (_, s) ← s.printf P tailFormat [] fuel
  return s

/-- `breakpoint_handler`. -/
def breakpointHandler (frame : InterruptStackFrame) (fuel : ℕ) (s : Console δ) :
    Except Stop (Handled δ) := do
  let (_, s) ← s.printf P breakpointFormat [] fuel
  let s ← s.printInterruptStackFrame P ⟨chars "Breakpoint", by decide⟩ frame fuel
  return .returns s

/-- `terminal_writestring`, which goes to the terminal only. -/
def writestring (data : CString) (s : Console δ) : Console δ :=
  let (entries, terminal) := s.terminal.terminalWritestring data
  { s with terminal := terminal, shown := s.shown ++ entries }

/-- `kernel_panic`. -/
def kernelPanic (s : Console δ) : Handled δ :=
  .loops (s.writestring ⟨chars "\n\rkernel panic!\n\r", by decide⟩)

/-- `double_fault_handler`. -/
def doubleFaultHandler (frame : InterruptStackFrame) (fuel : ℕ) (s : Console δ) :
    Except Stop (Handled δ) := do
  let s ← s.printInterruptStackFrame P ⟨chars "Double Fault", by decide⟩ frame fuel
  return s.kernelPanic

end Console

/-! ### The text of a line -/

/-- A word with its prefix, as it is printed with a width of 18. -/
def wordText (n : UInt64) : List UInt8 :=
  Printf.hexPrefix false ++ (Printf.printedDigits 18 n.toNat).map
    (Printf.tableByte (Printf.hexConversion false 18).conversion Printf.hexUpper Printf.hexLower)

/-- A line with a word. -/
def fieldText (name : List UInt8) (n : UInt64) : List UInt8 :=
  chars "\t" ++ (name ++ (chars ": " ++ (wordText n ++ chars "\n\r")))

/-- The report. -/
def report (type : CString) (frame : InterruptStackFrame) : List UInt8 :=
  chars "Exception: " ++ (type.bytes ++ (chars "\n\rInterruptStackFrame \x7b\n\r" ++
    (fieldText (chars "instruction_pointer") frame.ip ++
      (fieldText (chars "code_segment") frame.cs ++
        (fieldText (chars "cpu_flags") frame.rflags ++
          (fieldText (chars "stack_pointer") frame.sp ++
            (fieldText (chars "stack_segment") frame.ss ++ chars "\x7d\n\r")))))))

namespace Printf

section Word

open WordArith

/-- The conversion of a word puts its text out, whatever has been put out before. -/
theorem puts_word (n : UInt64) :
    Puts (.int16 (hexConversion false 18).conversion n) (wordText n) := by
  intro io
  set spec := (hexConversion false 18).conversion with hspec
  have hleft : spec.leftAligned = false := rfl
  have hstep : spec.leftAligned = true → (1 : UInt64) = 1 := fun _ => rfl
  have hzeroCase : false = true → n.toNat % 2 ^ 60 ≠ 0 := fun hcase => by cases hcase
  have hfill := fun e => filled_sub_of_right (w := 16) (e := e) hleft
  have hexec : ∀ fuel, Directive.exec fuel io (.int16 spec n) =
      putBased ((1 : UInt64) <<< 60) 4 hexUpper hexLower false 1 spec
        (UInt64.ofNat 16) n (io.putText (hexPrefix false)) fuel := by
    intro fuel
    rw [Directive.exec, putInt16, putPrefix16_text (by decide)]
    rfl
  simp only [hexec]
  rw [wordText, ← putText_putText, printedDigits]
  split
  · next hle =>
    have htext := base16.putBased_text_of_le false hstep (by decide : 16 < 2 ^ 63) hle
      rfl rfl (io.putText (hexPrefix false))
    rw [List.map_append, List.map_replicate]
    rwa [hfill, behind_of_right hleft, List.append_nil] at htext
  · next hnot =>
    have htext := base16.putBased_text_of_gt hstep (by decide : 16 < 2 ^ 63) (Nat.not_le.mp hnot)
      hzeroCase (io.putText (hexPrefix false))
    rw [List.map_cons, List.map_append, List.map_replicate]
    rwa [hfill, behind_of_right hleft, List.append_nil] at htext

end Word

section Plain

variable {l before after : List UInt8} {ps : List Piece} {args : List Arg}

/-- Characters that stand for themselves. -/
def Plain (l : List UInt8) : Prop := ∀ c ∈ l, c ≠ ch '%' ∧ c ≠ 92 ∧ c ≠ 0

instance (l : List UInt8) : Decidable (Plain l) := List.decidableBAll _ l

/-- The pieces of a plain text. -/
def plainPieces (l : List UInt8) : List Piece := l.map (asPiece .percent)

theorem separated_of_notMem (h : Piece.backslash ∉ ps) : Separated ps := by
  induction ps with
  | nil => trivial
  | cons p ps ih =>
    obtain ⟨hp, hps⟩ := List.ne_and_not_mem_of_not_mem_cons h
    exact ⟨fun hback => absurd hback hp.symm, ih hps⟩

theorem backslash_notMem_plain (h : Plain l) : Piece.backslash ∉ plainPieces l := by
  intro hmem
  obtain ⟨c, hc, heq⟩ := List.mem_map.mp hmem
  rw [asPiece_char (h c hc)] at heq
  cases heq

theorem piecesText_append (ps ps' : List Piece) :
    piecesText (ps ++ ps') = piecesText ps ++ piecesText ps' := List.flatMap_append

theorem piecesText_plain (h : Plain l) : piecesText (plainPieces l) = l := by
  induction l with
  | nil => rfl
  | cons c l ih =>
    obtain ⟨hc, hl⟩ := List.forall_mem_cons.mp h
    have hone : asPiece .percent c = .char c hc := asPiece_char hc
    rw [plainPieces, List.map_cons, piecesText_cons, hone, ← plainPieces, ih hl]
    rfl

/-- A plain text in front is put out character by character. -/
theorem pieceDirectives_plain (h : Plain l) :
    pieceDirectives (plainPieces l ++ ps) args =
      (pieceDirectives ps args).map fun ds => l.map .literal ++ ds := by
  induction l with
  | nil =>
    show pieceDirectives ps args = _
    cases pieceDirectives ps args <;> rfl
  | cons c l ih =>
    obtain ⟨hc, hl⟩ := List.forall_mem_cons.mp h
    have hone : (asPiece .percent c).directive args = .ok (.literal c, args) := by
      rw [asPiece_char hc]
      rfl
    show pieceDirectives (asPiece .percent c :: (plainPieces l ++ ps)) args = _
    rw [pieceDirectives, hone, ok_bind]
    dsimp only
    rw [ih hl]
    cases pieceDirectives ps args <;> rfl

theorem pieceDirectives_plain_nil (h : Plain l) :
    pieceDirectives (plainPieces l) args = .ok (l.map Directive.literal) := by
  rw [← List.append_nil (plainPieces l), pieceDirectives_plain h]
  show Except.ok (l.map Directive.literal ++ []) = _
  rw [List.append_nil]

theorem forall₂_puts_literal (l : List UInt8) :
    List.Forall₂ Puts (l.map .literal) (l.map fun c => [c]) := by
  induction l with
  | nil => exact .nil
  | cons c l ih => exact .cons (puts_literal c) ih

/-- A conversion between plain texts. -/
theorem prints_between {format : CString} {t : ConversionText} {d : Directive} {args' : List Arg}
    {text : List UInt8} (hbefore : Plain before) (hafter : Plain after)
    (hformat : format.bytes = before ++ (t.bytes ++ after))
    (hfetch : fetch t.conversion args = .ok (d, args')) (hd : Puts d text) :
    Prints format args (before ++ (text ++ after)) := by
  obtain ⟨ps, hps⟩ : ∃ ps, ps = plainPieces before ++ (.conversion t :: plainPieces after) :=
    ⟨_, rfl⟩
  have heq : format = ofPieces ps := by
    obtain ⟨bytes, hnul⟩ := format
    rw [ofPieces, CString.mk.injEq, hps, piecesText_append, piecesText_cons,
      piecesText_plain hbefore, piecesText_plain hafter]
    exact hformat
  have hsep : Separated ps := by
    refine separated_of_notMem fun hmem => ?_
    rw [hps] at hmem
    rcases List.mem_append.mp hmem with hmem | hmem
    · exact backslash_notMem_plain hbefore hmem
    rcases List.mem_cons.mp hmem with hmem | hmem
    · cases hmem
    · exact backslash_notMem_plain hafter hmem
  have hds : pieceDirectives ps args =
      .ok (before.map .literal ++ (d :: after.map .literal)) := by
    rw [hps, pieceDirectives_plain hbefore, pieceDirectives, Piece.directive, hfetch, ok_bind]
    dsimp only
    rw [pieceDirectives_plain_nil hafter]
    rfl
  have hprints := prints_of_puts ((directives_ofPieces hsep args).trans hds)
    (List.rel_append (forall₂_puts_literal before) (.cons hd (forall₂_puts_literal after)))
  rw [heq]
  rwa [List.flatten_append, List.flatten_cons, flatten_singletons, flatten_singletons] at hprints

/-- A plain text is printed as it is. -/
theorem prints_plain {format : CString} (h : Plain format.bytes) :
    Prints format [] format.bytes := by
  have heq : format = ofPieces (plainPieces format.bytes) := by
    obtain ⟨bytes, hnul⟩ := format
    rw [ofPieces, CString.mk.injEq]
    exact (piecesText_plain h).symm
  have hsep : Separated (plainPieces format.bytes) :=
    separated_of_notMem (backslash_notMem_plain h)
  have hdirs := (directives_ofPieces hsep []).trans (pieceDirectives_plain_nil h)
  rw [← heq] at hdirs
  have hprints := prints_of_puts hdirs (forall₂_puts_literal format.bytes)
  rwa [flatten_singletons] at hprints

end Plain

end Printf

/-! ### Lines -/

open Printf in
theorem prints_head (type : CString) : Prints headFormat [.string type]
    (chars "Exception: " ++ (type.bytes ++ chars "\n\rInterruptStackFrame \x7b\n\r")) :=
  prints_between (t := stringConversion) (by decide) (by decide) (by decide) rfl (puts_string type)

open Printf in
theorem prints_field {format : CString} (name : List UInt8) (hname : Plain name)
    (hformat : format.bytes = fieldBytes name) (n : UInt64) :
    Prints format [.word n] (fieldText name n) := by
  have hbefore : Plain (chars "\t" ++ (name ++ chars ": ")) := by
    intro c hc
    rcases List.mem_append.mp hc with hc | hc
    · exact (by decide : Plain (chars "\t")) c hc
    rcases List.mem_append.mp hc with hc | hc
    · exact hname c hc
    · exact (by decide : Plain (chars ": ")) c hc
  have hbytes : (hexConversion false 18).bytes = chars "%#018llx" := by decide
  have hprints : Prints format [.word n]
      ((chars "\t" ++ (name ++ chars ": ")) ++ (wordText n ++ chars "\n\r")) :=
    prints_between (t := hexConversion false 18) hbefore (by decide)
      (by rw [hformat, hbytes, fieldBytes]; simp only [List.append_assoc]) rfl (puts_word n)
  rw [fieldText]
  simpa only [List.append_assoc] using hprints

/-- The digits of a word are never more or less than sixteen. -/
theorem length_wordText (n : UInt64) : (wordText n).length = 18 := by
  have hdigits : (Printf.printedDigits 18 n.toNat).length = 16 := by
    rw [Printf.printedDigits]
    split
    · rw [List.length_append, List.length_replicate, DigitList.length_fixed]
      omega
    · rw [List.length_cons, List.length_append, List.length_replicate, DigitList.length_fixed]
  rw [wordText, List.length_append, List.length_map, hdigits]
  rfl

open Printf in
/-- The NUL behind the table of digits is printed for one word only. -/
theorem zero_mem_wordText_iff (n : UInt64) : 0 ∈ wordText n ↔ n.toNat = 2 ^ 60 := by
  constructor
  · intro hnul
    by_contra hne
    rcases List.mem_append.mp hnul with hnul | hnul
    · exact absurd hnul (by decide)
    · obtain ⟨d, hd, hzero⟩ := List.mem_map.mp hnul
      have hd16 := lt_of_mem_printedDigits hne n.toNat_lt hd
      rw [tableByte_hex _ hd16] at hzero
      exact hexDigit_ne_zero hd16 hzero
  · intro hlimit
    refine List.mem_append_right _ (List.mem_map.mpr ⟨16, ?_, rfl⟩)
    rw [hlimit]
    exact mem_printedDigits_limit

open Printf in
/-- The digits are those of the number, but for that word. -/
theorem hexText_wordText_iff (n : UInt64) :
    HexText false 18 n.toNat (wordText n) ↔ n.toNat ≠ 2 ^ 60 := by
  constructor
  · rintro ⟨ds, hds, -, -, htext⟩ hlimit
    have hnul := (zero_mem_wordText_iff n).mpr hlimit
    rw [htext] at hnul
    rcases List.mem_append.mp hnul with hnul | hnul
    · exact absurd hnul (by decide)
    · obtain ⟨d, hd, hzero⟩ := List.mem_map.mp hnul
      exact hexDigit_ne_zero (hds d hd) hzero
  · intro hne
    have hprinted : ∀ d ∈ printedDigits 18 n.toNat, d < 16 :=
      fun d hd => lt_of_mem_printedDigits hne n.toNat_lt hd
    obtain ⟨hlen, hvalue⟩ := @printedDigits_spec 18 _ n.toNat_lt (by omega)
    refine ⟨_, hprinted, hlen, hvalue, ?_⟩
    rw [wordText]
    congr 1
    exact List.map_congr_left fun d hd => tableByte_hex _ (hprinted d hd)

open Printf in
/-- A word is determined by its text. -/
theorem wordText_inj {n n' : UInt64} (h : wordText n = wordText n') : n = n' := by
  rw [← UInt64.toNat_inj]
  by_cases hlimit : n.toNat = 2 ^ 60
  · have hnul := (zero_mem_wordText_iff n).mpr hlimit
    rw [h, zero_mem_wordText_iff] at hnul
    rw [hlimit, hnul]
  · have hne : n'.toNat ≠ 2 ^ 60 := by
      rw [ne_eq, ← zero_mem_wordText_iff, ← h, zero_mem_wordText_iff]
      exact hlimit
    obtain ⟨ds, hds, -, hvalue, htext⟩ := (hexText_wordText_iff n).mpr hlimit
    obtain ⟨ds', hds', -, hvalue', htext'⟩ := (hexText_wordText_iff n').mpr hne
    rw [htext, htext'] at h
    rw [← hvalue, ← hvalue', map_hexDigit_inj hds hds' (List.append_cancel_left h)]

theorem fieldText_append_inj {name rest rest' : List UInt8} {n n' : UInt64}
    (h : fieldText name n ++ rest = fieldText name n' ++ rest') : n = n' ∧ rest = rest' := by
  have hlen : (fieldText name n).length = (fieldText name n').length := by
    simp only [fieldText, List.length_append, length_wordText]
  obtain ⟨hfield, hrest⟩ := List.append_inj h hlen
  have hword := List.append_cancel_left (List.append_cancel_left (List.append_cancel_left hfield))
  exact ⟨wordText_inj (List.append_cancel_right hword), hrest⟩

/-- The report determines the frame, and each word of it can be read but for one. -/
theorem report_inj (type : CString) (frame frame' : InterruptStackFrame) :
    (report type frame = report type frame' ↔ frame = frame') ∧
      ∀ n : UInt64, Printf.HexText false 18 n.toNat (wordText n) ↔ n.toNat ≠ 2 ^ 60 := by
  refine ⟨⟨fun h => ?_, fun h => h ▸ rfl⟩, hexText_wordText_iff⟩
  unfold report at h
  have hfields := List.append_cancel_left (List.append_cancel_left (List.append_cancel_left h))
  obtain ⟨hip, hfields⟩ := fieldText_append_inj hfields
  obtain ⟨hcs, hfields⟩ := fieldText_append_inj hfields
  obtain ⟨hrflags, hfields⟩ := fieldText_append_inj hfields
  obtain ⟨hsp, hfields⟩ := fieldText_append_inj hfields
  obtain ⟨hss, -⟩ := fieldText_append_inj hfields
  cases frame
  cases frame'
  rw [InterruptStackFrame.mk.injEq]
  exact ⟨hcs, hip, hrflags, hss, hsp⟩

/-! ### The handlers -/

section Handlers

variable {P : PortIo δ} {registers : δ → UartRegisters} {sent : δ → List UInt8} {ready : δ → Prop}
  {s s' : Console δ} {fuel : ℕ}

/-- A call of `printf` with what comes behind it. -/
theorem printf_bind_wrote {A : Type} (h : P.Contract registers sent ready) {format : CString}
    {args : List Arg} {text : List UInt8} (hprints : Printf.Prints format args text)
    {rest : ℕ × Console δ → Except Stop A} {a : A} (hopen : s.Open registers)
    (hrun : s.printf P format args fuel >>= rest = .ok a) :
    ∃ s₁, s₁.Open registers ∧ Wrote sent text s s₁ ∧ rest (text.length, s₁) = .ok a := by
  obtain ⟨⟨n, s₁⟩, hprintf, hrest⟩ := bind_eq_ok.mp hrun
  obtain ⟨hopen', rfl, hwrote⟩ := printf_wrote_of_prints h hprints hopen hprintf
  exact ⟨s₁, hopen', hwrote, hrest⟩

theorem printInterruptStackFrame_wrote (h : P.Contract registers sent ready) {type : CString}
    {frame : InterruptStackFrame} (hopen : s.Open registers)
    (hrun : s.printInterruptStackFrame P type frame fuel = .ok s') :
    s'.Open registers ∧ Wrote sent (report type frame) s s' := by
  rw [Console.printInterruptStackFrame] at hrun
  obtain ⟨s₁, hopen, hhead, hrun⟩ := printf_bind_wrote h (prints_head type) hopen hrun
  dsimp only at hrun
  obtain ⟨s₂, hopen, hip, hrun⟩ := printf_bind_wrote h
    (prints_field (chars "instruction_pointer") (by decide) rfl frame.ip) hopen hrun
  dsimp only at hrun
  obtain ⟨s₃, hopen, hcs, hrun⟩ := printf_bind_wrote h
    (prints_field (chars "code_segment") (by decide) rfl frame.cs) hopen hrun
  dsimp only at hrun
  obtain ⟨s₄, hopen, hrflags, hrun⟩ := printf_bind_wrote h
    (prints_field (chars "cpu_flags") (by decide) rfl frame.rflags) hopen hrun
  dsimp only at hrun
  obtain ⟨s₅, hopen, hsp, hrun⟩ := printf_bind_wrote h
    (prints_field (chars "stack_pointer") (by decide) rfl frame.sp) hopen hrun
  dsimp only at hrun
  obtain ⟨s₆, hopen, hss, hrun⟩ := printf_bind_wrote h
    (prints_field (chars "stack_segment") (by decide) rfl frame.ss) hopen hrun
  dsimp only at hrun
  obtain ⟨s₇, hopen, htail, hrun⟩ := printf_bind_wrote h
    (Printf.prints_plain (by decide : Printf.Plain tailFormat.bytes)) hopen hrun
  dsimp only at hrun
  obtain rfl := Except.ok.inj hrun
  refine ⟨hopen, ?_⟩
  have hall := hhead.trans (hip.trans (hcs.trans (hrflags.trans (hsp.trans (hss.trans htail)))))
  rw [List.append_assoc, List.append_assoc] at hall
  exact hall

theorem breakpointHandler_wrote (h : P.Contract registers sent ready)
    {frame : InterruptStackFrame} (hopen : s.Open registers)
    {r : Handled δ} (hrun : s.breakpointHandler P frame fuel = .ok r) : ∃ s', r = .returns s' ∧
      Wrote sent (breakpointFormat.bytes ++ report ⟨chars "Breakpoint", by decide⟩ frame) s s' := by
  rw [Console.breakpointHandler] at hrun
  obtain ⟨s₁, hopen, hcaught, hrun⟩ := printf_bind_wrote h
    (Printf.prints_plain (by decide : Printf.Plain breakpointFormat.bytes)) hopen hrun
  dsimp only at hrun
  obtain ⟨s', hframe, hrun⟩ := bind_eq_ok.mp hrun
  exact ⟨s', (Except.ok.inj hrun).symm,
    hcaught.trans (printInterruptStackFrame_wrote h hopen hframe).2⟩

/-- `double_fault_handler` comes to the loop of `kernel_panic`. -/
theorem doubleFaultHandler_wrote (h : P.Contract registers sent ready)
    {frame : InterruptStackFrame} (hopen : s.Open registers) {r : Handled δ}
    (hrun : s.doubleFaultHandler P frame fuel = .ok r) :
    ∃ s₁ : Console δ, Wrote sent (report ⟨chars "Double Fault", by decide⟩ frame) s s₁ ∧
      r = .loops (s₁.writestring ⟨chars "\n\rkernel panic!\n\r", by decide⟩) := by
  obtain ⟨s₁, hreport, hrun⟩ := bind_eq_ok.mp hrun
  exact ⟨s₁, (printInterruptStackFrame_wrote h hopen hreport).2, (Except.ok.inj hrun).symm⟩

/-- It does not matter how large the bound on the rounds of the loops is, if it is large
enough. -/
def Total {A : Type} (f : ℕ → Except Stop A) : Prop := Stable f ∧ Halts f

theorem Total.bind {A B : Type} {f : ℕ → Except Stop A} {g : ℕ → A → Except Stop B} (hf : Total f)
    (hg : ∀ a, Total fun n => g n a) : Total fun n => f n >>= g n :=
  ⟨hf.1.bind fun a => (hg a).1, halts_seq hf.1 (fun a => (hg a).1) hf.2 fun a => (hg a).2⟩

theorem Total.ok {A : Type} (a : A) : Total fun _ => .ok a := ⟨.const _, halts_const.mpr ⟨a, rfl⟩⟩

theorem printf_total (hdrains : P.Drains) {format : CString} {args : List Arg} {text : List UInt8}
    (hprints : Printf.Prints format args text) (s : Console δ) :
    Total fun fuel => s.printf P format args fuel :=
  ⟨consolePrintf_stable P format args s, printf_halts hdrains hprints s⟩

/-- The report ends if the port gets ready again and again. -/
theorem printInterruptStackFrame_total (hdrains : P.Drains) (type : CString)
    (frame : InterruptStackFrame) (s : Console δ) :
    Total fun fuel => s.printInterruptStackFrame P type frame fuel := by
  have hfield : ∀ {format : CString} (name : List UInt8) (n : UInt64) (s : Console δ),
      Printf.Plain name → format.bytes = fieldBytes name →
        Total fun fuel => s.printf P format [.word n] fuel :=
    fun name n s hname hformat => printf_total hdrains (prints_field name hname hformat n) s
  refine (printf_total hdrains (prints_head type) s).bind fun r => ?_
  refine (hfield (chars "instruction_pointer") _ _ (by decide) rfl).bind fun r => ?_
  refine (hfield (chars "code_segment") _ _ (by decide) rfl).bind fun r => ?_
  refine (hfield (chars "cpu_flags") _ _ (by decide) rfl).bind fun r => ?_
  refine (hfield (chars "stack_pointer") _ _ (by decide) rfl).bind fun r => ?_
  refine (hfield (chars "stack_segment") _ _ (by decide) rfl).bind fun r => ?_
  exact (printf_total hdrains (Printf.prints_plain
    (by decide : Printf.Plain tailFormat.bytes)) _).bind fun r => .ok r.2

/-- What is reported of an interrupted program: for a breakpoint the instruction pointer under
the name of the code segment, and the other way round, and the same with the stack; for a
double fault the words that lie below these.  The one handler returns; the other comes to the
loop of `kernel_panic`. -/
theorem handlers_report (h : P.Contract registers sent ready) (c : Interrupted)
    (hopen : s.Open registers) :
    (∀ fuel r, s.breakpointHandler P (frameAt (c.pushed none)) fuel = .ok r →
      ∃ s', r = .returns s' ∧
        Logged sent (breakpointFormat.bytes ++ report ⟨chars "Breakpoint", by decide⟩
          { ip := c.cs, cs := c.rip, rflags := c.rflags, sp := c.ss, ss := c.rsp }) s s') ∧
    (∀ fuel r, s.doubleFaultHandler P (frameAt (c.pushed (some 0))) fuel = .ok r →
      ∃ s₁ : Console δ, Logged sent (report ⟨chars "Double Fault", by decide⟩
          { ip := c.rip, cs := 0, rflags := c.cs, sp := c.rsp, ss := c.rflags }) s s₁ ∧
        r = .loops (s₁.writestring ⟨chars "\n\rkernel panic!\n\r", by decide⟩)) ∧
    (P.Drains →
      Halts (fun fuel => s.breakpointHandler P (frameAt (c.pushed none)) fuel) ∧
        Halts fun fuel => s.doubleFaultHandler P (frameAt (c.pushed (some 0))) fuel) := by
  refine ⟨fun fuel r hrun => ?_, fun fuel r hrun => ?_, fun hdrains => ⟨?_, ?_⟩⟩
  · obtain ⟨s', hr, hwrote⟩ := breakpointHandler_wrote h hopen hrun
    exact ⟨s', hr, hwrote.logged⟩
  · obtain ⟨s₁, hwrote, hr⟩ := doubleFaultHandler_wrote h hopen hrun
    exact ⟨s₁, hwrote.logged, hr⟩
  · have hcaught := Printf.prints_plain (by decide : Printf.Plain breakpointFormat.bytes)
    refine ((printf_total hdrains hcaught s).bind fun r => ?_).2
    exact (printInterruptStackFrame_total hdrains _ _ r.2).bind fun s =>
      .ok (Handled.returns s)
  · exact ((printInterruptStackFrame_total hdrains _ _ s).bind fun s => .ok s.kernelPanic).2

/-- A breakpoint of the kernel at `0xFFFFFFFF80001000`. -/
theorem handlers_report_breakpoint : ∃ fuel s',
    Console.breakpointHandler slowPort
        (s := { slowConsole with serial := ⟨⟨3, 0, 0, 0, 3, 0⟩, [], 2⟩ })
        (frameAt [0xFFFFFFFF80001000, 8, 0x202, 0xFFFFFFFF80009000, 0x10]) fuel =
      .ok (.returns s') ∧
    s'.serial.sent = [] ++ (breakpointFormat.bytes ++ report ⟨chars "Breakpoint", by decide⟩
      { ip := 8, cs := 0xFFFFFFFF80001000, rflags := 0x202, sp := 0x10,
        ss := 0xFFFFFFFF80009000 }) := by
  have hopen : Console.Open SlowUart.registers
      { slowConsole with serial := ⟨⟨3, 0, 0, 0, 3, 0⟩, [], 2⟩ } :=
    show ¬ (3 : UInt8) &&& 0x80 ≠ 0 by decide
  obtain ⟨hbreakpoint, -, hhalts⟩ := handlers_report slowPort_contract
    ⟨0xFFFFFFFF80001000, 8, 0x202, 0xFFFFFFFF80009000, 0x10⟩ hopen
  obtain ⟨r, fuel, hrun⟩ := (hhalts slowPort_drains).1
  obtain ⟨s', rfl, hlogged⟩ := hbreakpoint fuel r hrun
  exact ⟨fuel, s', hrun, hlogged.sent⟩

end Handlers

end Betelgeuse
