/-
The console of the kernel (`libc/stdio/putchar.c`, `libc/stdio/puts.c`,
`kernel/kernel/kernel.c`).

`putchar` writes to the terminal and to the serial port.  `Wrote` says that a text has gone to
both of them, and `printf` writes the text that it prints (`printf_wrote`), so that the screen
and the line at the other end of the port show the same.  The events of a call, which the
model of `printf` collects, are carried out behind it; nothing of what they do comes back to it.

`print_check` writes one line with the outcome of a check (`printCheck_wrote`).  The kernel
starts with a sequence of these, and its log is what the checks have said up to the first
one that fails (`boot_log`).
-/
import Betelgeuse.PrintfCount
import Betelgeuse.PrintfPieces
import Betelgeuse.Serial

open WhileLoop

namespace Betelgeuse

open Printf (Stop Event Arg)

/-- A text of the source. -/
def chars (s : String) : List UInt8 := s.toList.map Printf.ch

/-- `terminal_setcolour`. -/
def Terminal.terminalSetcolour (fg bg : UInt32) (t : Terminal) : Terminal :=
  { t with fgColour := fg, bgColour := bg }

variable {δ : Type}

/-- The terminal with what it has put on the screen, and the serial port. -/
structure Console (δ : Type) where
  terminal : Terminal
  shown : List PutEntry
  serial : δ

namespace Console

variable (P : PortIo δ)

def setcolour (fg bg : UInt32) (s : Console δ) : Console δ :=
  { s with terminal := s.terminal.terminalSetcolour fg bg }

/-- `putchar`. -/
def putchar (c : UInt8) (fuel : ℕ) (s : Console δ) : Except Stop (Console δ) := do
  let (entries, terminal) := s.terminal.terminalWrite [c]
  let serial ← P.serialWrite c fuel s.serial
  return ⟨terminal, s.shown ++ entries, serial⟩

/-- Carry out what `printf` does; a store of `%n` is none of the console's business. -/
def event (fuel : ℕ) (s : Console δ) : Event → Except Stop (Console δ)
  | .put c => s.putchar P c fuel
  | .store _ _ => .ok s

/-- `printf`. -/
def printf (format : CString) (args : List Arg) (fuel : ℕ) (s : Console δ) :
    Except Stop (ℕ × Console δ) := do
  let (n, events) ← Printf.printf fuel format args
  let s ← events.foldlM (event P fuel) s
  return (n, s)

/-- `puts`. -/
def puts (str : CString) (fuel : ℕ) (s : Console δ) : Except Stop (ℕ × Console δ) :=
  s.printf P ⟨chars "%s\n", by decide⟩ [.string str] fuel

/-- The words of `print_check`, `ERR` and `OK`. -/
def statusWord (status : UInt8) : CString :=
  if status ≠ 0 then ⟨chars "ERR", by decide⟩ else ⟨chars "OK", by decide⟩

def statusColour (status : UInt8) : UInt32 := if status ≠ 0 then 0xCD2222 else 0x22CD22

/-- `print_check`. -/
def printCheck (status : UInt8) (msg : CString) (fuel : ℕ) (s : Console δ) :
    Except Stop (Console δ) := do
  let (_, s) ← s.printf P ⟨chars "[", by decide⟩ [] fuel
  let s := s.setcolour (statusColour status) 0x000000
  let (_, s) ← s.printf P ⟨chars "%s", by decide⟩ [.string (statusWord status)] fuel
  let s := s.setcolour 0xDCDCDC 0x000000
  let (_, s) ← s.printf P ⟨chars "] %s\n\r", by decide⟩ [.string msg] fuel
  return s

/-- The values of `result` with the messages of their `CHECK`: the code that is returned, if
the end of the function is not reached before. -/
def checks (fuel : ℕ) : List (CString × UInt8) → Console δ →
    Except Stop (Option UInt64 × Console δ)
  | [], s => .ok (none, s)
  | (msg, result) :: rest, s =>
    if result ≠ 0 then do
      let s ← s.printCheck P 1 msg fuel
      return (some 1, s)
    else do
      let s ← s.printCheck P 0 msg fuel
      checks fuel rest s

def terminalMessage : CString := ⟨chars "Terminal driver initialisation", by decide⟩

def pageAllocatorMessage : CString := ⟨chars "Page allocator initialisation", by decide⟩

def interruptsMessage : CString := ⟨chars "Install interrupts", by decide⟩

/-- `early_kmain`. -/
def earlyKmain (psf : Psf2Header) (mode : GraphicsMode) (fuel : ℕ) (s : Console δ) :
    Except Stop (Console δ) :=
  let (result, terminal) := s.terminal.terminalInit psf mode
  let s : Console δ := ⟨terminal, s.shown, P.serialInit s.serial⟩
  let s := s.setcolour 0xDCDCDC 0x000000
  if result = 0 then s.printCheck P 0 terminalMessage fuel else .ok s

/-- `kmain`, with the values that `page_allocator_init` and `install_interrupts` return. -/
def kmain (pageAllocatorInit installInterrupts : UInt8) (fuel : ℕ) (s : Console δ) :
    Except Stop (Option UInt64 × Console δ) :=
  checks P fuel
    [(pageAllocatorMessage, pageAllocatorInit), (interruptsMessage, installInterrupts)] s

/-- The start of the kernel: `early_kmain`, and then `kmain`. -/
def boot (psf : Psf2Header) (mode : GraphicsMode) (pageAllocatorInit installInterrupts : UInt8)
    (fuel : ℕ) (s : Console δ) : Except Stop (Option UInt64 × Console δ) := do
  let s ← s.earlyKmain P psf mode fuel
  s.kmain P pageAllocatorInit installInterrupts fuel

end Console

/-- A call of one of the functions of the console. -/
inductive ConsoleCall where
  | putchar (c : UInt8)
  | printf (format : CString) (args : List Arg)
  | puts (str : CString)
  | setcolour (fg bg : UInt32)
  | printCheck (status : UInt8) (msg : CString)

/-- Make a call. -/
def ConsoleCall.run (P : PortIo δ) (fuel : ℕ) (s : Console δ) :
    ConsoleCall → Except Stop (Console δ)
  | putchar c => s.putchar P c fuel
  | printf format args => return (← s.printf P format args fuel).2
  | puts str => return (← s.puts P str fuel).2
  | setcolour fg bg => .ok (s.setcolour fg bg)
  | printCheck status msg => s.printCheck P status msg fuel

/-- A console on the slow port, before the first call. -/
def slowConsole : Console SlowUart where
  terminal := ⟨0, 0, 0, 0, 0x00FFFFFF, 0, 0, 0, 0, 0⟩
  shown := []
  serial := busyUart

/-! ### Writing to both -/

section Wrote

theorem Terminal.terminalWrite_append (data data' : List UInt8) : ∀ t : Terminal,
    t.terminalWrite (data ++ data') =
      ((t.terminalWrite data).1 ++ ((t.terminalWrite data).2.terminalWrite data').1,
        ((t.terminalWrite data).2.terminalWrite data').2) := by
  induction data with
  | nil => exact fun t => rfl
  | cons b data ih =>
    intro t
    simp only [List.cons_append, Terminal.terminalWrite, ih, List.append_assoc]

variable {P : PortIo δ} {registers : δ → UartRegisters} {sent : δ → List UInt8} {ready : δ → Prop}
  {s s' s'' : Console δ} {text text' : List UInt8} {fuel : ℕ}

/-- The text has gone to the terminal and to the port. -/
structure Wrote (sent : δ → List UInt8) (text : List UInt8) (s s' : Console δ) : Prop where
  terminal : s'.terminal = (s.terminal.terminalWrite text).2
  shown : s'.shown = s.shown ++ (s.terminal.terminalWrite text).1
  sent : sent s'.serial = sent s.serial ++ text

/-- The port takes characters. -/
def Console.Open (registers : δ → UartRegisters) (s : Console δ) : Prop :=
  ¬ (registers s.serial).DivisorAccess

theorem Wrote.refl (s : Console δ) : Wrote sent [] s s :=
  ⟨rfl, (List.append_nil _).symm, (List.append_nil _).symm⟩

theorem Wrote.trans (h : Wrote sent text s s') (h' : Wrote sent text' s' s'') :
    Wrote sent (text ++ text') s s'' where
  terminal := by rw [Terminal.terminalWrite_append, h'.terminal, h.terminal]
  shown := by rw [Terminal.terminalWrite_append, h'.shown, h.shown, h.terminal, List.append_assoc]
  sent := by rw [h'.sent, h.sent, List.append_assoc]

theorem putchar_wrote (h : P.Contract registers sent ready) {c : UInt8}
    (hopen : s.Open registers) (hrun : s.putchar P c fuel = .ok s') :
    s'.Open registers ∧ Wrote sent [c] s s' := by
  obtain ⟨serial, hsend, hrun⟩ := bind_eq_ok.mp hrun
  obtain rfl := Except.ok.inj hrun
  obtain ⟨hd, hsent⟩ := h.serialWrite hopen hsend
  exact ⟨hd, rfl, rfl, hsent⟩

/-- The characters of events. -/
def printed (events : List Event) : List UInt8 :=
  events.flatMap fun
    | .put c => [c]
    | .store _ _ => []

theorem printed_map_put (text : List UInt8) : printed (text.map .put) = text := by
  rw [printed, List.flatMap_map, List.flatMap_singleton']

theorem events_wrote (h : P.Contract registers sent ready) {events : List Event} :
    ∀ {s s' : Console δ}, s.Open registers →
      events.foldlM (Console.event P fuel) s = .ok s' →
      s'.Open registers ∧ Wrote sent (printed events) s s' := by
  induction events with
  | nil =>
    intro s s' hopen hrun
    obtain rfl := Except.ok.inj hrun
    exact ⟨hopen, .refl s⟩
  | cons e events ih =>
    intro s s' hopen hrun
    obtain ⟨s₁, hone, hrest⟩ := bind_eq_ok.mp hrun
    cases e with
    | put c =>
      obtain ⟨hopen₁, hwrote₁⟩ := putchar_wrote h hopen hone
      obtain ⟨hopen', hwrote'⟩ := ih hopen₁ hrest
      exact ⟨hopen', hwrote₁.trans hwrote'⟩
    | store n value =>
      obtain rfl := Except.ok.inj hone
      exact ih hopen hrest

theorem length_printed (events : List Event) : (printed events).length = Printf.puts events := by
  induction events with
  | nil => rfl
  | cons e events ih =>
    rw [printed, List.flatMap_cons, List.length_append, ← printed, ih, Printf.puts, Printf.puts,
      List.countP_cons, Nat.add_comm]
    cases e <;> rfl

/-- What `printf` prints goes to the terminal and to the port, and it returns the number of
these characters. -/
theorem printf_wrote (h : P.Contract registers sent ready) {format : CString} {args : List Arg}
    {n : ℕ} (hopen : s.Open registers) (hrun : s.printf P format args fuel = .ok (n, s')) :
    s'.Open registers ∧ ∃ events, Printf.printf fuel format args = .ok (n, events) ∧
      n = (printed events).length ∧ Wrote sent (printed events) s s' := by
  obtain ⟨⟨m, events⟩, hprintf, hrun⟩ := bind_eq_ok.mp hrun
  obtain ⟨s₁, hevents, hrun⟩ := bind_eq_ok.mp hrun
  obtain ⟨rfl, rfl⟩ := Prod.mk.inj (Except.ok.inj hrun)
  obtain ⟨hopen', hwrote⟩ := events_wrote h hopen hevents
  refine ⟨hopen', events, hprintf, ?_, hwrote⟩
  -- `num_chars_written` counts the characters
  obtain ⟨io, hio, heq⟩ := bind_eq_ok.mp hprintf
  obtain ⟨rfl, rfl⟩ := Prod.mk.inj (Except.ok.inj heq)
  have hstart : Printf.Accounted ⟨[], 0⟩ := ⟨rfl, fun before n value after heq => by simp at heq⟩
  rw [(hstart.printfLoop hio).count, length_printed]

/-- A call that prints a text writes it. -/
theorem printf_wrote_of_prints (h : P.Contract registers sent ready) {format : CString}
    {args : List Arg} {n : ℕ} (hprints : Printf.Prints format args text)
    (hopen : s.Open registers) (hrun : s.printf P format args fuel = .ok (n, s')) :
    s'.Open registers ∧ n = text.length ∧ Wrote sent text s s' := by
  obtain ⟨hopen', events, hprintf, -, hwrote⟩ := printf_wrote h hopen hrun
  have heq := (Printf.printf_stable format args).unique ⟨fuel, hprintf⟩ hprints
  obtain ⟨rfl, rfl⟩ := Prod.mk.inj heq
  rw [printed_map_put] at hwrote
  exact ⟨hopen', rfl, hwrote⟩

theorem event_stable (P : PortIo δ) (s : Console δ) (e : Event) :
    Stable fun fuel => Console.event P fuel s e := by
  cases e with
  | put c => exact (serialWrite_stable P c s.serial).bind fun _ => .const _
  | store n value => exact .const (.ok s)

theorem consolePrintf_stable (P : PortIo δ) (format : CString) (args : List Arg)
    (s : Console δ) : Stable fun fuel => s.printf P format args fuel :=
  (Printf.printf_stable format args).bind fun r =>
    (Stable.foldlM (event_stable P) r.2 s).bind fun _ => .const _

/-- It ends if the port gets ready again and again. -/
theorem printf_halts (hdrains : P.Drains) {format : CString} {args : List Arg}
    (hprints : Printf.Prints format args text) (s : Console δ) :
    Halts fun fuel => s.printf P format args fuel := by
  have hone : ∀ (s : Console δ) (e : Event), Halts fun fuel => Console.event P fuel s e := by
    intro s e
    cases e with
    | put c => exact halts_map (serialWrite_stable P c s.serial) _ (hdrains.serialWrite c s.serial)
    | store n value => exact halts_const.mpr ⟨s, rfl⟩
  have hevents := fun (l : List Event) (s : Console δ) =>
    (halts_foldlM (event_stable P) (P := fun _ => True) (fun s e => iff_true_intro (hone s e)) l
      s).mpr fun _ _ => trivial
  refine halts_seq (Printf.printf_stable format args) (fun r => ?_) ⟨_, hprints⟩ fun r => ?_
  · exact (Stable.foldlM (event_stable P) r.2 s).bind fun _ => .const _
  · exact halts_map (Stable.foldlM (event_stable P) r.2 s) _ (hevents r.2 s)

end Wrote

/-! ### The lines of the log -/

/-- A line of the log. -/
def checkLine (status : UInt8) (msg : CString) : List UInt8 :=
  chars "[" ++ ((Console.statusWord status).bytes ++ (chars "] " ++ (msg.bytes ++ chars "\n\r")))

open Printf in
theorem prints_bracket : Prints ⟨chars "[", by decide⟩ [] (chars "[") := by
  have hds : directives ⟨chars "[", by decide⟩ [] = .ok [.literal 91] := rfl
  exact prints_of_puts hds (.cons (puts_literal 91) .nil)

open Printf in
theorem prints_string (str : CString) :
    Prints ⟨chars "%s", by decide⟩ [.string str] str.bytes := by
  have hds : directives ⟨chars "%s", by decide⟩ [.string str] = .ok [.string str] := rfl
  have hprints := prints_of_puts hds (.cons (puts_string str) .nil)
  rwa [List.flatten_singleton] at hprints

open Printf in
theorem prints_message (msg : CString) :
    Prints ⟨chars "] %s\n\r", by decide⟩ [.string msg]
      (chars "] " ++ (msg.bytes ++ chars "\n\r")) := by
  have hds : directives ⟨chars "] %s\n\r", by decide⟩ [.string msg] =
      .ok [.literal 93, .literal 32, .string msg, .literal 10, .literal 13] := rfl
  have hprints := prints_of_puts hds
    (.cons (puts_literal _) (.cons (puts_literal _) (.cons (puts_string msg)
      (.cons (puts_literal _) (.cons (puts_literal _) .nil)))))
  have htext : [[93], [32], msg.bytes, [10], [13]].flatten =
      chars "] " ++ (msg.bytes ++ chars "\n\r") := rfl
  rwa [htext] at hprints

/-- The entries have the colours of the terminal, which stay as they are. -/
structure Terminal.Coloured (t t' : Terminal) (entries : List PutEntry) : Prop where
  entries : ∀ e ∈ entries, e.fg = t.fgColour ∧ e.bg = t.bgColour
  same : t'.fgColour = t.fgColour ∧ t'.bgColour = t.bgColour

theorem Terminal.coloured_wrapColumn (t : Terminal) : t.Coloured t.wrapColumn [] := by
  unfold Terminal.wrapColumn
  dsimp only
  split
  · split <;> exact ⟨fun _ he => (nomatch he), rfl, rfl⟩
  · exact ⟨fun _ he => (nomatch he), rfl, rfl⟩

theorem Terminal.coloured_writeByte (t : Terminal) (b : UInt8) :
    t.Coloured (t.writeByte b).2 (t.writeByte b).1 := by
  unfold Terminal.writeByte
  split
  · unfold Terminal.terminalNewline
    dsimp only
    split <;> exact ⟨fun _ he => (nomatch he), rfl, rfl⟩
  split
  · exact ⟨fun _ he => (nomatch he), rfl, rfl⟩
  split
  · exact ⟨fun _ he => (nomatch he),
      (coloured_wrapColumn { t with terminalColumn := t.tabStop }).same⟩
  split
  · have hwrap := coloured_wrapColumn { t with terminalColumn := t.terminalColumn + 1 }
    refine ⟨fun e he => ?_, hwrap.same⟩
    obtain rfl := List.mem_singleton.mp he
    exact ⟨rfl, rfl⟩
  · exact ⟨fun _ he => (nomatch he), rfl, rfl⟩

theorem Terminal.coloured_write (data : List UInt8) : ∀ t : Terminal,
    t.Coloured (t.terminalWrite data).2 (t.terminalWrite data).1 := by
  induction data with
  | nil => exact fun t => ⟨fun _ he => (nomatch he), rfl, rfl⟩
  | cons b data ih =>
    intro t
    have hbyte := t.coloured_writeByte b
    have hrest := ih (t.writeByte b).2
    refine ⟨fun e he => ?_, hrest.same.1.trans hbyte.same.1, hrest.same.2.trans hbyte.same.2⟩
    rcases List.mem_append.mp he with he | he
    · exact hbyte.entries e he
    · obtain ⟨hfg, hbg⟩ := hrest.entries e he
      exact ⟨hfg.trans hbyte.same.1, hbg.trans hbyte.same.2⟩

/-- The entries show a text, in the given colours. -/
structure ShowsText (entries : List PutEntry) (text : List UInt8) (fg bg : UInt32) : Prop where
  text : characters entries = text.filter printable
  colours : ∀ e ∈ entries, e.fg = fg ∧ e.bg = bg

theorem showsText_write (t : Terminal) (data : List UInt8) :
    ShowsText (t.terminalWrite data).1 data t.fgColour t.bgColour :=
  ⟨characters_terminalWrite data t, (t.coloured_write data).entries⟩

/-- What a line of the log is: it goes to the port and to the screen, where the word is red or
green, and leaves the terminal in grey. -/
structure WroteLine (sent : δ → List UInt8) (status : UInt8) (msg : CString) (s s' : Console δ) :
    Prop where
  sent : sent s'.serial = sent s.serial ++ checkLine status msg
  shown : ∃ bracket word rest, s'.shown = s.shown ++ (bracket ++ (word ++ rest)) ∧
    ShowsText bracket (chars "[") s.terminal.fgColour s.terminal.bgColour ∧
    ShowsText word (Console.statusWord status).bytes (Console.statusColour status) 0x000000 ∧
    ShowsText rest (chars "] " ++ (msg.bytes ++ chars "\n\r")) 0xDCDCDC 0x000000
  colours : s'.terminal.fgColour = 0xDCDCDC ∧ s'.terminal.bgColour = 0x000000

section Lines

variable {P : PortIo δ} {registers : δ → UartRegisters} {sent : δ → List UInt8} {ready : δ → Prop}
  {s s' : Console δ} {status : UInt8} {msg : CString} {fuel : ℕ}

/-- `print_check` writes one line. -/
theorem printCheck_wrote (h : P.Contract registers sent ready) (hopen : s.Open registers)
    (hrun : s.printCheck P status msg fuel = .ok s') :
    s'.Open registers ∧ WroteLine sent status msg s s' := by
  obtain ⟨⟨n₁, s₁⟩, hone, hrun⟩ := bind_eq_ok.mp hrun
  obtain ⟨⟨n₂, s₂⟩, htwo, hrun⟩ := bind_eq_ok.mp hrun
  obtain ⟨⟨n₃, s₃⟩, hthree, hrun⟩ := bind_eq_ok.mp hrun
  obtain rfl := Except.ok.inj hrun
  obtain ⟨hopen₁, -, hwrote₁⟩ := printf_wrote_of_prints h prints_bracket hopen hone
  obtain ⟨hopen₂, -, hwrote₂⟩ := printf_wrote_of_prints
    (s := s₁.setcolour (Console.statusColour status) 0x000000) h (prints_string _) hopen₁ htwo
  obtain ⟨hopen₃, -, hwrote₃⟩ := printf_wrote_of_prints
    (s := s₂.setcolour 0xDCDCDC 0x000000) h (prints_message _) hopen₂ hthree
  refine ⟨hopen₃, ?_, ⟨_, _, _, ?_, showsText_write s.terminal (chars "["),
    showsText_write (s₁.terminal.terminalSetcolour (Console.statusColour status) 0x000000) _,
    showsText_write (s₂.terminal.terminalSetcolour 0xDCDCDC 0x000000) _⟩, ?_⟩
  · rw [hwrote₃.sent]
    show sent s₂.serial ++ _ = _
    rw [hwrote₂.sent]
    show sent s₁.serial ++ _ ++ _ = _
    rw [hwrote₁.sent, checkLine, List.append_assoc, List.append_assoc]
  · rw [hwrote₃.shown]
    show s₂.shown ++ _ = _
    rw [hwrote₂.shown]
    show s₁.shown ++ _ ++ _ = _
    rw [hwrote₁.shown, List.append_assoc, List.append_assoc]
    rfl
  · rw [hwrote₃.terminal]
    exact (Terminal.coloured_write _ _).same

theorem printCheck_stable (P : PortIo δ) (status : UInt8) (msg : CString) (s : Console δ) :
    Stable fun fuel => s.printCheck P status msg fuel :=
  (consolePrintf_stable P _ _ s).bind fun _ => (consolePrintf_stable P _ _ _).bind
    fun _ => (consolePrintf_stable P _ _ _).bind fun _ => .const _

/-- It ends if the port gets ready again and again. -/
theorem printCheck_halts (hdrains : P.Drains) (status : UInt8) (msg : CString) (s : Console δ) :
    Halts fun fuel => s.printCheck P status msg fuel := by
  refine halts_seq (consolePrintf_stable P _ _ _) (fun r => ?_)
    (printf_halts hdrains prints_bracket s) fun r => ?_
  · exact (consolePrintf_stable P _ _ _).bind fun r => (consolePrintf_stable P _ _ _).bind
      fun _ => .const _
  refine halts_seq (consolePrintf_stable P _ _ _) (fun r => ?_)
    (printf_halts hdrains (prints_string _) _) fun r => ?_
  · exact (consolePrintf_stable P _ _ _).bind fun _ => .const _
  · exact halts_map (consolePrintf_stable P _ _ _) _ (printf_halts hdrains (prints_message msg) _)

/-- The characters of a line on the screen. -/
theorem WroteLine.characters (h : WroteLine sent status msg s s') :
    characters s'.shown = characters s.shown ++ (checkLine status msg).filter printable := by
  obtain ⟨bracket, word, rest, hshown, hbracket, hword, hrest⟩ := h.shown
  rw [hshown, characters_append, characters_append, characters_append, hbracket.text, hword.text,
    hrest.text, checkLine]
  simp only [List.filter_append]

/-! ### The log -/

/-- What the checks say, up to the first one that fails. -/
def checkLog : List (CString × UInt8) → List UInt8
  | [] => []
  | (msg, result) :: rest =>
    if result ≠ 0 then checkLine 1 msg else checkLine 0 msg ++ checkLog rest

/-- A text has gone to the port, and its printable characters to the screen. -/
structure Logged (sent : δ → List UInt8) (text : List UInt8) (s s' : Console δ) : Prop where
  sent : sent s'.serial = sent s.serial ++ text
  shown : characters s'.shown = characters s.shown ++ text.filter printable

theorem WroteLine.logged (h : WroteLine sent status msg s s') :
    Logged sent (checkLine status msg) s s' := ⟨h.sent, h.characters⟩

theorem Logged.trans {s'' : Console δ} {text text' : List UInt8} (h : Logged sent text s s')
    (h' : Logged sent text' s' s'') : Logged sent (text ++ text') s s'' where
  sent := by rw [h'.sent, h.sent, List.append_assoc]
  shown := by rw [h'.shown, h.shown, List.filter_append, List.append_assoc]

theorem Wrote.logged {text : List UInt8} (h : Wrote sent text s s') : Logged sent text s s' where
  sent := h.sent
  shown := by rw [h.shown, characters_append, characters_terminalWrite]

theorem ConsoleCall.run_logged (h : P.Contract registers sent ready) {c : ConsoleCall}
    (hopen : s.Open registers) (hrun : c.run P fuel s = .ok s') :
    s'.Open registers ∧ ∃ text, Logged sent text s s' := by
  cases c with
  | putchar c =>
    obtain ⟨hopen', hwrote⟩ := putchar_wrote h hopen hrun
    exact ⟨hopen', _, hwrote.logged⟩
  | printf format args =>
    obtain ⟨⟨n, s₁⟩, hprintf, hrun⟩ := bind_eq_ok.mp hrun
    obtain rfl := Except.ok.inj hrun
    obtain ⟨hopen', events, -, -, hwrote⟩ := printf_wrote h hopen hprintf
    exact ⟨hopen', _, hwrote.logged⟩
  | puts str =>
    obtain ⟨⟨n, s₁⟩, hprintf, hrun⟩ := bind_eq_ok.mp hrun
    obtain rfl := Except.ok.inj hrun
    obtain ⟨hopen', events, -, -, hwrote⟩ := printf_wrote h hopen hprintf
    exact ⟨hopen', _, hwrote.logged⟩
  | setcolour fg bg =>
    obtain rfl := Except.ok.inj hrun
    exact ⟨hopen, [], (List.append_nil _).symm, (List.append_nil _).symm⟩
  | printCheck status msg =>
    obtain ⟨hopen', hwrote⟩ := printCheck_wrote h hopen hrun
    exact ⟨hopen', _, hwrote.logged⟩

/-- However the console is used, the screen gets the printable characters of what goes through
the port, in the same order. -/
theorem console_run (h : P.Contract registers sent ready) {calls : List ConsoleCall} :
    ∀ {s s' : Console δ}, s.Open registers →
      calls.foldlM (fun s c => c.run P fuel s) s = .ok s' →
      ∃ text, sent s'.serial = sent s.serial ++ text ∧
        characters s'.shown = characters s.shown ++ text.filter printable := by
  induction calls with
  | nil =>
    intro s s' _ hrun
    obtain rfl := Except.ok.inj hrun
    exact ⟨[], (List.append_nil _).symm, (List.append_nil _).symm⟩
  | cons c calls ih =>
    intro s s' hopen hrun
    obtain ⟨s₁, hone, hrest⟩ := bind_eq_ok.mp hrun
    obtain ⟨hopen₁, text, hlogged⟩ := c.run_logged h hopen hone
    obtain ⟨text', hsent, hshown⟩ := ih hopen₁ hrest
    have hall := hlogged.trans ⟨hsent, hshown⟩
    exact ⟨text ++ text', hall.sent, hall.shown⟩

/-- A line of `puts` behind a change of the colours. -/
theorem console_run_slowConsole :
    ∃ s' text, [ConsoleCall.setcolour 0xCD2222 0, .puts ⟨[79, 75], by decide⟩].foldlM
        (fun s c => c.run slowPort 9 s) { slowConsole with serial := ⟨⟨3, 0, 0, 0, 3, 0⟩, [], 2⟩ } =
          .ok s' ∧ s'.serial.sent = [] ++ text ∧
            characters s'.shown = [] ++ text.filter printable := by
  have hopen : Console.Open SlowUart.registers
      { slowConsole with serial := ⟨⟨3, 0, 0, 0, 3, 0⟩, [], 2⟩ } :=
    show ¬ (3 : UInt8) &&& 0x80 ≠ 0 by decide
  have hrun : ∃ s', [ConsoleCall.setcolour 0xCD2222 0, .puts ⟨[79, 75], by decide⟩].foldlM
      (fun s c => c.run slowPort 9 s) { slowConsole with serial := ⟨⟨3, 0, 0, 0, 3, 0⟩, [], 2⟩ } =
        .ok s' := ⟨_, rfl⟩
  obtain ⟨s', hrun⟩ := hrun
  obtain ⟨text, htext⟩ := console_run slowPort_contract hopen hrun
  exact ⟨s', text, hrun, htext⟩

theorem checks_logged (h : P.Contract registers sent ready) {results : List (CString × UInt8)} :
    ∀ {s s' : Console δ} {code : Option UInt64}, s.Open registers →
      Console.checks P fuel results s = .ok (code, s') →
      Logged sent (checkLog results) s s' ∧ (code = some 1 ↔ ∃ r ∈ results, r.2 ≠ 0) ∧
        (code = none ↔ ∀ r ∈ results, r.2 = 0) := by
  induction results with
  | nil =>
    intro s s' code _ hrun
    obtain ⟨rfl, rfl⟩ := Prod.mk.inj (Except.ok.inj hrun)
    exact ⟨⟨(List.append_nil _).symm, (List.append_nil _).symm⟩, by simp, by simp⟩
  | cons r results ih =>
    obtain ⟨msg, result⟩ := r
    intro s s' code hopen hrun
    rw [Console.checks] at hrun
    rw [checkLog]
    split at hrun
    · next hfailed =>
      obtain ⟨s₁, hline, hrun⟩ := bind_eq_ok.mp hrun
      obtain ⟨rfl, rfl⟩ := Prod.mk.inj (Except.ok.inj hrun)
      obtain ⟨-, hwrote⟩ := printCheck_wrote h hopen hline
      rw [if_pos hfailed]
      exact ⟨hwrote.logged, by simp [hfailed], by simp [hfailed]⟩
    · next hpassed =>
      obtain ⟨s₁, hline, hrun⟩ := bind_eq_ok.mp hrun
      obtain ⟨hopen₁, hwrote⟩ := printCheck_wrote h hopen hline
      obtain ⟨hlogged, hone, hnone⟩ := ih hopen₁ hrun
      have hzero : result = 0 := not_not.mp hpassed
      rw [if_neg hpassed]
      exact ⟨hwrote.logged.trans hlogged, by simp [hone, hzero], by simp [hnone, hzero]⟩

theorem checks_stable (P : PortIo δ) (results : List (CString × UInt8)) :
    ∀ s : Console δ, Stable fun fuel => Console.checks P fuel results s := by
  induction results with
  | nil => exact fun s => .const (.ok (none, s))
  | cons r results ih =>
    intro s
    simp only [Console.checks]
    split
    · exact (printCheck_stable P 1 r.1 s).bind fun _ => .const _
    · exact (printCheck_stable P 0 r.1 s).bind ih

theorem checks_halts (hdrains : P.Drains) (results : List (CString × UInt8)) :
    ∀ s : Console δ, Halts fun fuel => Console.checks P fuel results s := by
  induction results with
  | nil => exact fun s => halts_const.mpr ⟨_, rfl⟩
  | cons r results ih =>
    intro s
    simp only [Console.checks]
    split
    · exact halts_map (printCheck_stable P 1 r.1 s) _ (printCheck_halts hdrains 1 r.1 s)
    · exact halts_seq (printCheck_stable P 0 r.1 s) (checks_stable P results)
        (printCheck_halts hdrains 0 r.1 s) ih

/-- The part of the log that comes from `early_kmain`. -/
def earlyLog (psf : Psf2Header) : List UInt8 :=
  if psf.MagicOk then checkLine 0 Console.terminalMessage else []

theorem earlyKmain_logged (h : P.Contract registers sent ready) (psf : Psf2Header)
    (mode : GraphicsMode) (hrun : s.earlyKmain P psf mode fuel = .ok s') :
    s'.Open registers ∧ sent s'.serial = sent (P.serialInit s.serial) ++ earlyLog psf ∧
      characters s'.shown = characters s.shown ++ (earlyLog psf).filter printable := by
  have hopen := h.not_divisorAccess_serialInit s.serial
  unfold Console.earlyKmain at hrun
  rw [earlyLog]
  by_cases hmagic : psf.MagicOk
  · rw [Terminal.terminalInit, if_neg (not_not.mpr hmagic)] at hrun
    obtain ⟨hopen', hwrote⟩ := printCheck_wrote h (by exact hopen) hrun
    rw [if_pos hmagic]
    exact ⟨hopen', hwrote.logged.sent, hwrote.logged.shown⟩
  · rw [Terminal.terminalInit, if_pos hmagic] at hrun
    obtain rfl := Except.ok.inj hrun
    rw [if_neg hmagic]
    exact ⟨hopen, (List.append_nil _).symm, (List.append_nil _).symm⟩

theorem earlyKmain_stable (P : PortIo δ) (psf : Psf2Header) (mode : GraphicsMode)
    (s : Console δ) : Stable fun fuel => s.earlyKmain P psf mode fuel :=
  (printCheck_stable P 0 _ _).ite (.const _)

theorem earlyKmain_halts (hdrains : P.Drains) (psf : Psf2Header) (mode : GraphicsMode)
    (s : Console δ) : Halts fun fuel => s.earlyKmain P psf mode fuel := by
  simp only [Console.earlyKmain]
  split
  · exact printCheck_halts hdrains 0 _ _
  · exact halts_const.mpr ⟨_, rfl⟩

/-- From any state of the terminal and the port on, the kernel starts with a log of its checks,
which names each of them up to the first one that fails, and returns 1 in this case.  The
log is what has come through the port, and its characters are on the screen. -/
theorem boot_log (h : P.Contract registers sent ready) (psf : Psf2Header) (mode : GraphicsMode)
    (pageAllocatorInit installInterrupts : UInt8) (s : Console δ) :
    (∀ fuel code s', s.boot P psf mode pageAllocatorInit installInterrupts fuel = .ok (code, s') →
      ∃ log, log = earlyLog psf ++ checkLog [(Console.pageAllocatorMessage, pageAllocatorInit),
          (Console.interruptsMessage, installInterrupts)] ∧
        sent s'.serial = sent (P.serialInit s.serial) ++ log ∧
        characters s'.shown = characters s.shown ++ log.filter printable ∧
        (code = some 1 ↔ pageAllocatorInit ≠ 0 ∨ installInterrupts ≠ 0)) ∧
      (P.Drains → Halts fun fuel =>
        s.boot P psf mode pageAllocatorInit installInterrupts fuel) := by
  refine ⟨fun fuel code s' hrun => ?_, fun hdrains => ?_⟩
  · obtain ⟨s₁, hearly, hrest⟩ := bind_eq_ok.mp hrun
    obtain ⟨hopen, hsent, hshown⟩ := earlyKmain_logged h psf mode hearly
    obtain ⟨hlogged, hcode, -⟩ := checks_logged h hopen hrest
    refine ⟨_, rfl, ?_, ?_, ?_⟩
    · rw [hlogged.sent, hsent, List.append_assoc]
    · rw [hlogged.shown, hshown, List.filter_append, List.append_assoc]
    · rw [hcode]
      simp
  · exact halts_seq (earlyKmain_stable P psf mode s) (fun s => checks_stable P _ s)
      (earlyKmain_halts hdrains psf mode s) fun s => checks_halts hdrains _ s

/-- The interrupts of the slow console cannot be installed. -/
theorem boot_log_slowConsole :
    ∃ fuel s', slowConsole.boot slowPort ⟨[0x72, 0xb5, 0x4a, 0x86], 16, 8⟩ ⟨640, 480⟩ 0 1 fuel =
        .ok (some 1, s') ∧
      s'.serial.sent = (slowPort.serialInit busyUart).sent ++
        (checkLine 0 Console.terminalMessage ++ (checkLine 0 Console.pageAllocatorMessage ++
          checkLine 1 Console.interruptsMessage)) := by
  obtain ⟨hlog, hhalts⟩ := boot_log slowPort_contract ⟨[0x72, 0xb5, 0x4a, 0x86], 16, 8⟩
    ⟨640, 480⟩ 0 1 slowConsole
  obtain ⟨⟨code, s'⟩, fuel, hrun⟩ := hhalts slowPort_drains
  obtain ⟨log, rfl, hsent, -, hcode⟩ := hlog fuel code s' hrun
  obtain rfl := hcode.mpr (.inr (by decide))
  exact ⟨fuel, s', hrun, hsent⟩

end Lines

end Betelgeuse
