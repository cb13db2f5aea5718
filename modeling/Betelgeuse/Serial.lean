/-
The serial port (`kernel/kernel/serial.c`, `kernel/arch/x86_64/arch_serial.c`).

The driver sees the port through `inb` and `outb` alone.  `PortIo` is a machine with these
instructions, and `Contract` is what the manual of the 16550 says of the eight ports from
`0x3f8` on, in terms of the registers of the device and of the bytes that it has taken in:
a byte that is written before the transmitter is ready may be lost.

The driver waits, so nothing is lost: whatever the device does in the meantime, the calls
behind `serial_init` send their bytes in order (`serial_run`).  They end if the transmitter
gets ready again and again.
-/
import Betelgeuse.TerminalHex

open WhileLoop

namespace Betelgeuse

open Printf (Stop)

universe u

variable {δ : Type u}

/-- The instructions of the port, on the state of the device. -/
structure PortIo (δ : Type u) where
  inb : UInt16 → δ → UInt8 × δ
  outb : UInt16 → UInt8 → δ → δ

namespace PortIo

variable (P : PortIo δ)

/-- `PORT`. -/
def port : UInt16 := 0x3f8

/-- `serial_init`. -/
def serialInit (s : δ) : δ :=
  let s := P.outb (port + 1) 0x00 s
  let s := P.outb (port + 3) 0x80 s
  let s := P.outb (port + 0) 0x03 s
  let s := P.outb (port + 1) 0x00 s
  let s := P.outb (port + 3) 0x03 s
  let s := P.outb (port + 2) 0xC7 s
  P.outb (port + 4) 0x0B s

/-- `is_transmit_empty`. -/
def isTransmitEmpty (s : δ) : UInt8 × δ :=
  let (v, s) := P.inb (port + 5) s
  (v &&& 0x20, s)

/-- `serial_write`, whose loop polls the port as often as there is fuel. -/
def serialWrite (a : UInt8) (fuel : ℕ) (s : δ) : Except Stop δ := do
  let polled ← loop (fun r : UInt8 × δ => r.1 = 0) (fun r => .ok (P.isTransmitEmpty r.2)) .fuel
    fuel (P.isTransmitEmpty s)
  return P.outb port a polled.2

/-- `serial_write_string`, with the characters behind the pointer. -/
def serialWriteString (a : ℕ → UInt8) (len : UInt16) (fuel : ℕ) (s : δ) : Except Stop δ :=
  (List.range len.toNat).foldlM (fun s i => P.serialWrite (a i) fuel s) s

end PortIo

/-- The device and the buffer of `serial.c`. -/
structure Com1 (δ : Type u) where
  device : δ
  hex64outstr : List UInt8
  length_hex64outstr : hex64outstr.length = 17

theorem Com1.length_start : (List.replicate 16 48 ++ [0] : List UInt8).length = 17 := rfl

/-- The state before the first call. -/
def Com1.start (s : δ) : Com1 δ := ⟨s, List.replicate 16 48 ++ [0], Com1.length_start⟩

/-- `serial_write_hex64`. -/
def Com1.serialWriteHex64 (P : PortIo δ) (val : UInt64) (fuel : ℕ) (s : Com1 δ) :
    Except Stop (Com1 δ) := do
  let out := fillHex64 val s.hex64outstr
  let device ← P.serialWriteString (fun i => out.getD i 0) 17 fuel s.device
  return ⟨device, out, (length_fillHex _ _ _ _ _).trans s.length_hex64outstr⟩

/-- A call of one of the functions that send. -/
inductive SerialCall where
  | write (a : UInt8)
  | writeString (a : ℕ → UInt8) (len : UInt16)
  | writeHex64 (val : UInt64)

/-- Make a call. -/
def SerialCall.run (P : PortIo δ) (fuel : ℕ) (s : Com1 δ) : SerialCall → Except Stop (Com1 δ)
  | write a => return { s with device := ← P.serialWrite a fuel s.device }
  | writeString a len => return { s with device := ← P.serialWriteString a len fuel s.device }
  | writeHex64 val => s.serialWriteHex64 P val fuel

/-- What a call is to send: `serial_write_hex64` sends the terminator as well. -/
def SerialCall.text : SerialCall → List UInt8
  | write a => [a]
  | writeString a len => (List.range len.toNat).map a
  | writeHex64 val => hexText 16 val.toNat ++ [0]

/-! ### The device -/

/-- The registers that are written. -/
structure UartRegisters where
  divisorLow : UInt8
  divisorHigh : UInt8
  interruptEnable : UInt8
  fifoControl : UInt8
  lineControl : UInt8
  modemControl : UInt8
  deriving DecidableEq

namespace UartRegisters

/-- The divisor latch access bit: the first two ports reach the divisor. -/
def DivisorAccess (r : UartRegisters) : Prop := r.lineControl &&& 0x80 ≠ 0

instance (r : UartRegisters) : Decidable r.DivisorAccess := inferInstanceAs (Decidable (¬ _))

/-- Writing to a port; the data register is not kept. -/
def write (r : UartRegisters) (offset : UInt16) (v : UInt8) : UartRegisters :=
  if offset = 0 then if r.DivisorAccess then { r with divisorLow := v } else r
  else if offset = 1 then
    if r.DivisorAccess then { r with divisorHigh := v } else { r with interruptEnable := v }
  else if offset = 2 then { r with fifoControl := v }
  else if offset = 3 then { r with lineControl := v }
  else if offset = 4 then { r with modemControl := v }
  else r

end UartRegisters

/-- The documented behaviour of the device: its registers, the bytes that it has taken in and
not dropped again, and whether it is ready for another one. -/
structure PortIo.Contract (P : PortIo δ) (registers : δ → UartRegisters) (sent : δ → List UInt8)
    (ready : δ → Prop) : Prop where
  write_registers : ∀ offset v s,
    registers (P.outb (PortIo.port + offset) v s) = (registers s).write offset v
  write_data : ∀ v s, ¬ (registers s).DivisorAccess → ready s →
    sent (P.outb PortIo.port v s) = sent s ++ [v]
  write_divisor : ∀ v s, (registers s).DivisorAccess → sent (P.outb PortIo.port v s) = sent s
  write_fifo : ∀ v s, sent (P.outb (PortIo.port + 2) v s) <+: sent s
  write_other : ∀ offset v s, offset = 1 ∨ offset = 3 ∨ offset = 4 →
    sent (P.outb (PortIo.port + offset) v s) = sent s
  status_ready : ∀ s, (P.inb (PortIo.port + 5) s).1 &&& 0x20 ≠ 0 →
    ready (P.inb (PortIo.port + 5) s).2
  status_keeps : ∀ s, registers (P.inb (PortIo.port + 5) s).2 = registers s ∧
    sent (P.inb (PortIo.port + 5) s).2 = sent s

/-- The transmitter gets ready again and again: from every state on, some poll says so. -/
def PortIo.Drains (P : PortIo δ) : Prop :=
  ∀ s, ∃ n, (P.isTransmitEmpty ((fun s => (P.isTransmitEmpty s).2)^[n] s)).1 ≠ 0

namespace PortIo.Contract

variable {P : PortIo δ} {registers : δ → UartRegisters} {sent : δ → List UInt8} {ready : δ → Prop}
  {s s' : δ} {a : UInt8} {fuel : ℕ}

/-! ### The initialisation -/

/-- What `serial_init` leaves in the registers: a divisor of 3, eight bits without parity and
one stop bit.  The first write is to disable the interrupts, but goes to the divisor if the
access bit is set. -/
theorem registers_serialInit (h : P.Contract registers sent ready) (s : δ) :
    registers (P.serialInit s) =
      { divisorLow := 0x03
        divisorHigh := 0x00
        interruptEnable :=
          if (registers s).DivisorAccess then (registers s).interruptEnable else 0x00
        fifoControl := 0xC7
        lineControl := 0x03
        modemControl := 0x0B } := by
  unfold serialInit
  simp only [h.write_registers]
  generalize registers s = r
  by_cases hd : r.lineControl &&& 0x80 = 0
  · simp [UartRegisters.write, UartRegisters.DivisorAccess, hd]
  · simp [UartRegisters.write, UartRegisters.DivisorAccess, hd]

theorem not_divisorAccess_serialInit (h : P.Contract registers sent ready) (s : δ) :
    ¬ (registers (P.serialInit s)).DivisorAccess := by
  rw [h.registers_serialInit]
  show ¬ (0x03 : UInt8) &&& 0x80 ≠ 0
  decide

/-- It sends nothing, though bytes may be dropped that were still in the queue. -/
theorem sent_serialInit (h : P.Contract registers sent ready) (s : δ) :
    sent (P.serialInit s) <+: sent s := by
  have haccess : ∀ v s, sent (P.outb (port + 0) v (P.outb (port + 3) 0x80 s)) = sent s := by
    intro v s
    have hd : (registers (P.outb (port + 3) 0x80 s)).DivisorAccess := by
      rw [h.write_registers]
      show (0x80 : UInt8) &&& 0x80 ≠ 0
      decide
    rw [show port + 0 = port from rfl, h.write_divisor v _ hd, h.write_other 3 _ _ (by decide)]
  unfold serialInit
  dsimp only
  rw [h.write_other 4 _ _ (by decide)]
  refine (h.write_fifo _ _).trans ?_
  rw [h.write_other 3 _ _ (by decide), h.write_other 1 _ _ (by decide), haccess,
    h.write_other 1 _ _ (by decide)]

/-! ### Sending -/

/-- Polling changes neither the registers nor what has been sent. -/
theorem isTransmitEmpty_keeps (h : P.Contract registers sent ready) (s : δ) :
    registers (P.isTransmitEmpty s).2 = registers s ∧ sent (P.isTransmitEmpty s).2 = sent s :=
  h.status_keeps s

/-- `serial_write` sends its byte. -/
theorem serialWrite (h : P.Contract registers sent ready)
    (hd : ¬ (registers s).DivisorAccess) (hrun : P.serialWrite a fuel s = .ok s') :
    ¬ (registers s').DivisorAccess ∧ sent s' = sent s ++ [a] := by
  obtain ⟨polled, hpoll, hrun⟩ := bind_eq_ok.mp hrun
  obtain rfl := Except.ok.inj hrun
  -- the loop keeps the registers and the bytes, and knows whether the device is ready
  have hinv := loop_invariant (fun r : UInt8 × δ => registers r.2 = registers s ∧
      sent r.2 = sent s ∧ (r.1 ≠ 0 → ready r.2))
    ⟨(h.isTransmitEmpty_keeps s).1, (h.isTransmitEmpty_keeps s).2, h.status_ready s⟩ (by
      rintro r r' ⟨hregs, hsent, -⟩ - hstep
      obtain rfl := Except.ok.inj hstep
      obtain ⟨hregs', hsent'⟩ := h.isTransmitEmpty_keeps r.2
      exact ⟨hregs'.trans hregs, hsent'.trans hsent, h.status_ready r.2⟩) hpoll
  obtain ⟨⟨hregs, hsent, hready⟩, hne⟩ := hinv
  refine ⟨?_, ?_⟩
  · have hwrite := h.write_registers 0 a polled.2
    rw [show port + 0 = port from rfl] at hwrite
    rw [hwrite, hregs, UartRegisters.write, if_pos rfl, if_neg hd]
    exact hd
  · rw [h.write_data a _ (hregs ▸ hd) (hready hne), hsent]

/-- `serial_write_string` sends its characters in order. -/
theorem serialWriteString (h : P.Contract registers sent ready) {a : ℕ → UInt8} {len : UInt16}
    (hd : ¬ (registers s).DivisorAccess) (hrun : P.serialWriteString a len fuel s = .ok s') :
    ¬ (registers s').DivisorAccess ∧ sent s' = sent s ++ (List.range len.toNat).map a := by
  have hloop : ∀ (l : List ℕ) (s s' : δ), ¬ (registers s).DivisorAccess →
      l.foldlM (fun s i => P.serialWrite (a i) fuel s) s = .ok s' →
      ¬ (registers s').DivisorAccess ∧ sent s' = sent s ++ l.map a := by
    intro l
    induction l with
    | nil =>
      intro s s' hd hrun
      obtain rfl := Except.ok.inj hrun
      exact ⟨hd, (List.append_nil _).symm⟩
    | cons i l ih =>
      intro s s' hd hrun
      obtain ⟨s₁, hone, hrest⟩ := bind_eq_ok.mp hrun
      obtain ⟨hd₁, hsent₁⟩ := h.serialWrite hd hone
      obtain ⟨hd', hsent'⟩ := ih s₁ s' hd₁ hrest
      exact ⟨hd', by rw [hsent', hsent₁, List.append_assoc]; rfl⟩
  exact hloop _ s s' hd hrun

end PortIo.Contract

/-- The buffer of `serial_write_hex64` ends in the terminator. -/
def Com1.Terminated (s : Com1 δ) : Prop := s.hex64outstr.drop 16 = [0]

theorem Com1.terminated_start (s : δ) : (Com1.start s).Terminated := rfl

section Run

variable {P : PortIo δ} {registers : δ → UartRegisters} {sent : δ → List UInt8} {ready : δ → Prop}
  {s s' : Com1 δ} {fuel : ℕ}

/-- Reading a list place by place. -/
theorem map_getD_range (l : List UInt8) : (List.range l.length).map (fun i => l.getD i 0) = l := by
  refine List.ext_getElem (by simp) fun i _ hi => ?_
  rw [List.getElem_map, List.getElem_range, List.getD_eq_getElem l 0 hi]

/-- `serial_write_hex64` sends all of its buffer. -/
theorem PortIo.Contract.serialWriteHex64 (h : P.Contract registers sent ready) {val : UInt64}
    (hd : ¬ (registers s.device).DivisorAccess) (hs : s.Terminated)
    (hrun : s.serialWriteHex64 P val fuel = .ok s') :
    ¬ (registers s'.device).DivisorAccess ∧ s'.Terminated ∧
      sent s'.device = sent s.device ++ (hexText 16 val.toNat ++ [0]) := by
  obtain ⟨device, hsend, hrun⟩ := bind_eq_ok.mp hrun
  obtain rfl := Except.ok.inj hrun
  have hout : fillHex64 val s.hex64outstr = hexText 16 val.toNat ++ [0] := by
    rw [fillHex64_text val s.length_hex64outstr, hs]
  obtain ⟨hd', hsent⟩ := h.serialWriteString hd hsend
  refine ⟨hd', ?_, ?_⟩
  · show (fillHex64 val s.hex64outstr).drop 16 = [0]
    rw [hout, List.drop_left' (length_hexText 16 _)]
  · have hlen : (hexText 16 val.toNat ++ [0]).length = 17 := by simp
    have hall := map_getD_range (hexText 16 val.toNat ++ [0])
    rw [hlen] at hall
    rw [hsent, hout]
    exact congrArg _ hall

/-- Each call sends its text. -/
theorem SerialCall.run_sends (h : P.Contract registers sent ready) {c : SerialCall}
    (hd : ¬ (registers s.device).DivisorAccess) (hs : s.Terminated)
    (hrun : c.run P fuel s = .ok s') :
    ¬ (registers s'.device).DivisorAccess ∧ s'.Terminated ∧
      sent s'.device = sent s.device ++ c.text := by
  cases c with
  | write a =>
    obtain ⟨device, hsend, hrun⟩ := bind_eq_ok.mp hrun
    obtain rfl := Except.ok.inj hrun
    obtain ⟨hd', hsent⟩ := h.serialWrite hd hsend
    exact ⟨hd', hs, hsent⟩
  | writeString a len =>
    obtain ⟨device, hsend, hrun⟩ := bind_eq_ok.mp hrun
    obtain rfl := Except.ok.inj hrun
    obtain ⟨hd', hsent⟩ := h.serialWriteString hd hsend
    exact ⟨hd', hs, hsent⟩
  | writeHex64 val => exact h.serialWriteHex64 hd hs hrun

/-- Calls one after the other. -/
def runSerial (P : PortIo δ) (calls : List SerialCall) (fuel : ℕ) (s : Com1 δ) :
    Except Stop (Com1 δ) :=
  calls.foldlM (fun s c => c.run P fuel s) s

theorem runSerial_sends (h : P.Contract registers sent ready) {calls : List SerialCall} :
    ∀ {s s' : Com1 δ}, ¬ (registers s.device).DivisorAccess → s.Terminated →
      runSerial P calls fuel s = .ok s' →
      sent s'.device = sent s.device ++ calls.flatMap SerialCall.text := by
  induction calls with
  | nil =>
    intro s s' _ _ hrun
    obtain rfl := Except.ok.inj hrun
    exact (List.append_nil _).symm
  | cons c calls ih =>
    intro s s' hd hs hrun
    obtain ⟨s₁, hone, hrest⟩ := bind_eq_ok.mp hrun
    obtain ⟨hd₁, hs₁, hsent₁⟩ := c.run_sends h hd hs hone
    rw [ih hd₁ hs₁ hrest, hsent₁, List.append_assoc, List.flatMap_cons]

/-! ### Waiting -/

theorem serialWrite_stable (P : PortIo δ) (a : UInt8) (s : δ) :
    Stable fun fuel => P.serialWrite a fuel s :=
  (loop_stable _).bind fun _ => .const _

theorem serialWriteString_stable (P : PortIo δ) (a : ℕ → UInt8) (len : UInt16) (s : δ) :
    Stable fun fuel => P.serialWriteString a len fuel s :=
  Stable.foldlM (fun s i => serialWrite_stable P (a i) s) _ s

theorem SerialCall.run_stable (P : PortIo δ) (c : SerialCall) (s : Com1 δ) :
    Stable fun fuel => c.run P fuel s := by
  cases c with
  | write a => exact (serialWrite_stable P a s.device).bind fun _ => .const _
  | writeString a len => exact (serialWriteString_stable P a len s.device).bind fun _ => .const _
  | writeHex64 val => exact (serialWriteString_stable P _ 17 s.device).bind fun _ => .const _

theorem halts_seq {A B : Type u} {f : ℕ → Except Stop A} {g : ℕ → A → Except Stop B}
    (hf : Stable f) (hg : ∀ a, Stable fun n => g n a) (h : Halts f)
    (h' : ∀ a, Halts fun n => g n a) : Halts fun n => f n >>= g n := by
  obtain ⟨a, ha⟩ := h
  exact (halts_bind hf hg ha).mpr (h' a)

/-- A computation that only rearranges its result. -/
theorem halts_map {A B : Type u} {f : ℕ → Except Stop A} (hf : Stable f) (g : A → B)
    (h : Halts f) : Halts fun n => f n >>= fun a => .ok (g a) :=
  halts_seq (g := fun _ a => .ok (g a)) hf (fun a => .const (.ok (g a))) h
    fun a => halts_const.mpr ⟨g a, rfl⟩

/-- The loop of `serial_write` ends at the first poll that says that the port is ready. -/
theorem PortIo.Drains.serialWrite (h : P.Drains) (a : UInt8) (s : δ) :
    Halts fun fuel => P.serialWrite a fuel s := by
  have hloop : ∀ (n : ℕ) (s : δ), (P.isTransmitEmpty
      ((fun s => (P.isTransmitEmpty s).2)^[n] s)).1 ≠ 0 →
      Halts fun fuel => loop (fun r : UInt8 × δ => r.1 = 0) (fun r => .ok (P.isTransmitEmpty r.2))
        Stop.fuel fuel (P.isTransmitEmpty s) := by
    intro n
    induction n with
    | zero => exact fun s hready => ⟨_, loop_yields_exit hready⟩
    | succ n ih =>
      intro s hready
      by_cases hzero : (P.isTransmitEmpty s).1 = 0
      · obtain ⟨r, hr⟩ := ih (P.isTransmitEmpty s).2 hready
        exact ⟨r, loop_yields_round hzero rfl hr⟩
      · exact ⟨_, loop_yields_exit hzero⟩
  obtain ⟨n, hn⟩ := h s
  exact halts_map (loop_stable _) _ (hloop n s hn)

theorem PortIo.Drains.serialWriteString (h : P.Drains) (a : ℕ → UInt8) (len : UInt16) (s : δ) :
    Halts fun fuel => P.serialWriteString a len fuel s :=
  (halts_foldlM (fun s i => serialWrite_stable P (a i) s) (P := fun _ => True)
    (fun s i => iff_true_intro (h.serialWrite (a i) s)) _ s).mpr fun _ _ => trivial

theorem SerialCall.run_halts (h : P.Drains) (c : SerialCall) (s : Com1 δ) :
    Halts fun fuel => c.run P fuel s := by
  cases c with
  | write a => exact halts_map (serialWrite_stable P a s.device) _ (h.serialWrite a s.device)
  | writeString a len =>
    exact halts_map (serialWriteString_stable P a len s.device) _
      (h.serialWriteString a len s.device)
  | writeHex64 val =>
    exact halts_map (serialWriteString_stable P _ 17 s.device) _
      (h.serialWriteString _ 17 s.device)

/-- `serial_init` sends nothing.  Behind it all that is sent arrives, in order, whatever the port
was set to and however long it takes; and if the port gets ready again and again, all calls
end. -/
theorem serial_run (h : P.Contract registers sent ready) (s : δ) (calls : List SerialCall) :
    sent (P.serialInit s) <+: sent s ∧
    (∀ fuel s', runSerial P calls fuel (.start (P.serialInit s)) = .ok s' →
        sent s'.device = sent (P.serialInit s) ++ calls.flatMap SerialCall.text) ∧
      (P.Drains → Halts fun fuel => runSerial P calls fuel (.start (P.serialInit s))) := by
  refine ⟨h.sent_serialInit s, fun fuel s' hrun =>
    runSerial_sends h (h.not_divisorAccess_serialInit s) (Com1.terminated_start _) hrun,
    fun hdrains => ?_⟩
  exact (halts_foldlM (fun s c => SerialCall.run_stable P c s) (P := fun _ => True)
    (fun s c => iff_true_intro (c.run_halts hdrains s)) calls _).mpr fun _ _ => trivial

end Run

/-! ### An instance -/

/-- A device with its registers, that needs a few polls to send a byte. -/
structure SlowUart where
  registers : UartRegisters
  sent : List UInt8
  busy : ℕ
  deriving DecidableEq

/-- A port that loses what comes too early. -/
def slowPort : PortIo SlowUart where
  inb port s :=
    if port = PortIo.port + 5 then
      if s.busy = 0 then (0x60, s) else (0x00, { s with busy := s.busy - 1 })
    else (0x00, s)
  outb port v s :=
    let registers := s.registers.write (port - PortIo.port) v
    if port = PortIo.port ∧ ¬ s.registers.DivisorAccess then
      if s.busy = 0 then ⟨registers, s.sent ++ [v], 3⟩ else ⟨registers, s.sent, s.busy⟩
    else ⟨registers, s.sent, s.busy⟩

theorem slowPort_contract :
    slowPort.Contract SlowUart.registers SlowUart.sent fun s => s.busy = 0 where
  write_registers offset v s := by
    have hoffset : PortIo.port + offset - PortIo.port = offset := by
      rw [UInt16.add_comm, UInt16.add_sub_cancel]
    simp only [slowPort, hoffset]
    split
    · split <;> rfl
    · rfl
  write_data v s hd hready := by
    unfold slowPort
    dsimp only
    rw [if_pos ⟨rfl, hd⟩, if_pos hready]
  write_divisor v s hd := by
    simp only [slowPort, if_neg fun hslot : _ ∧ ¬ s.registers.DivisorAccess => hslot.2 hd]
  write_fifo v s := by
    simp only [slowPort, if_neg fun hslot : PortIo.port + 2 = PortIo.port ∧ _ =>
      absurd hslot.1 (by decide)]
    exact List.prefix_refl _
  write_other offset v s hoffset := by
    have hne : PortIo.port + offset ≠ PortIo.port := by
      rcases hoffset with rfl | rfl | rfl <;> decide
    simp only [slowPort, if_neg fun hslot : PortIo.port + offset = PortIo.port ∧ _ =>
      hne hslot.1]
  status_ready s := by
    simp only [slowPort, if_pos]
    split
    · next hbusy => exact fun _ => hbusy
    · exact fun hne => absurd (show (0x00 : UInt8) &&& 0x20 = 0 by decide) hne
  status_keeps s := by
    simp only [slowPort, if_pos]
    split <;> exact ⟨rfl, rfl⟩

theorem slowPort_drains : slowPort.Drains := by
  have hall : ∀ (n : ℕ) (s : SlowUart), s.busy = n →
      (slowPort.isTransmitEmpty ((fun s => (slowPort.isTransmitEmpty s).2)^[n] s)).1 ≠ 0 := by
    intro n
    induction n with
    | zero =>
      intro s hbusy
      simp only [PortIo.isTransmitEmpty, slowPort, if_pos, Function.iterate_zero,
        id_eq, if_pos hbusy]
      decide
    | succ n ih =>
      intro s hbusy
      refine ih (slowPort.isTransmitEmpty s).2 ?_
      simp only [PortIo.isTransmitEmpty, slowPort, if_pos, hbusy, if_neg (Nat.succ_ne_zero n),
        Nat.add_sub_cancel]
  exact fun s => ⟨s.busy, hall s.busy s rfl⟩

/-- A device that was left with access to the divisor, and a byte in the queue. -/
def busyUart : SlowUart := ⟨⟨0, 0, 1, 0, 0x80, 0⟩, [65], 2⟩

theorem serial_run_busyUart :
    ∃ s', runSerial slowPort [.write 66, .writeHex64 0x10] 9
        (.start (slowPort.serialInit busyUart)) =
        .ok s' ∧
      s'.device.sent = (slowPort.serialInit busyUart).sent ++
        [SerialCall.write 66, .writeHex64 0x10].flatMap SerialCall.text :=
  ⟨_, rfl, (serial_run slowPort_contract busyUart [.write 66, .writeHex64 0x10]).2.1 9 _ rfl⟩

end Betelgeuse
