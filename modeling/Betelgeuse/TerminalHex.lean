/-
Hexadecimal output of the bootloader's terminal (`bootloader/arch/x86_64/uefi_tty.c`).

`terminal_print_hex64` and `terminal_print_hex8` have a static buffer each, which they fill
with the digits of their argument from the last one to the first (`fillHex_text`) and which
stays as it is between the calls (`Buffers.call`).  Both write the buffer of
`terminal_print_hex64`, so what `terminal_print_hex8` prints is the highest byte of the value
that was printed there last (`printsDigits_iff`).
-/
import Betelgeuse.PrintfHex
import Betelgeuse.Terminal

open WordArith

namespace Betelgeuse

/-! ### The functions -/

/-- `hexchars`, `"0123456789ABCDEF"`. -/
def hexchars : List UInt8 :=
  [48, 49, 50, 51, 52, 53, 54, 55, 56, 57, 65, 66, 67, 68, 69, 70, 0]

/-- A loop over places of a buffer: the character of the lowest digit of the value goes
there, and the value is shifted. -/
def fillHex {V : Type*} (nibble : V → ℕ) (shift : V → V) :
    List ℕ → V → List UInt8 → List UInt8
  | [], _, out => out
  | i :: places, val, out =>
    fillHex nibble shift places (shift val) (out.set i (hexchars.getD (nibble val) 0))

/-- The loop of `terminal_print_hex64`: `i` goes from 0 up to 15. -/
def fillHex64 (val : UInt64) (hex64outstr : List UInt8) : List UInt8 :=
  fillHex (fun val : UInt64 => (val &&& 0b1111).toNat) (fun val => val >>> 4)
    ((List.range 16).map fun i => 15 - i) val hex64outstr

/-- The loop of `terminal_print_hex8`: `i` goes from 1 down to 0, and the shift is signed. -/
def fillHex8 (val : Int8) (hex8outstr : List UInt8) : List UInt8 :=
  fillHex (fun val : Int8 => (val &&& 0b1111).toUInt8.toNat) (fun val => val >>> 4) [1, 0] val
    hex8outstr

theorem length_fillHex {V : Type*} (nibble : V → ℕ) (shift : V → V) (places : List ℕ) (val : V)
    (out : List UInt8) : (fillHex nibble shift places val out).length = out.length := by
  induction places generalizing val out with
  | nil => rfl
  | cons i places ih => rw [fillHex, ih, List.length_set]

/-- The static variables of `uefi_tty.c`: those of the terminal, and the two buffers. -/
structure HexTerminal extends Terminal where
  hex64outstr : List UInt8
  hex8outstr : List UInt8
  length_hex64outstr : hex64outstr.length = 17
  length_hex8outstr : hex8outstr.length = 3

/-- `terminal_writestring`. -/
def Terminal.terminalWritestring (t : Terminal) (data : CString) : List PutEntry × Terminal :=
  t.terminalWrite data.bytes

namespace HexTerminal

/-- The buffers before the first call. -/
def start (t : Terminal) : HexTerminal where
  toTerminal := t
  hex64outstr := List.replicate 16 48 ++ [0]
  hex8outstr := [48, 48, 0]
  length_hex64outstr := rfl
  length_hex8outstr := rfl

/-- `terminal_print_hex64`. -/
def terminalPrintHex64 (t : HexTerminal) (val : UInt64) : List PutEntry × HexTerminal :=
  let t := { t with
    hex64outstr := fillHex64 val t.hex64outstr
    length_hex64outstr := (length_fillHex _ _ _ _ _).trans t.length_hex64outstr }
  let digits := t.terminalWrite (t.hex64outstr.take 17)
  (digits.1, { t with toTerminal := digits.2 })

/-- `terminal_print_hex8`. -/
def terminalPrintHex8 (t : HexTerminal) (msg : CString) (val : Int8) :
    List PutEntry × HexTerminal :=
  let t := { t with
    hex8outstr := fillHex8 val t.hex8outstr
    length_hex8outstr := (length_fillHex _ _ _ _ _).trans t.length_hex8outstr }
  let message := t.terminalWritestring msg
  let digits := message.2.terminalWrite (t.hex64outstr.take 2)
  (message.1 ++ digits.1, { t with toTerminal := digits.2 })

end HexTerminal

/-- A call of one of the two printers, or of a function that knows nothing of them. -/
inductive HexCall where
  | printHex64 (val : UInt64)
  | printHex8 (msg : CString) (val : Int8)
  | other (call : TerminalCall)

/-- Make a call. -/
def HexTerminal.hexCall (t : HexTerminal) : HexCall → List PutEntry × HexTerminal
  | .printHex64 val => t.terminalPrintHex64 val
  | .printHex8 msg val => t.terminalPrintHex8 msg val
  | .other call => ((t.call call).1, { t with toTerminal := (t.call call).2 })

/-! ### What they are to print -/

/-- The characters that are put on the screen. -/
def characters (entries : List PutEntry) : List UInt8 := entries.map (·.c)

/-- The characters that `terminal_write` puts on the screen. -/
def printable (b : UInt8) : Bool := decide (0x20 ≤ b ∧ b < 0xDC)

/-- The `k` hexadecimal digits of a number below `16 ^ k`, in capitals. -/
def hexText (k n : ℕ) : List UInt8 := (DigitList.fixed 16 k n).map (Printf.hexDigit true)

/-- The call puts the digits of its argument on the screen, behind its message. -/
def HexCall.Prints (text : List UInt8) : HexCall → Prop
  | .printHex64 val => text = hexText 16 val.toNat
  | .printHex8 msg val => text = msg.bytes.filter printable ++ hexText 2 val.toUInt8.toNat
  | .other _ => True

/-- Each of the calls does so. -/
def PrintsDigits : HexTerminal → List HexCall → Prop
  | _, [] => True
  | t, c :: calls => c.Prints (characters (t.hexCall c).1) ∧ PrintsDigits (t.hexCall c).2 calls

/-- The last argument of `terminal_print_hex64`, behind a call. -/
def HexCall.last (v : UInt64) : HexCall → UInt64
  | .printHex64 val => val
  | _ => v

/-- The last argument of `terminal_print_hex8`, behind a call. -/
def HexCall.lastByte (b : UInt8) : HexCall → UInt8
  | .printHex8 _ val => val.toUInt8
  | _ => b

/-- An argument of `terminal_print_hex8` is the highest byte of this value. -/
def HexCall.TopByte (v : UInt64) : HexCall → Prop
  | .printHex8 _ val => val.toUInt8.toNat = v.toNat / 2 ^ 56
  | _ => True

/-- In the sequence of calls each argument of `terminal_print_hex8` is the highest byte of
the last argument of `terminal_print_hex64`. -/
def TopBytes : UInt64 → List HexCall → Prop
  | _, [] => True
  | v, c :: calls => c.TopByte v ∧ TopBytes (c.last v) calls

/-! ### Digits and characters -/

section Digits

variable {k n : ℕ}

@[simp] theorem length_hexText (k n : ℕ) : (hexText k n).length = k := by
  simp [hexText]

/-- The lowest digit comes last. -/
theorem hexText_succ (hn : n < 16 ^ (k + 1)) :
    hexText (k + 1) n = hexText k (n / 16) ++ [Printf.hexDigit true (n % 16)] := by
  rw [hexText, DigitList.fixed_succ (by decide) hn, List.map_append]
  rfl

theorem hexchars_eq {d : ℕ} (hd : d < 16) : hexchars.getD d 0 = Printf.hexDigit true d := by
  have hall : ∀ d < 16, hexchars.getD d 0 = Printf.hexDigit true d := by decide
  exact hall d hd

/-- The first two of sixteen digits are those of the highest byte. -/
theorem take_hexText (n : ℕ) : (hexText 16 n).take 2 = hexText 2 (n / 2 ^ 56) := by
  rw [hexText, ← List.map_take, DigitList.take_fixed 16 2 14]
  rfl

theorem hexText_inj {m : ℕ} (hm : m < 16 ^ k) (hn : n < 16 ^ k) (h : hexText k m = hexText k n) :
    m = n := by
  have hdigits : DigitList.fixed 16 k m = DigitList.fixed 16 k n :=
    Printf.map_hexDigit_inj (fun _ hd => DigitList.lt_of_mem_fixed (by decide) hm hd)
      (fun _ hd => DigitList.lt_of_mem_fixed (by decide) hn hd) h
  rw [← DigitList.ofDigits_reverse_fixed (by decide) hm, hdigits,
    DigitList.ofDigits_reverse_fixed (by decide) hn]

/-- Digits are characters of the font. -/
theorem filter_hexText (hn : n < 16 ^ k) : (hexText k n).filter printable = hexText k n := by
  have hall : ∀ d < 16, printable (Printf.hexDigit true d) = true := by decide
  refine List.filter_eq_self.mpr ?_
  intro c hc
  obtain ⟨d, hd, rfl⟩ := List.mem_map.mp hc
  exact hall d (DigitList.lt_of_mem_fixed (by decide) hn hd)

end Digits

theorem characters_append (entries entries' : List PutEntry) :
    characters (entries ++ entries') = characters entries ++ characters entries' :=
  List.map_append

theorem characters_writeByte (t : Terminal) (b : UInt8) :
    characters (t.writeByte b).1 = [b].filter printable := by
  unfold Terminal.writeByte
  split
  · next hb =>
    subst hb
    rfl
  split
  · next hb =>
    subst hb
    rfl
  split
  · next hb =>
    subst hb
    rfl
  split
  · next hb =>
    rw [List.filter_singleton, printable, decide_eq_true hb]
    rfl
  · next hb =>
    rw [List.filter_singleton, printable, decide_eq_false hb]
    rfl

/-- `terminal_write` puts the characters of the font on the screen, in their order. -/
theorem characters_terminalWrite (data : List UInt8) : ∀ t : Terminal,
    characters (t.terminalWrite data).1 = data.filter printable := by
  induction data with
  | nil =>
    intro t
    rfl
  | cons b data ih =>
    intro t
    have hbyte := characters_writeByte t b
    have hdata := ih (t.writeByte b).2
    rw [← List.singleton_append, List.filter_append, ← hbyte, ← hdata, ← characters_append]
    rfl

/-! ### The loops -/

/-- The loop from the last of `k` places to the first leaves the digits of the number whose
lowest digits it meets. -/
theorem fillHex_text {V : Type*} {nibble : V → ℕ} {shift : V → V} {k : ℕ} :
    ∀ {n : ℕ} {val : V} {out : List UInt8}, (∀ i < k, nibble (shift^[i] val) = n / 16 ^ i % 16) →
      n < 16 ^ k → k ≤ out.length →
      fillHex nibble shift (List.range k).reverse val out = hexText k n ++ out.drop k := by
  induction k with
  | zero =>
    intro n val out _ _ _
    rfl
  | succ k ih =>
    intro n val out hnibble hn hk
    have hlow : nibble val = n % 16 := by
      have hzero := hnibble 0 (Nat.succ_pos k)
      rwa [Function.iterate_zero, id_eq, pow_zero, Nat.div_one] at hzero
    have hnext : ∀ i < k, nibble (shift^[i] (shift val)) = n / 16 / 16 ^ i % 16 := by
      intro i hi
      rw [← Function.iterate_succ_apply, hnibble (i + 1) (by omega), pow_succ',
        Nat.div_div_eq_div_mul]
    have hdiv : n / 16 < 16 ^ k := by
      rw [Nat.div_lt_iff_lt_mul (by decide), ← pow_succ]
      exact hn
    have hlen : k ≤ (out.set k (Printf.hexDigit true (n % 16))).length := by
      rw [List.length_set]
      omega
    rw [List.range_succ, List.reverse_append, List.reverse_singleton, List.singleton_append,
      fillHex, hlow, hexchars_eq (Nat.mod_lt n (by decide)), ih hnext hdiv hlen, hexText_succ hn,
      List.append_assoc, List.singleton_append, List.drop_set, if_neg (Nat.lt_irrefl k),
      Nat.sub_self, List.drop_eq_getElem_cons hk, List.set_cons_zero]

theorem toNat_shift_iterate (val : UInt64) (i : ℕ) :
    ((fun val : UInt64 => val >>> 4)^[i] val).toNat = val.toNat / 16 ^ i := by
  induction i with
  | zero => simp
  | succ i ih =>
    have hsixteen : 2 ^ 4 = 16 := rfl
    rw [Function.iterate_succ_apply', toNat_shiftRight (n := 4) rfl, ih, Nat.div_div_eq_div_mul,
      hsixteen, ← pow_succ]

theorem fillHex64_text (val : UInt64) {out : List UInt8} (hlen : out.length = 17) :
    fillHex64 val out = hexText 16 val.toNat ++ out.drop 16 := by
  have hplaces : ((List.range 16).map fun i => 15 - i) = (List.range 16).reverse := rfl
  rw [fillHex64, hplaces]
  refine fillHex_text (fun i _ => ?_) val.toNat_lt (by omega)
  rw [toNat_and_mask (w := 4) rfl, toNat_shift_iterate]
  rfl

/-- The sign is shifted into the bits that are not read any more. -/
theorem fillHex8_text (val : Int8) {out : List UInt8} (hlen : out.length = 3) :
    fillHex8 val out = hexText 2 val.toUInt8.toNat ++ out.drop 2 := by
  refine fillHex_text (k := 2) (fun i hi => ?_) val.toUInt8.toNat_lt (by omega)
  have hbits : ∀ x : BitVec 8, (x &&& 15).toNat = x.toNat % 16 ∧
      (x.sshiftRight 4 &&& 15).toNat = x.toNat / 16 % 16 := by decide +kernel
  have hcases : i = 0 ∨ i = 1 := by omega
  rcases hcases with rfl | rfl
  · rw [pow_zero, Nat.div_one]
    exact (hbits val.toBitVec).1
  · exact (hbits val.toBitVec).2

/-! ### Calls -/

/-- The buffers hold the digits of these values. -/
structure HexTerminal.Buffers (t : HexTerminal) (v : UInt64) (b : UInt8) : Prop where
  hex64 : t.hex64outstr = hexText 16 v.toNat ++ [0]
  hex8 : t.hex8outstr = hexText 2 b.toNat ++ [0]

namespace HexTerminal

variable {t : HexTerminal} {v : UInt64} {b : UInt8}

theorem buffers_start (t : Terminal) : (start t).Buffers 0 0 := ⟨rfl, rfl⟩

theorem Buffers.fill64 (h : t.Buffers v b) (val : UInt64) :
    fillHex64 val t.hex64outstr = hexText 16 val.toNat ++ [0] := by
  rw [fillHex64_text val t.length_hex64outstr, h.hex64, List.drop_left' (length_hexText 16 _)]

theorem Buffers.fill8 (h : t.Buffers v b) (val : Int8) :
    fillHex8 val t.hex8outstr = hexText 2 val.toUInt8.toNat ++ [0] := by
  rw [fillHex8_text val t.length_hex8outstr, h.hex8, List.drop_left' (length_hexText 2 _)]

/-- Behind each call the buffers hold the digits of the last arguments. -/
theorem Buffers.call (h : t.Buffers v b) (c : HexCall) :
    (t.hexCall c).2.Buffers (c.last v) (c.lastByte b) := by
  cases c with
  | printHex64 val =>
    constructor <;> dsimp only [hexCall, terminalPrintHex64]
    · exact h.fill64 val
    · exact h.hex8
  | printHex8 msg val =>
    constructor <;> dsimp only [hexCall, terminalPrintHex8]
    · exact h.hex64
    · exact h.fill8 val
  | other call => exact ⟨h.hex64, h.hex8⟩

theorem Buffers.characters_printHex64 (h : t.Buffers v b) (val : UInt64) :
    characters (t.terminalPrintHex64 val).1 = hexText 16 val.toNat := by
  have hlen : (hexText 16 val.toNat ++ [0]).length ≤ 17 := by simp
  -- the NUL is no character of the font
  have hnul : [(0 : UInt8)].filter printable = [] := by decide
  dsimp only [terminalPrintHex64]
  rw [characters_terminalWrite, h.fill64, List.take_of_length_le hlen, List.filter_append,
    filter_hexText val.toNat_lt, hnul, List.append_nil]

theorem Buffers.characters_printHex8 (h : t.Buffers v b) (msg : CString) (val : Int8) :
    characters (t.terminalPrintHex8 msg val).1 =
      msg.bytes.filter printable ++ hexText 2 (v.toNat / 2 ^ 56) := by
  have hbyte : v.toNat / 2 ^ 56 < 16 ^ 2 := by
    have hv := v.toNat_lt
    omega
  dsimp only [terminalPrintHex8]
  rw [characters_append, Terminal.terminalWritestring, characters_terminalWrite,
    characters_terminalWrite, h.hex64, List.take_append_of_le_length (by simp), take_hexText,
    filter_hexText hbyte]

/-- A call puts its digits on the screen if and only if its argument is that of the buffer
that is written. -/
theorem Buffers.prints_iff (h : t.Buffers v b) (c : HexCall) :
    c.Prints (characters (t.hexCall c).1) ↔ c.TopByte v := by
  cases c with
  | printHex64 val => exact iff_of_true (h.characters_printHex64 val) trivial
  | printHex8 msg val =>
    show characters (t.terminalPrintHex8 msg val).1 =
      msg.bytes.filter printable ++ hexText 2 val.toUInt8.toNat ↔
        val.toUInt8.toNat = v.toNat / 2 ^ 56
    rw [h.characters_printHex8, List.append_cancel_left_eq]
    constructor
    · intro heq
      have hv := v.toNat_lt
      exact (hexText_inj (by omega) val.toUInt8.toNat_lt heq).symm
    · intro heq
      rw [heq]
  | other call => exact Iff.rfl

/-! ### Runs -/

/-- The calls print their digits as long as the arguments are those of the buffer. -/
theorem Buffers.run_iff {calls : List HexCall} : ∀ {t : HexTerminal} {v : UInt64} {b : UInt8},
    t.Buffers v b → (PrintsDigits t calls ↔ TopBytes v calls) := by
  induction calls with
  | nil => exact fun _ => Iff.rfl
  | cons c calls ih =>
    intro t v b h
    exact and_congr (h.prints_iff c) (ih (h.call c))

/-- In every sequence of calls all digits are right if and only if each argument of
`terminal_print_hex8` is the highest byte of the last argument of `terminal_print_hex64`
before it, or 0 if there is none. -/
theorem printsDigits_iff (t : Terminal) (calls : List HexCall) :
    PrintsDigits (start t) calls ↔ TopBytes 0 calls :=
  (buffers_start t).run_iff

/-- `A` without a message as the first call: two zeros. -/
theorem not_printsDigits :
    ¬ ∀ (t : Terminal) (calls : List HexCall), PrintsDigits (start t) calls := by
  intro h
  have hcalls := h ⟨8, 16, 1280, 800, 0, 0, 0, 0, 160, 50⟩ [.printHex8 ⟨[], nofun⟩ 0x41]
  have htext : [(48 : UInt8), 48] = [52, 49] := hcalls.1
  exact absurd htext (by decide)

end HexTerminal

end Betelgeuse
