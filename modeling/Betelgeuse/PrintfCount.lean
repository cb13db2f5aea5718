/-
`printf` counts its characters.

`Accounted` says that `num_chars_written` is the number of `putchar` calls so far,
and that every store of `%n` has written the number of those before it.  It is
kept by an output site that counts (`Accounted.put`), so by all loops and by every
directive (`Accounted.exec`), and hence by whole calls (`printf_accounted`).
-/
import Betelgeuse.Printf

open WhileLoop

namespace Betelgeuse

namespace Printf

/-- The event is a `putchar` call. -/
def Event.isPut : Event → Bool
  | .put _ => true
  | .store _ _ => false

/-- The number of `putchar` calls. -/
def puts (events : List Event) : ℕ := events.countP Event.isPut

theorem puts_append (l l' : List Event) : puts (l ++ l') = puts l + puts l' :=
  List.countP_append

/-- Every store of `%n` has written the number of `putchar` calls before it. -/
def StoresCounted (events : List Event) : Prop :=
  ∀ before n value after, events = before ++ .store n value :: after → value = puts before

/-- The counter is right, and so is every value that was stored. -/
structure Accounted (s : Io) : Prop where
  count : s.numCharsWritten = puts s.events
  stores : StoresCounted s.events

theorem StoresCounted.concat {events : List Event} (h : StoresCounted events) {e : Event}
    (he : ∀ n value, e = .store n value → value = puts events) :
    StoresCounted (events ++ [e]) := by
  intro before n value after heq
  rcases List.eq_nil_or_concat after with rfl | ⟨after, e', rfl⟩
  · obtain ⟨rfl, hlast⟩ := List.append_inj' heq rfl
    exact he n value (List.cons.inj hlast).1
  · rw [List.concat_eq_append, ← List.cons_append, ← List.append_assoc] at heq
    exact h before n value after (List.append_inj' heq rfl).1

section Sites

variable {s : Io}

/-- A `putchar` call with its `num_chars_written++`. -/
theorem Accounted.put (h : Accounted s) (c : UInt8) : Accounted (s.putchar c).count where
  count := by
    show s.numCharsWritten + 1 = puts (s.events ++ [.put c])
    rw [h.count, puts_append]
    rfl
  stores := h.stores.concat fun n value he => by cases he

theorem Accounted.store (h : Accounted s) (n : UInt64) : Accounted (s.store n) where
  count := by
    show s.numCharsWritten = puts (s.events ++ [.store n s.numCharsWritten])
    rw [h.count, puts_append]
    rfl
  stores := h.stores.concat fun n value he => by
    cases he
    exact h.count

end Sites

/-! ### The loops -/

section Loops

variable {spec : Conversion} {fuel : ℕ}

theorem Accounted.padLeft {separator : UInt64 → Bool} {c : UInt8} {width : UInt64}
    {s s' : Padding} (h : Accounted s.io) (hs : Printf.padLeft separator c width fuel s = .ok s') :
    Accounted s'.io := by
  refine (loop_invariant (fun s => Accounted s.io) h (fun s t hs _ ht => ?_) hs).1
  obtain rfl := Except.ok.inj ht
  dsimp only
  split
  · exact (hs.put _).put _
  · exact hs.put _

theorem Accounted.padRight {step : UInt64} {s s' : Padding} (h : Accounted s.io)
    (hs : Printf.padRight step fuel s = .ok s') : Accounted s'.io := by
  refine (loop_invariant (fun s => Accounted s.io) h (fun s t hs _ ht => ?_) hs).1
  obtain rfl := Except.ok.inj ht
  exact hs.put _

theorem Accounted.decimalDigits {s s' : Digits} (h : Accounted s.io)
    (hs : Printf.decimalDigits spec fuel s = .ok s') : Accounted s'.io := by
  refine (loop_invariant (fun s => Accounted s.io) h (fun s t hs _ ht => ?_) hs).1
  dsimp only at ht
  split at ht
  · cases ht
  · obtain rfl := Except.ok.inj ht
    dsimp only
    split
    · exact (hs.put _).put _
    · exact hs.put _

theorem Accounted.basedDigits {digit : UInt64 → Except Stop UInt8} {shift : UInt64}
    {s s' : Digits} (h : Accounted s.io)
    (hs : Printf.basedDigits digit shift fuel s = .ok s') : Accounted s'.io := by
  refine (loop_invariant (fun s => Accounted s.io) h (fun s t hs _ ht => ?_) hs).1
  dsimp only at ht
  split at ht
  · cases ht
  · obtain ⟨c, -, ht⟩ := bind_eq_ok.mp ht
    obtain rfl := Except.ok.inj ht
    exact hs.put c

end Loops

/-! ### The conversions -/

section Conversions

variable {spec : Conversion} {width num : UInt64} {io io' : Io} {fuel : ℕ}

theorem Accounted.fillLeft {separator : UInt64 → Bool} {s s' : Padding} (h : Accounted s.io)
    (hs : Printf.fillLeft spec separator width fuel s = .ok s') : Accounted s'.io := by
  unfold Printf.fillLeft at hs
  split at hs
  · obtain rfl := Except.ok.inj hs
    exact h
  · exact h.padLeft hs

theorem Accounted.fillRight {step : UInt64} {s s' : Padding} (h : Accounted s.io)
    (hs : Printf.fillRight spec step fuel s = .ok s') : Accounted s'.io := by
  unfold Printf.fillRight at hs
  split at hs
  · exact h.padRight hs
  · obtain rfl := Except.ok.inj hs
    exact h

theorem Accounted.putDecimal (h : Accounted io)
    (hio : Printf.putDecimal spec width num io fuel = .ok io') : Accounted io' := by
  obtain ⟨p, -, hio⟩ := bind_eq_ok.mp hio
  obtain ⟨q, hq, hio⟩ := bind_eq_ok.mp hio
  obtain ⟨d, hd, hio⟩ := bind_eq_ok.mp hio
  obtain ⟨r, hr, hio⟩ := bind_eq_ok.mp hio
  obtain rfl := Except.ok.inj hio
  have hqs : Accounted q.io := h.fillLeft hq
  have hds : Accounted d.io := hqs.decimalDigits hd
  exact hds.fillRight hr

theorem Accounted.putSign (h : Accounted io) (negative : Bool) :
    Accounted (Printf.putSign spec negative io).1 := by
  unfold Printf.putSign
  split
  · exact h.put _
  split
  · exact h.put _
  split
  · exact h.put _
  · exact h

theorem Accounted.putFirstDigit {digit : UInt64 → Except Stop UInt8} {s s' : Digits}
    (h : Accounted s.io) (hs : Printf.putFirstDigit digit s = .ok s') : Accounted s'.io := by
  unfold Printf.putFirstDigit at hs
  split at hs
  · obtain ⟨c, -, hs⟩ := bind_eq_ok.mp hs
    obtain rfl := Except.ok.inj hs
    exact h.put c
  · obtain rfl := Except.ok.inj hs
    exact h

theorem Accounted.putDigits {zeroCase : Bool} {digit : UInt64 → Except Stop UInt8}
    {shift : UInt64} {s s' : Digits} (h : Accounted s.io)
    (hs : Printf.putDigits zeroCase digit shift fuel s = .ok s') : Accounted s'.io := by
  unfold Printf.putDigits at hs
  split at hs
  · obtain rfl := Except.ok.inj hs
    exact h.put _
  · exact h.basedDigits hs

theorem Accounted.putBased {limit shift step : UInt64} {upper lower : List UInt8}
    {zeroCase : Bool} (h : Accounted io)
    (hio : Printf.putBased limit shift upper lower zeroCase step spec width num io fuel =
      .ok io') : Accounted io' := by
  obtain ⟨p, -, hio⟩ := bind_eq_ok.mp hio
  obtain ⟨f, hf, hio⟩ := bind_eq_ok.mp hio
  obtain ⟨q, hq, hio⟩ := bind_eq_ok.mp hio
  obtain ⟨d, hd, hio⟩ := bind_eq_ok.mp hio
  obtain ⟨r, hr, hio⟩ := bind_eq_ok.mp hio
  obtain rfl := Except.ok.inj hio
  have hfs : Accounted f.io := h.putFirstDigit hf
  have hqs : Accounted q.io := hfs.fillLeft hq
  have hds : Accounted d.io := hqs.putDigits hd
  exact hds.fillRight hr

theorem Accounted.putPrefix16 (h : Accounted io) : Accounted (Printf.putPrefix16 spec io).1 := by
  unfold Printf.putPrefix16
  split
  · exact (h.put _).put _
  · exact h

theorem Accounted.putPrefix8 (h : Accounted io) : Accounted (Printf.putPrefix8 spec io).1 := by
  unfold Printf.putPrefix8
  split
  · exact h.put _
  · exact h

theorem Accounted.putPrefix2 (h : Accounted io) : Accounted (Printf.putPrefix2 spec io).1 := by
  unfold Printf.putPrefix2
  split
  · exact (h.put _).put _
  · exact h

theorem Accounted.putString (h : Accounted io) (str : CString) :
    Accounted (Printf.putString str io) := by
  unfold Printf.putString
  induction str.bytes generalizing io with
  | nil => exact h
  | cons c l ih => exact ih (h.put c)

/-- A directive counts what it writes. -/
theorem Accounted.exec (h : Accounted io) {d : Directive} (hio : d.exec fuel io = .ok io') :
    Accounted io' := by
  cases d with
  | literal c =>
    obtain rfl := Except.ok.inj hio
    exact h.put c
  | char c =>
    obtain rfl := Except.ok.inj hio
    exact h.put c
  | int10 spec w => exact (h.putSign _).putDecimal hio
  | uint10 spec w => exact h.putDecimal hio
  | int16 spec w => exact h.putPrefix16.putBased hio
  | int8 spec w => exact h.putPrefix8.putBased hio
  | int2 spec w => exact h.putPrefix2.putBased hio
  | string str =>
    obtain rfl := Except.ok.inj hio
    exact h.putString str
  | percent =>
    obtain rfl := Except.ok.inj hio
    exact h.put _
  | nChars n =>
    obtain rfl := Except.ok.inj hio
    exact h.store n
  | nothing =>
    obtain rfl := Except.ok.inj hio
    exact h

end Conversions

/-! ### The whole function -/

theorem Accounted.printfLoop {format : CString} {fuel n : ℕ} : ∀ {index : ℕ} {args : List Arg}
    {io io' : Io}, Accounted io → Printf.printfLoop format fuel n index args io = .ok io' →
      Accounted io' := by
  induction n with
  | zero =>
    intro index args io io' _ hio
    cases hio
  | succ n ih =>
    intro index args io io' h hio
    rw [Printf.printfLoop] at hio
    split at hio
    · obtain ⟨⟨d, index', args'⟩, -, hio⟩ := bind_eq_ok.mp hio
      obtain ⟨io₁, hd, hio⟩ := bind_eq_ok.mp hio
      exact ih (h.exec hd) hio
    · obtain rfl := Except.ok.inj hio
      exact h

/-- A call that returns gives back the number of its `putchar` calls, and every
`%n` has stored the number of those before it. -/
theorem printf_accounted {format : CString} {args : List Arg} {fuel n : ℕ} {events : List Event}
    (h : printf fuel format args = .ok (n, events)) : n = puts events ∧ StoresCounted events := by
  obtain ⟨io, hio, heq⟩ := bind_eq_ok.mp h
  obtain ⟨rfl, rfl⟩ := Prod.mk.inj (Except.ok.inj heq)
  have hstart : Accounted ⟨[], 0⟩ := ⟨rfl, fun before n value after heq => by simp at heq⟩
  have haccounted := hstart.printfLoop hio
  exact ⟨haccounted.count, haccounted.stores⟩

/-- The format `%d%n`. -/
def decimalAndCount : CString := ⟨[37, 100, 37, 110], by decide⟩

/-- Two digits, and the 2 that is stored. -/
theorem printf_accounted_42 :
    2 = puts [.put 52, .put 50, .store 0x1000 2] ∧
      StoresCounted [.put 52, .put 50, .store 0x1000 2] :=
  @printf_accounted decimalAndCount [.word 42, .pointer 0x1000] 10 _ _ rfl

end Printf

end Betelgeuse
