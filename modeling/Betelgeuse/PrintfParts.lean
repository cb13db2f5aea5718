/-
The parts of a format.

`behindPart` says what is left of a format behind its first part: an escaped percent
sign, a conversion, or a character.  A conversion is taken as far as it goes: its flags,
its width, its precision, its length, and one more character (`behindConversion`).

The loop of `printf` reads no character behind the terminator, and its rounds take the
parts of the format one after the other (`scanner_takes_parts`).
-/
import Betelgeuse.PrintfScan

open WhileLoop

namespace Betelgeuse

namespace Printf

/-! ### Parts -/

/-- `0` to `9`. -/
def isDigit (c : UInt8) : Bool := decide (ch '0' ≤ c ∧ c ≤ ch '9')

/-- Behind `[-+ 0'#]*`. -/
def behindFlags (l : List UInt8) : List UInt8 := l.dropWhile fun c => decide (c ∈ flagChars)

/-- Behind `*` or `[0-9]*`. -/
def behindWidth (l : List UInt8) : List UInt8 :=
  if l.head? = some (ch '*') then l.tail else l.dropWhile isDigit

/-- Behind `.[0-9]*`, if there is one. -/
def behindPrecision (l : List UInt8) : List UInt8 :=
  if l.head? = some (ch '.') then l.tail.dropWhile isDigit else l

/-- Behind one of `hh`, `h`, `ll`, `l`, `L`, `z`, `j` and `t`, if there is one. -/
def behindLength (l : List UInt8) : List UInt8 :=
  if [ch 'h', ch 'h'] <+: l ∨ [ch 'l', ch 'l'] <+: l then l.drop 2
  else if ∃ c ∈ lengthChars, l.head? = some c then l.tail
  else l

/-- Behind a conversion, from its flags on. -/
def behindConversion (l : List UInt8) : List UInt8 :=
  (behindLength (behindPrecision (behindWidth (behindFlags l)))).tail

/-- Behind the first part. -/
def behindPart (l : List UInt8) : List UInt8 :=
  if [92, ch '%'] <+: l then l.drop 2
  else if l.head? = some (ch '%') then behindConversion l.tail
  else l.tail

/-- `%-08.3llx!` -/
example : behindPart [37, 45, 48, 56, 46, 51, 108, 108, 120, 33] = [33] := by decide

/-! ### What the scanner leaves -/

section Scanner

variable {format : CString} {index i n : ℕ} {c : UInt8} {args args' : List Arg}

/-- The character that is read is the first of those that are left, or the terminator. -/
theorem charAt_eq (h : charAt format index = .ok c) :
    (format.bytes.drop index = [] ∧ c = 0) ∨
      (c ≠ 0 ∧ format.bytes.drop index = c :: format.bytes.drop (index + 1)) := by
  rw [charAt] at h
  split at h
  · next hlt =>
    obtain rfl := Except.ok.inj h
    have hget : format.bytes.getD index 0 = format.bytes[index] := by simp [hlt]
    rw [hget]
    refine .inr ⟨fun hzero => format.noNul ?_, List.drop_eq_getElem_cons hlt⟩
    rw [← hzero]
    exact List.getElem_mem hlt
  · split at h
    · next heq =>
      obtain rfl := Except.ok.inj h
      exact .inl ⟨by rw [heq, List.drop_length], rfl⟩
    · cases h

/-- The tail of what is left is what is left behind the next character. -/
theorem tail_rest (format : CString) (index : ℕ) :
    (format.bytes.drop index).tail = format.bytes.drop (index + 1) := List.tail_drop

/-- What is left starts with the character that is read. -/
theorem head_rest (h : charAt format index = .ok c) {c' : UInt8} (hc' : c' ≠ 0) :
    (format.bytes.drop index).head? = some c' ↔ c = c' := by
  rcases charAt_eq h with ⟨hnil, rfl⟩ | ⟨-, hcons⟩
  · rw [hnil]
    simpa using hc'.symm
  · rw [hcons, List.head?_cons, Option.some_inj]

/-- What a loop over characters of one kind leaves. -/
theorem dropWhile_rest {p : UInt8 → Bool} (hp : p 0 = false) (h : charAt format index = .ok c) :
    (format.bytes.drop index).dropWhile p =
      if p c then (format.bytes.drop (index + 1)).dropWhile p else format.bytes.drop index := by
  rcases charAt_eq h with ⟨hnil, rfl⟩ | ⟨-, hcons⟩
  · rw [hnil, hp]
    rfl
  · rw [hcons, List.dropWhile_cons]

theorem scanFlags_rest : ∀ {index : ℕ} {spec spec' : Conversion},
    scanFlags format n index spec = .ok (i, spec') →
      format.bytes.drop i = behindFlags (format.bytes.drop index) := by
  induction n with
  | zero =>
    intro index spec spec' h
    cases h
  | succ n ih =>
    intro index spec spec' h
    obtain ⟨c, hc, h⟩ := bind_eq_ok.mp h
    rw [behindFlags, dropWhile_rest (by decide) hc]
    by_cases hmem : c ∈ flagChars
    · rw [setFlag_of_mem hmem] at h
      rw [if_pos (decide_eq_true hmem)]
      exact ih h
    · rw [setFlag_of_notMem hmem] at h
      obtain ⟨rfl, -⟩ := Prod.mk.inj (Except.ok.inj h)
      rw [if_neg (by simpa using hmem)]

theorem scanNumber_rest : ∀ {index : ℕ} {value value' : UInt64},
    scanNumber format n index value = .ok (i, value') →
      format.bytes.drop i = (format.bytes.drop index).dropWhile isDigit := by
  induction n with
  | zero =>
    intro index value value' h
    cases h
  | succ n ih =>
    intro index value value' h
    obtain ⟨c, hc, h⟩ := bind_eq_ok.mp h
    rw [dropWhile_rest (by decide) hc]
    by_cases hdigit : ch '0' ≤ c ∧ c ≤ ch '9'
    · rw [if_pos hdigit] at h
      rw [if_pos (show isDigit c = true from decide_eq_true hdigit)]
      exact ih h
    · rw [if_neg hdigit] at h
      obtain ⟨rfl, -⟩ := Prod.mk.inj (Except.ok.inj h)
      rw [if_neg (by simpa [isDigit] using hdigit)]

theorem scanWidth_rest {width : UInt64} (h : scanWidth format index args = .ok (i, width, args')) :
    format.bytes.drop i = behindWidth (format.bytes.drop index) := by
  obtain ⟨c, hc, h⟩ := bind_eq_ok.mp h
  rw [behindWidth]
  by_cases hstar : c = ch '*'
  · rw [if_pos hstar] at h
    obtain ⟨⟨w, args₂⟩, -, h⟩ := bind_eq_ok.mp h
    obtain ⟨rfl, -⟩ := Prod.mk.inj (Except.ok.inj h)
    rw [if_pos ((head_rest hc (by decide)).mpr hstar), tail_rest]
  · rw [if_neg hstar] at h
    obtain ⟨⟨j, w⟩, hscan, h⟩ := bind_eq_ok.mp h
    obtain ⟨rfl, -⟩ := Prod.mk.inj (Except.ok.inj h)
    rw [if_neg fun heq => hstar ((head_rest hc (by decide)).mp heq), scanNumber_rest hscan]

theorem scanPrecision_rest {precision : UInt64}
    (h : scanPrecision format index = .ok (i, precision)) :
    format.bytes.drop i = behindPrecision (format.bytes.drop index) := by
  obtain ⟨c, hc, h⟩ := bind_eq_ok.mp h
  rw [behindPrecision]
  by_cases hdot : c = ch '.'
  · rw [if_pos hdot] at h
    rw [if_pos ((head_rest hc (by decide)).mpr hdot), tail_rest, scanNumber_rest h]
  · rw [if_neg hdot] at h
    obtain ⟨rfl, -⟩ := Prod.mk.inj (Except.ok.inj h)
    rw [if_neg fun heq => hdot ((head_rest hc (by decide)).mp heq)]

/-- A length of one or of two characters. -/
theorem behindLength_cons (c : UInt8) (l : List UInt8) :
    behindLength (c :: l) =
      if (c = ch 'h' ∨ c = ch 'l') ∧ l.head? = some c then l.tail
      else if c ∈ lengthChars then l
      else c :: l := by
  have htwo : [ch 'h', ch 'h'] <+: c :: l ∨ [ch 'l', ch 'l'] <+: c :: l ↔
      (c = ch 'h' ∨ c = ch 'l') ∧ l.head? = some c := by
    rw [List.cons_prefix_cons, List.cons_prefix_cons, List.singleton_prefix_iff_head?_eq_some,
      List.singleton_prefix_iff_head?_eq_some]
    constructor
    · rintro (⟨rfl, hl⟩ | ⟨rfl, hl⟩)
      · exact ⟨.inl rfl, hl⟩
      · exact ⟨.inr rfl, hl⟩
    · rintro ⟨rfl | rfl, hl⟩
      · exact .inl ⟨rfl, hl⟩
      · exact .inr ⟨rfl, hl⟩
  have hone : (∃ c' ∈ lengthChars, (c :: l).head? = some c') ↔ c ∈ lengthChars := by simp
  simp only [behindLength, htwo, hone, List.drop_succ_cons, List.drop_one, List.tail_cons]

theorem scanLength_rest {length : Length} (h : scanLength format index = .ok (i, length)) :
    format.bytes.drop i = behindLength (format.bytes.drop index) := by
  obtain ⟨c, hc, h⟩ := bind_eq_ok.mp h
  rcases charAt_eq hc with ⟨hnil, rfl⟩ | ⟨-, hcons⟩
  · obtain ⟨rfl, -⟩ := Prod.mk.inj (Except.ok.inj h)
    rw [hnil]
    rfl
  -- a length of two characters, if the second is the first
  have htwo : ∀ {twice once : Length}, c = ch 'h' ∨ c = ch 'l' →
      (charAt format (index + 1) >>= fun d =>
        if d = c then Except.ok (index + 2, twice) else Except.ok (index + 1, once)) =
          .ok (i, length) →
      format.bytes.drop i = behindLength (format.bytes.drop index) := by
    intro twice once hlong h
    obtain ⟨d, hd, h⟩ := bind_eq_ok.mp h
    have hne : c ≠ 0 := by rcases hlong with rfl | rfl <;> decide
    have hmem : c ∈ lengthChars := by rcases hlong with rfl | rfl <;> decide
    rw [hcons, behindLength_cons]
    by_cases hdc : d = c
    · rw [if_pos hdc] at h
      obtain ⟨rfl, -⟩ := Prod.mk.inj (Except.ok.inj h)
      rw [if_pos ⟨hlong, (head_rest hd hne).mpr hdc⟩, tail_rest]
    · rw [if_neg hdc] at h
      obtain ⟨rfl, -⟩ := Prod.mk.inj (Except.ok.inj h)
      rw [if_neg fun hall => hdc ((head_rest hd hne).mp hall.2), if_pos hmem]
  have hone : ∀ {once : Length}, ¬ (c = ch 'h' ∨ c = ch 'l') → c ∈ lengthChars →
      Except.ok (index + 1, once) = Except.ok (ε := Stop) (i, length) →
      format.bytes.drop i = behindLength (format.bytes.drop index) := by
    intro once hshort hmem h
    obtain ⟨rfl, -⟩ := Prod.mk.inj (Except.ok.inj h)
    rw [hcons, behindLength_cons, if_neg fun hall => hshort hall.1, if_pos hmem]
  split_ifs at h with hh hl hL hz hj ht
  · subst hh
    exact htwo (.inl rfl) h
  · subst hl
    exact htwo (.inr rfl) h
  · subst hL
    exact hone (by decide) (by decide) h
  · subst hz
    exact hone (by decide) (by decide) h
  · subst hj
    exact hone (by decide) (by decide) h
  · subst ht
    exact hone (by decide) (by decide) h
  · have hnone : c ∉ lengthChars := by simp [lengthChars, hh, hl, hL, hz, hj, ht]
    obtain ⟨rfl, -⟩ := Prod.mk.inj (Except.ok.inj h)
    rw [hcons, behindLength_cons, if_neg fun hall => hall.1.elim hh hl, if_neg hnone]

theorem scan_rest {spec : Conversion} (h : scan format index args = .ok (i, spec, args')) :
    format.bytes.drop (i + 1) = behindConversion (format.bytes.drop index) := by
  obtain ⟨⟨i₁, spec₁⟩, h₁, h⟩ := bind_eq_ok.mp h
  obtain ⟨⟨i₂, width, args₂⟩, h₂, h⟩ := bind_eq_ok.mp h
  obtain ⟨⟨i₃, precision⟩, h₃, h⟩ := bind_eq_ok.mp h
  obtain ⟨⟨i₄, length⟩, h₄, h⟩ := bind_eq_ok.mp h
  obtain ⟨c, -, h⟩ := bind_eq_ok.mp h
  obtain ⟨rfl, -⟩ := Prod.mk.inj (Except.ok.inj h)
  rw [behindConversion, ← scanFlags_rest h₁, ← scanWidth_rest h₂, ← scanPrecision_rest h₃,
    ← scanLength_rest h₄, tail_rest]

/-- What the case of a backslash leaves. -/
theorem escapeAt_rest (hc : charAt format index = .ok 92)
    (h : escapeAt format index = .ok (c, i)) :
    format.bytes.drop (i + 1) = behindPart (format.bytes.drop index) := by
  obtain ⟨d, hd, h⟩ := bind_eq_ok.mp h
  have hescaped : [92, ch '%'] <+: format.bytes.drop index ↔ d = ch '%' := by
    rcases charAt_eq hc with ⟨-, hzero⟩ | ⟨-, hcons⟩
    · cases hzero
    · rw [hcons, List.cons_prefix_cons, List.singleton_prefix_iff_head?_eq_some,
        head_rest hd (by decide), eq_self, true_and]
  have hpercent : (format.bytes.drop index).head? ≠ some (ch '%') := fun heq =>
    absurd ((head_rest hc (by decide)).mp heq) (by decide)
  rw [behindPart]
  by_cases hescape : d = ch '%'
  · rw [if_pos hescape] at h
    obtain ⟨-, rfl⟩ := Prod.mk.inj (Except.ok.inj h)
    rw [if_pos (hescaped.mpr hescape), List.drop_drop]
  · rw [if_neg hescape] at h
    obtain ⟨-, rfl⟩ := Prod.mk.inj (Except.ok.inj h)
    rw [if_neg (mt hescaped.mp hescape), if_neg hpercent, tail_rest]

/-- A round takes the first part of what is left. -/
theorem directiveAt_rest {d : Directive} (h : directiveAt format index args = .ok (d, i, args')) :
    format.bytes.drop (i + 1) = behindPart (format.bytes.drop index) := by
  obtain ⟨c, hc, h⟩ := bind_eq_ok.mp h
  by_cases hslash : c = 92
  · subst hslash
    rw [if_pos rfl] at h
    cases hescape : escapeAt format index with
    | error e =>
      rw [hescape] at h
      cases h
    | ok r =>
      rw [hescape] at h
      obtain ⟨-, hi⟩ := Prod.mk.inj (Except.ok.inj h)
      obtain ⟨rfl, -⟩ := Prod.mk.inj hi
      exact escapeAt_rest hc hescape
  have hescaped : ¬ [92, ch '%'] <+: format.bytes.drop index := fun hpre =>
    hslash ((head_rest hc (by decide)).mp (List.singleton_prefix_iff_head?_eq_some.mp
      ((List.prefix_append [92] [ch '%']).trans hpre)))
  rw [if_neg hslash] at h
  rw [behindPart, if_neg hescaped]
  by_cases hpercent : c = ch '%'
  · rw [if_neg (not_not_intro hpercent)] at h
    obtain ⟨⟨j, spec, args₂⟩, hscan, h⟩ := bind_eq_ok.mp h
    obtain ⟨⟨d', args₃⟩, -, h⟩ := bind_eq_ok.mp h
    obtain ⟨-, hi⟩ := Prod.mk.inj (Except.ok.inj h)
    obtain ⟨rfl, -⟩ := Prod.mk.inj hi
    rw [if_pos ((head_rest hc (by decide)).mpr hpercent), tail_rest, scan_rest hscan]
  · rw [if_pos hpercent] at h
    obtain ⟨-, hi⟩ := Prod.mk.inj (Except.ok.inj h)
    obtain ⟨rfl, -⟩ := Prod.mk.inj hi
    rw [if_neg fun heq => hpercent ((head_rest hc (by decide)).mp heq), tail_rest]

/-! ### Runs -/

/-- After so many rounds the loop tests its condition with this index and these arguments. -/
inductive LoopHead (format : CString) (args : List Arg) : ℕ → ℕ → List Arg → Prop
  | start : LoopHead format args 0 0 args
  | next {k index i : ℕ} {args₁ args₂ : List Arg} {d : Directive}
      (head : LoopHead format args k index args₁) (below : index < format.bytes.length)
      (round : directiveAt format index args₁ = .ok (d, i, args₂)) :
      LoopHead format args (k + 1) (i + 1) args₂

/-- Before each round the parts of the rounds so far are gone. -/
theorem LoopHead.rest {k : ℕ} (h : LoopHead format args k index args') :
    format.bytes.drop index = behindPart^[k] format.bytes := by
  induction h with
  | start => rfl
  | next head below round ih => rw [directiveAt_rest round, ih, Function.iterate_succ_apply']

/-- No character is read behind the terminator, whatever the format is: a round fails
for want of an argument only.  The rounds take the parts of the format in turn. -/
theorem scanner_takes_parts (format : CString) (args : List Arg) :
    (∀ e, directives format args = .error e → e = .argument) ∧
      ∀ k index args', LoopHead format args k index args' →
        format.bytes.drop index = behindPart^[k] format.bytes ∧
          (index < format.bytes.length → ∀ e,
            directiveAt format index args' = .error e → e = .argument) := by
  refine ⟨fun e he => ?_, fun k index args' h => ⟨h.rest, fun hlt e he => ?_⟩⟩
  · have hscans := directivesFrom_scans format (n := format.bytes.length + 1) 0 args
      (Nat.succ_pos _) (by omega)
    rwa [show directivesFrom format (format.bytes.length + 1) 0 args = .error e from he] at hscans
  · have hscans := directiveAt_scans args' hlt
    rwa [he] at hscans

end Scanner

end Printf

end Betelgeuse
