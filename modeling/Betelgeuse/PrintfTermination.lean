/-
When `printf` returns.

The scanner stays within the format: every read is at most at the terminator, and
an index that has passed a character is not behind it (`scanFlags_ok`,
`scanNumber_ok`, `directiveAt_ok`).  So the only thing that can go wrong in it is an
argument of the wrong type, and `printf` is the sequence of its directives
(`directivesFrom_ok`).  It returns if each of them ends (`printf_returns_iff`).
-/
import Betelgeuse.PrintfEnds

open WhileLoop

namespace Betelgeuse

namespace Printf

/-- The directives of the format from an index on, with their arguments. -/
def directivesFrom (format : CString) : ℕ → ℕ → List Arg → Except Stop (List Directive)
  | 0, _, _ => .error .fuel
  | n + 1, index, args =>
    if index < format.bytes.length then do
      let (d, index, args) ← directiveAt format index args
      let ds ← directivesFrom format n (index + 1) args
      return d :: ds
    else .ok []

/-- The directives of the format. -/
def directives (format : CString) (args : List Arg) : Except Stop (List Directive) :=
  directivesFrom format (format.bytes.length + 1) 0 args

/-- The arguments supply each conversion with a value of its type. -/
def Supplied (format : CString) (args : List Arg) : Prop :=
  directives format args ≠ .error .argument

/-! ### The scanner -/

/-- The result has the property, and the only error is a missing argument. -/
def Scans {A : Type} (Q : A → Prop) : Except Stop A → Prop
  | .ok a => Q a
  | .error e => e = .argument

section Scanner

theorem Scans.mono {A : Type} {Q P : A → Prop} {x : Except Stop A} (hx : Scans Q x)
    (h : ∀ a, Q a → P a) : Scans P x := by
  cases x with
  | error e => exact hx
  | ok a => exact h a hx

theorem Scans.bind {A B : Type} {Q : A → Prop} {P : B → Prop} {x : Except Stop A}
    {f : A → Except Stop B} (hx : Scans Q x) (hf : ∀ a, Q a → Scans P (f a)) :
    Scans P (x >>= f) := by
  cases x with
  | error e => exact hx
  | ok a => exact hf a hx

theorem Scans.ite {A : Type} {Q : A → Prop} {p : Prop} [Decidable p] {x y : Except Stop A}
    (hx : p → Scans Q x) (hy : ¬ p → Scans Q y) : Scans Q (if p then x else y) := by
  by_cases h : p
  · rw [if_pos h]
    exact hx h
  · rw [if_neg h]
    exact hy h

theorem Scans.map {A B : Type} {Q : A → Prop} {P : B → Prop} {x : Except Stop A} {f : A → B}
    (hx : Scans Q x) (hf : ∀ a, Q a → P (f a)) : Scans P (x.map f) := by
  cases x with
  | error e => exact hx
  | ok a => exact hf a hx

variable {format : CString} {index : ℕ} {args : List Arg} {spec : Conversion}

/-- An index that is not in front of `index`, and within the format. -/
def Ahead (format : CString) (index i : ℕ) : Prop := index ≤ i ∧ i ≤ format.bytes.length

theorem Ahead.refl (h : index ≤ format.bytes.length) : Ahead format index index := ⟨le_rfl, h⟩

theorem Ahead.trans {i j : ℕ} (h : Ahead format index i) (h' : Ahead format i j) :
    Ahead format index j :=
  ⟨h.1.trans h'.1, h'.2⟩

/-- A character other than NUL is in front of the terminator. -/
theorem charAt_scans (h : index ≤ format.bytes.length) :
    Scans (fun c => c ≠ 0 → Ahead format index (index + 1)) (charAt format index) := by
  rcases Nat.lt_or_eq_of_le h with hlt | heq
  · rw [charAt, if_pos hlt]
    exact fun _ => ⟨Nat.le_succ index, hlt⟩
  · rw [charAt, if_neg heq.not_lt, if_pos heq]
    exact fun hne => absurd rfl hne

theorem scanFlags_scans {n : ℕ} : ∀ {index : ℕ} {spec : Conversion},
    index ≤ format.bytes.length → format.bytes.length < n + index →
      Scans (fun r => Ahead format index r.1) (scanFlags format n index spec) := by
  induction n with
  | zero =>
    intro index spec hle hlt
    omega
  | succ n ih =>
    intro index spec hle hlt
    refine (charAt_scans hle).bind fun c hc => ?_
    cases hflag : setFlag c spec with
    | none => exact Ahead.refl hle
    | some spec' =>
      have hne : c ≠ 0 := by
        rintro rfl
        cases hflag
      have hnext := hc hne
      exact (ih hnext.2 (by omega)).mono fun r hr => hnext.trans hr

theorem scanNumber_scans {n : ℕ} : ∀ {index : ℕ} {value : UInt64},
    index ≤ format.bytes.length → format.bytes.length < n + index →
      Scans (fun r => Ahead format index r.1) (scanNumber format n index value) := by
  induction n with
  | zero =>
    intro index value hle hlt
    omega
  | succ n ih =>
    intro index value hle hlt
    refine (charAt_scans hle).bind fun c hc => Scans.ite (fun hdigit => ?_) fun _ => Ahead.refl hle
    have hne : c ≠ 0 := by
      rintro rfl
      exact absurd hdigit.1 (by decide)
    have hnext := hc hne
    exact (ih hnext.2 (by omega)).mono fun r hr => hnext.trans hr

theorem scanWidth_scans (h : index ≤ format.bytes.length) :
    Scans (fun r => Ahead format index r.1) (scanWidth format index args) := by
  refine (charAt_scans h).bind fun c hc => Scans.ite (fun hstar => ?_) fun _ => ?_
  · have hnext : Ahead format index (index + 1) := hc (by rw [hstar]; decide)
    refine Scans.bind (Q := fun _ => True) ?_ fun r _ => hnext
    rcases args with _ | ⟨arg, args⟩
    · exact rfl
    · cases arg with
      | word w => exact trivial
      | string str => exact rfl
      | pointer n => exact rfl
  · exact (scanNumber_scans h (by omega)).bind fun r hr => hr

theorem scanPrecision_scans (h : index ≤ format.bytes.length) :
    Scans (fun r => Ahead format index r.1) (scanPrecision format index) := by
  refine (charAt_scans h).bind fun c hc => Scans.ite (fun hdot => ?_) fun _ => Ahead.refl h
  have hnext : Ahead format index (index + 1) := hc (by rw [hdot]; decide)
  exact (scanNumber_scans hnext.2 (by omega)).mono fun r hr => hnext.trans hr

theorem scanLength_scans (h : index ≤ format.bytes.length) :
    Scans (fun r => Ahead format index r.1) (scanLength format index) := by
  refine (charAt_scans h).bind fun c hc => ?_
  -- a length of one or of two characters
  have hone : c ≠ 0 → ∀ len, Scans (fun r : ℕ × Length => Ahead format index r.1)
      (.ok (index + 1, len)) := fun hne len => hc hne
  have htwo : c ≠ 0 → ∀ c' : UInt8, c' ≠ 0 → ∀ twice once : Length,
      Scans (fun r => Ahead format index r.1) (do
        let d ← charAt format (index + 1)
        if d = c' then return (index + 2, twice) else return (index + 1, once)) := by
    intro hne c' hc' twice once
    refine (charAt_scans (hc hne).2).bind fun d hd => Scans.ite (fun heq => ?_) fun _ => hc hne
    exact (hc hne).trans (hd (by rw [heq]; exact hc'))
  refine Scans.ite (fun heq => ?_) fun _ => Scans.ite (fun heq => ?_) fun _ =>
    Scans.ite (fun heq => ?_) fun _ => Scans.ite (fun heq => ?_) fun _ =>
    Scans.ite (fun heq => ?_) fun _ => Scans.ite (fun heq => ?_) fun _ => Ahead.refl h
  · exact htwo (by rw [heq]; decide) (ch 'h') (by decide) .halfHalf .half
  · exact htwo (by rw [heq]; decide) (ch 'l') (by decide) .longLong .long
  · exact hone (by rw [heq]; decide) .longDouble
  · exact hone (by rw [heq]; decide) .sizeT
  · exact hone (by rw [heq]; decide) .intMaxT
  · exact hone (by rw [heq]; decide) .ptrDiffT

theorem scan_scans (h : index ≤ format.bytes.length) :
    Scans (fun r => Ahead format index r.1) (scan format index args) := by
  refine (scanFlags_scans h (by omega)).bind fun r₁ h₁ => ?_
  refine (scanWidth_scans h₁.2).bind fun r₂ h₂ => ?_
  refine (scanPrecision_scans h₂.2).bind fun r₃ h₃ => ?_
  refine (scanLength_scans h₃.2).bind fun r₄ h₄ => ?_
  refine (charAt_scans h₄.2).bind fun c _ => ?_
  exact ((h₁.trans h₂).trans h₃).trans h₄

theorem fetch_scans : Scans (fun _ => True) (fetch spec args) := by
  have hword : Scans (fun _ => True) (vaWord args) := by
    unfold vaWord
    split
    · exact trivial
    · exact rfl
  have hstring : Scans (fun _ => True) (vaString args) := by
    unfold vaString
    split
    · exact trivial
    · exact rfl
  have hpointer : Scans (fun _ => True) (vaPointer args) := by
    unfold vaPointer
    split
    · exact trivial
    · exact rfl
  unfold fetch
  cases spec.formatType with
  | char | int10 | uint10 | int16 | int8 | int2 => exact hword.map fun _ _ => trivial
  | string => exact hstring.map fun _ _ => trivial
  | nChars => exact hpointer.map fun _ _ => trivial
  | percent | floatExp | floatFixed | floatOpt | hexFloat | formatTypeMax => exact trivial

/-- A directive ends within the format. -/
theorem directiveAt_scans (args : List Arg) (h : index < format.bytes.length) :
    Scans (fun r => Ahead format index r.2.1) (directiveAt format index args) := by
  have hnext : Ahead format index (index + 1) := ⟨Nat.le_succ index, h⟩
  refine (charAt_scans h.le).bind fun c _ => Scans.ite (fun _ => ?_) fun _ =>
    Scans.ite (fun _ => Ahead.refl h.le) fun _ => ?_
  · have hescape : Scans (fun r => Ahead format index r.2) (escapeAt format index) :=
      (charAt_scans hnext.2).bind fun d hd =>
        Scans.ite (fun _ => hnext) fun _ => Ahead.refl h.le
    exact hescape.map fun r hr => hr
  · refine (scan_scans hnext.2).bind fun r hr => ?_
    exact fetch_scans.bind fun d _ => hnext.trans hr

end Scanner

/-! ### Whole calls -/

section Run

variable {format : CString}

/-- The loop over the format is the sequence of the directives. -/
theorem directivesFrom_scans (format : CString) {n : ℕ} : ∀ (index : ℕ) (args : List Arg),
    0 < n → format.bytes.length < n + index →
      Scans (fun ds => ∀ fuel io, printfLoop format fuel n index args io =
        ds.foldlM (fun io d => d.exec fuel io) io) (directivesFrom format n index args) := by
  -- by induction on the bound of the loop, which every round brings nearer to the end
  induction n with
  | zero =>
    intro index args hpos
    exact absurd hpos (Nat.lt_irrefl 0)
  | succ n ih =>
    intro index args _ hlt
    by_cases h : index < format.bytes.length
    · rw [directivesFrom, if_pos h]
      cases hd : directiveAt format index args with
      | error e =>
        have hscans := directiveAt_scans args h
        rw [hd] at hscans
        exact hscans
      | ok r =>
        obtain ⟨d, index', args'⟩ := r
        have hahead : Ahead format index index' := by
          have hscans := directiveAt_scans args h
          rwa [hd] at hscans
        have hle := hahead.1
        show Scans _ (directivesFrom format n (index' + 1) args' >>= fun ds => .ok (d :: ds))
        refine (ih (index' + 1) args' (by omega) (by omega)).bind
          fun ds hds fuel io => ?_
        rw [printfLoop, if_pos h, hd, List.foldlM_cons]
        show d.exec fuel io >>= printfLoop format fuel n (index' + 1) args' = _
        congr 1
        funext io'
        exact hds fuel io'
    · rw [directivesFrom, if_neg h]
      intro fuel io
      rw [printfLoop, if_neg h]
      rfl

/-- A call is the sequence of its directives. -/
theorem printf_eq_of_directives {args : List Arg} {ds : List Directive}
    (hds : directives format args = .ok ds) (fuel : ℕ) :
    printf fuel format args = (do
      let io ← ds.foldlM (fun io d => d.exec fuel io) ⟨[], 0⟩
      return (io.numCharsWritten, io.events)) := by
  have hscans := directivesFrom_scans format (n := format.bytes.length + 1) 0 args
    (Nat.succ_pos _) (by omega)
  rw [show directivesFrom format (format.bytes.length + 1) 0 args = .ok ds from hds] at hscans
  rw [printf, hscans fuel ⟨[], 0⟩]

/-- A call returns if each of its directives ends. -/
theorem halts_iff_of_directives {args : List Arg} {ds : List Directive}
    (hds : directives format args = .ok ds) :
    (Halts fun fuel => printf fuel format args) ↔ ∀ d ∈ ds, d.Ends := by
  have hrun : (Halts fun fuel => printf fuel format args) ↔
      Halts fun fuel => ds.foldlM (fun io d => d.exec fuel io) ⟨[], 0⟩ := by
    simp only [printf_eq_of_directives hds]
    constructor
    · exact fun h => h.of_bind
    · rintro ⟨io, fuel, hio⟩
      exact ⟨_, fuel, bind_eq_ok.mpr ⟨io, hio, rfl⟩⟩
  rw [hrun]
  exact halts_foldlM exec_stable exec_halts_iff ds ⟨[], 0⟩

/-- The directives of a call whose arguments are supplied. -/
theorem directives_of_supplied {args : List Arg} (h : Supplied format args) :
    ∃ ds, directives format args = .ok ds := by
  have hscans := directivesFrom_scans format (n := format.bytes.length + 1) 0 args
    (Nat.succ_pos _) (by omega)
  cases hds : directives format args with
  | ok ds => exact ⟨ds, rfl⟩
  | error e =>
    rw [show directivesFrom format (format.bytes.length + 1) 0 args = .error e from hds] at hscans
    exact absurd (hds.trans (congrArg _ hscans)) h

/-- `printf` returns if and only if every decimal number is below the powers of ten
that the loop reaches, no octal number, nor a decimal number whose power has wrapped, is
left-aligned, and every binary number is at most 2, a left-aligned one at most 1. -/
theorem printf_returns_iff {args : List Arg} (h : Supplied format args) :
    (∃ fuel result, printf fuel format args = .ok result) ↔
      ∀ ds, directives format args = .ok ds → ∀ d ∈ ds, d.Ends := by
  obtain ⟨ds, hds⟩ := directives_of_supplied h
  calc (∃ fuel result, printf fuel format args = .ok result)
      ↔ Halts fun fuel => printf fuel format args := exists_comm
    _ ↔ ∀ d ∈ ds, d.Ends := halts_iff_of_directives hds
    _ ↔ ∀ ds, directives format args = .ok ds → ∀ d ∈ ds, d.Ends := by
        constructor
        · intro hends ds' hds'
          obtain rfl := Except.ok.inj (hds.symm.trans hds')
          exact hends
        · exact fun hall => hall ds hds

/-- The format `%d`. -/
def decimalFormat : CString := ⟨[37, 100], by decide⟩

theorem printf_returns_42 : ∃ fuel result, printf fuel decimalFormat [.word 42] = .ok result := by
  have hsupplied : Supplied decimalFormat [.word 42] := nofun
  refine (printf_returns_iff hsupplied).mpr fun ds hds d hd => ?_
  obtain rfl := Except.ok.inj (hds : Except.ok _ = Except.ok ds)
  obtain rfl := List.mem_singleton.mp hd
  exact .inl (by decide)

/-- The format `%-o`. -/
def leftOctalFormat : CString := ⟨[37, 45, 111], by decide⟩

/-- The format `%lu`. -/
def longFormat : CString := ⟨[37, 108, 117], by decide⟩

/-- A left-aligned octal number, and the greatest 64-bit number. -/
theorem not_printf_returns :
    (Supplied leftOctalFormat [.word 8] ∧
      ¬ ∃ fuel result, printf fuel leftOctalFormat [.word 8] = .ok result) ∧
    Supplied longFormat [.word 0xFFFFFFFFFFFFFFFF] ∧
      ¬ ∃ fuel result, printf fuel longFormat [.word 0xFFFFFFFFFFFFFFFF] = .ok result := by
  have hoctal : Supplied leftOctalFormat [.word 8] := nofun
  have hlong : Supplied longFormat [.word 0xFFFFFFFFFFFFFFFF] := nofun
  refine ⟨⟨hoctal, ?_⟩, hlong, ?_⟩
  · rintro ⟨fuel, result, hr⟩
    have hends := (@halts_iff_of_directives leftOctalFormat [.word 8] _ rfl).mp
      ⟨result, fuel, hr⟩ _ (List.mem_singleton.mpr rfl)
    exact absurd hends (by decide : ¬ true = false)
  · rintro ⟨fuel, result, hr⟩
    have hends := (@halts_iff_of_directives longFormat [.word 0xFFFFFFFFFFFFFFFF] _
      rfl).mp ⟨result, fuel, hr⟩ _ (List.mem_singleton.mpr rfl)
    have hmax : (0xFFFFFFFFFFFFFFFF : UInt64).toNat = 18446744073709551615 := rfl
    rcases hends with hlt | ⟨hlt, -⟩
    · have hlt : (0xFFFFFFFFFFFFFFFF : UInt64).toNat < 10 ^ 19 := hlt
      omega
    · have hlt : (0xFFFFFFFFFFFFFFFF : UInt64).toNat < 17909126868192198656 :=
        UInt64.lt_iff_toNat_lt.mp hlt
      omega

end Run

end Printf

end Betelgeuse
