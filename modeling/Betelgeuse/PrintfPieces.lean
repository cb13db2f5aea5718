/-
Formats that are put together from pieces.

A `Piece` is a character that stands for itself, a backslash, an escaped percent sign, or a
conversion of flags, width, length and type.  A backslash must not come directly in front
of a conversion, whose percent sign it would escape.  Otherwise a format can be put
together from any pieces, and `printf` takes it apart into the same pieces again, each
conversion with the arguments that the ones in front of it have left
(`directives_ofPieces`).  When each piece puts a text out, these texts are what the call
prints (`prints_ofPieces`).

In particular any text can be printed as a format, with a backslash in front of each percent
sign (`printf_backslashed`).
-/
import Betelgeuse.PrintfScan

open WhileLoop

namespace Betelgeuse

namespace Printf

/-- A piece of a format. -/
inductive Piece where
  | char (c : UInt8) (h : c ≠ ch '%' ∧ c ≠ 92 ∧ c ≠ 0)
  | backslash
  | percent
  | conversion (t : ConversionText)

namespace Piece

/-- How it is written. -/
def bytes : Piece → List UInt8
  | char c _ => [c]
  | backslash => [92]
  | percent => [92, ch '%']
  | conversion t => t.bytes

/-- What it does with the arguments. -/
def directive (args : List Arg) : Piece → Except Stop (Directive × List Arg)
  | char c _ => .ok (.literal c, args)
  | backslash => .ok (.literal 92, args)
  | percent => .ok (.literal (ch '%'), args)
  | conversion t => fetch t.conversion args

theorem noNul (p : Piece) : 0 ∉ p.bytes := by
  cases p with
  | char c h =>
    intro hmem
    exact h.2.2 (List.mem_singleton.mp hmem).symm
  | backslash => decide
  | percent => decide
  | conversion t => exact t.noNul

/-- Its first character is a percent sign only if it is a conversion. -/
theorem head_eq_percent {p : Piece} {rest : List UInt8} (h : p.bytes = ch '%' :: rest) :
    ∃ t, p = conversion t := by
  cases p with
  | char c hc => exact absurd (List.cons.inj h).1 hc.1
  | backslash => exact absurd (List.cons.inj h).1 (by decide)
  | percent => exact absurd (List.cons.inj h).1 (by decide)
  | conversion t => exact ⟨t, rfl⟩

theorem exists_bytes (p : Piece) : ∃ c rest, p.bytes = c :: rest := by
  cases p <;> exact ⟨_, _, rfl⟩

end Piece

/-- No backslash comes directly in front of a conversion. -/
def Separated : List Piece → Prop
  | [] => True
  | p :: ps => (p = .backslash → ∀ t ps', ps ≠ .conversion t :: ps') ∧ Separated ps

/-- The pieces, one after the other. -/
def piecesText (ps : List Piece) : List UInt8 := ps.flatMap Piece.bytes

theorem piecesText_cons (p : Piece) (ps : List Piece) :
    piecesText (p :: ps) = p.bytes ++ piecesText ps := List.flatMap_cons

/-- The format that they make. -/
def ofPieces (ps : List Piece) : CString where
  bytes := piecesText ps
  noNul hmem := by
    obtain ⟨p, -, hp⟩ := List.mem_flatMap.mp hmem
    exact p.noNul hp

/-- The directives of the pieces. -/
def pieceDirectives : List Piece → List Arg → Except Stop (List Directive)
  | [], _ => .ok []
  | p :: ps, args => do
    let (d, args) ← p.directive args
    let ds ← pieceDirectives ps args
    return d :: ds

section Pieces

variable {format : CString} {index : ℕ} {ps : List Piece}

/-- The character behind a backslash is no percent sign. -/
theorem charAt_behind_backslash (hps : ∀ t ps', ps ≠ .conversion t :: ps')
    (h : format.bytes.drop index = piecesText ps) (hindex : index ≤ format.bytes.length) :
    ∃ c, charAt format index = .ok c ∧ c ≠ ch '%' := by
  cases ps with
  | nil =>
    have hend : index = format.bytes.length :=
      Nat.le_antisymm hindex (List.drop_eq_nil_iff.mp h)
    exact ⟨0, by rw [charAt, if_neg (by omega), if_pos hend], by decide⟩
  | cons p ps =>
    obtain ⟨c, rest, hc⟩ := p.exists_bytes
    have htext : TextAt format index (c :: (rest ++ piecesText ps)) := by
      rw [TextAt, h, piecesText_cons, hc]
      exact List.prefix_refl _
    refine ⟨c, htext.charAt, ?_⟩
    rintro rfl
    obtain ⟨t, rfl⟩ := Piece.head_eq_percent hc
    exact hps t ps rfl

/-- What `printf` finds at a piece. -/
theorem directiveAt_piece {p : Piece} (hp : p = .backslash → ∀ t ps', ps ≠ .conversion t :: ps')
    (h : format.bytes.drop index = p.bytes ++ piecesText ps) (args : List Arg) :
    ∃ i, i + 1 = index + p.bytes.length ∧ directiveAt format index args =
      (p.directive args).map fun r => (r.1, i, r.2) := by
  have htext : TextAt format index p.bytes := by
    rw [TextAt, h]
    exact List.prefix_append _ _
  -- each kind of piece is one branch of the loop in `printf`
  cases p with
  | char c hc =>
    refine ⟨index, rfl, ?_⟩
    simp only [directiveAt, htext.charAt, ok_bind, if_neg hc.2.1, ne_eq, hc.1, not_false_eq_true,
      if_true]
    rfl
  | backslash =>
    -- what stands behind the backslash decides, and it is no percent sign
    have hdrop : format.bytes.drop (index + 1) = piecesText ps := by
      rw [← List.drop_drop, h]
      rfl
    have hle : index + 1 ≤ format.bytes.length := by
      have hlen := congrArg List.length h
      rw [List.length_drop, List.length_append] at hlen
      have hone : Piece.backslash.bytes.length = 1 := rfl
      omega
    obtain ⟨c, hc, hne⟩ := charAt_behind_backslash (hp rfl) hdrop hle
    refine ⟨index, rfl, ?_⟩
    simp only [directiveAt, escapeAt, htext.charAt, hc, ok_bind, if_true, if_neg hne]
    rfl
  | percent =>
    refine ⟨index + 1, rfl, ?_⟩
    simp only [directiveAt, escapeAt, htext.charAt, (TextAt.next htext).charAt, ok_bind, if_true]
    rfl
  | conversion t =>
    obtain ⟨i, hi, hscan⟩ := t.scan_text htext args
    have hbackslash : ch '%' ≠ 92 := by decide
    refine ⟨i, hi, ?_⟩
    simp only [directiveAt, TextAt.charAt htext, ok_bind, if_neg hbackslash, conversionAt, hscan,
      ne_eq, not_true_eq_false, if_false, Piece.directive]
    cases fetch t.conversion args <;> rfl

/-- The loop over the format takes piece after piece. -/
theorem directivesFrom_pieces : ∀ {ps : List Piece} {index n : ℕ} {args : List Arg},
    Separated ps → format.bytes.drop index = piecesText ps → index ≤ format.bytes.length →
      format.bytes.length < n + index →
      directivesFrom format n index args = pieceDirectives ps args := by
  intro ps
  induction ps with
  | nil =>
    intro index n args _ h hle hn
    have hend : format.bytes.length ≤ index := List.drop_eq_nil_iff.mp h
    obtain ⟨n, rfl⟩ : ∃ k, n = k + 1 := ⟨n - 1, by omega⟩
    rw [directivesFrom, if_neg (by omega)]
    rfl
  | cons p ps ih =>
    intro index n args hsep h hle hn
    rw [piecesText_cons] at h
    obtain ⟨i, hi, hd⟩ := directiveAt_piece hsep.1 h args
    have hlen := congrArg List.length h
    rw [List.length_drop, List.length_append] at hlen
    obtain ⟨c, rest, hc⟩ := p.exists_bytes
    have hpos : 0 < p.bytes.length := by
      rw [hc]
      exact Nat.succ_pos _
    -- the bound of the loop is enough for every piece
    obtain ⟨n, rfl⟩ : ∃ k, n = k + 1 := ⟨n - 1, by omega⟩
    rw [directivesFrom, if_pos (by omega), hd, pieceDirectives]
    cases p.directive args with
    | error e => rfl
    | ok r =>
      have hdrop : format.bytes.drop (i + 1) = piecesText ps := by
        rw [hi, ← List.drop_drop, h, List.drop_left]
      show (directivesFrom format n (i + 1) r.2 >>= fun ds => .ok (r.1 :: ds)) = _
      rw [ih hsep.2 hdrop (by omega) (by omega)]
      rfl

/-- `printf` takes a format apart into the pieces that it was put together from. -/
theorem directives_ofPieces (h : Separated ps) (args : List Arg) :
    directives (ofPieces ps) args = pieceDirectives ps args :=
  directivesFrom_pieces h rfl (Nat.zero_le _) (by omega)

end Pieces

/-! ### What the pieces print -/

/-- The directive puts the text out, whatever has been put out before. -/
def Puts (d : Directive) (text : List UInt8) : Prop :=
  ∀ io, Yields (fun fuel => d.exec fuel io) (io.putText text)

theorem puts_literal (c : UInt8) : Puts (.literal c) [c] := fun _ => ⟨0, rfl⟩

theorem putString_eq (str : CString) (io : Io) : putString str io = io.putText str.bytes := by
  have hall : ∀ (l : List UInt8) (io : Io),
      l.foldl (fun io c => (io.putchar c).count) io = io.putText l := by
    intro l
    induction l with
    | nil => exact fun io => (putText_nil io).symm
    | cons c l ih =>
      intro io
      rw [List.foldl_cons, ih, count_putchar, putText_putText, List.singleton_append]
  exact hall str.bytes io

theorem puts_string (str : CString) : Puts (.string str) str.bytes :=
  fun io => ⟨0, congrArg Except.ok (putString_eq str io)⟩

/-- Directives that put texts out do so one after the other. -/
theorem foldlM_puts {ds : List Directive} {texts : List (List UInt8)}
    (h : List.Forall₂ Puts ds texts) : ∀ io : Io,
      Yields (fun fuel => ds.foldlM (fun io d => d.exec fuel io) io)
        (io.putText texts.flatten) := by
  induction h with
  | nil => exact fun io => ⟨0, congrArg Except.ok (putText_nil io).symm⟩
  | @cons d text ds texts hd _ ih =>
    intro io
    have hrest := ih (io.putText text)
    rw [putText_putText, ← List.flatten_cons] at hrest
    simp only [List.foldlM_cons]
    exact (yields_bind (exec_stable io d) (fun io => Stable.foldlM exec_stable ds io)).mpr
      ⟨io.putText text, hd io, hrest⟩

theorem prints_of_puts {format : CString} {args : List Arg} {ds : List Directive}
    {texts : List (List UInt8)} (hds : directives format args = .ok ds)
    (hputs : List.Forall₂ Puts ds texts) : Prints format args texts.flatten := by
  obtain ⟨fuel, hfuel⟩ := foldlM_puts hputs ⟨[], 0⟩
  refine ⟨fuel, ?_⟩
  beta_reduce at hfuel ⊢
  rw [printf_eq_of_directives hds, hfuel]
  simp [Io.putText]

/-- A format is taken apart into its pieces.  When each of them puts a text out, the call
prints these texts, one after the other, and returns the length. -/
theorem prints_ofPieces {ps : List Piece} (h : Separated ps) (args : List Arg) :
    directives (ofPieces ps) args = pieceDirectives ps args ∧
      ∀ ds texts, pieceDirectives ps args = .ok ds → List.Forall₂ Puts ds texts →
        Prints (ofPieces ps) args texts.flatten := by
  have hdirs := directives_ofPieces h args
  exact ⟨hdirs, fun ds texts hds hputs => prints_of_puts (hdirs.trans hds) hputs⟩

/-- The conversion `%s`. -/
def stringConversion : ConversionText where
  flags := []
  width := 0
  length := .lengthMax
  type := ch 's'
  isFlag := isFlag_nil
  isType := by decide

/-- The format `%s\n` with the argument `OK`. -/
theorem prints_ofPieces_ok :
    Prints (ofPieces [.conversion stringConversion, .char 10 (by decide)])
      [.string ⟨[79, 75], by decide⟩] [79, 75, 10] := by
  have hsep : Separated [.conversion stringConversion, .char 10 (by decide)] :=
    ⟨fun h => (nomatch h), fun h => (nomatch h), trivial⟩
  have hds : pieceDirectives [.conversion stringConversion, .char 10 (by decide)]
      [.string ⟨[79, 75], by decide⟩] = .ok [.string ⟨[79, 75], by decide⟩, .literal 10] := rfl
  exact (prints_ofPieces hsep _).2 _ _ hds (.cons (puts_string _) (.cons (puts_literal _) .nil))

/-! ### Texts as formats -/

/-- A character, with another text in the place of a percent sign. -/
def replacePercent (text : List UInt8) (c : UInt8) : List UInt8 := if c = ch '%' then text else [c]

/-- A character of a text as a piece, with `q` for a percent sign. -/
def asPiece (q : Piece) (c : UInt8) : Piece :=
  if h : c ≠ ch '%' ∧ c ≠ 92 ∧ c ≠ 0 then .char c h else if c = 92 then .backslash else q

theorem flatten_singletons (l : List UInt8) : (l.map fun c => [c]).flatten = l := by
  rw [← List.flatMap_def, List.flatMap_singleton']

section Text

variable {q : Piece} {d : Directive} {c : UInt8} {l : List UInt8}

theorem asPiece_percent (q : Piece) : asPiece q (ch '%') = q := by
  rw [asPiece, dif_neg (by decide), if_neg (by decide)]

theorem asPiece_backslash (q : Piece) : asPiece q 92 = .backslash := by
  rw [asPiece, dif_neg (by decide), if_pos rfl]

theorem asPiece_char (h : c ≠ ch '%' ∧ c ≠ 92 ∧ c ≠ 0) : asPiece q c = .char c h := dif_pos h

/-- The kinds of characters of a text. -/
theorem asPiece_cases (hc : c ≠ 0) : c = ch '%' ∨ c = 92 ∨ (c ≠ ch '%' ∧ c ≠ 92 ∧ c ≠ 0) := by
  by_cases hpercent : c = ch '%'
  · exact .inl hpercent
  by_cases hbackslash : c = 92
  · exact .inr (.inl hbackslash)
  · exact .inr (.inr ⟨hpercent, hbackslash, hc⟩)

theorem asPiece_bytes (hc : c ≠ 0) : (asPiece q c).bytes = replacePercent q.bytes c := by
  rcases asPiece_cases hc with rfl | rfl | h
  · rw [asPiece_percent, replacePercent, if_pos rfl]
  · rw [asPiece_backslash]
    rfl
  · rw [asPiece_char h, replacePercent, if_neg h.1]
    rfl

theorem piecesText_text : ∀ {l : List UInt8}, 0 ∉ l →
    piecesText (l.map (asPiece q)) = l.flatMap (replacePercent q.bytes) := by
  intro l
  induction l with
  | nil => exact fun _ => rfl
  | cons c l ih =>
    intro hnul
    obtain ⟨hc, hl⟩ := List.ne_and_not_mem_of_not_mem_cons hnul
    rw [List.map_cons, piecesText_cons, asPiece_bytes hc.symm, ih hl, List.flatMap_cons]

/-- Each of the pieces puts its character out. -/
theorem pieceDirectives_text (hq : ∀ args, q.directive args = .ok (d, args))
    (hd : Puts d [ch '%']) (args : List Arg) : ∀ {l : List UInt8}, 0 ∉ l →
      ∃ ds, pieceDirectives (l.map (asPiece q)) args = .ok ds ∧
        List.Forall₂ Puts ds (l.map fun c => [c]) := by
  intro l
  induction l with
  | nil => exact fun _ => ⟨[], rfl, .nil⟩
  | cons c l ih =>
    intro hnul
    obtain ⟨hc, hl⟩ := List.ne_and_not_mem_of_not_mem_cons hnul
    obtain ⟨ds, hds, hputs⟩ := ih hl
    have hone : ∃ e, (asPiece q c).directive args = .ok (e, args) ∧ Puts e [c] := by
      rcases asPiece_cases hc.symm with rfl | rfl | h
      · exact ⟨d, by rw [asPiece_percent, hq], hd⟩
      · exact ⟨.literal 92, by rw [asPiece_backslash]; rfl, puts_literal 92⟩
      · exact ⟨.literal c, by rw [asPiece_char h]; rfl, puts_literal c⟩
    obtain ⟨e, he, hput⟩ := hone
    refine ⟨e :: ds, ?_, .cons hput hputs⟩
    rw [List.map_cons, pieceDirectives, he, ok_bind]
    dsimp only
    rw [hds]
    rfl

theorem asPiece_ne_conversion (hq : ∀ t, q ≠ .conversion t) (c : UInt8) (t : ConversionText) :
    asPiece q c ≠ .conversion t := by
  rw [asPiece]
  split
  · intro h
    cases h
  · split
    · intro h
      cases h
    · exact hq t

/-- Pieces none of which is a conversion are separated. -/
theorem separated_of_ne : ∀ {ps : List Piece}, (∀ p ∈ ps, ∀ t, p ≠ .conversion t) →
    Separated ps := by
  intro ps
  induction ps with
  | nil => exact fun _ => trivial
  | cons p ps ih =>
    intro h
    refine ⟨fun _ t ps' hps => ?_, ih fun p hp => h p (List.mem_cons_of_mem _ hp)⟩
    subst hps
    exact h (.conversion t) (by simp) t rfl

theorem noNul_replacePercent (q : Piece) (str : CString) :
    0 ∉ str.bytes.flatMap (replacePercent q.bytes) := by
  rw [← piecesText_text str.noNul]
  exact (ofPieces (str.bytes.map (asPiece q))).noNul

/-- The text as a format, with the piece for each percent sign. -/
def textFormat (q : Piece) (str : CString) : CString :=
  ⟨str.bytes.flatMap (replacePercent q.bytes), noNul_replacePercent q str⟩

theorem ofPieces_text (q : Piece) (str : CString) :
    ofPieces (str.bytes.map (asPiece q)) = textFormat q str := by
  rw [ofPieces, textFormat, CString.mk.injEq]
  exact piecesText_text str.noNul

end Text

/-- Every text is printed as it is when it is the format, with a backslash in front of each of
its percent signs. -/
theorem printf_backslashed (str : CString) (args : List Arg) :
    Prints (textFormat .percent str) args str.bytes := by
  have hne : ∀ t, Piece.percent ≠ .conversion t := by
    intro t h
    cases h
  have hsep : Separated (str.bytes.map (asPiece .percent)) := by
    refine separated_of_ne fun p hp t => ?_
    obtain ⟨c, -, rfl⟩ := List.mem_map.mp hp
    exact asPiece_ne_conversion hne c t
  obtain ⟨ds, hds, hputs⟩ :=
    pieceDirectives_text (q := .percent) (fun _ => rfl) (puts_literal _) args str.noNul
  have hdirs := directives_ofPieces hsep args
  rw [ofPieces_text, hds] at hdirs
  have hprints := prints_of_puts hdirs hputs
  rwa [flatten_singletons] at hprints

end Printf

end Betelgeuse
