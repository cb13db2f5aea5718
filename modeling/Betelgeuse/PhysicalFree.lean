/-
Giving physical pages back, with 64-bit masks.

`page_physical_free` toggles the bit of the page if `PAGE_STATUS` is 0, that is,
if the page is free already: the guard is the wrong way round.  An allocated page
stays allocated, a free one becomes allocated, and only a frame beyond the
bitmap is treated as it should be.  So no bit is ever cleared
(`get_free_of_get`), and what `page_physical_alloc` has taken is not given back
(`exactRun_iff`).
-/
import Betelgeuse.PhysicalCount
import Betelgeuse.WordArith

open WordBitmap WordArith

namespace Betelgeuse

/-- A call of `page_physical_alloc` or `page_physical_free`. -/
inductive PhysicalCall where
  | alloc
  | free (frame : UInt64)

namespace PageBitmap

variable {s : PageBitmap} {frame : UInt64} {cs : List PhysicalCall}

/-- Make a call. -/
def step (s : PageBitmap) : PhysicalCall → Option PageBitmap
  | .alloc => (s.pagePhysicalAlloc mask).map fun o => o.bitmap
  | .free frame => some (s.pagePhysicalFree mask frame)

/-- Make the calls of a list, one after the other. -/
def steps : List PhysicalCall → PageBitmap → Option PageBitmap
  | [], s => some s
  | c :: cs, s => (s.step c).bind (steps cs)

/-- The frame lies beyond the bitmap. -/
def Beyond (s : PageBitmap) (frame : UInt64) : Prop :=
  64 * s.length.toNat ≤ (frame >>> 12).toNat

instance : Decidable (s.Beyond frame) := inferInstanceAs (Decidable (_ ≤ _))

/-- The bit of page `q` is cleared. -/
def clearPage (s : PageBitmap) (q : ℕ) : PageBitmap :=
  { s with words := clearBit s.words (q / 64) (q % 64) }

/-- Freeing an allocated page clears its bit, and freeing a free one or one beyond
the bitmap changes nothing; an allocation that returns 0 is undone by freeing the
frame it gave. -/
def Exact (s : PageBitmap) : PhysicalCall → Prop
  | .free frame =>
    (¬ s.Beyond frame → WordBitmap.get s.words (frame >>> 12).toNat = true →
        s.pagePhysicalFree mask frame = s.clearPage (frame >>> 12).toNat) ∧
      (s.Beyond frame ∨ WordBitmap.get s.words (frame >>> 12).toNat = false →
        s.pagePhysicalFree mask frame = s)
  | .alloc => ∀ o, s.pagePhysicalAlloc mask = some o → o.code = 0 →
    ∃ frame, o.frame = some frame ∧ o.bitmap.pagePhysicalFree mask frame = s

/-- Every call that the sequence comes to is exact. -/
def ExactRun (s : PageBitmap) (cs : List PhysicalCall) : Prop :=
  ∀ pre c post, cs = pre ++ c :: post → ∀ s', steps pre s = some s' → s'.Exact c

/-- The sequence allocates only if no word is open, and frees only beyond the
bitmap, up to a call that does not come back. -/
def NothingToDo (s : PageBitmap) (cs : List PhysicalCall) : Prop :=
  (.alloc ∈ cs → s.openWords = ∅) ∧
    ∀ pre c post, cs = pre ++ c :: post → ∀ frame, c = .free frame →
      s.Beyond frame ∨ .alloc ∈ pre ∧ 2 ^ 16 ≤ s.length.toNat

/-! ### What a call to free does -/

theorem bit_shiftRight (w k : UInt64) (hk : k.toNat < 64) :
    (w >>> k) &&& 1 = 0 ↔ bit w k.toNat = false := by
  have hbits : ((w >>> k) &&& 1).toBitVec = (w.toBitVec >>> k.toNat) &&& 1 := by
    simp [Nat.mod_eq_of_lt hk]
  rw [← UInt64.toBitVec_inj, hbits]
  constructor
  · intro hzero
    have hlow := congrArg (fun v => v.getLsbD 0) hzero
    simpa [bit] using hlow
  · intro hclear
    refine BitVec.eq_of_getLsbD_eq fun j hj => ?_
    by_cases hj0 : j = 0
    · subst hj0
      simpa [bit] using hclear
    · simp [hj0]

theorem toNat_shiftRight_word (frame : UInt64) :
    (frame >>> 18).toNat = (frame >>> 12).toNat / 64 := by
  rw [toNat_shiftRight (n := 18) rfl, toNat_shiftRight (n := 12) rfl]
  omega

theorem toNat_and_63 (pointer : UInt64) : (pointer &&& 0b111111).toNat = pointer.toNat % 64 :=
  toNat_and_mask (w := 6) rfl

/-- `PAGE_STATUS` is the bit of the page. -/
theorem pageStatus_eq_zero {pointer : UInt64} :
    s.pageStatus pointer = 0 ↔ WordBitmap.get s.words pointer.toNat = false := by
  have hoff := toNat_and_63 pointer
  have hword : (pointer >>> 6).toNat = pointer.toNat / 64 := toNat_shiftRight (n := 6) rfl
  rw [pageStatus, bit_shiftRight _ _ (by omega), hword, hoff, WordBitmap.get]

/-- The function toggles the bit of a page of the bitmap that is free. -/
theorem pagePhysicalFree_eq :
    s.pagePhysicalFree mask frame =
      if ¬ s.Beyond frame ∧ WordBitmap.get s.words (frame >>> 12).toNat = false then
        s.toggle mask ((frame >>> 12).toNat / 64) ((frame >>> 12).toNat % 64)
      else s := by
  have hin : frame >>> 18 < s.length ↔ ¬ s.Beyond frame := by
    rw [UInt64.lt_iff_toNat_lt, toNat_shiftRight_word, Beyond]
    omega
  rw [pagePhysicalFree, toNat_shiftRight_word, toNat_and_63]
  simp only [hin, pageStatus_eq_zero]

/-- No call clears a bit. -/
theorem get_free_of_get {q : ℕ} (h : WordBitmap.get s.words q = true) :
    WordBitmap.get (s.pagePhysicalFree mask frame).words q = true := by
  rw [pagePhysicalFree_eq]
  split
  · rename_i hfree
    rw [get_toggle, h]
    split
    · rename_i hword
      have hne : q % 64 ≠ (frame >>> 12).toNat % 64 := by
        intro heq
        rw [show q = (frame >>> 12).toNat by omega, hfree.2] at h
        cases h
      rw [bit_mask (by omega), decide_eq_false hne]
      rfl
    · rfl
  · exact h

/-- Within the bitmap the function does the opposite of what it should. -/
theorem exact_free_iff : s.Exact (.free frame) ↔ s.Beyond frame := by
  rw [Exact, pagePhysicalFree_eq]
  set q := (frame >>> 12).toNat
  have hq : q % 64 < 64 := Nat.mod_lt _ (by omega)
  -- equal bitmaps have the same bit for the page
  have hbit : ∀ s₁ s₂ : PageBitmap, s₁ = s₂ →
      WordBitmap.get s₁.words q = WordBitmap.get s₂.words q := by
    rintro s₁ _ rfl
    rfl
  constructor
  · rintro ⟨hset, hclear⟩
    by_contra hin
    cases hstatus : WordBitmap.get s.words q with
    | true =>
      have hsame := hbit _ _ (hset hin hstatus)
      rw [if_neg (by simp [hstatus]), clearPage, get_clearBit _ hq, hstatus,
        decide_eq_true (by omega : q = 64 * (q / 64) + q % 64)] at hsame
      cases hsame
    | false =>
      have hsame := hbit _ _ (hclear (.inr hstatus))
      rw [if_pos ⟨hin, hstatus⟩, get_toggle, if_pos rfl, hstatus, bit_mask hq,
        decide_eq_true rfl] at hsame
      cases hsame
  · intro hbeyond
    rw [if_neg fun h => h.1 hbeyond]
    exact ⟨fun hin => absurd hbeyond hin, fun _ => rfl⟩

/-- What an allocation has taken is not given back. -/
theorem exact_alloc_iff : s.Exact .alloc ↔ s.openWords = ∅ := by
  rcases s.pagePhysicalAlloc_mask with ⟨i, hi, hrun⟩ | ⟨hopen, hrun⟩
  · refine iff_of_false (fun hexact => ?_) fun hempty => ?_
    · obtain ⟨frame, -, hback⟩ := hexact _ hrun rfl
      have hclear := (mem_freePages.mp (free_of_open hi).1).2
      have htaken : WordBitmap.get (s.toggle mask i 63).words (64 * i + 63) = true := by
        rw [get_toggle, if_pos (by omega), hclear, bit_mask (by omega)]
        simp
      have hkept : WordBitmap.get ((s.toggle mask i 63).pagePhysicalFree mask frame).words
          (64 * i + 63) = true := get_free_of_get htaken
      rw [hback, hclear] at hkept
      cases hkept
    · rw [hempty] at hi
      simp at hi
  · refine iff_of_true (fun o ho hcode => ?_) hopen
    rw [hrun] at ho
    split at ho
    · obtain rfl := Option.some.inj ho
      exact absurd hcode (by simp)
    · cases ho

/-! ### Runs -/

/-- A statement about every place of a list, taken apart at the first one. -/
theorem forall_split_cons {α : Type} {P : List α → α → Prop} {a : α} {l : List α} :
    (∀ pre x post, a :: l = pre ++ x :: post → P pre x) ↔
      P [] a ∧ ∀ pre x post, l = pre ++ x :: post → P (a :: pre) x := by
  constructor
  · intro h
    refine ⟨h [] a l rfl, fun pre x post hl => h (a :: pre) x post ?_⟩
    rw [hl]
    rfl
  · rintro ⟨hhead, htail⟩ pre x post hl
    cases pre with
    | nil =>
      obtain ⟨rfl, -⟩ := List.cons.inj hl
      exact hhead
    | cons y pre =>
      obtain ⟨rfl, hl'⟩ := List.cons.inj hl
      exact htail pre x post hl'

theorem exactRun_cons {c : PhysicalCall} :
    s.ExactRun (c :: cs) ↔ s.Exact c ∧ ∀ s', s.step c = some s' → s'.ExactRun cs := by
  rw [ExactRun, forall_split_cons (P := fun pre c => ∀ s', steps pre s = some s' → s'.Exact c)]
  refine and_congr ⟨fun h => h s rfl, fun h s' hs' => ?_⟩ ⟨?_, ?_⟩
  · obtain rfl := Option.some.inj hs'
    exact h
  · intro h s' hs' pre x post hl s'' hs''
    refine h pre x post hl s'' ?_
    rw [steps, hs']
    exact hs''
  · intro h pre x post hl s'' hs''
    obtain ⟨s', hs', hs''⟩ := Option.bind_eq_some_iff.mp hs''
    exact h s' hs' pre x post hl s'' hs''

/-- Without an open word an allocation fails or does not come back. -/
theorem step_alloc (hopen : s.openWords = ∅) :
    s.step .alloc = if s.length.toNat < 2 ^ 16 then some s else none := by
  rcases s.pagePhysicalAlloc_mask with ⟨i, hi, -⟩ | ⟨-, hrun⟩
  · rw [hopen] at hi
    simp at hi
  · rw [step, hrun]
    split
    · rfl
    · rfl

theorem nothingToDo_cons {c : PhysicalCall} :
    s.NothingToDo (c :: cs) ↔
      (.alloc ∈ c :: cs → s.openWords = ∅) ∧ (∀ frame, c = .free frame → s.Beyond frame) ∧
        ∀ pre c' post, cs = pre ++ c' :: post → ∀ frame, c' = .free frame →
          s.Beyond frame ∨ .alloc ∈ c :: pre ∧ 2 ^ 16 ≤ s.length.toNat := by
  rw [NothingToDo, forall_split_cons (P := fun (pre : List PhysicalCall) (c : PhysicalCall) =>
    ∀ frame : UInt64, c = .free frame →
      s.Beyond frame ∨ .alloc ∈ pre ∧ 2 ^ 16 ≤ s.length.toNat)]
  simp

theorem nothingToDo_free :
    s.NothingToDo (.free frame :: cs) ↔ s.Beyond frame ∧ s.NothingToDo cs := by
  rw [nothingToDo_cons, NothingToDo]
  constructor
  · rintro ⟨halloc, hhead, htail⟩
    refine ⟨hhead frame rfl, fun hmem => halloc (List.mem_cons_of_mem _ hmem), ?_⟩
    intro pre c post hl f hc
    exact (htail pre c post hl f hc).imp_right fun h => ⟨by simpa using h.1, h.2⟩
  · rintro ⟨hbeyond, halloc, htail⟩
    refine ⟨fun hmem => halloc (by simpa using hmem), ?_, ?_⟩
    · rintro f ⟨⟩
      exact hbeyond
    · intro pre c post hl f hc
      exact (htail pre c post hl f hc).imp_right fun h => ⟨List.mem_cons_of_mem _ h.1, h.2⟩

theorem nothingToDo_alloc :
    s.NothingToDo (.alloc :: cs) ↔
      s.openWords = ∅ ∧ (s.length.toNat < 2 ^ 16 → s.NothingToDo cs) := by
  rw [nothingToDo_cons, NothingToDo]
  constructor
  · rintro ⟨halloc, -, htail⟩
    have hopen := halloc (by simp)
    refine ⟨hopen, fun hlen => ⟨fun _ => hopen, fun pre c post hl f hc => .inl ?_⟩⟩
    exact (htail pre c post hl f hc).resolve_right fun h => absurd h.2 (not_le.mpr hlen)
  · rintro ⟨hopen, hrest⟩
    refine ⟨fun _ => hopen, fun f hf => (by cases hf), fun pre c post hl f hc => ?_⟩
    by_cases hlen : s.length.toNat < 2 ^ 16
    · exact ((hrest hlen).2 pre c post hl f hc).imp_right fun h =>
        ⟨List.mem_cons_of_mem _ h.1, h.2⟩
    · exact .inr ⟨by simp, not_lt.mp hlen⟩

/-- All calls of a sequence are exact exactly if there is nothing to do. -/
theorem exactRun_iff : ∀ {cs : List PhysicalCall}, s.ExactRun cs ↔ s.NothingToDo cs := by
  intro cs
  induction cs with
  | nil =>
    refine iff_of_true (fun pre c post hl => ?_) ⟨fun hmem => ?_, fun pre c post hl => ?_⟩
    · simp at hl
    · simp at hmem
    · simp at hl
  | cons c cs ih =>
    rw [exactRun_cons]
    cases c with
    | free frame =>
      rw [exact_free_iff, nothingToDo_free]
      refine and_congr_right fun hbeyond => ?_
      have hstep : s.step (.free frame) = some s := by
        rw [step, pagePhysicalFree_eq, if_neg fun hin => hin.1 hbeyond]
      rw [hstep, ← ih]
      simp
    | alloc =>
      rw [exact_alloc_iff, nothingToDo_alloc]
      refine and_congr_right fun hopen => ?_
      rw [step_alloc hopen, ← ih]
      by_cases hlen : s.length.toNat < 2 ^ 16
      · rw [if_pos hlen]
        exact ⟨fun h _ => h s rfl, fun h s' hs' => Option.some.inj hs' ▸ h hlen⟩
      · rw [if_neg hlen]
        exact ⟨fun _ hlt => absurd hlt hlen, fun _ s' hs' => by cases hs'⟩

/-- In memory without an allocated page, the page that is taken is not given
back, and giving back a free page takes it. -/
theorem not_exactRun_emptyMemory :
    ¬ emptyMemory.ExactRun [.alloc] ∧ ¬ emptyMemory.ExactRun [.free 0] ∧
      WordBitmap.get (emptyMemory.pagePhysicalFree mask 0).words 0 = true := by
  refine ⟨fun hrun => ?_, fun hrun => ?_, by decide⟩
  · have hexact := hrun [] .alloc [] rfl _ rfl
    have hmem : 0 ∈ emptyMemory.openWords := mem_openWords.mpr ⟨by decide, by decide⟩
    rw [exact_alloc_iff.mp hexact] at hmem
    simp at hmem
  · have hexact := hrun [] (.free 0) [] rfl _ rfl
    exact absurd (exact_free_iff.mp hexact) (by decide)

end PageBitmap

end Betelgeuse
