/-
The functions that allocate several pages (`page_alloc_multiple...` in
`kernel/memory.c`).

All of them register the pages, and then take and map one frame for each page.  When a
frame is missing in round `i`, they free the pages that are mapped and unregister the
rest.  `MultipleServices.Contract` is what the comments in `kernel/memory.h` promise
of the functions that are called.

The functions are one loop with parameters (`allocRounds`).  Four of them are called
with a pointer, and use the pointer where they should use the page that it points to.
Those never undo a failed call; the others do only if no page was mapped yet, since
`page_free_multiple` frees no frame (`allOrNothing_iff`).
-/
import Betelgeuse.PageFree

namespace Betelgeuse

variable {σ : Type*}

/-- The functions for several virtual pages besides. -/
structure MultipleServices (σ : Type*) extends PageServices σ where
  pageVirtualAllocMultiple : UInt64 → σ → ℤ × UInt64 × σ
  pageVirtualAllocMultipleEx : UInt64 → σ → ℤ × UInt64 × σ
  pageVirtualAllocMultipleAt : UInt64 → UInt64 → σ → ℤ × σ
  pageVirtualAllocMultipleAfter : UInt64 → UInt64 → σ → ℤ × UInt64 × σ
  pageVirtualAllocMultipleAfterEx : UInt64 → UInt64 → σ → ℤ × UInt64 × σ
  pageVirtualAllocMultipleBeyond : UInt64 → UInt64 → UInt64 → σ → ℤ × UInt64 × σ
  pageVirtualAllocMultipleBeyondEx : UInt64 → UInt64 → UInt64 → σ → ℤ × UInt64 × σ
  pageVirtualFreeMultiple : UInt64 → UInt64 → σ → ℤ × σ

/-- The pages from `frame` on. -/
def pageRange (frame count : UInt64) : Set UInt64 :=
  {va | ∃ j < count.toNat, va = frame + UInt64.ofNat j <<< 12}

/-- The page of an address. -/
def pageOf (va : UInt64) : UInt64 := va - va % 0x1000

/-- A function that registers `count` pages that were not registered, or fails. -/
structure RegistersPages (translation : σ → UInt64 → Option UInt64)
    (free registered : σ → Set UInt64) (count : UInt64) (f : σ → ℤ × UInt64 × σ) : Prop where
  zero : ∀ s frame s', f s = (0, frame, s') →
    (∀ va ∈ pageRange frame count, va ∉ registered s ∧ pageOf va ∉ registered s) ∧
      registered s' = registered s ∪ pageRange frame count
  fail : ∀ s, (f s).1 ≠ 0 → registered (f s).2.2 = registered s
  keeps : ∀ s, translation (f s).2.2 = translation s ∧ free (f s).2.2 = free s

namespace MultipleServices

/-- What a call of `page_virtual_alloc_multiple_at` gives, with the place that the caller
has chosen. -/
def virtualAllocAt (S : MultipleServices σ) (frame allocCount : UInt64) (s : σ) : ℤ × UInt64 × σ :=
  let (result, s) := S.pageVirtualAllocMultipleAt frame allocCount s
  (result, frame, s)

/-- The documented contracts of all functions. -/
structure Contract (S : MultipleServices σ) (translation : σ → UInt64 → Option UInt64)
    (free registered : σ → Set UInt64) : Prop
    extends toPage : S.toPageServices.Contract translation free registered where
  multiple : ∀ count, RegistersPages translation free registered count
    (S.pageVirtualAllocMultiple count)
  multipleEx : ∀ count, RegistersPages translation free registered count
    (S.pageVirtualAllocMultipleEx count)
  multipleAt : ∀ frame count, RegistersPages translation free registered count
    (S.virtualAllocAt frame count)
  multipleAfter : ∀ base count, RegistersPages translation free registered count
    (S.pageVirtualAllocMultipleAfter base count)
  multipleAfterEx : ∀ base count, RegistersPages translation free registered count
    (S.pageVirtualAllocMultipleAfterEx base count)
  multipleBeyond : ∀ base count jump, RegistersPages translation free registered count
    (S.pageVirtualAllocMultipleBeyond base count jump)
  multipleBeyondEx : ∀ base count jump, RegistersPages translation free registered count
    (S.pageVirtualAllocMultipleBeyondEx base count jump)
  freeMultiple : ∀ frame count s, pageRange frame count ⊆ registered s →
    registered (S.pageVirtualFreeMultiple frame count s).2 = registered s \ pageRange frame count
  freeMultiple_fail : ∀ frame count s, ¬ pageRange frame count ⊆ registered s →
    registered (S.pageVirtualFreeMultiple frame count s).2 = registered s
  freeMultiple_keeps : ∀ frame count s,
    translation (S.pageVirtualFreeMultiple frame count s).2 = translation s ∧
      free (S.pageVirtualFreeMultiple frame count s).2 = free s

variable (S : MultipleServices σ)

/-! ### The functions -/

/-- One round of `page_free_multiple`. -/
def freeRound (frame : UInt64) (s : σ) (i : ℕ) : σ :=
  let (result, _, s) := S.pageUnmap (frame + UInt64.ofNat i <<< 12) s
  if result = -1 then s
  else (S.pageVirtualFree frame s).2

def pageFreeMultiple (frame count : UInt64) (s : σ) : σ :=
  (List.range count.toNat).foldl (S.freeRound frame) s

/-- What a call that fails in round `i` does, but for the frame that it has in hand:
`if (i > 0) page_free_multiple(frame, i)`. -/
def freeMapped (frame i : UInt64) (s : σ) : σ := if i > 0 then S.pageFreeMultiple frame i s else s

/-- The rounds of the loop from round `i` on, of which `n` are left.  The loop maps pages
that lie `stride` pages apart; `written` is what the client's variable holds. -/
def allocRounds (frame stride allocCount : UInt64) (written : Option UInt64) :
    ℕ → UInt64 → σ → PageServices.AllocResult σ
  | 0, _, s => .returned 0 written s
  | n + 1, i, s =>
    let (result, physicalPage, s) := S.pagePhysicalAlloc s
    if result = -1 then
      let s := S.freeMapped frame i s
      .returned (-1) written
        (S.pageVirtualFreeMultiple (frame + stride * (i <<< 12)) (allocCount - i) s).2
    else
      let (result, s) := S.pageMap (frame + stride * (i <<< 12)) physicalPage s
      if result = -1 then
        let s := S.freeMapped frame i s
        let s := S.pagePhysicalFree physicalPage s
        .returned (-1) written
          (S.pageVirtualFreeMultiple (frame + stride * (i <<< 12)) (allocCount - i) s).2
      else if result = 1 then .panic
      else allocRounds frame stride allocCount written n (i + 1) s

/-- The functions with the function that registers the pages, and where they map from
there. -/
def allocMultiple (virtualAlloc : σ → ℤ × UInt64 × σ) (start : UInt64 → UInt64) (stride : UInt64)
    (allocCount : UInt64) (s : σ) : PageServices.AllocResult σ :=
  let (result, frame, s) := virtualAlloc s
  if result ≠ 0 then .returned result (some frame) s
  else S.allocRounds (start frame) stride allocCount (some frame) allocCount.toNat 0 s

def pageAllocMultiple (allocCount : UInt64) : σ → PageServices.AllocResult σ :=
  S.allocMultiple (S.pageVirtualAllocMultiple allocCount) id 1 allocCount

def pageAllocMultipleEx (allocCount : UInt64) : σ → PageServices.AllocResult σ :=
  S.allocMultiple (S.pageVirtualAllocMultipleEx allocCount) id 1 allocCount

def pageAllocMultipleAt (frame allocCount : UInt64) : σ → PageServices.AllocResult σ :=
  S.allocMultiple (S.virtualAllocAt frame allocCount) id 1 allocCount

/-- `frame` is the pointer.  To add to it means to count pointed-to values, which are 8
bytes long. -/
def pageAllocMultipleAfter (base allocCount frame : UInt64) : σ → PageServices.AllocResult σ :=
  S.allocMultiple (S.pageVirtualAllocMultipleAfter base allocCount) (fun _ => frame) 8 allocCount

def pageAllocMultipleAfterEx (base allocCount frame : UInt64) : σ → PageServices.AllocResult σ :=
  S.allocMultiple (S.pageVirtualAllocMultipleAfterEx base allocCount) (fun _ => frame) 8 allocCount

def pageAllocMultipleBeyond (base allocCount jumpCount frame : UInt64) :
    σ → PageServices.AllocResult σ :=
  S.allocMultiple (S.pageVirtualAllocMultipleBeyond base allocCount jumpCount) (fun _ => frame) 8
    allocCount

def pageAllocMultipleBeyondEx (base allocCount jumpCount frame : UInt64) :
    σ → PageServices.AllocResult σ :=
  S.allocMultiple (S.pageVirtualAllocMultipleBeyondEx base allocCount jumpCount) (fun _ => frame) 8
    allocCount

end MultipleServices

/-- A call of one of the functions.  For the last four, `frame` is the pointer. -/
inductive MultipleCall where
  | multiple (allocCount : UInt64)
  | multipleEx (allocCount : UInt64)
  | multipleAt (frame allocCount : UInt64)
  | multipleAfter (base allocCount frame : UInt64)
  | multipleAfterEx (base allocCount frame : UInt64)
  | multipleBeyond (base allocCount jumpCount frame : UInt64)
  | multipleBeyondEx (base allocCount jumpCount frame : UInt64)

namespace MultipleCall

variable (S : MultipleServices σ)

def run : MultipleCall → σ → PageServices.AllocResult σ
  | multiple allocCount => S.pageAllocMultiple allocCount
  | multipleEx allocCount => S.pageAllocMultipleEx allocCount
  | multipleAt frame allocCount => S.pageAllocMultipleAt frame allocCount
  | multipleAfter base allocCount frame => S.pageAllocMultipleAfter base allocCount frame
  | multipleAfterEx base allocCount frame => S.pageAllocMultipleAfterEx base allocCount frame
  | multipleBeyond base allocCount jumpCount frame =>
    S.pageAllocMultipleBeyond base allocCount jumpCount frame
  | multipleBeyondEx base allocCount jumpCount frame =>
    S.pageAllocMultipleBeyondEx base allocCount jumpCount frame

/-- The function that registers the pages. -/
def virtualAlloc : MultipleCall → σ → ℤ × UInt64 × σ
  | multiple allocCount => S.pageVirtualAllocMultiple allocCount
  | multipleEx allocCount => S.pageVirtualAllocMultipleEx allocCount
  | multipleAt frame allocCount => S.virtualAllocAt frame allocCount
  | multipleAfter base allocCount _ => S.pageVirtualAllocMultipleAfter base allocCount
  | multipleAfterEx base allocCount _ => S.pageVirtualAllocMultipleAfterEx base allocCount
  | multipleBeyond base allocCount jumpCount _ =>
    S.pageVirtualAllocMultipleBeyond base allocCount jumpCount
  | multipleBeyondEx base allocCount jumpCount _ =>
    S.pageVirtualAllocMultipleBeyondEx base allocCount jumpCount

def allocCount : MultipleCall → UInt64
  | multiple allocCount | multipleEx allocCount | multipleAt _ allocCount
  | multipleAfter _ allocCount _ | multipleAfterEx _ allocCount _
  | multipleBeyond _ allocCount _ _ | multipleBeyondEx _ allocCount _ _ => allocCount

/-- The pointer that is used in place of the page that it points to. -/
def pointer : MultipleCall → Option UInt64
  | multiple _ | multipleEx _ | multipleAt _ _ => none
  | multipleAfter _ _ frame | multipleAfterEx _ _ frame
  | multipleBeyond _ _ _ frame | multipleBeyondEx _ _ _ frame => some frame

/-- Where the loop maps the first page. -/
def start (c : MultipleCall) (frame : UInt64) : UInt64 := c.pointer.getD frame

def stride (c : MultipleCall) : UInt64 := if c.pointer = none then 1 else 8

variable {S} {translation : σ → UInt64 → Option UInt64} {free registered : σ → Set UInt64}

theorem run_eq (c : MultipleCall) (s : σ) :
    c.run S s = S.allocMultiple (c.virtualAlloc S) c.start c.stride c.allocCount s := by
  cases c <;> rfl

theorem registersPages (h : S.Contract translation free registered) (c : MultipleCall) :
    RegistersPages translation free registered c.allocCount (c.virtualAlloc S) := by
  cases c with
  | multiple allocCount => exact h.multiple allocCount
  | multipleEx allocCount => exact h.multipleEx allocCount
  | multipleAt frame allocCount => exact h.multipleAt frame allocCount
  | multipleAfter base allocCount _ => exact h.multipleAfter base allocCount
  | multipleAfterEx base allocCount _ => exact h.multipleAfterEx base allocCount
  | multipleBeyond base allocCount jumpCount _ => exact h.multipleBeyond base allocCount jumpCount
  | multipleBeyondEx base allocCount jumpCount _ =>
    exact h.multipleBeyondEx base allocCount jumpCount

end MultipleCall

/-! ### Rounds that succeed and a round that fails -/

/-- `i` rounds from the state `s₀` that take the given frames and map them. -/
inductive Rounds (S : MultipleServices σ) (start stride : UInt64) (s₀ : σ) :
    ℕ → List UInt64 → σ → Prop
  | zero : Rounds S start stride s₀ 0 [] s₀
  | succ {i frames s result physicalPage s' result' s''} : Rounds S start stride s₀ i frames s →
    S.pagePhysicalAlloc s = (result, physicalPage, s') → result ≠ -1 →
    S.pageMap (start + stride * (UInt64.ofNat i <<< 12)) physicalPage s' = (result', s'') →
    result' ≠ -1 → result' ≠ 1 →
    Rounds S start stride s₀ (i + 1) (frames ++ [physicalPage]) s''

/-- A round from the state `s` that fails, with the frame that it has taken, if any, and
the state in which it fails. -/
inductive RoundFails (S : MultipleServices σ) (va : UInt64) (s : σ) : List UInt64 → σ → Prop
  | alloc {physicalPage s'} : S.pagePhysicalAlloc s = (-1, physicalPage, s') →
    RoundFails S va s [] s'
  | map {result physicalPage s' s''} : S.pagePhysicalAlloc s = (result, physicalPage, s') →
    result ≠ -1 → S.pageMap va physicalPage s' = (-1, s'') → RoundFails S va s [physicalPage] s''

/-- The call registers its pages, and round `i` fails; the rounds up to there take the
given frames. -/
def FailsAt (S : MultipleServices σ) (c : MultipleCall) (s : σ) (i : ℕ) (taken : List UInt64) :
    Prop :=
  ∃ frame s₀ frames sᵢ last s', c.virtualAlloc S s = (0, frame, s₀) ∧ i < c.allocCount.toNat ∧
    Rounds S (c.start frame) c.stride s₀ i frames sᵢ ∧
    RoundFails S (c.start frame + c.stride * (UInt64.ofNat i <<< 12)) sᵢ last s' ∧
    taken = frames ++ last

/-- The call fails, and it leaves behind the registered pages and the translation that it
found; the frames that it has taken are free. -/
def AllOrNothing (S : MultipleServices σ) (translation : σ → UInt64 → Option UInt64)
    (free registered : σ → Set UInt64) (c : MultipleCall) (s : σ) (taken : List UInt64) : Prop :=
  ∃ frame s', c.run S s = .returned (-1) frame s' ∧ registered s' = registered s ∧
    translation s' = translation s ∧ ∀ physicalPage ∈ taken, physicalPage ∈ free s'

section Rounds

variable {S : MultipleServices σ} {translation : σ → UInt64 → Option UInt64}
  {free registered : σ → Set UInt64} {start stride allocCount va : UInt64} {s₀ s s' : σ} {i : ℕ}
  {frames last : List UInt64} {written : Option UInt64}

/-- The loop after rounds that succeed. -/
theorem Rounds.run (h : Rounds S start stride s₀ i frames s) :
    ∀ n, S.allocRounds start stride allocCount written (n + i) 0 s₀ =
      S.allocRounds start stride allocCount written n (UInt64.ofNat i) s := by
  induction h with
  | zero => exact fun n => rfl
  | succ _ halloc hresult hmap hfail hmapped ih =>
    intro n
    rw [← Nat.add_assoc, Nat.add_right_comm, ih (n + 1), UInt64.ofNat_add]
    simp only [MultipleServices.allocRounds, halloc, hmap, if_neg hresult, if_neg hfail,
      if_neg hmapped]
    rfl

/-- What a failing round leaves to be undone: the state in front of the call of
`page_virtual_free_multiple`. -/
theorem RoundFails.run (h : RoundFails S (start + stride * (UInt64.ofNat i <<< 12)) s last s')
    (n : ℕ) :
    S.allocRounds start stride allocCount written (n + 1) (UInt64.ofNat i) s =
      .returned (-1) written
        (S.pageVirtualFreeMultiple (start + stride * (UInt64.ofNat i <<< 12))
          (allocCount - UInt64.ofNat i)
          (last.foldl (fun s physicalPage => S.pagePhysicalFree physicalPage s)
            (S.freeMapped start (UInt64.ofNat i) s'))).2 := by
  cases h with
  | alloc halloc =>
    simp only [MultipleServices.allocRounds, halloc, if_true, List.foldl_nil]
  | map halloc hresult hmap =>
    simp only [MultipleServices.allocRounds, halloc, hmap, if_neg hresult, if_true, List.foldl_cons,
      List.foldl_nil]

/-- A call in which round `i` fails. -/
theorem FailsAt.run {c : MultipleCall} {taken : List UInt64} (hfails : FailsAt S c s i taken) :
    ∃ frame s₀ frames last s', c.virtualAlloc S s = (0, frame, s₀) ∧
      Rounds S (c.start frame) c.stride s₀ i frames s' ∧ taken = frames ++ last ∧
      ∃ s'', RoundFails S (c.start frame + c.stride * (UInt64.ofNat i <<< 12)) s' last s'' ∧
        c.run S s = .returned (-1) (some frame)
          (S.pageVirtualFreeMultiple (c.start frame + c.stride * (UInt64.ofNat i <<< 12))
            (c.allocCount - UInt64.ofNat i)
            (last.foldl (fun s physicalPage => S.pagePhysicalFree physicalPage s)
              (S.freeMapped (c.start frame) (UInt64.ofNat i) s''))).2 := by
  obtain ⟨frame, s₀, frames, s', last, s'', hvirt, hi, hrounds, hround, rfl⟩ := hfails
  refine ⟨frame, s₀, frames, last, s', hvirt, hrounds, rfl, s'', hround, ?_⟩
  rw [MultipleCall.run_eq, MultipleServices.allocMultiple, hvirt]
  dsimp only
  rw [if_neg (not_not.mpr rfl)]
  have hcount : c.allocCount.toNat = (c.allocCount.toNat - i - 1 + 1) + i := by omega
  rw [hcount, hrounds.run, hround.run]

variable (h : S.Contract translation free registered)
include h

/-- What one round does that succeeds. -/
theorem round_succ {result result' : ℤ} {physicalPage va : UInt64} {s₁ s₂ : σ}
    (hphys : S.pagePhysicalAlloc s = (result, physicalPage, s₁)) (hne : result ≠ -1)
    (hmap : S.pageMap va physicalPage s₁ = (result', s₂)) (hfail : result' ≠ -1)
    (hmapped : result' ≠ 1) :
    registered s₂ = registered s ∧ physicalPage ∈ free s ∧ free s₂ ⊆ free s \ {physicalPage} ∧
      translation s va = none ∧ translation s₂ va = some physicalPage ∧
      ∀ va', ¬ SamePage va va' → translation s₂ va' = translation s va' := by
  have hcode := (h.alloc_code s).resolve_right (by rwa [hphys])
  have hreg := h.alloc_registered s
  rw [hphys] at hcode hreg
  obtain rfl : result = 0 := hcode
  have hcode' := (h.map_code va physicalPage s₁).resolve_right (by
    rw [hmap]
    exact fun hor => hor.elim hmapped hfail)
  have hreg' := h.map_registered va physicalPage s₁
  rw [hmap] at hcode' hreg'
  obtain rfl : result' = 0 := hcode'
  obtain ⟨hin, hmasked, hfree, htrans⟩ := h.alloc_zero _ _ _ hphys
  obtain ⟨hnone, hsome, hother, hsub⟩ := h.map_zero _ _ _ _ hmap
  rw [hmasked] at hsome
  rw [htrans] at hnone hother
  rw [hfree] at hsub
  exact ⟨hreg'.trans hreg, hin, hsub, hnone, hsome, hother⟩

/-- Rounds that succeed take frames that are not free from then on. -/
theorem Rounds.taken (hr : Rounds S start stride s₀ i frames s) :
    frames.length = i ∧ (∀ physicalPage ∈ frames, physicalPage ∉ free s) := by
  induction hr with
  | zero => exact ⟨rfl, fun p hp => absurd hp List.not_mem_nil⟩
  | succ _ halloc hresult hmap hfail hmapped ih =>
    obtain ⟨hlen, hfree⟩ := ih
    obtain ⟨-, -, hsub, -⟩ := round_succ h halloc hresult hmap hfail hmapped
    refine ⟨by rw [List.length_append, hlen]; rfl, fun p hp hin => ?_⟩
    have hin := hsub hin
    rcases List.mem_append.mp hp with hp | hp
    · exact hfree p hp hin.1
    · exact hin.2 (List.mem_singleton.mp hp)

/-- A round that fails changes neither the registered pages nor the translation. -/
theorem RoundFails.keeps (hf : RoundFails S va s last s') :
    registered s' = registered s ∧ translation s' = translation s ∧ free s' ⊆ free s ∧
      ∀ physicalPage ∈ last, physicalPage ∈ free s ∧ physicalPage &&& addrMask = physicalPage := by
  cases hf with
  | @alloc physicalPage _ halloc =>
    have hreg := h.alloc_registered s
    rw [halloc] at hreg
    obtain ⟨hfree, htrans⟩ := h.alloc_fail _ _ _ halloc
    exact ⟨hreg, htrans, hfree.subset, fun p hp => absurd hp List.not_mem_nil⟩
  | @map result physicalPage s₁ _ halloc hresult hmap =>
    have hcode := (h.alloc_code s).resolve_right (by rwa [halloc])
    have hreg := h.alloc_registered s
    have hreg' := h.map_registered va physicalPage s₁
    rw [halloc] at hcode hreg
    rw [hmap] at hreg'
    obtain rfl : result = 0 := hcode
    obtain ⟨hin, hmasked, hfree, htrans⟩ := h.alloc_zero _ _ _ halloc
    obtain ⟨htrans', hfree'⟩ := h.map_fail _ _ _ _ hmap
    refine ⟨hreg'.trans hreg, htrans'.trans htrans, fun p hp => ?_, fun p hp => ?_⟩
    · have hp := hfree' hp
      rw [hfree] at hp
      exact hp.1
    · obtain rfl := List.mem_singleton.mp hp
      exact ⟨hin, hmasked⟩

theorem physicalFree_all : ∀ (l : List UInt64) (s : σ),
    (∀ physicalPage ∈ l, physicalPage &&& addrMask = physicalPage) →
      registered (l.foldl (fun s physicalPage => S.pagePhysicalFree physicalPage s) s) =
          registered s ∧
        translation (l.foldl (fun s physicalPage => S.pagePhysicalFree physicalPage s) s) =
          translation s ∧
        free (l.foldl (fun s physicalPage => S.pagePhysicalFree physicalPage s) s) =
          free s ∪ {physicalPage | physicalPage ∈ l} := by
  intro l
  induction l with
  | nil =>
    intro s _
    exact ⟨rfl, rfl, by simp⟩
  | cons p l ih =>
    intro s hl
    obtain ⟨hreg, htrans, hfree⟩ := ih (S.pagePhysicalFree p s) fun q hq =>
      hl q (List.mem_cons_of_mem p hq)
    rw [List.foldl_cons, hreg, htrans, hfree, h.free_registered, h.free_translation,
      h.free_frame p s (hl p List.mem_cons_self)]
    refine ⟨rfl, rfl, Set.ext fun q => ?_⟩
    simp only [Set.mem_union, Set.mem_insert_iff, Set.mem_ofPred_eq, List.mem_cons]
    tauto

/-- `page_free_multiple` frees no frame. -/
theorem free_pageFreeMultiple (frame count : UInt64) (s : σ) :
    free (S.pageFreeMultiple frame count s) = free s := by
  have hround : ∀ s i, free (S.freeRound frame s i) = free s := by
    intro s i
    have hunmap := h.unmap_free (frame + UInt64.ofNat i <<< 12) s
    unfold MultipleServices.freeRound
    dsimp only
    split
    · exact hunmap
    · exact ((h.virtualFree _ _).2.2).trans hunmap
  have hall : ∀ (l : List ℕ) s, free (l.foldl (S.freeRound frame) s) = free s := by
    intro l
    induction l with
    | nil => exact fun s => rfl
    | cons i l ih => exact fun s => (ih _).trans (hround s i)
  exact hall _ s

theorem free_freeMapped (frame i : UInt64) (s : σ) : free (S.freeMapped frame i s) = free s := by
  unfold MultipleServices.freeMapped
  split
  · exact free_pageFreeMultiple h frame i s
  · rfl

end Rounds

/-! ### All or nothing -/

section AllOrNothing

variable {S : MultipleServices σ} {translation : σ → UInt64 → Option UInt64}
  {free registered : σ → Set UInt64} {c : MultipleCall} {s : σ} {i : ℕ} {taken : List UInt64}

theorem mem_pageRange_self (frame : UInt64) {count : UInt64} (h : 0 < count.toNat) :
    frame ∈ pageRange frame count := by
  have hzero : UInt64.ofNat 0 <<< 12 = 0 := rfl
  exact ⟨0, h, by rw [hzero, UInt64.add_zero]⟩

/-- In a later round the frame of the first page is lost. -/
theorem not_allOrNothing_of_pos (h : S.Contract translation free registered)
    (hfails : FailsAt S c s i taken) (hi : 0 < i) :
    ¬ AllOrNothing S translation free registered c s taken := by
  rintro ⟨frame', t, hrun, -, -, hfree⟩
  obtain ⟨frame, s₀, frames, last, s', -, hrounds, rfl, s'', hround, hrun'⟩ := hfails.run
  rw [hrun'] at hrun
  obtain ⟨-, -, rfl⟩ := PageServices.AllocResult.returned.inj hrun
  obtain ⟨hlen, hnot⟩ := hrounds.taken h
  obtain ⟨-, -, hsub, hlast⟩ := hround.keeps h
  obtain ⟨-, -, hall⟩ := physicalFree_all h last
    (S.freeMapped (c.start frame) (UInt64.ofNat i) s'') fun p hp => (hlast p hp).2
  rcases frames with _ | ⟨p, frames⟩
  · simp at hlen
    omega
  · have hp := hfree p (by simp)
    rw [(h.freeMultiple_keeps _ _ _).2, hall, free_freeMapped h] at hp
    have hpnot := hnot p List.mem_cons_self
    rcases hp with hp | hp
    · exact hpnot (hsub hp)
    · exact hpnot (hlast p hp).1

/-- In the first round the pages are unregistered again, if they are the ones that were
registered. -/
theorem allOrNothing_of_zero (h : S.Contract translation free registered)
    (hfails : FailsAt S c s 0 taken) (hpointer : c.pointer = none) :
    AllOrNothing S translation free registered c s taken := by
  obtain ⟨frame, s₀, frames, last, s', hvirt, hrounds, rfl, s'', hround, hrun⟩ := hfails.run
  cases hrounds
  have hstart : c.start frame = frame := by
    rw [MultipleCall.start, hpointer, Option.getD_none]
  have haddr : c.start frame + c.stride * (UInt64.ofNat 0 <<< 12) = frame := by
    show c.start frame + c.stride * 0 = frame
    rw [hstart, UInt64.mul_zero, UInt64.add_zero]
  have hcount : c.allocCount - UInt64.ofNat 0 = c.allocCount := UInt64.sub_zero _
  have hmapped : S.freeMapped (c.start frame) (UInt64.ofNat 0) s'' = s'' := if_neg (by decide)
  rw [haddr, hcount, hmapped] at hrun
  obtain ⟨hzero, hreg⟩ := (c.registersPages h).zero _ _ _ hvirt
  obtain ⟨htrans, hfree⟩ := (c.registersPages h).keeps s
  rw [hvirt] at htrans hfree
  obtain ⟨hreg', htrans', hsub, hlast⟩ := hround.keeps h
  obtain ⟨hreg'', htrans'', hall⟩ := physicalFree_all h last s'' fun p hp => (hlast p hp).2
  have hregistered : registered (last.foldl (fun s p => S.pagePhysicalFree p s) s'') =
      registered s ∪ pageRange frame c.allocCount := by
    rw [hreg'', hreg', hreg]
  refine ⟨_, _, hrun, ?_, ?_, fun p hp => ?_⟩
  · rw [h.freeMultiple _ _ _ (by rw [hregistered]; exact Set.subset_union_right), hregistered]
    refine Set.ext fun va => ⟨?_, fun hva => ⟨.inl hva, fun hin => (hzero va hin).1 hva⟩⟩
    rintro ⟨hva | hva, hnot⟩
    · exact hva
    · exact absurd hva hnot
  · rw [(h.freeMultiple_keeps _ _ _).1, htrans'', htrans', htrans]
  · rw [(h.freeMultiple_keeps _ _ _).2, hall]
    exact .inr hp

/-- The functions that use the pointer leave the pages registered. -/
theorem not_allOrNothing_of_pointer (h : S.Contract translation free registered)
    (hwell : ∀ va, translation s va ≠ none → pageOf va ∈ registered s) (frame : UInt64)
    (hpointer : c.pointer = some frame) (hmapped : translation s frame ≠ none)
    (hfails : FailsAt S c s 0 taken) :
    ¬ AllOrNothing S translation free registered c s taken := by
  rintro ⟨frame', t, hrun, hsame, -, -⟩
  have hcount : 0 < c.allocCount.toNat := by
    obtain ⟨-, -, -, -, -, -, -, hi, -⟩ := hfails
    exact hi
  obtain ⟨page, s₀, frames, last, s', hvirt, hrounds, rfl, s'', hround, hrun'⟩ := hfails.run
  cases hrounds
  rw [hrun'] at hrun
  obtain ⟨-, -, rfl⟩ := PageServices.AllocResult.returned.inj hrun
  have hstart : c.start page = frame := by
    rw [MultipleCall.start, hpointer, Option.getD_some]
  have haddr : c.start page + c.stride * (UInt64.ofNat 0 <<< 12) = frame := by
    show c.start page + c.stride * 0 = frame
    rw [hstart, UInt64.mul_zero, UInt64.add_zero]
  have hall : c.allocCount - UInt64.ofNat 0 = c.allocCount := UInt64.sub_zero _
  have hnone : S.freeMapped (c.start page) (UInt64.ofNat 0) s'' = s'' := if_neg (by decide)
  rw [haddr, hall, hnone] at hsame
  obtain ⟨hzero, hreg⟩ := (c.registersPages h).zero _ _ _ hvirt
  obtain ⟨hreg', -, -, hlast⟩ := hround.keeps h
  obtain ⟨hreg'', -, -⟩ := physicalFree_all h last s'' fun p hp => (hlast p hp).2
  have hregistered : registered (last.foldl (fun s p => S.pagePhysicalFree p s) s'') =
      registered s ∪ pageRange page c.allocCount := by
    rw [hreg'', hreg', hreg]
  by_cases hsub : pageRange frame c.allocCount ⊆ registered s ∪ pageRange page c.allocCount
  · -- the page of the variable would be one of the new pages
    rw [h.freeMultiple _ _ _ (by rwa [hregistered]), hregistered] at hsame
    have hself := mem_pageRange_self frame hcount
    have hnot : frame ∉ registered s := by
      rw [← hsame]
      exact fun hin => hin.2 hself
    exact (hzero frame ((hsub hself).resolve_left hnot)).2 (hwell frame hmapped)
  · rw [h.freeMultiple_fail _ _ _ (by rwa [hregistered]), hregistered] at hsame
    have hself := mem_pageRange_self page hcount
    have hin : page ∈ registered s := by
      rw [← hsame]
      exact .inr hself
    exact (hzero page hself).1 hin

/-- A call that fails is undone exactly if the function does not use the pointer and the
first round fails. -/
theorem allOrNothing_iff (h : S.Contract translation free registered)
    (hwell : ∀ va, translation s va ≠ none → pageOf va ∈ registered s)
    (hclient : ∀ frame, c.pointer = some frame → translation s frame ≠ none)
    (hfails : FailsAt S c s i taken) :
    AllOrNothing S translation free registered c s taken ↔ c.pointer = none ∧ i = 0 := by
  constructor
  · intro hall
    rcases Nat.eq_zero_or_pos i with rfl | hi
    · refine ⟨?_, rfl⟩
      cases hpointer : c.pointer with
      | none => rfl
      | some frame =>
        exact absurd hall
          (not_allOrNothing_of_pointer h hwell _ hpointer (hclient frame hpointer) hfails)
    · exact absurd hall (not_allOrNothing_of_pos h hfails hi)
  · rintro ⟨hpointer, rfl⟩
    exact allOrNothing_of_zero h hfails hpointer

end AllOrNothing

/-! ### An instance -/

namespace Shelf

/-- The pages from `frame` on, as a list. -/
def pageList (frame count : UInt64) : List UInt64 :=
  (List.range count.toNat).map fun j => frame + UInt64.ofNat j <<< 12

theorem mem_pageList {frame count va : UInt64} :
    va ∈ pageList frame count ↔ va ∈ pageRange frame count := by
  unfold pageList
  rw [List.mem_map]
  constructor
  · rintro ⟨j, hj, rfl⟩
    exact ⟨j, List.mem_range.mp hj, rfl⟩
  · rintro ⟨j, hj, rfl⟩
    exact ⟨j, List.mem_range.mpr hj, rfl⟩

/-- Nothing is registered in the pages from `frame` on. -/
def Vacant (s : Shelf) (frame count : UInt64) : Prop :=
  ∀ va ∈ pageList frame count, va ∈ s.pages ∧ pageOf va ∈ s.pages

instance (s : Shelf) (frame count : UInt64) : Decidable (s.Vacant frame count) :=
  List.decidableBAll _ (pageList frame count)

def register (frame count : UInt64) (s : Shelf) : Shelf :=
  { s with pages := s.pages.filter (· ∉ pageList frame count) }

/-- Register the first vacant pages from `base` on. -/
def registerFrom (base count : UInt64) (s : Shelf) : ℤ × UInt64 × Shelf :=
  match s.pages.find? fun va => base ≤ va ∧ s.Vacant va count with
  | none => (-1, 0, s)
  | some va => (0, va, s.register va count)

/-- The functions for several pages. -/
def multipleServices : MultipleServices Shelf where
  toPageServices := services
  pageVirtualAllocMultiple := registerFrom 0
  pageVirtualAllocMultipleEx := registerFrom 0
  pageVirtualAllocMultipleAt frame count s :=
    if s.Vacant frame count then (0, s.register frame count) else (1, s)
  pageVirtualAllocMultipleAfter := registerFrom
  pageVirtualAllocMultipleAfterEx := registerFrom
  pageVirtualAllocMultipleBeyond base count jump := registerFrom (base + jump <<< 12) count
  pageVirtualAllocMultipleBeyondEx base count jump := registerFrom (base + jump <<< 12) count
  pageVirtualFreeMultiple frame count s :=
    if (pageList frame count).any (· ∈ s.pages) then (-1, s)
    else (0, { s with pages := pageList frame count ++ s.pages })

theorem registered_register {s : Shelf} {frame count : UInt64} :
    (s.register frame count).registered = s.registered ∪ pageRange frame count := by
  refine Set.ext fun va => ?_
  rw [Set.mem_union, mem_registered, mem_registered, ← mem_pageList]
  show va ∉ s.pages.filter (· ∉ pageList frame count) ↔ _
  rw [List.mem_filter, decide_eq_true_iff]
  tauto

theorem vacant_iff {s : Shelf} {frame count : UInt64} : s.Vacant frame count ↔
    ∀ va ∈ pageRange frame count, va ∉ s.registered ∧ pageOf va ∉ s.registered := by
  unfold Vacant
  simp only [mem_pageList, mem_registered, not_not]

theorem registersPages_from (base count : UInt64) :
    RegistersPages translation free registered count (registerFrom base count) where
  zero s frame s' h := by
    unfold registerFrom at h
    split at h
    · simp at h
    · rename_i va hva
      obtain ⟨-, rfl, rfl⟩ : (0 : ℤ) = 0 ∧ va = frame ∧ _ := by simpa using h
      have hvacant := List.find?_some hva
      rw [decide_eq_true_iff] at hvacant
      exact ⟨vacant_iff.mp hvacant.2, registered_register⟩
  fail s h := by
    unfold registerFrom at h ⊢
    split
    · rfl
    · rename_i va hva
      rw [hva] at h
      exact absurd rfl h
  keeps s := by
    unfold registerFrom
    split
    · exact ⟨rfl, rfl⟩
    · exact ⟨rfl, rfl⟩

theorem virtualAllocAt_eq (frame count : UInt64) (s : Shelf) :
    multipleServices.virtualAllocAt frame count s =
      if s.Vacant frame count then (0, frame, s.register frame count) else (1, frame, s) := by
  simp only [MultipleServices.virtualAllocAt, multipleServices]
  split
  · rfl
  · rfl

theorem any_mem_pages {s : Shelf} {frame count : UInt64} :
    (pageList frame count).any (· ∈ s.pages) = true ↔
      ∃ va ∈ pageRange frame count, va ∈ s.pages := by
  simp only [List.any_eq_true, decide_eq_true_iff, mem_pageList]

theorem multipleServices_contract :
    multipleServices.Contract translation free registered where
  toPage := services_contract
  multiple count := registersPages_from 0 count
  multipleEx count := registersPages_from 0 count
  multipleAt frame count := by
    constructor
    · intro s va s' h
      rw [virtualAllocAt_eq] at h
      split at h
      · rename_i hvacant
        obtain ⟨rfl, rfl⟩ : frame = va ∧ s.register frame count = s' :=
          ⟨congrArg (·.2.1) h, congrArg (·.2.2) h⟩
        exact ⟨vacant_iff.mp hvacant, registered_register⟩
      · have hcode : (1 : ℤ) = 0 := congrArg Prod.fst h
        exact absurd hcode (by decide)
    · intro s h
      rw [virtualAllocAt_eq] at h ⊢
      split
      · rename_i hvacant
        rw [if_pos hvacant] at h
        exact absurd rfl h
      · rfl
    · intro s
      rw [virtualAllocAt_eq]
      split
      · exact ⟨rfl, rfl⟩
      · exact ⟨rfl, rfl⟩
  multipleAfter base count := registersPages_from base count
  multipleAfterEx base count := registersPages_from base count
  multipleBeyond base count jump := registersPages_from (base + jump <<< 12) count
  multipleBeyondEx base count jump := registersPages_from (base + jump <<< 12) count
  freeMultiple frame count s hsub := by
    -- pages that are registered are on no free list
    have hnot : ¬ (pageList frame count).any (· ∈ s.pages) = true := by
      rw [any_mem_pages]
      rintro ⟨va, hva, hin⟩
      exact hsub hva hin
    simp only [multipleServices, if_neg hnot]
    refine Set.ext fun va => ?_
    rw [Set.mem_sdiff, mem_registered, mem_registered, ← mem_pageList]
    show va ∉ pageList frame count ++ s.pages ↔ _
    rw [List.mem_append]
    tauto
  freeMultiple_fail frame count s hsub := by
    have hin : (pageList frame count).any (· ∈ s.pages) = true := by
      obtain ⟨va, hva, hnot⟩ := Set.not_subset.mp hsub
      exact any_mem_pages.mpr ⟨va, hva, not_not.mp hnot⟩
    simp only [multipleServices, if_pos hin]
  freeMultiple_keeps frame count s := by
    simp only [multipleServices]
    split
    · exact ⟨rfl, rfl⟩
    · exact ⟨rfl, rfl⟩

end Shelf

/-- A kernel with the given free frames, two vacant pages, and one page mapped. -/
def twoPages (frames : List Frame) : Shelf where
  frames := frames
  pages := [0x5000, 0x6000]
  mapping n := if n = 9 then some 0x2000 else none

theorem twoPages_wellFormed (frames : List Frame) (va : UInt64)
    (h : (twoPages frames).translation va ≠ none) : pageOf va ∈ (twoPages frames).registered := by
  have hpage : va.toNat / 4096 = 9 := by
    by_contra hne
    exact h (if_neg hne)
  have hval : (pageOf va).toNat = 9 * 4096 := by
    have hmod : (va % 0x1000).toNat = va.toNat % 4096 := UInt64.toNat_mod ..
    rw [pageOf, UInt64.toNat_sub_of_le _ _ (by rw [UInt64.le_iff_toNat_le, hmod]; omega), hmod]
    omega
  have heq : pageOf va = 0x9000 := by
    rw [← UInt64.toNat_inj, hval]
    rfl
  rw [Shelf.mem_registered, heq]
  show (0x9000 : UInt64) ∉ ([0x5000, 0x6000] : List UInt64)
  decide

/-- Without a free frame the first round fails, and nothing is left. -/
theorem allOrNothing_twoPages :
    AllOrNothing Shelf.multipleServices Shelf.translation Shelf.free Shelf.registered (.multiple 2)
      (twoPages []) [] :=
  (allOrNothing_iff Shelf.multipleServices_contract (twoPages_wellFormed [])
    (fun _ hpointer => by cases hpointer)
    ⟨0x5000, _, [], _, [], _, rfl, by decide, .zero, .alloc rfl, rfl⟩).mpr ⟨rfl, rfl⟩

/-- With one free frame the second round fails, and the frame is lost.  The functions that
use the pointer leave the pages registered even without a free frame. -/
theorem not_allOrNothing_twoPages :
    (∃ taken, FailsAt Shelf.multipleServices (.multiple 2) (twoPages [⟨0x1000, by decide⟩])
        1 taken ∧
      ¬ AllOrNothing Shelf.multipleServices Shelf.translation Shelf.free Shelf.registered
        (.multiple 2) (twoPages [⟨0x1000, by decide⟩]) taken) ∧
    (∃ taken, FailsAt Shelf.multipleServices (.multipleAfter 0 2 0x9008) (twoPages []) 0 taken ∧
      ¬ AllOrNothing Shelf.multipleServices Shelf.translation Shelf.free Shelf.registered
        (.multipleAfter 0 2 0x9008) (twoPages []) taken) := by
  constructor
  · have hfails : FailsAt Shelf.multipleServices (.multiple 2) (twoPages [⟨0x1000, by decide⟩]) 1
        [0x1000] :=
      ⟨0x5000, _, [0x1000], _, [], _, rfl, by decide,
        .succ .zero rfl (by decide) rfl (by decide) (by decide), .alloc rfl, rfl⟩
    exact ⟨_, hfails, not_allOrNothing_of_pos Shelf.multipleServices_contract hfails (by decide)⟩
  · have hfails : FailsAt Shelf.multipleServices (.multipleAfter 0 2 0x9008) (twoPages []) 0 [] :=
      ⟨0x5000, _, [], _, [], _, rfl, by decide, .zero, .alloc rfl, rfl⟩
    refine ⟨_, hfails, not_allOrNothing_of_pointer Shelf.multipleServices_contract
      (twoPages_wellFormed []) 0x9008 rfl ?_ hfails⟩
    show (if (0x9008 : UInt64).toNat / 4096 = 9 then some (0x2000 : UInt64) else none) ≠ none
    rw [if_pos (by decide)]
    exact nofun

end Betelgeuse
