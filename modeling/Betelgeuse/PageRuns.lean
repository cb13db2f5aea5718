/-
Runs of the page allocator (`kernel/memory.c`).

A kernel makes calls of the functions that allocate one page or several, and of those that
free them, in any order.  By the contracts of the functions that these call, each of them
is a sequence of moves of frames (`accounted_run`), although some of them map or free pages
that they should not.  So no run ever has two pages on one frame, or a page on a free
frame (`exclusive_run`).

On the other hand no call gives a frame back that was in use.  A run can allocate as many
pages as there are free frames at its start, and not more, whatever it frees in between
(`served_le_ncard`).
-/
import Betelgeuse.FrameLedger
import Betelgeuse.PageFreeMultiple
import Betelgeuse.PageSingle

open FrameLedger

namespace Betelgeuse

variable {σ : Type*}

/-- The functions for one page and for several. -/
structure KernelServices (σ : Type*) extends SingleServices σ, MultipleServices σ

/-- Their documented contracts; a call of `page_unmap` that does not return 0 has unmapped
nothing. -/
structure KernelServices.Contract (S : KernelServices σ)
    (translation : σ → UInt64 → Option UInt64) (free registered : σ → Set UInt64) : Prop where
  single : S.toSingleServices.Contract translation free registered
  multiple : S.toMultipleServices.Contract translation free registered
  unmap_other : ∀ va s, (S.pageUnmap va s).1 ≠ 0 →
    translation (S.pageUnmap va s).2.2 = translation s

/-- A call of one of the fourteen functions. -/
inductive AllocatorCall where
  | single (c : SingleCall)
  | multiple (c : MultipleCall)
  | free (frame : UInt64)
  | freeMultiple (frame count : UInt64)

/-- How many pages a call has allocated that should allocate `n`, and the state that it
leaves; `none` for a panic. -/
def PageServices.AllocResult.served (n : ℕ) : PageServices.AllocResult σ → Option (ℕ × σ)
  | .returned code _ s => some (if code = 0 then n else 0, s)
  | .panic => none

/-- Make a call. -/
def AllocatorCall.run (S : KernelServices σ) (s : σ) : AllocatorCall → Option (ℕ × σ)
  | single c => (c.run S.toSingleServices s).served 1
  | multiple c => (c.run S.toMultipleServices s).served c.allocCount.toNat
  | free frame => some (0, S.pageFree frame s)
  | freeMultiple frame count => some (0, S.toMultipleServices.pageFreeMultiple frame count s)

/-- Make the calls one after the other: the pages that they have allocated, and the state
that they leave. -/
def runCalls (S : KernelServices σ) : List AllocatorCall → σ → Option (ℕ × σ)
  | [], s => some (0, s)
  | c :: cs, s => do
    let (n, s) ← c.run S s
    let (m, s) ← runCalls S cs s
    return (n + m, s)

/-- Every page has a frame of its own, which is not free. -/
structure Exclusive (translation : σ → UInt64 → Option UInt64) (free : σ → Set UInt64) (s : σ) :
    Prop where
  alone : ∀ va va' frame, translation s va = some frame → translation s va' = some frame →
    SamePage va va'
  not_free : ∀ va frame, translation s va = some frame → frame ∉ free s

/-! ### Moves -/

section Moves

variable {translation : σ → UInt64 → Option UInt64} {free registered : σ → Set UInt64}
  {s s' s₁ s₂ : σ} {hand : Set UInt64} {va frame physicalPage : UInt64}

/-- The account of a state, with the frames in a hand. -/
def ledger (translation : σ → UInt64 → Option UInt64) (free : σ → Set UInt64) (s : σ)
    (hand : Set UInt64) : Ledger UInt64 UInt64 := ⟨free s, translation s, hand⟩

theorem samePage_equivalence : Equivalence SamePage where
  refl _ := rfl
  symm h := Eq.symm h
  trans h h' := Eq.trans h h'

theorem ledger_congr (htrans : translation s' = translation s) (hfree : free s' = free s) :
    ledger translation free s' hand = ledger translation free s hand := by
  rw [ledger, ledger, htrans, hfree]

theorem Exclusive.sound (h : Exclusive translation free s) :
    Sound SamePage (ledger translation free s ∅) where
  alone := h.alone
  use_free := h.not_free
  hand_free _ hf := absurd hf (Set.notMem_empty _)
  hand_use _ hf := absurd hf (Set.notMem_empty _)

theorem exclusive_of_sound (h : Sound SamePage (ledger translation free s ∅)) :
    Exclusive translation free s := ⟨h.alone, h.use_free⟩

/-- What is free after moves that end with empty hands. -/
theorem free_subset_of_moves
    (h : Moves SamePage (ledger translation free s ∅) (ledger translation free s' ∅)) :
    free s' ⊆ free s := by
  have hshrinks := h.shrinks
  rwa [ledger, ledger, Set.union_empty, Set.union_empty] at hshrinks

section Frames

variable {S : FrameServices σ} (h : S.Contract translation free)
include h

/-- `page_physical_alloc` takes a frame. -/
theorem moves_alloc (halloc : S.pagePhysicalAlloc s = (0, physicalPage, s₁)) :
    physicalPage &&& addrMask = physicalPage ∧
      Moves SamePage (ledger translation free s ∅) (ledger translation free s₁ {physicalPage}) := by
  obtain ⟨hmem, hmasked, hfree, htrans⟩ := h.alloc_zero _ _ _ halloc
  have htake : Move SamePage (ledger translation free s ∅)
      ⟨free s \ {physicalPage}, translation s, insert physicalPage ∅⟩ := .take hmem
  rw [insert_empty_eq, ← hfree, ← htrans] at htake
  exact ⟨hmasked, .single htake⟩

theorem moves_alloc_fail (halloc : S.pagePhysicalAlloc s = (-1, physicalPage, s₁)) :
    ledger translation free s₁ hand = ledger translation free s hand :=
  ledger_congr (h.alloc_fail _ _ _ halloc).2 (h.alloc_fail _ _ _ halloc).1

/-- `page_physical_free` puts it back. -/
theorem moves_physicalFree (hmasked : physicalPage &&& addrMask = physicalPage) :
    Moves SamePage (ledger translation free s {physicalPage})
      (ledger translation free (S.pagePhysicalFree physicalPage s) ∅) := by
  refine .single ?_
  rw [ledger, ledger, h.free_translation, h.free_frame _ _ hmasked,
    ← Set.sdiff_self (s := {physicalPage})]
  exact .putBack rfl

/-- `page_map` brings it to a page, and loses the frames of new tables. -/
theorem moves_map (hmasked : physicalPage &&& addrMask = physicalPage)
    (hmap : S.pageMap va physicalPage s = (0, s')) :
    Moves SamePage (ledger translation free s {physicalPage}) (ledger translation free s' ∅) := by
  obtain ⟨hnone, hsome, hothers, hfree⟩ := h.map_zero _ _ _ _ hmap
  have hchange : Changes SamePage (translation s) (translation s') va (some physicalPage) :=
    ⟨fun q hq => by rw [← h.translation_page s' va q hq, hsome, hmasked], hothers⟩
  have hmove : Move SamePage (ledger translation free s {physicalPage})
      ⟨free s, translation s', {physicalPage} \ {physicalPage}⟩ := .map rfl hnone hchange
  refine (Relation.ReflTransGen.single hmove).tail (.lose hfree ?_)
  rw [Set.sdiff_self]

theorem moves_map_fail (hmap : S.pageMap va physicalPage s = (-1, s')) :
    Moves SamePage (ledger translation free s hand) (ledger translation free s' hand) := by
  obtain ⟨htrans, hfree⟩ := h.map_fail _ _ _ _ hmap
  refine .single ?_
  rw [ledger, ledger, htrans]
  exact .lose hfree subset_rfl

/-- `page_unmap` takes the frame away from a page, and nobody has it from then on. -/
theorem moves_unmap (hother : (S.pageUnmap va s).1 ≠ 0 →
      translation (S.pageUnmap va s).2.2 = translation s) :
    Moves SamePage (ledger translation free s hand)
      (ledger translation free (S.pageUnmap va s).2.2 hand) := by
  by_cases hzero : (S.pageUnmap va s).1 = 0
  · obtain ⟨-, hnone, hothers⟩ := h.unmap_zero va s _ _ (Prod.ext hzero rfl)
    refine .single ?_
    rw [ledger, ledger, h.unmap_free]
    refine .unmap (p := va) ⟨fun q hq => ?_, hothers⟩
    rw [← h.translation_page _ va q hq, hnone]
  · rw [ledger_congr (hother hzero) (h.unmap_free va s)]

/-- A frame that is taken and mapped is spent. -/
theorem moves_alloc_map (halloc : S.pagePhysicalAlloc s = (0, physicalPage, s₁))
    (htrans : translation s₂ = translation s₁) (hfree : free s₂ = free s₁)
    (hmap : S.pageMap va physicalPage s₂ = (0, s')) :
    Moves SamePage (ledger translation free s ∅) (ledger translation free s' ∅) ∧
      Spends 1 (free s) (free s') := by
  obtain ⟨hmasked, hmoves⟩ := moves_alloc h halloc
  obtain ⟨hmem, -, hfree₁, -⟩ := h.alloc_zero _ _ _ halloc
  obtain ⟨-, -, -, hfree'⟩ := h.map_zero _ _ _ _ hmap
  rw [← ledger_congr htrans hfree] at hmoves
  refine ⟨hmoves.trans (moves_map h hmasked hmap), spends_one hmem ?_⟩
  rwa [hfree, hfree₁] at hfree'

end Frames

end Moves

/-! ### One page -/

section Calls

variable {translation : σ → UInt64 → Option UInt64} {free registered : σ → Set UInt64} {s s' : σ}
  {code : ℤ} {written written' : Option UInt64}

/-- What has happened to the frames when `n` pages have been allocated. -/
def Accounted (translation : σ → UInt64 → Option UInt64) (free : σ → Set UInt64) (n : ℕ)
    (s s' : σ) : Prop :=
  Moves SamePage (ledger translation free s ∅) (ledger translation free s' ∅) ∧
    Spends n (free s) (free s')

theorem accounted_zero
    (h : Moves SamePage (ledger translation free s ∅) (ledger translation free s' ∅)) :
    Accounted translation free 0 s s' := ⟨h, spends_zero (free_subset_of_moves h)⟩

theorem Accounted.trans {s'' : σ} {n m : ℕ} (h : Accounted translation free n s s')
    (h' : Accounted translation free m s' s'') : Accounted translation free (n + m) s s'' :=
  ⟨h.1.trans h'.1, h.2.trans h'.2⟩

/-- The functions for one page. -/
theorem accounted_single {S : SingleServices σ} (h : S.Contract translation free registered)
    {c : SingleCall} (hcall : c.run S s = .returned code written s') :
    Accounted translation free (if code = 0 then 1 else 0) s s' := by
  obtain ⟨codes, hregisters⟩ := c.registersPage h
  rcases halloc : S.pagePhysicalAlloc s with ⟨result, physicalPage, s₁⟩
  rcases hvirt : c.virtualAlloc S s₁ with ⟨result', va, s₂⟩
  rcases hmap : S.pageMap (c.address va) physicalPage s₂ with ⟨result'', s₃⟩
  have hcode := h.alloc_code s
  have hkeeps := hregisters.keeps s₁
  have hcode' := h.map_code (c.address va) physicalPage s₂
  rw [halloc] at hcode
  rw [hvirt] at hkeeps
  rw [hmap] at hcode'
  rw [c.run_eq h, PageServices.allocPage] at hcall
  simp only [halloc, hvirt, hmap] at hcall
  split at hcall
  · next hfail =>
    -- there is no frame
    subst hfail
    cases hcall
    rw [if_neg (by decide)]
    refine accounted_zero ?_
    rw [moves_alloc_fail h.toContract halloc]
  next hsuccess =>
  obtain rfl := hcode.resolve_right hsuccess
  obtain ⟨hmasked, hmoves⟩ := moves_alloc h.toContract halloc
  rw [← ledger_congr hkeeps.1 hkeeps.2] at hmoves
  split at hcall
  · next hfail =>
    -- no page is registered
    cases hcall
    rw [if_neg hfail]
    exact accounted_zero (hmoves.trans (moves_physicalFree h.toContract hmasked))
  split at hcall
  · cases hcall
  next hmapped =>
  split at hcall
  · next hfail =>
    -- the page is not mapped
    subst hfail
    cases hcall
    rw [if_neg (by decide)]
    have hvirtual := h.virtualFree (c.address va) (S.pagePhysicalFree physicalPage s₃)
    refine accounted_zero ?_
    rw [ledger_congr hvirtual.2.1 hvirtual.2.2]
    exact (hmoves.trans (moves_map_fail h.toContract hmap)).trans
      (moves_physicalFree h.toContract hmasked)
  · next hfail =>
    obtain rfl := hcode'.resolve_right fun hor => hor.elim hmapped hfail
    cases hcall
    rw [if_pos rfl]
    exact moves_alloc_map h.toContract halloc hkeeps.1 hkeeps.2 hmap

/-- `page_free`. -/
theorem moves_pageFree {S : PageServices σ} (h : S.Contract translation free registered)
    (hother : ∀ va s, (S.pageUnmap va s).1 ≠ 0 →
      translation (S.pageUnmap va s).2.2 = translation s) (frame : UInt64) (s : σ) :
    Moves SamePage (ledger translation free s ∅)
      (ledger translation free (S.pageFree frame s) ∅) := by
  have hunmap : Moves SamePage (ledger translation free s ∅)
      (ledger translation free (S.pageUnmap frame s).2.2 ∅) :=
    moves_unmap h.toContract (hother frame s)
  unfold PageServices.pageFree
  dsimp only
  split
  · exact hunmap
  · have hvirtual := h.virtualFree frame (S.pageUnmap frame s).2.2
    rw [ledger_congr hvirtual.2.1 hvirtual.2.2]
    exact hunmap

/-! ### Several pages -/

section Multiple

variable {S : MultipleServices σ} (h : S.Contract translation free registered)
  (hother : ∀ va s, (S.pageUnmap va s).1 ≠ 0 → translation (S.pageUnmap va s).2.2 = translation s)
include h hother

/-- The rounds of `page_free_multiple`, also on the way out of a call that has a frame in its
hand. -/
theorem moves_pageFreeMultiple (frame count : UInt64) (hand : Set UInt64) (s : σ) :
    Moves SamePage (ledger translation free s hand)
      (ledger translation free (S.pageFreeMultiple frame count s) hand) := by
  have hround : ∀ (s : σ) (i : ℕ), Moves SamePage (ledger translation free s hand)
      (ledger translation free (S.freeRound frame s i) hand) := by
    intro s i
    have hunmap : Moves SamePage (ledger translation free s hand)
        (ledger translation free (S.pageUnmap (frame + UInt64.ofNat i <<< 12) s).2.2 hand) :=
      moves_unmap h.toContract (hother (frame + UInt64.ofNat i <<< 12) s)
    unfold MultipleServices.freeRound
    dsimp only
    split
    · exact hunmap
    · have hvirtual := h.virtualFree frame (S.pageUnmap (frame + UInt64.ofNat i <<< 12) s).2.2
      rw [ledger_congr hvirtual.2.1 hvirtual.2.2]
      exact hunmap
  have hall : ∀ (l : List ℕ) (s : σ), Moves SamePage (ledger translation free s hand)
      (ledger translation free (l.foldl (S.freeRound frame) s) hand) := by
    intro l
    induction l with
    | nil => exact fun s => .refl
    | cons i l ih => exact fun s => (hround s i).trans (ih _)
  exact hall _ s

theorem moves_freeMapped (frame i : UInt64) (hand : Set UInt64) (s : σ) :
    Moves SamePage (ledger translation free s hand)
      (ledger translation free (S.freeMapped frame i s) hand) := by
  unfold MultipleServices.freeMapped
  split
  · exact moves_pageFreeMultiple h hother frame i hand s
  · exact .refl

/-- The rounds of the loop that maps the pages. -/
theorem accounted_allocRounds {start stride allocCount : UInt64} : ∀ {n : ℕ} {i : UInt64} {s : σ},
    S.allocRounds start stride allocCount written n i s = .returned code written' s' →
      Accounted translation free (if code = 0 then n else 0) s s' := by
  intro n
  induction n with
  | zero =>
    intro i s hcall
    cases hcall
    rw [if_pos rfl]
    exact accounted_zero .refl
  | succ n ih =>
    intro i s hcall
    rcases halloc : S.pagePhysicalAlloc s with ⟨result, physicalPage, s₁⟩
    rcases hmap : S.pageMap (start + stride * (i <<< 12)) physicalPage s₁ with ⟨result', s₂⟩
    have hcode := h.alloc_code s
    have hcode' := h.map_code (start + stride * (i <<< 12)) physicalPage s₁
    rw [halloc] at hcode
    rw [hmap] at hcode'
    simp only [MultipleServices.allocRounds, halloc, hmap] at hcall
    split at hcall
    · next hfail =>
      -- there is no frame for the page
      subst hfail
      cases hcall
      rw [if_neg (by decide)]
      have hkeeps := h.freeMultiple_keeps (start + stride * (i <<< 12)) (allocCount - i)
        (S.freeMapped start i s₁)
      refine accounted_zero ?_
      rw [ledger_congr hkeeps.1 hkeeps.2, ← moves_alloc_fail h.toContract halloc]
      exact moves_freeMapped h hother start i ∅ s₁
    next hsuccess =>
    obtain rfl := hcode.resolve_right hsuccess
    obtain ⟨hmasked, hmoves⟩ := moves_alloc h.toContract halloc
    split at hcall
    · next hfail =>
      -- the page is not mapped
      subst hfail
      cases hcall
      rw [if_neg (by decide)]
      have hkeeps := h.freeMultiple_keeps (start + stride * (i <<< 12)) (allocCount - i)
        (S.pagePhysicalFree physicalPage (S.freeMapped start i s₂))
      refine accounted_zero ?_
      rw [ledger_congr hkeeps.1 hkeeps.2]
      exact ((hmoves.trans (moves_map_fail h.toContract hmap)).trans
        (moves_freeMapped h hother start i {physicalPage} s₂)).trans
          (moves_physicalFree h.toContract hmasked)
    next hfail =>
    split at hcall
    · cases hcall
    next hmapped =>
    obtain rfl := hcode'.resolve_right fun hor => hor.elim hmapped hfail
    have hround : Accounted translation free 1 s s₂ :=
      moves_alloc_map h.toContract halloc rfl rfl hmap
    have hrest := hround.trans (ih hcall)
    split
    · next hzero =>
      rwa [if_pos hzero, Nat.add_comm] at hrest
    · exact accounted_zero hrest.1

theorem accounted_multiple {c : MultipleCall} (hcall : c.run S s = .returned code written s') :
    Accounted translation free (if code = 0 then c.allocCount.toNat else 0) s s' := by
  obtain ⟨htrans, hfree⟩ := (c.registersPages h).keeps s
  rw [MultipleCall.run_eq, MultipleServices.allocMultiple] at hcall
  rcases hvirt : c.virtualAlloc S s with ⟨result, frame, s₀⟩
  rw [hvirt] at hcall htrans hfree
  dsimp only at hcall htrans hfree
  split at hcall
  · next hfail =>
    cases hcall
    rw [if_neg hfail]
    refine accounted_zero ?_
    rw [ledger_congr htrans hfree]
  · have hrounds := accounted_allocRounds h hother hcall
    rwa [Accounted, hfree, ledger_congr htrans hfree] at hrounds

end Multiple

/-! ### Runs -/

variable {S : KernelServices σ} {cs : List AllocatorCall} {n : ℕ}

/-- What one call does. -/
theorem accounted_run (h : S.Contract translation free registered) {c : AllocatorCall}
    (hcall : c.run S s = some (n, s')) : Accounted translation free n s s' := by
  cases c with
  | single c =>
    cases hresult : c.run S.toSingleServices s with
    | panic =>
      rw [AllocatorCall.run, hresult] at hcall
      cases hcall
    | returned code written s'' =>
      rw [AllocatorCall.run, hresult] at hcall
      cases hcall
      exact accounted_single h.single hresult
  | multiple c =>
    cases hresult : c.run S.toMultipleServices s with
    | panic =>
      rw [AllocatorCall.run, hresult] at hcall
      cases hcall
    | returned code written s'' =>
      rw [AllocatorCall.run, hresult] at hcall
      cases hcall
      exact accounted_multiple h.multiple h.unmap_other hresult
  | free frame =>
    cases hcall
    exact accounted_zero (moves_pageFree h.single.toPage h.unmap_other frame s)
  | freeMultiple frame count =>
    cases hcall
    exact accounted_zero (moves_pageFreeMultiple h.multiple h.unmap_other frame count ∅ s)

/-- What a run does. -/
theorem accounted_runCalls (h : S.Contract translation free registered) :
    ∀ {cs : List AllocatorCall}
    {n : ℕ} {s : σ}, runCalls S cs s = some (n, s') → Accounted translation free n s s' := by
  intro cs
  induction cs with
  | nil =>
    intro n s hrun
    cases hrun
    exact accounted_zero .refl
  | cons c cs ih =>
    intro n s hrun
    obtain ⟨⟨m, s₁⟩, hcall, hrun⟩ := Option.bind_eq_some_iff.mp hrun
    obtain ⟨⟨k, s₂⟩, hrest, hrun⟩ := Option.bind_eq_some_iff.mp hrun
    cases hrun
    exact (accounted_run h hcall).trans (ih hrest)

/-- The shelf has all of the functions. -/
def Shelf.kernelServices : KernelServices Shelf :=
  { Shelf.singleServices, Shelf.multipleServices with }

theorem Shelf.kernelServices_contract :
    kernelServices.Contract Shelf.translation Shelf.free Shelf.registered where
  single := Shelf.singleServices_contract
  multiple := Shelf.multipleServices_contract
  unmap_other va s hcode := by
    cases hva : s.translation va with
    | none =>
      show Shelf.translation (Shelf.services.pageUnmap va s).2.2 = _
      simp only [Shelf.services, hva]
    | some pa => exact absurd (Shelf.unmap_mapped s va (by simp [hva])) hcode

/-- In no run two pages come to share a frame, or a page comes to use a frame that is free,
and no frame comes back that was in use. -/
theorem exclusive_run (h : S.Contract translation free registered)
    (hstart : Exclusive translation free s) (hrun : runCalls S cs s = some (n, s')) :
    Exclusive translation free s' ∧ free s' ⊆ free s := by
  obtain ⟨hmoves, -⟩ := accounted_runCalls h hrun
  exact ⟨exclusive_of_sound (hmoves.sound samePage_equivalence hstart.sound),
    free_subset_of_moves hmoves⟩

/-- A page is allocated and freed again. -/
theorem exclusive_run_oneFrameShelf :
    ∃ s', runCalls Shelf.kernelServices [.single .alloc, .free 0x80000] oneFrameShelf =
        some (1, s') ∧
      Exclusive Shelf.translation Shelf.free s' ∧ Shelf.free s' ⊆ Shelf.free oneFrameShelf := by
  have hstart : Exclusive Shelf.translation Shelf.free oneFrameShelf :=
    ⟨fun _ _ _ hva => (nomatch hva), fun _ _ hva => (nomatch hva)⟩
  have hrun : runCalls Shelf.kernelServices [.single .alloc, .free 0x80000] oneFrameShelf =
      some (1, Shelf.kernelServices.pageFree 0x80000 oneFrameShelfAllocated) := rfl
  exact ⟨_, hrun, exclusive_run Shelf.kernelServices_contract hstart hrun⟩

/-- There are finitely many addresses. -/
theorem finite_of_addresses (A : Set UInt64) : A.Finite := by
  have hfinite : Finite UInt64 := Finite.of_injective UInt64.toFin fun _ _ => UInt64.toFin_inj.mp
  exact Set.toFinite A

/-- However many pages are freed in between, a run allocates at most as many pages as there
are free frames when it starts. -/
theorem served_le_ncard (h : S.Contract translation free registered)
    (hrun : runCalls S cs s = some (n, s')) : n ≤ (free s).ncard :=
  (accounted_runCalls h hrun).2.le_ncard (finite_of_addresses _)

/-- With one free frame it is one page, although `page_free` comes before the second call. -/
theorem served_le_ncard_oneFrameShelf :
    ∃ s', runCalls Shelf.kernelServices [.single .alloc, .free 0x80000, .single .alloc]
        oneFrameShelf = some (1, s') ∧ 1 ≤ (Shelf.free oneFrameShelf).ncard := by
  have hrun : runCalls Shelf.kernelServices [.single .alloc, .free 0x80000, .single .alloc]
      oneFrameShelf = some (1, Shelf.kernelServices.pageFree 0x80000 oneFrameShelfAllocated) := rfl
  exact ⟨_, hrun, served_le_ncard Shelf.kernelServices_contract hrun⟩

end Calls

end Betelgeuse
