/-
What the functions that allocate several pages map when they return 0
(`page_alloc_multiple...` in `kernel/memory.c`).

The rounds of the loop map different pages to different frames, and nothing else
(`Rounds.mapped`, `Rounds.frames_free`).  The functions that are called with a pointer map the
pages that lie 0, 8, 16, ... pages behind it, and these are the registered pages only if
there is one page and the pointer lies on it (`mapsRange_iff`).  The first of them is the
page of the client's variable, which has been written to and is mapped, so these functions
panic in their first round (`mapsRange_of_client`).
-/
import Betelgeuse.PageMultiple
import Betelgeuse.WordArith
import Mathlib.Data.Finset.Card

open WordArith

namespace Betelgeuse

variable {σ : Type*}

/-- The address that round `i` maps. -/
def roundPage (start stride : UInt64) (i : ℕ) : UInt64 := start + stride * (UInt64.ofNat i <<< 12)

/-- The first `n` pages are different pages that were not mapped in the state `s₀` and are
mapped to the given frames in the state `s`, and nothing else is different. -/
structure PagesMapped (translation : σ → UInt64 → Option UInt64) (page : ℕ → UInt64) (n : ℕ)
    (frames : List UInt64) (s₀ s : σ) : Prop where
  mapped : ∀ j < n, translation s (page j) = frames[j]?
  vacant : ∀ j < n, translation s₀ (page j) = none
  others : ∀ va, (∀ j < n, ¬ SamePage (page j) va) → translation s va = translation s₀ va
  different : ∀ j < n, ∀ k < n, SamePage (page j) (page k) → j = k

/-- What a call that has returned 0 should have done: it registers the pages from `frame`
on, maps each of them to a frame of its own that was free, and nothing else. -/
structure RangeMapped (translation : σ → UInt64 → Option UInt64) (free registered : σ → Set UInt64)
    (frame count : UInt64) (s s' : σ) : Prop where
  vacant : ∀ page ∈ pageRange frame count, page ∉ registered s
  registers : registered s' = registered s ∪ pageRange frame count
  maps : ∃ frames : List UInt64, frames.length = count.toNat ∧ frames.Nodup ∧
    (∀ physicalPage ∈ frames, physicalPage ∈ free s ∧ physicalPage ∉ free s') ∧
    ∀ i < count.toNat, translation s' (frame + UInt64.ofNat i <<< 12) = frames[i]?
  others : ∀ va, (∀ page ∈ pageRange frame count, ¬ SamePage page va) →
    translation s' va = translation s va

/-- If the call returns 0, it has mapped the pages that it has registered. -/
def MapsRange (S : MultipleServices σ) (translation : σ → UInt64 → Option UInt64)
    (free registered : σ → Set UInt64) (c : MultipleCall) (s : σ) : Prop :=
  ∀ written s', c.run S s = .returned 0 written s' →
    ∃ frame, written = some frame ∧
      RangeMapped translation free registered frame c.allocCount s s'

/-- The call registers the pages from `frame` on, and all its rounds succeed. -/
def Succeeds (S : MultipleServices σ) (c : MultipleCall) (s : σ) (frame : UInt64) (s' : σ) : Prop :=
  ∃ s₀ frames, c.virtualAlloc S s = (0, frame, s₀) ∧
    Rounds S (c.start frame) c.stride s₀ c.allocCount.toNat frames s'

/-! ### Rounds that succeed -/

section Rounds

variable {S : MultipleServices σ} {translation : σ → UInt64 → Option UInt64}
  {free registered : σ → Set UInt64} {start stride allocCount : UInt64} {s₀ s s' : σ} {i : ℕ}
  {frames : List UInt64} {written written' : Option UInt64} {c : MultipleCall} {frame : UInt64}

/-- One more page. -/
theorem PagesMapped.succ {page : ℕ → UInt64} {n : ℕ} {physicalPage : UInt64} {s₁ : σ}
    (hp : PagesMapped translation page n frames s₀ s) (hlen : frames.length = n)
    (hpage : ∀ s va va', SamePage va va' → translation s va = translation s va')
    (hnone : translation s (page n) = none) (hsome : translation s₁ (page n) = some physicalPage)
    (hother : ∀ va, ¬ SamePage (page n) va → translation s₁ va = translation s va) :
    PagesMapped translation page (n + 1) (frames ++ [physicalPage]) s₀ s₁ := by
  -- the earlier pages are mapped, so this is not one of them
  have hnew : ∀ j < n, ¬ SamePage (page n) (page j) := by
    intro j hj hsame
    have hmapped := hp.mapped j hj
    rw [← hpage s _ _ hsame, hnone, List.getElem?_eq_getElem (hlen ▸ hj)] at hmapped
    cases hmapped
  have hnew' : ∀ j < n, ¬ SamePage (page j) (page n) := fun j hj hsame => hnew j hj hsame.symm
  constructor
  · intro j hj
    rcases Nat.lt_succ_iff_lt_or_eq.mp hj with hlt | rfl
    · rw [hother _ (hnew j hlt), hp.mapped j hlt, List.getElem?_append_left (hlen ▸ hlt)]
    · rw [hsome, ← hlen, List.getElem?_concat_length]
  · intro j hj
    rcases Nat.lt_succ_iff_lt_or_eq.mp hj with hlt | rfl
    · exact hp.vacant j hlt
    · rw [← hp.others _ hnew', hnone]
  · intro va hva
    rw [hother va (hva n (Nat.lt_succ_self n)), hp.others va fun j hj => hva j (by omega)]
  · intro j hj k hk hsame
    rcases Nat.lt_succ_iff_lt_or_eq.mp hj with hlt | rfl
    · rcases Nat.lt_succ_iff_lt_or_eq.mp hk with hlt' | rfl
      · exact hp.different j hlt k hlt' hsame
      · exact absurd hsame (hnew' j hlt)
    · rcases Nat.lt_succ_iff_lt_or_eq.mp hk with hlt' | rfl
      · exact absurd hsame (hnew k hlt')
      · rfl

/-- If the loop returns 0, its rounds succeed. -/
theorem Rounds.of_returned : ∀ (n : ℕ) {i : ℕ} {frames : List UInt64} {s : σ},
    Rounds S start stride s₀ i frames s →
      S.allocRounds start stride allocCount written n (UInt64.ofNat i) s =
          .returned 0 written' s' →
        written' = written ∧ ∃ frames', Rounds S start stride s₀ (i + n) frames' s' := by
  -- a round that does not end the loop has allocated and mapped its page
  intro n
  induction n with
  | zero =>
    intro i frames s hr hrun
    obtain ⟨-, rfl, rfl⟩ := PageServices.AllocResult.returned.inj hrun
    exact ⟨rfl, frames, hr⟩
  | succ n ih =>
    intro i frames s hr hrun
    rcases hphys : S.pagePhysicalAlloc s with ⟨result, physicalPage, s₁⟩
    rcases hmap : S.pageMap (start + stride * (UInt64.ofNat i <<< 12)) physicalPage s₁ with
      ⟨result', s₂⟩
    simp only [MultipleServices.allocRounds, hphys, hmap] at hrun
    split at hrun
    · cases hrun
    · rename_i hne
      split at hrun
      · cases hrun
      · rename_i hfail
        split at hrun
        · cases hrun
        · rename_i hmapped
          have hnext : UInt64.ofNat i + 1 = UInt64.ofNat (i + 1) := by
            rw [UInt64.ofNat_add]
            rfl
          rw [hnext] at hrun
          obtain ⟨heq, frames', hr'⟩ := ih (hr.succ hphys hne hmap hfail hmapped) hrun
          exact ⟨heq, frames', by rwa [← Nat.add_assoc, Nat.add_right_comm]⟩

/-- A call returns 0 exactly if its rounds succeed. -/
theorem returned_zero_iff :
    c.run S s = .returned 0 written s' ↔
      ∃ frame, written = some frame ∧ Succeeds S c s frame s' := by
  rw [c.run_eq, MultipleServices.allocMultiple]
  rcases hvirt : c.virtualAlloc S s with ⟨result, frame, s₀⟩
  dsimp only
  constructor
  · intro hrun
    split at hrun
    · rename_i hne
      exact absurd (PageServices.AllocResult.returned.inj hrun).1 hne
    · rename_i hzero
      obtain rfl : result = 0 := not_not.mp hzero
      obtain ⟨rfl, frames, hr⟩ := Rounds.of_returned c.allocCount.toNat .zero hrun
      rw [Nat.zero_add] at hr
      exact ⟨frame, rfl, s₀, frames, hvirt, hr⟩
  · rintro ⟨frame', rfl, s₀', frames, hvirt', hr⟩
    rw [hvirt] at hvirt'
    obtain ⟨rfl, rfl, rfl⟩ : result = 0 ∧ frame = frame' ∧ s₀ = s₀' := by simpa using hvirt'
    rw [if_neg (not_not.mpr rfl), ← Nat.zero_add c.allocCount.toNat]
    exact hr.run 0

variable (h : S.Contract translation free registered)
include h

/-- Rounds that succeed map their pages to the frames that they take. -/
theorem Rounds.mapped (hr : Rounds S start stride s₀ i frames s) :
    PagesMapped translation (roundPage start stride) i frames s₀ s := by
  induction hr with
  | zero =>
    exact ⟨fun j hj => absurd hj (Nat.not_lt_zero j), fun j hj => absurd hj (Nat.not_lt_zero j),
      fun va _ => rfl, fun j hj => absurd hj (Nat.not_lt_zero j)⟩
  | succ hr hphys hne hmap hfail hmapped ih =>
    obtain ⟨-, -, -, hnone, hsome, hother⟩ := round_succ h hphys hne hmap hfail hmapped
    exact ih.succ (hr.taken h).1 h.translation_page hnone hsome hother

/-- The frames are different ones, and were free. -/
theorem Rounds.frames_free (hr : Rounds S start stride s₀ i frames s) :
    frames.Nodup ∧ (∀ physicalPage ∈ frames, physicalPage ∈ free s₀) ∧ free s ⊆ free s₀ ∧
      registered s = registered s₀ := by
  induction hr with
  | zero => exact ⟨List.nodup_nil, fun p hp => absurd hp List.not_mem_nil, subset_rfl, rfl⟩
  | @succ i frames s result physicalPage s' result' s'' hr hphys hne hmap hfail hmapped ih =>
    obtain ⟨hnodup, hfrom, hsub, hreg⟩ := ih
    obtain ⟨hreg', hin, hsub', -⟩ := round_succ h hphys hne hmap hfail hmapped
    have hnew : physicalPage ∉ frames := fun hmem => (hr.taken h).2 _ hmem hin
    refine ⟨List.nodup_append.mpr ⟨hnodup, List.nodup_singleton _, ?_⟩, ?_, ?_, hreg'.trans hreg⟩
    · intro p hp q hq heq
      rw [List.mem_singleton.mp hq] at heq
      exact hnew (heq ▸ hp)
    · intro p hp
      rcases List.mem_append.mp hp with hp | hp
      · exact hfrom p hp
      · rw [List.mem_singleton.mp hp]
        exact hsub hin
    · exact fun p hp => hsub (hsub' hp).1

end Rounds

/-! ### The registered pages and the mapped ones -/

/-- The page of the address of a round. -/
theorem roundPage_div (start stride : UInt64) (i : ℕ) :
    (roundPage start stride i).toNat / 4096 = (start.toNat / 4096 + stride.toNat * i) % 2 ^ 52 := by
  have hshift : (UInt64.ofNat i <<< 12).toNat = i * 4096 % 2 ^ 64 := by
    rw [toNat_shiftLeft (n := 12) rfl, UInt64.toNat_ofNat']
    omega
  rw [roundPage, UInt64.toNat_add, UInt64.toNat_mul, hshift, Nat.mul_mod_mod, Nat.add_mod_mod,
    ← Nat.mul_assoc]
  generalize stride.toNat * i = k
  omega

theorem page_div (frame : UInt64) (i : ℕ) :
    (frame + UInt64.ofNat i <<< 12).toNat / 4096 = (frame.toNat / 4096 + i) % 2 ^ 52 := by
  have hdiv := roundPage_div frame 1 i
  rwa [roundPage, UInt64.one_mul, UInt64.toNat_one, Nat.one_mul] at hdiv

section Calls

variable {S : MultipleServices σ} {translation : σ → UInt64 → Option UInt64}
  {free registered : σ → Set UInt64} {c : MultipleCall} {s s' : σ} {frame pointer : UInt64}

/-- What is left of a call that maps the pages `page i`: to be the registered ones. -/
theorem Succeeds.rangeMapped (h : S.Contract translation free registered)
    (hsucc : Succeeds S c s frame s')
    (hpage : ∀ i < c.allocCount.toNat,
      SamePage (roundPage (c.start frame) c.stride i) (frame + UInt64.ofNat i <<< 12)) :
    RangeMapped translation free registered frame c.allocCount s s' := by
  obtain ⟨s₀, frames, hvirt, hr⟩ := hsucc
  obtain ⟨hzero, hreg⟩ := (c.registersPages h).zero _ _ _ hvirt
  obtain ⟨htrans, hfree⟩ := (c.registersPages h).keeps s
  rw [hvirt] at htrans hfree
  dsimp only at htrans hfree
  obtain ⟨hnodup, hfrom, -, hreg'⟩ := hr.frames_free h
  obtain ⟨hlen, htaken⟩ := hr.taken h
  have hmapped := hr.mapped h
  refine ⟨fun page hin => (hzero page hin).1, hreg'.trans hreg,
    ⟨frames, hlen, hnodup, fun p hp => ⟨hfree ▸ hfrom p hp, htaken p hp⟩, fun i hi => ?_⟩,
    fun va hva => ?_⟩
  · rw [← h.translation_page s' _ _ (hpage i hi), hmapped.mapped i hi]
  · rw [hmapped.others va fun i hi hsame => ?_, htrans]
    exact hva _ ⟨i, hi, rfl⟩ ((hpage i hi).symm.trans hsame)

/-- The functions without a pointer map the registered pages. -/
theorem samePage_of_none (hpointer : c.pointer = none) (frame : UInt64) (i : ℕ) :
    SamePage (roundPage (c.start frame) c.stride i) (frame + UInt64.ofNat i <<< 12) := by
  rw [roundPage, MultipleCall.start, MultipleCall.stride, hpointer, if_pos rfl, Option.getD_none,
    UInt64.one_mul]
  exact rfl

/-- A call whose registered pages are mapped has mapped no other pages. -/
theorem Succeeds.samePage (h : S.Contract translation free registered)
    (hsucc : Succeeds S c s frame s')
    (hrange : RangeMapped translation free registered frame c.allocCount s s') :
    ∀ j < c.allocCount.toNat, ∃ k < c.allocCount.toNat,
      SamePage (roundPage (c.start frame) c.stride j) (frame + UInt64.ofNat k <<< 12) := by
  obtain ⟨s₀, frames, hvirt, hr⟩ := hsucc
  obtain ⟨htrans, -⟩ := (c.registersPages h).keeps s
  rw [hvirt] at htrans
  have hmapped := hr.mapped h
  have hlen := (hr.taken h).1
  intro j hj
  by_contra hnot
  have hsame := hrange.others (roundPage (c.start frame) c.stride j) fun page hpage hsame => by
    obtain ⟨k, hk, rfl⟩ := hpage
    exact hnot ⟨k, hk, hsame.symm⟩
  rw [hmapped.mapped j hj, ← htrans, hmapped.vacant j hj,
    List.getElem?_eq_getElem (hlen ▸ hj)] at hsame
  cases hsame

/-- As many different pages as there are registered ones are all of them. -/
theorem Succeeds.surjective (h : S.Contract translation free registered)
    (hsucc : Succeeds S c s frame s')
    (hrange : RangeMapped translation free registered frame c.allocCount s s') :
    ∀ k < c.allocCount.toNat, ∃ j < c.allocCount.toNat,
      SamePage (roundPage (c.start frame) c.stride j) (frame + UInt64.ofNat k <<< 12) := by
  have hpages := hsucc.samePage h hrange
  obtain ⟨s₀, frames, -, hr⟩ := hsucc
  have hmapped := hr.mapped h
  -- the pages that are mapped and those of the range, by their numbers
  let mapped := (Finset.range c.allocCount.toNat).image fun j =>
    (roundPage (c.start frame) c.stride j).toNat / 4096
  let range := (Finset.range c.allocCount.toNat).image fun k =>
    (frame + UInt64.ofNat k <<< 12).toNat / 4096
  have hsub : mapped ⊆ range := by
    intro page hpage
    obtain ⟨j, hj, rfl⟩ := Finset.mem_image.mp hpage
    obtain ⟨k, hk, hsame⟩ := hpages j (Finset.mem_range.mp hj)
    exact Finset.mem_image.mpr ⟨k, Finset.mem_range.mpr hk, hsame.symm⟩
  have hcard : mapped.card = c.allocCount.toNat := by
    have hinj : Set.InjOn (fun j => (roundPage (c.start frame) c.stride j).toNat / 4096)
        (Finset.range c.allocCount.toNat) := fun j hj k hk heq =>
      hmapped.different j (Finset.mem_range.mp hj) k (Finset.mem_range.mp hk) heq
    rw [Finset.card_image_of_injOn hinj, Finset.card_range]
  have hle : range.card ≤ mapped.card := by
    rw [hcard]
    exact Finset.card_image_le.trans_eq (Finset.card_range _)
  -- there are as many of the one kind as of the other
  have heq : mapped = range := Finset.eq_of_subset_of_card_le hsub hle
  intro k hk
  have hin : (frame + UInt64.ofNat k <<< 12).toNat / 4096 ∈ mapped := by
    rw [heq]
    exact Finset.mem_image.mpr ⟨k, Finset.mem_range.mpr hk, rfl⟩
  obtain ⟨j, hj, hsame⟩ := Finset.mem_image.mp hin
  exact ⟨j, Finset.mem_range.mp hj, hsame⟩

/-- A call with a pointer maps every eighth page, so there is one page. -/
theorem Succeeds.one_page (h : S.Contract translation free registered)
    (hsucc : Succeeds S c s frame s') (hpointer : c.pointer = some pointer)
    (hcount : 0 < c.allocCount.toNat)
    (hrange : RangeMapped translation free registered frame c.allocCount s s') :
    c.allocCount.toNat = 1 ∧ SamePage pointer frame := by
  have hpages := hsucc.surjective h hrange
  rw [MultipleCall.start, MultipleCall.stride, hpointer, Option.getD_some,
    if_neg (by simp)] at hpages
  have height : (8 : UInt64).toNat = 8 := rfl
  have hone : c.allocCount.toNat = 1 := by
    by_contra hne
    -- of two neighbours at most one lies a multiple of eight pages behind the pointer
    obtain ⟨j, -, hj⟩ := hpages 0 hcount
    obtain ⟨j', -, hj'⟩ := hpages 1 (by omega)
    rw [SamePage, roundPage_div, height, page_div] at hj hj'
    omega
  refine ⟨hone, ?_⟩
  obtain ⟨j, hj, hsame⟩ := hpages 0 hcount
  obtain rfl : j = 0 := by omega
  have hzero : UInt64.ofNat 0 <<< 12 = 0 := rfl
  rwa [roundPage, hzero, UInt64.mul_zero, UInt64.add_zero, UInt64.add_zero] at hsame

/-- A call that returns 0 maps the pages that it registers exactly if the function does not
use the pointer, or there is one page and the pointer lies on it. -/
theorem mapsRange_iff (h : S.Contract translation free registered) (c : MultipleCall) (s : σ)
    (hcount : 0 < c.allocCount) :
    MapsRange S translation free registered c s ↔
      ∀ pointer, c.pointer = some pointer → ∀ frame s', Succeeds S c s frame s' →
        c.allocCount = 1 ∧ SamePage pointer frame := by
  have hpos : 0 < c.allocCount.toNat := UInt64.lt_iff_toNat_lt.mp hcount
  constructor
  · intro hmaps pointer hpointer frame s' hsucc
    obtain ⟨frame', hframe, hrange⟩ := hmaps _ _ (returned_zero_iff.mpr ⟨frame, rfl, hsucc⟩)
    obtain rfl := Option.some.inj hframe
    obtain ⟨hone, hsame⟩ := hsucc.one_page h hpointer hpos hrange
    exact ⟨UInt64.toNat_inj.mp hone, hsame⟩
  · intro hright written s' hrun
    obtain ⟨frame, rfl, hsucc⟩ := returned_zero_iff.mp hrun
    refine ⟨frame, rfl, hsucc.rangeMapped h fun i hi => ?_⟩
    cases hpointer : c.pointer with
    | none => exact samePage_of_none hpointer frame i
    | some pointer =>
      obtain ⟨hone, hsame⟩ := hright pointer hpointer frame s' hsucc
      rw [hone] at hi
      obtain rfl : i = 0 := Nat.lt_one_iff.mp hi
      have hzero : UInt64.ofNat 0 <<< 12 = 0 := rfl
      rwa [roundPage, hzero, UInt64.mul_zero, UInt64.add_zero, UInt64.add_zero,
        MultipleCall.start, hpointer, Option.getD_some]

/-- With a pointer to mapped memory no round succeeds. -/
theorem not_succeeds_of_client (h : S.Contract translation free registered)
    (hpointer : c.pointer = some pointer) (hclient : translation s pointer ≠ none)
    (hcount : 0 < c.allocCount.toNat) : ¬ Succeeds S c s frame s' := by
  rintro ⟨s₀, frames, hvirt, hr⟩
  obtain ⟨htrans, -⟩ := (c.registersPages h).keeps s
  rw [hvirt] at htrans
  have hvacant := (hr.mapped h).vacant 0 hcount
  have hfirst : roundPage (c.start frame) c.stride 0 = pointer := by
    have hzero : UInt64.ofNat 0 <<< 12 = 0 := rfl
    rw [roundPage, MultipleCall.start, hpointer, Option.getD_some, hzero, UInt64.mul_zero,
      UInt64.add_zero]
  rw [hfirst, htrans] at hvacant
  exact hclient hvacant

/-- If a call returns 0, it has mapped the pages that it registers, given that the variable
that the client has it write to is mapped. -/
theorem mapsRange_of_client (h : S.Contract translation free registered) (c : MultipleCall)
    (s : σ) (hclient : ∀ pointer, c.pointer = some pointer → translation s pointer ≠ none)
    (hcount : 0 < c.allocCount) : MapsRange S translation free registered c s := by
  refine (mapsRange_iff h c s hcount).mpr fun pointer hpointer frame s' hsucc => ?_
  exact absurd hsucc (not_succeeds_of_client h hpointer (hclient pointer hpointer)
    (UInt64.lt_iff_toNat_lt.mp hcount))

end Calls

/-! ### Two pages -/

/-- `page_alloc_multiple` maps the two vacant pages, and `page_alloc_multiple_after` with
a variable that is mapped does not return 0. -/
theorem mapsRange_twoPages :
    MapsRange Shelf.multipleServices Shelf.translation Shelf.free Shelf.registered (.multiple 2)
        (twoPages [⟨0x1000, by decide⟩, ⟨0x3000, by decide⟩]) ∧
      MapsRange Shelf.multipleServices Shelf.translation Shelf.free Shelf.registered
        (.multipleAfter 0 2 0x9008) (twoPages [⟨0x1000, by decide⟩, ⟨0x3000, by decide⟩]) := by
  refine ⟨mapsRange_of_client Shelf.multipleServices_contract _ _ nofun (by decide),
    mapsRange_of_client Shelf.multipleServices_contract _ _ (fun pointer hpointer => ?_)
      (by decide)⟩
  obtain rfl := Option.some.inj hpointer
  show (if (0x9008 : UInt64).toNat / 4096 = 9 then some (0x2000 : UInt64) else none) ≠ none
  rw [if_pos (by decide)]
  exact nofun

end Betelgeuse
