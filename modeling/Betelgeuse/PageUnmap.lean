/-
`page_unmap` after `page_map`.

On a mapped address `page_unmap` walks the same tables as `page_map`, though it
reads the PML4 at its physical address, and removes the page and no other
(`pageUnmap_removes`), so that after a successful `page_map` it restores the
translation (`pageMap_pageUnmap`).  But it never looks at a present bit, never
writes `*physical_address` and ends without a `return`: the documented round
trip (`RoundTrip`) holds of no address that is not mapped yet.
-/
import Betelgeuse.PageMap

open PageTree

namespace Betelgeuse

namespace Machine

variable {σ : Type*} {p : Platform σ} {s : Machine σ} {ram : Set Frame} {taken : σ → Set Frame}
  {root : Frame} {va : UInt64}

/-- The round trip of `page_map` and `page_unmap` as documented: after a successful
`page_map`, `page_unmap` returns 0, gives the physical address back and restores
the translation; of an unmapped page it returns 1 and writes no memory. -/
structure RoundTrip (p : Platform σ) (s : Machine σ) (root : Frame) (va pa : UInt64) : Prop where
  after_map : ∀ s', s.pageMap p va pa = (0, s') →
    (s'.pageUnmap p va).code = some 0 ∧
      (s'.pageUnmap p va).physicalAddress = some (pa &&& addrMask) ∧
      ∀ va', translate (s'.pageUnmap p va).machine.mem root va' = translate s.mem root va'
  unmapped : translate s.mem root va = none →
    (s.pageUnmap p va).code = some 1 ∧ (s.pageUnmap p va).machine = s

theorem read_direct (hp : p.Sound s.offset ram taken) {g : Frame} (hg : g ∈ ram) (j : Fin 512) :
    s.read p g.addr (UInt64.ofNat j.val) = word s.mem g j := by
  rw [read, hp.direct g hg j, word]

/-- Outside the mirrored range `page_unmap` returns nothing. -/
theorem pageUnmap_code (hout : ¬ s.InPhysicalMap va) :
    (s.pageUnmap p va).code = none ∧ (s.pageUnmap p va).physicalAddress = none := by
  rw [pageUnmap, if_neg hout]
  exact ⟨rfl, rfl⟩

theorem leaf_ne_none (h : translate s.mem root va ≠ none) : s.leaf root (vaPath va) ≠ none := by
  intro hnone
  rw [translate_eq, hnone] at h
  exact h rfl

/-- On a mapped address `page_unmap` removes the page and no other. -/
theorem pageUnmap_removes (hp : p.Sound s.offset ram taken) (h : s.Ready ram taken root va)
    (hva : Canonical va) (hmapped : translate s.mem root va ≠ none)
    (hout : ¬ s.InPhysicalMap va) :
    (s.pageUnmap p va).machine.Ready ram taken root va ∧
      translate (s.pageUnmap p va).machine.mem root va = none ∧
      ∀ va', Canonical va' → va'.toNat / 4096 ≠ va.toNat / 4096 →
        translate (s.pageUnmap p va).machine.mem root va' = translate s.mem root va' := by
  have hleaf := leaf_ne_none hmapped
  set i4 := toIndex (vaGetPml4Index va) with hi4
  set i3 := toIndex (vaGetPdpIndex va) with hi3
  set i2 := toIndex (vaGetPdIndex va) with hi2
  set i1 := toIndex (vaGetPtIndex va) with hi1
  have e4 : vaGetPml4Index va = UInt64.ofNat i4.val := (ofNat_toIndex (vaGetPml4Index_lt va)).symm
  have e3 : vaGetPdpIndex va = UInt64.ofNat i3.val := (ofNat_toIndex (vaGetPdpIndex_lt va)).symm
  have e2 : vaGetPdIndex va = UInt64.ofNat i2.val := (ofNat_toIndex (vaGetPdIndex_lt va)).symm
  have e1 : vaGetPtIndex va = UInt64.ofNat i1.val := (ofNat_toIndex (vaGetPtIndex_lt va)).symm
  have hpath : vaPath va = [i4, i3, i2, i1] := rfl
  have hroot : s.table root [] = some root := tableAt_nil _ _ _ _
  -- one level of the walk: the entry links the next table
  have hlevel : ∀ π j ρ g, vaPath va = π ++ j :: ρ → ρ ≠ [] → s.table root π = some g →
      ∃ f, s.table root (π ++ [j]) = some f ∧ word s.mem g j &&& addrMask = f.addr := by
    intro π j ρ g hπ hρ hg
    obtain ⟨f, hf⟩ := h.table_of_present hπ hρ hg (present_of_leaf hπ hg hleaf)
    exact ⟨f, hf, addr_of_table hg hf⟩
  obtain ⟨f₃, ht₃, ha₃⟩ := hlevel [] i4 [i3, i2, i1] root hpath (by simp) hroot
  obtain ⟨f₂, ht₂, ha₂⟩ := hlevel [i4] i3 [i2, i1] f₃ hpath (by simp) ht₃
  obtain ⟨g, ht₁, ha₁⟩ := hlevel [i4, i3] i2 [i1] f₂ hpath (by simp) ht₂
  have hroot_ram := h.in_ram _ root hroot
  have hg_ram := h.in_ram _ g ht₁
  have hmachine : (s.pageUnmap p va).machine =
      s.write p (g.addr + s.offset) (UInt64.ofNat i1.val) (word s.mem g i1 &&& ~~~presentFlag) := by
    simp only [pageUnmap, if_neg hout, e4, e3, e2, e1, h.root_eq, read_direct hp hroot_ram, ha₃,
      read_mirrored hp (h.in_ram _ f₃ ht₃), ha₂, read_mirrored hp (h.in_ram _ f₂ ht₂), ha₁,
      read_mirrored hp hg_ram]
  have hmem : ∀ f i, word (s.pageUnmap p va).machine.mem f i =
      if f = g ∧ i = i1 then word s.mem g i1 &&& ~~~presentFlag else word s.mem f i := by
    intro f i
    rw [hmachine]
    exact word_write (hp.mirrored g hg_ram i1)
  obtain ⟨hready, -, hset⟩ := h.setLeaf (π := [i4, i3, i2]) (j := i1) hpath ht₁
    (by rw [hmachine]; rfl : (s.pageUnmap p va).machine.allocator = s.allocator)
    (by rw [hmachine]; rfl) hmem
  refine ⟨hready, ?_, fun va' hva' hpage => ?_⟩
  · have habs : (word s.mem g i1 &&& ~~~presentFlag) &&& presentFlag = 0 := by
      rw [UInt64.and_assoc, show ~~~presentFlag &&& presentFlag = 0 by decide, UInt64.and_zero]
    rw [translate_eq, hset _ rfl, if_pos rfl, lookup_of_absent (decode_eq_absent (by
      rw [hmem, if_pos ⟨rfl, rfl⟩, habs]))]
    rfl
  · have hne : vaPath va' ≠ vaPath va := fun heq => hpage (page_eq_of_vaPath_eq hva' hva heq)
    rw [translate_eq, translate_eq, hset _ rfl, if_neg hne]

/-- `page_unmap` after a successful `page_map` restores the translation. -/
theorem pageMap_pageUnmap (hp : p.Sound s.offset ram taken) (h : s.Ready ram taken root va)
    (hva : Canonical va) (hout : ¬ s.InPhysicalMap va) {pa : UInt64} {s' : Machine σ}
    (hmap : s.pageMap p va pa = (0, s')) :
    ∀ va', Canonical va' →
      translate (s'.pageUnmap p va).machine.mem root va' = translate s.mem root va' := by
  obtain ⟨code, s'', hs'', hoffset, hready, hcase⟩ := h.pageMap_translation hp hva pa
  obtain ⟨rfl, rfl⟩ := Prod.mk.inj (hmap.symm.trans hs'')
  rcases hcase with ⟨-, hnone, hsome, hothers⟩ | ⟨hone, -⟩ | ⟨hfail, -⟩
  · obtain ⟨-, hremoved, hkept⟩ := pageUnmap_removes (hoffset ▸ hp) hready hva (by simp [hsome])
      (by rwa [InPhysicalMap, hoffset])
    intro va' hva'
    by_cases hpage : va'.toNat / 4096 = va.toNat / 4096
    · have hsame : ∀ m : UInt64 → UInt64, translate m root va' = translate m root va := by
        intro m
        rw [translate, translate, vaPath_eq_of_page_eq hpage]
      rw [hsame, hsame, hremoved, hnone]
    · rw [hkept va' hva' hpage, hothers va' hva' hpage]
  · omega
  · omega

/-- The documented round trip holds of exactly the addresses that are mapped
already, of which it says nothing. -/
theorem roundTrip_iff (hp : p.Sound s.offset ram taken) (h : s.Ready ram taken root va)
    (hout : ¬ s.InPhysicalMap va) (pa : UInt64) :
    RoundTrip p s root va pa ↔ translate s.mem root va ≠ none := by
  constructor
  · intro htrip hnone
    have hcode := (htrip.unmapped hnone).1
    rw [(pageUnmap_code hout).1] at hcode
    cases hcode
  · intro hmapped
    refine ⟨fun s' hs' => ?_, fun hnone => absurd hnone hmapped⟩
    rw [(h.pageMap_mapped hp (leaf_ne_none hmapped) pa).1] at hs'
    have hcode := congrArg Prod.fst hs'
    simp at hcode

end Machine

/-- The round trip in the empty tables, where no page is mapped. -/
theorem roundTrip_emptyMachine_iff :
    Machine.RoundTrip freeListPlatform emptyMachine emptyRoot 0x400000 0xABC000 ↔
      translate emptyMachine.mem emptyRoot 0x400000 ≠ none :=
  Machine.roundTrip_iff freeListPlatform_sound (emptyMachine_ready 0x400000) (by decide) 0xABC000

/-- An unmapped page: `page_unmap` does not say so. -/
theorem not_roundTrip_emptyMachine :
    ¬ Machine.RoundTrip freeListPlatform emptyMachine emptyRoot 0x400000 0xABC000 := by
  intro htrip
  have hunmapped : translate emptyMachine.mem emptyRoot 0x400000 = none := by
    rw [translate, show vaPath 0x400000 = 0 :: [0, 2, 0] by decide,
      lookup_of_absent (decode_zero_word 3)]
    rfl
  have hcode := (htrip.unmapped hunmapped).1
  rw [(Machine.pageUnmap_code (by decide)).1] at hcode
  cases hcode

end Betelgeuse
