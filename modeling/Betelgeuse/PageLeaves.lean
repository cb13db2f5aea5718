/-
What `page_map` and `page_unmap` leave alone.

`PageMap` says what a call does to the tree of tables that it works on.  The memory has
other trees.  `Leaves` says that the words of frames outside of the tree stay as they are
if the frames are in use, and that in the tree no large page comes up, so that other
addresses are as ready for calls as before.

It holds of each level of `page_map` (`Ready.linkTable_leaves`) and is transitive, hence it
holds of a whole call, also of one that fails half way (`Ready.pageMap_leaves`), and of
`page_unmap` (`Ready.pageUnmap_leaves`).
-/
import Betelgeuse.PageUnmap

open PageTree

namespace Betelgeuse

namespace Machine

variable {σ : Type*} {p : Platform σ} {s s' s'' : Machine σ} {ram : Set Frame}
  {taken : σ → Set Frame} {root f : Frame} {va : UInt64}

/-- The frame is in use, but not for a table of the tree. -/
structure Outside (taken : σ → Set Frame) (s : Machine σ) (root f : Frame) : Prop where
  in_use : f ∈ taken s.allocator
  no_table : ∀ π, s.table root π ≠ some f

/-- A step concerns the tree of `root` and frames that were free. -/
structure Leaves (taken : σ → Set Frame) (root : Frame) (s s' : Machine σ)
    (path : List (Fin 512)) : Prop where
  pml4 : s'.currentPml4 = s.currentPml4
  offset : s'.offset = s.offset
  in_use : taken s.allocator ⊆ taken s'.allocator
  only : ∀ π f, s'.table root π = some f →
    s.table root π = some f ∨ π <+: path ∧ f ∉ taken s.allocator
  small : ∀ π f i, s'.table root π = some f → word s'.mem f i &&& presentFlag ≠ 0 →
    word s'.mem f i &&& pageSizeFlag = 0 ∨
      s.table root π = some f ∧ word s'.mem f i = word s.mem f i
  outside : ∀ f, Outside taken s root f → ∀ i, word s'.mem f i = word s.mem f i

section Leaves

variable {path : List (Fin 512)}

theorem Leaves.refl : Leaves taken root s s path where
  pml4 := rfl
  offset := rfl
  in_use := subset_rfl
  only _ _ hf := .inl hf
  small _ _ _ hf _ := .inr ⟨hf, rfl⟩
  outside _ _ _ := rfl

/-- A frame outside stays outside. -/
theorem Leaves.outside_outside (h : Leaves taken root s s' path) (hf : Outside taken s root f) :
    Outside taken s' root f where
  in_use := h.in_use hf.in_use
  no_table π hπ := by
    rcases h.only π f hπ with hold | ⟨-, hfree⟩
    · exact hf.no_table π hold
    · exact hfree hf.in_use

theorem Leaves.trans (h : Leaves taken root s s' path) (h' : Leaves taken root s' s'' path) :
    Leaves taken root s s'' path where
  pml4 := h'.pml4.trans h.pml4
  offset := h'.offset.trans h.offset
  in_use := h.in_use.trans h'.in_use
  only π f hf := by
    rcases h'.only π f hf with hf | ⟨hπ, hfree⟩
    · exact h.only π f hf
    · exact .inr ⟨hπ, fun htaken => hfree (h.in_use htaken)⟩
  small π f i hf hpres := by
    rcases h'.small π f i hf hpres with hsmall | ⟨hf, hword⟩
    · exact .inl hsmall
    · rw [hword] at hpres ⊢
      exact h.small π f i hf hpres
  outside f hf i := by
    rw [h'.outside f (h.outside_outside hf) i, h.outside f hf i]

end Leaves

/-! ### One level -/

section Level

variable {g new : Frame} {j : Fin 512} {π ρ : List (Fin 512)} {w : UInt64}

/-- Linking an empty table. -/
theorem Ready.link_leaves (h : s.Ready ram taken root va) (hpath : vaPath va = π ++ j :: ρ)
    (hρ : ρ ≠ []) (hg : s.table root π = some g) (habs : word s.mem g j &&& presentFlag = 0)
    (hfresh : new ∉ taken s.allocator)
    (htaken : taken s'.allocator = insert new (taken s.allocator))
    (hpml4 : s'.currentPml4 = s.currentPml4) (hoffset : s'.offset = s.offset)
    (hmem : ∀ f i, word s'.mem f i = if f = g ∧ i = j then newFlags ||| new.addr
      else if f = new then 0 else word s.mem f i) : Leaves taken root s s' (vaPath va) := by
  obtain ⟨htable, -⟩ := h.table_link hpath hρ hg habs hfresh hmem
  have hprej : π ++ [j] <+: vaPath va := ⟨ρ, by rw [hpath]; simp⟩
  refine ⟨hpml4, hoffset, htaken ▸ Set.subset_insert _ _, ?_, ?_, ?_⟩
  -- a table is new or was there, and so is an entry
  · intro τ f hf
    rw [htable] at hf
    split at hf
    · next heq => exact .inr ⟨heq ▸ hprej, Option.some.inj hf ▸ hfresh⟩
    · exact .inl hf
  · intro τ f i hf _
    rw [hmem]
    split
    · exact .inl (pageSize_newEntry new.masked)
    split
    · exact .inl rfl
    · next hne =>
      rw [htable] at hf
      split at hf
      · exact absurd (Option.some.inj hf).symm hne
      · exact .inr ⟨hf, rfl⟩
  · intro f hf i
    have hfg : f ≠ g := by
      rintro rfl
      exact hf.no_table π hg
    have hfnew : f ≠ new := by
      rintro rfl
      exact hfresh hf.in_use
    rw [hmem, if_neg fun heq => hfg heq.1, if_neg hfnew]

/-- One level of `page_map`. -/
theorem Ready.linkTable_leaves (hp : p.Sound s.offset ram taken) (h : s.Ready ram taken root va)
    (hpath : vaPath va = π ++ j :: ρ) (hρ : ρ ≠ []) (hg : s.table root π = some g) :
    s.linkTable p (g.addr + s.offset) (UInt64.ofNat j.val) = none ∨
      ∃ s' f, s.linkTable p (g.addr + s.offset) (UInt64.ofNat j.val) = some s' ∧
        s'.Ready ram taken root va ∧ Leaves taken root s s' (vaPath va) ∧
        s'.table root (π ++ [j]) = some f ∧
        s'.read p (g.addr + s.offset) (UInt64.ofNat j.val) &&& addrMask = f.addr := by
  rcases h.linkTable hp hpath hρ hg with hnone | ⟨s', f, hs', hready, -, hf, haddr⟩
  · exact .inl hnone
  refine .inr ⟨s', f, hs', hready, ?_, hf, haddr⟩
  by_cases hpres : word s.mem g j &&& presentFlag = 0
  · rcases linkTable_absent hp (h.in_ram π g hg) hpres with
      hnone | ⟨s'', new, hs'', -, hfresh, htaken, hpml4, hoffset, hmem⟩
    · rw [hnone] at hs'
      cases hs'
    · obtain rfl : s' = s'' := Option.some.inj (hs'.symm.trans hs'')
      exact h.link_leaves hpath hρ hg hpres hfresh htaken hpml4 hoffset hmem
  · obtain rfl : s = s' :=
      Option.some.inj ((linkTable_present hp (h.in_ram π g hg) hpres).symm.trans hs')
    exact .refl

/-- The two writes of an entry, of which the second one reads what the first one wrote. -/
theorem word_writeEntry (hp : p.Sound s.offset ram taken) (hg : g ∈ ram) {a : UInt64} (f : Frame)
    (i : Fin 512) :
    word ((s.write p (g.addr + s.offset) (UInt64.ofNat j.val) newFlags).write p (g.addr + s.offset)
        (UInt64.ofNat j.val) ((s.write p (g.addr + s.offset) (UInt64.ofNat j.val) newFlags).read p
          (g.addr + s.offset) (UInt64.ofNat j.val) ||| a)).mem f i =
      if f = g ∧ i = j then newFlags ||| a else word s.mem f i := by
  have hwrite := word_write (s := s) (f := g) (i := j) (v := newFlags) (hp.mirrored g hg j)
  rw [if_pos ⟨rfl, rfl⟩] at hwrite
  have hread : (s.write p (g.addr + s.offset) (UInt64.ofNat j.val) newFlags).read p
      (g.addr + s.offset) (UInt64.ofNat j.val) = newFlags :=
    (read_mirrored (s := s.write p (g.addr + s.offset) (UInt64.ofNat j.val) newFlags) hp hg
      j).trans hwrite
  rw [hread, word_write (hp.mirrored g hg j), word_write (hp.mirrored g hg j)]
  by_cases hslot : f = g ∧ i = j
  · rw [if_pos hslot, if_pos hslot]
  · rw [if_neg hslot, if_neg hslot, if_neg hslot]

/-- Writing an entry of a page table. -/
theorem Ready.setLeaf_leaves (h : s.Ready ram taken root va) (hpath : vaPath va = π ++ [j])
    (hg : s.table root π = some g) (halloc : s'.allocator = s.allocator)
    (hpml4 : s'.currentPml4 = s.currentPml4) (hoffset : s'.offset = s.offset)
    (hmem : ∀ f i, word s'.mem f i = if f = g ∧ i = j then w else word s.mem f i)
    (hw : w &&& presentFlag ≠ 0 → w &&& pageSizeFlag = 0) :
    Leaves taken root s s' (vaPath va) := by
  obtain ⟨-, htable, -⟩ := h.setLeaf hpath hg halloc hpml4 hmem
  refine ⟨hpml4, hoffset, by rw [halloc], fun τ f hf => .inl (by rwa [← htable]), ?_, ?_⟩
  · intro τ f i hf
    rw [htable] at hf
    rw [hmem]
    split
    · exact fun hpres => .inl (hw hpres)
    · exact fun _ => .inr ⟨hf, rfl⟩
  · intro f hf i
    have hfg : f ≠ g := by
      rintro rfl
      exact hf.no_table π hg
    rw [hmem, if_neg fun heq => hfg heq.1]

end Level

/-! ### The calls -/

theorem Ready.pageMap_leaves (hp : p.Sound s.offset ram taken) (h : s.Ready ram taken root va)
    (pa : UInt64) : Leaves taken root s (s.pageMap p va pa).2 (vaPath va) := by
  set i4 := toIndex (vaGetPml4Index va) with hi4
  set i3 := toIndex (vaGetPdpIndex va) with hi3
  set i2 := toIndex (vaGetPdIndex va) with hi2
  set i1 := toIndex (vaGetPtIndex va) with hi1
  have e4 : vaGetPml4Index va = UInt64.ofNat i4.val := (ofNat_toIndex (vaGetPml4Index_lt va)).symm
  have e3 : vaGetPdpIndex va = UInt64.ofNat i3.val := (ofNat_toIndex (vaGetPdpIndex_lt va)).symm
  have e2 : vaGetPdIndex va = UInt64.ofNat i2.val := (ofNat_toIndex (vaGetPdIndex_lt va)).symm
  have e1 : vaGetPtIndex va = UInt64.ofNat i1.val := (ofNat_toIndex (vaGetPtIndex_lt va)).symm
  have hpath : vaPath va = [i4, i3, i2, i1] := rfl
  have hroot : s.table root [] = some root := tableAt_nil _ _ _ _
  -- the PML4
  rcases h.linkTable_leaves hp hpath (by simp) hroot with
    hnone | ⟨s₁, f₃, hs₁, h₁, hl₁, ht₁, ha₁⟩
  · simp only [pageMap, h.root_eq, e4, hnone]
    exact .refl
  have hp₁ : p.Sound s₁.offset ram taken := hl₁.offset ▸ hp
  -- the PDP
  rcases h₁.linkTable_leaves hp₁ (π := [i4]) hpath (by simp) ht₁ with
    hnone | ⟨s₂, f₂, hs₂, h₂, hl₂, ht₂, ha₂⟩
  · simp only [pageMap, h.root_eq, e4, e3, hs₁, ha₁, hnone]
    exact hl₁
  have hp₂ : p.Sound s₂.offset ram taken := hl₂.offset ▸ hp₁
  -- the PD
  rcases h₂.linkTable_leaves hp₂ (π := [i4, i3]) hpath (by simp) ht₂ with
    hnone | ⟨s₃, g, hs₃, h₃, hl₃, ht₃, ha₃⟩
  · simp only [pageMap, h.root_eq, e4, e3, e2, hs₁, ha₁, hs₂, ha₂, hnone]
    exact hl₁.trans hl₂
  have hp₃ : p.Sound s₃.offset ram taken := hl₃.offset ▸ hp₂
  have hupper := (hl₁.trans hl₂).trans hl₃
  -- the page table
  have hgram := h₃.in_ram _ g ht₃
  simp only [pageMap, h.root_eq, e4, e3, e2, e1, hs₁, ha₁, hs₂, ha₂, hs₃, ha₃,
    read_mirrored hp₃ hgram]
  split
  · have hmasked : (pa &&& addrMask) &&& addrMask = pa &&& addrMask := by
      rw [UInt64.and_assoc, UInt64.and_self]
    refine hupper.trans (h₃.setLeaf_leaves (π := [i4, i3, i2]) hpath ht₃ rfl rfl rfl
      (word_writeEntry hp₃ hgram) fun _ => pageSize_newEntry hmasked)
  · exact hupper

/-- On a mapped address `page_unmap` writes one entry of the last level. -/
theorem Ready.pageUnmap_write (hp : p.Sound s.offset ram taken) (h : s.Ready ram taken root va)
    (hmapped : translate s.mem root va ≠ none) (hout : ¬ s.InPhysicalMap va) :
    ∃ g ∈ ram, s.table root [toIndex (vaGetPml4Index va), toIndex (vaGetPdpIndex va),
        toIndex (vaGetPdIndex va)] = some g ∧
      (s.pageUnmap p va).machine = s.write p (g.addr + s.offset) (vaGetPtIndex va)
        (word s.mem g (toIndex (vaGetPtIndex va)) &&& ~~~presentFlag) := by
  have hleaf := leaf_ne_none hmapped
  set i4 := toIndex (vaGetPml4Index va) with hi4
  set i3 := toIndex (vaGetPdpIndex va) with hi3
  set i2 := toIndex (vaGetPdIndex va) with hi2
  set i1 := toIndex (vaGetPtIndex va) with hi1
  have e4 : vaGetPml4Index va = UInt64.ofNat i4.val := (ofNat_toIndex (vaGetPml4Index_lt va)).symm
  have e3 : vaGetPdpIndex va = UInt64.ofNat i3.val := (ofNat_toIndex (vaGetPdpIndex_lt va)).symm
  have e2 : vaGetPdIndex va = UInt64.ofNat i2.val := (ofNat_toIndex (vaGetPdIndex_lt va)).symm
  have e1 : vaGetPtIndex va = UInt64.ofNat i1.val := (ofNat_toIndex (vaGetPtIndex_lt va)).symm
  have hpath : vaPath va = [i4, i3, i2, i1] := rfl
  have hroot : s.table root [] = some root := tableAt_nil _ _ _ _
  -- one level of the walk: the entry links the next table
  have hlevel : ∀ π j ρ g, vaPath va = π ++ j :: ρ → ρ ≠ [] → s.table root π = some g →
      ∃ f, s.table root (π ++ [j]) = some f ∧ word s.mem g j &&& addrMask = f.addr := by
    intro π j ρ g hπ hρ hg
    obtain ⟨f, hf⟩ := h.table_of_present hπ hρ hg (present_of_leaf hπ hg hleaf)
    exact ⟨f, hf, addr_of_table hg hf⟩
  obtain ⟨f₃, ht₃, ha₃⟩ := hlevel [] i4 [i3, i2, i1] root hpath (by simp) hroot
  obtain ⟨f₂, ht₂, ha₂⟩ := hlevel [i4] i3 [i2, i1] f₃ hpath (by simp) ht₃
  obtain ⟨g, ht₁, ha₁⟩ := hlevel [i4, i3] i2 [i1] f₂ hpath (by simp) ht₂
  refine ⟨g, h.in_ram _ g ht₁, ht₁, ?_⟩
  simp only [pageUnmap, if_neg hout, e4, e3, e2, e1, h.root_eq,
    read_direct hp (h.in_ram _ root hroot), ha₃, read_mirrored hp (h.in_ram _ f₃ ht₃), ha₂,
    read_mirrored hp (h.in_ram _ f₂ ht₂), ha₁, read_mirrored hp (h.in_ram _ g ht₁)]

theorem Ready.pageUnmap_leaves (hp : p.Sound s.offset ram taken) (h : s.Ready ram taken root va)
    (hmapped : translate s.mem root va ≠ none) (hout : ¬ s.InPhysicalMap va) :
    Leaves taken root s (s.pageUnmap p va).machine (vaPath va) := by
  obtain ⟨g, hgram, hg, hwrite⟩ := h.pageUnmap_write hp hmapped hout
  rw [hwrite, ← ofNat_toIndex (vaGetPtIndex_lt va)]
  refine h.setLeaf_leaves (vaPath_eq_append va) hg rfl rfl rfl
    (fun f i => word_write (hp.mirrored g hgram _)) fun hpres => absurd ?_ hpres
  rw [UInt64.and_assoc, show ~~~presentFlag &&& presentFlag = 0 by decide, UInt64.and_zero]

end Machine

end Betelgeuse
