/-
`page_map` inside a large page.

The walk looks at the present flag of an entry and never at its page-size flag.  So it
takes a large page for a table, and reads words of that page as if they were entries
(`ReadsPresent`).  It leaves memory alone and reports the page as mapped if and only if
all the words that it reads so happen to have the present flag
(`respectsLargePage_iff`).
-/
import Betelgeuse.PageMap

open PageTree

namespace Betelgeuse

namespace Machine

variable {σ : Type*} {p : Platform σ} {s s' : Machine σ} {root : Frame} {va pa : UInt64}

/-- `page_map` finds the address mapped and writes no memory. -/
structure RespectsLargePage (p : Platform σ) (s : Machine σ) (va pa : UInt64) : Prop where
  code : (s.pageMap p va pa).1 = 1
  mem : (s.pageMap p va pa).2.mem = s.mem

/-- The words that the walk reads behind the entry `w`, when it takes it for a link to a
table, have the present flag. -/
def ReadsPresent (p : Platform σ) (s : Machine σ) : UInt64 → List (Fin 512) → Prop
  | _, [] => True
  | w, i :: ρ =>
    s.read p ((w &&& addrMask) + s.offset) (UInt64.ofNat i.val) &&& presentFlag ≠ 0 ∧
      ReadsPresent p s (s.read p ((w &&& addrMask) + s.offset) (UInt64.ofNat i.val)) ρ

/-- The tables under the root can be reached at `offset` above their place. -/
def TablesMirrored (p : Platform σ) (s : Machine σ) (root : Frame) : Prop :=
  ∀ π f, s.table root π = some f → ∀ i : Fin 512,
    p.resolve (f.addr + s.offset + 8 * UInt64.ofNat i.val) = f.addr + 8 * UInt64.ofNat i.val

/-! ### One level -/

theorem linkTable_of_present {table index : UInt64}
    (h : s.read p table index &&& presentFlag ≠ 0) : s.linkTable p table index = some s := by
  rw [linkTable, if_neg h]
  rfl

/-- Linking a table sets the present flag of the entry. -/
theorem linkTable_changes {table index : UInt64} (h : s.read p table index &&& presentFlag = 0)
    (hs' : s.linkTable p table index = some s') : s'.mem ≠ s.mem := by
  rw [linkTable, if_pos h] at hs'
  obtain ⟨⟨nextPage, allocator⟩, -, hs'⟩ := Option.bind_eq_some_iff.mp hs'
  obtain rfl := Option.some.inj hs'
  set s₁ := ({ s with allocator := allocator } : Machine σ).clearPage p nextPage
  set s₂ := s₁.write p table index (presentFlag ||| writableFlag ||| userAccessFlag)
  intro hmem
  have hword : s.read p table index =
      (presentFlag ||| writableFlag ||| userAccessFlag) ||| nextPage := by
    rw [read, ← hmem]
    show Function.update s₂.mem _ _ _ = _
    rw [Function.update_self]
    congr 1
    exact Function.update_self ..
  rw [hword, and_or_right] at h
  have hflag := (UInt64.or_eq_zero_iff.mp h).1
  revert hflag
  decide

/-- On the walk a table that is linked is found, and nothing happens. -/
theorem TablesMirrored.linkTable (hp : TablesMirrored p s root) {π : List (Fin 512)}
    {j : Fin 512} {g f : Frame} (hg : s.table root π = some g)
    (hf : s.table root (π ++ [j]) = some f) :
    s.linkTable p (g.addr + s.offset) (UInt64.ofNat j.val) = some s ∧
      s.read p (g.addr + s.offset) (UInt64.ofNat j.val) &&& addrMask = f.addr := by
  have hread : s.read p (g.addr + s.offset) (UInt64.ofNat j.val) = word s.mem g j := by
    rw [read, hp π g hg j, word]
  obtain ⟨k, m, -, hk, hlink⟩ := tableAt_concat.mp hf
  obtain rfl : g = k := Option.some.inj (hg.symm.trans hk)
  refine ⟨linkTable_of_present fun habs => ?_, ?_⟩
  · rw [hread] at habs
    rw [decode_eq_absent habs] at hlink
    cases hlink
  · rw [hread]
    exact addr_of_table hg hf

/-! ### The walk into a large page -/

/-- The end of `page_map`, at the entry of the page table. -/
def lastLevel (p : Platform σ) (s : Machine σ) (ptPointer ptIndex physAddr : UInt64) :
    ℤ × Machine σ :=
  if s.read p ptPointer ptIndex &&& presentFlag = 0 then
    let s := s.write p ptPointer ptIndex (presentFlag ||| writableFlag ||| userAccessFlag)
    (0, s.write p ptPointer ptIndex (s.read p ptPointer ptIndex ||| (physAddr &&& addrMask)))
  else (1, s)

/-- The last level finds a page if and only if its entry is present. -/
theorem lastLevel_found_iff {s₀ : Machine σ} {ptPointer ptIndex : UInt64} :
    (lastLevel p s ptPointer ptIndex pa).1 = 1 ∧
        (lastLevel p s ptPointer ptIndex pa).2.mem = s₀.mem ↔
      s.read p ptPointer ptIndex &&& presentFlag ≠ 0 ∧ s.mem = s₀.mem := by
  by_cases hpres : s.read p ptPointer ptIndex &&& presentFlag = 0
  · rw [lastLevel, if_pos hpres]
    refine iff_of_false (fun h => ?_) fun h => h.1 hpres
    cases h.1
  · rw [lastLevel, if_neg hpres]
    exact ⟨fun h => ⟨hpres, h.2⟩, fun h => ⟨rfl, h.2⟩⟩

theorem respectsLargePage_eq {result : ℤ × Machine σ} (hcall : s.pageMap p va pa = result) :
    RespectsLargePage p s va pa ↔ result.1 = 1 ∧ result.2.mem = s.mem := by
  subst hcall
  exact ⟨fun h => ⟨h.code, h.mem⟩, fun h => ⟨h.1, h.2⟩⟩

/-- The leaf that ends the walk in front of the page tables, as the walk reads it. -/
theorem TablesMirrored.leaf_read (hp : TablesMirrored p s root) {w : UInt64}
    {π ρ : List (Fin 512)} {j : Fin 512} (hleaf : s.leaf root (vaPath va) = some (w, ρ))
    (hpath : vaPath va = π ++ j :: ρ) :
    ∃ g, s.table root π = some g ∧
      s.read p (g.addr + s.offset) (UInt64.ofNat j.val) = w ∧ w &&& presentFlag ≠ 0 := by
  obtain ⟨π', j', g, hpath', hg, hw, hdecode⟩ := lookup_eq_some hleaf
  obtain ⟨rfl, hcons⟩ := List.append_inj' (hpath.symm.trans hpath') rfl
  obtain ⟨rfl, -⟩ := List.cons.inj hcons
  refine ⟨g, hg, ?_, fun habs => ?_⟩
  · rw [read, hp π g hg j]
    exact hw
  · rw [decode_eq_absent habs] at hdecode
    cases hdecode

/-- The tables above a table of the tree. -/
theorem table_above {π : List (Fin 512)} {j : Fin 512} {g : Frame}
    (hg : s.table root (π ++ [j]) = some g) : ∃ f, s.table root π = some f := by
  obtain ⟨f, -, -, hf, -⟩ := tableAt_concat.mp hg
  exact ⟨f, hf⟩

/-- The indices that are left behind the leaf of a large page. -/
theorem suffix_of_leaf {w : UInt64} {ρ : List (Fin 512)}
    (hleaf : s.leaf root (vaPath va) = some (w, ρ)) (hlarge : ρ.length = 1 ∨ ρ.length = 2) :
    ρ = [toIndex (vaGetPtIndex va)] ∨
      ρ = [toIndex (vaGetPdIndex va), toIndex (vaGetPtIndex va)] := by
  set i4 := toIndex (vaGetPml4Index va)
  set i3 := toIndex (vaGetPdpIndex va)
  set i2 := toIndex (vaGetPdIndex va)
  set i1 := toIndex (vaGetPtIndex va)
  have hpath : vaPath va = [i4, i3, i2, i1] := rfl
  obtain ⟨π, j, -, hsplit, -⟩ := lookup_eq_some hleaf
  have hall : (π ++ [j]) ++ ρ = [i4, i3, i2, i1] := by
    rw [List.append_assoc, ← hpath, hsplit]
    rfl
  rcases hlarge with hlen | hlen
  · exact .inl (List.append_inj' (hall.trans (by rfl : _ = [i4, i3, i2] ++ [i1])) hlen).2
  · exact .inr (List.append_inj' (hall.trans (by rfl : _ = [i4, i3] ++ [i2, i1])) hlen).2

/-- The entry `w` of a PD is taken for a link to a page table. -/
theorem pageMap_of_pd (hroot : s.currentPml4 = root.addr) (hp : TablesMirrored p s root)
    {w : UInt64} (hleaf : s.leaf root (vaPath va) = some (w, [toIndex (vaGetPtIndex va)]))
    (pa : UInt64) :
    s.pageMap p va pa = lastLevel p s ((w &&& addrMask) + s.offset) (vaGetPtIndex va) pa := by
  obtain ⟨f₂, ht₂, hw, hpres⟩ := hp.leaf_read hleaf
    (π := [toIndex (vaGetPml4Index va), toIndex (vaGetPdpIndex va)]) rfl
  obtain ⟨f₃, ht₃⟩ := table_above (π := [toIndex (vaGetPml4Index va)]) ht₂
  obtain ⟨hs₃, ha₃⟩ := hp.linkTable (π := []) (tableAt_nil _ _ _ _) ht₃
  obtain ⟨hs₂, ha₂⟩ := hp.linkTable (π := [toIndex (vaGetPml4Index va)]) ht₃ ht₂
  rw [ofNat_toIndex (vaGetPml4Index_lt va)] at hs₃ ha₃
  rw [ofNat_toIndex (vaGetPdpIndex_lt va)] at hs₂ ha₂
  rw [ofNat_toIndex (vaGetPdIndex_lt va)] at hw
  have hs₁ := linkTable_of_present (hw.symm ▸ hpres)
  simp only [pageMap, hroot, hs₃, ha₃, hs₂, ha₂, hs₁, hw, lastLevel]

/-- The entry `w` of a PDP is taken for a link to a PD. -/
theorem pageMap_of_pdp (hroot : s.currentPml4 = root.addr) (hp : TablesMirrored p s root)
    {w : UInt64}
    (hleaf : s.leaf root (vaPath va) =
      some (w, [toIndex (vaGetPdIndex va), toIndex (vaGetPtIndex va)]))
    (pa : UInt64) :
    s.pageMap p va pa =
      match s.linkTable p ((w &&& addrMask) + s.offset) (vaGetPdIndex va) with
      | none => (-1, s)
      | some s' => lastLevel p s' ((s'.read p ((w &&& addrMask) + s.offset) (vaGetPdIndex va) &&&
          addrMask) + s'.offset) (vaGetPtIndex va) pa := by
  obtain ⟨f₃, ht₃, hw, hpres⟩ := hp.leaf_read hleaf (π := [toIndex (vaGetPml4Index va)]) rfl
  obtain ⟨hs₃, ha₃⟩ := hp.linkTable (π := []) (tableAt_nil _ _ _ _) ht₃
  rw [ofNat_toIndex (vaGetPml4Index_lt va)] at hs₃ ha₃
  rw [ofNat_toIndex (vaGetPdpIndex_lt va)] at hw
  have hs₂ := linkTable_of_present (hw.symm ▸ hpres)
  cases hs₁ : s.linkTable p ((w &&& addrMask) + s.offset) (vaGetPdIndex va) with
  | none => simp only [pageMap, hroot, hs₃, ha₃, hs₂, hw, hs₁]
  | some s' => simp only [pageMap, hroot, hs₃, ha₃, hs₂, hw, hs₁, lastLevel]

/-- `page_map` respects a large page if and only if all it reads there is present. -/
theorem respectsLargePage_iff (hroot : s.currentPml4 = root.addr) (hp : TablesMirrored p s root)
    {w : UInt64} {ρ : List (Fin 512)} (hleaf : s.leaf root (vaPath va) = some (w, ρ))
    (hlarge : ρ.length = 1 ∨ ρ.length = 2) (pa : UInt64) :
    RespectsLargePage p s va pa ↔ ReadsPresent p s w ρ := by
  rcases suffix_of_leaf hleaf hlarge with rfl | rfl
  · -- a page of 2 MiB
    rw [respectsLargePage_eq (pageMap_of_pd hroot hp hleaf pa), lastLevel_found_iff, ReadsPresent,
      ofNat_toIndex (vaGetPtIndex_lt va)]
    exact ⟨fun h => ⟨h.1, trivial⟩, fun h => ⟨h.1, rfl⟩⟩
  · -- a page of 1 GiB
    have hcall := pageMap_of_pdp hroot hp hleaf pa
    rw [ReadsPresent, ReadsPresent, ofNat_toIndex (vaGetPdIndex_lt va),
      ofNat_toIndex (vaGetPtIndex_lt va)]
    set table := (w &&& addrMask) + s.offset
    by_cases hpd : s.read p table (vaGetPdIndex va) &&& presentFlag = 0
    · refine iff_of_false ?_ fun h => h.1 hpd
      cases hs₁ : s.linkTable p table (vaGetPdIndex va) with
      | none =>
        intro h
        have hcode := h.code
        rw [hcall, hs₁] at hcode
        cases hcode
      | some s' =>
        -- a table has been linked, and the last level does not take it back
        rw [hs₁] at hcall
        rw [respectsLargePage_eq hcall, lastLevel_found_iff]
        exact fun h => linkTable_changes hpd hs₁ h.2
    · rw [linkTable_of_present hpd] at hcall
      rw [respectsLargePage_eq hcall, lastLevel_found_iff]
      exact ⟨fun h => ⟨hpd, h.1, trivial⟩, fun h => ⟨h.2.1, rfl⟩⟩

end Machine

/-! ### An instance -/

/-- The first GiB of memory is mapped by one large page.  It is zero but for two tables, and
for the word at `0x10`, which would link a table at the address 0. -/
def largeMachine : Machine FreeList :=
  { emptyMachine with
    mem := fun addr =>
      if addr = 0x1000 then 0x2003 else if addr = 0x2000 then 0x83
      else if addr = 0x10 then 0x3 else 0 }

/-- Its PDP. -/
def largePdp : Frame := entryFrame 0x2003

theorem decode_largeMachine {addr : UInt64} {n : ℕ} {g : Frame}
    (h : decode n (largeMachine.mem addr) = .table g) : g ∈ lowFrames := by
  obtain ⟨-, -, -, rfl⟩ := decode_eq_table.mp h
  show (largeMachine.mem addr &&& addrMask).toNat < 2 ^ 47
  show ((if addr = 0x1000 then (0x2003 : UInt64) else if addr = 0x2000 then 0x83
    else if addr = 0x10 then 0x3 else 0) &&& addrMask).toNat < 2 ^ 47
  split
  · decide
  split
  · decide
  split
  · decide
  · decide

theorem largeMachine_mirrored :
    Machine.TablesMirrored freeListPlatform largeMachine emptyRoot := by
  intro π f hf i
  refine freeListPlatform_sound.mirrored f ?_ i
  induction π using List.reverseRecOn with
  | nil =>
    obtain rfl : emptyRoot = f := by simpa using hf
    exact mem_lowFrames.mpr (by decide)
  | append_singleton π j _ =>
    obtain ⟨g, m, -, -, hlink⟩ := tableAt_concat.mp hf
    exact decode_largeMachine hlink

theorem largeMachine_leaf :
    largeMachine.leaf emptyRoot (vaPath 0x400000) = some (0x83, [2, 0]) ∧
      largeMachine.leaf emptyRoot (vaPath 0x402000) = some (0x83, [2, 2]) := by
  have hlookup : ∀ ρ : List (Fin 512), ρ.length = 2 →
      largeMachine.leaf emptyRoot (0 :: 0 :: ρ) = some (0x83, ρ) := by
    intro ρ hρ
    have hlink : decode 3 (word largeMachine.mem emptyRoot 0) = .table largePdp := by decide
    have hleaf : decode 2 (word largeMachine.mem largePdp 0) = .leaf := by decide
    rw [Machine.leaf, lookup_of_table (by rwa [List.length_cons, hρ]),
      lookup_of_leaf (by rwa [hρ])]
    rfl
  exact ⟨hlookup [2, 0] rfl, hlookup [2, 2] rfl⟩

/-- A word of the large page that is not present is read as an entry, and one that is. -/
theorem respectsLargePage_iff_largeMachine :
    ¬ Machine.RespectsLargePage freeListPlatform largeMachine 0x400000 0xABC000 ∧
      Machine.RespectsLargePage freeListPlatform largeMachine 0x402000 0xABC000 := by
  constructor
  · intro h
    exact ((Machine.respectsLargePage_iff rfl largeMachine_mirrored largeMachine_leaf.1 (.inr rfl)
      0xABC000).mp h).2.1 (by decide)
  · exact (Machine.respectsLargePage_iff rfl largeMachine_mirrored largeMachine_leaf.2 (.inr rfl)
      0xABC000).mpr ⟨by decide, by decide, trivial⟩

/-- `page_map` maps a page inside the large page, and writes its entry at the address 0. -/
theorem respectsLargePage_fails :
    ¬ ∀ (s : Machine FreeList) (root : Frame) (va pa w : UInt64) (ρ : List (Fin 512)),
      s.currentPml4 = root.addr → Machine.TablesMirrored freeListPlatform s root →
      s.leaf root (vaPath va) = some (w, ρ) → ρ.length = 1 ∨ ρ.length = 2 →
      Machine.RespectsLargePage freeListPlatform s va pa := by
  intro h
  have hcode := (h largeMachine emptyRoot 0x400000 0xABC000 _ _ rfl largeMachine_mirrored
    largeMachine_leaf.1 (.inr rfl)).code
  revert hcode
  decide

end Betelgeuse
