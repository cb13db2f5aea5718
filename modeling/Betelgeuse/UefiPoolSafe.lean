/-
The pool of mapping pages is safe, if it starts behind all tables and is not used up.

`PoolSafe` is what the callers of `map_page` rely on.  The first page of the pool is
inferred from the highest entry in use: a table without an entry in use may lie behind
it, and then it is handed out (`not_poolSafe_firmwareMem`).  The counter of the pool is
not looked at: `map_page` goes past its end.  If neither can happen, every run is safe
(`initVirtualMapping_poolSafe`).
-/
import Betelgeuse.UefiMirror

open PageTree RangeLoop

namespace Betelgeuse

/-- In a run of `map_page` calls, every page that is taken lies in the reserved region,
is taken once, and is no table of the upper levels that is already linked.  When the
region is used up, `map_page` fails and does not go past its end. -/
structure PoolSafe (newMap pageCount : UInt64) (s : Mapping) (calls : List MapCall) : Prop where
  inside : ∀ d ∈ s.draws calls, newMap.toNat ≤ d.page.toNat ∧
    d.page.toNat + 4096 ≤ newMap.toNat + 4096 * pageCount.toNat
  distinct : ((s.draws calls).map Draw.page).Nodup
  unlinked : ∀ d ∈ s.draws calls, d.Unlinked
  used_up : ∀ before c after, calls = before ++ c :: after →
    newMap.toNat + 4096 * pageCount.toNat < (s.run before).nextAvailableMappingPage.toNat +
      4096 * ((s.run before).mapPageDraws c.vaAddr).length →
    ((s.run before).mapPage c.physAddr c.vaAddr).1 = false
  bounded : ∀ before after, calls = before ++ after →
    (s.run before).nextAvailableMappingPage.toNat ≤ newMap.toNat + 4096 * pageCount.toNat

/-- The invariant keeps a run safe. -/
theorem Pool.safe {ty : MappingType} {root : Frame} {newMap pageCount : UInt64} {s : Mapping}
    {L : ℕ → Set Frame} {calls : List MapCall} (h : Pool ty root newMap pageCount s L)
    (hcalls : ∀ before c after, calls = before ++ c :: after → c.Fits ty root (s.run before)) :
    PoolSafe newMap pageCount s calls := by
  have hprefix : ∀ before after, calls = before ++ after →
      ∃ L', Pool ty root newMap pageCount (s.run before) L' := fun before after heq =>
    (h.run fun before' c rest hbefore => hcalls before' c (rest ++ after) (by
      rw [heq, hbefore, List.append_assoc, List.cons_append])).1
  obtain ⟨⟨L', hend⟩, hdraws⟩ := h.run hcalls
  have hle := h.le_next
  have hcount := hend.count
  constructor
  · intro d hd
    have hin := hdraws.within d hd
    omega
  · exact hdraws.nodup
  · exact hdraws.unlinked
  · intro before c after heq hover
    exfalso
    obtain ⟨L₁, h₁⟩ := hprefix before (c :: after) heq
    obtain ⟨⟨L₂, h₂⟩, hstretch⟩ := h₁.mapPage (hcalls before c after heq)
    have hnext := hstretch.next
    have hcount₂ := h₂.count
    omega
  · intro before after heq
    obtain ⟨L₁, h₁⟩ := hprefix before after heq
    have hcount₁ := h₁.count
    omega

section Runs

variable {ty : MappingType} {mem : UInt64 → UInt64} {root : Frame} {tables dest : UefiDescriptor}
  {k : ℕ} {memMap memMap' : List UefiDescriptor} {s : Mapping} {base : UInt64}
  {calls : List MapCall}

/-- After `init_virtual_mapping` every run of `map_page` calls is safe, if no table lies
behind the highest entry in use, `MAPPING_TYPE_MAP_ALL` copies entries in use only, and each
call meets no large page and needs no more pages than are left. -/
theorem initVirtualMapping_poolSafe (hpicks : Picks memMap root.addr tables dest k)
    (hinit : initVirtualMapping memMap ty root.addr mem = .ok (s, memMap', base))
    (h : Relocatable mem root tables.physicalStart dest.physicalStart tables.numberOfPages)
    (htop : UsedToTheTop mem root) (hmirror : ty = .mapAll → Mirrorable mem root)
    (hcalls : ∀ before c after, calls = before ++ c :: after →
      c.Fits ty (moved dest.physicalStart tables.physicalStart root) (s.run before)) :
    PoolSafe dest.physicalStart tables.numberOfPages s calls := by
  rw [initVirtualMapping_eq hpicks] at hinit
  obtain ⟨rfl, -⟩ := Prod.mk.inj (Except.ok.inj hinit)
  exact (initial_pool h htop hmirror).safe hcalls

end Runs

/-! ### Runs that are not safe -/

section Unsafe

variable {s : Mapping} {root p : Frame} {newMap pageCount va pa : UInt64} {i : Fin 512}

/-- A call for an address under an unused entry of the PML4 starts with the first page. -/
theorem Mapping.first_draw (hpml4 : s.pml4Pointer = root.addr)
    (habsent : decode 3 (word s.mem root (toIndex (vaGetPml4Index va))) = .absent) :
    ⟨s.nextAvailableMappingPage, s⟩ ∈ s.draws [⟨pa, va⟩] := by
  have hdraw : s.linkDraws s.pml4Pointer (vaGetPml4Index va) =
      [⟨s.nextAvailableMappingPage, s⟩] := by
    rw [hpml4, ← ofNat_toIndex (vaGetPml4Index_lt va)]
    exact linkDraws_absent (decode_absent_iff.mp habsent)
  unfold Mapping.draws Mapping.mapPageDraws
  dsimp only
  rw [hdraw]
  simp

/-- A linked table is handed out. -/
theorem not_poolSafe_of_linked (hpml4 : s.pml4Pointer = root.addr)
    (habsent : decode 3 (word s.mem root (toIndex (vaGetPml4Index va))) = .absent)
    (hlink : decode 3 (word s.mem root i) = .table p)
    (hpage : s.nextAvailableMappingPage = p.addr) :
    ¬ PoolSafe newMap pageCount s [⟨pa, va⟩] := by
  intro h
  have hdraw := h.unlinked _ (Mapping.first_draw hpml4 habsent)
  refine hdraw [i] p (by simp) ?_ hpage
  have hroot : entryFrame s.pml4Pointer = root := by rw [hpml4, entryFrame_addr]
  dsimp only
  rw [hroot]
  exact Relocatable.tableAt_one hlink

/-- A page behind the region is handed out. -/
theorem not_poolSafe_of_used_up (hpml4 : s.pml4Pointer = root.addr)
    (habsent : decode 3 (word s.mem root (toIndex (vaGetPml4Index va))) = .absent)
    (hend : newMap.toNat + 4096 * pageCount.toNat ≤ s.nextAvailableMappingPage.toNat) :
    ¬ PoolSafe newMap pageCount s [⟨pa, va⟩] := by
  intro h
  have hin := (h.inside _ (Mapping.first_draw hpml4 habsent)).2
  dsimp only at hin
  omega

end Unsafe

/-! ### Examples -/

/-- The descriptor of the example's tables. -/
def exampleTables (pageCount : UInt64) : UefiDescriptor := ⟨⟨4, 0x2000, pageCount⟩, 0xf⟩

/-- The descriptor to which they are moved. -/
def exampleDest : UefiDescriptor := ⟨⟨7, 0x10000, 16⟩, 0xf⟩

/-- The state after `init_virtual_mapping` with the example in `pageCount` pages. -/
def exampleMapping (entry pageCount : UInt64) : Mapping :=
  initialMapping .mapAll firmwareRoot.addr (exampleTables pageCount) exampleDest (firmwareMem entry)

theorem examplePicks : Picks [exampleTables 8, exampleDest] firmwareRoot.addr (exampleTables 8)
    exampleDest 1 := ⟨rfl, rfl, rfl⟩

theorem examplePicks_two : Picks [exampleTables 2, exampleDest] firmwareRoot.addr
    (exampleTables 2) exampleDest 1 := ⟨rfl, rfl, rfl⟩

section Example

variable {entry pageCount : UInt64}

theorem exampleRelocatable (hentry : ∀ n g, decode n entry ≠ .table g)
    (hcount : 2 ≤ pageCount.toNat ∧ pageCount.toNat ≤ 8) :
    Relocatable (firmwareMem entry) firmwareRoot (exampleTables pageCount).physicalStart
      exampleDest.physicalStart (exampleTables pageCount).numberOfPages :=
  firmwareMem_relocatable hentry hcount

/-- The first page of the pool of the example. -/
theorem exampleNext (hentry : ∀ n g, decode n entry ≠ .table g)
    (hcount : 2 ≤ pageCount.toNat ∧ pageCount.toNat ≤ 8) :
    (exampleMapping entry pageCount).nextAvailableMappingPage =
      if entry &&& presentFlag = 0 then 0x11000 else 0x12000 := by
  have h := exampleRelocatable hentry hcount
  have hroot : word (firmwareMem entry) firmwareRoot 0 &&& presentFlag ≠ 0 := by
    rw [word_firmwareMem, if_pos ⟨rfl, rfl⟩]
    decide
  have hlink : decode 3 (word (firmwareMem entry) firmwareRoot 0) = .table firmwarePdp := by
    rw [word_firmwareMem, if_pos ⟨rfl, rfl⟩]
    decide
  have hpdp : word (firmwareMem entry) firmwarePdp 0 = entry := by
    rw [word_firmwareMem, if_neg fun h => absurd h.1 (by decide), if_pos ⟨rfl, rfl⟩]
  have hnext : (exampleMapping entry pageCount).nextAvailableMappingPage = _ :=
    initialMapping_next ..
  -- the pool starts behind the highest table with an entry in use
  obtain ⟨π, f, i, -, hf, hpresent, hc, hmax⟩ :=
    h.exists_highest ⟨[], firmwareRoot, 0, by decide, tableAt_nil .., hroot⟩ hnext
  rw [← UInt64.toNat_inj, hc]
  rcases firmwareMem_tables hentry hf with ⟨-, rfl⟩ | ⟨-, rfl⟩
  -- the PML4, if the second table has none
  · have habsent : entry &&& presentFlag = 0 := by
      by_contra hused
      rw [← hpdp] at hused
      exact absurd (hmax [0] firmwarePdp 0 (by decide) (Relocatable.tableAt_one hlink) hused)
        (by decide)
    rw [if_pos habsent]
    show (moved 0x10000 0x2000 firmwareRoot).addr.toNat + 4096 = (0x11000 : UInt64).toNat
    decide
  -- and the second table else
  · have hused : entry &&& presentFlag ≠ 0 := by
      rw [word_firmwareMem, if_neg fun h => absurd h.1 (by decide)] at hpresent
      by_contra habsent
      split at hpresent
      · exact hpresent habsent
      · exact hpresent (by decide)
    rw [if_neg hused]
    show (moved 0x10000 0x2000 firmwarePdp).addr.toNat + 4096 = (0x12000 : UInt64).toNat
    decide

end Example

/-- The moved PML4 of the example. -/
def exampleRoot : Frame := ⟨0x10000, by decide⟩

/-- The moved PDP of the example. -/
def examplePdp : Frame := ⟨0x11000, by decide⟩

section Example

variable {entry pageCount : UInt64}

theorem moved_firmwareRoot :
    moved exampleDest.physicalStart (exampleTables pageCount).physicalStart firmwareRoot =
      exampleRoot := by
  show moved 0x10000 0x2000 firmwareRoot = exampleRoot
  decide

theorem moved_firmwarePdp :
    moved exampleDest.physicalStart (exampleTables pageCount).physicalStart firmwarePdp =
      examplePdp := by
  show moved 0x10000 0x2000 firmwarePdp = examplePdp
  decide

/-- The entries of the moved PML4 that are no copies. -/
theorem exampleRoot_entry (hentry : ∀ n g, decode n entry ≠ .table g)
    (hcount : 2 ≤ pageCount.toNat ∧ pageCount.toNat ≤ 8) {k : Fin 512}
    (hk : k.val < 256 ∨ 511 ≤ k.val) :
    decode 3 (word (exampleMapping entry pageCount).mem exampleRoot k) =
      if k = 0 then .table examplePdp else .absent := by
  have hle := @firmwareMem_count entry
  have hroot := initial_root_entry (k := k) (exampleRelocatable hentry hcount) hle (by omega)
  rw [moved_firmwareRoot] at hroot
  rw [exampleMapping, hroot]
  by_cases h0 : k = 0
  · have hlink : decode 3 (word (firmwareMem entry) firmwareRoot 0) = .table firmwarePdp := by
      rw [word_firmwareMem, if_pos ⟨rfl, rfl⟩]
      decide
    rw [if_pos h0, h0, hlink, Entry.map, moved_firmwarePdp]
  · rw [if_neg h0, word_firmwareMem_root h0, decode_zero_word, Entry.map]

theorem exampleMapping_pml4 (hentry : ∀ n g, decode n entry ≠ .table g)
    (hcount : 2 ≤ pageCount.toNat ∧ pageCount.toNat ≤ 8) :
    (exampleMapping entry pageCount).pml4Pointer = exampleRoot.addr := by
  rw [exampleMapping, initialMapping_pml4 _ (exampleRelocatable hentry hcount), moved_firmwareRoot]

end Example

theorem firmwareMem_usedToTheTop : UsedToTheTop (firmwareMem largePage) firmwareRoot := by
  have hlink : decode 3 (word (firmwareMem largePage) firmwareRoot 0) = .table firmwarePdp := by
    rw [word_firmwareMem, if_pos ⟨rfl, rfl⟩]
    decide
  have hused : word (firmwareMem largePage) firmwarePdp 0 &&& presentFlag ≠ 0 := by
    rw [word_firmwareMem, if_neg fun h => absurd h.1 (by decide), if_pos ⟨rfl, rfl⟩]
    decide
  intro π f _ hf
  refine ⟨[0], firmwarePdp, 0, by decide, Relocatable.tableAt_one hlink, hused, ?_⟩
  rcases firmwareMem_tables largePage_ne_table hf with ⟨-, rfl⟩ | ⟨-, rfl⟩
  · decide
  · decide

/-- What the example's pool has left for a call under an unused entry of the PML4. -/
theorem exampleFits : MapCall.Fits .mapAll exampleRoot (exampleMapping largePage 8)
    ⟨0x5000, 0xFFFFFFFF80000000⟩ := by
  have h := @exampleRelocatable largePage 8 largePage_ne_table (by decide)
  have hcount := (@initial_pool .mapAll _ _ _ _ h firmwareMem_usedToTheTop fun _ =>
    firmwareMem_mirrorable).count
  have hnext : (0x12000 : UInt64).toNat = 0x12000 := rfl
  have hdest : exampleDest.physicalStart.toNat = 0x10000 := rfl
  have hpages : (exampleTables 8).numberOfPages.toNat = 8 := rfl
  rw [← exampleMapping, exampleNext largePage_ne_table (by decide), if_neg (by decide),
    hnext, hdest,
    hpages] at hcount
  have habsent : decode 3 (word (exampleMapping largePage 8).mem exampleRoot 511) = .absent :=
    exampleRoot_entry largePage_ne_table (by decide) (.inr (by decide))
  have hpath : vaPath 0xFFFFFFFF80000000 = [511, 510, 0, 0] := by decide
  refine ⟨?_, ?_, nofun⟩
  · rw [hpath]
    exact noLargePageOn_of_absent habsent
  · generalize exampleMapping largePage 8 = s at *
    rw [hpath, tablesNeeded_of_absent habsent]
    show 3 ≤ s.availableMappingPageCount.toNat
    omega

/-- Mapping one page of the kernel's image is safe. -/
theorem initVirtualMapping_poolSafe_firmwareMem :
    PoolSafe exampleDest.physicalStart (exampleTables 8).numberOfPages (exampleMapping largePage 8)
      [⟨0x5000, 0xFFFFFFFF80000000⟩] := by
  have h := @exampleRelocatable largePage 8 largePage_ne_table (by decide)
  refine initVirtualMapping_poolSafe examplePicks (initVirtualMapping_eq examplePicks) h
    firmwareMem_usedToTheTop (fun _ => firmwareMem_mirrorable) ?_
  rw [moved_firmwareRoot]
  exact exampleFits.run_cons MapCall.fits_nil

/-- Two runs of one call that are not safe.  In the first one the linked PDP is empty, and
is handed out as the first page; in the second one the tables fill the region, and the
first page is the one behind it. -/
theorem not_poolSafe_firmwareMem :
    (∃ s memMap base, initVirtualMapping [exampleTables 8, exampleDest] .mapAll firmwareRoot.addr
        (firmwareMem 0) = .ok (s, memMap, base) ∧
      Relocatable (firmwareMem 0) firmwareRoot (exampleTables 8).physicalStart
        exampleDest.physicalStart (exampleTables 8).numberOfPages ∧
      ¬ PoolSafe exampleDest.physicalStart (exampleTables 8).numberOfPages s
        [⟨0x5000, 0x8000000000⟩]) ∧
    (∃ s memMap base, initVirtualMapping [exampleTables 2, exampleDest] .mapAll firmwareRoot.addr
        (firmwareMem largePage) = .ok (s, memMap, base) ∧
      Relocatable (firmwareMem largePage) firmwareRoot (exampleTables 2).physicalStart
        exampleDest.physicalStart (exampleTables 2).numberOfPages ∧
      ¬ PoolSafe exampleDest.physicalStart (exampleTables 2).numberOfPages s
        [⟨0x5000, 0x8000000000⟩]) := by
  have hindex : toIndex (vaGetPml4Index 0x8000000000) = 1 := by decide
  have hempty : ∀ n g, decode n 0 ≠ .table g := by
    intro n g
    rw [decode_zero_word]
    exact nofun
  constructor
  -- the second table has no entry in use, so that the pool starts with it
  · refine ⟨exampleMapping 0 8, _, _, initVirtualMapping_eq examplePicks,
      exampleRelocatable hempty (by decide), ?_⟩
    have hpml4 := @exampleMapping_pml4 0 8 hempty (by decide)
    have habsent : decode 3 (word (exampleMapping 0 8).mem exampleRoot 1) = .absent :=
      exampleRoot_entry hempty (by decide) (.inl (by decide))
    have hlink : decode 3 (word (exampleMapping 0 8).mem exampleRoot 0) = .table examplePdp :=
      exampleRoot_entry hempty (by decide) (.inl (by decide))
    have hpage := @exampleNext 0 8 hempty (by decide)
    rw [if_pos (by decide)] at hpage
    exact not_poolSafe_of_linked hpml4 (by rw [hindex, habsent]) hlink hpage
  -- the two pages are both tables, and the pool is behind them
  · refine ⟨exampleMapping largePage 2, _, _, initVirtualMapping_eq examplePicks_two,
      exampleRelocatable largePage_ne_table (by decide), ?_⟩
    have hpml4 := @exampleMapping_pml4 largePage 2 largePage_ne_table (by decide)
    have habsent : decode 3 (word (exampleMapping largePage 2).mem exampleRoot 1) = .absent :=
      exampleRoot_entry largePage_ne_table (by decide) (.inl (by decide))
    have hpage := @exampleNext largePage 2 largePage_ne_table (by decide)
    rw [if_neg (by decide)] at hpage
    refine not_poolSafe_of_used_up hpml4 (by rw [hindex, habsent]) ?_
    rw [hpage]
    decide

end Betelgeuse
