/-
The tables at the handoff from the bootloader to the kernel.

`efi_main` takes the number of mapping pages in use before it maps the segments of the
kernel, and `page_allocator_init` frees the pages of the tables' descriptor from that
number on.  A table that `map_page` takes for a segment comes behind it
(`not_tablesReserved_example`).  `tablesReserved_iff` says when all goes well: no segment
needs a new table, no table lies behind the number when it is taken, and the kernel's loop
over the descriptor, with the shift that it has, stays defined and away from the tables.
-/
import Betelgeuse.BootBounds
import Betelgeuse.UefiCursor
import Betelgeuse.UefiKernel

open PageTree WordArith

namespace Betelgeuse

/-! ### What the kernel gets -/

/-- The boot table with what `efi_main` writes to it behind `init_virtual_mapping`. -/
def Handoff.bootTable (h : Handoff) (bt : BootTable) : BootTable :=
  { bt with
    memTable := h.memMap.map UefiDescriptor.toEfiMemoryDescriptor
    mappingBase := h.mappingBase
    pml4Pointer := h.pml4Pointer
    usedMappingPageCount := h.usedMappingPageCount }

/-- The tables that lie in the descriptor have an offset below the count. -/
def Mapping.Counted (s : Mapping) (root : Frame) (d : EfiMemoryDescriptor) (used : UInt64) :
    Prop :=
  ∀ π f, s.table root π = some f → InRegion d.physicalStart d.numberOfPages f →
    (f.addr.toNat - d.physicalStart.toNat) / 4096 < used.toNat

/-- The page of a table. -/
def Mapping.TablePage (s : Mapping) (root : Frame) (p : ℕ) : Prop :=
  ∃ π f, s.table root π = some f ∧ f.addr.toNat / 4096 = p

/-- What the kernel relies on: the count covers the tables in the descriptor, and the loop
over the descriptor marks no table as free.  The descriptor is the one handed over: where
the bitmap has overwritten it, it has no loop. -/
structure TablesReserved (bt : BootTable) (d : EfiMemoryDescriptor) (h : Handoff) : Prop where
  counted : h.mapping.Counted (entryFrame (h.bootTable bt).pml4Pointer) d
    (h.bootTable bt).usedMappingPageCount
  kept : ∀ b, ∃ b', (h.bootTable bt).markDescriptor shiftedOne (fun _ => d) b = .ok b' ∧
    ∀ p, h.mapping.TablePage (entryFrame (h.bootTable bt).pml4Pointer) p →
      WordBitmap.get b p = true → WordBitmap.get b' p = true

/-- When that is so: in the state `s` in which the count is taken it covers the tables, the
calls that come after it find their page tables, and no round of the kernel's loop is
undefined or meets the page of a table. -/
structure CountSuffices (d : EfiMemoryDescriptor) (s : Mapping) (root : Frame)
    (calls : List MapCall) : Prop where
  counted : s.Counted root d s.getMappingPointersAndCount.2
  present : ∀ c ∈ calls, ∃ g, s.table root (upperPath c.vaAddr) = some g
  rounds : ∀ i, s.getMappingPointersAndCount.2 ≤ i → i < d.numberOfPages →
    BootTable.SafeRound (d.physicalStart, i) ∧
      ∀ p ∈ BootTable.clearedPages (BootTable.roundPage (d.physicalStart, i)), ¬ s.TablePage root p

theorem efiMain_eq {memMap memMap' : List UefiDescriptor} {cr3 base : UInt64}
    {mem : UInt64 → UInt64} {s : Mapping} (segments : List Segment)
    (hinit : initVirtualMapping memMap .mapAll cr3 mem = .ok (s, memMap', base)) :
    efiMain memMap cr3 segments mem = .ok {
      mapping := s.run (segmentCalls segments)
      memMap := memMap'
      mappingBase := base
      pml4Pointer := s.pml4Pointer
      usedMappingPageCount := s.getMappingPointersAndCount.2 } := by
  rw [efiMain, hinit, ← foldl_mapPages]
  rfl

/-! ### Calls that need no table -/

namespace Pool

variable {root : Frame} {newMap pageCount : UInt64} {s : Mapping} {L : ℕ → Set Frame}

/-- Calls that take no pages have found their page tables. -/
theorem present_of_run : ∀ {calls : List MapCall} {s : Mapping} {L : ℕ → Set Frame},
    Pool .mapAll root newMap pageCount s L →
    (∀ before c after, calls = before ++ c :: after → c.Fits .mapAll root (s.run before)) →
    s.draws calls = [] → ∀ c ∈ calls, ∃ g, s.table root (upperPath c.vaAddr) = some g := by
  intro calls
  induction calls with
  | nil => exact fun _ _ _ _ hc => absurd hc List.not_mem_nil
  | cons c calls ih =>
    intro s L h hcalls hdraws c' hc'
    obtain ⟨hhead, htail⟩ := List.append_eq_nil_iff.mp hdraws
    obtain ⟨⟨L', h'⟩, -⟩ := h.mapPage (hcalls [] c calls rfl)
    obtain ⟨hgrown, -, g, hg⟩ := h.mapPage_grown (hcalls [] c calls rfl)
    rw [hhead] at hgrown
    -- no table has come in with the first call
    have hold : ∀ {π f}, (s.mapPage c.physAddr c.vaAddr).2.table root π = some f →
        s.table root π = some f := fun {π f} hf =>
      (hgrown.only π f hf).resolve_right fun ⟨d, hd, _⟩ => absurd hd List.not_mem_nil
    rcases List.mem_cons.mp hc' with rfl | hc'
    · exact ⟨g, hold hg⟩
    · obtain ⟨g', hg'⟩ := ih h' (fun before c' after heq =>
        hcalls (c :: before) c' after (by rw [heq]; rfl)) htail c' hc'
      exact ⟨g', hold hg'⟩

end Pool

/-- Without new pages the tables are the same. -/
theorem Grown.table_iff {root f : Frame} {s s' : Mapping} {π : List (Fin 512)}
    (h : Grown root s s' []) : s'.table root π = some f ↔ s.table root π = some f :=
  ⟨fun hf => (h.only π f hf).resolve_right fun ⟨_, hd, _⟩ => absurd hd List.not_mem_nil,
    h.keep π f⟩

/-! ### The count -/

section Count

variable {mem : UInt64 → UInt64} {root : Frame} {tables dest : UefiDescriptor} {s : Mapping}
  {newMap pageCount : UInt64} {d : EfiMemoryDescriptor} {calls : List MapCall}

theorem Picks.room {memMap : List UefiDescriptor} {cr3 : UInt64} {k : ℕ}
    (h : Picks memMap cr3 tables dest k) :
    tables.numberOfPages.toNat ≤ dest.numberOfPages.toNat := by
  have hfree := h.found_free
  unfold findFree at hfree
  split at hfree
  · rename_i i hi
    obtain rfl := Except.ok.inj hfree
    obtain ⟨hlt, hfound, -⟩ := List.findIdx?_eq_some_iff_getElem.mp hi
    have hdest := h.dest_eq
    rw [List.getElem?_eq_getElem hlt] at hdest
    rw [Option.some.inj hdest] at hfound
    exact UInt64.le_iff_toNat_le.mp (of_decide_eq_true hfound).1
  · cases hfree

/-- The count gives the pages up to the first page of the pool. -/
theorem Cursor.count_eq (h : Cursor root newMap pageCount s) (hbase : s.mappingBaseAddress = newMap)
    (haligned : newMap.toNat % 4096 = 0) :
    newMap.toNat + 4096 * s.getMappingPointersAndCount.2.toNat =
      s.nextAvailableMappingPage.toNat := by
  have hle := h.le_next
  have hnext := h.aligned
  have hdiv : s.getMappingPointersAndCount.2.toNat =
      (s.nextAvailableMappingPage.toNat - newMap.toNat) / 4096 := by
    rw [Mapping.getMappingPointersAndCount, toNat_shiftRight (n := 12) rfl, hbase,
      UInt64.toNat_sub_of_le _ _ (UInt64.le_iff_toNat_le.mpr hle)]
    rfl
  omega

/-- The count covers the tables if none lies behind the first page of the pool. -/
theorem counted_iff {used : UInt64} {start : ℕ}
    (hstart : d.physicalStart.toNat + 4096 * used.toNat = start) :
    s.Counted root d used ↔
      ¬ s.Late root start (d.physicalStart.toNat + 4096 * d.numberOfPages.toNat) := by
  constructor
  · rintro hcounted ⟨π, f, hf, hle, hend⟩
    have hlt := hcounted π f hf ⟨by omega, hend⟩
    omega
  · intro hlate π f hf hin
    by_contra hge
    obtain ⟨hle, hend⟩ := hin
    exact hlate ⟨π, f, hf, by omega, hend⟩

/-- A page that a run takes is a table that the count does not cover. -/
theorem Pool.not_counted_of_draw {L : ℕ → Set Frame} (h : Pool .mapAll root newMap pageCount s L)
    (hcalls : ∀ before c after, calls = before ++ c :: after → c.Fits .mapAll root (s.run before))
    (hcount : d.physicalStart.toNat + 4096 * s.getMappingPointersAndCount.2.toNat =
      s.nextAvailableMappingPage.toNat)
    (hroom : newMap.toNat + 4096 * pageCount.toNat ≤
      d.physicalStart.toNat + 4096 * d.numberOfPages.toNat)
    {draw : Draw} (hdraw : draw ∈ s.draws calls) :
    ¬ (s.run calls).Counted root d s.getMappingPointersAndCount.2 := by
  obtain ⟨⟨L', h'⟩, hstretch⟩ := h.run hcalls
  obtain ⟨π, f, hf, hpage⟩ := (h.run_grown hcalls).linked draw hdraw
  obtain ⟨hle, hle'⟩ := hstretch.within draw hdraw
  rw [hpage] at hle hle'
  have hend := h'.count
  rw [counted_iff hcount, not_not]
  exact ⟨π, f, hf, hle, by omega⟩

/-- If the count covers the tables when it is taken, the invariant of the pool holds. -/
theorem pool_of_counted (h : Relocatable mem root tables.physicalStart dest.physicalStart
      tables.numberOfPages) (hmirror : Mirrorable mem root)
    (hused : ∃ i, word mem root i &&& presentFlag ≠ 0)
    (hlate : ¬ (initialMapping .mapAll root.addr tables dest mem).Late
      (moved dest.physicalStart tables.physicalStart root)
      (initialMapping .mapAll root.addr tables dest mem).nextAvailableMappingPage.toNat
      (dest.physicalStart.toNat + 4096 * tables.numberOfPages.toNat)) :
    ∃ L, Pool .mapAll (moved dest.physicalStart tables.physicalStart root) dest.physicalStart
      tables.numberOfPages (initialMapping .mapAll root.addr tables dest mem) L := by
  have hcursor : Cursor _ _ _ (initialMapping .mapAll root.addr tables dest mem) :=
    initial_cursor .mapAll h hused
  have hlevels : Levels _ _ _ (SelfLink .mapAll _) _ := initial_levels h fun _ => hmirror
  have hroot : moved dest.physicalStart tables.physicalStart root ∈
      movedLevels mem root tables.physicalStart dest.physicalStart 0 :=
    mem_movedLevels_zero.mpr rfl
  generalize initialMapping .mapAll root.addr tables dest mem = s at *
  -- what the count says of the tables is the one part of the pool that the start leaves open
  refine ⟨_, hlevels.linked (fun _ _ => Pool.not_selfLink_mapAll) hroot fun m m' w g hm hg => ?_,
    hcursor.pml4, ⟨[], rfl, tableAt_nil ..⟩, ?_, ?_, hcursor.aligned, hcursor.le_next,
    hcursor.count, hcursor.end_le⟩
  · obtain ⟨hpresent, -, hsize, hframe⟩ := decode_eq_table.mp hg
    exact decode_eq_table.mpr ⟨hpresent, hm, hsize, hframe⟩
  · rintro k f hk ⟨π, rfl, hf⟩
    have hmem := hlevels.mem_of_tableAt (fun _ _ => Pool.not_selfLink_mapAll) hroot hf (by omega)
    obtain ⟨hle, hend⟩ := h.movedLevels_in hk hmem
    refine ⟨hle, ?_⟩
    by_contra hnext
    have halign := hcursor.aligned
    have hfAligned := f.aligned
    exact hlate ⟨π, f, hf, by omega, hend⟩
  · rintro f ⟨π, hπ, hf⟩
    have hmem := hlevels.mem_of_tableAt (fun _ _ => Pool.not_selfLink_mapAll) hroot hf (by omega)
    rw [hπ] at hmem
    have hoff := h.movedLevels_off hmem
    have hle := hcursor.le_next
    omega

/-- The two parts of what the kernel relies on, as a condition on the tables. -/
theorem tablesReserved_iff_rounds {bt : BootTable} {h : Handoff}
    (hroot : entryFrame h.pml4Pointer = root) (htype : d.type = 0x10) :
    TablesReserved bt d h ↔ h.mapping.Counted root d h.usedMappingPageCount ∧
      ∀ i, h.usedMappingPageCount ≤ i → i < d.numberOfPages →
        BootTable.SafeRound (d.physicalStart, i) ∧
          ∀ p ∈ BootTable.clearedPages (BootTable.roundPage (d.physicalStart, i)),
            ¬ h.mapping.TablePage root p := by
  have hstart : (h.bootTable bt).loopStart d.type = some h.usedMappingPageCount := by
    rw [BootTable.loopStart, if_pos htype]
    rfl
  have hkeeps := BootTable.markDescriptor_keeps_iff shiftedOne hstart
    (P := h.mapping.TablePage root)
  simp only [BootTable.clears_shiftedOne] at hkeeps
  rw [← hkeeps, ← hroot]
  exact ⟨fun h => ⟨h.counted, h.kept⟩, fun h => ⟨h.1, h.2⟩⟩

/-- Where the count suffices, no table comes in. -/
theorem CountSuffices.reserved {L : ℕ → Set Frame} (hc : CountSuffices d s root calls)
    (hpool : Pool .mapAll root newMap pageCount s L) :
    (s.run calls).Counted root d s.getMappingPointersAndCount.2 ∧
      ∀ i, s.getMappingPointersAndCount.2 ≤ i → i < d.numberOfPages →
        BootTable.SafeRound (d.physicalStart, i) ∧
          ∀ p ∈ BootTable.clearedPages (BootTable.roundPage (d.physicalStart, i)),
            ¬ (s.run calls).TablePage root p := by
  obtain ⟨hfits, hdraws⟩ := hpool.run_of_present hc.present
  have hgrown := hpool.run_grown hfits
  rw [hdraws] at hgrown
  refine ⟨fun π f hf => hc.counted π f (hgrown.table_iff.mp hf), fun i hle hlt => ?_⟩
  obtain ⟨hsafe, hpage⟩ := hc.rounds i hle hlt
  exact ⟨hsafe, fun p hp ⟨π, f, hf, heq⟩ => hpage p hp ⟨π, f, hgrown.table_iff.mp hf, heq⟩⟩

/-- If the tables are covered in the end, they were when the count was taken, and no page
has been taken since. -/
theorem countSuffices_of_reserved {L : ℕ → Set Frame}
    (hpool : Pool .mapAll root newMap pageCount s L)
    (hfits : ∀ before c after, calls = before ++ c :: after → c.Fits .mapAll root (s.run before))
    (hcount : d.physicalStart.toNat + 4096 * s.getMappingPointersAndCount.2.toNat =
      s.nextAvailableMappingPage.toNat)
    (hroom : newMap.toNat + 4096 * pageCount.toNat ≤
      d.physicalStart.toNat + 4096 * d.numberOfPages.toNat)
    (hcounted : (s.run calls).Counted root d s.getMappingPointersAndCount.2)
    (hrounds : ∀ i, s.getMappingPointersAndCount.2 ≤ i → i < d.numberOfPages →
      BootTable.SafeRound (d.physicalStart, i) ∧
        ∀ p ∈ BootTable.clearedPages (BootTable.roundPage (d.physicalStart, i)),
          ¬ (s.run calls).TablePage root p) :
    CountSuffices d s root calls := by
  have hdraws : s.draws calls = [] := List.eq_nil_iff_forall_not_mem.mpr fun draw hdraw =>
    hpool.not_counted_of_draw hfits hcount hroom hdraw hcounted
  have hgrown := hpool.run_grown hfits
  rw [hdraws] at hgrown
  refine ⟨fun π f hf => hcounted π f (hgrown.table_iff.mpr hf), hpool.present_of_run hfits hdraws,
    fun i hle hlt => ?_⟩
  obtain ⟨hsafe, hpage⟩ := hrounds i hle hlt
  exact ⟨hsafe, fun p hp ⟨π, f, hf, heq⟩ => hpage p hp ⟨π, f, hgrown.table_iff.mpr hf, heq⟩⟩

end Count

/-! ### When the tables are reserved -/

section Reserved

variable {memMap memMap' : List UefiDescriptor} {mem : UInt64 → UInt64} {root : Frame}
  {tables dest : UefiDescriptor} {k : ℕ} {s : Mapping} {base : UInt64} {segments : List Segment}
  {bt : BootTable} {d : EfiMemoryDescriptor} {h : Handoff}

/-- The tables are reserved if the count covers them when it is taken, every page of the
kernel's segments finds its page table, and the kernel's loop over the descriptor stays
defined and away from the tables.  If the calls of `map_page` meet no large page and the
pool is not used up, they are reserved in no other case. -/
theorem tablesReserved_iff (hpicks : Picks memMap root.addr tables dest k)
    (hinit : initVirtualMapping memMap .mapAll root.addr mem = .ok (s, memMap', base))
    (hmain : efiMain memMap root.addr segments mem = .ok h)
    (hd : (h.bootTable bt).memTable[k]? = some d)
    (hreloc : Relocatable mem root tables.physicalStart dest.physicalStart tables.numberOfPages)
    (hmirror : Mirrorable mem root) (hused : ∃ i, word mem root i &&& presentFlag ≠ 0) :
    (CountSuffices d s (moved dest.physicalStart tables.physicalStart root)
        (segmentCalls segments) → TablesReserved bt d h) ∧
    ((∀ before c after, segmentCalls segments = before ++ c :: after →
        c.Fits .mapAll (moved dest.physicalStart tables.physicalStart root) (s.run before)) →
      TablesReserved bt d h →
      CountSuffices d s (moved dest.physicalStart tables.physicalStart root)
        (segmentCalls segments)) := by
  rw [efiMain_eq segments hinit] at hmain
  obtain rfl := Except.ok.inj hmain
  rw [initVirtualMapping_eq hpicks] at hinit
  obtain ⟨rfl, hpair⟩ := Prod.mk.inj (Except.ok.inj hinit)
  obtain ⟨rfl, rfl⟩ := Prod.mk.inj hpair
  obtain ⟨rfl⟩ : { dest with type := 0x10 }.toEfiMemoryDescriptor = d := by
    rw [Handoff.bootTable, List.getElem?_map, List.getElem?_modify_eq, hpicks.dest_eq] at hd
    exact Option.some.inj hd
  have hcursor := initial_cursor .mapAll hreloc hused
  have hcount := hcursor.count_eq rfl hreloc.new_aligned
  have hpool := pool_of_counted hreloc hmirror hused
  have hroom : dest.physicalStart.toNat + 4096 * tables.numberOfPages.toNat ≤
      dest.physicalStart.toNat + 4096 * dest.numberOfPages.toNat :=
    Nat.add_le_add_left (Nat.mul_le_mul_left 4096 hpicks.room) _
  have hpml4 : entryFrame (initialMapping .mapAll root.addr tables dest mem).pml4Pointer =
      moved dest.physicalStart tables.physicalStart root := by
    rw [hcursor.pml4, entryFrame_addr]
  rw [tablesReserved_iff_rounds hpml4 rfl]
  generalize initialMapping .mapAll root.addr tables dest mem = s at *
  generalize moved dest.physicalStart tables.physicalStart root = newRoot at *
  constructor
  · intro hc
    obtain ⟨L, hL⟩ := hpool fun hlate => (counted_iff hcount).mp hc.counted
      (hlate.mono le_rfl hroom)
    exact hc.reserved hL
  · rintro hfits ⟨hcounted, hrounds⟩
    -- a table that was late at first would still be, or another one in its place
    obtain ⟨L, hL⟩ := hpool fun hlate => (counted_iff hcount).mp hcounted
      (hcursor.run_late hroom hfits le_rfl (hlate.mono le_rfl hroom))
    exact countSuffices_of_reserved hL hfits hcount hroom hcounted hrounds

end Reserved

/-! ### A kernel under an entry of its own -/

/-- The descriptor of the moved tables as the kernel gets it. -/
def exampleReserved : EfiMemoryDescriptor :=
  ⟨0x10, exampleDest.physicalStart, exampleDest.numberOfPages⟩

/-- The boot of the example with a kernel of one page. -/
def exampleHandoff : Handoff where
  mapping := (exampleMapping largePage 8).run [⟨0x5000, 0xFFFFFFFF80000000⟩]
  memMap := [exampleTables 8, { exampleDest with type := 0x10 }]
  mappingBase := (initialSetUp .mapAll firmwareRoot.addr (exampleTables 8) exampleDest
    (firmwareMem largePage)).2
  pml4Pointer := (exampleMapping largePage 8).pml4Pointer
  usedMappingPageCount := (exampleMapping largePage 8).getMappingPointersAndCount.2

theorem efiMain_example : efiMain [exampleTables 8, exampleDest] firmwareRoot.addr
    [⟨0x5000, 0xFFFFFFFF80000000, 1⟩] (firmwareMem largePage) = .ok exampleHandoff :=
  efiMain_eq _ (initVirtualMapping_eq examplePicks)

theorem firmwareMem_used :
    ∃ i, word (firmwareMem largePage) firmwareRoot i &&& presentFlag ≠ 0 :=
  firmwareMem_usedToTheTop.root_used

/-- The criterion for this boot. -/
theorem tablesReserved_example_iff :
    TablesReserved BootTable.smallBoot exampleReserved exampleHandoff ↔
      CountSuffices exampleReserved (exampleMapping largePage 8) exampleRoot
        [⟨0x5000, 0xFFFFFFFF80000000⟩] := by
  have hreloc := @exampleRelocatable largePage 8 largePage_ne_table (by decide)
  obtain ⟨hsuff, hnec⟩ := tablesReserved_iff (d := exampleReserved)
    examplePicks (initVirtualMapping_eq examplePicks) efiMain_example rfl hreloc
    firmwareMem_mirrorable firmwareMem_used
  rw [moved_firmwareRoot] at hsuff hnec
  exact ⟨hnec (exampleFits.run_cons MapCall.fits_nil), hsuff⟩

/-- The three tables for the kernel's page lie behind the count. -/
theorem not_tablesReserved_example :
    efiMain [exampleTables 8, exampleDest] firmwareRoot.addr [⟨0x5000, 0xFFFFFFFF80000000, 1⟩]
        (firmwareMem largePage) = .ok exampleHandoff ∧
      (exampleHandoff.bootTable BootTable.smallBoot).memTable[1]? = some exampleReserved ∧
      ¬ TablesReserved BootTable.smallBoot exampleReserved exampleHandoff := by
  refine ⟨efiMain_example, rfl, fun hreserved => ?_⟩
  have hcount := examplePool.cursor.count_eq rfl rfl
  have hroot : entryFrame exampleHandoff.pml4Pointer = exampleRoot := by
    rw [exampleHandoff, examplePool.pml4, entryFrame_addr]
  obtain ⟨hcounted, -⟩ := (tablesReserved_iff_rounds hroot rfl).mp hreserved
  have habsent : decode 3 (word (exampleMapping largePage 8).mem exampleRoot
      (toIndex (vaGetPml4Index 0xFFFFFFFF80000000))) = .absent :=
    exampleRoot_entry largePage_ne_table (by decide) (.inr (by decide))
  have hdraw := @Mapping.first_draw _ _ 0xFFFFFFFF80000000 0x5000 examplePool.pml4 habsent
  have hroom := examplePicks.room
  dsimp only [exampleHandoff] at hcounted
  exact examplePool.not_counted_of_draw (exampleFits.run_cons MapCall.fits_nil) hcount
    (by omega) hdraw hcounted

end Betelgeuse
