/-
The state in which `init_virtual_mapping` leaves the tables.

`Picks` says which descriptors it uses, and `initialMapping` is the state that it then
makes (`initVirtualMapping_eq`).  The pool starts behind the page of the highest entry
in use.  If no table lies above that page (`UsedToTheTop`), and `MAPPING_TYPE_MAP_ALL`
copies entries in use only (`Mirrorable`), that is a start for the invariant of the
pool (`initial_pool`).
-/
import Betelgeuse.UefiPool

open PageTree RangeLoop WordArith

namespace Betelgeuse

/-! ### What is picked -/

/-- The descriptor with the tables, and the index of the one they are moved to. -/
structure Picks (memMap : List UefiDescriptor) (cr3 : UInt64) (tables dest : UefiDescriptor)
    (k : ℕ) : Prop where
  found_tables : findTables memMap cr3 = .ok tables
  found_free : findFree memMap tables.numberOfPages = .ok k
  dest_eq : memMap[k]? = some dest

/-- Memory and `*mapping_base` after `init_virtual_mapping`. -/
def initialSetUp (mappingType : MappingType) (cr3 : UInt64) (tables dest : UefiDescriptor)
    (mem : UInt64 → UInt64) : (UInt64 → UInt64) × UInt64 :=
  let oldMap := tables.physicalStart
  let newMap := dest.physicalStart
  let scan := relocateTables newMap oldMap tables.numberOfPages cr3 mem
  let pml4Pointer := newMap + (cr3 &&& addrMask) - oldMap
  let newCr3 := (cr3 &&& ~~~addrMask) ||| (pml4Pointer &&& addrMask)
  setUpMapping mappingType (newMap + cr3 - oldMap) pml4Pointer (setWritable newCr3 cr3 scan.mem)

/-- The state after `init_virtual_mapping`. -/
def initialMapping (mappingType : MappingType) (cr3 : UInt64) (tables dest : UefiDescriptor)
    (mem : UInt64 → UInt64) : Mapping :=
  let oldMap := tables.physicalStart
  let newMap := dest.physicalStart
  let scan := relocateTables newMap oldMap tables.numberOfPages cr3 mem
  let nextPage := 0x1000 + scan.highestAddr - scan.highestAddr % 0x1000
  { mem := (initialSetUp mappingType cr3 tables dest mem).1
    pml4Pointer := newMap + (cr3 &&& addrMask) - oldMap
    nextAvailableMappingPage := nextPage
    availableMappingPageCount := (newMap + tables.numberOfPages <<< 12 - nextPage) >>> 12
    mappingBaseAddress := newMap }

section Picks

variable {memMap : List UefiDescriptor} {cr3 : UInt64} {tables dest : UefiDescriptor} {k : ℕ}
  {mappingType : MappingType} {mem : UInt64 → UInt64}

theorem initVirtualMapping_eq (h : Picks memMap cr3 tables dest k) :
    initVirtualMapping memMap mappingType cr3 mem =
      .ok (initialMapping mappingType cr3 tables dest mem,
        memMap.modify k fun d => { d with type := 0x10 },
        (initialSetUp mappingType cr3 tables dest mem).2) := by
  have hdest : (memMap.modify k fun d => { d with type := 0x10 })[k]? =
      some { dest with type := 0x10 } := by
    rw [List.getElem?_modify_eq, h.dest_eq]
    rfl
  unfold initVirtualMapping
  rw [h.found_tables]
  show (findFree memMap tables.numberOfPages >>= _) = _
  rw [h.found_free]
  dsimp only [bind, Except.bind]
  rw [hdest]
  rfl

end Picks

/-! ### The highest entry -/

namespace Relocatable

variable {mem : UInt64 → UInt64} {root f g : Frame} {oldMap newMap pageCount : UInt64}

/-- What the loops find are the present entries of the three upper levels. -/
theorem found_iff (h : Relocatable mem root oldMap newMap pageCount) {a : UInt64} :
    (∃ i, Scan.pml4Found newMap oldMap
        (copyMap newMap oldMap ((pageCount <<< 12).toNat / 8) mem) (moved newMap oldMap root) i a) ↔
      ∃ π f i, π.length ≤ 2 ∧ tableAt decode (word mem) root 4 π = some f ∧
        word mem f i &&& presentFlag ≠ 0 ∧
        a = (moved newMap oldMap f).addr + 8 * UInt64.ofNat (i : Fin 512).val := by
  have hcopy : ∀ {π f}, π.length ≤ 2 → tableAt decode (word mem) root 4 π = some f → ∀ i,
      word (copyMap newMap oldMap ((pageCount <<< 12).toNat / 8) mem) (moved newMap oldMap f) i =
        word mem f i := fun {π f} hπ hf => h.word_copyMap (h.tables_in π f hπ hf)
  have hroot := hcopy (π := []) (by decide) (tableAt_nil ..)
  -- the loops go down one level after the other, as the path of a table does
  constructor
  · rintro ⟨i, ⟨rfl, hpresent⟩ | ⟨p, hp, hpdp⟩⟩
    · rw [hroot] at hpresent
      exact ⟨[], root, i, by decide, tableAt_nil .., hpresent, rfl⟩
    · rw [hroot] at hp
      have hpath := tableAt_one hp
      rcases hpdp with ⟨j, rfl, hpresent⟩ | ⟨j, d, hd, k, rfl, hpresent⟩
      · rw [hcopy (by simp) hpath] at hpresent
        exact ⟨[i], p, j, by simp, hpath, hpresent, rfl⟩
      · rw [hcopy (by simp) hpath] at hd
        have hpath' := tableAt_two hp hd
        rw [hcopy (by simp) hpath'] at hpresent
        exact ⟨[i, j], d, k, by simp, hpath', hpresent, rfl⟩
  -- a table of the upper levels has a path of at most two entries
  · rintro ⟨π, f, i, hπ, hf, hpresent, rfl⟩
    rw [← hcopy hπ hf] at hpresent
    rcases π with _ | ⟨a, _ | ⟨b, _ | ⟨c, π⟩⟩⟩
    · obtain rfl : root = f := by simpa using hf
      exact ⟨i, .inl ⟨rfl, hpresent⟩⟩
    · obtain ⟨p, hp, hf⟩ := tableAt_cons_eq_some.mp hf
      obtain rfl : p = f := by simpa using hf
      rw [← hroot] at hp
      exact ⟨a, .inr ⟨p, hp, .inl ⟨i, rfl, hpresent⟩⟩⟩
    · obtain ⟨p, hp, hf⟩ := tableAt_cons_eq_some.mp hf
      obtain ⟨d, hd, hf⟩ := tableAt_cons_eq_some.mp hf
      obtain rfl : d = f := by simpa using hf
      rw [← hcopy (by simp) (tableAt_one hp)] at hd
      rw [← hroot] at hp
      exact ⟨a, .inr ⟨p, hp, .inr ⟨b, d, hd, i, rfl, hpresent⟩⟩⟩
    · simp at hπ

end Relocatable

/-- No table of the upper levels lies above all those with entries in use. -/
def UsedToTheTop (mem : UInt64 → UInt64) (root : Frame) : Prop :=
  ∀ π f, π.length ≤ 2 → tableAt decode (word mem) root 4 π = some f →
    ∃ π' f' i, π'.length ≤ 2 ∧ tableAt decode (word mem) root 4 π' = some f' ∧
      word mem f' i &&& presentFlag ≠ 0 ∧ f.addr ≤ f'.addr

/-- An entry of the PML4 is in use then. -/
theorem UsedToTheTop.root_used {mem : UInt64 → UInt64} {root : Frame}
    (h : UsedToTheTop mem root) : ∃ i, word mem root i &&& presentFlag ≠ 0 := by
  obtain ⟨π, f, i, -, hf, hpresent, -⟩ := h [] root (by decide) (tableAt_nil ..)
  rcases π with _ | ⟨j, π⟩
  · obtain rfl : root = f := by simpa using hf
    exact ⟨i, hpresent⟩
  · obtain ⟨g, hg, -⟩ := tableAt_cons_eq_some.mp hf
    exact ⟨j, (decode_eq_table.mp hg).1⟩

namespace Relocatable

variable {mem : UInt64 → UInt64} {root f g : Frame} {oldMap newMap pageCount : UInt64}

/-- The address that the last pass reports is that of the highest entry in use of the tables,
if there is one. -/
theorem exists_highestAddr (h : Relocatable mem root oldMap newMap pageCount)
    (hused : ∃ π f i, π.length ≤ 2 ∧ tableAt decode (word mem) root 4 π = some f ∧
      word mem f i &&& presentFlag ≠ 0) {high : UInt64}
    (hhigh : high = (relocateTables newMap oldMap pageCount root.addr mem).highestAddr) :
    (∃ π f i, π.length ≤ 2 ∧ tableAt decode (word mem) root 4 π = some f ∧
      word mem f i &&& presentFlag ≠ 0 ∧
      high.toNat = (moved newMap oldMap f).addr.toNat + 8 * i.val) ∧
    ∀ π f i, π.length ≤ 2 → tableAt decode (word mem) root 4 π = some f →
      word mem f i &&& presentFlag ≠ 0 →
      (moved newMap oldMap f).addr.toNat + 8 * i.val ≤ high.toNat := by
  have hhighest := h.rounds.highest
  rw [← hhigh] at hhighest
  have hmem : ∀ {a : UInt64}, (a ∈ (∅ : Set UInt64) ∨ ∃ i : Fin 512, i.val < 512 ∧
      Scan.pml4Found newMap oldMap (copyMap newMap oldMap ((pageCount <<< 12).toNat / 8) mem)
        (moved newMap oldMap root) i a) ↔
      ∃ π f i, π.length ≤ 2 ∧ tableAt decode (word mem) root 4 π = some f ∧
        word mem f i &&& presentFlag ≠ 0 ∧
        a = (moved newMap oldMap f).addr + 8 * UInt64.ofNat (i : Fin 512).val := by
    intro a
    rw [Scan.exists_lt_all, ← h.found_iff]
    exact or_iff_right (Set.notMem_empty a)
  have hle : ∀ π f i, π.length ≤ 2 → tableAt decode (word mem) root 4 π = some f →
      word mem f i &&& presentFlag ≠ 0 →
      (moved newMap oldMap f).addr.toNat + 8 * i.val ≤ high.toNat := by
    intro π f i hπ hf hpresent
    have hword := hhighest.le _ (hmem.mpr ⟨π, f, i, hπ, hf, hpresent, rfl⟩)
    rwa [UInt64.le_iff_toNat_le, toNat_wordAddr] at hword
  refine ⟨?_, hle⟩
  -- 0 is reported only if it is the address of an entry in use
  obtain ⟨π₀, f₀, i₀, hπ₀, hf₀, hpresent₀⟩ := hused
  rcases hhighest.mem with hzero | hin
  · have hle₀ := hle π₀ f₀ i₀ hπ₀ hf₀ hpresent₀
    have hz : high.toNat = 0 := congrArg UInt64.toNat hzero
    exact ⟨π₀, f₀, i₀, hπ₀, hf₀, hpresent₀, by omega⟩
  · obtain ⟨π, f, i, hπ, hf, hpresent, heq⟩ := hmem.mp hin
    exact ⟨π, f, i, hπ, hf, hpresent, by rw [heq, toNat_wordAddr]⟩

/-- The page behind the one of an address. -/
theorem toNat_pageBehind {a : UInt64} (ha : a.toNat + 4096 < 2 ^ 64) :
    (0x1000 + a - a % 0x1000).toNat = a.toNat / 4096 * 4096 + 4096 := by
  have hmod : (a % 0x1000).toNat = a.toNat % 4096 := UInt64.toNat_mod ..
  have hadd : (0x1000 + a).toNat = 4096 + a.toNat := by
    rw [UInt64.toNat_add]
    show (4096 + a.toNat) % 2 ^ 64 = _
    omega
  have hle : a % 0x1000 ≤ 0x1000 + a := by
    rw [UInt64.le_iff_toNat_le, hmod, hadd]
    omega
  rw [UInt64.toNat_sub_of_le _ _ hle, hmod, hadd]
  omega

/-- The first page of the pool is the one behind the table with the highest entry in use,
if there is an entry in use. -/
theorem exists_highest (h : Relocatable mem root oldMap newMap pageCount)
    (hused : ∃ π f i, π.length ≤ 2 ∧ tableAt decode (word mem) root 4 π = some f ∧
      word mem f i &&& presentFlag ≠ 0) {c : UInt64}
    (hc : c = 0x1000 + (relocateTables newMap oldMap pageCount root.addr mem).highestAddr -
      (relocateTables newMap oldMap pageCount root.addr mem).highestAddr % 0x1000) :
    ∃ π f i, π.length ≤ 2 ∧ tableAt decode (word mem) root 4 π = some f ∧
      word mem f i &&& presentFlag ≠ 0 ∧ c.toNat = (moved newMap oldMap f).addr.toNat + 4096 ∧
      ∀ π' f' i', π'.length ≤ 2 → tableAt decode (word mem) root 4 π' = some f' →
        word mem f' i' &&& presentFlag ≠ 0 → f'.addr.toNat ≤ f.addr.toNat := by
  obtain ⟨⟨π, f, i, hπ, hf, hpresent, hhigh⟩, hle⟩ := h.exists_highestAddr hused rfl
  generalize (relocateTables newMap oldMap pageCount root.addr mem).highestAddr = high at *
  have halign := (moved newMap oldMap f).aligned
  have hi := i.isLt
  have hin := h.tables_in π f hπ hf
  have hplace := h.toNat_moved hin
  refine ⟨π, f, i, hπ, hf, hpresent, ?_, fun π' f' i' hπ' hf' hpresent' => ?_⟩
  · have hend := h.new_end
    have hbelow := (h.moved_inRegion hin).2
    rw [hc, toNat_pageBehind (by omega)]
    omega
  · have hword := hle π' f' i' hπ' hf' hpresent'
    have hin' := h.tables_in π' f' hπ' hf'
    have hplace' := h.toNat_moved hin'
    have hfrom := hin.1
    have hfrom' := hin'.1
    have halign' := (moved newMap oldMap f').aligned
    omega

/-- The first page of the pool is the one behind a table, and behind all tables. -/
theorem nextPage (h : Relocatable mem root oldMap newMap pageCount) (htop : UsedToTheTop mem root)
    {c : UInt64}
    (hc : c = 0x1000 + (relocateTables newMap oldMap pageCount root.addr mem).highestAddr -
      (relocateTables newMap oldMap pageCount root.addr mem).highestAddr % 0x1000) :
    (∃ f, InRegion newMap pageCount f ∧ c.toNat = f.addr.toNat + 4096) ∧
      ∀ π f, π.length ≤ 2 → tableAt decode (word mem) root 4 π = some f →
        (moved newMap oldMap f).addr.toNat + 4096 ≤ c.toNat := by
  obtain ⟨π₀, f₀, i₀, hπ₀, hf₀, hpresent₀, -⟩ := htop [] root (by decide) (tableAt_nil ..)
  obtain ⟨π, f, i, hπ, hf, -, hcNat, hmax⟩ :=
    h.exists_highest ⟨π₀, f₀, i₀, hπ₀, hf₀, hpresent₀⟩ hc
  have hin := h.tables_in π f hπ hf
  refine ⟨⟨_, h.moved_inRegion hin, hcNat⟩, fun π' f' hπ' hf' => ?_⟩
  obtain ⟨π'', f'', j, hπ'', hf'', hpresent, hle⟩ := htop π' f' hπ' hf'
  have hle' := hmax π'' f'' j hπ'' hf'' hpresent
  have hplace := h.toNat_moved hin
  have hplace' := h.toNat_moved (h.tables_in π' f' hπ' hf')
  have hle : f'.addr.toNat ≤ f''.addr.toNat := UInt64.le_iff_toNat_le.mp hle
  omega

end Relocatable

/-! ### The levels of the moved tables -/

/-- The moved tables, by the length of their paths. -/
def movedLevels (mem : UInt64 → UInt64) (root : Frame) (oldMap newMap : UInt64) (k : ℕ) :
    Set Frame :=
  {g | ∃ π f, π.length = k ∧ tableAt decode (word mem) root 4 π = some f ∧
    g = newPlace newMap oldMap k f}

section Levels

variable {mem : UInt64 → UInt64} {root f g : Frame} {oldMap newMap pageCount : UInt64}

theorem mem_movedLevels_zero :
    f ∈ movedLevels mem root oldMap newMap 0 ↔ f = moved newMap oldMap root := by
  constructor
  · rintro ⟨π, g, hπ, hg, rfl⟩
    obtain rfl := List.length_eq_zero_iff.mp hπ
    obtain rfl : root = g := by simpa using hg
    rfl
  · rintro rfl
    exact ⟨[], root, rfl, tableAt_nil .., rfl⟩

/-- The moved tables of the upper levels lie in the new region. -/
theorem Relocatable.movedLevels_in (h : Relocatable mem root oldMap newMap pageCount) {k : ℕ}
    (hk : k ≤ 2) (hf : f ∈ movedLevels mem root oldMap newMap k) : InRegion newMap pageCount f := by
  obtain ⟨π, g, rfl, hg, rfl⟩ := hf
  have hplace : newPlace newMap oldMap π.length g = moved newMap oldMap g := if_pos hk
  rw [hplace]
  exact h.moved_inRegion (h.tables_in π g hk hg)

/-- The page tables do not. -/
theorem Relocatable.movedLevels_off (h : Relocatable mem root oldMap newMap pageCount)
    (hf : f ∈ movedLevels mem root oldMap newMap 3) :
    f.addr.toNat + 4096 ≤ newMap.toNat ∨
      newMap.toNat + 4096 * pageCount.toNat ≤ f.addr.toNat := by
  obtain ⟨π, g, hπ, hg, heq⟩ := hf
  have hplace : newPlace newMap oldMap 3 g = g := if_neg (by decide)
  rw [heq, hplace]
  exact h.page_tables_off π g hπ hg

theorem Relocatable.levels (h : Relocatable mem root oldMap newMap pageCount) :
    Levels decode (word (relocateTables newMap oldMap pageCount root.addr mem).mem) 3
      (fun _ _ => False) (movedLevels mem root oldMap newMap) where
  down k m f i g hk hf _ hg := by
    obtain ⟨π, f, rfl, hf, rfl⟩ := hf
    obtain ⟨hpresent, -, hsize, hframe⟩ := decode_eq_table.mp hg
    have hentry := h.moves.entry π f (3 - π.length) i (by omega) hf
    have hg' : decode (3 - π.length)
        (word (relocateTables newMap oldMap pageCount root.addr mem).mem
        (newPlace newMap oldMap π.length f) i) = .table g :=
      decode_eq_table.mpr ⟨hpresent, by omega, hsize, hframe⟩
    -- a moved table has the entries of the old one, up to their frames
    rw [hentry] at hg'
    cases hold : decode (3 - π.length) (word mem f i) with
    | absent =>
      rw [hold] at hg'
      cases hg'
    | leaf =>
      rw [hold] at hg'
      cases hg'
    | table d =>
      rw [hold] at hg'
      refine ⟨π ++ [i], d, by simp, ?_, (Entry.table.inj hg').symm⟩
      exact tableAt_concat.mpr ⟨f, 3 - π.length, by omega, hf, hold⟩
  up k m f i g _ _ hback _ := hback.elim
  apart k k' f hk hk' hf hf' := by
    -- the upper levels lie in the new pages, and the page tables outside of them
    rcases Nat.lt_or_ge k 3 with hlt | hge
    · have hin := h.movedLevels_in (by omega) hf
      rcases Nat.lt_or_ge k' 3 with hlt' | hge'
      · obtain ⟨π, g, hπ, hg, rfl⟩ := hf
        obtain ⟨π', g', hπ', hg', heq⟩ := hf'
        subst hπ hπ'
        by_contra hne
        have hplace : newPlace newMap oldMap π.length g = moved newMap oldMap g :=
          if_pos (by omega)
        have hplace' : newPlace newMap oldMap π'.length g' = moved newMap oldMap g' :=
          if_pos (by omega)
        rw [hplace, hplace'] at heq
        exact h.moved_ne hg hg' (by omega) (by omega) (fun h => hne (congrArg List.length h)) heq
      · obtain rfl : k' = 3 := by omega
        have hoff := h.movedLevels_off hf'
        obtain ⟨hle, hle'⟩ := hin
        omega
    · obtain rfl : k = 3 := by omega
      rcases Nat.lt_or_ge k' 3 with hlt' | hge'
      · have hin := h.movedLevels_in (by omega) hf'
        have hoff := h.movedLevels_off hf
        obtain ⟨hle, hle'⟩ := hin
        omega
      · omega

end Levels

/-! ### Setting up the PML4 -/

section SetUp

variable {mem mem' : UInt64 → UInt64} {root f g : Frame} {i : Fin 512} {L : ℕ → Set Frame}

theorem decode_or_writable (n : ℕ) (w : UInt64) : decode n (w ||| writableFlag) = decode n w := by
  have hpresent : (w ||| writableFlag) &&& presentFlag = w &&& presentFlag := by
    rw [and_or_right, show writableFlag &&& presentFlag = 0 by decide, UInt64.or_zero]
  have hsize : (w ||| writableFlag) &&& pageSizeFlag = w &&& pageSizeFlag := by
    rw [and_or_right, show writableFlag &&& pageSizeFlag = 0 by decide, UInt64.or_zero]
  have hframe : entryFrame (w ||| writableFlag) = entryFrame w := by
    refine entryFrame_eq ?_
    rw [and_or_right, show writableFlag &&& addrMask = 0 by decide, UInt64.or_zero]
    rfl
  rw [decode, decode, hpresent, hsize, hframe]

/-- The flag that is set for the old PML4 makes no difference for the tables. -/
theorem decode_setWritable (n : ℕ) (cr3 oldPml4 : UInt64) (f : Frame) (i : Fin 512) :
    decode n (word (setWritable cr3 oldPml4 mem) f i) = decode n (word mem f i) := by
  unfold setWritable word
  dsimp only
  rw [Function.update_apply]
  split
  · rename_i heq
    rw [decode_or_writable, heq]
  · rfl

/-- Every entry of the PML4 that is in use links a table of `S`. -/
def LinksInto (mem : UInt64 → UInt64) (root : Frame) (S : Set Frame) : Prop :=
  ∀ i, word mem root i &&& presentFlag ≠ 0 → ∃ g ∈ S, decode 3 (word mem root i) = .table g

/-- One round of the loop of `MAPPING_TYPE_MAP_ALL`. -/
def mirrorStep (pml4 startIndex : UInt64) (mem : UInt64 → UInt64) (i : ℕ) : UInt64 → UInt64 :=
  let addr := pml4 + 8 * (UInt64.ofNat i + startIndex)
  let mem := Function.update mem addr (mem (pml4 + 8 * UInt64.ofNat i) &&& addrMask)
  Function.update mem addr (mem addr ||| (presentFlag ||| writableFlag))

/-- The entry to which the entry `m` is copied. -/
def mirrorIndex (count m : ℕ) (hm : m < count) : Fin 512 := ⟨m + 511 - count, by omega⟩

theorem word_mirrorStep (mem : UInt64 → UInt64) (root : Frame) {count m : ℕ}
    (hcount : count ≤ 511) (hm : m < count) (f : Frame) (k : Fin 512) :
    word (mirrorStep root.addr (511 - UInt64.ofNat count) mem m) f k =
      if f = root ∧ k = mirrorIndex count m hm then
        word mem root ⟨m, by omega⟩ &&& addrMask ||| (presentFlag ||| writableFlag)
      else word mem f k := by
  have hindex : UInt64.ofNat m + (511 - UInt64.ofNat count) =
      UInt64.ofNat (mirrorIndex count m hm).val := by
    have hsum : UInt64.ofNat m + 511 = UInt64.ofNat (m + 511 - count) + UInt64.ofNat count := by
      rw [← UInt64.ofNat_add, show m + 511 - count + count = m + 511 by omega, UInt64.ofNat_add]
      rfl
    show _ = UInt64.ofNat (m + 511 - count)
    grind
  unfold mirrorStep
  dsimp only
  rw [Function.update_self, Function.update_idem, hindex]
  unfold word
  rw [Function.update_apply]
  exact if_congr wordAddr_inj rfl rfl

theorem decode_mirrored {n : ℕ} (hn : n ≠ 0) (w : UInt64) :
    decode n (w &&& addrMask ||| (presentFlag ||| writableFlag)) = .table (entryFrame w) := by
  have hlow : Mapping.LinkFlags (presentFlag ||| writableFlag) := ⟨by decide, by decide, by decide⟩
  rw [UInt64.or_comm]
  exact hlow.decode hn (entryFrame w)

/-- The copies link what the entries link that they are copied from. -/
theorem mirror_linksInto {S : Set Frame} {count : ℕ} (hcount : count ≤ 511)
    (hpresent : ∀ i : Fin 512, i.val < count → word mem root i &&& presentFlag ≠ 0)
    (hlinks : LinksInto mem root S) :
    LinksInto (mirror root.addr (511 - UInt64.ofNat count) count mem) root S ∧
      ∀ f i, f ≠ root →
        word (mirror root.addr (511 - UInt64.ofNat count) count mem) f i = word mem f i := by
  have hstart : LinksInto mem root S ∧
      (∀ i : Fin 512, i.val < count → word mem root i &&& presentFlag ≠ 0) ∧
      ∀ f i, f ≠ root → word mem f i = word mem f i := ⟨hlinks, hpresent, fun _ _ _ => rfl⟩
  -- by induction on the rounds: a copied entry links what the entry itself does
  obtain ⟨hdone, -, hoff⟩ := foldl_range_induction
    (f := mirrorStep root.addr (511 - UInt64.ofNat count)) (n := count)
    (fun _ (mem' : UInt64 → UInt64) => LinksInto mem' root S ∧
      (∀ i : Fin 512, i.val < count → word mem' root i &&& presentFlag ≠ 0) ∧
      ∀ f i, f ≠ root → word mem' f i = word mem f i) hstart (by
    rintro m mem' hm ⟨hlinks, hpresent, hoff⟩
    have hword := word_mirrorStep mem' root hcount hm
    obtain ⟨g, hg, hlink⟩ := hlinks ⟨m, by omega⟩ (hpresent ⟨m, by omega⟩ hm)
    obtain ⟨-, -, -, hframe⟩ := decode_eq_table.mp hlink
    have hcopy := decode_mirrored (n := 3) (by decide) (word mem' root ⟨m, by omega⟩)
    rw [hframe] at hcopy
    refine ⟨fun k hk => ?_, fun k hk => ?_, fun f k hf => ?_⟩
    · rw [hword root k] at hk ⊢
      by_cases hkm : k = mirrorIndex count m hm
      · rw [if_pos ⟨rfl, hkm⟩]
        exact ⟨g, hg, hcopy⟩
      · rw [if_neg fun h => hkm h.2] at hk ⊢
        exact hlinks k hk
    · rw [hword root k]
      by_cases hkm : k = mirrorIndex count m hm
      · rw [if_pos ⟨rfl, hkm⟩]
        exact (decode_eq_table.mp hcopy).1
      · rw [if_neg fun h => hkm h.2]
        exact hpresent k hk
    · rw [hword f k, if_neg fun h => hf h.1]
      exact hoff f k hf)
  exact ⟨hdone, hoff⟩

/-- The levels after the PML4 has been set up. -/
theorem levels_of_root {back : Frame → Fin 512 → Prop} (hL : L 0 = {root})
    (h : Levels decode (word mem) 3 (fun _ _ => False) L)
    (hoff : ∀ f i, f ≠ root → word mem' f i = word mem f i)
    (hback : ∀ f i, back f i → f = root)
    (hdown : ∀ i m g, ¬ back root i → decode m (word mem' root i) = .table g → g ∈ L 1)
    (hup : ∀ i m g, back root i → decode m (word mem' root i) = .table g → g = root) :
    Levels decode (word mem') 3 back L where
  down k m f i g hk hf hno hg := by
    by_cases hroot : f = root
    · subst hroot
      obtain rfl := h.apart k 0 f hk.le (by decide) hf (hL ▸ rfl)
      exact hdown i m g hno hg
    · rw [hoff f i hroot] at hg
      exact h.down k m f i g hk hf id hg
  up k m f i g _ hf hself hg := by
    obtain rfl := hback f i hself
    obtain rfl := hup i m g hself hg
    exact ⟨k, le_rfl, hf⟩
  apart := h.apart

/-- The number of entries in use. -/
theorem countPresent_congr
    (h : ∀ i, word mem' g i &&& presentFlag = 0 ↔ word mem f i &&& presentFlag = 0) :
    countPresent g.addr mem' = countPresent f.addr mem := by
  unfold countPresent
  refine List.countP_congr fun i hi => ?_
  have hi' := h ⟨i, List.mem_range.mp hi⟩
  rw [decide_eq_true_iff, decide_eq_true_iff]
  exact not_congr hi'

/-- The entry that links the PML4 to itself. -/
theorem word_selfLink (v : UInt64) (f : Frame) (i : Fin 512) :
    word (Function.update mem (root.addr + 8 * 510) v) f i =
      if f = root ∧ i = 510 then v else word mem f i := by
  have hplace : f.addr + 8 * UInt64.ofNat i.val = root.addr + 8 * 510 ↔ f = root ∧ i = 510 :=
    wordAddr_inj (g := root) (j := 510)
  unfold word
  rw [Function.update_apply]
  exact if_congr hplace rfl rfl

/-- The tables that the PML4 links are those of `S`. -/
theorem LinksInto.table_mem {S : Set Frame} {m : ℕ} (h : LinksInto mem root S)
    (hg : decode m (word mem root i) = .table g) : g ∈ S := by
  obtain ⟨hused, -, -, hframe⟩ := decode_eq_table.mp hg
  obtain ⟨g', hg', hlink⟩ := h i hused
  obtain ⟨-, -, -, hframe'⟩ := decode_eq_table.mp hlink
  rwa [← hframe, hframe']

/-- `MAPPING_TYPE_RECURSIVE` adds the self link and nothing else. -/
theorem levels_of_selfLink (hL : L 0 = {root})
    (h : Levels decode (word mem) 3 (fun _ _ => False) L) (hlinks : LinksInto mem root (L 1)) :
    Levels decode (word (setUpMapping .recursive root.addr root.addr mem).1) 3
      (SelfLink .recursive root) L := by
  have hlow : Mapping.LinkFlags (presentFlag ||| writableFlag) :=
    ⟨by decide, by decide, by decide⟩
  have hword : ∀ f i, word (setUpMapping .recursive root.addr root.addr mem).1 f i =
      if f = root ∧ i = 510 then presentFlag ||| writableFlag ||| root.addr
      else word mem f i := by
    intro f i
    rw [setUpMapping, word_selfLink]
  refine levels_of_root hL h (fun f i hf => ?_) (fun f i hself => hself.2.1)
    (fun i m g hno hg => ?_) fun i m g hself hg => ?_
  · rw [hword, if_neg fun heq => hf heq.1]
  · rw [hword, if_neg fun heq => hno ⟨rfl, rfl, heq.2⟩] at hg
    exact hlinks.table_mem hg
  · rw [hword, if_pos ⟨rfl, hself.2.2⟩] at hg
    obtain ⟨-, hm, -, -⟩ := decode_eq_table.mp hg
    rw [hlow.decode hm] at hg
    exact (Entry.table.inj hg).symm

/-- The last part of `init_virtual_mapping` keeps the levels, if `MAPPING_TYPE_MAP_ALL`
copies entries in use only. -/
theorem setUp_levels {ty : MappingType} (hL : L 0 = {root})
    (h : Levels decode (word mem) 3 (fun _ _ => False) L) (hlinks : LinksInto mem root (L 1))
    (hcount : ty = .mapAll → countPresent root.addr mem ≤ 511 ∧
      ∀ i : Fin 512, i.val < countPresent root.addr mem → word mem root i &&& presentFlag ≠ 0)
    (cr3 oldPml4 : UInt64) :
    Levels decode (word (setUpMapping ty root.addr root.addr (setWritable cr3 oldPml4 mem)).1) 3
      (SelfLink ty root) L := by
  -- the writable flag is no part of what the levels say
  have hdecode : ∀ n f i, decode n (word (setWritable cr3 oldPml4 mem) f i) =
      decode n (word mem f i) := fun n f i => decode_setWritable n cr3 oldPml4 f i
  generalize setWritable cr3 oldPml4 mem = mem₂ at hdecode
  have hlevels : Levels decode (word mem₂) 3 (fun _ _ => False) L :=
    h.congr fun k f i m _ _ => hdecode m f i
  -- so what is in use, and what it links to, is the same
  have hpresent : ∀ i, word mem₂ root i &&& presentFlag = 0 ↔
      word mem root i &&& presentFlag = 0 := by
    intro i
    rw [← decode_absent_iff (n := 3), hdecode, decode_absent_iff]
  have hlinks : LinksInto mem₂ root (L 1) := by
    intro i hi
    obtain ⟨g, hg, hlink⟩ := hlinks i ((not_congr (hpresent i)).mp hi)
    exact ⟨g, hg, by rw [hdecode, hlink]⟩
  cases ty with
  | none =>
    exact levels_of_root hL hlevels (fun _ _ _ => rfl) (fun f i hself => hself.2.1)
      (fun i m g _ hg => hlinks.table_mem hg) fun i m g hself _ => by cases hself.1
  | mapAll =>
    obtain ⟨hle, hused⟩ := hcount rfl
    have hsame : countPresent root.addr mem₂ = countPresent root.addr mem :=
      countPresent_congr hpresent
    obtain ⟨hdone, hoff⟩ := @mirror_linksInto mem₂ root (L 1) _ hle
      (fun i hi => (not_congr (hpresent i)).mpr (hused i hi)) hlinks
    have hmem : (setUpMapping .mapAll root.addr root.addr mem₂).1 =
        mirror root.addr (511 - UInt64.ofNat (countPresent root.addr mem))
          (countPresent root.addr mem) mem₂ := by
      rw [setUpMapping, hsame]
    rw [hmem]
    exact levels_of_root hL hlevels hoff (fun f i hself => hself.2.1)
      (fun i m g _ hg => hdone.table_mem hg) fun i m g hself _ => by cases hself.1
  | recursive => exact levels_of_selfLink hL hlevels hlinks

end SetUp

/-- The entries of the PML4 in use are the first ones, and not all are in use. -/
structure Mirrorable (mem : UInt64 → UInt64) (root : Frame) : Prop where
  dense : ∀ i j : Fin 512, i ≤ j → word mem root j &&& presentFlag ≠ 0 →
    word mem root i &&& presentFlag ≠ 0
  free : ∃ i, word mem root i &&& presentFlag = 0

theorem countPresent_eq_count (mem : UInt64 → UInt64) (root : Frame) :
    countPresent root.addr mem =
      Nat.count (fun i => mem (root.addr + 8 * UInt64.ofNat i) &&& presentFlag ≠ 0) 512 := rfl

theorem Mirrorable.count {mem : UInt64 → UInt64} {root : Frame} (h : Mirrorable mem root) :
    countPresent root.addr mem ≤ 511 ∧
      ∀ i : Fin 512, word mem root i &&& presentFlag ≠ 0 ↔ i.val < countPresent root.addr mem := by
  have hiff : ∀ i : Fin 512, word mem root i &&& presentFlag ≠ 0 ↔
      i.val < countPresent root.addr mem := by
    intro i
    rw [countPresent_eq_count]
    exact iff_lt_count (p := fun i => mem (root.addr + 8 * UInt64.ofNat i) &&& presentFlag ≠ 0)
      (fun i j hij hj => h.dense ⟨i, by omega⟩ ⟨j, hj⟩ hij) i.isLt
  obtain ⟨i, hi⟩ := h.free
  refine ⟨?_, hiff⟩
  have hge := (not_congr (hiff i)).mp (not_not.mpr hi)
  have hlt := i.isLt
  omega

/-! ### The start of the pool -/

namespace Relocatable

variable {mem : UInt64 → UInt64} {root f g : Frame} {oldMap newMap pageCount : UInt64}
  {i : Fin 512}

theorem addr_root (h : Relocatable mem root oldMap newMap pageCount) :
    newMap + root.addr - oldMap = (moved newMap oldMap root).addr := by
  rw [h.addr_moved h.root_in, oldAddrToNewMap]
  grind

/-- The moved PML4 has the entries in use that the old one has. -/
theorem present_root_iff (h : Relocatable mem root oldMap newMap pageCount)
    {mem' : UInt64 → UInt64}
    (hmem : ∀ i, decode 3 (word mem' (moved newMap oldMap root) i) =
      decode 3 (word (relocateTables newMap oldMap pageCount root.addr mem).mem
        (moved newMap oldMap root) i)) :
    word mem' (moved newMap oldMap root) i &&& presentFlag = 0 ↔
      word mem root i &&& presentFlag = 0 := by
  have hentry := h.moves.root_entry i
  have hplace : newPlace newMap oldMap 0 root = moved newMap oldMap root := if_pos (by decide)
  rw [hplace] at hentry
  rw [← decode_absent_iff (n := 3), ← decode_absent_iff (n := 3), hmem, hentry]
  cases decode 3 (word mem root i) <;> simp [Entry.map]

theorem countPresent_eq (h : Relocatable mem root oldMap newMap pageCount) :
    countPresent (moved newMap oldMap root).addr
      (relocateTables newMap oldMap pageCount root.addr mem).mem = countPresent root.addr mem :=
  countPresent_congr fun _ => h.present_root_iff fun _ => rfl

/-- Its entries link moved PDPs. -/
theorem linksInto_root (h : Relocatable mem root oldMap newMap pageCount)
    {mem' : UInt64 → UInt64}
    (hmem : ∀ i, decode 3 (word mem' (moved newMap oldMap root) i) =
      decode 3 (word (relocateTables newMap oldMap pageCount root.addr mem).mem
        (moved newMap oldMap root) i)) :
    LinksInto mem' (moved newMap oldMap root) (movedLevels mem root oldMap newMap 1) := by
  intro i hi
  have hold := (not_congr (h.present_root_iff hmem)).mp hi
  have hp : decode 3 (word mem root i) = .table (entryFrame (word mem root i)) :=
    decode_eq_table.mpr ⟨hold, by decide, h.pml4_links i hold, rfl⟩
  have hentry := h.moves.root_entry i
  have hplace : newPlace newMap oldMap 0 root = moved newMap oldMap root := if_pos (by decide)
  rw [hplace, hp, Entry.map, ← hmem] at hentry
  exact ⟨_, ⟨[i], _, rfl, tableAt_one hp, rfl⟩, hentry⟩

end Relocatable

section Start

variable {ty : MappingType} {mem : UInt64 → UInt64} {root : Frame} {tables dest : UefiDescriptor}

theorem initialMapping_pml4 (ty : MappingType)
    (h : Relocatable mem root tables.physicalStart dest.physicalStart tables.numberOfPages) :
    (initialMapping ty root.addr tables dest mem).pml4Pointer =
      (moved dest.physicalStart tables.physicalStart root).addr := by
  rw [← h.addr_root, initialMapping, root.masked]

theorem initialMapping_mem (ty : MappingType)
    (h : Relocatable mem root tables.physicalStart dest.physicalStart tables.numberOfPages) :
    (initialMapping ty root.addr tables dest mem).mem =
      (setUpMapping ty (moved dest.physicalStart tables.physicalStart root).addr
        (moved dest.physicalStart tables.physicalStart root).addr
        (setWritable ((root.addr &&& ~~~addrMask) |||
            ((moved dest.physicalStart tables.physicalStart root).addr &&& addrMask)) root.addr
          (relocateTables dest.physicalStart tables.physicalStart tables.numberOfPages root.addr
            mem).mem)).1 := by
  rw [initialMapping, initialSetUp, root.masked, h.addr_root]

variable (ty mem root tables dest) in
theorem initialMapping_next :
    (initialMapping ty root.addr tables dest mem).nextAvailableMappingPage =
    0x1000 + (relocateTables dest.physicalStart tables.physicalStart tables.numberOfPages root.addr
      mem).highestAddr - (relocateTables dest.physicalStart tables.physicalStart
        tables.numberOfPages root.addr mem).highestAddr % 0x1000 := rfl

variable (ty mem root tables dest) in
theorem initialMapping_count :
    (initialMapping ty root.addr tables dest mem).availableMappingPageCount =
    (dest.physicalStart + tables.numberOfPages <<< 12 -
      (initialMapping ty root.addr tables dest mem).nextAvailableMappingPage) >>> 12 := rfl

/-- The levels after `init_virtual_mapping`. -/
theorem initial_levels (h : Relocatable mem root tables.physicalStart dest.physicalStart
      tables.numberOfPages) (hmirror : ty = .mapAll → Mirrorable mem root) :
    Levels decode (word (initialMapping ty root.addr tables dest mem).mem) 3
      (SelfLink ty (moved dest.physicalStart tables.physicalStart root))
      (movedLevels mem root tables.physicalStart dest.physicalStart) := by
  have hstate := initialMapping_mem ty h
  rw [hstate]
  refine setUp_levels (Set.ext fun f => mem_movedLevels_zero) h.levels
    (h.linksInto_root fun i => rfl) (fun hty => ?_) _ _
  obtain ⟨hle, hiff⟩ := (hmirror hty).count
  have hpresent := fun i => h.present_root_iff (i := i) fun i => rfl
  have hsame := h.countPresent_eq
  rw [hsame]
  exact ⟨hle, fun i hi => (not_congr (hpresent i)).mpr ((hiff i).mpr hi)⟩

variable (ty) in
/-- The variables of the pool after `init_virtual_mapping`. -/
theorem initial_cursor (h : Relocatable mem root tables.physicalStart dest.physicalStart
      tables.numberOfPages) (hused : ∃ i, word mem root i &&& presentFlag ≠ 0) :
    Cursor (moved dest.physicalStart tables.physicalStart root) dest.physicalStart
      tables.numberOfPages (initialMapping ty root.addr tables dest mem) := by
  obtain ⟨i, hi⟩ := hused
  obtain ⟨π, f, -, hπ, hf, -, hnext, hmax⟩ := h.exists_highest
    ⟨[], root, i, by decide, tableAt_nil .., hi⟩ (initialMapping_next ty mem root tables dest)
  have hbelow := hmax [] root i (by decide) (tableAt_nil ..) hi
  have hplace := h.toNat_moved (h.tables_in π f hπ hf)
  have hplace' := h.toNat_moved h.root_in
  obtain ⟨hle, hle'⟩ := h.moved_inRegion (h.tables_in π f hπ hf)
  have havail := initialMapping_count ty mem root tables dest
  have hpml4 := initialMapping_pml4 ty h
  generalize initialMapping ty root.addr tables dest mem = s at *
  have hend := h.new_end
  have halign := (moved dest.physicalStart tables.physicalStart f).aligned
  have hnewAligned := h.new_aligned
  -- the pool ends where the pages do, and its count is what lies between
  have hsize : (tables.numberOfPages <<< 12).toNat = 4096 * tables.numberOfPages.toNat := by
    rw [toNat_shiftLeft (n := 12) rfl]
    omega
  have hadd : (dest.physicalStart + tables.numberOfPages <<< 12).toNat =
      dest.physicalStart.toNat + 4096 * tables.numberOfPages.toNat := by
    rw [UInt64.toNat_add, hsize]
    omega
  have hcount : s.availableMappingPageCount.toNat = (dest.physicalStart.toNat +
      4096 * tables.numberOfPages.toNat - s.nextAvailableMappingPage.toNat) / 4096 := by
    rw [havail, toNat_shiftRight (n := 12) rfl, UInt64.toNat_sub_of_le _ _
      (by rw [UInt64.le_iff_toNat_le, hadd, hnext]; omega), hadd]
    rfl
  refine ⟨hpml4, ?_, ?_, ?_, ?_, hend⟩
  · omega
  · omega
  · omega
  · omega

/-- The pool after `init_virtual_mapping`. -/
theorem initial_pool (h : Relocatable mem root tables.physicalStart dest.physicalStart
      tables.numberOfPages) (htop : UsedToTheTop mem root)
    (hmirror : ty = .mapAll → Mirrorable mem root) :
    Pool ty (moved dest.physicalStart tables.physicalStart root) dest.physicalStart
      tables.numberOfPages (initialMapping ty root.addr tables dest mem)
      (movedLevels mem root tables.physicalStart dest.physicalStart) := by
  obtain ⟨-, hbelow⟩ := h.nextPage htop (initialMapping_next ty mem root tables dest)
  have hcursor := initial_cursor ty h htop.root_used
  have hlevels := initial_levels h hmirror
  refine ⟨hlevels, hcursor.pml4, mem_movedLevels_zero.mpr rfl, fun k g hk hg => ?_, fun g hg => ?_,
    hcursor.aligned, hcursor.le_next, hcursor.count, hcursor.end_le⟩
  · refine ⟨(h.movedLevels_in hk hg).1, ?_⟩
    obtain ⟨π, g, rfl, hg, rfl⟩ := hg
    have hplace : newPlace dest.physicalStart tables.physicalStart π.length g =
        moved dest.physicalStart tables.physicalStart g := if_pos hk
    rw [hplace]
    exact hbelow π g hk hg
  · have hoff := h.movedLevels_off hg
    have hle := hcursor.le_next
    omega

end Start

end Betelgeuse
