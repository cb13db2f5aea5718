/-
The moved page tables translate as the old ones do.

`init_virtual_mapping` copies the pages that hold the firmware's tables and relocates
the links in the two upper levels (`relocateTables`).  `Relocatable` is what it relies
on: the firmware's tables form a tree, the upper three levels lie in the old region,
and the new region is apart from it and from the page tables.

Every table is copied whole (`word_copyMap`); the loops change links only
(`pml4Loop_spec`); so the new tables are the old ones at other places
(`Relocatable.moves`), and every walk is the same (`relocateTables_walk`).
-/
import Betelgeuse.PageWalk
import Betelgeuse.UefiScan

open PageTree RangeLoop WordArith

namespace Betelgeuse

/-- The part of `init_virtual_mapping` that moves the tables. -/
def relocateTables (newMap oldMap pml4PageCount cr3 : UInt64) (mem : UInt64 → UInt64) : Scan :=
  (Scan.mk (copyMap newMap oldMap ((pml4PageCount <<< 12).toNat / 8) mem) 0).pml4Loop newMap oldMap
    (newMap + cr3 - oldMap)

/-- The frame lies in the `pageCount` pages from `start` on. -/
def InRegion (start pageCount : UInt64) (f : Frame) : Prop :=
  start.toNat ≤ f.addr.toNat ∧ f.addr.toNat + 4096 ≤ start.toNat + 4096 * pageCount.toNat

/-- The flags of an entry. -/
def entryFlags (w : UInt64) : UInt64 := w &&& ~~~addrMask

/-- The firmware's tables: a tree of four levels under `root`, of which the upper three
lie in the pages from `oldMap` on; and the pages from `newMap` on, which are apart from
these pages and from the page tables. -/
structure Relocatable (mem : UInt64 → UInt64) (root : Frame) (oldMap newMap pageCount : UInt64) :
    Prop where
  old_aligned : oldMap.toNat % 4096 = 0
  new_aligned : newMap.toNat % 4096 = 0
  new_end : newMap.toNat + 4096 * pageCount.toNat ≤ 2 ^ 52
  apart : oldMap.toNat + 4096 * pageCount.toNat ≤ newMap.toNat ∨
    newMap.toNat + 4096 * pageCount.toNat ≤ oldMap.toNat
  /-- the page-size bit is reserved in the PML4 -/
  pml4_links : ∀ i, word mem root i &&& presentFlag ≠ 0 → word mem root i &&& pageSizeFlag = 0
  tables_in : ∀ π g, π.length ≤ 2 → tableAt decode (word mem) root 4 π = some g →
    InRegion oldMap pageCount g
  page_tables_off : ∀ π g, π.length = 3 → tableAt decode (word mem) root 4 π = some g →
    g.addr.toNat + 4096 ≤ newMap.toNat ∨ newMap.toNat + 4096 * pageCount.toNat ≤ g.addr.toNat
  root_unlinked : ∀ f i, ¬ Links decode (word mem) root 4 f i root
  once : ∀ g f i f' i', Links decode (word mem) root 4 f i g →
    Links decode (word mem) root 4 f' i' g → f = f' ∧ i = i'

namespace Relocatable

variable {mem : UInt64 → UInt64} {root f g : Frame} {oldMap newMap pageCount : UInt64}

theorem onlyAt (h : Relocatable mem root oldMap newMap pageCount) {π : List (Fin 512)}
    (hg : tableAt decode (word mem) root 4 π = some g) :
    OnlyAt decode (word mem) root 4 π g := by
  have hwalk : WalkOk decode (word mem) root 4 π :=
    ⟨h.root_unlinked, fun _ g _ _ _ f i f' i' => h.once g f i f' i'⟩
  exact hwalk.onlyAt (List.prefix_refl π) hg

theorem root_in (h : Relocatable mem root oldMap newMap pageCount) :
    InRegion oldMap pageCount root :=
  h.tables_in [] root (by decide) (tableAt_nil ..)

/-! ### The places of the tables -/

theorem toNat_oldAddrToNewMap (h : Relocatable mem root oldMap newMap pageCount)
    (hf : InRegion oldMap pageCount f) : (oldAddrToNewMap newMap oldMap f.addr).toNat =
      newMap.toNat + (f.addr.toNat - oldMap.toNat) := by
  have hend := h.new_end
  obtain ⟨hle, hlt⟩ := hf
  rw [oldAddrToNewMap, UInt64.toNat_add, UInt64.toNat_sub_of_le _ _
    (UInt64.le_iff_toNat_le.mpr hle),
    Nat.mod_eq_of_lt (by omega)]

theorem addr_moved (h : Relocatable mem root oldMap newMap pageCount)
    (hf : InRegion oldMap pageCount f) :
    (moved newMap oldMap f).addr = oldAddrToNewMap newMap oldMap f.addr := by
  have hend := h.new_end
  have halign := f.aligned
  have hold := h.old_aligned
  have hnew := h.new_aligned
  have htoNat := h.toNat_oldAddrToNewMap hf
  obtain ⟨hle, hlt⟩ := hf
  show oldAddrToNewMap newMap oldMap f.addr &&& addrMask = _
  rw [← UInt64.toNat_inj, toNat_and_addrMask, htoNat]
  omega

theorem toNat_moved (h : Relocatable mem root oldMap newMap pageCount)
    (hf : InRegion oldMap pageCount f) : (moved newMap oldMap f).addr.toNat =
      newMap.toNat + (f.addr.toNat - oldMap.toNat) := by
  rw [h.addr_moved hf, h.toNat_oldAddrToNewMap hf]

theorem moved_inRegion (h : Relocatable mem root oldMap newMap pageCount)
    (hf : InRegion oldMap pageCount f) : InRegion newMap pageCount (moved newMap oldMap f) := by
  have htoNat := h.toNat_moved hf
  obtain ⟨hle, hlt⟩ := hf
  unfold InRegion
  omega

theorem moved_inj (h : Relocatable mem root oldMap newMap pageCount)
    (hf : InRegion oldMap pageCount f) (hg : InRegion oldMap pageCount g)
    (heq : moved newMap oldMap f = moved newMap oldMap g) : f = g := by
  have hfa := h.toNat_moved hf
  have hga := h.toNat_moved hg
  rw [heq] at hfa
  have haddr : f.addr = g.addr := by
    rw [← UInt64.toNat_inj]
    have hf' := hf.1
    have hg' := hg.1
    omega
  cases f
  cases g
  simpa using haddr

/-! ### The copy -/

theorem words_eq (h : Relocatable mem root oldMap newMap pageCount) :
    (pageCount <<< 12).toNat / 8 = 512 * pageCount.toNat := by
  have hend := h.new_end
  rw [toNat_shiftLeft (n := 12) rfl]
  omega

/-- The two clauses of the loop that copies the words. -/
theorem copyMap_spec (h : Relocatable mem root oldMap newMap pageCount) :
    (∀ i < 512 * pageCount.toNat,
      copyMap newMap oldMap ((pageCount <<< 12).toNat / 8) mem (newMap + 8 * UInt64.ofNat i) =
        mem (oldMap + 8 * UInt64.ofNat i)) ∧
      ∀ a, (∀ i < 512 * pageCount.toNat, a ≠ newMap + 8 * UInt64.ofNat i) →
        copyMap newMap oldMap ((pageCount <<< 12).toNat / 8) mem a = mem a := by
  have hend := h.new_end
  have hroot := h.root_in
  have hlt := root.lt
  have hapart := h.apart
  obtain ⟨hle, hle'⟩ := hroot
  have htoNat : ∀ start : UInt64, start.toNat < 2 ^ 53 → ∀ i < 512 * pageCount.toNat,
      (start + 8 * UInt64.ofNat i).toNat = start.toNat + 8 * i := by
    intro start hstart i hi
    rw [UInt64.toNat_add, UInt64.toNat_mul, UInt64.toNat_ofNat']
    show (start.toNat + 8 * (i % 2 ^ 64) % 2 ^ 64) % 2 ^ 64 = _
    omega
  rw [h.words_eq]
  refine foldl_update_range (fun mem i => mem (oldMap + 8 * UInt64.ofNat i))
    (fun i hi j hj heq => ?_) fun i hi g' hg' => ?_
  · have heq := congrArg UInt64.toNat heq
    rw [htoNat newMap (by omega) i hi, htoNat newMap (by omega) j hj] at heq
    omega
  · refine hg' _ fun j hj heq => ?_
    have heq := congrArg UInt64.toNat heq
    rw [htoNat oldMap (by omega) i hi, htoNat newMap (by omega) j (by omega)] at heq
    omega

/-- Every table of the old region is copied whole. -/
theorem word_copyMap (h : Relocatable mem root oldMap newMap pageCount)
    (hf : InRegion oldMap pageCount f) (i : Fin 512) :
    word (copyMap newMap oldMap ((pageCount <<< 12).toNat / 8) mem) (moved newMap oldMap f) i =
      word mem f i := by
  have hend := h.new_end
  have hold := h.old_aligned
  have halign := f.aligned
  have hflt := f.lt
  have hi := i.isLt
  have htoNat := h.toNat_moved hf
  obtain ⟨hle, hlt⟩ := hf
  have hk : (f.addr.toNat - oldMap.toNat) / 8 + i.val < 512 * pageCount.toNat := by omega
  have hword : ∀ start : UInt64, start.toNat < 2 ^ 53 →
      (start + 8 * UInt64.ofNat ((f.addr.toNat - oldMap.toNat) / 8 + i.val)).toNat =
        start.toNat + (f.addr.toNat - oldMap.toNat) + 8 * i.val := by
    intro start hstart
    rw [UInt64.toNat_add, UInt64.toNat_mul, UInt64.toNat_ofNat']
    show (start.toNat + 8 * (((f.addr.toNat - oldMap.toNat) / 8 + i.val) % 2 ^ 64) % 2 ^ 64) %
      2 ^ 64 = _
    omega
  have hnew : (moved newMap oldMap f).addr + 8 * UInt64.ofNat i.val =
      newMap + 8 * UInt64.ofNat ((f.addr.toNat - oldMap.toNat) / 8 + i.val) := by
    rw [← UInt64.toNat_inj, toNat_wordAddr, htoNat, hword newMap (by omega)]
  have holdWord : oldMap + 8 * UInt64.ofNat ((f.addr.toNat - oldMap.toNat) / 8 + i.val) =
      f.addr + 8 * UInt64.ofNat i.val := by
    rw [← UInt64.toNat_inj, toNat_wordAddr, hword oldMap (by omega)]
    omega
  have hcopy := h.copyMap_spec.1 _ hk
  rwa [← hnew, holdWord] at hcopy

/-- Outside the new region nothing is written. -/
theorem word_copyMap_off (h : Relocatable mem root oldMap newMap pageCount)
    (hf : f.addr.toNat + 4096 ≤ newMap.toNat ∨
      newMap.toNat + 4096 * pageCount.toNat ≤ f.addr.toNat) (i : Fin 512) :
    word (copyMap newMap oldMap ((pageCount <<< 12).toNat / 8) mem) f i = word mem f i := by
  have hend := h.new_end
  have hi := i.isLt
  refine h.copyMap_spec.2 _ fun k hk heq => ?_
  have heq := congrArg UInt64.toNat heq
  rw [toNat_wordAddr, UInt64.toNat_add, UInt64.toNat_mul, UInt64.toNat_ofNat'] at heq
  have heq : f.addr.toNat + 8 * i.val = (newMap.toNat + 8 * (k % 2 ^ 64) % 2 ^ 64) % 2 ^ 64 := heq
  omega

/-! ### The new tables -/

section Tables

variable {p d : Frame} {i j : Fin 512}

theorem tableAt_one (h : decode 3 (word mem root i) = .table p) :
    tableAt decode (word mem) root 4 [i] = some p :=
  tableAt_cons_eq_some.mpr ⟨p, h, tableAt_nil ..⟩

theorem tableAt_two (h : decode 3 (word mem root i) = .table p)
    (hd : decode 2 (word mem p j) = .table d) :
    tableAt decode (word mem) root 4 [i, j] = some d :=
  tableAt_cons_eq_some.mpr ⟨p, h, tableAt_cons_eq_some.mpr ⟨d, hd, tableAt_nil ..⟩⟩

/-- Tables at different paths are moved to different places. -/
theorem moved_ne (h : Relocatable mem root oldMap newMap pageCount) {π ρ : List (Fin 512)}
    (hf : tableAt decode (word mem) root 4 π = some f)
    (hg : tableAt decode (word mem) root 4 ρ = some g) (hπ : π.length ≤ 2) (hρ : ρ.length ≤ 2)
    (hne : π ≠ ρ) : moved newMap oldMap f ≠ moved newMap oldMap g := by
  intro heq
  obtain rfl := h.moved_inj (h.tables_in π f hπ hf) (h.tables_in ρ g hρ hg) heq
  exact hne ((h.onlyAt hg).2 π hf)

/-- The copied tables are as the loops need them. -/
theorem scannable (h : Relocatable mem root oldMap newMap pageCount) :
    Scan.Scannable newMap oldMap (copyMap newMap oldMap ((pageCount <<< 12).toNat / 8) mem)
      (moved newMap oldMap root) := by
  have hroot := h.word_copyMap h.root_in
  have hnil : tableAt decode (word mem) root 4 [] = some root := tableAt_nil ..
  have hpdp : ∀ {i p}, decode 3 (word mem root i) = .table p → ∀ j,
      word (copyMap newMap oldMap ((pageCount <<< 12).toNat / 8) mem) (moved newMap oldMap p) j =
        word mem p j := fun {i p} hp j =>
    h.word_copyMap (h.tables_in [i] p (by simp) (tableAt_one hp)) j
  constructor
  · intro i hi
    rw [hroot] at hi ⊢
    exact h.pml4_links i hi
  · intro i p hp
    rw [hroot] at hp
    exact h.moved_ne (tableAt_one hp) hnil (by simp) (by simp) (by simp)
  · intro i p i' p' hp hp' heq
    rw [hroot] at hp hp'
    by_contra hne
    exact h.moved_ne (tableAt_one hp) (tableAt_one hp') (by simp) (by simp) (by simpa using hne) heq
  · intro i p j d hp hd
    rw [hroot] at hp
    rw [hpdp hp] at hd
    exact h.moved_ne (tableAt_two hp hd) hnil (by simp) (by simp) (by simp)
  · intro i p j d hp hd i' p' hp'
    rw [hroot] at hp hp'
    rw [hpdp hp] at hd
    exact h.moved_ne (tableAt_two hp hd) (tableAt_one hp') (by simp) (by simp) (by simp)

end Tables

/-- The loops over the copied tables. -/
theorem rounds (h : Relocatable mem root oldMap newMap pageCount) :
    Scan.Pml4Rounds newMap oldMap ∅ (moved newMap oldMap root)
      (Scan.mk (copyMap newMap oldMap ((pageCount <<< 12).toNat / 8) mem) 0) 512
      (relocateTables newMap oldMap pageCount root.addr mem) := by
  have hpml4 : newMap + root.addr - oldMap = (moved newMap oldMap root).addr := by
    rw [h.addr_moved h.root_in, oldAddrToNewMap]
    grind
  rw [relocateTables, hpml4]
  exact Scan.pml4Loop_spec Highest.empty h.scannable

theorem word_root (h : Relocatable mem root oldMap newMap pageCount) (i : Fin 512) :
    word (relocateTables newMap oldMap pageCount root.addr mem).mem (moved newMap oldMap root) i =
      moveEntry newMap oldMap 3 (word mem root i) := by
  rw [h.rounds.words i, if_pos i.isLt, h.word_copyMap h.root_in]

section Words

variable {p d : Frame} {i j : Fin 512}

theorem word_pdp (h : Relocatable mem root oldMap newMap pageCount)
    (hp : decode 3 (word mem root i) = .table p) (j : Fin 512) :
    word (relocateTables newMap oldMap pageCount root.addr mem).mem (moved newMap oldMap p) j =
      moveEntry newMap oldMap 2 (word mem p j) := by
  have hp' := hp
  rw [← h.word_copyMap h.root_in] at hp'
  rw [h.rounds.pdps i p hp' j, if_pos i.isLt,
    h.word_copyMap (h.tables_in [i] p (by simp) (tableAt_one hp))]

/-- Off the PML4 and the PDPs the loops write nothing. -/
theorem word_off (h : Relocatable mem root oldMap newMap pageCount)
    (hroot : f ≠ moved newMap oldMap root)
    (hpdps : ∀ i p, decode 3 (word mem root i) = .table p → f ≠ moved newMap oldMap p)
    (k : Fin 512) : word (relocateTables newMap oldMap pageCount root.addr mem).mem f k =
      word (copyMap newMap oldMap ((pageCount <<< 12).toNat / 8) mem) f k := by
  refine h.rounds.word_off hroot (fun i p hp => ?_) k
  rw [h.word_copyMap h.root_in] at hp
  exact hpdps i p hp

theorem word_pd (h : Relocatable mem root oldMap newMap pageCount)
    (hp : decode 3 (word mem root i) = .table p) (hd : decode 2 (word mem p j) = .table d)
    (k : Fin 512) :
    word (relocateTables newMap oldMap pageCount root.addr mem).mem (moved newMap oldMap d) k =
      word mem d k := by
  have hpath := tableAt_two hp hd
  rw [h.word_off (h.moved_ne hpath (tableAt_nil ..) (by simp) (by simp) (by simp))
    fun i' p' hp' => h.moved_ne hpath (tableAt_one hp') (by simp) (by simp) (by simp)]
  exact h.word_copyMap (h.tables_in _ d (by simp) hpath) k

theorem word_pt (h : Relocatable mem root oldMap newMap pageCount) {π : List (Fin 512)}
    (hπ : π.length = 3) (hg : tableAt decode (word mem) root 4 π = some g) (k : Fin 512) :
    word (relocateTables newMap oldMap pageCount root.addr mem).mem g k = word mem g k := by
  have hoff := h.page_tables_off π g hπ hg
  -- the tables that the loops write lie in the new region
  have hne : ∀ f, InRegion oldMap pageCount f → g ≠ moved newMap oldMap f := by
    rintro f hf rfl
    obtain ⟨hle, hlt⟩ := h.moved_inRegion hf
    omega
  rw [h.word_off (hne root h.root_in) fun i p hp =>
    hne p (h.tables_in [i] p (by simp) (tableAt_one hp))]
  exact h.word_copyMap_off hoff k

end Words

end Relocatable

/-! ### The walks -/

theorem decode_moveEntry {newMap oldMap w : UInt64} {n : ℕ}
    (h : ∀ g, decode n w = .table g →
      (moved newMap oldMap g).addr = oldAddrToNewMap newMap oldMap g.addr) :
    decode n (moveEntry newMap oldMap n w) = (decode n w).map (moved newMap oldMap) := by
  cases hw : decode n w with
  | absent => rw [moveEntry_of_absent hw, hw, Entry.map]
  | leaf => rw [moveEntry_of_leaf hw, hw, Entry.map]
  | table g => rw [moveEntry_of_table hw, decode_relocatedEntry hw (h g hw), Entry.map]

theorem entryFlags_moveEntry {newMap oldMap w : UInt64} {n : ℕ} {g : Frame}
    (hw : decode n w = .table g)
    (h : (moved newMap oldMap g).addr = oldAddrToNewMap newMap oldMap g.addr) :
    entryFlags (moveEntry newMap oldMap n w) = entryFlags w := by
  rw [moveEntry_of_table hw]
  obtain ⟨-, -, -, rfl⟩ := decode_eq_table.mp hw
  exact relocatedEntry_and_flags (by decide) h

/-- Where the tables are after the move: those of the last level stay. -/
def newPlace (newMap oldMap : UInt64) (k : ℕ) (f : Frame) : Frame :=
  if k ≤ 2 then moved newMap oldMap f else f

namespace Relocatable

variable {mem : UInt64 → UInt64} {root f g : Frame} {oldMap newMap pageCount : UInt64}

/-- The three kinds of tables with entries that can link: what the words of a table
become, and where the tables that they link go. -/
theorem word_newPlace (h : Relocatable mem root oldMap newMap pageCount) {π : List (Fin 512)}
    {m : ℕ} (hm : 4 = m + 1 + π.length) (hg : tableAt decode (word mem) root 4 π = some g)
    (i : Fin 512) :
    word (relocateTables newMap oldMap pageCount root.addr mem).mem
        (newPlace newMap oldMap π.length g) i =
      if π.length ≤ 1 then moveEntry newMap oldMap m (word mem g i) else word mem g i := by
  rcases π with _ | ⟨a, _ | ⟨b, _ | ⟨c, _ | ⟨e, π⟩⟩⟩⟩
  · obtain rfl : root = g := by simpa using hg
    obtain rfl : m = 3 := by simp at hm; omega
    exact h.word_root i
  · obtain rfl : m = 2 := by simp at hm; omega
    obtain ⟨p, hp, hg⟩ := tableAt_cons_eq_some.mp hg
    obtain rfl : p = g := by simpa using hg
    exact h.word_pdp hp i
  · obtain ⟨p, hp, hg⟩ := tableAt_cons_eq_some.mp hg
    obtain ⟨d, hd, hg⟩ := tableAt_cons_eq_some.mp hg
    obtain rfl : d = g := by simpa using hg
    exact h.word_pd hp hd i
  · exact h.word_pt rfl hg i
  · simp at hm
    omega

/-- The new tables are the old ones at their new places. -/
theorem moves (h : Relocatable mem root oldMap newMap pageCount) :
    Moves decode entryFlags (word mem)
      (word (relocateTables newMap oldMap pageCount root.addr mem).mem) (newPlace newMap oldMap)
      root 4 := by
  -- the address of a table that is linked from the PML4 or a PDP
  have haddr : ∀ {π g m i k}, 4 = m + 1 + π.length → π.length ≤ 1 →
      tableAt decode (word mem) root 4 π = some g → decode m (word mem g i) = .table k →
      (moved newMap oldMap k).addr = oldAddrToNewMap newMap oldMap k.addr := by
    intro π g m i k hm hπ hg hk
    refine h.addr_moved (h.tables_in (π ++ [i]) k (by simp; omega) ?_)
    exact tableAt_concat.mpr ⟨g, m, hm, hg, hk⟩
  constructor
  · intro π g m i hm hg
    rw [h.word_newPlace hm hg i]
    by_cases hπ : π.length ≤ 1
    · rw [if_pos hπ, decode_moveEntry fun k hk => haddr hm hπ hg hk]
      congr 1
      funext k
      exact (if_pos (by omega)).symm
    · rw [if_neg hπ]
      have hsame : newPlace newMap oldMap (π.length + 1) = id := by
        funext k
        exact if_neg (by omega)
      rw [hsame]
      cases decode m (word mem g i) <;> rfl
  · intro π g m i k hm hg hk
    rw [h.word_newPlace hm hg i]
    by_cases hπ : π.length ≤ 1
    · rw [if_pos hπ, entryFlags_moveEntry hk (haddr hm hπ hg hk)]
    · rw [if_neg hπ]
  · intro π g m i hm hg hk
    rw [h.word_newPlace hm hg i]
    by_cases hπ : π.length ≤ 1
    · rw [if_pos hπ, moveEntry_of_leaf hk]
    · rw [if_neg hπ]

theorem tableAt_relocateTables (h : Relocatable mem root oldMap newMap pageCount)
    (π : List (Fin 512)) :
    tableAt decode (word (relocateTables newMap oldMap pageCount root.addr mem).mem)
        (moved newMap oldMap root) 4 π =
      (tableAt decode (word mem) root 4 π).map (newPlace newMap oldMap π.length) :=
  h.moves.tableAt_eq

end Relocatable

section Walks

variable {mem : UInt64 → UInt64} {root : Frame} {oldMap newMap pageCount : UInt64}

/-- From the moved PML4 every virtual address gives the same walk as from the old one:
the flags of the links, and the leaf entry with the part of the address that it covers.
The PML4, the PDPs and the page directories on it are in the new region. -/
theorem relocateTables_walk (h : Relocatable mem root oldMap newMap pageCount) :
    (∀ va, walk decode entryFlags
          (word (relocateTables newMap oldMap pageCount root.addr mem).mem)
          (moved newMap oldMap root) (vaPath va) =
        walk decode entryFlags (word mem) root (vaPath va)) ∧
      ∀ π g, π.length ≤ 2 →
        tableAt decode (word (relocateTables newMap oldMap pageCount root.addr mem).mem)
          (moved newMap oldMap root) 4 π = some g → InRegion newMap pageCount g := by
  refine ⟨fun va => h.moves.walk_eq (τ := vaPath va), fun π g hπ hg => ?_⟩
  rw [h.tableAt_relocateTables, Option.map_eq_some_iff] at hg
  obtain ⟨f, hf, rfl⟩ := hg
  have hplace : newPlace newMap oldMap π.length f = moved newMap oldMap f := if_pos hπ
  rw [hplace]
  exact h.moved_inRegion (h.tables_in π f hπ hf)

end Walks

/-! ### An example -/

theorem firmwareRoot_masked : (0x2000 : UInt64) &&& addrMask = 0x2000 := by decide

theorem firmwarePdp_masked : (0x3000 : UInt64) &&& addrMask = 0x3000 := by decide

/-- The PML4 of the example. -/
def firmwareRoot : Frame := ⟨0x2000, firmwareRoot_masked⟩

/-- The PDP of the example. -/
def firmwarePdp : Frame := ⟨0x3000, firmwarePdp_masked⟩

/-- One PML4 entry, and under it a PDP with the given first entry. -/
def firmwareMem (entry a : UInt64) : UInt64 :=
  if a = 0x2000 then 0x3003 else if a = 0x3000 then entry else 0

section Example

variable {entry : UInt64}

theorem word_firmwareMem (f : Frame) (i : Fin 512) : word (firmwareMem entry) f i =
    if f = firmwareRoot ∧ i = 0 then 0x3003 else if f = firmwarePdp ∧ i = 0 then entry else 0 := by
  have hroot : f.addr + 8 * UInt64.ofNat i.val = 0x2000 ↔ f = firmwareRoot ∧ i = 0 :=
    wordAddr_inj (g := firmwareRoot) (j := 0)
  have hpdp : f.addr + 8 * UInt64.ofNat i.val = 0x3000 ↔ f = firmwarePdp ∧ i = 0 :=
    wordAddr_inj (g := firmwarePdp) (j := 0)
  rw [word, firmwareMem]
  simp only [hroot, hpdp]

theorem firmwareMem_root {i : Fin 512} {n : ℕ} {g : Frame}
    (h : decode n (word (firmwareMem entry) firmwareRoot i) = .table g) :
    i = 0 ∧ g = firmwarePdp := by
  obtain ⟨hpresent, -, -, hframe⟩ := decode_eq_table.mp h
  rw [word_firmwareMem] at hpresent hframe
  by_cases hi : i = 0
  · rw [if_pos ⟨rfl, hi⟩] at hframe
    exact ⟨hi, hframe.symm⟩
  · rw [if_neg fun h => hi h.2, if_neg fun h => hi h.2] at hpresent
    exact absurd (by decide) hpresent

theorem firmwareMem_pdp (hentry : ∀ n g, decode n entry ≠ .table g) {i : Fin 512} {n : ℕ}
    {g : Frame} : decode n (word (firmwareMem entry) firmwarePdp i) ≠ .table g := by
  rw [word_firmwareMem, if_neg fun h => absurd h.1 (by decide)]
  by_cases hi : i = 0
  · rw [if_pos ⟨rfl, hi⟩]
    exact hentry n g
  · rw [if_neg fun h => hi h.2, decode_zero_word]
    exact fun h => by cases h

/-- The two tables of the example. -/
theorem firmwareMem_tables (hentry : ∀ n g, decode n entry ≠ .table g) {π : List (Fin 512)}
    {g : Frame} (h : tableAt decode (word (firmwareMem entry)) firmwareRoot 4 π = some g) :
    π = [] ∧ g = firmwareRoot ∨ π = [0] ∧ g = firmwarePdp := by
  rcases π with _ | ⟨i, π⟩
  · exact .inl ⟨rfl, by simpa using h.symm⟩
  obtain ⟨p, hp, h⟩ := tableAt_cons_eq_some.mp h
  obtain ⟨rfl, rfl⟩ := firmwareMem_root hp
  rcases π with _ | ⟨j, π⟩
  · exact .inr ⟨rfl, by simpa using h.symm⟩
  obtain ⟨d, hd, -⟩ := tableAt_cons_eq_some.mp h
  exact absurd hd (firmwareMem_pdp hentry)

theorem firmwareMem_links (hentry : ∀ n g, decode n entry ≠ .table g) {f g : Frame} {i : Fin 512}
    (h : Links decode (word (firmwareMem entry)) firmwareRoot 4 f i g) :
    f = firmwareRoot ∧ i = 0 ∧ g = firmwarePdp := by
  obtain ⟨π, m, -, hf, hg⟩ := h
  rcases firmwareMem_tables hentry hf with ⟨-, rfl⟩ | ⟨-, rfl⟩
  · exact ⟨rfl, firmwareMem_root hg⟩
  · exact absurd hg (firmwareMem_pdp hentry)

/-- The example in the first two of at most eight pages, moved behind them. -/
theorem firmwareMem_relocatable (hentry : ∀ n g, decode n entry ≠ .table g) {pageCount : UInt64}
    (hcount : 2 ≤ pageCount.toNat ∧ pageCount.toNat ≤ 8) :
    Relocatable (firmwareMem entry) firmwareRoot 0x2000 0x10000 pageCount where
  old_aligned := by decide
  new_aligned := by decide
  new_end := by
    show 0x10000 + 4096 * pageCount.toNat ≤ 2 ^ 52
    omega
  apart := by
    show 0x2000 + 4096 * pageCount.toNat ≤ 0x10000 ∨ 0x10000 + 4096 * pageCount.toNat ≤ 0x2000
    omega
  pml4_links i hi := by
    rw [word_firmwareMem] at hi ⊢
    by_cases h0 : i = 0
    · rw [if_pos ⟨rfl, h0⟩]
      decide
    · rw [if_neg fun h => h0 h.2, if_neg fun h => h0 h.2]
      decide
  -- the two tables of the firmware
  tables_in π g _ hg := by
    rcases firmwareMem_tables hentry hg with ⟨-, rfl⟩ | ⟨-, rfl⟩
    · refine ⟨by decide, ?_⟩
      show 0x2000 + 4096 ≤ 0x2000 + 4096 * pageCount.toNat
      omega
    · refine ⟨by decide, ?_⟩
      show 0x3000 + 4096 ≤ 0x2000 + 4096 * pageCount.toNat
      omega
  page_tables_off π g hπ hg := by
    rcases firmwareMem_tables hentry hg with ⟨rfl, -⟩ | ⟨rfl, -⟩
    · exact absurd hπ (by decide)
    · exact absurd hπ (by decide)
  root_unlinked f i h := absurd (firmwareMem_links hentry h).2.2 (by decide)
  once g f i f' i' h h' := by
    obtain ⟨rfl, rfl, -⟩ := firmwareMem_links hentry h
    obtain ⟨rfl, rfl, -⟩ := firmwareMem_links hentry h'
    exact ⟨rfl, rfl⟩

end Example

/-- A 1 GiB page that maps the memory one to one. -/
def largePage : UInt64 := 0x83

theorem largePage_ne_table (n : ℕ) (g : Frame) : decode n largePage ≠ .table g := by
  intro h
  obtain ⟨-, -, hsize, -⟩ := decode_eq_table.mp h
  exact absurd hsize (by decide)

theorem relocateTables_walk_firmwareMem :
    (∀ va, walk decode entryFlags
          (word (relocateTables 0x10000 0x2000 8 firmwareRoot.addr (firmwareMem largePage)).mem)
          (moved 0x10000 0x2000 firmwareRoot) (vaPath va) =
        walk decode entryFlags (word (firmwareMem largePage)) firmwareRoot (vaPath va)) ∧
      ∀ π g, π.length ≤ 2 →
        tableAt decode
          (word (relocateTables 0x10000 0x2000 8 firmwareRoot.addr (firmwareMem largePage)).mem)
          (moved 0x10000 0x2000 firmwareRoot) 4 π = some g → InRegion 0x10000 8 g :=
  relocateTables_walk (firmwareMem_relocatable largePage_ne_table (by decide))

end Betelgeuse
