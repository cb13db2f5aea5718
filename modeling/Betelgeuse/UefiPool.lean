/-
The pool of mapping pages (`map_page`, `get_next_available_mapping_page`).

`Pool` is the invariant of the bootloader's page tables: the tables of the upper
levels lie below the next available page, no page table lies in what is left of the
pool, and the counter says how much that is.  One block of `map_page` keeps it if the
pool has a page for the table that is missing (`Pool.linkTable`), so a whole call does
(`Pool.mapPage`), and a whole run (`Pool.run`).  The pages that a run takes are then
those of the pool in order (`Stretch`).

A call must not meet a large page above the page tables: `map_page` would take it for
a table.
-/
import Betelgeuse.PageLevels
import Betelgeuse.UefiRelocate

open PageTree RangeLoop

namespace Betelgeuse

/-! ### The pages that are taken -/

/-- One call of `map_page`: the physical and the virtual address. -/
structure MapCall where
  physAddr : UInt64
  vaAddr : UInt64

/-- A page that `get_next_available_mapping_page` has returned, and the state in which
it did so. -/
structure Draw where
  page : UInt64
  state : Mapping

namespace Mapping

variable (s : Mapping)

/-- The page that one block of `map_page` takes. -/
def linkDraws (table index : UInt64) : List Draw :=
  if s.read table index &&& presentFlag = 0 then [⟨s.getNextAvailableMappingPage.1, s⟩] else []

/-- The pages that `map_page` takes. -/
def mapPageDraws (vaAddr : UInt64) : List Draw :=
  let pml4Index := vaGetPml4Index vaAddr
  let pdpIndex := vaGetPdpIndex vaAddr
  let pdIndex := vaGetPdIndex vaAddr
  let s₁ := s.linkTable s.pml4Pointer pml4Index (presentFlag ||| writableFlag)
  let pdpPtr := s₁.read s.pml4Pointer pml4Index &&& addrMask
  let s₂ := s₁.linkTable pdpPtr pdpIndex (presentFlag ||| writableFlag ||| userAccessFlag)
  let pdPtr := s₂.read pdpPtr pdpIndex &&& addrMask
  s.linkDraws s.pml4Pointer pml4Index ++ s₁.linkDraws pdpPtr pdpIndex ++ s₂.linkDraws pdPtr pdIndex

/-- What `map_page` does to the page table `f`. -/
def setEntry (f : Frame) (i : Fin 512) (physAddr : UInt64) : Mapping :=
  if s.read f.addr (UInt64.ofNat i) &&& presentFlag = 0 then
    let s := s.write f.addr (UInt64.ofNat i) (presentFlag ||| writableFlag ||| userAccessFlag)
    s.write f.addr (UInt64.ofNat i)
      (s.read f.addr (UInt64.ofNat i) ||| (physAddr &&& addrMask))
  else s

/-- A run of `map_page` calls. -/
def run (calls : List MapCall) : Mapping :=
  calls.foldl (fun s c => (s.mapPage c.physAddr c.vaAddr).2) s

/-- The pages that a run takes. -/
def draws : Mapping → List MapCall → List Draw
  | _, [] => []
  | s, c :: calls => s.mapPageDraws c.vaAddr ++ (s.mapPage c.physAddr c.vaAddr).2.draws calls

end Mapping

/-! ### The walk of a call -/

/-- There is no large page on a walk above its last entry. -/
def NoLargePageOn (mem : UInt64 → UInt64) : Frame → List (Fin 512) → Prop
  | f, i :: j :: is => decode (is.length + 1) (word mem f i) ≠ .leaf ∧
      ∀ g, decode (is.length + 1) (word mem f i) = .table g → NoLargePageOn mem g (j :: is)
  | _, _ => True

/-- The number of tables that a walk misses. -/
def tablesNeeded (mem : UInt64 → UInt64) : Frame → List (Fin 512) → ℕ
  | f, i :: j :: is =>
    match decode (is.length + 1) (word mem f i) with
    | .table g => tablesNeeded mem g (j :: is)
    | .absent | .leaf => is.length + 1
  | _, _ => 0

section Walks

variable {mem mem' : UInt64 → UInt64} {f g : Frame} {i j : Fin 512} {is : List (Fin 512)}

theorem tablesNeeded_of_table (h : decode (is.length + 1) (word mem f i) = .table g) :
    tablesNeeded mem f (i :: j :: is) = tablesNeeded mem g (j :: is) := by
  rw [tablesNeeded, h]

theorem tablesNeeded_of_absent (h : decode (is.length + 1) (word mem f i) = .absent) :
    tablesNeeded mem f (i :: j :: is) = is.length + 1 := by
  rw [tablesNeeded, h]

/-- A walk that ends at once meets no large page. -/
theorem noLargePageOn_of_absent (h : decode (is.length + 1) (word mem f i) = .absent) :
    NoLargePageOn mem f (i :: j :: is) := by
  rw [NoLargePageOn, h]
  exact ⟨nofun, nofun⟩

/-- A walk from an empty table meets no large page, and misses all tables. -/
theorem noLargePageOn_of_empty (h : ∀ i, word mem f i = 0) : NoLargePageOn mem f (i :: is) := by
  cases is with
  | nil => exact trivial
  | cons j is => exact noLargePageOn_of_absent (by rw [h, decode_zero_word])

theorem tablesNeeded_of_empty (h : ∀ i, word mem f i = 0) :
    tablesNeeded mem f (i :: is) = is.length := by
  cases is with
  | nil => rfl
  | cons j is =>
    rw [tablesNeeded_of_absent (by rw [h, decode_zero_word]), List.length_cons]

end Walks

/-! ### One block of `map_page` -/

namespace Mapping

variable {s : Mapping} {f g new : Frame} {i j : Fin 512} {flags : UInt64}

/-- The loop of `clearPage`, on memory. -/
def cleared (nextPage : UInt64) (mem : UInt64 → UInt64) : UInt64 → UInt64 :=
  (List.range 0x200).foldl
    (fun mem i => Function.update mem (nextPage + 8 * UInt64.ofNat i) 0) mem

theorem clearPage_eq (nextPage : UInt64) :
    s.clearPage nextPage = { s with mem := cleared nextPage s.mem } := by
  unfold clearPage cleared
  generalize List.range 0x200 = l
  induction l generalizing s with
  | nil => rfl
  | cons i l ih => exact ih

theorem word_eq_of_cleared {mem mem' : UInt64 → UInt64}
    (hin : ∀ i < 0x200, mem' (new.addr + 8 * UInt64.ofNat i) = 0)
    (hoff : ∀ a, (∀ i < 0x200, a ≠ new.addr + 8 * UInt64.ofNat i) → mem' a = mem a) (f : Frame)
    (i : Fin 512) : word mem' f i = if f = new then 0 else word mem f i := by
  split
  · rename_i hf
    subst hf
    exact hin i.val i.isLt
  · rename_i hf
    exact hoff _ fun j hj heq => hf (wordAddr_inj (j := ⟨j, hj⟩).mp heq).1

theorem word_cleared (mem : UInt64 → UInt64) (new f : Frame) (i : Fin 512) :
    word (cleared new.addr mem) f i = if f = new then 0 else word mem f i := by
  have hplace : ∀ i < 0x200, ∀ j < 0x200,
      new.addr + 8 * UInt64.ofNat i = new.addr + 8 * UInt64.ofNat j → i = j :=
    fun i hi j hj heq => congrArg Fin.val (wordAddr_inj (i := ⟨i, hi⟩) (j := ⟨j, hj⟩).mp heq).2
  obtain ⟨hin, hoff⟩ := foldl_update_range (fun _ _ => 0) (g := mem) hplace
    fun _ _ _ _ => rfl
  exact word_eq_of_cleared hin hoff f i

/-- A new link: the flags of the three upper levels. -/
structure LinkFlags (flags : UInt64) : Prop where
  masked : flags &&& addrMask = 0
  present : flags &&& presentFlag ≠ 0
  pageSize : flags &&& pageSizeFlag = 0

theorem LinkFlags.decode (h : LinkFlags flags) {n : ℕ} (hn : n ≠ 0) (new : Frame) :
    Betelgeuse.decode n (flags ||| new.addr) = .table new := by
  have hflag : ∀ m, addrMask &&& m = 0 → (flags ||| new.addr) &&& m = flags &&& m := by
    intro m hm
    rw [and_or_right, ← new.masked, UInt64.and_assoc, hm, UInt64.and_zero, UInt64.or_zero]
  refine decode_eq_table.mpr ⟨?_, hn, ?_, ?_⟩
  · rw [hflag _ (by decide)]
    exact h.present
  · rw [hflag _ (by decide)]
    exact h.pageSize
  · refine entryFrame_eq ?_
    rw [and_or_right, h.masked, new.masked, UInt64.zero_or]

theorem read_eq (f : Frame) (i : Fin 512) : s.read f.addr (UInt64.ofNat i) = word s.mem f i := rfl

theorem linkTable_present (h : word s.mem f i &&& presentFlag ≠ 0) :
    s.linkTable f.addr (UInt64.ofNat i) flags = s := if_neg h

theorem linkDraws_present (h : word s.mem f i &&& presentFlag ≠ 0) :
    s.linkDraws f.addr (UInt64.ofNat i) = [] := if_neg h

theorem linkDraws_absent (h : word s.mem f i &&& presentFlag = 0) :
    s.linkDraws f.addr (UInt64.ofNat i) = [⟨s.nextAvailableMappingPage, s⟩] := if_pos h

/-- The state after a new table has been linked. -/
theorem linkTable_absent (flags : UInt64) (h : word s.mem f i &&& presentFlag = 0)
    (hnew : s.nextAvailableMappingPage = new.addr) :
    s.linkTable f.addr (UInt64.ofNat i) flags =
      { s with
        mem := Function.update (cleared new.addr s.mem) (f.addr + 8 * UInt64.ofNat i)
          (flags ||| new.addr)
        nextAvailableMappingPage := new.addr + 0x1000
        availableMappingPageCount := s.availableMappingPageCount - 1 } := by
  rw [linkTable, read_eq, if_pos h, getNextAvailableMappingPage, hnew]
  dsimp only
  rw [clearPage_eq]
  unfold write read
  dsimp only
  rw [Function.update_self, Function.update_idem]

/-- The words after a new table has been linked. -/
theorem word_linked (mem : UInt64 → UInt64) (new f g : Frame) (i j : Fin 512) (v : UInt64) :
    word (Function.update (cleared new.addr mem) (f.addr + 8 * UInt64.ofNat i) v) g j =
      if g = f ∧ j = i then v else if g = new then 0 else word mem g j := by
  rw [← word_cleared]
  unfold word
  rw [Function.update_apply]
  exact if_congr wordAddr_inj rfl rfl

/-- A call that goes through the tables `f₁`, `f₂` and `f₃`. -/
theorem mapPage_of_blocks {root f₁ f₂ f₃ : Frame} {s₁ s₂ s₃ : Mapping} {c : MapCall}
    (hpml4 : s.pml4Pointer = root.addr) (hpml4₁ : s₁.pml4Pointer = root.addr)
    (heq₁ : s.linkTable root.addr (UInt64.ofNat (toIndex (vaGetPml4Index c.vaAddr)).val)
      (presentFlag ||| writableFlag) = s₁)
    (hread₁ : s₁.read root.addr (UInt64.ofNat (toIndex (vaGetPml4Index c.vaAddr)).val) &&&
      addrMask = f₁.addr)
    (heq₂ : s₁.linkTable f₁.addr (UInt64.ofNat (toIndex (vaGetPdpIndex c.vaAddr)).val)
      (presentFlag ||| writableFlag ||| userAccessFlag) = s₂)
    (hread₂ : s₂.read f₁.addr (UInt64.ofNat (toIndex (vaGetPdpIndex c.vaAddr)).val) &&&
      addrMask = f₂.addr)
    (heq₃ : s₂.linkTable f₂.addr (UInt64.ofNat (toIndex (vaGetPdIndex c.vaAddr)).val)
      (presentFlag ||| writableFlag ||| userAccessFlag) = s₃)
    (hread₃ : s₃.read f₂.addr (UInt64.ofNat (toIndex (vaGetPdIndex c.vaAddr)).val) &&&
      addrMask = f₃.addr) :
    (s.mapPage c.physAddr c.vaAddr).2 = s₃.setEntry f₃ (toIndex (vaGetPtIndex c.vaAddr))
      c.physAddr ∧
    s.mapPageDraws c.vaAddr =
      s.linkDraws root.addr (UInt64.ofNat (toIndex (vaGetPml4Index c.vaAddr)).val) ++
      s₁.linkDraws f₁.addr (UInt64.ofNat (toIndex (vaGetPdpIndex c.vaAddr)).val) ++
      s₂.linkDraws f₂.addr (UInt64.ofNat (toIndex (vaGetPdIndex c.vaAddr)).val) := by
  -- the code uses the indices as it has computed them
  have hindex₁ := ofNat_toIndex (vaGetPml4Index_lt c.vaAddr)
  have hindex₂ := ofNat_toIndex (vaGetPdpIndex_lt c.vaAddr)
  have hindex₃ := ofNat_toIndex (vaGetPdIndex_lt c.vaAddr)
  have hindex₄ := ofNat_toIndex (vaGetPtIndex_lt c.vaAddr)
  rw [hindex₁] at heq₁ hread₁
  rw [hindex₂] at heq₂ hread₂
  rw [hindex₃] at heq₃ hread₃
  constructor
  · rw [setEntry, hindex₄]
    unfold mapPage
    dsimp only
    rw [hpml4, heq₁, hpml4₁, hread₁, heq₂, hread₂, heq₃, hread₃]
    split
    · rfl
    · rfl
  · rw [hindex₁, hindex₂, hindex₃]
    unfold mapPageDraws
    dsimp only
    rw [hpml4, heq₁, hread₁, heq₂, hread₂]

end Mapping

/-! ### The invariant -/

/-- The page is none of the upper tables that are linked in the state. -/
def Draw.Unlinked (d : Draw) : Prop :=
  ∀ π g, π.length ≤ 2 →
    tableAt decode (word d.state.mem) (entryFrame d.state.pml4Pointer) 4 π = some g →
    d.page ≠ g.addr

/-- The entry through which `MAPPING_TYPE_RECURSIVE` links the PML4 to itself. -/
def SelfLink (ty : MappingType) (root f : Frame) (i : Fin 512) : Prop :=
  ty = .recursive ∧ f = root ∧ i = 510

/-- The tables of the upper levels lie in the part of the pool that has been used, the
page tables do not lie in the part that has not, and the counter gives the size of
that part. -/
structure Pool (ty : MappingType) (root : Frame) (newMap pageCount : UInt64) (s : Mapping)
    (L : ℕ → Set Frame) : Prop where
  levels : Levels decode (word s.mem) 3 (SelfLink ty root) L
  pml4 : s.pml4Pointer = root.addr
  root_mem : root ∈ L 0
  tables : ∀ k f, k ≤ 2 → f ∈ L k → newMap.toNat ≤ f.addr.toNat ∧
    f.addr.toNat + 4096 ≤ s.nextAvailableMappingPage.toNat
  page_tables : ∀ f ∈ L 3, f.addr.toNat + 4096 ≤ s.nextAvailableMappingPage.toNat ∨
    newMap.toNat + 4096 * pageCount.toNat ≤ f.addr.toNat
  aligned : s.nextAvailableMappingPage.toNat % 4096 = 0
  le_next : newMap.toNat ≤ s.nextAvailableMappingPage.toNat
  count : s.nextAvailableMappingPage.toNat + 4096 * s.availableMappingPageCount.toNat =
    newMap.toNat + 4096 * pageCount.toNat
  end_le : newMap.toNat + 4096 * pageCount.toNat ≤ 2 ^ 52

/-- What holds of the variables of the pool, whatever the tables are. -/
structure Cursor (root : Frame) (newMap pageCount : UInt64) (s : Mapping) : Prop where
  pml4 : s.pml4Pointer = root.addr
  root_below : root.addr.toNat + 4096 ≤ s.nextAvailableMappingPage.toNat
  aligned : s.nextAvailableMappingPage.toNat % 4096 = 0
  le_next : newMap.toNat ≤ s.nextAvailableMappingPage.toNat
  count : s.nextAvailableMappingPage.toNat + 4096 * s.availableMappingPageCount.toNat =
    newMap.toNat + 4096 * pageCount.toNat
  end_le : newMap.toNat + 4096 * pageCount.toNat ≤ 2 ^ 52

namespace Cursor

variable {root f : Frame} {newMap pageCount flags : UInt64} {s s' : Mapping} {i : Fin 512}

/-- The next page, while there is one. -/
theorem exists_new (h : Cursor root newMap pageCount s)
    (hpos : 0 < s.availableMappingPageCount.toNat) :
    ∃ new : Frame, s.nextAvailableMappingPage = new.addr := by
  have halign := h.aligned
  have hcount := h.count
  have hend := h.end_le
  have hmasked : s.nextAvailableMappingPage &&& addrMask = s.nextAvailableMappingPage := by
    rw [← UInt64.toNat_inj, toNat_and_addrMask]
    omega
  exact ⟨⟨s.nextAvailableMappingPage, hmasked⟩, rfl⟩

/-- A table is taken from the pool: the words and the variables after it. -/
theorem linkTable (h : Cursor root newMap pageCount s)
    (habsent : word s.mem f i &&& presentFlag = 0)
    (hpos : 0 < s.availableMappingPageCount.toNat)
    (hs' : s.linkTable f.addr (UInt64.ofNat i) flags = s') :
    ∃ new, s.nextAvailableMappingPage = new.addr ∧ Cursor root newMap pageCount s' ∧
      (∀ g j, word s'.mem g j = if g = f ∧ j = i then flags ||| new.addr
        else if g = new then 0 else word s.mem g j) ∧
      s'.nextAvailableMappingPage.toNat = s.nextAvailableMappingPage.toNat + 4096 ∧
      s'.availableMappingPageCount.toNat + 1 = s.availableMappingPageCount.toNat := by
  obtain ⟨new, hnew⟩ := h.exists_new hpos
  have hcount := h.count
  have hend := h.end_le
  have hle := h.le_next
  have halign := h.aligned
  have hroot := h.root_below
  have hstate := hs'.symm.trans (Mapping.linkTable_absent flags habsent hnew)
  have hmem : s'.mem = Function.update (Mapping.cleared new.addr s.mem)
      (f.addr + 8 * UInt64.ofNat i) (flags ||| new.addr) := by rw [hstate]
  have hword : ∀ g j, word s'.mem g j = if g = f ∧ j = i then flags ||| new.addr
      else if g = new then 0 else word s.mem g j := by
    intro g j
    rw [hmem, Mapping.word_linked]
  have hnext : s'.nextAvailableMappingPage.toNat =
      s.nextAvailableMappingPage.toNat + 4096 := by
    rw [hstate, hnew, UInt64.toNat_add]
    rw [hnew] at hcount
    show (new.addr.toNat + 4096) % 2 ^ 64 = _
    omega
  have havail : s'.availableMappingPageCount.toNat + 1 = s.availableMappingPageCount.toNat := by
    have hone : (1 : UInt64).toNat = 1 := rfl
    rw [hstate, UInt64.toNat_sub_of_le _ _ (by rw [UInt64.le_iff_toNat_le, hone]; omega), hone]
    omega
  refine ⟨new, hnew, ⟨?_, ?_, ?_, ?_, ?_, hend⟩, hword, hnext, havail⟩
  · rw [hstate]
    exact h.pml4
  · omega
  · omega
  · omega
  · omega

end Cursor

/-- A stretch of execution that takes the given pages, one behind the other. -/
structure Stretch (s s' : Mapping) (ds : List Draw) : Prop where
  next : s'.nextAvailableMappingPage.toNat = s.nextAvailableMappingPage.toNat + 4096 * ds.length
  within : ∀ d ∈ ds, s.nextAvailableMappingPage.toNat ≤ d.page.toNat ∧
    d.page.toNat + 4096 ≤ s'.nextAvailableMappingPage.toNat
  nodup : (ds.map Draw.page).Nodup
  unlinked : ∀ d ∈ ds, d.Unlinked

namespace Stretch

variable {s s' s'' : Mapping} {ds ds' : List Draw}

theorem nil (h : s'.nextAvailableMappingPage = s.nextAvailableMappingPage) : Stretch s s' [] where
  next := by rw [h, List.length_nil, Nat.mul_zero, Nat.add_zero]
  within _ hd := absurd hd List.not_mem_nil
  nodup := List.nodup_nil
  unlinked _ hd := absurd hd List.not_mem_nil

theorem append (h : Stretch s s' ds) (h' : Stretch s' s'' ds') : Stretch s s'' (ds ++ ds') where
  next := by
    rw [h'.next, h.next, List.length_append]
    omega
  within d hd := by
    have hle := h.next
    have hle' := h'.next
    rcases List.mem_append.mp hd with hd | hd
    · have hin := h.within d hd
      omega
    · have hin := h'.within d hd
      omega
  nodup := by
    rw [List.map_append]
    refine List.nodup_append.mpr ⟨h.nodup, h'.nodup, fun page hp page' hp' heq => ?_⟩
    obtain ⟨d, hd, rfl⟩ := List.mem_map.mp hp
    obtain ⟨d', hd', rfl⟩ := List.mem_map.mp hp'
    have hin := h.within d hd
    have hin' := h'.within d' hd'
    rw [← heq] at hin'
    omega
  unlinked d hd := (List.mem_append.mp hd).elim (h.unlinked d) (h'.unlinked d)

end Stretch

namespace Pool

variable {ty : MappingType} {root f g : Frame} {newMap pageCount flags : UInt64} {s : Mapping}
  {L : ℕ → Set Frame} {k : ℕ} {i j : Fin 512} {is : List (Fin 512)}

theorem not_selfLink (h : Pool ty root newMap pageCount s L) (hf : f ∈ L (k + 1)) (hk : k ≤ 2) :
    ¬ SelfLink ty root f i := by
  rintro ⟨-, rfl, -⟩
  exact absurd (h.levels.apart (k + 1) 0 f (by omega) (by omega) hf h.root_mem) (Nat.succ_ne_zero k)

theorem cursor (h : Pool ty root newMap pageCount s L) : Cursor root newMap pageCount s :=
  ⟨h.pml4, (h.tables 0 root (by decide) h.root_mem).2, h.aligned, h.le_next, h.count, h.end_le⟩

/-- The next page is none of the tables, while there is one. -/
theorem fresh (h : Pool ty root newMap pageCount s L)
    (hpos : 0 < s.availableMappingPageCount.toNat) {new : Frame}
    (hnew : s.nextAvailableMappingPage = new.addr) : ∀ k ≤ 3, new ∉ L k := by
  intro k hk hmem
  have hcount := h.count
  rcases Nat.lt_or_ge k 3 with hlt | hge
  · have hin := (h.tables k _ (by omega) hmem).2
    rw [hnew] at hin
    omega
  · obtain rfl : k = 3 := by omega
    have hin := h.page_tables _ hmem
    rw [hnew] at hin hcount
    omega

/-- A page that is taken now is linked nowhere. -/
theorem draw_unlinked (h : Pool ty root newMap pageCount s L) :
    (Draw.mk s.nextAvailableMappingPage s).Unlinked := by
  intro π g hπ hg heq
  have hroot : entryFrame s.pml4Pointer = root := by rw [h.pml4, entryFrame_addr]
  rw [hroot] at hg
  obtain ⟨k, hk, hmem⟩ := h.levels.tableAt h.root_mem hg (by omega)
  have hin := (h.tables k g (by omega) hmem).2
  have heq : s.nextAvailableMappingPage = g.addr := heq
  rw [heq] at hin
  omega

/-- A new table, taken from the pool and linked at an absent entry. -/
theorem linkTable_new (h : Pool ty root newMap pageCount s L) (hflags : Mapping.LinkFlags flags)
    (hk : k ≤ 2) (hf : f ∈ L k) (hback : ¬ SelfLink ty root f i)
    (habsent : word s.mem f i &&& presentFlag = 0)
    (hpos : 0 < s.availableMappingPageCount.toNat) {s' : Mapping}
    (hs' : s.linkTable f.addr (UInt64.ofNat i) flags = s') :
    ∃ new, Pool ty root newMap pageCount s' (Levels.add L (k + 1) new) ∧
      s.nextAvailableMappingPage = new.addr ∧ (∀ k' ≤ 3, new ∉ L k') ∧
      (∀ g j, word s'.mem g j = if g = f ∧ j = i then flags ||| new.addr
        else if g = new then 0 else word s.mem g j) ∧
      s'.nextAvailableMappingPage.toNat = s.nextAvailableMappingPage.toNat + 4096 ∧
      s'.availableMappingPageCount.toNat + 1 = s.availableMappingPageCount.toNat := by
  obtain ⟨new, hnew, hcursor, hword, hnext, havail⟩ := h.cursor.linkTable habsent hpos hs'
  have hfresh := h.fresh hpos hnew
  have hne : ∀ k f, k ≤ 3 → f ∈ L k → f ≠ new := fun k f hk hf heq => hfresh k hk (heq ▸ hf)
  have hlink : word s'.mem f i = flags ||| new.addr := by rw [hword, if_pos ⟨rfl, rfl⟩]
  -- the new table is empty, and no table of a level is the new frame
  have hempty : ∀ j, word s'.mem new j = 0 := by
    intro j
    rw [hword, if_neg fun heq => hne k f (by omega) hf heq.1.symm, if_pos rfl]
  have hpage : new.addr.toNat = s.nextAvailableMappingPage.toNat := by rw [hnew]
  have hle := h.le_next
  refine ⟨new, ⟨?_, hcursor.pml4, ?_, ?_, ?_, hcursor.aligned, hcursor.le_next, hcursor.count,
    hcursor.end_le⟩, hnew, hfresh, hword, hnext, havail⟩
  -- the levels take the new table in
  · refine h.levels.link (by omega) hf hback hfresh (fun j m g => ?_) (fun m g hg => ?_)
      fun k' f' j m hk' hf' hno => ?_
    · rw [hempty, decode_zero_word]
      exact nofun
    · obtain ⟨-, hm, -, -⟩ := decode_eq_table.mp hg
      rw [hlink, hflags.decode hm] at hg
      exact (Entry.table.inj hg).symm
    · rw [hword, if_neg hno, if_neg (hne k' f' (by omega) hf')]
  · exact Levels.subset_add _ _ h.root_mem
  -- and it lies below the next page of the pool
  · rintro k' f' hk' (hf' | ⟨-, rfl⟩)
    · have hin := h.tables k' f' hk' hf'
      omega
    · omega
  · rintro f' (hf' | ⟨-, rfl⟩)
    · have hin := h.page_tables f' hf'
      omega
    · omega

/-- One of the three blocks of `map_page`, from the table `f` of level `k` to the table
`g` of the next one. -/
structure Block (ty : MappingType) (root : Frame) (newMap pageCount flags : UInt64) (k : ℕ)
    (i : Fin 512) (s s' : Mapping) (L L' : ℕ → Set Frame) (f g : Frame) : Prop where
  pool : Pool ty root newMap pageCount s L
  mem : f ∈ L k
  room : word s.mem f i &&& presentFlag = 0 → 0 < s.availableMappingPageCount.toNat
  eq : s.linkTable f.addr (UInt64.ofNat i) flags = s'
  pool' : Pool ty root newMap pageCount s' L'
  mem' : g ∈ L' (k + 1)
  link : decode (3 - k) (word s'.mem f i) = .table g
  stretch : Stretch s s' (s.linkDraws f.addr (UInt64.ofNat i))

theorem Block.read_eq {L' : ℕ → Set Frame} {s' : Mapping}
    (h : Block ty root newMap pageCount flags k i s s' L L' f g) :
    s'.read f.addr (UInt64.ofNat i) &&& addrMask = g.addr := by
  obtain ⟨-, -, -, hframe⟩ := decode_eq_table.mp h.link
  exact congrArg Frame.addr hframe

theorem linkTable (h : Pool ty root newMap pageCount s L) (hflags : Mapping.LinkFlags flags)
    (hk : k + is.length = 2) (hf : f ∈ L k) (hback : ¬ SelfLink ty root f i)
    (hlarge : NoLargePageOn s.mem f (i :: j :: is))
    (hneed : tablesNeeded s.mem f (i :: j :: is) ≤ s.availableMappingPageCount.toNat) :
    ∃ s' L' g, Block ty root newMap pageCount flags k i s s' L L' f g ∧
      NoLargePageOn s'.mem g (j :: is) ∧
      tablesNeeded s'.mem g (j :: is) ≤ s'.availableMappingPageCount.toNat := by
  have hlevel : is.length + 1 = 3 - k := by omega
  by_cases habsent : word s.mem f i &&& presentFlag = 0
  -- no table yet: one is drawn, and it is empty
  · have hdecode : decode (is.length + 1) (word s.mem f i) = .absent := decode_eq_absent habsent
    rw [tablesNeeded_of_absent hdecode] at hneed
    have hpos : 0 < s.availableMappingPageCount.toNat := by omega
    generalize hs' : s.linkTable f.addr (UInt64.ofNat i) flags = s'
    obtain ⟨new, hpool, -, hfresh, hword, hnext, havail⟩ :=
      h.linkTable_new hflags (by omega) hf hback habsent hpos hs'
    have hne : f ≠ new := fun heq => hfresh k (by omega) (heq ▸ hf)
    have hempty : ∀ j, word s'.mem new j = 0 := by
      intro j
      rw [hword, if_neg fun heq => hne heq.1.symm, if_pos rfl]
    refine ⟨s', _, new, ⟨h, hf, fun _ => hpos, hs', hpool, Levels.mem_add_self _, ?_, ?_⟩,
      noLargePageOn_of_empty hempty, ?_⟩
    · rw [hword, if_pos ⟨rfl, rfl⟩]
      exact hflags.decode (by omega) new
    · rw [Mapping.linkDraws_absent habsent]
      refine ⟨?_, fun d hd => ?_, List.pairwise_singleton _ _, fun d hd => ?_⟩
      · rw [List.length_singleton, hnext]
      · obtain rfl := List.mem_singleton.mp hd
        exact ⟨le_rfl, hnext.ge⟩
      · obtain rfl := List.mem_singleton.mp hd
        exact h.draw_unlinked
    · rw [tablesNeeded_of_empty hempty]
      omega
  -- the table that is there
  · obtain ⟨hleaf, hnextLarge⟩ := hlarge
    cases hdecode : decode (is.length + 1) (word s.mem f i) with
    | absent => exact absurd (decode_absent_iff.mp hdecode) habsent
    | leaf => exact absurd hdecode hleaf
    | table g =>
      rw [tablesNeeded_of_table hdecode] at hneed
      refine ⟨s, L, g, ⟨h, hf, fun hzero => absurd hzero habsent,
        Mapping.linkTable_present habsent, h, ?_, hlevel ▸ hdecode, ?_⟩,
        hnextLarge g hdecode, hneed⟩
      · exact h.levels.down k _ f i g (by omega) hf hback hdecode
      · rw [Mapping.linkDraws_present habsent]
        exact Stretch.nil rfl

/-- The pool does not depend on the entries of the page tables. -/
theorem write (h : Pool ty root newMap pageCount s L) (hf : f ∈ L 3) (v : UInt64) :
    Pool ty root newMap pageCount (s.write f.addr (UInt64.ofNat i) v) L where
  levels := h.levels.congr fun k g j m hk hg => by
    have hne : g ≠ f := by
      intro heq
      have hlevel := h.levels.apart k 3 f hk.le le_rfl (heq ▸ hg) hf
      omega
    show decode m (Function.update s.mem (f.addr + 8 * UInt64.ofNat i) v _) = _
    rw [Function.update_of_ne fun heq => hne (wordAddr_inj.mp heq).1]
    rfl
  pml4 := h.pml4
  root_mem := h.root_mem
  tables := h.tables
  page_tables := h.page_tables
  aligned := h.aligned
  le_next := h.le_next
  count := h.count
  end_le := h.end_le

end Pool

/-- What a call of `map_page` needs: no large page on its walk, enough pages in the pool
for the tables that are missing, and not the entry that links the PML4 to itself. -/
structure MapCall.Fits (ty : MappingType) (root : Frame) (s : Mapping) (c : MapCall) : Prop where
  noLargePage : NoLargePageOn s.mem root (vaPath c.vaAddr)
  needed : tablesNeeded s.mem root (vaPath c.vaAddr) ≤ s.availableMappingPageCount.toNat
  notSelf : ty = .recursive → toIndex (vaGetPml4Index c.vaAddr) ≠ 510

section Fits

variable {ty : MappingType} {root : Frame} {s : Mapping} {c : MapCall} {calls : List MapCall}

/-- The calls of a run fit if the first one does, and the others do after it. -/
theorem MapCall.Fits.run_cons (hc : c.Fits ty root s)
    (hcalls : ∀ before c' after, calls = before ++ c' :: after →
      c'.Fits ty root ((s.mapPage c.physAddr c.vaAddr).2.run before)) :
    ∀ before c' after, c :: calls = before ++ c' :: after → c'.Fits ty root (s.run before) := by
  intro before c' after heq
  rcases before with _ | ⟨b, before⟩
  · obtain ⟨rfl, -⟩ := List.cons.inj heq
    exact hc
  · obtain ⟨rfl, hrest⟩ := List.cons.inj heq
    exact hcalls before c' after hrest

theorem MapCall.fits_nil : ∀ before c after, ([] : List MapCall) = before ++ c :: after →
    c.Fits ty root (s.run before) := by
  intro before c after heq
  have hlen := congrArg List.length heq
  simp at hlen

end Fits

namespace Pool

variable {ty : MappingType} {root f g : Frame} {newMap pageCount flags : UInt64} {s : Mapping}
  {L : ℕ → Set Frame} {k : ℕ} {i j : Fin 512} {is : List (Fin 512)}

/-- The blocks of a call, and what comes behind them. -/
theorem mapPage_blocks (h : Pool ty root newMap pageCount s L) {c : MapCall}
    (hc : c.Fits ty root s) :
    ∃ s₁ s₂ s₃ L₁ L₂ L₃ f₁ f₂ f₃,
      Block ty root newMap pageCount (presentFlag ||| writableFlag) 0
        (toIndex (vaGetPml4Index c.vaAddr)) s s₁ L L₁ root f₁ ∧
      Block ty root newMap pageCount (presentFlag ||| writableFlag ||| userAccessFlag) 1
        (toIndex (vaGetPdpIndex c.vaAddr)) s₁ s₂ L₁ L₂ f₁ f₂ ∧
      Block ty root newMap pageCount (presentFlag ||| writableFlag ||| userAccessFlag) 2
        (toIndex (vaGetPdIndex c.vaAddr)) s₂ s₃ L₂ L₃ f₂ f₃ ∧
      (s.mapPage c.physAddr c.vaAddr).2 = s₃.setEntry f₃ (toIndex (vaGetPtIndex c.vaAddr))
        c.physAddr ∧
      s.mapPageDraws c.vaAddr =
        s.linkDraws root.addr (UInt64.ofNat (toIndex (vaGetPml4Index c.vaAddr)).val) ++
        s₁.linkDraws f₁.addr (UInt64.ofNat (toIndex (vaGetPdpIndex c.vaAddr)).val) ++
        s₂.linkDraws f₂.addr (UInt64.ofNat (toIndex (vaGetPdIndex c.vaAddr)).val) := by
  have hlow : Mapping.LinkFlags (presentFlag ||| writableFlag) := ⟨by decide, by decide, by decide⟩
  have huser : Mapping.LinkFlags (presentFlag ||| writableFlag ||| userAccessFlag) :=
    ⟨by decide, by decide, by decide⟩
  have hself : ¬ SelfLink ty root root (toIndex (vaGetPml4Index c.vaAddr)) := fun hself =>
    hc.notSelf hself.1 hself.2.2
  obtain ⟨s₁, L₁, f₁, h₁, hlarge₁, hneed₁⟩ :=
    h.linkTable hlow rfl h.root_mem hself hc.noLargePage hc.needed
  obtain ⟨s₂, L₂, f₂, h₂, hlarge₂, hneed₂⟩ := h₁.pool'.linkTable huser rfl h₁.mem'
    (h₁.pool'.not_selfLink h₁.mem' (by decide)) hlarge₁ hneed₁
  obtain ⟨s₃, L₃, f₃, h₃, -, -⟩ := h₂.pool'.linkTable huser rfl h₂.mem'
    (h₂.pool'.not_selfLink h₂.mem' (by decide)) hlarge₂ hneed₂
  exact ⟨s₁, s₂, s₃, L₁, L₂, L₃, f₁, f₂, f₃, h₁, h₂, h₃, Mapping.mapPage_of_blocks h.pml4
    h₁.pool'.pml4 h₁.eq h₁.read_eq h₂.eq h₂.read_eq h₃.eq h₃.read_eq⟩

/-- One call of `map_page`. -/
theorem mapPage (h : Pool ty root newMap pageCount s L) {c : MapCall} (hc : c.Fits ty root s) :
    (∃ L', Pool ty root newMap pageCount (s.mapPage c.physAddr c.vaAddr).2 L') ∧
      Stretch s (s.mapPage c.physAddr c.vaAddr).2 (s.mapPageDraws c.vaAddr) := by
  obtain ⟨s₁, s₂, s₃, L₁, L₂, L₃, f₁, f₂, f₃, h₁, h₂, h₃, hs', hds⟩ := h.mapPage_blocks hc
  have hdraws := (h₁.stretch.append h₂.stretch).append h₃.stretch
  rw [hs', hds, Mapping.setEntry]
  split
  · have hwrite := fun v w =>
      (h₃.pool'.write (i := toIndex (vaGetPtIndex c.vaAddr)) h₃.mem' v).write
        (i := toIndex (vaGetPtIndex c.vaAddr)) h₃.mem' w
    exact ⟨⟨L₃, hwrite _ _⟩, hdraws.next, hdraws.within, hdraws.nodup, hdraws.unlinked⟩
  · exact ⟨⟨L₃, h₃.pool'⟩, hdraws⟩

/-- A run of `map_page` calls that the pool is large enough for. -/
theorem run : ∀ {calls : List MapCall} {s : Mapping} {L : ℕ → Set Frame},
    Pool ty root newMap pageCount s L →
    (∀ before c after, calls = before ++ c :: after → c.Fits ty root (s.run before)) →
    (∃ L', Pool ty root newMap pageCount (s.run calls) L') ∧
      Stretch s (s.run calls) (s.draws calls) := by
  intro calls
  induction calls with
  | nil => exact fun h _ => ⟨⟨_, h⟩, Stretch.nil rfl⟩
  | cons c calls ih =>
    intro s L h hcalls
    obtain ⟨⟨L', h'⟩, hdraws⟩ := h.mapPage (hcalls [] c calls rfl)
    obtain ⟨hend, hrest⟩ := ih h' fun before c' after heq =>
      hcalls (c :: before) c' after (by rw [heq]; rfl)
    exact ⟨hend, hdraws.append hrest⟩

end Pool

end Betelgeuse
