/-
`map_page` of the bootloader and `page_map` of the kernel.

Both are the same walk.  The bootloader reaches the tables at their physical address and
the kernel at `offset` above it, and the two take new tables from different places.  If
these give the same pages, then the memories stay equal but for one bit: the bootloader
does not set the user flag in a PML4 entry that it writes (`Agree`).  No test and no
address depends on this bit, so the two walks stay in step (`mapPage_agrees`).
-/
import Betelgeuse.PageLarge
import Betelgeuse.UefiPool

namespace Betelgeuse

variable {σ : Type*}

/-- The table can be reached by the kernel at its physical address and at `offset` above it. -/
def Accessible (p : Platform σ) (offset table : UInt64) : Prop :=
  ∀ i < 512, p.resolve (table + 8 * UInt64.ofNat i) = table + 8 * UInt64.ofNat i ∧
    p.resolve (table + offset + 8 * UInt64.ofNat i) = table + 8 * UInt64.ofNat i

/-- `page_physical_alloc` returns the given pages one after the other. -/
inductive Supplies (p : Platform σ) : List UInt64 → σ → σ → Prop
  | nil (a : σ) : Supplies p [] a a
  | cons {page : UInt64} {pages : List UInt64} {a a' a'' : σ} :
      p.physicalAlloc a = some (page, a') → Supplies p pages a' a'' →
        Supplies p (page :: pages) a a''

/-- The tables that `map_page` goes through. -/
def Mapping.mapPageTables (s : Mapping) (vaAddr : UInt64) : List UInt64 :=
  let pml4Index := vaGetPml4Index vaAddr
  let pdpIndex := vaGetPdpIndex vaAddr
  let pdIndex := vaGetPdIndex vaAddr
  let s₁ := s.linkTable s.pml4Pointer pml4Index (presentFlag ||| writableFlag)
  let pdpPtr := s₁.read s.pml4Pointer pml4Index &&& addrMask
  let s₂ := s₁.linkTable pdpPtr pdpIndex (presentFlag ||| writableFlag ||| userAccessFlag)
  let pdPtr := s₂.read pdpPtr pdpIndex &&& addrMask
  let s₃ := s₂.linkTable pdPtr pdIndex (presentFlag ||| writableFlag ||| userAccessFlag)
  [s.pml4Pointer, pdpPtr, pdPtr, s₃.read pdPtr pdIndex &&& addrMask]

/-- The state behind the three upper levels of `map_page`, and the page table found there. -/
def Mapping.walked (s : Mapping) (vaAddr : UInt64) : Mapping × UInt64 :=
  let s₁ := s.linkTable s.pml4Pointer (vaGetPml4Index vaAddr) (presentFlag ||| writableFlag)
  let pdpPtr := s₁.read s.pml4Pointer (vaGetPml4Index vaAddr) &&& addrMask
  let s₂ := s₁.linkTable pdpPtr (vaGetPdpIndex vaAddr) newFlags
  let pdPtr := s₂.read pdpPtr (vaGetPdpIndex vaAddr) &&& addrMask
  let s₃ := s₂.linkTable pdPtr (vaGetPdIndex vaAddr) newFlags
  (s₃, s₃.read pdPtr (vaGetPdIndex vaAddr) &&& addrMask)

/-- The kernel walks at `offset`, and the memories of the two walks differ in the user flag of
the words of `D` only. -/
structure Agree (D : Set UInt64) (offset : UInt64) (s : Mapping) (k : Machine σ) : Prop where
  offset : k.offset = offset
  mem : ∀ addr, k.mem addr = s.mem addr ∨ addr ∈ D ∧ k.mem addr = s.mem addr ||| userAccessFlag

section Agree

variable {p : Platform σ} {D : Set UInt64} {s : Mapping} {k : Machine σ} {a : σ}
  {table index flags offset : UInt64} {pages pages' : List UInt64}

theorem Supplies.split {a'' : σ} (h : Supplies p (pages ++ pages') a a'') :
    ∃ a', Supplies p pages a a' ∧ Supplies p pages' a' a'' := by
  induction pages generalizing a with
  | nil => exact ⟨a, .nil a, h⟩
  | cons page pages ih =>
    cases h with
    | cons halloc hrest =>
      obtain ⟨a', hleft, hright⟩ := ih hrest
      exact ⟨a', .cons halloc hleft, hright⟩

theorem Accessible.mirrored (h : Accessible p offset table) (hi : index.toNat < 512) :
    p.resolve (table + offset + 8 * index) = table + 8 * index := by
  have hword := (h index.toNat hi).2
  rwa [UInt64.ofNat_toNat] at hword

/-- A mask without the user flag sees no difference. -/
theorem Agree.read_and (h : Agree D offset s k) (hacc : Accessible p offset table)
    (hi : index.toNat < 512) {m : UInt64} (hm : userAccessFlag &&& m = 0) :
    k.read p (table + offset) index &&& m = s.read table index &&& m := by
  rw [Machine.read, hacc.mirrored hi, Mapping.read]
  rcases h.mem (table + 8 * index) with heq | ⟨-, heq⟩
  · rw [heq]
  · rw [heq, and_or_right, hm, UInt64.or_zero]

/-- Writing the same value keeps the memories in step. -/
theorem Agree.write (h : Agree D offset s k) {ptr v v' : UInt64}
    (hptr : p.resolve (ptr + 8 * index) = table + 8 * index)
    (hv : v' = v ∨ table + 8 * index ∈ D ∧ v' = v ||| userAccessFlag) :
    Agree D offset (s.write table index v) (k.write p ptr index v') := by
  refine ⟨h.offset, fun addr => ?_⟩
  show Function.update k.mem (p.resolve (ptr + 8 * index)) v' addr =
      Function.update s.mem (table + 8 * index) v addr ∨
    addr ∈ D ∧ Function.update k.mem (p.resolve (ptr + 8 * index)) v' addr =
      Function.update s.mem (table + 8 * index) v addr ||| userAccessFlag
  rw [hptr]
  by_cases haddr : addr = table + 8 * index
  · rw [haddr, Function.update_self, Function.update_self]
    exact hv
  · rw [Function.update_of_ne haddr, Function.update_of_ne haddr]
    exact h.mem addr

theorem Agree.clearPage (h : Agree D offset s k) {nextPage : UInt64}
    (hacc : Accessible p offset nextPage) :
    Agree D offset (s.clearPage nextPage) (k.clearPage p nextPage) := by
  have hloop : ∀ n ≤ 512, Agree D offset
      ((List.range n).foldl (fun s i => s.write nextPage (UInt64.ofNat i) 0) s)
      ((List.range n).foldl (fun k i => k.write p nextPage (UInt64.ofNat i) 0) k) := by
    intro n
    induction n with
    | zero => exact fun _ => h
    | succ n ih =>
      intro hn
      rw [List.range_succ, List.foldl_append, List.foldl_append, List.foldl_cons, List.foldl_cons,
        List.foldl_nil, List.foldl_nil]
      exact (ih (by omega)).write (hacc n hn).1 (.inl rfl)
  exact hloop 512 le_rfl

/-- Writing an entry first with its flags and then with what it links. -/
theorem Agree.writeEntry (h : Agree D offset s k) (link : UInt64) {ptr : UInt64}
    (hptr : p.resolve (ptr + 8 * index) = table + 8 * index)
    (hflags : flags = newFlags ∨ flags ||| userAccessFlag = newFlags ∧ table + 8 * index ∈ D) :
    Agree D offset
      ((s.write table index flags).write table index
        ((s.write table index flags).read table index ||| link))
      ((k.write p ptr index newFlags).write p ptr index
        ((k.write p ptr index newFlags).read p ptr index ||| link)) := by
  have hread : (s.write table index flags).read table index = flags := Function.update_self ..
  have hread' : (k.write p ptr index newFlags).read p ptr index = newFlags :=
    Function.update_self ..
  have hwritten : Agree D offset (s.write table index flags) (k.write p ptr index newFlags) :=
    h.write hptr (hflags.imp (fun heq => heq.symm) fun hor => ⟨hor.2, hor.1.symm⟩)
  rw [hread, hread']
  refine hwritten.write hptr (hflags.imp (fun heq => by rw [heq]) fun hor => ⟨hor.2, ?_⟩)
  rw [← hor.1, UInt64.or_assoc, UInt64.or_assoc, UInt64.or_comm userAccessFlag]

/-- One level of the two walks. -/
theorem Agree.linkTable (h : Agree D offset s k) (hacc : Accessible p offset table)
    (hi : index.toNat < 512)
    (hflags : flags = newFlags ∨ flags ||| userAccessFlag = newFlags ∧
      (s.read table index &&& presentFlag = 0 → table + 8 * index ∈ D))
    (hsupply : Supplies p ((s.linkDraws table index).map Draw.page) k.allocator a)
    (hpages : ∀ d ∈ s.linkDraws table index, Accessible p offset d.page) :
    ∃ k', k.linkTable p (table + offset) index = some k' ∧
      Agree D offset (s.linkTable table index flags) k' ∧ k'.allocator = a ∧
      k'.currentPml4 = k.currentPml4 := by
  have hpresent := h.read_and hacc hi (show userAccessFlag &&& presentFlag = 0 by decide)
  by_cases habsent : s.read table index &&& presentFlag = 0
  · rw [Mapping.linkDraws, if_pos habsent] at hsupply hpages
    rw [Machine.linkTable, hpresent, if_pos habsent, Mapping.linkTable, if_pos habsent]
    -- both draw a page, clear it and link it
    cases hsupply with
    | cons halloc hrest =>
      cases hrest
      have hnext : Agree D offset s.getNextAvailableMappingPage.2 { k with allocator := a } :=
        ⟨h.offset, fun addr => h.mem addr⟩
      have hcleared := hnext.clearPage (hpages _ (List.mem_singleton_self _))
      have hfields : Machine.clearPage p { k with allocator := a } s.nextAvailableMappingPage = _ :=
        Machine.clearPage_eq s.nextAvailableMappingPage
      rw [halloc, Option.bind_eq_bind, Option.bind_some]
      dsimp only [Mapping.getNextAvailableMappingPage] at hcleared ⊢
      generalize Machine.clearPage p { k with allocator := a } s.nextAvailableMappingPage = k₁
        at hcleared hfields
      generalize Mapping.clearPage _ s.nextAvailableMappingPage = s₁ at hcleared
      have hlink := hcleared.writeEntry s.nextAvailableMappingPage (hacc.mirrored hi)
        (hflags.imp id fun hor => ⟨hor.1, hor.2 habsent⟩)
      refine ⟨_, rfl, hlink, ?_, ?_⟩
      · rw [Machine.write_allocator, Machine.write_allocator, hfields]
      · rw [Machine.write_currentPml4, Machine.write_currentPml4, hfields]
  -- both find the table
  · rw [Mapping.linkDraws, if_neg habsent] at hsupply
    rw [Machine.linkTable, hpresent, if_neg habsent, Mapping.linkTable, if_neg habsent]
    cases hsupply
    exact ⟨k, rfl, h, rfl, rfl⟩

/-- The cursor moves by one page for each page that is taken. -/
theorem linkTable_next (s : Mapping) (table index flags : UInt64) :
    (s.linkTable table index flags).nextAvailableMappingPage =
        s.nextAvailableMappingPage + 0x1000 * UInt64.ofNat (s.linkDraws table index).length ∧
      (s.linkTable table index flags).pml4Pointer = s.pml4Pointer := by
  rw [Mapping.linkTable, Mapping.linkDraws]
  split
  · dsimp only [Mapping.getNextAvailableMappingPage]
    rw [Mapping.clearPage_eq, List.length_singleton, show UInt64.ofNat 1 = 1 from rfl,
      UInt64.mul_one]
    dsimp only [Mapping.write]
    exact ⟨rfl, rfl⟩
  · exact ⟨(UInt64.add_zero _).symm, rfl⟩

/-- `map_page` behind its upper levels. -/
theorem mapPage_eq_walked (s : Mapping) (pa va : UInt64) :
    s.mapPage pa va =
      if (s.walked va).1.read (s.walked va).2 (vaGetPtIndex va) &&& presentFlag = 0 then
        let s' := (s.walked va).1.write (s.walked va).2 (vaGetPtIndex va) newFlags
        (true, s'.write (s.walked va).2 (vaGetPtIndex va)
          (s'.read (s.walked va).2 (vaGetPtIndex va) ||| (pa &&& addrMask)))
      else (false, (s.walked va).1) := by
  have hpml4 := (linkTable_next s s.pml4Pointer (vaGetPml4Index va)
    (presentFlag ||| writableFlag)).2
  unfold Mapping.mapPage
  dsimp only
  rw [hpml4]
  rfl

theorem walked_next (s : Mapping) (va : UInt64) :
    (s.walked va).1.nextAvailableMappingPage =
      s.nextAvailableMappingPage + 0x1000 * UInt64.ofNat (s.mapPageDraws va).length := by
  rw [Mapping.walked]
  dsimp only
  rw [(linkTable_next ..).1, (linkTable_next ..).1, (linkTable_next ..).1, Mapping.mapPageDraws,
    List.length_append, List.length_append, UInt64.ofNat_add, UInt64.ofNat_add, UInt64.mul_add,
    UInt64.mul_add, ← UInt64.add_assoc, ← UInt64.add_assoc]
  rfl

/-- The upper levels of the two walks, and what is left of `page_map` behind them. -/
theorem Agree.walked (h : Agree D offset s k) (hroot : k.currentPml4 = s.pml4Pointer)
    (pa va : UInt64)
    (hD : s.read s.pml4Pointer (vaGetPml4Index va) &&& presentFlag = 0 →
      s.pml4Pointer + 8 * vaGetPml4Index va ∈ D)
    (hsupply : Supplies p ((s.mapPageDraws va).map Draw.page) k.allocator a)
    (hpages : ∀ d ∈ s.mapPageDraws va, Accessible p offset d.page)
    (htables : ∀ table ∈ s.mapPageTables va, Accessible p offset table) :
    ∃ k', Agree D offset (s.walked va).1 k' ∧ k'.allocator = a ∧
      k.pageMap p va pa =
        Machine.lastLevel p k' ((s.walked va).2 + offset) (vaGetPtIndex va) pa := by
  have hmask : userAccessFlag &&& addrMask = 0 := by decide
  -- the levels of the bootloader's walk
  set s₁ := s.linkTable s.pml4Pointer (vaGetPml4Index va) (presentFlag ||| writableFlag)
  set pdpPtr := s₁.read s.pml4Pointer (vaGetPml4Index va) &&& addrMask
  set s₂ := s₁.linkTable pdpPtr (vaGetPdpIndex va) newFlags
  set pdPtr := s₂.read pdpPtr (vaGetPdpIndex va) &&& addrMask
  set s₃ := s₂.linkTable pdPtr (vaGetPdIndex va) newFlags
  have hdraws : s.mapPageDraws va = s.linkDraws s.pml4Pointer (vaGetPml4Index va) ++
      s₁.linkDraws pdpPtr (vaGetPdpIndex va) ++ s₂.linkDraws pdPtr (vaGetPdIndex va) := rfl
  obtain ⟨hacc₄, hacc₃, hacc₂⟩ : Accessible p offset s.pml4Pointer ∧
      Accessible p offset pdpPtr ∧ Accessible p offset pdPtr :=
    ⟨htables _ (.head _), htables _ (.tail _ (.head _)), htables _ (.tail _ (.tail _ (.head _)))⟩
  rw [hdraws, List.map_append, List.map_append] at hsupply
  rw [hdraws] at hpages
  obtain ⟨a₂, hsupply, hsupply₃⟩ := hsupply.split
  obtain ⟨a₁, hsupply₁, hsupply₂⟩ := hsupply.split
  -- the PML4
  obtain ⟨k₁, hk₁, h₁, halloc₁, hpml4₁⟩ := @Agree.linkTable _ _ _ _ _ _ _ _
    (presentFlag ||| writableFlag) _ h hacc₄ (vaGetPml4Index_lt va) (.inr ⟨by decide, hD⟩) hsupply₁
    fun d hd => hpages d (List.mem_append_left _ (List.mem_append_left _ hd))
  have hread₁ : k₁.read p (s.pml4Pointer + offset) (vaGetPml4Index va) &&& addrMask = pdpPtr :=
    h₁.read_and hacc₄ (vaGetPml4Index_lt va) hmask
  -- the PDP
  obtain ⟨k₂, hk₂, h₂, halloc₂, hpml4₂⟩ := h₁.linkTable hacc₃ (vaGetPdpIndex_lt va) (.inl rfl)
    (halloc₁ ▸ hsupply₂) fun d hd => hpages d (List.mem_append_left _ (List.mem_append_right _ hd))
  have hread₂ : k₂.read p (pdpPtr + offset) (vaGetPdpIndex va) &&& addrMask = pdPtr :=
    h₂.read_and hacc₃ (vaGetPdpIndex_lt va) hmask
  -- the PD
  obtain ⟨k₃, hk₃, h₃, halloc₃, hpml4₃⟩ := h₂.linkTable hacc₂ (vaGetPdIndex_lt va) (.inl rfl)
    (halloc₂ ▸ hsupply₃) fun d hd => hpages d (List.mem_append_right _ hd)
  have hread₃ : k₃.read p (pdPtr + offset) (vaGetPdIndex va) &&& addrMask = (s.walked va).2 :=
    h₃.read_and hacc₂ (vaGetPdIndex_lt va) hmask
  refine ⟨k₃, h₃, halloc₃, ?_⟩
  simp only [Machine.pageMap, hroot, h.offset, hk₁, h₁.offset, hread₁, hk₂, h₂.offset, hread₂, hk₃,
    h₃.offset, hread₃, Machine.lastLevel]

/-- The two functions are the same walk: with the same pages they find the same, take the same
number of pages, and leave the same memory but for the user flag of a new PML4 entry. -/
theorem mapPage_agrees (hmem : k.mem = s.mem) (hroot : k.currentPml4 = s.pml4Pointer)
    (pa va : UInt64) (hsupply : Supplies p ((s.mapPageDraws va).map Draw.page) k.allocator a)
    (hpages : ∀ d ∈ s.mapPageDraws va, Accessible p k.offset d.page)
    (htables : ∀ table ∈ s.mapPageTables va, Accessible p k.offset table) :
    ((s.mapPage pa va).1 = true ↔ (k.pageMap p va pa).1 = 0) ∧
    ((s.mapPage pa va).1 = false ↔ (k.pageMap p va pa).1 = 1) ∧
    (k.pageMap p va pa).2.allocator = a ∧
    (s.mapPage pa va).2.nextAvailableMappingPage =
      s.nextAvailableMappingPage + 0x1000 * UInt64.ofNat (s.mapPageDraws va).length ∧
    ∀ addr, (k.pageMap p va pa).2.mem addr = (s.mapPage pa va).2.mem addr ∨
      addr = s.pml4Pointer + 8 * vaGetPml4Index va ∧ s.mem addr &&& presentFlag = 0 ∧
        (k.pageMap p va pa).2.mem addr = (s.mapPage pa va).2.mem addr ||| userAccessFlag := by
  set D : Set UInt64 :=
    {addr | addr = s.pml4Pointer + 8 * vaGetPml4Index va ∧ s.mem addr &&& presentFlag = 0}
  have hagree : Agree D k.offset s k := ⟨rfl, fun addr => .inl (by rw [hmem])⟩
  obtain ⟨k', h, halloc, hcall⟩ := hagree.walked hroot pa va (fun habsent => ⟨rfl, habsent⟩) hsupply
    hpages htables
  have hacc : Accessible p k.offset (s.walked va).2 :=
    htables _ (.tail _ (.tail _ (.tail _ (.head _))))
  -- the entry of the page table
  have hread := h.read_and hacc (vaGetPtIndex_lt va)
    (show userAccessFlag &&& presentFlag = 0 by decide)
  have hnext := walked_next s va
  rw [mapPage_eq_walked, hcall, Machine.lastLevel, hread]
  by_cases hpt : (s.walked va).1.read (s.walked va).2 (vaGetPtIndex va) &&& presentFlag = 0
  · rw [if_pos hpt, if_pos hpt]
    have hwritten := h.writeEntry (pa &&& addrMask) (hacc.mirrored (vaGetPtIndex_lt va)) (.inl rfl)
    refine ⟨by simp, by simp, ?_, hnext, fun addr => ?_⟩
    · rw [← halloc]
      rfl
    · exact (hwritten.mem addr).imp id fun hor => ⟨hor.1.1, hor.1.2, hor.2⟩
  · rw [if_neg hpt, if_neg hpt]
    refine ⟨by simp, by simp, halloc, hnext, fun addr => ?_⟩
    exact (h.mem addr).imp id fun hor => ⟨hor.1.1, hor.1.2, hor.2⟩

end Agree

/-! ### An instance -/

theorem Platform.Sound.accessible {p : Platform σ} {offset : UInt64} {ram : Set Frame}
    {taken : σ → Set Frame} (hp : p.Sound offset ram taken) {f : Frame} (hf : f ∈ ram) :
    Accessible p offset f.addr := fun i hi =>
  ⟨hp.direct f hf ⟨i, hi⟩, hp.mirrored f hf ⟨i, hi⟩⟩

/-- A PML4, a PDP and an empty PD, with one page for a page table. -/
def bootMapping : Mapping where
  mem addr := if addr = 0x1000 then 0x2003 else if addr = 0x2000 then 0x3003 else 0
  pml4Pointer := 0x1000
  nextAvailableMappingPage := 0x4000
  availableMappingPageCount := 1
  mappingBaseAddress := 0x1000

theorem low_poolPage : ∀ f ∈ [entryFrame 0x4000], f ∈ lowFrames := by
  intro f hf
  rw [List.mem_singleton.mp hf]
  show (entryFrame 0x4000).addr.toNat < 2 ^ 47
  decide

/-- The same memory under the kernel. -/
def kernelMachine : Machine FreeList where
  mem := bootMapping.mem
  allocator := ⟨[entryFrame 0x4000], List.nodup_singleton _, low_poolPage⟩
  currentPml4 := 0x1000
  offset := 0xFFFF800000000000

theorem mapPage_agrees_bootMapping :
    ((bootMapping.mapPage 0xABC000 0x400000).1 = true ↔
        (kernelMachine.pageMap freeListPlatform 0x400000 0xABC000).1 = 0) ∧
      (kernelMachine.pageMap freeListPlatform 0x400000 0xABC000).2.allocator.frames = [] := by
  have hdraws : (bootMapping.mapPageDraws 0x400000).map Draw.page = [0x4000] := rfl
  have htables : bootMapping.mapPageTables 0x400000 = [0x1000, 0x2000, 0x3000, 0x4000] := rfl
  have hlow : ∀ page ∈ ([0x1000, 0x2000, 0x3000, 0x4000] : List UInt64),
      Accessible freeListPlatform kernelMachine.offset page := by
    intro page hpage
    obtain ⟨hmasked, hlt⟩ : page &&& addrMask = page ∧ page.toNat < 2 ^ 47 := by
      simp only [List.mem_cons, List.not_mem_nil, or_false] at hpage
      rcases hpage with rfl | rfl | rfl | rfl <;> decide
    exact freeListPlatform_sound.accessible (f := ⟨page, hmasked⟩) hlt
  have hsupply : Supplies freeListPlatform ((bootMapping.mapPageDraws 0x400000).map Draw.page)
      kernelMachine.allocator ⟨[], List.nodup_nil, fun f hf => absurd hf List.not_mem_nil⟩ := by
    rw [hdraws]
    exact .cons rfl (.nil _)
  have hpages : ∀ d ∈ bootMapping.mapPageDraws 0x400000,
      Accessible freeListPlatform kernelMachine.offset d.page := by
    intro d hd
    have hmem := List.mem_map_of_mem (f := Draw.page) hd
    rw [hdraws] at hmem
    exact hlow _ (by rw [List.mem_singleton.mp hmem]; decide)
  obtain ⟨hcode, -, halloc, -⟩ := mapPage_agrees (p := freeListPlatform) (s := bootMapping)
    (k := kernelMachine) rfl rfl 0xABC000 0x400000 hsupply hpages (htables ▸ hlow)
  exact ⟨hcode, by rw [halloc]⟩

end Betelgeuse
