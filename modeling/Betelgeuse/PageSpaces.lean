/-
Address spaces (`kernel/arch/x86_64/paging.c`).

The paging code works on the tables under `current_pml4`, which `page_map_set` changes
together with the register `cr3`, and `page_map_in_table` for the time of one call.
`Spaces` is what a kernel has of it: a map for each root, the root that calls work on, and
the root that the hardware translates with.

As long as the trees of the roots are apart and their tables are linked once
(`TreesApart`), each call does to the maps what it should (`represents_step`), and so does
every run of calls (`spaces_run`).  In particular a map changes only by calls that are about
its root (`spaces_isolated`).
-/
import Betelgeuse.LabelledRuns
import Betelgeuse.PageLeaves
import Betelgeuse.PageServices

open PageTree LabelledRuns

namespace Betelgeuse

variable {σ : Type*}

/-! ### The code -/

/-- `page_mapper_init`. -/
def Machine.pageMapperInit (memoryOffset pml4 : UInt64) (s : Machine σ) : ℤ × Machine σ :=
  (0, { s with currentPml4 := pml4, offset := memoryOffset })

/-- `page_map_in_table`. -/
def Machine.pageMapInTable (p : Platform σ) (s : Machine σ) (pml4 vaAddr physAddr : UInt64) :
    ℤ × Machine σ :=
  let temp := s.currentPml4
  let s := { s with currentPml4 := pml4 }
  let (result, s) := s.pageMap p vaAddr physAddr
  (result, { s with currentPml4 := temp })

/-- The machine, and the register that the hardware finds its tables with. -/
structure Mmu (σ : Type*) extends Machine σ where
  cr3 : UInt64

/-- `page_map_set`. -/
def Mmu.pageMapSet (s : Mmu σ) (pml4Pointer : UInt64) : ℤ × Mmu σ :=
  let cr3 := s.cr3 &&& ~~~addrMask
  (0, { s with currentPml4 := pml4Pointer, cr3 := cr3 ||| (pml4Pointer &&& addrMask) })

/-- A call of the paging code, with roots for its pointers to tables. -/
inductive SpaceCall where
  | map (va pa : UInt64)
  | mapInTable (root : Frame) (va pa : UInt64)
  | unmap (va : UInt64)
  | set (root : Frame)

/-- Make a call; `page_unmap` may reach its end without a `return`. -/
def SpaceCall.run (p : Platform σ) (s : Mmu σ) : SpaceCall → Option ℤ × Mmu σ
  | map va pa =>
    let (code, machine) := s.pageMap p va pa
    (some code, ⟨machine, s.cr3⟩)
  | mapInTable root va pa =>
    let (code, machine) := s.pageMapInTable p root.addr va pa
    (some code, ⟨machine, s.cr3⟩)
  | unmap va => ((s.pageUnmap p va).code, ⟨(s.pageUnmap p va).machine, s.cr3⟩)
  | set root =>
    let (code, s) := s.pageMapSet root.addr
    (some code, s)

/-! ### What it is for -/

/-- A map from virtual to physical pages for each root, the root that calls are about, and
the root that the hardware uses. -/
structure Spaces where
  map : Frame → UInt64 → Option UInt64
  current : Frame
  live : Frame

/-- The map of a root gets another entry for the page of `va`. -/
def Spaces.setPage (a : Spaces) (root : Frame) (va : UInt64) (entry : Option UInt64) : Spaces :=
  { a with map := fun r va' => if r = root ∧ SamePage va va' then entry else a.map r va' }

/-- Mapping a page: it is new, or it was there, or there is no memory for the tables. -/
inductive MapStep (root : Frame) (va pa : UInt64) (a : Spaces) : ℤ → Spaces → Prop
  | new : a.map root va = none →
    MapStep root va pa a 0 (a.setPage root va (some (pa &&& addrMask)))
  | old : a.map root va ≠ none → MapStep root va pa a 1 a
  | fail : MapStep root va pa a (-1) a

/-- What a call does to the maps, with the code that it returns. -/
inductive SpaceStep : Spaces → SpaceCall × Option ℤ → Spaces → Prop
  | map {a a' va pa code} : MapStep a.current va pa a code a' →
    SpaceStep a (.map va pa, some code) a'
  | mapInTable {a a' root va pa code} : MapStep root va pa a code a' →
    SpaceStep a (.mapInTable root va pa, some code) a'
  | unmap {a va} : a.map a.current va ≠ none →
    SpaceStep a (.unmap va, none) (a.setPage a.current va none)
  | refuse {a va} : SpaceStep a (.unmap va, some (-1)) a
  | set {a root} : SpaceStep a (.set root, some 0) { a with current := root, live := root }

/-! ### Trees that are apart -/

section Trees

variable {p : Platform σ} {s s' : Machine σ} {ram : Set Frame} {taken : σ → Set Frame}
  {roots : Set Frame} {small : Frame → Set UInt64} {root other : Frame} {va pa : UInt64}

/-- The trees of `roots` are trees, and have no table in common.  The walks of the addresses
`small` meet no large page. -/
structure TreesApart (ram : Set Frame) (taken : σ → Set Frame) (roots : Set Frame)
    (small : Frame → Set UInt64) (s : Machine σ) : Prop where
  in_ram : ∀ r ∈ roots, ∀ π f, s.table r π = some f → f ∈ ram
  in_use : ∀ r ∈ roots, ∀ π f, s.table r π = some f → f ∈ taken s.allocator
  once : ∀ r ∈ roots, ∀ π π' f, s.table r π = some f → s.table r π' = some f → π' = π
  apart : ∀ r ∈ roots, ∀ r' ∈ roots, ∀ π π' f, s.table r π = some f → s.table r' π' = some f →
    r = r'
  small : ∀ r ∈ roots, ∀ va ∈ small r, s.NoLargePage r va

/-- A call can be made for each of the roots. -/
theorem TreesApart.ready (h : TreesApart ram taken roots small s) (hroot : root ∈ roots)
    (hva : va ∈ small root) (hpml4 : s.currentPml4 = root.addr) :
    s.Ready ram taken root va where
  root_eq := hpml4
  in_ram := h.in_ram root hroot
  in_use := h.in_use root hroot
  small := h.small root hroot va hva
  walk := walkOk_of_onlyAt fun π f _ hf => ⟨hf, fun π' hf' => h.once root hroot π π' f hf hf'⟩

theorem TreesApart.setPml4 (h : TreesApart ram taken roots small s) (pml4 : UInt64) :
    TreesApart ram taken roots small { s with currentPml4 := pml4 } :=
  ⟨h.in_ram, h.in_use, h.once, h.apart, h.small⟩

/-- The words of the other trees are left alone. -/
theorem TreesApart.word_other (h : TreesApart ram taken roots small s) (hroot : root ∈ roots)
    (hother : other ∈ roots) (hne : other ≠ root)
    (hleaves : Machine.Leaves taken root s s' (vaPath va)) {π : List (Fin 512)} {f : Frame}
    (hf : s.table other π = some f) (i : Fin 512) : word s'.mem f i = word s.mem f i :=
  hleaves.outside f ⟨h.in_use other hother π f hf, fun π' hf' =>
    hne (h.apart other hother root hroot π π' f hf hf')⟩ i

theorem TreesApart.table_other (h : TreesApart ram taken roots small s) (hroot : root ∈ roots)
    (hother : other ∈ roots) (hne : other ≠ root)
    (hleaves : Machine.Leaves taken root s s' (vaPath va)) (π : List (Fin 512)) :
    s'.table other π = s.table other π :=
  tableAt_congr fun _ i _ _ _ hf => h.word_other hroot hother hne hleaves hf i

/-- So their translations are the same. -/
theorem TreesApart.translate_other (h : TreesApart ram taken roots small s) (hroot : root ∈ roots)
    (hother : other ∈ roots) (hne : other ≠ root)
    (hleaves : Machine.Leaves taken root s s' (vaPath va)) (va' : UInt64) :
    translate s'.mem other va' = translate s.mem other va' := by
  have hleaf : s'.leaf other (vaPath va') = s.leaf other (vaPath va') :=
    lookup_congr fun _ i _ _ _ hf => h.word_other hroot hother hne hleaves hf i
  rw [Machine.translate_eq, Machine.translate_eq, hleaf]

/-- A step in one of the trees keeps them apart. -/
theorem TreesApart.step (h : TreesApart ram taken roots small s) (hroot : root ∈ roots)
    (hready : s'.Ready ram taken root va)
    (hleaves : Machine.Leaves taken root s s' (vaPath va)) :
    TreesApart ram taken roots small s' := by
  have hold : ∀ r ∈ roots, r ≠ root → ∀ π, s'.table r π = s.table r π :=
    fun r hr hne π => h.table_other hroot hr hne hleaves π
  refine ⟨?_, ?_, ?_, ?_, ?_⟩
  · intro r hr π f hf
    by_cases hne : r = root
    · subst hne
      exact hready.in_ram π f hf
    · exact h.in_ram r hr π f (hold r hr hne π ▸ hf)
  · intro r hr π f hf
    by_cases hne : r = root
    · subst hne
      exact hready.in_use π f hf
    · exact hleaves.in_use (h.in_use r hr π f (hold r hr hne π ▸ hf))
  · intro r hr π π' f hf hf'
    by_cases hne : r = root
    · subst hne
      rcases hleaves.only π f hf with hwas | ⟨hπ, hfree⟩
      · rcases hleaves.only π' f hf' with hwas' | ⟨-, hfree⟩
        · exact h.once r hr π π' f hwas hwas'
        · exact absurd (h.in_use r hr π f hwas) hfree
      · -- a new table stands on the walk, where tables are linked once
        exact (hready.walk.onlyAt hπ hf).2 π' hf'
    · exact h.once r hr π π' f (hold r hr hne π ▸ hf) (hold r hr hne π' ▸ hf')
  · -- a table of another tree is no new one
    have hmixed : ∀ r ∈ roots, r ≠ root → ∀ π π' f, s'.table r π = some f →
        s'.table root π' = some f → r = root := by
      intro r hr hne π π' f hf hf'
      have hf : s.table r π = some f := hold r hr hne π ▸ hf
      rcases hleaves.only π' f hf' with hwas | ⟨-, hfree⟩
      · exact h.apart r hr root hroot π π' f hf hwas
      · exact absurd (h.in_use r hr π f hf) hfree
    intro r hr r' hr' π π' f hf hf'
    by_cases hne : r = root
    · subst hne
      by_cases hne' : r' = r
      · exact hne'.symm
      · exact (hmixed r' hr' hne' π' π f hf' hf).symm
    · by_cases hne' : r' = root
      · subst hne'
        exact hmixed r hr hne π π' f hf hf'
      · exact h.apart r hr r' hr' π π' f (hold r hr hne π ▸ hf) (hold r' hr' hne' π' ▸ hf')
  · intro r hr va' hva' π i ρ f hpath hρ hf hpres
    by_cases hne : r = root
    · subst hne
      rcases hleaves.small π f i hf hpres with hsmall | ⟨hwas, hword⟩
      · exact hsmall
      · rw [hword] at hpres ⊢
        exact h.small r hr va' hva' π i ρ f hpath hρ hwas hpres
    · have hf : s.table r π = some f := hold r hr hne π ▸ hf
      rw [h.word_other hroot hr hne hleaves hf i] at hpres ⊢
      exact h.small r hr va' hva' π i ρ f hpath hρ hf hpres

end Trees

/-! ### The maps that the trees stand for -/

section Represents

variable {p : Platform σ} {ram : Set Frame} {taken : σ → Set Frame} {roots : Set Frame}
  {small : Frame → Set UInt64} {root : Frame} {va pa : UInt64} {a : Spaces}

/-- The trees of the machine stand for the maps. -/
structure Stands (p : Platform σ) (ram : Set Frame) (taken : σ → Set Frame) (roots : Set Frame)
    (small : Frame → Set UInt64) (s : Machine σ) (a : Spaces) : Prop where
  sound : p.Sound s.offset ram taken
  apart : TreesApart ram taken roots small s
  map : ∀ r ∈ roots, ∀ va, Canonical va → translate s.mem r va = a.map r va

/-- The registers do as well. -/
structure Represents (p : Platform σ) (ram : Set Frame) (taken : σ → Set Frame)
    (roots : Set Frame) (small : Frame → Set UInt64) (s : Mmu σ) (a : Spaces) : Prop
    extends Stands p ram taken roots small s.toMachine a where
  current : s.currentPml4 = a.current.addr
  current_mem : a.current ∈ roots
  live : entryFrame s.cr3 = a.live
  live_mem : a.live ∈ roots

/-- The calls that are covered: addresses are canonical and behind no large page, tables are
those of the roots, and what is unmapped is mapped.  The range of the mirror is
refused anyway. -/
def SpaceCall.Allowed (roots : Set Frame) (small : Frame → Set UInt64) (s : Mmu σ) :
    SpaceCall → Prop
  | map va _ => Canonical va ∧ va ∈ small (entryFrame s.currentPml4)
  | mapInTable root va _ => root ∈ roots ∧ Canonical va ∧ va ∈ small root
  | unmap va => s.InPhysicalMap va ∨ Canonical va ∧ va ∈ small (entryFrame s.currentPml4) ∧
      translate s.mem (entryFrame s.currentPml4) va ≠ none
  | set root => root ∈ roots

/-- A step of the machine: a call that is allowed. -/
def MmuStep (p : Platform σ) (roots : Set Frame) (small : Frame → Set UInt64) (s : Mmu σ)
    (l : SpaceCall × Option ℤ) (s' : Mmu σ) : Prop :=
  l.1.Allowed roots small s ∧ l.1.run p s = (l.2, s')

/-- Setting a page of the tree sets it in the map. -/
theorem Stands.setPage {s s' : Machine σ} (h : Stands p ram taken roots small s a)
    (hroot : root ∈ roots) (hoffset : s'.offset = s.offset)
    (hready : s'.Ready ram taken root va) (hleaves : Machine.Leaves taken root s s' (vaPath va))
    {entry : Option UInt64} (hentry : translate s'.mem root va = entry)
    (hothers : ∀ va', Canonical va' → va'.toNat / 4096 ≠ va.toNat / 4096 →
      translate s'.mem root va' = translate s.mem root va') :
    Stands p ram taken roots small s' (a.setPage root va entry) where
  sound := hoffset ▸ h.sound
  apart := h.apart.step hroot hready hleaves
  map r hr va' hva' := by
    show _ = if r = root ∧ SamePage va va' then entry else a.map r va'
    split
    · next hslot =>
      obtain ⟨rfl, hpage⟩ := hslot
      rw [← hentry, translate, translate, vaPath_eq_of_page_eq hpage]
    · next hslot =>
      rw [← h.map r hr va' hva']
      by_cases hne : r = root
      · subst hne
        exact hothers va' hva' fun hpage => hslot ⟨rfl, hpage.symm⟩
      · exact h.apart.translate_other hroot hr hne hleaves va'

/-- The steps that leave the translation of the tree as it is. -/
theorem Stands.keep {s s' : Machine σ} (h : Stands p ram taken roots small s a)
    (hroot : root ∈ roots) (hoffset : s'.offset = s.offset)
    (hready : s'.Ready ram taken root va) (hleaves : Machine.Leaves taken root s s' (vaPath va))
    (hsame : ∀ va', translate s'.mem root va' = translate s.mem root va') :
    Stands p ram taken roots small s' a where
  sound := hoffset ▸ h.sound
  apart := h.apart.step hroot hready hleaves
  map r hr va' hva' := by
    rw [← h.map r hr va' hva']
    by_cases hne : r = root
    · rw [hne, hsame]
    · exact h.apart.translate_other hroot hr hne hleaves va'

/-- `page_map` in the tree that `current_pml4` points to. -/
theorem Stands.pageMap {s : Machine σ} (h : Stands p ram taken roots small s a)
    (hroot : root ∈ roots) (hva : Canonical va) (hsmall : va ∈ small root)
    (hpml4 : s.currentPml4 = root.addr) (pa : UInt64) :
    ∃ code s' a', s.pageMap p va pa = (code, s') ∧ s'.currentPml4 = s.currentPml4 ∧
      MapStep root va pa a code a' ∧ Stands p ram taken roots small s' a' ∧
      a'.current = a.current ∧ a'.live = a.live := by
  have hready := h.apart.ready hroot hsmall hpml4
  have hleaves := hready.pageMap_leaves h.sound pa
  obtain ⟨code, s', hs', hoffset, hready', hcase⟩ := hready.pageMap_translation h.sound hva pa
  rw [hs'] at hleaves
  have hva' := h.map root hroot va hva
  rcases hcase with ⟨rfl, hnone, hsome, hothers⟩ | ⟨rfl, hmapped, rfl⟩ | ⟨rfl, hsame⟩
  · exact ⟨0, s', _, hs', hleaves.pml4, .new (hva' ▸ hnone),
      h.setPage hroot hoffset hready' hleaves hsome hothers, rfl, rfl⟩
  · exact ⟨1, _, a, hs', rfl, .old (hva' ▸ hmapped), h, rfl, rfl⟩
  · exact ⟨-1, s', a, hs', hleaves.pml4, .fail, h.keep hroot hoffset hready' hleaves hsame,
      rfl, rfl⟩

theorem Stands.setPml4 {s : Machine σ} (h : Stands p ram taken roots small s a)
    (pml4 : UInt64) : Stands p ram taken roots small { s with currentPml4 := pml4 } a :=
  ⟨h.sound, h.apart.setPml4 pml4, h.map⟩

/-- `page_map_in_table` works on another tree, and sets `current_pml4` back. -/
theorem Stands.pageMapInTable {s : Machine σ} (h : Stands p ram taken roots small s a)
    (hroot : root ∈ roots) (hva : Canonical va) (hsmall : va ∈ small root) (pa : UInt64) :
    ∃ code s' a', s.pageMapInTable p root.addr va pa = (code, s') ∧
      s'.currentPml4 = s.currentPml4 ∧ MapStep root va pa a code a' ∧
      Stands p ram taken roots small s' a' ∧ a'.current = a.current ∧ a'.live = a.live := by
  obtain ⟨code, s', a', hs', -, hstep, hstands, hcurrent, hlive⟩ :=
    (h.setPml4 root.addr).pageMap hroot hva hsmall rfl pa
  refine ⟨code, { s' with currentPml4 := s.currentPml4 }, a', ?_, rfl, hstep,
    hstands.setPml4 _, hcurrent, hlive⟩
  rw [Machine.pageMapInTable, hs']

/-- `page_unmap` of a page that is mapped. -/
theorem Stands.pageUnmap {s : Machine σ} (h : Stands p ram taken roots small s a)
    (hroot : root ∈ roots) (hva : Canonical va) (hsmall : va ∈ small root)
    (hpml4 : s.currentPml4 = root.addr) (hout : ¬ s.InPhysicalMap va)
    (hmapped : translate s.mem root va ≠ none) :
    (s.pageUnmap p va).code = none ∧
      (s.pageUnmap p va).machine.currentPml4 = s.currentPml4 ∧
      Stands p ram taken roots small (s.pageUnmap p va).machine (a.setPage root va none) := by
  have hready := h.apart.ready hroot hsmall hpml4
  have hleaves := hready.pageUnmap_leaves h.sound hmapped hout
  obtain ⟨hready', hnone, hothers⟩ := Machine.pageUnmap_removes h.sound hready hva hmapped hout
  exact ⟨(Machine.pageUnmap_code hout).1, hleaves.pml4,
    h.setPage hroot hleaves.offset hready' hleaves hnone hothers⟩

theorem entryFrame_or_of_clear (cr3 : UInt64) (root : Frame) :
    entryFrame (cr3 &&& ~~~addrMask ||| root.addr &&& addrMask) = root := by
  refine entryFrame_eq ?_
  rw [and_or_right, UInt64.and_assoc, UInt64.and_assoc, UInt64.and_self,
    show ~~~addrMask &&& addrMask = 0 by decide, UInt64.and_zero, UInt64.zero_or, root.masked]

/-- Each call that is allowed is a step of the maps. -/
theorem represents_step {s s' : Mmu σ} {l : SpaceCall × Option ℤ}
    (h : Represents p ram taken roots small s a) (hstep : MmuStep p roots small s l s') :
    ∃ a', SpaceStep a l a' ∧ Represents p ram taken roots small s' a' := by
  obtain ⟨call, code⟩ := l
  obtain ⟨hallowed, hrun⟩ := hstep
  have hcurrent : entryFrame s.currentPml4 = a.current := by rw [h.current, entryFrame_addr]
  cases call with
  | map va pa =>
    obtain ⟨hva, hsmall⟩ := hallowed
    rw [hcurrent] at hsmall
    obtain ⟨result, m, a', hm, hpml4, hmap, hstands, hcur, hlive⟩ :=
      h.toStands.pageMap h.current_mem hva hsmall h.current pa
    simp only [SpaceCall.run, hm] at hrun
    obtain ⟨rfl, rfl⟩ := Prod.mk.inj hrun
    exact ⟨a', .map hmap, hstands, by rw [hpml4, hcur, h.current], hcur ▸ h.current_mem,
      h.live.trans hlive.symm, hlive ▸ h.live_mem⟩
  | mapInTable root va pa =>
    obtain ⟨hroot, hva, hsmall⟩ := hallowed
    obtain ⟨result, m, a', hm, hpml4, hmap, hstands, hcur, hlive⟩ :=
      h.toStands.pageMapInTable hroot hva hsmall pa
    simp only [SpaceCall.run, hm] at hrun
    obtain ⟨rfl, rfl⟩ := Prod.mk.inj hrun
    exact ⟨a', .mapInTable hmap, hstands, by rw [hpml4, hcur, h.current],
      hcur ▸ h.current_mem, h.live.trans hlive.symm, hlive ▸ h.live_mem⟩
  | unmap va =>
    by_cases hout : s.InPhysicalMap va
    · -- nothing happens in the range of the mirror
      simp only [SpaceCall.run, Machine.pageUnmap, if_pos hout] at hrun
      obtain ⟨rfl, rfl⟩ := Prod.mk.inj hrun
      exact ⟨a, .refuse, h⟩
    · obtain ⟨hva, hsmall, hmapped⟩ := hallowed.resolve_left hout
      rw [hcurrent] at hsmall hmapped
      obtain ⟨hcode, hpml4, hstands⟩ :=
        h.toStands.pageUnmap h.current_mem hva hsmall h.current hout hmapped
      simp only [SpaceCall.run, hcode] at hrun
      obtain ⟨rfl, rfl⟩ := Prod.mk.inj hrun
      rw [h.map _ h.current_mem va hva] at hmapped
      exact ⟨_, .unmap hmapped, hstands, hpml4.trans h.current, h.current_mem, h.live, h.live_mem⟩
  | set root =>
    simp only [SpaceCall.run, Mmu.pageMapSet] at hrun
    obtain ⟨rfl, rfl⟩ := Prod.mk.inj hrun
    exact ⟨_, .set, ⟨h.sound, h.apart.setPml4 _, h.map⟩, rfl, hallowed,
      entryFrame_or_of_clear s.cr3 root, hallowed⟩

theorem runs_one {s : Mmu σ} {call : SpaceCall} (h : call.Allowed roots small s) :
    Runs (MmuStep p roots small) s [(call, (call.run p s).1)] (call.run p s).2 :=
  .cons ⟨h, rfl⟩ .nil

/-- So does every run: the machine goes on standing for what the calls make of the maps, and
the hardware translates as the map of the root says that was set last. -/
theorem spaces_run {s s' : Mmu σ} {ls : List (SpaceCall × Option ℤ)}
    (h : Represents p ram taken roots small s a)
    (hrun : Runs (MmuStep p roots small) s ls s') :
    ∃ a', Runs SpaceStep a ls a' ∧ Represents p ram taken roots small s' a' ∧
      ∀ va, Canonical va → translate s'.mem (entryFrame s'.cr3) va = a'.map a'.live va := by
  obtain ⟨a', hruns, ha'⟩ := hrun.simulates (fun s a l s' => represents_step) h
  refine ⟨a', hruns, ha', fun va hva => ?_⟩
  rw [ha'.live, ha'.map _ ha'.live_mem va hva]

end Represents

/-- A kernel with the two empty tables at `0x1000` and `0x2000`, after `page_mapper_init`. -/
def twoSpaces : Mmu FreeList where
  toMachine := (({ emptyMachine with
    allocator := ⟨[entryFrame 0x3000], List.nodup_singleton _, by
      intro f hf
      obtain rfl := List.mem_singleton.mp hf
      exact mem_lowFrames.mpr (by decide)⟩ } : Machine FreeList).pageMapperInit
        0xFFFF800000000000 0x1000).2
  cr3 := 0x1018

def otherRoot : Frame := entryFrame 0x2000

theorem twoSpaces_table {root : Frame} {π : List (Fin 512)} {f : Frame}
    (h : twoSpaces.table root π = some f) : π = [] ∧ f = root := by
  cases π with
  | nil => exact ⟨rfl, (Option.some.inj ((tableAt_nil _ _ _ _).symm.trans h)).symm⟩
  | cons i π =>
    rw [Machine.table, tableAt_of_ne_table fun g => by
      rw [show word twoSpaces.mem root i = 0 from rfl, decode_zero_word]
      simp] at h
    cases h

theorem twoSpaces_represents :
    Represents freeListPlatform lowFrames freeListTaken {emptyRoot, otherRoot}
      (fun _ => Set.univ) twoSpaces ⟨fun _ _ => none, emptyRoot, emptyRoot⟩ where
  sound := freeListPlatform_sound
  apart := by
    have hroot : ∀ r ∈ ({emptyRoot, otherRoot} : Set Frame), r ∈ lowFrames ∧
        r ∈ freeListTaken twoSpaces.allocator := by
      rintro r (rfl | rfl)
      · exact ⟨mem_lowFrames.mpr (by decide), show emptyRoot ∉ _ by decide⟩
      · exact ⟨mem_lowFrames.mpr (by decide), show otherRoot ∉ _ by decide⟩
    refine ⟨?_, ?_, ?_, ?_, ?_⟩
    · intro r hr π f hf
      rw [(twoSpaces_table hf).2]
      exact (hroot r hr).1
    · intro r hr π f hf
      rw [(twoSpaces_table hf).2]
      exact (hroot r hr).2
    · intro r _ π π' f hf hf'
      rw [(twoSpaces_table hf).1, (twoSpaces_table hf').1]
    · intro r _ r' _ π π' f hf hf'
      rw [← (twoSpaces_table hf).2, (twoSpaces_table hf').2]
    · exact fun _ _ _ _ _ _ _ _ _ _ _ hpres =>
        absurd (show (0 : UInt64) &&& presentFlag = 0 by decide) hpres
  map r _ va _ := by
    rw [Machine.translate_eq, Machine.leaf, vaPath, lookup_of_absent]
    · rfl
    · exact decode_zero_word _
  current := rfl
  current_mem := .inl rfl
  live := by decide
  live_mem := .inl rfl

/-- A run that maps a page in the other tables. -/
theorem twoSpaces_mapInTable :
    Runs (MmuStep freeListPlatform {emptyRoot, otherRoot} fun _ => Set.univ) twoSpaces
      [(.mapInTable otherRoot 0x400000 0xABC000,
        ((SpaceCall.mapInTable otherRoot 0x400000 0xABC000).run freeListPlatform twoSpaces).1)]
      ((SpaceCall.mapInTable otherRoot 0x400000 0xABC000).run freeListPlatform twoSpaces).2 := by
  have hallowed : (SpaceCall.mapInTable otherRoot 0x400000 0xABC000).Allowed
      {emptyRoot, otherRoot} (fun _ => Set.univ) twoSpaces :=
    ⟨.inr rfl, .inl (by decide), trivial⟩
  exact runs_one hallowed

theorem spaces_run_twoSpaces :
    ∃ code s' a', Runs SpaceStep ⟨fun _ _ => none, emptyRoot, emptyRoot⟩
        [(.mapInTable otherRoot 0x400000 0xABC000, code)] a' ∧
      Represents freeListPlatform lowFrames freeListTaken {emptyRoot, otherRoot}
        (fun _ => Set.univ) s' a' := by
  obtain ⟨a', hruns, ha', -⟩ := spaces_run twoSpaces_represents twoSpaces_mapInTable
  exact ⟨_, _, a', hruns, ha'⟩

/-! ### Isolation -/

/-- The roots that calls are about, when `current` is the root at their start. -/
def touched (current : Frame) : List SpaceCall → List Frame
  | [] => []
  | .map _ _ :: cs => current :: touched current cs
  | .mapInTable root _ _ :: cs => root :: touched current cs
  | .unmap _ :: cs => current :: touched current cs
  | .set root :: cs => touched root cs

theorem MapStep.other {root other : Frame} {va pa : UInt64} {a a' : Spaces} {code : ℤ}
    (h : MapStep root va pa a code a') (hne : other ≠ root) :
    a'.map other = a.map other ∧ a'.current = a.current := by
  cases h with
  | new => exact ⟨funext fun va' => if_neg fun hslot => hne hslot.1, rfl⟩
  | old => exact ⟨rfl, rfl⟩
  | fail => exact ⟨rfl, rfl⟩

/-- A map changes by calls that are about its root. -/
theorem map_untouched {a a' : Spaces} {ls : List (SpaceCall × Option ℤ)} {r : Frame}
    (h : Runs SpaceStep a ls a') (hr : r ∉ touched a.current (ls.map Prod.fst)) :
    a'.map r = a.map r := by
  induction h with
  | nil => rfl
  | cons hstep _ ih =>
    cases hstep with
    | map hmap =>
      obtain ⟨hne, hrest⟩ := List.ne_and_not_mem_of_not_mem_cons hr
      obtain ⟨hsame, hcurrent⟩ := hmap.other hne
      rw [ih (hcurrent ▸ hrest), hsame]
    | mapInTable hmap =>
      obtain ⟨hne, hrest⟩ := List.ne_and_not_mem_of_not_mem_cons hr
      obtain ⟨hsame, hcurrent⟩ := hmap.other hne
      rw [ih (hcurrent ▸ hrest), hsame]
    | unmap =>
      obtain ⟨hne, hrest⟩ := List.ne_and_not_mem_of_not_mem_cons hr
      rw [ih hrest]
      exact funext fun va' => if_neg fun hslot => hne hslot.1
    | refuse => exact ih (List.ne_and_not_mem_of_not_mem_cons hr).2
    | set => exact ih hr

/-- So no run that is about other roots changes what the tables of a root translate. -/
theorem spaces_isolated {p : Platform σ} {ram : Set Frame} {taken : σ → Set Frame}
    {roots : Set Frame} {small : Frame → Set UInt64} {a : Spaces} {s s' : Mmu σ}
    {ls : List (SpaceCall × Option ℤ)} {r : Frame}
    (h : Represents p ram taken roots small s a)
    (hrun : Runs (MmuStep p roots small) s ls s') (hr : r ∈ roots)
    (hnot : r ∉ touched (entryFrame s.currentPml4) (ls.map Prod.fst)) (va : UInt64)
    (hva : Canonical va) : translate s'.mem r va = translate s.mem r va := by
  obtain ⟨a', hruns, ha'⟩ := hrun.simulates (fun s a l s' => represents_step) h
  rw [h.current, entryFrame_addr] at hnot
  rw [ha'.map r hr va hva, h.map r hr va hva, map_untouched hruns hnot]

/-- The tables that the hardware uses do not see the page that is mapped in the others. -/
theorem spaces_isolated_twoSpaces :
    translate ((SpaceCall.mapInTable otherRoot 0x400000 0xABC000).run freeListPlatform
        twoSpaces).2.mem emptyRoot 0x400000 = translate twoSpaces.mem emptyRoot 0x400000 :=
  spaces_isolated twoSpaces_represents twoSpaces_mapInTable (.inl rfl) (by decide) 0x400000
    (.inl (by decide))

end Betelgeuse
