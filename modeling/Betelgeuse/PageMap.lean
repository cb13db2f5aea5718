/-
`page_map` extends the translation at one page.

The proof follows the walk of a virtual address.  `Ready` collects what has to
hold of a machine and an address: the tables lie in accessible memory and are
in use, no large page is met on the walk, and its tables are linked once.
`Ready.linkTable` says that one level of `page_map` either finds a table, or
links an empty one, or fails; `Grows` sums up what any number of such steps do:
no lookup changes, and the frames taken are the tables on the walk.
`Ready.pageMap_cases` puts the three levels together, and `pageMap_extends` says
what the call does to the translation and which frames it takes.
-/
import Betelgeuse.PageTableBits

open PageTree

namespace Betelgeuse

variable {σ : Type*}

/-- What is assumed of the machine: the frames of `ram` can be reached by their
physical address and at `offset` above it, and `page_physical_alloc` returns
frames of `ram` that are not taken. -/
structure Platform.Sound (p : Platform σ) (offset : UInt64) (ram : Set Frame)
    (taken : σ → Set Frame) : Prop where
  direct : ∀ f ∈ ram, ∀ i : Fin 512,
    p.resolve (f.addr + 8 * UInt64.ofNat i.val) = f.addr + 8 * UInt64.ofNat i.val
  mirrored : ∀ f ∈ ram, ∀ i : Fin 512,
    p.resolve (f.addr + offset + 8 * UInt64.ofNat i.val) = f.addr + 8 * UInt64.ofNat i.val
  fresh : ∀ a r a', p.physicalAlloc a = some (r, a') →
    ∃ f ∈ ram, r = f.addr ∧ f ∉ taken a ∧ taken a' = insert f (taken a)

namespace Machine

variable (s : Machine σ) (ram : Set Frame) (taken : σ → Set Frame) (root : Frame)

/-- The table of the machine at the end of a path from the root. -/
abbrev table (π : List (Fin 512)) : Option Frame := tableAt decode (word s.mem) root 4 π

/-- The leaf entry of the machine under a full path. -/
abbrev leaf (τ : List (Fin 512)) : Option (UInt64 × List (Fin 512)) :=
  lookup decode (word s.mem) root τ

/-- The entries of the three upper levels on the walk of `va` are no large pages. -/
def NoLargePage (va : UInt64) : Prop :=
  ∀ π i ρ f, vaPath va = π ++ i :: ρ → ρ ≠ [] → s.table root π = some f →
    word s.mem f i &&& presentFlag ≠ 0 → word s.mem f i &&& pageSizeFlag = 0

/-- What `page_map` needs of the tables and of the walk of an address. -/
structure Ready (va : UInt64) : Prop where
  root_eq : s.currentPml4 = root.addr
  in_ram : ∀ π f, s.table root π = some f → f ∈ ram
  in_use : ∀ π f, s.table root π = some f → f ∈ taken s.allocator
  small : s.NoLargePage root va
  walk : WalkOk decode (word s.mem) root 4 (vaPath va)

/-- Linking empty tables on the walk along `path`: nothing else happens to the
tree, and the frames taken are the tables linked. -/
structure Grows (s s' : Machine σ) (path : List (Fin 512)) : Prop where
  pml4 : s'.currentPml4 = s.currentPml4
  offset : s'.offset = s.offset
  leaf : ∀ τ, τ.length = 4 → s'.leaf root τ = s.leaf root τ
  keep : ∀ π f, s.table root π = some f → s'.table root π = some f
  only : ∀ π f, s'.table root π = some f →
    s.table root π = some f ∨ π <+: path ∧ f ∉ taken s.allocator
  taken : ∀ f, f ∈ taken s'.allocator ↔
    f ∈ taken s.allocator ∨ ∃ π, π <+: path ∧ s'.table root π = some f

variable {s ram taken root} {p : Platform σ} {path : List (Fin 512)}

theorem Grows.trans {s' s'' : Machine σ} (h : Grows taken root s s' path)
    (h' : Grows taken root s' s'' path) : Grows taken root s s'' path where
  pml4 := h'.pml4.trans h.pml4
  offset := h'.offset.trans h.offset
  leaf τ hτ := (h'.leaf τ hτ).trans (h.leaf τ hτ)
  keep π f hf := h'.keep π f (h.keep π f hf)
  only π f hf := by
    rcases h'.only π f hf with hf | ⟨hπ, hfresh⟩
    · exact h.only π f hf
    · exact .inr ⟨hπ, fun htaken => hfresh ((h.taken f).mpr (.inl htaken))⟩
  taken f := by
    rw [h'.taken, h.taken]
    constructor
    · rintro ((hf | ⟨π, hπ, hf⟩) | hf)
      · exact .inl hf
      · exact .inr ⟨π, hπ, h'.keep π f hf⟩
      · exact .inr hf
    · rintro (hf | hf)
      · exact .inl (.inl hf)
      · exact .inr hf

/-! ### Words after a write -/

theorem word_write {f g : Frame} {i j : Fin 512} {ptr index v : UInt64}
    (hr : p.resolve (ptr + 8 * index) = g.addr + 8 * UInt64.ofNat j.val) :
    word (s.write p ptr index v).mem f i = if f = g ∧ i = j then v else word s.mem f i := by
  show Function.update s.mem (p.resolve (ptr + 8 * index)) v _ = _
  rw [hr, Function.update_apply]
  exact if_congr wordAddr_inj rfl rfl

theorem word_clearPage {new : Frame}
    (hr : ∀ i : Fin 512, p.resolve (new.addr + 8 * UInt64.ofNat i.val) =
      new.addr + 8 * UInt64.ofNat i.val) (f : Frame) (i : Fin 512) :
    word (s.clearPage p new.addr).mem f i = if f = new then 0 else word s.mem f i := by
  -- after `n` rounds the first `n` words are clear
  have hloop : ∀ n ≤ 512, word ((List.range n).foldl
      (fun s i => s.write p new.addr (UInt64.ofNat i) 0) s).mem f i =
        if f = new ∧ i.val < n then 0 else word s.mem f i := by
    intro n
    induction n with
    | zero => simp
    | succ n ih =>
      intro hn
      have hwrite := word_write (s := (List.range n).foldl
        (fun s i => s.write p new.addr (UInt64.ofNat i) 0) s) (f := f) (i := i) (v := 0)
        (hr ⟨n, by omega⟩)
      rw [List.range_succ, List.foldl_append, List.foldl_cons, List.foldl_nil, hwrite,
        ih (by omega)]
      by_cases hf : f = new
      · by_cases hi : i.val = n
        · simp [hf, Fin.ext_iff, hi]
        · have hlt : i.val < n ↔ i.val < n + 1 := by omega
          simp [hf, Fin.ext_iff, hi, hlt]
      · simp [hf]
  have hall := hloop 512 le_rfl
  rw [clearPage, hall]
  simp [i.isLt]

@[simp] theorem write_allocator (ptr index v : UInt64) :
    (s.write p ptr index v).allocator = s.allocator := rfl

@[simp] theorem write_currentPml4 (ptr index v : UInt64) :
    (s.write p ptr index v).currentPml4 = s.currentPml4 := rfl

@[simp] theorem write_offset (ptr index v : UInt64) :
    (s.write p ptr index v).offset = s.offset := rfl

/-- Clearing a page changes memory only. -/
theorem clearPage_eq (nextPage : UInt64) :
    s.clearPage p nextPage = { s with mem := (s.clearPage p nextPage).mem } := by
  have hloop : ∀ l : List ℕ, l.foldl (fun s i => s.write p nextPage (UInt64.ofNat i) 0) s =
      { s with mem := (l.foldl (fun s i => s.write p nextPage (UInt64.ofNat i) 0) s).mem } := by
    intro l
    induction l using List.reverseRecOn with
    | nil => rfl
    | append_singleton l i ih =>
      rw [List.foldl_append, List.foldl_cons, List.foldl_nil, ih]
      rfl
  exact hloop _

/-! ### One level -/

section Level

variable {g : Frame} {j : Fin 512}

theorem read_mirrored (hp : p.Sound s.offset ram taken) (hg : g ∈ ram) (j : Fin 512) :
    s.read p (g.addr + s.offset) (UInt64.ofNat j.val) = word s.mem g j := by
  rw [read, hp.mirrored g hg j, word]

theorem linkTable_present (hp : p.Sound s.offset ram taken) (hg : g ∈ ram)
    (hpres : word s.mem g j &&& presentFlag ≠ 0) :
    s.linkTable p (g.addr + s.offset) (UInt64.ofNat j.val) = some s := by
  rw [linkTable, read_mirrored hp hg, if_neg hpres]
  rfl

/-- What is written when a table is missing. -/
theorem linkTable_absent (hp : p.Sound s.offset ram taken) (hg : g ∈ ram)
    (habs : word s.mem g j &&& presentFlag = 0) :
    s.linkTable p (g.addr + s.offset) (UInt64.ofNat j.val) = none ∨
      ∃ s' new, s.linkTable p (g.addr + s.offset) (UInt64.ofNat j.val) = some s' ∧
        new ∈ ram ∧ new ∉ taken s.allocator ∧
        taken s'.allocator = insert new (taken s.allocator) ∧
        s'.currentPml4 = s.currentPml4 ∧ s'.offset = s.offset ∧
        ∀ f i, word s'.mem f i =
          if f = g ∧ i = j then newFlags ||| new.addr
          else if f = new then 0 else word s.mem f i := by
  cases halloc : p.physicalAlloc s.allocator with
  | none =>
    left
    rw [linkTable, read_mirrored hp hg, if_pos habs, halloc]
    rfl
  | some r =>
    right
    obtain ⟨nextPage, allocator⟩ := r
    obtain ⟨new, hnew, rfl, hfresh, htaken⟩ := hp.fresh _ _ _ halloc
    set s₁ : Machine σ := ({ s with allocator := allocator } : Machine σ).clearPage p new.addr
      with hs₁
    have hs₁eq : s₁ = { s with mem := s₁.mem, allocator := allocator } := clearPage_eq _
    have hs₁mem : ∀ f i, word s₁.mem f i = if f = new then 0 else word s.mem f i :=
      fun f i => word_clearPage (hp.direct new hnew) f i
    set s₂ := s₁.write p (g.addr + s.offset) (UInt64.ofNat j.val) newFlags with hs₂
    -- the second write completes the entry that the first one has begun
    have hread : s₂.read p (g.addr + s.offset) (UInt64.ofNat j.val) = newFlags := by
      rw [read, hp.mirrored g hg j]
      have hword := word_write (s := s₁) (f := g) (i := j) (v := newFlags) (hp.mirrored g hg j)
      rw [if_pos ⟨rfl, rfl⟩] at hword
      exact hword
    refine ⟨s₂.write p (g.addr + s.offset) (UInt64.ofNat j.val) (newFlags ||| new.addr), new, ?_,
      hnew, hfresh, ?_, ?_, ?_, fun f i => ?_⟩
    · rw [linkTable, read_mirrored hp hg, if_pos habs, halloc]
      show some (s₂.write p _ _ (s₂.read p _ _ ||| new.addr)) = _
      rw [hread]
    · rw [write_allocator, hs₂, write_allocator, hs₁eq]
      exact htaken
    · rw [write_currentPml4, hs₂, write_currentPml4, hs₁eq]
    · rw [write_offset, hs₂, write_offset, hs₁eq]
    · rw [word_write (hp.mirrored g hg j), hs₂, word_write (hp.mirrored g hg j), hs₁mem]
      by_cases hslot : f = g ∧ i = j
      · rw [if_pos hslot, if_pos hslot]
      · rw [if_neg hslot, if_neg hslot, if_neg hslot]

section Link

variable {va : UInt64} {s' : Machine σ} {new : Frame} {π ρ : List (Fin 512)}

/-- The tables after an empty table has been linked at an absent entry of the walk:
the old ones and the new one, with the same leaves. -/
theorem Ready.table_link (h : s.Ready ram taken root va) (hpath : vaPath va = π ++ j :: ρ)
    (hρ : ρ ≠ []) (hg : s.table root π = some g) (habs : word s.mem g j &&& presentFlag = 0)
    (hfresh : new ∉ taken s.allocator)
    (hmem : ∀ f i, word s'.mem f i = if f = g ∧ i = j then newFlags ||| new.addr
      else if f = new then 0 else word s.mem f i) :
    (∀ τ, s'.table root τ = if τ = π ++ [j] then some new else s.table root τ) ∧
      ∀ τ, τ.length = 4 →
        lookup decode (word s'.mem) root τ = lookup decode (word s.mem) root τ := by
  have hn : 4 = ρ.length + 1 + π.length := by
    have := congrArg List.length hpath
    simp [vaPath] at this
    omega
  have honly : OnlyAt decode (word s.mem) root (ρ.length + 1 + π.length) π g := by
    rw [← hn]
    exact h.walk.onlyAt ⟨j :: ρ, hpath.symm⟩ hg
  -- the new table is none of the old ones
  have hother : ∀ τ f, s.table root τ = some f → f ≠ new := by
    rintro τ f hf rfl
    exact hfresh (h.in_use τ f hf)
  have hagree : ∀ τ f i, tableAt decode (word s.mem) root (ρ.length + 1 + π.length) τ = some f →
      ¬ (f = g ∧ i = j) → word s'.mem f i = word s.mem f i := by
    intro τ f i hf hslot
    rw [← hn] at hf
    rw [hmem, if_neg hslot, if_neg (hother τ f hf)]
  have hlink : decode ρ.length (word s'.mem g j) = .table new := by
    obtain ⟨m, hm⟩ : ∃ m, ρ.length = m + 1 :=
      Nat.exists_eq_succ_of_ne_zero (by rwa [ne_eq, List.length_eq_zero_iff])
    rw [hmem, if_pos ⟨rfl, rfl⟩, hm]
    exact decode_newEntry m new
  have hempty : ∀ k i, decode k (word s'.mem new i) = .absent := by
    intro k i
    rw [hmem, if_neg (fun hslot => hother π g hg hslot.1.symm), if_pos rfl]
    exact decode_zero_word k
  refine ⟨fun τ => ?_, fun τ hτ => ?_⟩
  · have := tableAt_link honly hagree (decode_eq_absent habs) hlink hempty τ
    rwa [← hn] at this
  · exact lookup_link honly hagree (decode_eq_absent habs) hlink hempty (by omega)

theorem Ready.ready_link (h : s.Ready ram taken root va)
    (hnew : new ∈ ram) (hfresh : new ∉ taken s.allocator)
    (htaken : taken s'.allocator = insert new (taken s.allocator))
    (hpml4 : s'.currentPml4 = s.currentPml4)
    (hmem : ∀ f i, word s'.mem f i = if f = g ∧ i = j then newFlags ||| new.addr
      else if f = new then 0 else word s.mem f i)
    (htable : ∀ τ, s'.table root τ = if τ = π ++ [j] then some new else s.table root τ) :
    s'.Ready ram taken root va := by
  -- a table that was there before is not the new frame
  have hother : ∀ τ f, s.table root τ = some f → f ≠ new := by
    rintro τ f hf rfl
    exact hfresh (h.in_use τ f hf)
  refine ⟨?_, ?_, ?_, ?_, ?_⟩
  · rw [hpml4, h.root_eq]
  · intro τ f hf
    rw [htable] at hf
    split at hf
    · obtain rfl := Option.some.inj hf
      exact hnew
    · exact h.in_ram τ f hf
  · intro τ f hf
    rw [htaken]
    rw [htable] at hf
    split at hf
    · exact .inl (Option.some.inj hf).symm
    · exact .inr (h.in_use τ f hf)
  · intro τ i ρ' f hτ hρ' hf hpres
    rw [hmem] at hpres ⊢
    split
    · exact pageSize_newEntry new.masked
    · rename_i hslot
      rw [if_neg hslot] at hpres
      split
      · rfl
      · rename_i hne
        rw [if_neg hne] at hpres
        refine h.small τ i ρ' f hτ hρ' ?_ hpres
        rw [htable] at hf
        split at hf
        · exact absurd (Option.some.inj hf).symm hne
        · exact hf
  -- no table is linked from two places
  · refine walkOk_of_onlyAt fun τ f hτ hf => ⟨hf, fun τ' hf' => ?_⟩
    rw [show tableAt decode (word s'.mem) root 4 τ = s'.table root τ from rfl, htable] at hf
    rw [show tableAt decode (word s'.mem) root 4 τ' = s'.table root τ' from rfl, htable] at hf'
    split at hf
    · obtain rfl := Option.some.inj hf
      split at hf'
      · rename_i h1 h2
        rw [h1, h2]
      · exact absurd rfl (hother τ' _ hf')
    · split at hf'
      · obtain rfl := Option.some.inj hf'
        exact absurd rfl (hother τ _ hf)
      · exact (h.walk.onlyAt hτ hf).2 τ' hf'

/-- An empty table linked at an absent entry of the walk. -/
theorem Ready.link (h : s.Ready ram taken root va) (hpath : vaPath va = π ++ j :: ρ)
    (hρ : ρ ≠ []) (hg : s.table root π = some g) (habs : word s.mem g j &&& presentFlag = 0)
    (hnew : new ∈ ram) (hfresh : new ∉ taken s.allocator)
    (htaken : taken s'.allocator = insert new (taken s.allocator))
    (hpml4 : s'.currentPml4 = s.currentPml4) (hoffset : s'.offset = s.offset)
    (hmem : ∀ f i, word s'.mem f i = if f = g ∧ i = j then newFlags ||| new.addr
      else if f = new then 0 else word s.mem f i) :
    s'.Ready ram taken root va ∧ Grows taken root s s' (vaPath va) ∧
      s'.table root (π ++ [j]) = some new := by
  obtain ⟨htable, hleaf⟩ := h.table_link hpath hρ hg habs hfresh hmem
  have hprej : π ++ [j] <+: vaPath va := ⟨ρ, by rw [hpath]; simp⟩
  have hnewat : s'.table root (π ++ [j]) = some new := by rw [htable, if_pos rfl]
  -- there was no table at the place of the new one
  have hconcat : s.table root (π ++ [j]) = none := by
    by_contra hne
    obtain ⟨f, hf⟩ := Option.ne_none_iff_exists'.mp hne
    obtain ⟨k, m, -, hk, hm⟩ := tableAt_concat.mp hf
    obtain rfl : g = k := Option.some.inj (hg.symm.trans hk)
    rw [decode_eq_absent habs] at hm
    cases hm
  refine ⟨h.ready_link hnew hfresh htaken hpml4 hmem htable,
    ⟨hpml4, hoffset, hleaf, ?_, ?_, ?_⟩, hnewat⟩
  · intro τ f hf
    rw [htable]
    split
    · rename_i heq
      rw [heq, hconcat] at hf
      cases hf
    · exact hf
  · intro τ f hf
    rw [htable] at hf
    split at hf
    · rename_i heq
      exact .inr ⟨heq ▸ hprej, Option.some.inj hf ▸ hfresh⟩
    · exact .inl hf
  · intro f
    rw [htaken]
    constructor
    · rintro (rfl | hf)
      · exact .inr ⟨_, hprej, hnewat⟩
      · exact .inl hf
    · rintro (hf | ⟨τ, -, hf⟩)
      · exact .inr hf
      · rw [htable] at hf
        split at hf
        · exact .inl (Option.some.inj hf).symm
        · exact .inr (h.in_use τ f hf)

end Link

theorem Ready.grows_refl {va : UInt64} (h : s.Ready ram taken root va) :
    Grows taken root s s (vaPath va) where
  pml4 := rfl
  offset := rfl
  leaf _ _ := rfl
  keep _ _ hf := hf
  only _ _ hf := .inl hf
  taken f := ⟨.inl, fun hf => hf.elim id fun ⟨π, _, hπ⟩ => h.in_use π f hπ⟩

/-- The entry that links a table holds its address. -/
theorem addr_of_table {π : List (Fin 512)} {f : Frame} (hg : s.table root π = some g)
    (hf : s.table root (π ++ [j]) = some f) : word s.mem g j &&& addrMask = f.addr := by
  obtain ⟨k, m, -, hk, hm⟩ := tableAt_concat.mp hf
  obtain rfl : g = k := Option.some.inj (hg.symm.trans hk)
  unfold decode at hm
  split at hm
  · cases hm
  · split at hm
    · cases hm
    · split at hm
      · exact congrArg Frame.addr (Entry.table.inj hm)
      · cases hm

/-- A present entry of the upper levels of the walk links a table. -/
theorem Ready.table_of_present {va : UInt64} {π ρ : List (Fin 512)}
    (h : s.Ready ram taken root va) (hpath : vaPath va = π ++ j :: ρ) (hρ : ρ ≠ [])
    (hg : s.table root π = some g) (hpres : word s.mem g j &&& presentFlag ≠ 0) :
    ∃ f, s.table root (π ++ [j]) = some f := by
  have hn : 4 = ρ.length + 1 + π.length := by
    have := congrArg List.length hpath
    simp [vaPath] at this
    omega
  refine ⟨entryFrame (word s.mem g j), tableAt_concat.mpr ⟨g, ρ.length, hn, hg, ?_⟩⟩
  rw [decode, if_neg hpres, if_neg (by rwa [List.length_eq_zero_iff]),
    if_pos (h.small π j ρ g hpath hρ hg hpres)]

/-- One level of `page_map`: it fails, or it leads to the table of the next
level, and links an empty one if there was none. -/
theorem Ready.linkTable {va : UInt64} {π ρ : List (Fin 512)} (hp : p.Sound s.offset ram taken)
    (h : s.Ready ram taken root va) (hpath : vaPath va = π ++ j :: ρ) (hρ : ρ ≠ [])
    (hg : s.table root π = some g) :
    s.linkTable p (g.addr + s.offset) (UInt64.ofNat j.val) = none ∨
      ∃ s' f, s.linkTable p (g.addr + s.offset) (UInt64.ofNat j.val) = some s' ∧
        s'.Ready ram taken root va ∧ Grows taken root s s' (vaPath va) ∧
        s'.table root (π ++ [j]) = some f ∧
        s'.read p (g.addr + s.offset) (UInt64.ofNat j.val) &&& addrMask = f.addr := by
  have hgram := h.in_ram π g hg
  by_cases hpres : word s.mem g j &&& presentFlag = 0
  · rcases linkTable_absent hp hgram hpres with
      hnone | ⟨s', new, hs', hnew, hfresh, htaken, hpml4, hoffset, hmem⟩
    · exact .inl hnone
    · obtain ⟨hready, hgrows, htable⟩ :=
        h.link hpath hρ hg hpres hnew hfresh htaken hpml4 hoffset hmem
      refine .inr ⟨s', new, hs', hready, hgrows, htable, ?_⟩
      rw [← hoffset, read_mirrored (hoffset ▸ hp) hgram]
      exact addr_of_table (hgrows.keep π g hg) htable
  · obtain ⟨f, hf⟩ := h.table_of_present hpath hρ hg hpres
    refine .inr ⟨s, f, linkTable_present hp hgram hpres, h, h.grows_refl, hf, ?_⟩
    rw [read_mirrored hp hgram]
    exact addr_of_table hg hf

/-- The walk of a mapped address meets present entries only. -/
theorem present_of_leaf {va : UInt64} {π ρ : List (Fin 512)} (hpath : vaPath va = π ++ j :: ρ)
    (hg : s.table root π = some g) (hleaf : s.leaf root (vaPath va) ≠ none) :
    word s.mem g j &&& presentFlag ≠ 0 := by
  have hn : 4 = (j :: ρ).length + π.length := by
    have := congrArg List.length hpath
    simp [vaPath] at this
    simp
    omega
  intro habs
  rw [hpath, leaf, lookup_append (by rw [← hn]; exact hg),
    lookup_of_absent (decode_eq_absent habs)] at hleaf
  exact hleaf rfl

/-! ### The last level -/

/-- Writing an entry of a page table concerns one leaf. -/
theorem Ready.setLeaf {va : UInt64} {s' : Machine σ} {π : List (Fin 512)} {w : UInt64}
    (h : s.Ready ram taken root va) (hpath : vaPath va = π ++ [j])
    (hg : s.table root π = some g) (halloc : s'.allocator = s.allocator)
    (hpml4 : s'.currentPml4 = s.currentPml4)
    (hmem : ∀ f i, word s'.mem f i = if f = g ∧ i = j then w else word s.mem f i) :
    s'.Ready ram taken root va ∧ (∀ τ, s'.table root τ = s.table root τ) ∧
      ∀ τ, τ.length = 4 → s'.leaf root τ =
        if τ = vaPath va then lookup decode (word s'.mem) g [j] else s.leaf root τ := by
  have hn : 4 = 1 + π.length := by
    have := congrArg List.length hpath
    simp [vaPath] at this
    omega
  have honly : OnlyAt decode (word s.mem) root (1 + π.length) π g := by
    rw [← hn]
    exact h.walk.onlyAt ⟨[j], hpath.symm⟩ hg
  have hagree : ∀ τ f i, tableAt decode (word s.mem) root (1 + π.length) τ = some f →
      ¬ (f = g ∧ i = j) → word s'.mem f i = word s.mem f i := by
    intro τ f i _ hslot
    rw [hmem, if_neg hslot]
  have htable : ∀ τ, s'.table root τ = s.table root τ := by
    intro τ
    have := tableAt_leaf decode_zero_ne_table honly hagree τ
    rwa [← hn] at this
  refine ⟨⟨?_, ?_, ?_, ?_, ?_⟩, htable, ?_⟩
  · rw [hpml4, h.root_eq]
  · intro τ f hf
    exact h.in_ram τ f (by rwa [← htable])
  · intro τ f hf
    rw [halloc]
    exact h.in_use τ f (by rwa [← htable])
  · intro τ i ρ f hτ hρ hf hpres
    rw [htable] at hf
    rw [hmem] at hpres ⊢
    -- an upper entry is not the one written
    have hslot : ¬ (f = g ∧ i = j) := by
      rintro ⟨rfl, rfl⟩
      have := honly.2 τ (by rw [← hn]; exact hf)
      rw [this, hpath] at hτ
      simp only [List.append_cancel_left_eq, List.cons.injEq, true_and] at hτ
      exact hρ hτ.symm
    rw [if_neg hslot] at hpres ⊢
    exact h.small τ i ρ f hτ hρ hf hpres
  · refine walkOk_of_onlyAt fun τ f hτ hf => ⟨hf, fun τ' hf' => ?_⟩
    have hf : s.table root τ = some f := by rwa [← htable]
    have hf' : s.table root τ' = some f := by rwa [← htable]
    exact (h.walk.onlyAt hτ hf).2 τ' hf'
  · intro τ hτ
    rw [hpath]
    exact lookup_leaf honly hagree (by omega)

end Level

/-! ### The whole walk -/

section Walk

variable {va : UInt64}

/-- What `page_map` does to an unmapped address before it writes the last entry. -/
theorem Ready.pageMap_cases (hp : p.Sound s.offset ram taken) (h : s.Ready ram taken root va)
    (pa : UInt64) :
    ∃ s', s'.Ready ram taken root va ∧ Grows taken root s s' (vaPath va) ∧
      (s.pageMap p va pa = (-1, s') ∨
        ∃ g, s'.table root [toIndex (vaGetPml4Index va), toIndex (vaGetPdpIndex va),
            toIndex (vaGetPdIndex va)] = some g ∧
          (word s'.mem g (toIndex (vaGetPtIndex va)) &&& presentFlag ≠ 0 ∧
              s.pageMap p va pa = (1, s') ∨
            word s'.mem g (toIndex (vaGetPtIndex va)) &&& presentFlag = 0 ∧
              ∃ s'', s.pageMap p va pa = (0, s'') ∧ s''.allocator = s'.allocator ∧
                s''.currentPml4 = s'.currentPml4 ∧ s''.offset = s'.offset ∧
                ∀ f i, word s''.mem f i =
                  if f = g ∧ i = toIndex (vaGetPtIndex va) then newFlags ||| (pa &&& addrMask)
                  else word s'.mem f i)) := by
  set i4 := toIndex (vaGetPml4Index va) with hi4
  set i3 := toIndex (vaGetPdpIndex va) with hi3
  set i2 := toIndex (vaGetPdIndex va) with hi2
  set i1 := toIndex (vaGetPtIndex va) with hi1
  have e4 : vaGetPml4Index va = UInt64.ofNat i4.val := (ofNat_toIndex (vaGetPml4Index_lt va)).symm
  have e3 : vaGetPdpIndex va = UInt64.ofNat i3.val := (ofNat_toIndex (vaGetPdpIndex_lt va)).symm
  have e2 : vaGetPdIndex va = UInt64.ofNat i2.val := (ofNat_toIndex (vaGetPdIndex_lt va)).symm
  have e1 : vaGetPtIndex va = UInt64.ofNat i1.val := (ofNat_toIndex (vaGetPtIndex_lt va)).symm
  have hpath : vaPath va = [i4, i3, i2, i1] := rfl
  simp only [pageMap, h.root_eq, e4, e3, e2, e1]
  -- the PML4
  rcases h.linkTable hp (π := []) hpath (by simp) (tableAt_nil _ _ _ _) with
    hnone | ⟨s₁, f₃, hs₁, h₁, hg₁, ht₁, ha₁⟩
  · exact ⟨s, h, h.grows_refl, .inl (by rw [hnone])⟩
  have hp₁ : p.Sound s₁.offset ram taken := hg₁.offset ▸ hp
  simp only [hs₁, ha₁]
  -- the PDP
  rcases h₁.linkTable hp₁ (π := [i4]) hpath (by simp) ht₁ with
    hnone | ⟨s₂, f₂, hs₂, h₂, hg₂, ht₂, ha₂⟩
  · exact ⟨s₁, h₁, hg₁, .inl (by rw [hnone])⟩
  have hp₂ : p.Sound s₂.offset ram taken := hg₂.offset ▸ hp₁
  simp only [hs₂, ha₂]
  -- the PD
  rcases h₂.linkTable hp₂ (π := [i4, i3]) hpath (by simp) ht₂ with
    hnone | ⟨s₃, g, hs₃, h₃, hg₃, ht₃, ha₃⟩
  · exact ⟨s₂, h₂, hg₁.trans hg₂, .inl (by rw [hnone])⟩
  have hp₃ : p.Sound s₃.offset ram taken := hg₃.offset ▸ hp₂
  have hgram := h₃.in_ram _ g ht₃
  simp only [hs₃, ha₃]
  refine ⟨s₃, h₃, (hg₁.trans hg₂).trans hg₃, .inr ⟨g, ht₃, ?_⟩⟩
  -- the page table
  rw [read_mirrored hp₃ hgram]
  by_cases hpres : word s₃.mem g i1 &&& presentFlag = 0
  · refine .inr ⟨hpres, _, if_pos hpres, rfl, rfl, rfl, fun f i => ?_⟩
    have hread : (s₃.write p (g.addr + s₃.offset) (UInt64.ofNat i1.val)
        (presentFlag ||| writableFlag ||| userAccessFlag)).read p (g.addr + s₃.offset)
          (UInt64.ofNat i1.val) = newFlags := by
      rw [read, hp₃.mirrored g hgram i1]
      have hword := word_write (s := s₃) (f := g) (i := i1) (v := newFlags)
        (hp₃.mirrored g hgram i1)
      rw [if_pos ⟨rfl, rfl⟩] at hword
      exact hword
    rw [hread, word_write (hp₃.mirrored g hgram i1), word_write (hp₃.mirrored g hgram i1)]
    by_cases hslot : f = g ∧ i = i1
    · rw [if_pos hslot, if_pos hslot]
    · rw [if_neg hslot, if_neg hslot, if_neg hslot]
  · exact .inl ⟨hpres, if_neg hpres⟩

/-- `page_map` of a mapped address finds it mapped and touches nothing. -/
theorem Ready.pageMap_mapped (hp : p.Sound s.offset ram taken) (h : s.Ready ram taken root va)
    (hleaf : s.leaf root (vaPath va) ≠ none) (pa : UInt64) :
    s.pageMap p va pa = (1, s) ∧ translate s.mem root va ≠ none := by
  set i4 := toIndex (vaGetPml4Index va) with hi4
  set i3 := toIndex (vaGetPdpIndex va) with hi3
  set i2 := toIndex (vaGetPdIndex va) with hi2
  set i1 := toIndex (vaGetPtIndex va) with hi1
  have e4 : vaGetPml4Index va = UInt64.ofNat i4.val := (ofNat_toIndex (vaGetPml4Index_lt va)).symm
  have e3 : vaGetPdpIndex va = UInt64.ofNat i3.val := (ofNat_toIndex (vaGetPdpIndex_lt va)).symm
  have e2 : vaGetPdIndex va = UInt64.ofNat i2.val := (ofNat_toIndex (vaGetPdIndex_lt va)).symm
  have e1 : vaGetPtIndex va = UInt64.ofNat i1.val := (ofNat_toIndex (vaGetPtIndex_lt va)).symm
  have hpath : vaPath va = [i4, i3, i2, i1] := rfl
  have hroot : s.table root [] = some root := tableAt_nil _ _ _ _
  -- one level: the entry is present and links the next table
  have hlevel : ∀ π j ρ g, vaPath va = π ++ j :: ρ → ρ ≠ [] → s.table root π = some g →
      ∃ f, s.table root (π ++ [j]) = some f ∧
        s.linkTable p (g.addr + s.offset) (UInt64.ofNat j.val) = some s ∧
        s.read p (g.addr + s.offset) (UInt64.ofNat j.val) &&& addrMask = f.addr := by
    intro π j ρ g hπ hρ hg
    have hpres := present_of_leaf hπ hg hleaf
    obtain ⟨f, hf⟩ := h.table_of_present hπ hρ hg hpres
    refine ⟨f, hf, linkTable_present hp (h.in_ram π g hg) hpres, ?_⟩
    rw [read_mirrored hp (h.in_ram π g hg)]
    exact addr_of_table hg hf
  obtain ⟨f₃, ht₃, hs₃, ha₃⟩ := hlevel [] i4 [i3, i2, i1] root hpath (by simp) hroot
  obtain ⟨f₂, ht₂, hs₂, ha₂⟩ := hlevel [i4] i3 [i2, i1] f₃ hpath (by simp) ht₃
  obtain ⟨g, ht₁, hs₁, ha₁⟩ := hlevel [i4, i3] i2 [i1] f₂ hpath (by simp) ht₂
  have hpres : word s.mem g i1 &&& presentFlag ≠ 0 :=
    present_of_leaf (π := [i4, i3, i2]) hpath ht₁ hleaf
  constructor
  · simp only [pageMap, h.root_eq, e4, e3, e2, e1, hs₃, ha₃, hs₂, ha₂, hs₁, ha₁,
      read_mirrored hp (h.in_ram _ g ht₁), if_neg hpres]
  · have hlook : lookup decode (word s.mem) root (vaPath va) = some (word s.mem g i1, []) := by
      rw [hpath, show [i4, i3, i2, i1] = [i4, i3, i2] ++ [i1] from rfl, lookup_append ht₁,
        lookup_of_leaf (decode_zero_present hpres)]
    rw [translate, hlook]
    simp [leafPage]

/-- The frames taken by steps that only link tables are the tables linked. -/
theorem Grows.taken_new {s' : Machine σ} (hg : Grows taken root s s' (vaPath va))
    (h : s.Ready ram taken root va) (f : Frame) :
    (f ∈ taken s'.allocator ∧ f ∉ taken s.allocator) ↔
      (∃ π, π <+: vaPath va ∧ s'.table root π = some f) ∧ ∀ π, s.table root π ≠ some f := by
  constructor
  · rintro ⟨htaken, hnot⟩
    refine ⟨((hg.taken f).mp htaken).resolve_left hnot, fun π hπ => hnot (h.in_use π f hπ)⟩
  · rintro ⟨⟨π, hπ, hf⟩, hnot⟩
    exact ⟨(hg.taken f).mpr (.inr ⟨π, hπ, hf⟩),
      ((hg.only π f hf).resolve_left (hnot π)).2⟩

theorem translate_eq (s : Machine σ) (root : Frame) (va : UInt64) :
    translate s.mem root va = (s.leaf root (vaPath va)).bind fun r => leafPage r.1 r.2 := rfl

theorem translate_congr {s' : Machine σ}
    (hleaf : ∀ τ, τ.length = 4 → s'.leaf root τ = s.leaf root τ) (va' : UInt64) :
    translate s'.mem root va' = translate s.mem root va' := by
  rw [translate_eq, translate_eq, hleaf _ rfl]

theorem vaPath_eq_append (va : UInt64) : vaPath va = [toIndex (vaGetPml4Index va),
    toIndex (vaGetPdpIndex va), toIndex (vaGetPdIndex va)] ++ [toIndex (vaGetPtIndex va)] := rfl

/-- A present entry of the last level is the leaf of its address. -/
theorem leaf_of_present {g : Frame} (hg : s.table root [toIndex (vaGetPml4Index va),
      toIndex (vaGetPdpIndex va), toIndex (vaGetPdIndex va)] = some g)
    (hpres : word s.mem g (toIndex (vaGetPtIndex va)) &&& presentFlag ≠ 0) :
    s.leaf root (vaPath va) = some (word s.mem g (toIndex (vaGetPtIndex va)), []) := by
  rw [leaf, vaPath_eq_append, lookup_append hg, lookup_of_leaf (decode_zero_present hpres)]

/-- What a call returns and what it does to the translation. -/
theorem Ready.pageMap_translation (hp : p.Sound s.offset ram taken)
    (h : s.Ready ram taken root va) (hva : Canonical va) (pa : UInt64) :
    ∃ code s', s.pageMap p va pa = (code, s') ∧ s'.offset = s.offset ∧
      s'.Ready ram taken root va ∧
      (code = 0 ∧ translate s.mem root va = none ∧
          translate s'.mem root va = some (pa &&& addrMask) ∧
          (∀ va', Canonical va' → va'.toNat / 4096 ≠ va.toNat / 4096 →
            translate s'.mem root va' = translate s.mem root va') ∨
        code = 1 ∧ translate s.mem root va ≠ none ∧ s' = s ∨
        code = -1 ∧ ∀ va', translate s'.mem root va' = translate s.mem root va') := by
  by_cases hleaf : s.leaf root (vaPath va) = none
  · have hunmapped : translate s.mem root va = none := by
      rw [translate_eq, hleaf]
      rfl
    obtain ⟨s₁, h₁, hg, hcase⟩ := h.pageMap_cases hp pa
    rcases hcase with hfail | ⟨g, htg, ⟨hpres, -⟩ | ⟨habs, s₂, hs₂, halloc, hpml4, hoffset, hmem⟩⟩
    · exact ⟨-1, s₁, hfail, hg.offset, h₁, .inr (.inr ⟨rfl, translate_congr hg.leaf⟩)⟩
    · -- the entry would be the leaf of a mapped page
      have hlook := leaf_of_present htg hpres
      rw [hg.leaf (vaPath va) rfl, hleaf] at hlook
      cases hlook
    · obtain ⟨h₂, -, hleaf₂⟩ := h₁.setLeaf (vaPath_eq_append va) htg halloc hpml4 hmem
      have hw : (pa &&& addrMask) &&& addrMask = pa &&& addrMask := by
        rw [UInt64.and_assoc, UInt64.and_self]
      refine ⟨0, s₂, hs₂, hoffset.trans hg.offset, h₂,
        .inl ⟨rfl, hunmapped, ?_, fun va' hva' hpage => ?_⟩⟩
      · have hlook := hleaf₂ (vaPath va) rfl
        rw [if_pos rfl, lookup_of_leaf (decode_zero_present (by
          rw [hmem, if_pos ⟨rfl, rfl⟩]
          exact present_newEntry hw)), hmem, if_pos ⟨rfl, rfl⟩] at hlook
        rw [translate_eq, hlook, Option.bind_some, leafPage, addr_newEntry hw]
      · have hne : vaPath va' ≠ vaPath va :=
          fun heq => hpage (page_eq_of_vaPath_eq hva' hva heq)
        rw [translate_eq, translate_eq, hleaf₂ _ rfl, if_neg hne, hg.leaf _ rfl]
  · obtain ⟨hmapped, htrans⟩ := h.pageMap_mapped hp hleaf pa
    exact ⟨1, s, hmapped, rfl, h, .inr (.inl ⟨rfl, htrans, rfl⟩)⟩

/-- The frames that a call takes are the tables it links. -/
theorem Ready.pageMap_frames (hp : p.Sound s.offset ram taken)
    (h : s.Ready ram taken root va) (pa : UInt64) (f : Frame) :
    (f ∈ taken (s.pageMap p va pa).2.allocator ∧ f ∉ taken s.allocator) ↔
      (∃ π, π <+: vaPath va ∧ (s.pageMap p va pa).2.table root π = some f) ∧
        ∀ π, s.table root π ≠ some f := by
  obtain ⟨s₁, h₁, hg, hcase⟩ := h.pageMap_cases hp pa
  rcases hcase with hfail | ⟨g, htg, ⟨-, hmapped⟩ | ⟨habs, s₂, hs₂, halloc, hpml4, hoffset, hmem⟩⟩
  · rw [hfail]
    exact hg.taken_new h f
  · rw [hmapped]
    exact hg.taken_new h f
  · obtain ⟨-, htable, -⟩ := h₁.setLeaf (vaPath_eq_append va) htg halloc hpml4 hmem
    rw [hs₂, halloc]
    simp only [htable]
    exact hg.taken_new h f

/-- `page_map` extends the translation at one page, and takes the frames of the
tables it links. -/
theorem pageMap_extends (hp : p.Sound s.offset ram taken) (h : s.Ready ram taken root va)
    (hva : Canonical va) (pa : UInt64) :
    ∃ code s', s.pageMap p va pa = (code, s') ∧ s'.offset = s.offset ∧
      s'.Ready ram taken root va ∧
      (code = 0 ∧ translate s.mem root va = none ∧
          translate s'.mem root va = some (pa &&& addrMask) ∧
          (∀ va', Canonical va' → va'.toNat / 4096 ≠ va.toNat / 4096 →
            translate s'.mem root va' = translate s.mem root va') ∨
        code = 1 ∧ translate s.mem root va ≠ none ∧ s' = s ∨
        code = -1 ∧ ∀ va', translate s'.mem root va' = translate s.mem root va') ∧
      ∀ f, (f ∈ taken s'.allocator ∧ f ∉ taken s.allocator) ↔
        (∃ π, π <+: vaPath va ∧ s'.table root π = some f) ∧ ∀ π, s.table root π ≠ some f := by
  obtain ⟨code, s', hs', hoffset, hready, hcase⟩ := h.pageMap_translation hp hva pa
  have hframes := h.pageMap_frames hp pa
  rw [hs'] at hframes
  exact ⟨code, s', hs', hoffset, hready, hcase, hframes⟩

end Walk

end Machine

/-! ### An instance -/

/-- The frames below 128 TiB. -/
def lowFrames : Set Frame := {f | f.addr.toNat < 2 ^ 47}

theorem mem_lowFrames {f : Frame} : f ∈ lowFrames ↔ f.addr.toNat < 2 ^ 47 := Iff.rfl

/-- A list of free frames below 128 TiB. -/
structure FreeList where
  frames : List Frame
  nodup : frames.Nodup
  low : ∀ f ∈ frames, f ∈ lowFrames

/-- A machine with 128 TiB of memory, mirrored in the upper half, that allocates
frames from a list. -/
def freeListPlatform : Platform FreeList where
  resolve x := if x < 0xFFFF800000000000 then x else x - 0xFFFF800000000000
  physicalAlloc
    | ⟨[], _, _⟩ => none
    | ⟨f :: l, h, h'⟩ =>
      some (f.addr, ⟨l, (List.nodup_cons.mp h).2, fun g hg => h' g (List.mem_cons_of_mem f hg)⟩)

/-- The frames that are not free. -/
def freeListTaken (a : FreeList) : Set Frame := {f | f ∉ a.frames}

theorem freeListPlatform_sound :
    freeListPlatform.Sound 0xFFFF800000000000 lowFrames freeListTaken where
  direct := by
    intro f hf i
    have hlt : f.addr.toNat < 2 ^ 47 := hf
    have hi := i.isLt
    refine if_pos ?_
    rw [UInt64.lt_iff_toNat_lt, toNat_wordAddr]
    show _ < 0xFFFF800000000000
    omega
  mirrored := by
    intro f hf i
    have hlt : f.addr.toNat < 2 ^ 47 := hf
    have hi := i.isLt
    have hal := f.aligned
    have hbase : (0xFFFF800000000000 : UInt64).toNat = 0xFFFF800000000000 := by decide
    -- the addresses of the mirror begin above those of all frames
    have hsum : (f.addr + 0xFFFF800000000000 + 8 * UInt64.ofNat i.val).toNat =
        f.addr.toNat + 8 * i.val + 0xFFFF800000000000 := by
      rw [show f.addr + 0xFFFF800000000000 + 8 * UInt64.ofNat i.val =
        f.addr + 8 * UInt64.ofNat i.val + 0xFFFF800000000000 by ac_rfl, UInt64.toNat_add,
        toNat_wordAddr, hbase]
      omega
    have hge : ¬ f.addr + 0xFFFF800000000000 + 8 * UInt64.ofNat i.val < 0xFFFF800000000000 := by
      rw [UInt64.lt_iff_toNat_lt, hsum, hbase]
      omega
    refine (if_neg hge).trans (UInt64.toNat_inj.mp ?_)
    rw [UInt64.toNat_sub_of_le _ _ (UInt64.not_lt.mp hge), hsum, hbase, toNat_wordAddr]
    omega
  fresh := by
    rintro ⟨l, hl, hlow⟩ r a' h
    cases l with
    | nil => cases h
    | cons f l =>
      obtain ⟨rfl, rfl⟩ := Prod.mk.inj (Option.some.inj h)
      refine ⟨f, hlow f (by simp), rfl, fun hf => hf (by simp), Set.ext fun g => ?_⟩
      have hfl := (List.nodup_cons.mp hl).1
      show g ∉ l ↔ g = f ∨ g ∉ f :: l
      by_cases hg : g = f
      · simp [hg, hfl]
      · simp [hg]

/-- An empty PML4 at `0x1000`, and three free frames. -/
def emptyMachine : Machine FreeList where
  mem := fun _ => 0
  allocator := ⟨[⟨0x2000, by decide⟩, ⟨0x3000, by decide⟩, ⟨0x4000, by decide⟩], by decide, by
    intro f hf
    have hcases : f = ⟨0x2000, by decide⟩ ∨ f = ⟨0x3000, by decide⟩ ∨ f = ⟨0x4000, by decide⟩ := by
      simpa using hf
    rcases hcases with rfl | rfl | rfl <;> exact mem_lowFrames.mpr (by decide)⟩
  currentPml4 := 0x1000
  offset := 0xFFFF800000000000

/-- The frame of the empty PML4. -/
def emptyRoot : Frame := ⟨0x1000, by decide⟩

theorem emptyMachine_table {π : List (Fin 512)} {f : Frame}
    (h : emptyMachine.table emptyRoot π = some f) : π = [] ∧ f = emptyRoot := by
  cases π with
  | nil => exact ⟨rfl, (Option.some.inj ((tableAt_nil _ _ _ _).symm.trans h)).symm⟩
  | cons i π =>
    rw [Machine.table, tableAt_of_ne_table fun g => by
      rw [show word emptyMachine.mem emptyRoot i = 0 from rfl, decode_zero_word]
      simp] at h
    cases h

theorem emptyMachine_ready (va : UInt64) :
    emptyMachine.Ready lowFrames freeListTaken emptyRoot va where
  root_eq := rfl
  in_ram := by
    intro π f hf
    rw [(emptyMachine_table hf).2]
    exact mem_lowFrames.mpr (by decide)
  in_use := by
    intro π f hf
    rw [(emptyMachine_table hf).2]
    show emptyRoot ∉ _
    decide
  small := fun _ _ _ _ _ _ _ hpres =>
    absurd (show (0 : UInt64) &&& presentFlag = 0 by decide) hpres
  walk := walkOk_of_onlyAt fun π f _ hf =>
    ⟨hf, fun π' hf' => by rw [(emptyMachine_table hf).1, (emptyMachine_table hf').1]⟩

/-- Mapping a page into the empty tables: where the call succeeds, the page is
there, and the tables can take a further call for the same address. -/
theorem pageMap_emptyMachine :
    ∃ code s', emptyMachine.pageMap freeListPlatform 0x400000 0xABC000 = (code, s') ∧
      s'.Ready lowFrames freeListTaken emptyRoot 0x400000 ∧
      (code = 0 → translate s'.mem emptyRoot 0x400000 = some 0xABC000) := by
  obtain ⟨code, s', hs', -, hready, hcase, -⟩ := Machine.pageMap_extends freeListPlatform_sound
    (emptyMachine_ready 0x400000) (.inl (by decide)) 0xABC000
  refine ⟨code, s', hs', hready, fun hcode => ?_⟩
  rcases hcase with ⟨-, -, htrans, -⟩ | ⟨hone, -⟩ | ⟨hfail, -⟩
  · exact htrans
  · omega
  · omega

end Betelgeuse
