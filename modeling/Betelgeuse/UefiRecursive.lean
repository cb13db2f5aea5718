/-
The recursive mapping (`MAPPING_TYPE_RECURSIVE`).

The last entry but one of the PML4 links the PML4 itself.  So the tables are pages of the upper
half: a table is found behind as many indices 510 as its path is shorter than four
(`windowAddr`).  No other address is concerned: whatever `map_page` is called for, the run is the
one without the link, up to this one word (`run_write`).
-/
import Betelgeuse.PageOffsets
import Betelgeuse.SelfLinkedTree
import Betelgeuse.UefiKernel
import Betelgeuse.UefiPoolSafe

open PageTree

namespace Betelgeuse

/-! ### The window -/

theorem uniform_decode : Uniform decode where
  table h := by
    obtain ⟨hused, -, hlarge, hframe⟩ := decode_eq_table.mp h
    exact decode_eq_table.mpr ⟨hused, Nat.succ_ne_zero _, hlarge, hframe⟩
  leaf h := decode_zero_present (decode_eq_table.mp h).1
  last := decode_zero_ne_table _ _

/-- The page that the indices of a full path select. -/
def pathAddr : List (Fin 512) → UInt64
  | [pml4, pdp, pd, pt] => offsetsToAddr (UInt64.ofNat pml4) (UInt64.ofNat pdp) (UInt64.ofNat pd)
      (UInt64.ofNat pt)
  | _ => 0

/-- Where a table is mapped, by the path that leads to it. -/
def windowAddr (π : List (Fin 512)) : UInt64 := pathAddr (List.replicate (4 - π.length) 510 ++ π)

theorem pathAddr_spec {τ : List (Fin 512)} (hτ : τ.length = 4) :
    vaPath (pathAddr τ) = τ ∧ (pathAddr τ).toNat % 4096 = 0 := by
  obtain ⟨pml4, pdp, pd, pt, rfl⟩ := List.length_eq_four.mp hτ
  have hindex : ∀ i : Fin 512, (UInt64.ofNat i).toNat = i.val := fun i =>
    UInt64.toNat_ofNat_of_lt' (i.isLt.trans (by decide))
  have hlt : ∀ i : Fin 512, (UInt64.ofNat i).toNat < 512 := fun i => (hindex i).trans_lt i.isLt
  have hback : ∀ i : Fin 512, toIndex (UInt64.ofNat i) = i := fun i =>
    Fin.ext ((congrArg (· % 512) (hindex i)).trans (Nat.mod_eq_of_lt i.isLt))
  obtain ⟨h4, h3, h2, h1⟩ := indices_offsetsToAddr (hlt pml4) (hlt pdp) (hlt pd) (hlt pt)
  refine ⟨?_, (offsetsToAddr_canonical (hlt pml4) (hlt pdp) (hlt pd) (hlt pt)).2⟩
  rw [vaPath, pathAddr, h4, h3, h2, h1, hback, hback, hback, hback]

section Window

variable {mem : UInt64 → UInt64} {root g : Frame} {π : List (Fin 512)}

/-- All words of the tables are found in the window. -/
theorem translateByte_windowAddr (hself : decode 1 (word mem root 510) = .table root)
    (hg : tableAt decode (word mem) root 4 π = some g) (hπ : π.length ≤ 3) (i : Fin 512) :
    translateByte mem root (windowAddr π + 8 * UInt64.ofNat i) =
      some (g.addr + 8 * UInt64.ofNat i) := by
  have hlen : (List.replicate (4 - π.length) 510 ++ π).length = 4 := by
    rw [List.length_append, List.length_replicate]
    omega
  obtain ⟨hpath, hpage⟩ := pathAddr_spec hlen
  obtain ⟨k, hk⟩ : ∃ k, 4 - π.length = k + 1 := ⟨3 - π.length, by omega⟩
  obtain ⟨w, hw, hlink⟩ := lookup_selfLink uniform_decode hself hg k
  rw [← hk] at hw
  have hlt := i.isLt
  have hoffset : (8 * UInt64.ofNat i.val).toNat = 8 * i.val := by
    rw [UInt64.toNat_mul, UInt64.toNat_ofNat_of_lt' (hlt.trans (by decide))]
    exact Nat.mod_eq_of_lt (show 8 * i.val < 2 ^ 64 by omega)
  unfold windowAddr
  generalize pathAddr (List.replicate (4 - π.length) 510 ++ π) = va at hpath hpage
  have hbound := va.toNat_lt
  have hsum : (va + 8 * UInt64.ofNat i.val).toNat = va.toNat + 8 * i.val := by
    rw [UInt64.toNat_add, hoffset]
    exact Nat.mod_eq_of_lt (by omega)
  have hmod : (va + 8 * UInt64.ofNat i.val) % 0x1000 = 8 * UInt64.ofNat i.val := by
    rw [← UInt64.toNat_inj, UInt64.toNat_mod, hsum, hoffset]
    show (va.toNat + 8 * i.val) % 4096 = 8 * i.val
    omega
  have hvaPath : vaPath (va + 8 * UInt64.ofNat i.val) = vaPath va :=
    vaPath_eq_of_page_eq (by rw [hsum]; omega)
  obtain ⟨-, -, -, hframe⟩ := decode_eq_table.mp hlink
  rw [translateByte, translate, hvaPath, hpath, hw, hmod, ← hframe]
  rfl

end Window

/-! ### Runs with and without the link -/

namespace Mapping

variable {s : Mapping} {root f new : Frame} {flags v : UInt64} {i : Fin 512}

/-- The words behind a write to the entry of the link. -/
theorem word_write (s : Mapping) (root : Frame) (v : UInt64) (f : Frame) (i : Fin 512) :
    word (s.write root.addr 510 v).mem f i = if f = root ∧ i = 510 then v else word s.mem f i := by
  have hmem : (s.write root.addr 510 v).mem = Function.update s.mem (root.addr + 8 * 510) v := by
    rw [write]
  rw [hmem, word_selfLink]

theorem write_write (s : Mapping) (table index v w : UInt64) :
    (s.write table index v).write table index w = s.write table index w := by
  unfold write
  dsimp only
  rw [Function.update_idem]

/-- Writing back what stands there. -/
theorem write_self (s : Mapping) (table index : UInt64) :
    s.write table index (s.read table index) = s := by
  unfold write read
  rw [Function.update_eq_self]

theorem addr_ne (hno : ¬ (f = root ∧ i = 510)) :
    f.addr + 8 * UInt64.ofNat i ≠ root.addr + 8 * 510 := fun heq =>
  hno (wordAddr_inj (j := 510).mp heq)

theorem cleared_update {a : UInt64} (ha : ∀ i < 0x200, new.addr + 8 * UInt64.ofNat i ≠ a)
    (v : UInt64) (mem : UInt64 → UInt64) :
    cleared new.addr (Function.update mem a v) = Function.update (cleared new.addr mem) a v := by
  have hlist : ∀ (l : List ℕ) (mem : UInt64 → UInt64), (∀ i ∈ l, i < 0x200) →
      l.foldl (fun mem i => Function.update mem (new.addr + 8 * UInt64.ofNat i) 0)
          (Function.update mem a v) =
        Function.update (l.foldl
          (fun mem i => Function.update mem (new.addr + 8 * UInt64.ofNat i) 0) mem) a v := by
    intro l
    induction l with
    | nil => exact fun _ _ => rfl
    | cons i l ih =>
      intro mem hl
      rw [List.foldl_cons, List.foldl_cons,
        Function.update_comm (ha i (hl i List.mem_cons_self)).symm]
      exact ih _ fun j hj => hl j (List.mem_cons_of_mem i hj)
  exact hlist _ mem fun i hi => List.mem_range.mp hi

/-- A block of `map_page` that is about another entry. -/
theorem linkTable_write (hno : ¬ (f = root ∧ i = 510))
    (hnew : word s.mem f i &&& presentFlag = 0 →
      ∃ new : Frame, s.nextAvailableMappingPage = new.addr ∧ new ≠ root) :
    (s.write root.addr 510 v).linkTable f.addr (UInt64.ofNat i) flags =
      (s.linkTable f.addr (UInt64.ofNat i) flags).write root.addr 510 v := by
  have hword : word (s.write root.addr 510 v).mem f i = word s.mem f i := by
    rw [word_write, if_neg hno]
  by_cases habsent : word s.mem f i &&& presentFlag = 0
  · have habsent' : word (s.write root.addr 510 v).mem f i &&& presentFlag = 0 := by
      rw [hword, habsent]
    obtain ⟨new, hnext, hne⟩ := hnew habsent
    have hclear : cleared new.addr (s.write root.addr 510 v).mem =
        Function.update (cleared new.addr s.mem) (root.addr + 8 * 510) v :=
      cleared_update (fun j hj => addr_ne (i := ⟨j, hj⟩) fun heq => hne heq.1) v s.mem
    rw [linkTable_absent flags habsent hnext, linkTable_absent flags habsent' hnext, hclear,
      Function.update_comm (addr_ne hno).symm]
    rfl
  · rw [linkTable_present habsent, linkTable_present (by rw [hword]; exact habsent)]

theorem read_write (hno : ¬ (f = root ∧ i = 510)) :
    (s.write root.addr 510 v).read f.addr (UInt64.ofNat i) = s.read f.addr (UInt64.ofNat i) := by
  rw [read_eq, read_eq, word_write, if_neg hno]

theorem setEntry_write (hno : ¬ (f = root ∧ i = 510)) (physAddr : UInt64) :
    (s.write root.addr 510 v).setEntry f i physAddr =
      (s.setEntry f i physAddr).write root.addr 510 v := by
  have hcomm : ∀ (t : Mapping) (w : UInt64),
      (t.write root.addr 510 v).write f.addr (UInt64.ofNat i) w =
        (t.write f.addr (UInt64.ofNat i) w).write root.addr 510 v := by
    intro t w
    unfold write
    dsimp only
    rw [Function.update_comm (addr_ne hno).symm]
  unfold setEntry
  rw [read_write hno]
  split
  · dsimp only
    rw [hcomm, read_write hno, hcomm]
  · rfl

end Mapping

namespace Pool

variable {ty : MappingType} {root f g : Frame} {newMap pageCount flags v : UInt64}
  {s s' : Mapping} {L L' : ℕ → Set Frame} {k : ℕ} {i : Fin 512}

theorem ne_root (h : Pool ty root newMap pageCount s L) (hf : f ∈ L (k + 1)) (hk : k ≤ 2) :
    f ≠ root := by
  rintro rfl
  exact absurd (h.levels.apart (k + 1) 0 f (by omega) (by omega) hf h.root_mem) (Nat.succ_ne_zero k)

/-- A block that is about another entry, with another word in the entry of the link. -/
theorem Block.write (h : Block ty root newMap pageCount flags k i s s' L L' f g)
    (hno : ¬ (f = root ∧ i = 510)) (v : UInt64) :
    (s.write root.addr 510 v).linkTable f.addr (UInt64.ofNat i) flags =
        s'.write root.addr 510 v ∧
      (s'.write root.addr 510 v).read f.addr (UInt64.ofNat i) &&& addrMask = g.addr := by
  constructor
  · rw [Mapping.linkTable_write hno fun habsent => ?_, h.eq]
    obtain ⟨new, hnew⟩ := h.pool.cursor.exists_new (h.room habsent)
    refine ⟨new, hnew, ?_⟩
    rintro rfl
    have hbelow := h.pool.cursor.root_below
    rw [hnew] at hbelow
    omega
  · rw [Mapping.read_write hno, h.read_eq]

/-- A call that is not about the entry of the link does the same whatever stands in it. -/
theorem mapPage_write (h : Pool ty root newMap pageCount s L) {c : MapCall}
    (hc : c.Fits ty root s) (hno : toIndex (vaGetPml4Index c.vaAddr) ≠ 510) (v : UInt64) :
    ((s.write root.addr 510 v).mapPage c.physAddr c.vaAddr).2 =
      (s.mapPage c.physAddr c.vaAddr).2.write root.addr 510 v := by
  obtain ⟨s₁, s₂, s₃, L₁, L₂, L₃, f₁, f₂, f₃, h₁, h₂, h₃, hs', -⟩ := h.mapPage_blocks hc
  have hne₁ := h₁.pool'.ne_root h₁.mem' (by decide)
  have hne₂ := h₂.pool'.ne_root h₂.mem' (by decide)
  have hne₃ := h₃.pool'.ne_root h₃.mem' (by decide)
  obtain ⟨heq₁, hread₁⟩ := h₁.write (fun heq => hno heq.2) v
  obtain ⟨heq₂, hread₂⟩ := h₂.write (fun heq => hne₁ heq.1) v
  obtain ⟨heq₃, hread₃⟩ := h₃.write (fun heq => hne₂ heq.1) v
  rw [hs', ← Mapping.setEntry_write (fun heq => hne₃ heq.1)]
  exact (Mapping.mapPage_of_blocks
    (show (s.write root.addr 510 v).pml4Pointer = root.addr from h.pml4)
    (show (s₁.write root.addr 510 v).pml4Pointer = root.addr from h₁.pool'.pml4)
    heq₁ hread₁ heq₂ hread₂ heq₃ hread₃).1

theorem run_write : ∀ {calls : List MapCall} {s : Mapping} {L : ℕ → Set Frame},
    Pool ty root newMap pageCount s L →
    (∀ before c after, calls = before ++ c :: after → c.Fits ty root (s.run before)) →
    (∀ c ∈ calls, toIndex (vaGetPml4Index c.vaAddr) ≠ 510) → ∀ v,
    (s.write root.addr 510 v).run calls = (s.run calls).write root.addr 510 v := by
  intro calls
  induction calls with
  | nil => exact fun _ _ _ _ => rfl
  | cons c calls ih =>
    intro s L h hcalls hno v
    have hc := hcalls [] c calls rfl
    obtain ⟨⟨L', h'⟩, -⟩ := h.mapPage hc
    have hrest := ih h' (fun before c' after heq =>
      hcalls (c :: before) c' after (by rw [heq]; rfl))
      (fun c' hc' => hno c' (List.mem_cons_of_mem c hc')) v
    rw [← h.mapPage_write hc (hno c List.mem_cons_self)] at hrest
    exact hrest

/-- From another entry of the PML4, a path leads down. -/
theorem mem_of_tableAt (h : Pool ty root newMap pageCount s L) (hi : i ≠ 510) :
    ∀ {π : List (Fin 512)} {g : Frame} {n : ℕ},
      tableAt decode (word s.mem) root n (i :: π) = some g → π.length ≤ 2 →
      g ∈ L (π.length + 1) := by
  intro π
  induction π using List.reverseRecOn with
  | nil =>
    intro g n hg _
    rw [← List.nil_append [i]] at hg
    obtain ⟨f, m, -, hf, hlink⟩ := tableAt_concat.mp hg
    obtain rfl : root = f := by simpa using hf
    exact h.levels.down 0 m root i g (by decide) h.root_mem (fun hself => hi hself.2.2) hlink
  | append_singleton π j ih =>
    intro g n hg hπ
    rw [List.length_append, List.length_singleton] at hπ ⊢
    rw [← List.cons_append] at hg
    obtain ⟨f, m, -, hf, hlink⟩ := tableAt_concat.mp hg
    have hmem := ih hf (by omega)
    exact h.levels.down (π.length + 1) m f j g (by omega) hmem
      (h.not_selfLink hmem (by omega)) hlink

/-- What stands in the entry of the link matters to no address under another entry. -/
theorem translate_write (h : Pool ty root newMap pageCount s L) {va : UInt64}
    (hva : toIndex (vaGetPml4Index va) ≠ 510) (v : UInt64) :
    translate (s.write root.addr 510 v).mem root va = translate s.mem root va := by
  unfold translate
  have hagree : ∀ π i ρ g, vaPath va = π ++ i :: ρ →
      tableAt decode (word s.mem) root (vaPath va).length π = some g →
      word (s.write root.addr 510 v).mem g i = word s.mem g i := by
    intro π i ρ g hpath hg
    rw [Mapping.word_write]
    refine if_neg ?_
    rintro ⟨rfl, rfl⟩
    cases π with
    | nil =>
      obtain ⟨hhead, -⟩ := List.cons.inj hpath
      exact hva hhead
    | cons j π =>
      rw [List.cons_append] at hpath
      obtain ⟨hhead, htail⟩ := List.cons.inj hpath
      have hlen := congrArg List.length htail
      rw [List.length_append, List.length_cons] at hlen
      have hlen : 3 = π.length + (ρ.length + 1) := hlen
      exact h.ne_root (h.mem_of_tableAt (hhead ▸ hva) hg (by omega)) (by omega) rfl
  rw [lookup_congr hagree]

end Pool

/-! ### What the recursive mapping is good for -/

/-- The run `s` maps its tables, and is like the run `t` everywhere else. -/
structure MapsTables (root : Frame) (s t : Mapping) : Prop where
  window : ∀ π g, s.table root π = some g → ∀ i : Fin 512,
    translateByte s.mem root (windowAddr π + 8 * UInt64.ofNat i) =
      some (g.addr + 8 * UInt64.ofNat i)
  elsewhere : ∀ va, toIndex (vaGetPml4Index va) ≠ 510 →
    translateByte s.mem root va = translateByte t.mem root va

section Recursive

variable {mem : UInt64 → UInt64} {root : Frame} {tables dest : UefiDescriptor}

/-- `MAPPING_TYPE_RECURSIVE` differs from `MAPPING_TYPE_NONE` in one word. -/
theorem initialMapping_recursive (h : Relocatable mem root tables.physicalStart
    dest.physicalStart tables.numberOfPages) :
    initialMapping .recursive root.addr tables dest mem =
      (initialMapping .none root.addr tables dest mem).write
        (moved dest.physicalStart tables.physicalStart root).addr 510
        (presentFlag ||| writableFlag |||
          (moved dest.physicalStart tables.physicalStart root).addr) := by
  have haddr := h.addr_root
  rw [← haddr]
  rfl

/-- The entries of the moved PML4, but for the one of the link. -/
theorem initial_recursive_entry (h : Relocatable mem root tables.physicalStart dest.physicalStart
    tables.numberOfPages) {k : Fin 512} (hk : k ≠ 510) :
    decode 3 (word (initialMapping .recursive root.addr tables dest mem).mem
        (moved dest.physicalStart tables.physicalStart root) k) =
      (decode 3 (word mem root k)).map (moved dest.physicalStart tables.physicalStart) := by
  have hentry := h.moves.root_entry k
  have hplace : newPlace dest.physicalStart tables.physicalStart 0 root =
    moved dest.physicalStart tables.physicalStart root := if_pos (by decide)
  have hplace' : newPlace dest.physicalStart tables.physicalStart 1 =
    moved dest.physicalStart tables.physicalStart := funext fun f => if_pos (by decide)
  rw [hplace, hplace'] at hentry
  have hstate := initialMapping_mem .none h
  rw [initialMapping_recursive h, Mapping.word_write, if_neg fun heq => hk heq.2, hstate,
    ← hentry]
  exact decode_setWritable ..

end Recursive

/-- What the example's pool has left for a call under an unused entry of the PML4. -/
theorem recursiveFits : MapCall.Fits .recursive exampleRoot
    (initialMapping .recursive firmwareRoot.addr (exampleTables 8) exampleDest
      (firmwareMem largePage)) ⟨0x5000, 0xFFFFFFFF80000000⟩ := by
  have h := @exampleRelocatable largePage 8 largePage_ne_table (by decide)
  have hcount := (@initial_pool .recursive _ _ _ _ h firmwareMem_usedToTheTop nofun).count
  have hpage := @exampleNext largePage 8 largePage_ne_table (by decide)
  rw [if_neg (by decide)] at hpage
  have hpage : (initialMapping .recursive firmwareRoot.addr (exampleTables 8) exampleDest
    (firmwareMem largePage)).nextAvailableMappingPage = 0x12000 := hpage
  have hnext : (0x12000 : UInt64).toNat = 0x12000 := rfl
  have hdest : exampleDest.physicalStart.toNat = 0x10000 := rfl
  have hpages : (exampleTables 8).numberOfPages.toNat = 8 := rfl
  rw [hpage, hnext, hdest, hpages] at hcount
  have habsent := @initial_recursive_entry _ _ _ _ h 511 (by decide)
  rw [moved_firmwareRoot, word_firmwareMem_root (by decide), decode_zero_word, Entry.map] at habsent
  have hpath : vaPath 0xFFFFFFFF80000000 = [511, 510, 0, 0] := by decide
  refine ⟨?_, ?_, fun _ => by decide⟩
  · rw [hpath]
    exact noLargePageOn_of_absent habsent
  · generalize initialMapping .recursive firmwareRoot.addr (exampleTables 8) exampleDest
      (firmwareMem largePage) = s at *
    rw [hpath, tablesNeeded_of_absent habsent]
    show 3 ≤ s.availableMappingPageCount.toNat
    omega

/-- In every run of `map_page` behind `init_virtual_mapping`, the recursive mapping shows all
tables, also those that the run adds, and changes no other address. -/
theorem recursive_mapsTables {mem : UInt64 → UInt64} {root : Frame} {tables dest : UefiDescriptor}
    {calls : List MapCall} (h : Relocatable mem root tables.physicalStart dest.physicalStart
      tables.numberOfPages) (htop : UsedToTheTop mem root)
    (hcalls : ∀ before c after, calls = before ++ c :: after →
      c.Fits .recursive (moved dest.physicalStart tables.physicalStart root)
        ((initialMapping .recursive root.addr tables dest mem).run before)) :
    MapsTables (moved dest.physicalStart tables.physicalStart root)
      ((initialMapping .recursive root.addr tables dest mem).run calls)
      ((initialMapping .none root.addr tables dest mem).run calls) := by
  have hpool := @initial_pool .recursive mem root tables dest h htop nofun
  have hrecursive := @initialMapping_recursive mem root tables dest h
  have hno : ∀ c ∈ calls, toIndex (vaGetPml4Index c.vaAddr) ≠ 510 := by
    intro c hc
    obtain ⟨before, after, heq⟩ := List.append_of_mem hc
    exact (hcalls before c after heq).notSelf rfl
  have hwrite := hpool.run_write hcalls hno
  obtain ⟨⟨L, hend⟩, -⟩ := hpool.run hcalls
  generalize moved dest.physicalStart tables.physicalStart root = new at *
  generalize initialMapping .none root.addr tables dest mem = t at *
  generalize initialMapping .recursive root.addr tables dest mem = s at *
  constructor
  -- the link of the PML4 to itself is there at the end, as no call has written it
  · have hlink : (s.run calls).write new.addr 510 (presentFlag ||| writableFlag ||| new.addr) =
        s.run calls := by
      rw [← hwrite, hrecursive, Mapping.write_write]
    have hlow : Mapping.LinkFlags (presentFlag ||| writableFlag) :=
      ⟨by decide, by decide, by decide⟩
    have hself : decode 1 (word (s.run calls).mem new 510) = .table new := by
      rw [← hlink, Mapping.word_write, if_pos ⟨rfl, rfl⟩]
      exact hlow.decode (by decide) new
    exact fun π g hg i => translateByte_windowAddr hself hg (Mapping.length_le_of_table _ _ hg) i
  -- without it the run is the one of the other mapping
  · have hback : s.write new.addr 510 (word t.mem new 510) = t := by
      rw [hrecursive, Mapping.write_write]
      exact t.write_self new.addr 510
    intro va hva
    rw [← hback, hwrite, translateByte, translateByte, hend.translate_write hva]

/-- The tables of the example, behind the mapping of one page of the kernel. -/
theorem recursive_mapsTables_firmwareMem : MapsTables exampleRoot
    ((initialMapping .recursive firmwareRoot.addr (exampleTables 8) exampleDest
      (firmwareMem largePage)).run [⟨0x5000, 0xFFFFFFFF80000000⟩])
    ((initialMapping .none firmwareRoot.addr (exampleTables 8) exampleDest
      (firmwareMem largePage)).run [⟨0x5000, 0xFFFFFFFF80000000⟩]) := by
  have h := @exampleRelocatable largePage 8 largePage_ne_table (by decide)
  rw [← @moved_firmwareRoot 8]
  refine recursive_mapsTables h firmwareMem_usedToTheTop ?_
  rw [moved_firmwareRoot]
  exact recursiveFits.run_cons MapCall.fits_nil

end Betelgeuse
