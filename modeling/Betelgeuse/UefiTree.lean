/-
What runs of `map_page` do to the tree of tables.

`Grown` says that the tables that were there stay where they were, that the ones that
come are the pages drawn from the pool, and that a walk whose tables are linked once
stays so.  Every block of a call keeps it (`Block.grown`), so a call does
(`Pool.mapPage_grown`), and a run (`Pool.run_grown`).

`map_page` leaves an address alone that is mapped already.  In a run the first call for
an address decides, and what later ones ask for is dropped without notice
(`Pool.run_leaf`, `Pool.run_translate`).
-/
import Betelgeuse.PageGrow
import Betelgeuse.UefiPool

open PageTree

namespace Betelgeuse

namespace Mapping

variable (s : Mapping) (root : Frame)

/-- The table at the end of a path from the root. -/
abbrev table (π : List (Fin 512)) : Option Frame := tableAt decode (word s.mem) root 4 π

/-- The leaf entry under a full path. -/
abbrev leaf (τ : List (Fin 512)) : Option (UInt64 × List (Fin 512)) :=
  lookup decode (word s.mem) root τ

/-- The walk along a path is linked once. -/
abbrev Once (τ : List (Fin 512)) : Prop := WalkOk decode (word s.mem) root 4 τ

/-- A table stands at most three levels below the root. -/
theorem length_le_of_table {π : List (Fin 512)} {f : Frame} (h : s.table root π = some f) :
    π.length ≤ 3 := by
  induction π using List.reverseRecOn with
  | nil => exact Nat.zero_le _
  | append_singleton π i _ =>
    obtain ⟨g, m, hn, -, hm⟩ := tableAt_concat.mp h
    rw [List.length_append, List.length_singleton]
    by_contra hlong
    obtain rfl : m = 0 := by omega
    exact decode_zero_ne_table _ f hm

end Mapping

/-- The tables stay, the ones that come are the pages drawn, and walks that are linked
once stay so. -/
structure Grown (root : Frame) (s s' : Mapping) (ds : List Draw) : Prop where
  keep : ∀ π f, s.table root π = some f → s'.table root π = some f
  only : ∀ π f, s'.table root π = some f → s.table root π = some f ∨ ∃ d ∈ ds, d.page = f.addr
  linked : ∀ d ∈ ds, ∃ π f, s'.table root π = some f ∧ d.page = f.addr
  once : ∀ τ, s.Once root τ → s'.Once root τ

/-- The path to the page table of an address. -/
def upperPath (va : UInt64) : List (Fin 512) :=
  [toIndex (vaGetPml4Index va), toIndex (vaGetPdpIndex va), toIndex (vaGetPdIndex va)]

namespace Grown

variable {root : Frame} {s s' s'' : Mapping} {ds ds' : List Draw}

theorem refl (root : Frame) (s : Mapping) : Grown root s s [] where
  keep _ _ hf := hf
  only _ _ hf := .inl hf
  linked _ hd := absurd hd List.not_mem_nil
  once _ hτ := hτ

theorem trans (h : Grown root s s' ds) (h' : Grown root s' s'' ds') :
    Grown root s s'' (ds ++ ds') where
  keep π f hf := h'.keep π f (h.keep π f hf)
  only π f hf := by
    rcases h'.only π f hf with hf | ⟨d, hd, hpage⟩
    · rcases h.only π f hf with hf | ⟨d, hd, hpage⟩
      · exact .inl hf
      · exact .inr ⟨d, List.mem_append_left _ hd, hpage⟩
    · exact .inr ⟨d, List.mem_append_right _ hd, hpage⟩
  linked d hd := by
    rcases List.mem_append.mp hd with hd | hd
    · obtain ⟨π, f, hf, hpage⟩ := h.linked d hd
      exact ⟨π, f, h'.keep π f hf, hpage⟩
    · exact h'.linked d hd
  once τ hτ := h'.once τ (h.once τ hτ)

end Grown

namespace Pool

variable {root f g : Frame} {newMap pageCount flags : UInt64} {s s' : Mapping}
  {L L' : ℕ → Set Frame} {k : ℕ} {i : Fin 512} {π : List (Fin 512)}

theorem not_selfLink_mapAll : ¬ SelfLink .mapAll root f i := fun h => by cases h.1

/-- A table stands on the level of its paths. -/
theorem mem_of_table (h : Pool .mapAll root newMap pageCount s L) (hf : s.table root π = some f) :
    f ∈ L π.length :=
  h.levels.mem_of_tableAt (fun _ _ => not_selfLink_mapAll) h.root_mem hf
    (s.length_le_of_table root hf)

theorem length_eq (h : Pool .mapAll root newMap pageCount s L) (hf : s.table root π = some f)
    (hk : k ≤ 3) (hmem : f ∈ L k) : π.length = k :=
  h.levels.apart π.length k f (s.length_le_of_table root hf) hk (h.mem_of_table hf) hmem

/-- One block of `map_page`: an empty table comes in, or nothing happens. -/
theorem Block.grown (h : Block .mapAll root newMap pageCount flags k i s s' L L' f g)
    (hflags : Mapping.LinkFlags flags) (hk : k ≤ 2) (hπ : s.table root π = some f) :
    Grown root s s' (s.linkDraws f.addr (UInt64.ofNat i)) ∧
      s'.table root (π ++ [i]) = some g ∧
      ∀ τ, τ.length = 4 → s.Once root τ → s'.leaf root τ = s.leaf root τ := by
  have hlen := h.pool.length_eq hπ (by omega) h.mem
  have hnext : s'.table root π = some f → s'.table root (π ++ [i]) = some g := fun hπ' =>
    tableAt_concat.mpr ⟨f, 3 - k, by omega, hπ', h.link⟩
  by_cases habsent : word s.mem f i &&& presentFlag = 0
  -- a new table: what it links is new, and all else stays
  · obtain ⟨new, -, hpage, hfresh, hword, -⟩ := h.pool.linkTable_new hflags hk h.mem
      not_selfLink_mapAll habsent (h.room habsent) h.eq
    have hother : ∀ τ f, s.table root τ = some f → f ≠ new := by
      rintro τ f hf rfl
      exact hfresh τ.length (s.length_le_of_table root hf) (h.pool.mem_of_table hf)
    have hlinks : LinksNew decode (word s.mem) (word s'.mem) root 4 f i new := by
      refine ⟨fun τ f' i' hf' hslot => ?_, fun τ hτ => ?_, fun m => decode_eq_absent habsent,
        fun m hm => ?_, fun m j => ?_, fun τ hτ => hother τ new hτ rfl⟩
      · rw [hword, if_neg hslot, if_neg (hother τ f' hf')]
      · have := h.pool.length_eq hτ (by omega) h.mem
        omega
      · rw [hword, if_pos ⟨rfl, rfl⟩]
        exact hflags.decode hm new
      · rw [hword, if_neg fun heq => hother π f hπ heq.1.symm, if_pos rfl]
        exact decode_zero_word m
    rw [Mapping.linkDraws_absent habsent]
    refine ⟨⟨fun τ f hf => hlinks.keep hf, fun τ f hf => ?_, fun d hd => ?_,
      fun τ hτ => hlinks.walkOk hτ⟩, hnext (hlinks.keep hπ), fun τ hτ honce =>
        hlinks.lookup_eq honce hτ⟩
    · rcases hlinks.tableAt_iff.mp hf with hf | ⟨rfl, -⟩
      · exact .inl hf
      · exact .inr ⟨_, List.mem_singleton_self _, hpage⟩
    · obtain rfl := List.mem_singleton.mp hd
      exact ⟨π ++ [i], new, hlinks.tableAt_new hπ, hpage⟩
  -- the table that is there: nothing is written
  · have heq : s = s' := (Mapping.linkTable_present habsent).symm.trans h.eq
    subst heq
    rw [Mapping.linkDraws_present habsent]
    exact ⟨Grown.refl root s, hnext hπ, fun _ _ _ => rfl⟩

/-- The words after the last step of `map_page`. -/
theorem word_setEntry (s : Mapping) (f : Frame) (i : Fin 512) (physAddr : UInt64)
    (habsent : word s.mem f i &&& presentFlag = 0) (g : Frame) (j : Fin 512) :
    word (s.setEntry f i physAddr).mem g j =
      if g = f ∧ j = i then newFlags ||| (physAddr &&& addrMask) else word s.mem g j := by
  rw [Mapping.setEntry, Mapping.read_eq, if_pos habsent]
  unfold Mapping.write Mapping.read
  dsimp only
  rw [Function.update_self, Function.update_idem]
  unfold word
  rw [Function.update_apply]
  exact if_congr wordAddr_inj rfl rfl

theorem setEntry_present (habsent : word s.mem f i &&& presentFlag ≠ 0) (physAddr : UInt64) :
    s.setEntry f i physAddr = s := if_neg habsent

/-- The last step of `map_page`: an absent entry of the page table gets the page, and a
present one stays as it is. -/
theorem setEntry_grown (h : Pool .mapAll root newMap pageCount s L) (hf : f ∈ L 3)
    (hπ : s.table root π = some f) (i : Fin 512) (physAddr : UInt64) :
    Grown root s (s.setEntry f i physAddr) [] ∧
      ∀ τ, τ.length = 4 → s.Once root τ → (s.setEntry f i physAddr).leaf root τ =
        if τ = π ++ [i] ∧ s.leaf root τ = none
        then some (newFlags ||| (physAddr &&& addrMask), []) else s.leaf root τ := by
  have hself : s.leaf root (π ++ [i]) = lookup decode (word s.mem) f [i] := by
    refine lookup_append ?_
    rwa [List.length_singleton, h.length_eq hπ le_rfl hf]
  -- a page that was not mapped is, and no other leaf changes
  by_cases habsent : word s.mem f i &&& presentFlag = 0
  · have hword := word_setEntry s f i physAddr habsent
    have hwrites : Writes decode (word s.mem) (word (s.setEntry f i physAddr).mem) root 4 f i := by
      refine ⟨fun τ f' i' _ hslot => ?_, fun τ hτ => ?_, decode_zero_ne_table⟩
      · rw [hword, if_neg hslot]
      · rw [h.length_eq hτ le_rfl hf]
    refine ⟨⟨fun τ f hf => hwrites.tableAt_iff.mpr hf, fun τ f hf =>
      .inl (hwrites.tableAt_iff.mp hf),
      fun d hd => absurd hd List.not_mem_nil, fun τ => hwrites.walkOk⟩, fun τ hτ honce => ?_⟩
    by_cases heq : τ = π ++ [i]
    · subst heq
      have hmasked : physAddr &&& addrMask &&& addrMask = physAddr &&& addrMask := by
        rw [UInt64.and_assoc, UInt64.and_self]
      have hpresent : word (s.setEntry f i physAddr).mem f i &&& presentFlag ≠ 0 := by
        rw [hword, if_pos ⟨rfl, rfl⟩]
        exact present_newEntry hmasked
      rw [if_pos ⟨rfl, hself.trans (lookup_of_absent (decode_eq_absent habsent))⟩, Mapping.leaf,
        hwrites.lookup_self hπ, lookup_of_leaf (decode_zero_present hpresent), hword,
        if_pos ⟨rfl, rfl⟩]
    · rw [if_neg fun h => heq h.1]
      exact hwrites.lookup_of_ne hπ honce hτ heq
  · rw [setEntry_present habsent]
    refine ⟨Grown.refl root s, fun τ _ _ => ?_⟩
    rw [if_neg]
    rintro ⟨rfl, hnone⟩
    rw [hself, lookup_of_leaf (decode_zero_present habsent)] at hnone
    cases hnone

/-- One call of `map_page`: an address that was not mapped gets the page, and its page
table is there. -/
theorem mapPage_grown (h : Pool .mapAll root newMap pageCount s L) {c : MapCall}
    (hc : c.Fits .mapAll root s) :
    Grown root s (s.mapPage c.physAddr c.vaAddr).2 (s.mapPageDraws c.vaAddr) ∧
      (∀ τ, τ.length = 4 → s.Once root τ → (s.mapPage c.physAddr c.vaAddr).2.leaf root τ =
        if τ = vaPath c.vaAddr ∧ s.leaf root τ = none
        then some (newFlags ||| (c.physAddr &&& addrMask), []) else s.leaf root τ) ∧
      ∃ g, (s.mapPage c.physAddr c.vaAddr).2.table root (upperPath c.vaAddr) = some g := by
  have hlow : Mapping.LinkFlags (presentFlag ||| writableFlag) := ⟨by decide, by decide, by decide⟩
  have huser : Mapping.LinkFlags (presentFlag ||| writableFlag ||| userAccessFlag) :=
    ⟨by decide, by decide, by decide⟩
  obtain ⟨s₁, s₂, s₃, L₁, L₂, L₃, f₁, f₂, f₃, h₁, h₂, h₃, hs', hds⟩ := h.mapPage_blocks hc
  obtain ⟨hgrown₁, hπ₁, hleaf₁⟩ := h₁.grown hlow (by omega) (π := []) (tableAt_nil _ _ _ _)
  obtain ⟨hgrown₂, hπ₂, hleaf₂⟩ := h₂.grown huser (by omega) hπ₁
  obtain ⟨hgrown₃, hπ₃, hleaf₃⟩ := h₃.grown huser (by omega) hπ₂
  obtain ⟨hgrown₄, hleaf₄⟩ := setEntry_grown h₃.pool' h₃.mem' hπ₃
    (toIndex (vaGetPtIndex c.vaAddr)) c.physAddr
  have hlinks := (hgrown₁.trans hgrown₂).trans hgrown₃
  rw [hs', hds]
  refine ⟨?_, fun τ hτ honce => ?_, f₃, hgrown₄.keep _ _ hπ₃⟩
  · have hall := hlinks.trans hgrown₄
    rwa [List.append_nil] at hall
  · -- the blocks for the upper levels leave the leaf alone
    have hleaf : s₃.leaf root τ = s.leaf root τ := by
      rw [hleaf₃ τ hτ (hgrown₂.once τ (hgrown₁.once τ honce)), hleaf₂ τ hτ (hgrown₁.once τ honce),
        hleaf₁ τ hτ honce]
    rw [hleaf₄ τ hτ (hlinks.once τ honce), hleaf]
    rfl

end Pool

/-- The first of the calls for a walk. -/
def firstCall (calls : List MapCall) (τ : List (Fin 512)) : Option MapCall :=
  calls.find? fun c => vaPath c.vaAddr = τ

namespace Pool

variable {root : Frame} {newMap pageCount : UInt64}

theorem run_grown : ∀ {calls : List MapCall} {s : Mapping} {L : ℕ → Set Frame},
    Pool .mapAll root newMap pageCount s L →
    (∀ before c after, calls = before ++ c :: after → c.Fits .mapAll root (s.run before)) →
    Grown root s (s.run calls) (s.draws calls) := by
  intro calls
  induction calls with
  | nil => exact fun _ _ => Grown.refl root _
  | cons c calls ih =>
    intro s L h hcalls
    obtain ⟨⟨L', h'⟩, -⟩ := h.mapPage (hcalls [] c calls rfl)
    exact (h.mapPage_grown (hcalls [] c calls rfl)).1.trans
      (ih h' fun before c' after heq => hcalls (c :: before) c' after (by rw [heq]; rfl))

/-- A walk that was mapped keeps its leaf, and another one gets that of the first call
for it. -/
theorem run_leaf {τ : List (Fin 512)} (hτ : τ.length = 4) :
    ∀ {calls : List MapCall} {s : Mapping} {L : ℕ → Set Frame},
    Pool .mapAll root newMap pageCount s L →
    (∀ before c after, calls = before ++ c :: after → c.Fits .mapAll root (s.run before)) →
    s.Once root τ →
    (s.run calls).leaf root τ = (s.leaf root τ).or
      ((firstCall calls τ).map fun c => (newFlags ||| (c.physAddr &&& addrMask), [])) := by
  intro calls
  -- by induction on the calls: a walk that has its leaf keeps it
  induction calls with
  | nil =>
    intro s L _ _ _
    rw [firstCall, List.find?_nil, Option.map_none, Option.or_none]
    rfl
  | cons c calls ih =>
    intro s L h hcalls honce
    obtain ⟨⟨L', h'⟩, -⟩ := h.mapPage (hcalls [] c calls rfl)
    obtain ⟨hgrown, hleaf, -⟩ := h.mapPage_grown (hcalls [] c calls rfl)
    have hrest := ih h' (fun before c' after heq =>
      hcalls (c :: before) c' after (by rw [heq]; rfl)) (hgrown.once τ honce)
    have hrun : s.run (c :: calls) = (s.mapPage c.physAddr c.vaAddr).2.run calls := rfl
    rw [hrun, hrest, hleaf τ hτ honce]
    by_cases hc : vaPath c.vaAddr = τ
    · have hfirst : firstCall (c :: calls) τ = some c :=
        List.find?_cons_of_pos (by simpa using hc)
      rw [hfirst]
      cases hnone : s.leaf root τ with
      | none => rw [if_pos ⟨hc.symm, rfl⟩]; rfl
      | some r => rw [if_neg fun hn => by cases hn.2]; rfl
    · have hfirst : firstCall (c :: calls) τ = firstCall calls τ :=
        List.find?_cons_of_neg (by simpa using hc)
      rw [hfirst, if_neg fun heq => hc heq.1.symm]

/-- A call for an address whose page table is there needs nothing. -/
theorem fits_of_table {s : Mapping} {c : MapCall} {g : Frame}
    (ht : s.table root (upperPath c.vaAddr) = some g) : c.Fits .mapAll root s := by
  obtain ⟨f₁, h₁, ht⟩ := tableAt_cons_eq_some.mp ht
  obtain ⟨f₂, h₂, ht⟩ := tableAt_cons_eq_some.mp ht
  obtain ⟨f₃, h₃, -⟩ := tableAt_cons_eq_some.mp ht
  refine ⟨⟨?_, fun g₁ hg₁ => ⟨?_, fun g₂ hg₂ => ⟨?_, fun _ _ => trivial⟩⟩⟩, ?_, nofun⟩
  · exact fun hleaf => by cases h₁.symm.trans hleaf
  · obtain rfl := Entry.table.inj (h₁.symm.trans hg₁)
    exact fun hleaf => by cases h₂.symm.trans hleaf
  · obtain rfl := Entry.table.inj (h₁.symm.trans hg₁)
    obtain rfl := Entry.table.inj (h₂.symm.trans hg₂)
    exact fun hleaf => by cases h₃.symm.trans hleaf
  · rw [vaPath, tablesNeeded_of_table h₁, tablesNeeded_of_table h₂, tablesNeeded_of_table h₃]
    exact Nat.zero_le _

/-- Where the page table is there, no page is taken. -/
theorem mapPageDraws_of_table (h : Pool .mapAll root newMap pageCount s L) {c : MapCall} {g : Frame}
    (hg : s.table root (upperPath c.vaAddr) = some g) : s.mapPageDraws c.vaAddr = [] := by
  obtain ⟨f₁, h₁, hg⟩ := tableAt_cons_eq_some.mp hg
  obtain ⟨f₂, h₂, hg⟩ := tableAt_cons_eq_some.mp hg
  obtain ⟨f₃, h₃, -⟩ := tableAt_cons_eq_some.mp hg
  obtain ⟨hp₁, -, -, hf₁⟩ := decode_eq_table.mp h₁
  obtain ⟨hp₂, -, -, hf₂⟩ := decode_eq_table.mp h₂
  obtain ⟨hp₃, -, -, hf₃⟩ := decode_eq_table.mp h₃
  rw [(Mapping.mapPage_of_blocks h.pml4 h.pml4 (Mapping.linkTable_present hp₁)
    (congrArg Frame.addr hf₁) (Mapping.linkTable_present hp₂) (congrArg Frame.addr hf₂)
    (Mapping.linkTable_present hp₃) (congrArg Frame.addr hf₃)).2,
    Mapping.linkDraws_present hp₁, Mapping.linkDraws_present hp₂, Mapping.linkDraws_present hp₃]
  rfl

/-- Calls that find their page tables fit, and take no pages. -/
theorem run_of_present : ∀ {calls : List MapCall} {s : Mapping} {L : ℕ → Set Frame},
    Pool .mapAll root newMap pageCount s L →
    (∀ c ∈ calls, ∃ g, s.table root (upperPath c.vaAddr) = some g) →
    (∀ before c after, calls = before ++ c :: after → c.Fits .mapAll root (s.run before)) ∧
      s.draws calls = [] := by
  intro calls
  induction calls with
  | nil =>
    exact fun _ _ => ⟨MapCall.fits_nil, rfl⟩
  | cons c calls ih =>
    intro s L h hpresent
    obtain ⟨g, hg⟩ := hpresent c List.mem_cons_self
    have hc := fits_of_table hg
    obtain ⟨⟨L', h'⟩, -⟩ := h.mapPage hc
    have hgrown := (h.mapPage_grown hc).1
    obtain ⟨hfits, hdraws⟩ := ih h' fun c' hc' =>
      (hpresent c' (List.mem_cons_of_mem _ hc')).imp fun g hg => hgrown.keep _ _ hg
    refine ⟨hc.run_cons hfits, ?_⟩
    rw [Mapping.draws, h.mapPageDraws_of_table hg, hdraws]
    rfl

/-- Calls that share a page table all fit, if the first one does. -/
theorem fits_of_same_table {calls : List MapCall} {s : Mapping} {L : ℕ → Set Frame} {c : MapCall}
    (h : Pool .mapAll root newMap pageCount s L) (hc : c.Fits .mapAll root s)
    (hsame : ∀ c' ∈ calls, upperPath c'.vaAddr = upperPath c.vaAddr) :
    ∀ before c' after, c :: calls = before ++ c' :: after →
      c'.Fits .mapAll root (s.run before) := by
  obtain ⟨⟨L', h'⟩, -⟩ := h.mapPage hc
  obtain ⟨-, -, g, hg⟩ := h.mapPage_grown hc
  refine hc.run_cons (h'.run_of_present fun c' hc' => ⟨g, ?_⟩).1
  rw [hsame c' hc']
  exact hg

/-- A walk whose first entry is absent is linked once. -/
theorem once_of_absent {s : Mapping} {L : ℕ → Set Frame} {i : Fin 512} {ρ : List (Fin 512)}
    (h : Pool .mapAll root newMap pageCount s L)
    (habsent : decode 3 (word s.mem root i) = .absent) :
    s.Once root (i :: ρ) := by
  refine walkOk_of_onlyAt fun π g hpre hg => ⟨hg, fun π' hπ' => ?_⟩
  cases π with
  | nil =>
    obtain rfl : root = g := by simpa using hg
    exact List.length_eq_zero_iff.mp (h.length_eq hπ' (Nat.zero_le _) h.root_mem)
  | cons j π =>
    obtain ⟨rfl, -⟩ := List.cons_prefix_cons.mp hpre
    obtain ⟨f, hf, -⟩ := tableAt_cons_eq_some.mp hg
    cases habsent.symm.trans hf

/-- In a run the first call for an address that was not mapped decides. -/
theorem run_translate {calls : List MapCall} {s : Mapping} {L : ℕ → Set Frame} {va : UInt64}
    (h : Pool .mapAll root newMap pageCount s L)
    (hcalls : ∀ before c after, calls = before ++ c :: after →
      c.Fits .mapAll root (s.run before))
    (honce : s.Once root (vaPath va)) (hnone : s.leaf root (vaPath va) = none) :
    translate (s.run calls).mem root va =
      (firstCall calls (vaPath va)).map fun c => c.physAddr &&& addrMask := by
  have hleaf : lookup decode (word (s.run calls).mem) root (vaPath va) = _ :=
    h.run_leaf rfl hcalls honce
  rw [translate, hleaf, hnone, Option.none_or]
  cases firstCall calls (vaPath va) with
  | none => rfl
  | some c =>
    refine congrArg some (addr_newEntry ?_)
    rw [UInt64.and_assoc, UInt64.and_self]

end Pool

end Betelgeuse
