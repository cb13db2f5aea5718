/-
A tree of tables that grows.

`LinksNew` is the change of memory when an empty table is linked at an absent word of
the table `g`, which may be shared, so that the new table can come in at several
paths.  The tables that were there stay at their paths, and the new one stands behind
every path to `g` (`LinksNew.tableAt_iff`).  A walk whose tables are linked once stays
so, and keeps its leaf (`LinksNew.walkOk`, `LinksNew.lookup_eq`).

`Writes` is the change of one word of a table of the last level: no table comes or
goes, and the leaf of a walk that is linked once changes only if it goes through the
word.

`Reuses` is the change of memory when the table that is linked at an absent word is
emptied first, and may be one of the tables that are there.  It can take others away
with it, but is always in the tree itself (`Reuses.exists_path`).
-/
import Betelgeuse.PageTree

namespace PageTree

variable {F I W : Type*} {decode : ℕ → W → Entry F} {mem mem' : F → I → W} {root f g new : F}
  {n : ℕ} {i j : I} {π τ path : List I}

variable (decode mem mem') in
/-- The empty table `new` is linked in word `j` of the table `g`, which was absent, and
nothing else happens to the tables. -/
structure LinksNew (root : F) (n : ℕ) (g : F) (j : I) (new : F) : Prop where
  agree : ∀ τ f i, tableAt decode mem root n τ = some f → ¬ (f = g ∧ i = j) → mem' f i = mem f i
  upper : ∀ τ, tableAt decode mem root n τ = some g → τ.length + 1 < n
  absent : ∀ m, decode m (mem g j) = .absent
  link : ∀ m, m ≠ 0 → decode m (mem' g j) = .table new
  empty : ∀ m i, decode m (mem' new i) = .absent
  fresh : ∀ τ, tableAt decode mem root n τ ≠ some new

namespace LinksNew

theorem tableAt_iff (h : LinksNew decode mem mem' root n g j new) : ∀ {τ : List I} {f : F},
    tableAt decode mem' root n τ = some f ↔ tableAt decode mem root n τ = some f ∨
      f = new ∧ ∃ π, τ = π ++ [j] ∧ tableAt decode mem root n π = some g := by
  intro τ
  induction τ using List.reverseRecOn with
  | nil => simp
  | append_singleton τ i ih =>
    intro f
    constructor
    · intro hf
      obtain ⟨k, m, hn, hk, hm⟩ := tableAt_concat.mp hf
      rcases ih.mp hk with hk | ⟨rfl, -⟩
      · by_cases hslot : k = g ∧ i = j
        · obtain ⟨rfl, rfl⟩ := hslot
          have hlow := h.upper τ hk
          rw [h.link m (by omega)] at hm
          exact .inr ⟨(Entry.table.inj hm).symm, τ, rfl, hk⟩
        · rw [h.agree τ k i hk hslot] at hm
          exact .inl (tableAt_concat.mpr ⟨k, m, hn, hk, hm⟩)
      · -- the new table links nothing
        rw [h.empty] at hm
        cases hm
    · rintro (hf | ⟨rfl, π, heq, hg⟩)
      · obtain ⟨k, m, hn, hk, hm⟩ := tableAt_concat.mp hf
        have hslot : ¬ (k = g ∧ i = j) := by
          rintro ⟨rfl, rfl⟩
          rw [h.absent] at hm
          cases hm
        refine tableAt_concat.mpr ⟨k, m, hn, ih.mpr (.inl hk), ?_⟩
        rwa [h.agree τ k i hk hslot]
      · obtain ⟨rfl, hij⟩ := List.append_inj' heq rfl
        obtain rfl : i = j := by simpa using hij
        have hlow := h.upper τ hg
        obtain ⟨m, hm⟩ : ∃ m, n = m + 1 + τ.length := ⟨n - 1 - τ.length, by omega⟩
        exact tableAt_concat.mpr ⟨g, m, hm, ih.mpr (.inl hg), h.link m (by omega)⟩

theorem keep (h : LinksNew decode mem mem' root n g j new)
    (hf : tableAt decode mem root n τ = some f) : tableAt decode mem' root n τ = some f :=
  h.tableAt_iff.mpr (.inl hf)

theorem tableAt_new (h : LinksNew decode mem mem' root n g j new)
    (hg : tableAt decode mem root n π = some g) :
    tableAt decode mem' root n (π ++ [j]) = some new :=
  h.tableAt_iff.mpr (.inr ⟨rfl, π, rfl, hg⟩)

theorem walkOk (h : LinksNew decode mem mem' root n g j new)
    (hw : WalkOk decode mem root n path) : WalkOk decode mem' root n path := by
  refine walkOk_of_onlyAt fun π f hpre hf => ⟨hf, fun π' hf' => ?_⟩
  rcases h.tableAt_iff.mp hf with hf | ⟨rfl, π₁, rfl, hg⟩
  · rcases h.tableAt_iff.mp hf' with hf' | ⟨rfl, -⟩
    · exact (hw.onlyAt hpre hf).2 π' hf'
    · exact absurd hf (h.fresh π)
  · rcases h.tableAt_iff.mp hf' with hf' | ⟨-, π₂, rfl, hg'⟩
    · exact absurd hf' (h.fresh π')
    · -- the table that links it is reached by one path
      rw [(hw.onlyAt ((List.prefix_append π₁ [j]).trans hpre) hg).2 π₂ hg']

theorem lookup_eq (h : LinksNew decode mem mem' root n g j new)
    (hw : WalkOk decode mem root n τ) (hτ : τ.length = n) :
    lookup decode mem' root τ = lookup decode mem root τ := by
  by_cases hslot : ∃ π ρ, τ = π ++ j :: ρ ∧ tableAt decode mem root n π = some g
  · obtain ⟨π, ρ, rfl, hg⟩ := hslot
    have hn : n = ρ.length + 1 + π.length := by
      simp at hτ
      omega
    have hlow := h.upper π hg
    have honly := hw.onlyAt (List.prefix_append π (j :: ρ)) hg
    have hagree := h.agree
    rw [hn] at honly hagree
    exact lookup_link honly hagree (h.absent _) (h.link _ (by omega)) h.empty (by rw [hτ, hn])
  · -- the walk does not go through the word
    refine lookup_congr fun π i ρ f heq hf => h.agree π f i (by rwa [hτ] at hf) ?_
    rintro ⟨rfl, rfl⟩
    exact hslot ⟨π, ρ, heq, by rwa [hτ] at hf⟩

end LinksNew

variable (decode mem mem') in
/-- Word `j` of the table `g`, which stands on the last level, is written, and nothing
else happens to the tables. -/
structure Writes (root : F) (n : ℕ) (g : F) (j : I) : Prop where
  agree : ∀ τ f i, tableAt decode mem root n τ = some f → ¬ (f = g ∧ i = j) → mem' f i = mem f i
  last : ∀ τ, tableAt decode mem root n τ = some g → τ.length + 1 = n
  leaf : ∀ w f, decode 0 w ≠ .table f

namespace Writes

theorem tableAt_iff (h : Writes decode mem mem' root n g j) : ∀ {τ : List I} {f : F},
    tableAt decode mem' root n τ = some f ↔ tableAt decode mem root n τ = some f := by
  intro τ
  induction τ using List.reverseRecOn with
  | nil => simp
  | append_singleton τ i ih =>
    intro f
    rw [tableAt_concat, tableAt_concat]
    refine exists_congr fun k => exists_congr fun m => and_congr_right fun hn => ?_
    rw [ih]
    refine and_congr_right fun hk => ?_
    by_cases hslot : k = g ∧ i = j
    · -- no entry of the last level links a table
      obtain ⟨rfl, rfl⟩ := hslot
      have hlast := h.last τ hk
      obtain rfl : m = 0 := by omega
      exact iff_of_false (h.leaf _ f) (h.leaf _ f)
    · rw [h.agree τ k i hk hslot]

theorem walkOk (h : Writes decode mem mem' root n g j) (hw : WalkOk decode mem root n path) :
    WalkOk decode mem' root n path := by
  refine walkOk_of_onlyAt fun π f hpre hf => ⟨hf, fun π' hf' => ?_⟩
  exact (hw.onlyAt hpre (h.tableAt_iff.mp hf)).2 π' (h.tableAt_iff.mp hf')

/-- A walk that does not end in the word keeps its leaf. -/
theorem lookup_of_ne (h : Writes decode mem mem' root n g j)
    (hg : tableAt decode mem root n π = some g) (hw : WalkOk decode mem root n τ)
    (hτ : τ.length = n) (hne : τ ≠ π ++ [j]) :
    lookup decode mem' root τ = lookup decode mem root τ := by
  refine lookup_congr fun π' i ρ f heq hf => h.agree π' f i (by rwa [hτ] at hf) ?_
  rintro ⟨rfl, rfl⟩
  rw [hτ] at hf
  obtain rfl := (hw.onlyAt ⟨i :: ρ, heq.symm⟩ hf).2 π hg
  have hlast := h.last π hg
  have hρ : ρ.length = 0 := by
    rw [heq, List.length_append, List.length_cons] at hτ
    omega
  rw [List.length_eq_zero_iff.mp hρ] at heq
  exact hne heq

/-- The leaf of the walk that ends in the word. -/
theorem lookup_self (h : Writes decode mem mem' root n g j)
    (hg : tableAt decode mem root n π = some g) :
    lookup decode mem' root (π ++ [j]) = lookup decode mem' g [j] := by
  refine lookup_append ?_
  rw [List.length_singleton, Nat.add_comm, h.last π hg]
  exact h.tableAt_iff.mpr hg

end Writes

/-- Links are kept where only an absent word is written. -/
theorem tableAt_of_agree (habsent : ∀ m, decode m (mem g j) = .absent) :
    ∀ {τ : List I} {f : F}, tableAt decode mem root n τ = some f →
      (∀ π i ρ k, τ = π ++ i :: ρ → tableAt decode mem root n π = some k →
        ¬ (k = g ∧ i = j) → mem' k i = mem k i) →
      tableAt decode mem' root n τ = some f := by
  intro τ
  induction τ using List.reverseRecOn with
  | nil => simp
  | append_singleton τ i ih =>
    intro f hf hagree
    obtain ⟨k, m, hn, hk, hm⟩ := tableAt_concat.mp hf
    have hslot : ¬ (k = g ∧ i = j) := by
      rintro ⟨rfl, rfl⟩
      rw [habsent] at hm
      cases hm
    refine tableAt_concat.mpr ⟨k, m, hn, ih hk fun π i' ρ k' heq => ?_, ?_⟩
    · exact hagree π i' (ρ ++ [i]) k' (by rw [heq, List.append_assoc, List.cons_append])
    · rwa [hagree τ i [] k rfl hk hslot]

variable (decode mem mem') in
/-- The table `new`, which is not the root, is emptied and then linked in word `j` of the
table `g`, which was absent. -/
structure Reuses (root : F) (g : F) (j : I) (new : F) : Prop where
  agree : ∀ f i, f ≠ new → ¬ (f = g ∧ i = j) → mem' f i = mem f i
  absent : ∀ m, decode m (mem g j) = .absent
  link : ∀ m, m ≠ 0 → decode m (mem' g j) = .table new
  ne_root : new ≠ root

namespace Reuses

/-- A path on which `new` stands nowhere above the end is still there. -/
theorem tableAt_eq (h : Reuses decode mem mem' root g j new) {f : F}
    (hτ : tableAt decode mem root n τ = some f)
    (hclean : ∀ π i ρ, τ = π ++ i :: ρ → tableAt decode mem root n π ≠ some new) :
    tableAt decode mem' root n τ = some f :=
  tableAt_of_agree h.absent hτ fun π i ρ k heq hk hslot =>
    h.agree k i (fun hnew => hclean π i ρ heq (hnew ▸ hk)) hslot

/-- Where `new` was in the tree, it still is: at the first of its places on the path. -/
theorem exists_path_of_tableAt (h : Reuses decode mem mem' root g j new) {k : ℕ} :
    ∀ {τ : List I}, τ.length = k → tableAt decode mem root n τ = some new →
      ∃ π, tableAt decode mem' root n π = some new := by
  induction k using Nat.strongRecOn with
  | ind k ih =>
    intro τ hk hτ
    by_cases hclean : ∀ π i ρ, τ = π ++ i :: ρ → tableAt decode mem root n π ≠ some new
    · exact ⟨τ, h.tableAt_eq hτ hclean⟩
    · push Not at hclean
      obtain ⟨π, i, ρ, heq, hπ⟩ := hclean
      refine ih π.length ?_ rfl hπ
      rw [← hk, heq, List.length_append, List.length_cons]
      omega

theorem exists_path (h : Reuses decode mem mem' root g j new)
    (hg : tableAt decode mem root n π = some g) (hn : π.length + 1 < n) :
    ∃ τ, tableAt decode mem' root n τ = some new := by
  by_cases hclean : ∃ τ, tableAt decode mem root n τ = some new
  · obtain ⟨τ, hτ⟩ := hclean
    exact h.exists_path_of_tableAt rfl hτ
  · push Not at hclean
    exact ⟨π ++ [j], tableAt_concat.mpr ⟨g, n - 1 - π.length, by omega,
      h.tableAt_eq hg fun π' _ _ _ => hclean π', h.link _ (by omega)⟩⟩

end Reuses

end PageTree
