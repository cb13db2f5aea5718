/-
Trees of tables.

A memory gives every frame `f` and index `i` a word.  A word of a table that
stands `n` levels above the leaves is, after `decode n`, absent, a leaf, or a
link to a table one level down.  `tableAt` follows the links along a path of
indices, `lookup` follows a whole path to its leaf.

Tables may be shared, so that writing one word can change what is found under
several paths.  `OnlyAt` says that a table is reached by one path only; then a
write to one of its words concerns the paths through that word and no others:

* `tableAt_link`, `lookup_link` — linking an empty table where nothing was
  linked before adds one table and changes no lookup;
* `tableAt_leaf`, `lookup_leaf` — writing a word of a table of the last level
  adds no table and changes one lookup.

`WalkOk` is the condition on one path under which all of its tables are
`OnlyAt` their place (`WalkOk.onlyAt`, `walkOk_of_onlyAt`).
-/
import Mathlib.Data.List.Induction
import Mathlib.Tactic.Common

namespace PageTree

/-- What a word of a table stands for. -/
inductive Entry (F : Type*) where
  | absent
  | leaf
  | table (f : F)
  deriving DecidableEq

variable {F I W : Type*} (decode : ℕ → W → Entry F) (mem mem' : F → I → W)

/-- The table at the end of a path of links from the table `f`, which stands `n`
levels high. -/
def tableAt : F → ℕ → List I → Option F
  | f, _, [] => some f
  | _, 0, _ :: _ => none
  | f, n + 1, i :: is =>
    match decode n (mem f i) with
    | .table g => tableAt g n is
    | _ => none

/-- The leaf word under a full path from the table `f`, with the part of the path
that the leaf covers. -/
def lookup : F → List I → Option (W × List I)
  | _, [] => none
  | f, i :: is =>
    match decode is.length (mem f i) with
    | .absent => none
    | .leaf => some (mem f i, is)
    | .table g => lookup g is

@[simp] theorem tableAt_nil (f : F) (n : ℕ) : tableAt decode mem f n [] = some f := by
  rw [tableAt]

variable {decode mem mem'}

section Cons

variable {f g : F} {n : ℕ} {i : I} {is : List I}

theorem tableAt_of_table (h : decode n (mem f i) = .table g) :
    tableAt decode mem f (n + 1) (i :: is) = tableAt decode mem g n is := by
  rw [tableAt]
  simp only [h]

theorem tableAt_of_ne_table (h : ∀ g, decode n (mem f i) ≠ .table g) :
    tableAt decode mem f (n + 1) (i :: is) = none := by
  rw [tableAt]
  split
  · rename_i g hg
    exact absurd hg (h g)
  · rfl

theorem lookup_of_table (h : decode is.length (mem f i) = .table g) :
    lookup decode mem f (i :: is) = lookup decode mem g is := by
  rw [lookup]
  simp only [h]

theorem lookup_of_absent (h : decode is.length (mem f i) = .absent) :
    lookup decode mem f (i :: is) = none := by
  rw [lookup]
  simp only [h]

theorem lookup_of_leaf (h : decode is.length (mem f i) = .leaf) :
    lookup decode mem f (i :: is) = some (mem f i, is) := by
  rw [lookup]
  simp only [h]

@[simp] theorem lookup_nil : lookup decode mem f [] = none := by
  rw [lookup]

/-- An empty table leads nowhere. -/
theorem lookup_of_empty (h : ∀ k i, decode k (mem f i) = .absent) (ρ : List I) :
    lookup decode mem f ρ = none := by
  cases ρ with
  | nil => exact lookup_nil
  | cons i ρ => exact lookup_of_absent (h _ _)

end Cons

theorem tableAt_cons_eq_some {f g : F} {n : ℕ} {i : I} {is : List I} :
    tableAt decode mem f (n + 1) (i :: is) = some g ↔
      ∃ h, decode n (mem f i) = .table h ∧ tableAt decode mem h n is = some g := by
  rw [tableAt]
  split
  · rename_i h heq
    rw [heq]
    simp
  · rename_i hne
    constructor
    · intro h
      cases h
    · rintro ⟨h, heq, -⟩
      exact absurd heq (hne h)

theorem tableAt_append : ∀ {π ρ : List I} {f g : F} {n : ℕ},
    tableAt decode mem f (n + π.length) π = some g →
    tableAt decode mem f (n + π.length) (π ++ ρ) = tableAt decode mem g n ρ := by
  intro π
  induction π with
  | nil =>
    intro ρ f g n h
    obtain rfl : f = g := by simpa using h
    rfl
  | cons i π ih =>
    intro ρ f g n h
    rw [List.length_cons, ← Nat.add_assoc] at h ⊢
    obtain ⟨k, hk, h⟩ := tableAt_cons_eq_some.mp h
    rw [List.cons_append, tableAt, hk]
    exact ih h

theorem lookup_append : ∀ {π ρ : List I} {f g : F},
    tableAt decode mem f (ρ.length + π.length) π = some g →
    lookup decode mem f (π ++ ρ) = lookup decode mem g ρ := by
  intro π
  induction π with
  | nil =>
    intro ρ f g h
    obtain rfl : f = g := by simpa using h
    rfl
  | cons i π ih =>
    intro ρ f g h
    rw [List.length_cons, ← Nat.add_assoc] at h
    obtain ⟨k, hk, h⟩ := tableAt_cons_eq_some.mp h
    have hlen : (π ++ ρ).length = ρ.length + π.length := by
      rw [List.length_append, Nat.add_comm]
    rw [List.cons_append, lookup, hlen, hk]
    exact ih h

/-- A leaf that is found stands in a table of the tree, at the path that it does not cover. -/
theorem lookup_eq_some : ∀ {τ ρ : List I} {f : F} {w : W}, lookup decode mem f τ = some (w, ρ) →
    ∃ π i g, τ = π ++ i :: ρ ∧ tableAt decode mem f τ.length π = some g ∧ mem g i = w ∧
      decode ρ.length w = .leaf := by
  intro τ
  induction τ with
  | nil =>
    intro ρ f w h
    rw [lookup] at h
    cases h
  | cons i τ ih =>
    intro ρ f w h
    cases hentry : decode τ.length (mem f i) with
    | absent =>
      rw [lookup_of_absent hentry] at h
      cases h
    | leaf =>
      rw [lookup_of_leaf hentry] at h
      obtain ⟨rfl, rfl⟩ := Prod.mk.inj (Option.some.inj h)
      exact ⟨[], i, f, rfl, tableAt_nil .., rfl, hentry⟩
    | table k =>
      rw [lookup_of_table hentry] at h
      obtain ⟨π, j, g, rfl, hg, hw, hleaf⟩ := ih h
      exact ⟨i :: π, j, g, rfl, tableAt_cons_eq_some.mpr ⟨k, hentry, hg⟩, hw, hleaf⟩

theorem tableAt_concat : ∀ {π : List I} {i : I} {f g : F} {n : ℕ},
    tableAt decode mem f n (π ++ [i]) = some g ↔
      ∃ k m, n = m + 1 + π.length ∧ tableAt decode mem f n π = some k ∧
        decode m (mem k i) = .table g := by
  intro π
  -- by induction on the path, the last index being the one that is taken off
  induction π with
  | nil =>
    intro i f g n
    constructor
    · intro h
      cases n with
      | zero =>
        rw [List.nil_append, tableAt] at h
        cases h
      | succ n =>
        obtain ⟨k, hk, h⟩ := tableAt_cons_eq_some.mp h
        obtain rfl : k = g := by simpa using h
        exact ⟨f, n, rfl, by simp, hk⟩
    · rintro ⟨k, m, rfl, h, hk⟩
      obtain rfl : f = k := by simpa using h
      exact tableAt_cons_eq_some.mpr ⟨g, hk, by simp⟩
  | cons j π ih =>
    intro i f g n
    constructor
    · intro h
      cases n with
      | zero =>
        rw [List.cons_append, tableAt] at h
        cases h
      | succ n =>
        obtain ⟨k, hk, h⟩ := tableAt_cons_eq_some.mp h
        obtain ⟨k', m, rfl, h', hk'⟩ := ih.mp h
        exact ⟨k', m, rfl, tableAt_cons_eq_some.mpr ⟨k, hk, h'⟩, hk'⟩
    · rintro ⟨k, m, rfl, h, hk⟩
      obtain ⟨k', hk', h'⟩ := tableAt_cons_eq_some.mp h
      exact tableAt_cons_eq_some.mpr ⟨k', hk', ih.mpr ⟨k, m, rfl, h', hk⟩⟩

/-! ### Memories that agree along a path -/

theorem tableAt_congr : ∀ {τ : List I} {f : F} {n : ℕ},
    (∀ π i ρ g, τ = π ++ i :: ρ → tableAt decode mem f n π = some g → mem' g i = mem g i) →
    tableAt decode mem' f n τ = tableAt decode mem f n τ := by
  intro τ
  induction τ with
  | nil =>
    intro f n _
    rw [tableAt_nil, tableAt_nil]
  | cons i τ ih =>
    intro f n h
    cases n with
    | zero => rw [tableAt, tableAt]
    | succ n =>
      rw [tableAt, tableAt, h [] i τ f rfl (by simp)]
      split
      · rename_i g hg
        refine ih fun π j ρ k hτ hk => h (i :: π) j ρ k (by rw [hτ]; rfl) ?_
        exact tableAt_cons_eq_some.mpr ⟨g, hg, hk⟩
      · rfl

theorem lookup_congr : ∀ {τ : List I} {f : F},
    (∀ π i ρ g, τ = π ++ i :: ρ → tableAt decode mem f τ.length π = some g →
      mem' g i = mem g i) →
    lookup decode mem' f τ = lookup decode mem f τ := by
  intro τ
  induction τ with
  | nil =>
    intro f _
    rw [lookup, lookup]
  | cons i τ ih =>
    intro f h
    rw [lookup, lookup, h [] i τ f rfl (by simp)]
    split
    · rfl
    · rfl
    · rename_i g hg
      refine ih fun π j ρ k hτ hk => h (i :: π) j ρ k (by rw [hτ]; rfl) ?_
      exact tableAt_cons_eq_some.mpr ⟨g, hg, hk⟩

/-! ### Writing to a table that is reached by one path -/

variable (decode mem) in
/-- The table `g` is reached from the root by the path `π` and by no other. -/
def OnlyAt (root : F) (n : ℕ) (π : List I) (g : F) : Prop :=
  tableAt decode mem root n π = some g ∧ ∀ π', tableAt decode mem root n π' = some g → π' = π

section Write

variable {root g new : F} {n m : ℕ} {π τ : List I} {j : I}

/-- Two memories that differ, on the tables of the tree, in word `j` of `g` only,
agree along every path that does not go through that word. -/
theorem OnlyAt.agree (h : OnlyAt decode mem root n π g)
    (hmem : ∀ ρ f i, tableAt decode mem root n ρ = some f → ¬ (f = g ∧ i = j) →
      mem' f i = mem f i)
    (hτ : ¬ π ++ [j] <+: τ) :
    ∀ π' i ρ f, τ = π' ++ i :: ρ → tableAt decode mem root n π' = some f →
      mem' f i = mem f i := by
  rintro π' i ρ f rfl hf
  refine hmem π' f i hf ?_
  rintro ⟨rfl, rfl⟩
  obtain rfl := h.2 π' hf
  exact hτ ⟨ρ, by simp⟩

/-- No path ends in front of itself. -/
theorem not_concat_prefix : ¬ π ++ [j] <+: π := by
  intro h
  have := h.length_le
  rw [List.length_append, List.length_singleton] at this
  omega

/-- Linking an empty table, in a word that was absent, adds this one table. -/
theorem tableAt_link [DecidableEq I] (h : OnlyAt decode mem root (m + 1 + π.length) π g)
    (hmem : ∀ ρ f i, tableAt decode mem root (m + 1 + π.length) ρ = some f →
      ¬ (f = g ∧ i = j) → mem' f i = mem f i)
    (habs : decode m (mem g j) = .absent) (hlink : decode m (mem' g j) = .table new)
    (hempty : ∀ k i, decode k (mem' new i) = .absent) (τ : List I) :
    tableAt decode mem' root (m + 1 + π.length) τ =
      if τ = π ++ [j] then some new else tableAt decode mem root (m + 1 + π.length) τ := by
  by_cases hτ : π ++ [j] <+: τ
  · obtain ⟨ρ, rfl⟩ := hτ
    have hπ : tableAt decode mem' root (m + 1 + π.length) π = some g := by
      rw [tableAt_congr (h.agree hmem not_concat_prefix), h.1]
    rw [List.append_assoc, tableAt_append hπ, tableAt_append h.1, List.singleton_append,
      tableAt_of_table hlink, tableAt_of_ne_table (by simp [habs])]
    cases ρ with
    | nil => simp
    | cons i ρ =>
      rw [if_neg (by simp)]
      -- the new table is empty
      cases m with
      | zero => rw [tableAt]
      | succ m => exact tableAt_of_ne_table (by simp [hempty])
  · rw [if_neg (by rintro rfl; exact hτ (List.prefix_refl _))]
    exact tableAt_congr (h.agree hmem hτ)

theorem lookup_link (h : OnlyAt decode mem root (m + 1 + π.length) π g)
    (hmem : ∀ ρ f i, tableAt decode mem root (m + 1 + π.length) ρ = some f →
      ¬ (f = g ∧ i = j) → mem' f i = mem f i)
    (habs : decode m (mem g j) = .absent) (hlink : decode m (mem' g j) = .table new)
    (hempty : ∀ k i, decode k (mem' new i) = .absent) (hτ : τ.length = m + 1 + π.length) :
    lookup decode mem' root τ = lookup decode mem root τ := by
  by_cases hpre : π ++ [j] <+: τ
  · obtain ⟨ρ, rfl⟩ := hpre
    have hlen : (j :: ρ).length = m + 1 := by
      simp at hτ ⊢
      omega
    have hρ : ρ.length = m := by simpa using hlen
    have hπ : tableAt decode mem' root ((j :: ρ).length + π.length) π = some g := by
      rw [hlen, tableAt_congr (h.agree hmem not_concat_prefix), h.1]
    have hπ' : tableAt decode mem root ((j :: ρ).length + π.length) π = some g := by
      rw [hlen, h.1]
    rw [List.append_assoc, List.singleton_append, lookup_append hπ, lookup_append hπ',
      lookup_of_table (by rwa [hρ]), lookup_of_absent (by rwa [hρ]), lookup_of_empty hempty]
  · refine lookup_congr fun π' i ρ f heq hf => h.agree hmem hpre π' i ρ f heq ?_
    rwa [hτ] at hf

/-- Writing to a table of the last level leaves the tables as they are. -/
theorem tableAt_leaf (hleaf : ∀ w f, decode 0 w ≠ .table f)
    (h : OnlyAt decode mem root (1 + π.length) π g)
    (hmem : ∀ ρ f i, tableAt decode mem root (1 + π.length) ρ = some f →
      ¬ (f = g ∧ i = j) → mem' f i = mem f i) (τ : List I) :
    tableAt decode mem' root (1 + π.length) τ = tableAt decode mem root (1 + π.length) τ := by
  by_cases hτ : π ++ [j] <+: τ
  · obtain ⟨ρ, rfl⟩ := hτ
    have hπ : tableAt decode mem' root (1 + π.length) π = some g := by
      rw [tableAt_congr (h.agree hmem not_concat_prefix), h.1]
    have hnone : ∀ (mem'' : F → I → W), tableAt decode mem'' g 1 (j :: ρ) = none :=
      fun mem'' => tableAt_of_ne_table (hleaf _)
    rw [List.append_assoc, tableAt_append hπ, tableAt_append h.1, List.singleton_append, hnone,
      hnone]
  · exact tableAt_congr (h.agree hmem hτ)

theorem lookup_leaf [DecidableEq I] (h : OnlyAt decode mem root (1 + π.length) π g)
    (hmem : ∀ ρ f i, tableAt decode mem root (1 + π.length) ρ = some f →
      ¬ (f = g ∧ i = j) → mem' f i = mem f i) (hτ : τ.length = 1 + π.length) :
    lookup decode mem' root τ =
      if τ = π ++ [j] then lookup decode mem' g [j] else lookup decode mem root τ := by
  by_cases hpre : π ++ [j] <+: τ
  · obtain ⟨ρ, rfl⟩ := hpre
    obtain rfl : ρ = [] := by
      rw [← List.length_eq_zero_iff]
      simp at hτ
      omega
    have hπ : tableAt decode mem' root ([j].length + π.length) π = some g := by
      rw [List.length_singleton, tableAt_congr (h.agree hmem not_concat_prefix), h.1]
    rw [List.append_nil, if_pos rfl, lookup_append hπ]
  · rw [if_neg (by rintro rfl; exact hpre (List.prefix_refl _))]
    refine lookup_congr fun π' i ρ f heq hf => h.agree hmem hpre π' i ρ f heq ?_
    rwa [hτ] at hf

end Write

/-! ### Tables that are linked once -/

variable (decode mem) in
/-- Word `i` of the table `f`, which is a table of the tree, links the table `g`. -/
def Links (root : F) (n : ℕ) (f : F) (i : I) (g : F) : Prop :=
  ∃ π m, n = m + 1 + π.length ∧ tableAt decode mem root n π = some f ∧
    decode m (mem f i) = .table g

/-- A root that no word links stands at no other path. -/
theorem ne_root_of_tableAt {root g : F} {n : ℕ} {π : List I}
    (hroot : ∀ f i, ¬ Links decode mem root n f i root)
    (hg : tableAt decode mem root n π = some g) (hπ : π ≠ []) : g ≠ root := by
  rintro rfl
  induction π using List.reverseRecOn with
  | nil => exact hπ rfl
  | append_singleton π i _ =>
    obtain ⟨f, m, hn, hf, hi⟩ := tableAt_concat.mp hg
    exact hroot f i ⟨π, m, hn, hf, hi⟩

variable (decode mem) in
/-- The condition on the walk along a path: no word links the root, and each
table on the walk is linked by one word only. -/
structure WalkOk (root : F) (n : ℕ) (path : List I) : Prop where
  root_unlinked : ∀ f i, ¬ Links decode mem root n f i root
  once : ∀ π g, π <+: path → π ≠ [] → tableAt decode mem root n π = some g →
    ∀ f i f' i', Links decode mem root n f i g → Links decode mem root n f' i' g →
      f = f' ∧ i = i'

theorem WalkOk.onlyAt {root : F} {n : ℕ} {path : List I} (h : WalkOk decode mem root n path) :
    ∀ {π : List I} {g : F}, π <+: path → tableAt decode mem root n π = some g →
      OnlyAt decode mem root n π g := by
  intro π
  induction π using List.reverseRecOn with
  | nil =>
    intro g _ hg
    obtain rfl : root = g := by simpa using hg
    refine ⟨hg, fun π' hπ' => ?_⟩
    induction π' using List.reverseRecOn with
    | nil => rfl
    | append_singleton π' i _ =>
      obtain ⟨f, m, hn, hf, hi⟩ := tableAt_concat.mp hπ'
      exact absurd ⟨π', m, hn, hf, hi⟩ (h.root_unlinked f i)
  | append_singleton π j ih =>
    intro g hpre hg
    obtain ⟨f, m, hn, hf, hj⟩ := tableAt_concat.mp hg
    have hlinks : Links decode mem root n f j g := ⟨π, m, hn, hf, hj⟩
    refine ⟨hg, fun π' hπ' => ?_⟩
    induction π' using List.reverseRecOn with
    | nil =>
      obtain rfl : root = g := by simpa using hπ'
      exact absurd hlinks (h.root_unlinked f j)
    | append_singleton π' i _ =>
      -- the other path ends in the same link, from the same table
      obtain ⟨f', m', hn', hf', hi⟩ := tableAt_concat.mp hπ'
      obtain ⟨rfl, rfl⟩ := h.once _ g hpre (by simp) hg f j f' i hlinks ⟨π', m', hn', hf', hi⟩
      rw [(ih ((List.prefix_append π [j]).trans hpre) hf).2 π' hf']

theorem walkOk_of_onlyAt {root : F} {n : ℕ} {path : List I}
    (h : ∀ π g, π <+: path → tableAt decode mem root n π = some g →
      OnlyAt decode mem root n π g) : WalkOk decode mem root n path where
  root_unlinked := by
    rintro f i ⟨π, m, hn, hf, hi⟩
    have hroot := (h [] root (List.nil_prefix) (by simp)).2 _
      (tableAt_concat.mpr ⟨f, m, hn, hf, hi⟩)
    simp at hroot
  once := by
    rintro π g hpre - hg f i f' i' ⟨π₁, m₁, hn₁, hf, hi⟩ ⟨π₂, m₂, hn₂, hf', hi'⟩
    have h₁ := (h π g hpre hg).2 _ (tableAt_concat.mpr ⟨f, m₁, hn₁, hf, hi⟩)
    have h₂ := (h π g hpre hg).2 _ (tableAt_concat.mpr ⟨f', m₂, hn₂, hf', hi'⟩)
    obtain ⟨rfl, hii⟩ := List.append_inj' (h₁.trans h₂.symm) rfl
    exact ⟨Option.some.inj (hf.symm.trans hf'), by simpa using hii⟩

end PageTree
