/-
The levels of a tree of tables.

A write to a table that several entries link shows at all of their paths.  Where it
does not matter which path leads to a table, but only how far below the root the
table stands, the levels are enough: `Levels n back L` says that `L k` has the tables
`k` levels below the root, for the `n` levels that link, and that no table stands on
two levels.  An entry with `back` may lead back up; the levels do not follow it.

* `Levels.tableAt` — every table of the tree is on one of the levels;
* `Levels.linked` — those of them that are in the tree are levels, too;
* `Levels.congr` — a write that changes no link keeps them;
* `Levels.link` — a new, empty table comes to the level below its link.
-/
import Betelgeuse.PageTree
import Mathlib.Data.Set.Insert

namespace PageTree

variable {F I W : Type*} (decode : ℕ → W → Entry F) (mem mem' : F → I → W)

/-- The tables by their level; an entry with `back` leads to its own level or one
above. -/
structure Levels (n : ℕ) (back : F → I → Prop) (L : ℕ → Set F) : Prop where
  down : ∀ k m f i g, k < n → f ∈ L k → ¬ back f i → decode m (mem f i) = .table g → g ∈ L (k + 1)
  up : ∀ k m f i g, k < n → f ∈ L k → back f i → decode m (mem f i) = .table g →
    ∃ k' ≤ k, g ∈ L k'
  apart : ∀ k k' f, k ≤ n → k' ≤ n → f ∈ L k → f ∈ L k' → k = k'

variable {decode mem mem'} {n k : ℕ} {back : F → I → Prop} {L : ℕ → Set F} {f g root new : F}
  {j : I}

namespace Levels

/-- A table at the end of a path is not lower than the path is long. -/
theorem tableAt (h : Levels decode mem n back L) (hroot : root ∈ L 0) :
    ∀ {π : List I} {g : F} {N : ℕ}, PageTree.tableAt decode mem root N π = some g → π.length ≤ n →
      ∃ k ≤ π.length, g ∈ L k := by
  intro π
  induction π using List.reverseRecOn with
  | nil =>
    intro g N hg _
    obtain rfl : root = g := by simpa using hg
    exact ⟨0, le_rfl, hroot⟩
  | append_singleton π i ih =>
    intro g N hg hπ
    rw [List.length_append, List.length_singleton] at hπ ⊢
    obtain ⟨f, m, -, hf, hlink⟩ := tableAt_concat.mp hg
    obtain ⟨k, hk, hfk⟩ := ih hf (by omega)
    by_cases hback : back f i
    · obtain ⟨k', hk', hgk⟩ := h.up k m f i g (by omega) hfk hback hlink
      exact ⟨k', by omega, hgk⟩
    · exact ⟨k + 1, by omega, h.down k m f i g (by omega) hfk hback hlink⟩

/-- Where no entry leads back, a table stands exactly as low as its paths are long. -/
theorem mem_of_tableAt (h : Levels decode mem n back L) (hback : ∀ f i, ¬ back f i)
    (hroot : root ∈ L 0) : ∀ {π : List I} {g : F} {N : ℕ},
      PageTree.tableAt decode mem root N π = some g → π.length ≤ n → g ∈ L π.length := by
  intro π
  induction π using List.reverseRecOn with
  | nil =>
    intro g N hg _
    obtain rfl : root = g := by simpa using hg
    exact hroot
  | append_singleton π i ih =>
    intro g N hg hπ
    rw [List.length_append, List.length_singleton] at hπ ⊢
    obtain ⟨f, m, -, hf, hlink⟩ := tableAt_concat.mp hg
    exact h.down π.length m f i g (by omega) (ih hf (by omega)) (hback f i) hlink

theorem congr (h : Levels decode mem n back L)
    (hmem : ∀ k f i m, k < n → f ∈ L k → decode m (mem' f i) = decode m (mem f i)) :
    Levels decode mem' n back L where
  down k m f i g hk hf hback hlink :=
    h.down k m f i g hk hf hback ((hmem k f i m hk hf).symm.trans hlink)
  up k m f i g hk hf hback hlink :=
    h.up k m f i g hk hf hback ((hmem k f i m hk hf).symm.trans hlink)
  apart := h.apart

/-- The levels with a new table on one of them. -/
def add (L : ℕ → Set F) (k : ℕ) (new : F) : ℕ → Set F := fun k' => {g | g ∈ L k' ∨ k' = k ∧ g = new}

theorem subset_add (k k' : ℕ) : L k' ⊆ add L k new k' := fun _ h => .inl h

theorem mem_add_self (k : ℕ) : new ∈ add L k new k := .inr ⟨rfl, rfl⟩

/-- Linking an empty table adds it to the level below. -/
theorem link (h : Levels decode mem n back L) (hk : k < n) (hf : f ∈ L k) (hback : ¬ back f j)
    (hnew : ∀ k' ≤ n, new ∉ L k') (hempty : ∀ i m g, decode m (mem' new i) ≠ .table g)
    (hlink : ∀ m g, decode m (mem' f j) = .table g → g = new)
    (hrest : ∀ k' f' i m, k' < n → f' ∈ L k' → ¬ (f' = f ∧ i = j) →
      decode m (mem' f' i) = decode m (mem f' i)) :
    Levels decode mem' n back (add L (k + 1) new) where
  down k' m f' i g hk' hf' hback' hg := by
    -- a new link goes to the new table, and the new table has none
    rcases hf' with hf' | ⟨-, rfl⟩
    · by_cases heq : f' = f ∧ i = j
      · obtain ⟨rfl, rfl⟩ := heq
        obtain rfl := h.apart k k' f' hk.le hk'.le hf hf'
        rw [hlink m g hg]
        exact mem_add_self _
      · rw [hrest k' f' i m hk' hf' heq] at hg
        exact subset_add _ _ (h.down k' m f' i g hk' hf' hback' hg)
    · exact absurd hg (hempty i m g)
  up k' m f' i g hk' hf' hback' hg := by
    rcases hf' with hf' | ⟨-, rfl⟩
    · have heq : ¬ (f' = f ∧ i = j) := by
        rintro ⟨rfl, rfl⟩
        exact hback hback'
      rw [hrest k' f' i m hk' hf' heq] at hg
      obtain ⟨k'', hle, hgk⟩ := h.up k' m f' i g hk' hf' hback' hg
      exact ⟨k'', hle, subset_add _ _ hgk⟩
    · exact absurd hg (hempty i m g)
  apart k₁ k₂ f' hk₁ hk₂ h₁ h₂ := by
    rcases h₁ with h₁ | ⟨rfl, rfl⟩
    · rcases h₂ with h₂ | ⟨-, rfl⟩
      · exact h.apart k₁ k₂ f' hk₁ hk₂ h₁ h₂
      · exact absurd h₁ (hnew k₁ hk₁)
    · rcases h₂ with h₂ | ⟨rfl, -⟩
      · exact absurd h₂ (hnew k₂ hk₂)
      · rfl

/-- The tables that are linked are levels themselves, if there are any. -/
theorem linked (h : Levels decode mem n back L) (hback : ∀ f i, ¬ back f i) (hroot : root ∈ L 0)
    (hdecode : ∀ m m' w g, m' ≠ 0 → decode m w = .table g → decode m' w = .table g) :
    Levels decode mem n back
      fun k => {f | ∃ π : List I, π.length = k ∧
        PageTree.tableAt decode mem root (n + 1) π = some f} where
  down k m f i g hk hf _ hlink := by
    obtain ⟨π, rfl, hf⟩ := hf
    refine ⟨π ++ [i], by rw [List.length_append, List.length_singleton], ?_⟩
    exact tableAt_concat.mpr ⟨f, n - π.length, by omega, hf, hdecode m _ _ g (by omega) hlink⟩
  up k m f i g _ _ hb _ := absurd hb (hback f i)
  apart k k' f hk hk' hf hf' := by
    obtain ⟨π, rfl, hf⟩ := hf
    obtain ⟨π', rfl, hf'⟩ := hf'
    exact h.apart _ _ f hk hk' (h.mem_of_tableAt hback hroot hf hk)
      (h.mem_of_tableAt hback hroot hf' hk')

end Levels

end PageTree
