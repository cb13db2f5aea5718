/-
Loops that count from 0 to `n`.

A loop is a left fold over `List.range n`.  `foldl_range_induction` is its
invariant rule; `foldl_update_range` is the loop that overwrites one place of a
function in each round, where each new value depends on places that the loop has
not reached.  What a loop that counts has found is `Nat.count`; `iff_lt_count` is about a
predicate that holds of a prefix of the numbers.
-/
import Mathlib.Data.Nat.Count
import Mathlib.Logic.Function.Basic
import Mathlib.Tactic.Common

namespace RangeLoop

/-- What holds before the loop and is preserved by each round holds after it. -/
theorem foldl_range_induction {S : Type*} {f : S → ℕ → S} {n : ℕ} {s : S} (P : ℕ → S → Prop)
    (zero : P 0 s) (step : ∀ i t, i < n → P i t → P (i + 1) (f t i)) :
    P n ((List.range n).foldl f s) := by
  have hprefix : ∀ m ≤ n, P m ((List.range m).foldl f s) := by
    intro m
    induction m with
    | zero => exact fun _ => zero
    | succ m ih =>
      intro hm
      rw [List.range_succ, List.foldl_append, List.foldl_cons, List.foldl_nil]
      exact step m _ (by omega) (ih (by omega))
  exact hprefix n (Nat.le_refl n)

/-- A loop that writes `value i`, computed from the places `g` so far, to `place i`.
If no value depends on a place that was written before, all values are computed
from the places as they were in the beginning. -/
theorem foldl_update_range {A V : Type*} [DecidableEq A] {n : ℕ} {place : ℕ → A}
    (value : (A → V) → ℕ → V) {g : A → V}
    (hplace : ∀ i < n, ∀ j < n, place i = place j → i = j)
    (hvalue : ∀ i < n, ∀ g', (∀ a, (∀ j < i, a ≠ place j) → g' a = g a) →
      value g' i = value g i) :
    (∀ i < n, (List.range n).foldl (fun g i => Function.update g (place i) (value g i))
      g (place i) =
        value g i) ∧
      ∀ a, (∀ i < n, a ≠ place i) →
        (List.range n).foldl (fun g i => Function.update g (place i) (value g i)) g a = g a := by
  refine foldl_range_induction
    (fun m (g' : A → V) => (∀ i < m, g' (place i) = value g i) ∧
      ∀ a, (∀ i < m, a ≠ place i) → g' a = g a) ⟨?_, ?_⟩ ?_
  · exact fun i hi => absurd hi (Nat.not_lt_zero i)
  · exact fun a _ => rfl
  · rintro m g' hm ⟨hdone, hrest⟩
    constructor
    · intro i hi
      by_cases him : i = m
      · subst him
        rw [Function.update_self]
        exact hvalue i hm g' fun a ha => hrest a ha
      · rw [Function.update_of_ne fun heq => him (hplace i (by omega) m hm heq)]
        exact hdone i (by omega)
    · intro a ha
      rw [Function.update_of_ne (ha m (by omega))]
      exact hrest a fun i hi => ha i (by omega)

section Count

variable {p : ℕ → Prop} [DecidablePred p] {n m : ℕ}

/-- Only numbers below `m` are counted: there are at most `m`, and if there are `m`, then
all of these. -/
theorem count_of_lt (h : ∀ i < n, p i → i < m) :
    Nat.count p n ≤ m ∧ (m ≤ Nat.count p n → ∀ i < m, p i) := by
  have hsub : {i ∈ Finset.range n | p i} ⊆ Finset.range m := by
    intro i hi
    rw [Finset.mem_filter, Finset.mem_range] at hi
    exact Finset.mem_range.mpr (h i hi.1 hi.2)
  rw [Nat.count_eq_card_filter_range]
  constructor
  · have hle := Finset.card_le_card hsub
    rwa [Finset.card_range] at hle
  · intro hm i hi
    have heq := Finset.eq_of_subset_of_card_le hsub (by rwa [Finset.card_range])
    have hin := Finset.mem_range.mpr hi
    rw [← heq, Finset.mem_filter] at hin
    exact hin.2

/-- If all numbers below the count are counted, then no others. -/
theorem lt_count (h : ∀ i < Nat.count p n, p i) {i : ℕ} (hi : i < n) (hp : p i) :
    i < Nat.count p n := by
  have hle := Nat.count_le (p := p) (n := n)
  rw [Nat.count_eq_card_filter_range] at hle h ⊢
  have hsub : Finset.range ({i ∈ Finset.range n | p i} : Finset ℕ).card ⊆
      {i ∈ Finset.range n | p i} := by
    intro j hj
    have hj := Finset.mem_range.mp hj
    exact Finset.mem_filter.mpr ⟨Finset.mem_range.mpr (by omega), h j hj⟩
  have heq := Finset.eq_of_subset_of_card_le hsub (by rw [Finset.card_range])
  rw [← Finset.mem_range, heq]
  exact Finset.mem_filter.mpr ⟨Finset.mem_range.mpr hi, hp⟩

/-- A predicate that holds of a prefix of the numbers below `n` holds of as many as there
are in front of its end. -/
theorem iff_lt_count (h : ∀ i j, i ≤ j → j < n → p j → p i) {i : ℕ} (hi : i < n) :
    p i ↔ i < Nat.count p n := by
  have hle := Nat.count_le (p := p) (n := n)
  have hbelow : ∀ i < Nat.count p n, p i := by
    intro i hi
    by_contra hno
    have hcount := (count_of_lt (m := i) fun j hj hp => by
      by_contra hge
      exact hno (h i j (by omega) hj hp)).1
    omega
  exact ⟨lt_count hbelow hi, hbelow i⟩

end Count

end RangeLoop
