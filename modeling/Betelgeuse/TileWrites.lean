/-
A memory that is written one tile after the other.

`store m ws` is the memory behind a list of writes.  The places of a memory are arranged in
tiles: `place k o` is the place with the offset `o` in the tile `k`, and no two of them are
the same.  `Draws` says that a list of writes fills one tile with a drawing.  Behind any number
of these the memory is known from the last drawing of each tile (`Displays`), whatever the order
of the writes to a tile is (`Displays.put`).
-/
import Mathlib.Data.Set.Function
import Mathlib.Logic.Function.Basic

namespace TileWrites

variable {α β : Type*} [DecidableEq α]

/-- The memory behind the writes. -/
def store (m : α → β) : List (α × β) → α → β
  | [] => m
  | w :: ws => store (Function.update m w.1 w.2) ws

variable {m : α → β} {ws : List (α × β)} {a : α} {b : β}

theorem store_of_notMem (h : ∀ w ∈ ws, w.1 ≠ a) : store m ws a = m a := by
  induction ws generalizing m with
  | nil => rfl
  | cons w ws ih =>
    rw [store, ih fun w' hw' => h w' (List.mem_cons_of_mem w hw')]
    exact Function.update_of_ne (h w List.mem_cons_self).symm _ _

/-- A place that is written with one value only. -/
theorem store_of_mem (h : (a, b) ∈ ws) (hval : ∀ w ∈ ws, w.1 = a → w.2 = b) :
    store m ws a = b := by
  induction ws generalizing m with
  | nil => exact absurd h List.not_mem_nil
  | cons w ws ih =>
    have hval' : ∀ w' ∈ ws, w'.1 = a → w'.2 = b :=
      fun w' hw' => hval w' (List.mem_cons_of_mem w hw')
    by_cases hrest : (a, b) ∈ ws
    · exact ih hrest hval'
    · have hone : w = (a, b) := ((List.mem_cons.mp h).resolve_right hrest).symm
      have hnone : ∀ w' ∈ ws, w'.1 ≠ a := fun w' hw' heq =>
        hrest (by rwa [← heq, ← hval' w' hw' heq])
      rw [store, store_of_notMem hnone, hone]
      exact Function.update_self a b m

variable {K O G : Type*} {place : K → O → α} {P : K → Prop} {Q : O → Prop} {draw : G → O → β}

/-- The writes fill the tile `k` with a drawing. -/
structure Draws (place : K → O → α) (Q : O → Prop) (k : K) (v : O → β) (ws : List (α × β)) :
    Prop where
  all : ∀ o, Q o → (place k o, v o) ∈ ws
  only : ∀ w ∈ ws, ∃ o, Q o ∧ w = (place k o, v o)

/-- Different offsets and different tiles have different places. -/
def Injective (place : K → O → α) (P : K → Prop) (Q : O → Prop) : Prop :=
  ∀ k o k' o', P k → Q o → P k' → Q o' → place k o = place k' o' → k = k' ∧ o = o'

/-- The memory `m` displays the drawings `tiles` in front of `m₀`. -/
structure Displays (place : K → O → α) (P : K → Prop) (Q : O → Prop) (draw : G → O → β)
    (m₀ m : α → β) (tiles : K → Option G) : Prop where
  tile : ∀ k o, P k → Q o →
    m (place k o) = (tiles k).elim (m₀ (place k o)) fun g => draw g o
  other : ∀ a, (∀ k o, P k → Q o → place k o ≠ a) → m a = m₀ a

omit [DecidableEq α] in
theorem Displays.blank (m₀ : α → β) : Displays place P Q draw m₀ m₀ fun _ => none :=
  ⟨fun _ _ _ _ => rfl, fun _ _ => rfl⟩

/-- A drawing of one tile leaves the others as they are. -/
theorem Displays.put [DecidableEq K] {m₀ : α → β} {tiles : K → Option G} {k : K} {g : G}
    (h : Displays place P Q draw m₀ m tiles) (hinj : Injective place P Q) (hk : P k)
    (hdraws : Draws place Q k (draw g) ws) :
    Displays place P Q draw m₀ (store m ws) (Function.update tiles k (some g)) := by
  constructor
  · intro k' o' hk' ho'
    by_cases heq : k' = k
    · subst heq
      rw [Function.update_self, Option.elim_some]
      refine store_of_mem (hdraws.all o' ho') fun w hw hplace => ?_
      obtain ⟨o, ho, rfl⟩ := hdraws.only w hw
      rw [(hinj k' o k' o' hk ho hk ho' hplace).2]
    · rw [Function.update_of_ne heq, ← h.tile k' o' hk' ho']
      refine store_of_notMem fun w hw hplace => ?_
      obtain ⟨o, ho, rfl⟩ := hdraws.only w hw
      exact heq (hinj k o k' o' hk ho hk' ho' hplace).1.symm
  · intro a ha
    rw [← h.other a ha]
    refine store_of_notMem fun w hw => ?_
    obtain ⟨o, ho, rfl⟩ := hdraws.only w hw
    exact ha k o hk ho

end TileWrites
