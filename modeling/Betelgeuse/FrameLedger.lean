/-
Who has which frame.

A `Ledger` is an account of frames: those that are free, those that pages use, and those
that are in somebody's hand on the way from one to the other.  Several pages can be `same`
for the purposes of the account.  `Move` has the moves that are allowed, in which frames
may also be lost.

A ledger is `Sound` when every frame is free, or in a hand, or used by one page, and never
two of these.  Moves keep that (`Moves.sound`), and none of them brings a frame back that
has been lost or is in use: what is free or in a hand was so before (`Moves.shrinks`).
-/
import Mathlib.Data.Set.Card
import Mathlib.Logic.Relation

namespace FrameLedger

variable {F P : Type*}

/-- The frames that are free, the frames that pages use, and those in a hand. -/
structure Ledger (F P : Type*) where
  free : Set F
  use : P → Option F
  hand : Set F

/-- The page `p` uses `entry` from now on, and the other pages what they used before. -/
structure Changes (same : P → P → Prop) (use use' : P → Option F) (p : P) (entry : Option F) :
    Prop where
  at_page : ∀ q, same p q → use' q = entry
  others : ∀ q, ¬ same p q → use' q = use q

/-- A move of frames. -/
inductive Move (same : P → P → Prop) : Ledger F P → Ledger F P → Prop
  | take {free use hand f} : f ∈ free →
    Move same ⟨free, use, hand⟩ ⟨free \ {f}, use, insert f hand⟩
  | putBack {free use hand f} : f ∈ hand →
    Move same ⟨free, use, hand⟩ ⟨insert f free, use, hand \ {f}⟩
  | map {free use use' hand p f} : f ∈ hand → use p = none → Changes same use use' p (some f) →
    Move same ⟨free, use, hand⟩ ⟨free, use', hand \ {f}⟩
  | unmap {free use use' hand p} : Changes same use use' p none →
    Move same ⟨free, use, hand⟩ ⟨free, use', hand⟩
  | lose {free free' use hand hand'} : free' ⊆ free → hand' ⊆ hand →
    Move same ⟨free, use, hand⟩ ⟨free', use, hand'⟩

/-- Any number of moves. -/
abbrev Moves (same : P → P → Prop) : Ledger F P → Ledger F P → Prop :=
  Relation.ReflTransGen (Move same)

/-- Every frame is accounted for once. -/
structure Sound (same : P → P → Prop) (l : Ledger F P) : Prop where
  alone : ∀ p q f, l.use p = some f → l.use q = some f → same p q
  use_free : ∀ p f, l.use p = some f → f ∉ l.free
  hand_free : ∀ f ∈ l.hand, f ∉ l.free
  hand_use : ∀ f ∈ l.hand, ∀ p, l.use p ≠ some f

section Moves

variable {same : P → P → Prop} {l l' l'' : Ledger F P}

theorem Changes.of_some {use use' : P → Option F} {p q : P} {entry : Option F} {f : F}
    (h : Changes same use use' p entry) (hq : use' q = some f) :
    same p q ∧ entry = some f ∨ ¬ same p q ∧ use q = some f := by
  by_cases hsame : same p q
  · exact .inl ⟨hsame, (h.at_page q hsame).symm.trans hq⟩
  · exact .inr ⟨hsame, (h.others q hsame).symm.trans hq⟩

theorem Move.sound (hsame : Equivalence same) (h : Move same l l') (hl : Sound same l) :
    Sound same l' := by
  cases h with
  | @take free use hand f hf =>
    refine ⟨hl.alone, fun p g hg hfree => hl.use_free p g hg hfree.1, ?_, ?_⟩
    · rintro g (rfl | hg) hfree
      · exact hfree.2 rfl
      · exact hl.hand_free g hg hfree.1
    · rintro g (rfl | hg) p hp
      · exact hl.use_free p g hp hf
      · exact hl.hand_use g hg p hp
  | @putBack free use hand f hf =>
    refine ⟨hl.alone, ?_, ?_, fun g hg => hl.hand_use g hg.1⟩
    · rintro p g hp (rfl | hfree)
      · exact hl.hand_use g hf p hp
      · exact hl.use_free p g hp hfree
    · rintro g hg (rfl | hfree)
      · exact hg.2 rfl
      · exact hl.hand_free g hg.1 hfree
  | @map free use use' hand p f hf _ hchange =>
    refine ⟨?_, ?_, fun g hg => hl.hand_free g hg.1, ?_⟩
    · intro q r g hq hr
      -- the frame of the page was in a hand, so no other page has it
      rcases hchange.of_some hq with ⟨hpq, hfg⟩ | ⟨-, hq⟩
      · rcases hchange.of_some hr with ⟨hpr, -⟩ | ⟨-, hr⟩
        · exact hsame.trans (hsame.symm hpq) hpr
        · exact absurd (hr.trans hfg.symm) (hl.hand_use f hf r)
      · rcases hchange.of_some hr with ⟨-, hfg⟩ | ⟨-, hr⟩
        · exact absurd (hq.trans hfg.symm) (hl.hand_use f hf q)
        · exact hl.alone q r g hq hr
    · intro q g hq
      rcases hchange.of_some hq with ⟨-, hfg⟩ | ⟨-, hq⟩
      · obtain rfl := Option.some.inj hfg
        exact hl.hand_free f hf
      · exact hl.use_free q g hq
    · intro g hg q hq
      rcases hchange.of_some hq with ⟨-, hfg⟩ | ⟨-, hq⟩
      · exact hg.2 (Option.some.inj hfg).symm
      · exact hl.hand_use g hg.1 q hq
  | @unmap free use use' hand p hchange =>
    have hkept : ∀ q g, use' q = some g → use q = some g := by
      intro q g hq
      rcases hchange.of_some hq with ⟨-, hnone⟩ | ⟨-, hq⟩
      · cases hnone
      · exact hq
    exact ⟨fun q r g hq hr => hl.alone q r g (hkept q g hq) (hkept r g hr),
      fun q g hq => hl.use_free q g (hkept q g hq), hl.hand_free,
      fun g hg q hq => hl.hand_use g hg q (hkept q g hq)⟩
  | @lose free free' use hand hand' hfree hhand =>
    exact ⟨hl.alone, fun p f hp hf => hl.use_free p f hp (hfree hf),
      fun f hf hf' => hl.hand_free f (hhand hf) (hfree hf'), fun f hf => hl.hand_use f (hhand hf)⟩

theorem Moves.sound (hsame : Equivalence same) (h : Moves same l l') (hl : Sound same l) :
    Sound same l' := by
  induction h with
  | refl => exact hl
  | tail _ hmove ih => exact hmove.sound hsame ih

theorem Move.shrinks (h : Move same l l') : l'.free ∪ l'.hand ⊆ l.free ∪ l.hand := by
  cases h with
  | take hf =>
    rintro g (hg | rfl | hg)
    · exact .inl hg.1
    · exact .inl hf
    · exact .inr hg
  | putBack hf =>
    rintro g ((rfl | hg) | hg)
    · exact .inr hf
    · exact .inl hg
    · exact .inr hg.1
  | map => exact Set.union_subset_union_right _ Set.sdiff_subset
  | unmap => exact subset_rfl
  | lose hfree hhand => exact Set.union_subset_union hfree hhand

theorem Moves.shrinks (h : Moves same l l') : l'.free ∪ l'.hand ⊆ l.free ∪ l.hand := by
  induction h with
  | refl => exact subset_rfl
  | tail _ hmove ih => exact hmove.shrinks.trans ih

end Moves

/-! ### What is spent -/

/-- On the way from the free frames `A` to the free frames `B` at least `k` are spent. -/
def Spends (k : ℕ) (A B : Set F) : Prop :=
  ∃ spent : Finset F, spent.card = k ∧ ↑spent ⊆ A ∧ B ⊆ A \ ↑spent

section Spends

variable {A B C : Set F} {k n : ℕ}

theorem spends_zero (h : B ⊆ A) : Spends 0 A B := ⟨∅, rfl, by simp, by simpa using h⟩

/-- A free frame that is not free any more. -/
theorem spends_one {f : F} (hf : f ∈ A) (h : B ⊆ A \ {f}) : Spends 1 A B :=
  ⟨{f}, rfl, by simpa using hf, by simpa using h⟩

theorem Spends.trans [DecidableEq F] (h : Spends k A B) (h' : Spends n B C) :
    Spends (k + n) A C := by
  obtain ⟨spent, rfl, hA, hB⟩ := h
  obtain ⟨spent', rfl, hB', hC⟩ := h'
  have hdisjoint : Disjoint spent spent' := by
    rw [Finset.disjoint_left]
    exact fun f hf hf' => (hB (hB' hf')).2 hf
  refine ⟨spent ∪ spent', Finset.card_union_of_disjoint hdisjoint, ?_, ?_⟩
  · intro f hf
    rcases Finset.mem_union.mp hf with hf | hf
    · exact hA hf
    · exact (hB (hB' hf)).1
  · intro f hf
    obtain ⟨hfB, hf'⟩ := hC hf
    obtain ⟨hfA, hf⟩ := hB hfB
    exact ⟨hfA, fun hmem => (Finset.mem_union.mp hmem).elim hf hf'⟩

theorem Spends.le_ncard (h : Spends k A B) (hA : A.Finite) : k ≤ A.ncard := by
  obtain ⟨spent, rfl, hsub, -⟩ := h
  rw [← Set.ncard_coe_finset]
  exact Set.ncard_le_ncard hsub hA

end Spends

end FrameLedger
