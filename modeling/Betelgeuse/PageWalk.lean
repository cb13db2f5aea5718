/-
Moving the tables of a tree.

`walk` is the whole walk along a full path: some information about each link on it,
the leaf word, and the part of the path that the leaf covers.

`Moves` says that a second memory has the tables of the tree at other places: `ρ k`
gives the new place of a table that stands `k` levels below the root.  The links
follow the tables, and leaves are left as they are.  Then the tables stand at the
same paths, at their new places (`Moves.tableAt_eq`), and no walk is different
(`Moves.walk_eq`).
-/
import Betelgeuse.PageTree

namespace PageTree

/-- Rename the table that an entry links. -/
def Entry.map {F G : Type*} (f : F → G) : Entry F → Entry G
  | .absent => .absent
  | .leaf => .leaf
  | .table g => .table (f g)

variable {F I W A : Type*} (decode : ℕ → W → Entry F) (info : W → A) (mem mem' : F → I → W)

/-- The walk along a full path from the table `f`. -/
def walk : F → List I → Option (List A × W × List I)
  | _, [] => none
  | f, i :: is =>
    match decode is.length (mem f i) with
    | .absent => none
    | .leaf => some ([], mem f i, is)
    | .table g => (walk g is).map fun r => (info (mem f i) :: r.1, r.2)

/-- The tables under `root`, which stands `n` levels high, stand in the second memory
at the places that `ρ` gives. -/
structure Moves (ρ : ℕ → F → F) (root : F) (n : ℕ) : Prop where
  entry : ∀ π g m i, n = m + 1 + π.length → tableAt decode mem root n π = some g →
    decode m (mem' (ρ π.length g) i) = (decode m (mem g i)).map (ρ (π.length + 1))
  link : ∀ π g m i k, n = m + 1 + π.length → tableAt decode mem root n π = some g →
    decode m (mem g i) = .table k → info (mem' (ρ π.length g) i) = info (mem g i)
  leaf : ∀ π g m i, n = m + 1 + π.length → tableAt decode mem root n π = some g →
    decode m (mem g i) = .leaf → mem' (ρ π.length g) i = mem g i

variable {decode info mem mem'}

namespace Moves

variable {ρ : ℕ → F → F} {root g : F} {n : ℕ} {i : I}

/-- The tables under a table that is linked from the root. -/
theorem child (h : Moves decode info mem mem' ρ root (n + 1))
    (hg : decode n (mem root i) = .table g) :
    Moves decode info mem mem' (fun k => ρ (k + 1)) g n := by
  have hpath : ∀ {π k}, tableAt decode mem g n π = some k →
      tableAt decode mem root (n + 1) (i :: π) = some k := fun hk =>
    tableAt_cons_eq_some.mpr ⟨g, hg, hk⟩
  constructor
  · intro π k m j hn hk
    exact h.entry (i :: π) k m j (by rw [hn, List.length_cons]; omega) (hpath hk)
  · intro π k m j l hn hk hl
    exact h.link (i :: π) k m j l (by rw [hn, List.length_cons]; omega) (hpath hk) hl
  · intro π k m j hn hk hl
    exact h.leaf (i :: π) k m j (by rw [hn, List.length_cons]; omega) (hpath hk) hl

/-- The entries of the root. -/
theorem root_entry (h : Moves decode info mem mem' ρ root (n + 1)) (i : I) :
    decode n (mem' (ρ 0 root) i) = (decode n (mem root i)).map (ρ 1) :=
  h.entry [] root n i (by rw [List.length_nil, Nat.add_zero]) (tableAt_nil ..)

theorem tableAt_eq : ∀ {τ : List I} {ρ : ℕ → F → F} {root : F} {n : ℕ},
    Moves decode info mem mem' ρ root n →
      tableAt decode mem' (ρ 0 root) n τ = (tableAt decode mem root n τ).map (ρ τ.length) := by
  intro τ
  induction τ with
  | nil =>
    intro ρ root n _
    rw [tableAt_nil, tableAt_nil, Option.map_some, List.length_nil]
  | cons i τ ih =>
    intro ρ root n h
    cases n with
    | zero =>
      rw [tableAt, tableAt, Option.map_none]
    | succ n =>
      have hroot := h.root_entry i
      rw [tableAt, tableAt, hroot]
      cases hg : decode n (mem root i) with
      | absent => rfl
      | leaf => rfl
      | table g =>
        show tableAt decode mem' (ρ 1 g) n τ = _
        rw [ih (h.child hg)]
        rfl

theorem walk_eq : ∀ {τ : List I} {ρ : ℕ → F → F} {root : F},
    Moves decode info mem mem' ρ root τ.length →
      walk decode info mem' (ρ 0 root) τ = walk decode info mem root τ := by
  intro τ
  induction τ with
  | nil =>
    intro ρ root _
    rw [walk, walk]
  | cons i τ ih =>
    intro ρ root h
    have hlen : (i :: τ).length = τ.length + 1 + ([] : List I).length := rfl
    have hroot := h.root_entry i
    rw [walk, walk, hroot]
    cases hg : decode τ.length (mem root i) with
    | absent => rfl
    | leaf =>
      have hword := h.leaf [] root τ.length i hlen (tableAt_nil ..) hg
      show some ([], mem' (ρ 0 root) i, τ) = some ([], mem root i, τ)
      rw [← hword]
      rfl
    | table g =>
      have hinfo := h.link [] root τ.length i g hlen (tableAt_nil ..) hg
      show (walk decode info mem' (ρ 1 g) τ).map (fun r =>
        (info (mem' (ρ 0 root) i) :: r.1, r.2)) = _
      rw [ih (h.child hg), show info (mem' (ρ 0 root) i) = info (mem root i) from hinfo]

end Moves

end PageTree
