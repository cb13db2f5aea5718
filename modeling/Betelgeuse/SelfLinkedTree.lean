/-
Trees of tables whose root links itself.

A path may take such a link any number of times (`tableAt_selfLink`).  A decoding is `Uniform` if
a word that links a table does so at every height, and is a leaf where nothing can be linked.
Then a path that leads to a table, walked from as low as it is long, ends in a leaf that is the
link to this table (`lookup_of_tableAt`).  Both together give every table of the tree a full path
that ends in it: the path to the table, behind as many self links as are missing
(`lookup_selfLink`).
-/
import Betelgeuse.PageTree

namespace PageTree

variable {F I W : Type*} {decode : ℕ → W → Entry F} {mem : F → I → W}

/-- What links a table does so at every height, and is a leaf at the end of a path. -/
structure Uniform (decode : ℕ → W → Entry F) : Prop where
  table : ∀ {m n w g}, decode (m + 1) w = .table g → decode (n + 1) w = .table g
  leaf : ∀ {m w g}, decode (m + 1) w = .table g → decode 0 w = .leaf
  last : ∀ {w g}, decode 0 w ≠ .table g

section Uniform

variable {f g root : F} {i j : I} {π : List I} {m n : ℕ}

/-- Where a path leads does not depend on the height it starts from. -/
theorem Uniform.tableAt (hdecode : Uniform decode) (h : tableAt decode mem f m π = some g)
    (hn : π.length < n) : PageTree.tableAt decode mem f n π = some g := by
  induction π generalizing f m n with
  | nil =>
    rw [tableAt_nil] at h ⊢
    exact h
  | cons i π ih =>
    obtain ⟨n, rfl⟩ := Nat.exists_eq_add_of_lt hn
    cases m with
    | zero =>
      rw [PageTree.tableAt] at h
      cases h
    | succ m =>
      obtain ⟨k, hk, h⟩ := tableAt_cons_eq_some.mp h
      refine tableAt_cons_eq_some.mpr ⟨k, ?_, ih h (by rw [List.length_cons]; omega)⟩
      cases m with
      | zero => exact absurd hk hdecode.last
      | succ m =>
        rw [List.length_cons, Nat.add_right_comm]
        exact hdecode.table hk

/-- A path to a table, walked from as low as it is long, ends in the link to the table. -/
theorem lookup_of_tableAt (hdecode : Uniform decode)
    (h : tableAt decode mem f m (i :: π) = some g) :
    ∃ w, lookup decode mem f (i :: π) = some (w, []) ∧ decode 1 w = .table g := by
  induction π generalizing i f m with
  | nil =>
    obtain ⟨k, hk, h⟩ := tableAt_cons_eq_some.mp (hdecode.tableAt h (Nat.lt_succ_self 1))
    obtain rfl : k = g := by simpa using h
    exact ⟨mem f i, lookup_of_leaf (hdecode.leaf hk), hk⟩
  | cons j π ih =>
    obtain ⟨k, hk, h⟩ := tableAt_cons_eq_some.mp
      (hdecode.tableAt h (Nat.lt_succ_self (π.length + 2)))
    obtain ⟨w, hw, hg⟩ := ih h
    exact ⟨w, by rw [lookup_of_table (hdecode.table hk), hw], hg⟩

theorem tableAt_selfLink (hdecode : Uniform decode) (hself : decode 1 (mem root j) = .table root)
    (h : tableAt decode mem root m π = some g) (k : ℕ) :
    ∃ n, tableAt decode mem root n (List.replicate k j ++ π) = some g := by
  induction k with
  | zero => exact ⟨m, h⟩
  | succ k ih =>
    obtain ⟨n, hn⟩ := ih
    refine ⟨(List.replicate k j ++ π).length + 1 + 1, tableAt_cons_eq_some.mpr ⟨root, ?_, ?_⟩⟩
    · exact hdecode.table hself
    · exact hdecode.tableAt hn (Nat.lt_succ_self _)

/-- Every table stands at the end of a full path. -/
theorem lookup_selfLink (hdecode : Uniform decode) (hself : decode 1 (mem root j) = .table root)
    (h : tableAt decode mem root m π = some g) (k : ℕ) :
    ∃ w, lookup decode mem root (List.replicate (k + 1) j ++ π) = some (w, []) ∧
      decode 1 w = .table g := by
  obtain ⟨n, hn⟩ := tableAt_selfLink hdecode hself h (k + 1)
  exact lookup_of_tableAt hdecode hn

end Uniform

end PageTree
