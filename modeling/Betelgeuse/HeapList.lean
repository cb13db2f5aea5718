/-
Singly linked lists in a heap.

A heap of nodes is seen through its links alone: a head pointer `first` and
the pointer `next k` stored in node `k`.  `Heap.Holds h l` says that following
the links from the head visits exactly the nodes `l` and ends at the null
pointer; such a list never repeats a node (`Heap.Holds.nodup`).

* `Cell` — a place that holds a pointer (the head, or the link of a node), as
  code that edits a list through a pointer to a pointer uses it;
* `seek` — the walk "while there is a next node and the guard holds, move on";
  `seek_spec` says where it stops;
* `Holds.insert_after`, `Holds.unlink_after`, `Holds.unlink_first` — the
  effect of the usual link updates on the list of nodes.
-/
import Mathlib.Data.List.Chain
import Mathlib.Data.Fintype.Card
import Mathlib.Logic.Function.Basic

namespace HeapList

variable {κ : Type*}

/-- Following `next` from the pointer `p` visits exactly `l`, in order, and
ends at the null pointer. -/
def Linked (next : κ → Option κ) : Option κ → List κ → Prop
  | p, [] => p = none
  | p, k :: l => p = some k ∧ Linked next (next k) l

theorem Linked.head?_eq {next : κ → Option κ} {p : Option κ} {l : List κ}
    (h : Linked next p l) : p = l.head? := by
  cases l with
  | nil => exact h
  | cons k l => exact h.1

theorem Linked.unique {next : κ → Option κ} : ∀ {p : Option κ} {l l' : List κ},
    Linked next p l → Linked next p l' → l = l' := by
  intro p l
  induction l generalizing p with
  | nil =>
    intro l' h h'
    have hp : p = none := h
    rw [h'.head?_eq] at hp
    exact (List.head?_eq_none_iff.mp hp).symm
  | cons k l ih =>
    intro l' h h'
    cases l' with
    | nil => exact absurd (h.1.symm.trans h') (by simp)
    | cons k' l' =>
      obtain rfl : k = k' := Option.some.inj (h.1.symm.trans h'.1)
      rw [ih h.2 h'.2]

/-- The list from a node that is on the list. -/
theorem Linked.drop {next : κ → Option κ} : ∀ {pre : List κ} {p : Option κ} {l : List κ},
    Linked next p (pre ++ l) → ∃ q, Linked next q l := by
  intro pre
  induction pre with
  | nil => exact fun h => ⟨_, h⟩
  | cons k pre ih => exact fun h => ih h.2

theorem Linked.next_eq {next : κ → Option κ} {pre post : List κ} {p : Option κ} {k : κ}
    (h : Linked next p (pre ++ k :: post)) : next k = post.head? := by
  obtain ⟨q, hq⟩ := h.drop
  exact hq.2.head?_eq

theorem Linked.nodup {next : κ → Option κ} : ∀ {p : Option κ} {l : List κ},
    Linked next p l → l.Nodup := by
  intro p l
  induction l generalizing p with
  | nil => exact fun _ => List.nodup_nil
  | cons k l ih =>
    intro h
    refine List.nodup_cons.mpr ⟨fun hk => ?_, ih h.2⟩
    -- a second visit to `k` would be followed by the same list again
    obtain ⟨a, b, rfl⟩ := List.append_of_mem hk
    have h' : Linked next p ((k :: a) ++ k :: b) := h
    obtain ⟨q, hq⟩ := h'.drop
    have hlen := congrArg List.length (h.2.unique hq.2)
    simp at hlen
    omega

theorem Linked.congr {next next' : κ → Option κ} : ∀ {p : Option κ} {l : List κ},
    Linked next p l → (∀ k ∈ l, next' k = next k) → Linked next' p l := by
  intro p l
  induction l generalizing p with
  | nil => exact fun h _ => h
  | cons k l ih =>
    intro h hn
    refine ⟨h.1, ?_⟩
    rw [hn k (by simp)]
    exact ih h.2 fun j hj => hn j (by simp [hj])

/-- Links of the nodes before a place do not depend on what follows it. -/
theorem Linked.replace_tail {next next' : κ → Option κ} :
    ∀ {pre : List κ} {p : Option κ} {t : κ} {post post' : List κ},
      Linked next p (pre ++ t :: post) → (∀ k ∈ pre, next' k = next k) →
      Linked next' (next' t) post' → Linked next' p (pre ++ t :: post') := by
  intro pre
  induction pre with
  | nil => exact fun h _ ht => ⟨h.1, ht⟩
  | cons k pre ih =>
    intro p t post post' h hn ht
    refine ⟨h.1, ?_⟩
    rw [hn k (by simp)]
    exact ih h.2 (fun j hj => hn j (by simp [hj])) ht

/-- The links of a heap of nodes. -/
structure Heap (κ : Type*) where
  /-- the head pointer -/
  first : Option κ
  /-- the pointer stored in a node -/
  next : κ → Option κ

/-- A place that holds a pointer to a node. -/
inductive Cell (κ : Type*) where
  | first
  | next (k : κ)
  deriving DecidableEq

namespace Heap

variable (h : Heap κ)

/-- The pointer a cell holds. -/
def read : Cell κ → Option κ
  | .first => h.first
  | .next k => h.next k

@[simp] theorem read_first : h.read .first = h.first := rfl

@[simp] theorem read_next (k : κ) : h.read (.next k) = h.next k := rfl

/-- The heap holds the list `l`. -/
def Holds (l : List κ) : Prop := Linked h.next h.first l

/-- `k` is reached from the head, on a list of any shape. -/
inductive OnList : κ → Prop where
  | first {k : κ} : h.first = some k → OnList k
  | next {j k : κ} : OnList j → h.next j = some k → OnList k

variable {h}

/-- What contains the head and is closed under `next` contains the list. -/
theorem OnList.mem_of_closed {S : Set κ} {k : κ} (hk : h.OnList k)
    (hfirst : ∀ k, h.first = some k → k ∈ S)
    (hnext : ∀ j ∈ S, ∀ k, h.next j = some k → k ∈ S) : k ∈ S := by
  induction hk with
  | first hf => exact hfirst _ hf
  | next _ hjk ih => exact hnext _ ih _ hjk

theorem Holds.nodup {l : List κ} (hl : h.Holds l) : l.Nodup := Linked.nodup hl

/-- The other nodes of a list. -/
theorem Holds.ne_around {pre post : List κ} {t j : κ} (hl : h.Holds (pre ++ t :: post))
    (hj : j ∈ pre ++ post) : j ≠ t := by
  rintro rfl
  exact (List.nodup_cons.mp (List.nodup_middle.mp hl.nodup)).1 hj

theorem Holds.unique {l l' : List κ} (hl : h.Holds l) (hl' : h.Holds l') : l = l' :=
  Linked.unique hl hl'

theorem Holds.next_eq {pre post : List κ} {k : κ} (hl : h.Holds (pre ++ k :: post)) :
    h.next k = post.head? := Linked.next_eq hl

theorem Holds.onList_iff {l : List κ} (hl : h.Holds l) {k : κ} : h.OnList k ↔ k ∈ l := by
  constructor
  · intro hk
    induction hk with
    | first hf =>
      rw [show h.first = l.head? from Linked.head?_eq hl] at hf
      exact List.mem_of_mem_head? hf
    | next _ hjk ih =>
      obtain ⟨a, b, rfl⟩ := List.append_of_mem ih
      rw [hl.next_eq] at hjk
      exact List.mem_append_right _ (List.mem_cons_of_mem _ (List.mem_of_mem_head? hjk))
  · intro hk
    obtain ⟨a, b, rfl⟩ := List.append_of_mem hk
    clear hk
    induction a using List.reverseRecOn generalizing k b with
    | nil => exact .first hl.1
    | append_singleton a j ih =>
      rw [List.append_assoc, List.singleton_append] at hl
      exact .next (ih (k :: b) hl) (hl.next_eq.trans rfl)

/-- No node on a list that ends points to itself. -/
theorem Holds.next_ne {l : List κ} (hl : h.Holds l) {k : κ} (hk : h.OnList k) :
    h.next k ≠ some k := by
  intro hloop
  obtain ⟨a, b, rfl⟩ := List.append_of_mem (hl.onList_iff.mp hk)
  rw [hl.next_eq] at hloop
  have hmem := List.mem_of_mem_head? hloop
  exact hl.ne_around (List.mem_append_right a hmem) rfl

/-- No two nodes on a list that ends point to each other. -/
theorem Holds.next_next_ne {l : List κ} (hl : h.Holds l) {j k : κ} (hj : h.OnList j)
    (hjk : h.next j = some k) : h.next k ≠ some j := by
  intro hkj
  obtain ⟨a, b, rfl⟩ := List.append_of_mem (hl.onList_iff.mp hj)
  rw [hl.next_eq] at hjk
  obtain ⟨b, rfl⟩ : ∃ b', b = k :: b' := ⟨b.tail, (List.cons_head?_tail hjk).symm⟩
  have hl' : h.Holds ((a ++ [j]) ++ k :: b) := by simpa using hl
  rw [hl'.next_eq] at hkj
  exact hl.ne_around (by simp [List.mem_of_mem_head? hkj]) rfl

end Heap

/-! ### Cells and the walk along the list -/

/-- The cell that points behind the nodes `pre`. -/
def cellAfter (pre : List κ) : Cell κ :=
  match pre.getLast? with
  | none => .first
  | some k => .next k

@[simp] theorem cellAfter_nil : cellAfter ([] : List κ) = .first := rfl

@[simp] theorem cellAfter_concat (pre : List κ) (k : κ) :
    cellAfter (pre ++ [k]) = .next k := by
  simp [cellAfter]

theorem cellAfter_ne {pre : List κ} {k : κ} (hk : k ∉ pre) : cellAfter pre ≠ .next k := by
  induction pre using List.reverseRecOn with
  | nil => simp
  | append_singleton pre j _ =>
    rw [cellAfter_concat]
    intro hj
    exact hk (by simp [Cell.next.inj hj])

theorem head?_of_split {mid post post' : List κ} {t e : κ}
    (heq : t :: post = mid ++ e :: post') : (mid ++ [e]).head? = some t := by
  cases mid with
  | nil => simpa using (List.cons.inj heq).1.symm
  | cons y mid => simpa using (List.cons.inj heq).1.symm

/-- A walk that goes on from `t` to the next node `x`. -/
theorem isChain_cons_of_split {R : κ → κ → Prop} {mid post post' : List κ} {t x t' : κ}
    (heq : x :: post = mid ++ t' :: post') (htx : R t x) (h : (mid ++ [t']).IsChain R) :
    (t :: mid ++ [t']).IsChain R := by
  rw [List.cons_append, List.isChain_cons]
  refine ⟨fun y hy => ?_, h⟩
  rw [head?_of_split heq] at hy
  rwa [← Option.some.inj hy]

/-- There is only one place where a walk guarded by `R` can stop. -/
theorem split_unique {R : κ → κ → Prop} : ∀ {mid mid' post post' : List κ} {t t' : κ},
    mid ++ t :: post = mid' ++ t' :: post' → (mid ++ [t]).IsChain R → (mid' ++ [t']).IsChain R →
    (∀ x ∈ post.head?, ¬ R t x) → (∀ x ∈ post'.head?, ¬ R t' x) →
    mid = mid' ∧ t = t' ∧ post = post' := by
  -- a walk that stops at its first node, and one that goes on from it
  have hstart : ∀ {mid post post' : List κ} {t t' : κ}, t :: post = (t :: mid) ++ t' :: post' →
      (t :: mid ++ [t']).IsChain R → (∀ x ∈ post.head?, ¬ R t x) → False := by
    intro mid post post' t t' heq hchain hstop
    rw [List.cons_append, List.isChain_cons] at hchain
    obtain rfl : post = mid ++ t' :: post' := (List.cons.inj heq).2
    cases mid with
    | nil => exact hstop t' rfl (hchain.1 t' rfl)
    | cons y mid => exact hstop y rfl (hchain.1 y rfl)
  intro mid
  induction mid with
  | nil =>
    intro mid' post post' t t' heq _ hchain' hstop _
    cases mid' with
    | nil =>
      obtain ⟨rfl, rfl⟩ := List.cons.inj heq
      exact ⟨rfl, rfl, rfl⟩
    | cons y mid' =>
      obtain rfl : t = y := (List.cons.inj heq).1
      exact (hstart heq hchain' hstop).elim
  | cons k mid ih =>
    intro mid' post post' t t' heq hchain hchain' hstop hstop'
    cases mid' with
    | nil =>
      obtain rfl : k = t' := (List.cons.inj heq).1
      exact (hstart heq.symm hchain hstop').elim
    | cons y mid' =>
      obtain ⟨rfl, htail⟩ := List.cons.inj heq
      rw [List.cons_append, List.isChain_cons] at hchain hchain'
      obtain ⟨rfl, rfl, rfl⟩ := ih htail hchain.2 hchain'.2 hstop hstop'
      exact ⟨rfl, rfl, rfl⟩

namespace Heap

variable {h : Heap κ}

theorem Holds.read_cellAfter {pre post : List κ} (hl : h.Holds (pre ++ post)) :
    h.read (cellAfter pre) = post.head? := by
  induction pre using List.reverseRecOn with
  | nil => exact Linked.head?_eq hl
  | append_singleton pre k _ =>
    rw [cellAfter_concat]
    rw [List.append_assoc, List.singleton_append] at hl
    exact hl.next_eq

/-- The walk along the list: while there is a next node and the guard holds of
the current and the next node, move the cell on.  `none` when the cell holds no
node or the fuel is used up. -/
def seek (h : Heap κ) (guard : κ → κ → Bool) : ℕ → Cell κ → Option (Cell κ)
  | 0, _ => none
  | n + 1, c =>
    match h.read c with
    | none => none
    | some t =>
      match h.next t with
      | none => some c
      | some x => if guard t x then seek h guard n (.next t) else some c

/-- The walk from the cell behind `pre` stops behind some further nodes `mid`:
every step it made was allowed by the guard, and the step it did not make was
refused or led nowhere. -/
theorem Holds.seek_spec (guard : κ → κ → Bool) : ∀ {post pre : List κ} {t : κ} {n : ℕ},
    h.Holds (pre ++ t :: post) → post.length < n →
    ∃ mid t' post', t :: post = mid ++ t' :: post' ∧
      h.seek guard n (cellAfter pre) = some (cellAfter (pre ++ mid)) ∧
      (mid ++ [t']).IsChain (fun a b => guard a b = true) ∧
      ∀ x ∈ post'.head?, guard t' x = false := by
  intro post
  induction post with
  | nil =>
    intro pre t n hl hn
    obtain ⟨n, rfl⟩ : ∃ m, n = m + 1 := ⟨n - 1, by simp at hn; omega⟩
    refine ⟨[], t, [], rfl, ?_, by simp, by simp⟩
    rw [List.append_nil, seek, hl.read_cellAfter]
    simp [hl.next_eq]
  | cons x post ih =>
    intro pre t n hl hn
    obtain ⟨n, rfl⟩ : ∃ m, n = m + 1 := ⟨n - 1, by simp at hn; omega⟩
    by_cases hg : guard t x = true
    · have hl' : h.Holds ((pre ++ [t]) ++ x :: post) := by simpa using hl
      obtain ⟨mid, t', post', heq, hseek, hchain, hstop⟩ :=
        @ih (pre ++ [t]) x n hl' (by simp at hn; omega)
      refine ⟨t :: mid, t', post', by simp [heq], ?_, isChain_cons_of_split heq hg hchain, hstop⟩
      rw [seek, hl.read_cellAfter]
      simp only [List.head?_cons, hl.next_eq, hg, if_true]
      simpa using hseek
    · refine ⟨[], t, x :: post, rfl, ?_, by simp, ?_⟩
      · rw [List.append_nil, seek, hl.read_cellAfter]
        simp [hl.next_eq, hg]
      · intro y hy
        obtain rfl : x = y := by simpa using hy
        simpa using hg

/-- A guard that fails stops the walk at once. -/
theorem seek_stop {guard : κ → κ → Bool} {n : ℕ} {c : Cell κ} {t x : κ} (ht : h.read c = some t)
    (hx : h.next t = some x) (hg : guard t x = false) : h.seek guard (n + 1) c = some c := by
  rw [seek, ht]
  simp [hx, hg]

/-- Wherever the walk stops, the last step it made was allowed by the guard. -/
theorem seek_guard {guard : κ → κ → Bool} : ∀ {n : ℕ} {c c' : Cell κ},
    h.seek guard n c = some c' →
      c' = c ∨ ∃ j x, c' = .next j ∧ h.next j = some x ∧ guard j x = true := by
  intro n
  induction n with
  | zero =>
    intro c c' hc
    rw [seek] at hc
    cases hc
  | succ n ih =>
    intro c c' hc
    rw [seek] at hc
    split at hc
    · cases hc
    · rename_i t ht
      split at hc
      · exact .inl (Option.some.inj hc).symm
      · rename_i x hx
        split at hc
        · rename_i hg
          rcases ih hc with rfl | hlater
          · exact .inr ⟨t, x, rfl, hx, hg⟩
          · exact .inr hlater
        · exact .inl (Option.some.inj hc).symm

/-- The cell is the head or the link of a node on the list. -/
def OnCell (h : Heap κ) : Cell κ → Prop
  | .first => True
  | .next k => h.OnList k

theorem OnCell.onList {c : Cell κ} {t : κ} (hc : h.OnCell c) (ht : h.read c = some t) :
    h.OnList t := by
  cases c with
  | first => exact .first ht
  | next k => exact .next hc ht

/-- A cell of a list that ends points behind the nodes up to its own. -/
theorem OnCell.split {c : Cell κ} {t : κ} {l : List κ} (hc : h.OnCell c) (hl : h.Holds l)
    (ht : h.read c = some t) : ∃ pre post, l = pre ++ t :: post ∧ c = cellAfter pre := by
  cases c with
  | first =>
    cases l with
    | nil => exact absurd (ht.symm.trans hl) (by simp)
    | cons k l =>
      obtain rfl : k = t := Option.some.inj (hl.1.symm.trans ht)
      exact ⟨[], l, rfl, rfl⟩
  | next k =>
    obtain ⟨a, b, rfl⟩ := List.append_of_mem (hl.onList_iff.mp hc)
    have hhead : b.head? = some t := hl.next_eq.symm.trans ht
    obtain ⟨b, rfl⟩ : ∃ b', b = t :: b' := ⟨b.tail, (List.cons_head?_tail hhead).symm⟩
    exact ⟨a ++ [k], b, by simp, by simp⟩

/-- A node stays on the list when the links up to it are kept. -/
theorem Holds.onList_of_prefix {h' : Heap κ} {pre post : List κ} {t : κ}
    (hl : h.Holds (pre ++ t :: post)) (hfirst : h'.first = h.first)
    (hpre : ∀ j ∈ pre, h'.next j = h.next j) : h'.OnList t := by
  induction pre using List.reverseRecOn generalizing t post with
  | nil => exact .first (hfirst.trans hl.1)
  | append_singleton a j ih =>
    rw [List.append_assoc, List.singleton_append] at hl
    refine .next (ih hl fun i hi => hpre i (by simp [hi])) ?_
    rw [hpre j (by simp)]
    exact hl.next_eq

/-- The walk along the list stays on the list, whatever its shape. -/
theorem OnCell.seek {guard : κ → κ → Bool} : ∀ {n : ℕ} {c c' : Cell κ},
    h.OnCell c → h.seek guard n c = some c' → h.OnCell c' := by
  intro n
  induction n with
  | zero =>
    intro c c' _ h'
    rw [Heap.seek] at h'
    cases h'
  | succ n ih =>
    intro c c' hc h'
    rw [Heap.seek] at h'
    split at h'
    · cases h'
    · rename_i t ht
      split at h'
      · obtain rfl := Option.some.inj h'
        exact hc
      · split at h'
        · exact ih (c := .next t) (hc.onList ht) h'
        · obtain rfl := Option.some.inj h'
          exact hc

/-- Only the head points to the first node. -/
theorem OnCell.eq_first {c : Cell κ} {t : κ} {post : List κ} (hc : h.OnCell c)
    (hl : h.Holds (t :: post)) (ht : h.read c = some t) : c = .first := by
  obtain ⟨pre, post', heq, rfl⟩ := hc.split hl ht
  cases pre with
  | nil => rfl
  | cons y pre =>
    -- the first node would be on the list twice
    obtain rfl : t = y := (List.cons.inj heq).1
    have hnd := hl.nodup
    rw [heq] at hnd
    simp at hnd

/-! ### Editing the list -/

variable [DecidableEq κ]

/-- Overwrite the pointer a cell holds. -/
def write (h : Heap κ) (c : Cell κ) (p : Option κ) : Heap κ :=
  match c with
  | .first => { h with first := p }
  | .next k => { h with next := Function.update h.next k p }

theorem read_write_of_ne {c : Cell κ} {k : κ} (p : Option κ) (hc : c ≠ .next k) :
    (h.write (.next k) p).read c = h.read c := by
  cases c with
  | first => rfl
  | next j =>
    have hjk : j ≠ k := fun hj => hc (by rw [hj])
    simp [write, hjk]

/-- Linking a node from outside the list behind `t`. -/
theorem Holds.insert_after {pre post : List κ} {t k : κ} (hl : h.Holds (pre ++ t :: post))
    (hk : k ∉ pre ++ t :: post) :
    ((h.write (.next k) (h.next t)).write (.next t) (some k)).Holds (pre ++ t :: k :: post) := by
  have htk : t ≠ k := by rintro rfl; simp at hk
  obtain ⟨q, hq⟩ := Linked.drop hl
  have hlinked : Linked h.next h.first (pre ++ t :: post) := hl
  refine hlinked.replace_tail (fun j hj => ?_) ?_
  · have hjt : j ≠ t := hl.ne_around (List.mem_append_left _ hj)
    have hjk : j ≠ k := by rintro rfl; simp [hj] at hk
    simp [write, hjt, hjk]
  · refine ⟨by simp [write], ?_⟩
    have hnk : Function.update (Function.update h.next k (h.next t)) t (some k) k = h.next t := by
      simp [htk.symm]
    simp only [write, hnk]
    refine Linked.congr hq.2 fun j hj => ?_
    have hjt : j ≠ t := hl.ne_around (List.mem_append_right pre hj)
    have hjk : j ≠ k := by rintro rfl; simp [hj] at hk
    simp [hjt, hjk]

/-- Unlinking the node behind `t`. -/
theorem Holds.unlink_after {pre post : List κ} {t x : κ}
    (hl : h.Holds (pre ++ t :: x :: post)) :
    (h.write (.next t) (h.next x)).Holds (pre ++ t :: post) := by
  obtain ⟨q, hq⟩ := Linked.drop hl
  have hlinked : Linked h.next h.first (pre ++ t :: x :: post) := hl
  refine hlinked.replace_tail (fun j hj => ?_) ?_
  · have hjt : j ≠ t := hl.ne_around (List.mem_append_left _ hj)
    simp [write, hjt]
  · simp only [write, Function.update_self]
    refine Linked.congr hq.2.2 fun j hj => ?_
    have hjt : j ≠ t := hl.ne_around (List.mem_append_right pre (List.mem_cons_of_mem x hj))
    simp [hjt]

/-- When `t` is made to point to itself, the walk comes to the nodes up to `t`. -/
theorem Holds.onList_loop {h' : Heap κ} {pre post : List κ} {t j : κ}
    (hl : h.Holds (pre ++ t :: post)) (hfirst : h'.first = h.first) (hself : h'.next t = some t)
    (hnext : ∀ j, j ≠ t → h'.next j = h.next j) : h'.OnList j ↔ j ∈ pre ++ [t] := by
  -- the same list, cut off behind `t`
  have hcut : (h.write (.next t) none).Holds (pre ++ [t]) := by
    have hlinked : Linked h.next h.first (pre ++ t :: post) := hl
    refine hlinked.replace_tail (fun k hk => ?_) ?_
    · have hkt : k ≠ t := hl.ne_around (List.mem_append_left _ hk)
      simp [write, hkt]
    · simp [Linked, write]
  rw [← hcut.onList_iff]
  constructor
  · intro hj
    refine hj.mem_of_closed (S := {k | (h.write (.next t) none).OnList k})
      (fun k hk => .first (hfirst.symm.trans hk)) fun i hi k hk => ?_
    by_cases hit : i = t
    · subst hit
      obtain rfl := Option.some.inj (hself.symm.trans hk)
      exact hi
    · rw [hnext i hit] at hk
      exact .next hi (by simpa [write, hit] using hk)
  · intro hj
    refine hj.mem_of_closed (S := {k | h'.OnList k})
      (fun k hk => .first (hfirst.trans hk)) fun i hi k hk => ?_
    have hit : i ≠ t := by
      rintro rfl
      simp [write] at hk
    refine .next (j := i) hi ?_
    rw [hnext i hit]
    simpa [write, hit] using hk

/-- Unlinking the first node. -/
theorem Holds.unlink_first {post : List κ} {t : κ} (hl : h.Holds (t :: post)) :
    (h.write .first (h.next t)).Holds post := hl.2

end Heap

end HeapList
