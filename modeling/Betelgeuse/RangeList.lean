/-
Lists of ranges in a linear order.

Each key `k` of a list stands for the half-open range `[lo k, hi k)`.  The
ranges of a list are `Apart` when each one ends strictly below the next one,
so that they are sorted and do not touch, and `Sorted` when they may touch.
`Apart.splice` replaces a stretch of the list; `covered` is the union of the
ranges.
-/
import Mathlib.Data.List.Chain
import Mathlib.Order.Interval.Set.Basic

namespace RangeList

variable {κ α : Type*} [LinearOrder α]

/-- Each range ends strictly below the next one. -/
def Apart (lo hi : κ → α) (l : List κ) : Prop := l.IsChain fun a b => hi a < lo b

/-- Each range ends at or below the start of the next one. -/
def Sorted (lo hi : κ → α) (l : List κ) : Prop := l.IsChain fun a b => hi a ≤ lo b

/-- The points in one of the ranges. -/
def covered (lo hi : κ → α) (l : List κ) : Set α := {a | ∃ k ∈ l, lo k ≤ a ∧ a < hi k}

variable {lo hi lo' hi' : κ → α} {pre old new post l : List κ}

theorem Apart.congr (h : Apart lo hi l) (hl : ∀ k ∈ l, lo' k = lo k ∧ hi' k = hi k) :
    Apart lo' hi' l := by
  refine List.IsChain.imp_of_mem_imp (fun a b ha hb hab => ?_) h
  rw [(hl a ha).2, (hl b hb).1]
  exact hab

/-- Replace the stretch `old` of a list by `new`, which fits between its
neighbours. -/
theorem Apart.splice (h : Apart lo hi (pre ++ (old ++ post)))
    (hpre : ∀ k ∈ pre, lo' k = lo k ∧ hi' k = hi k)
    (hpost : ∀ k ∈ post, lo' k = lo k ∧ hi' k = hi k)
    (hne : new ≠ []) (hnew : Apart lo' hi' new)
    (hbelow : ∀ a ∈ pre.getLast?, ∀ b ∈ new.head?, hi a < lo' b)
    (habove : ∀ a ∈ new.getLast?, ∀ b ∈ post.head?, hi' a < lo b) :
    Apart lo' hi' (pre ++ (new ++ post)) := by
  unfold Apart at *
  rw [List.isChain_append] at h
  refine List.IsChain.append (Apart.congr h.1 hpre)
    (List.IsChain.append hnew ?_ fun a ha b hb => ?_) fun a ha b hb => ?_
  · exact Apart.congr (List.isChain_append.mp h.2.1).2.1 hpost
  · rw [(hpost b (List.mem_of_mem_head? hb)).1]
    exact habove a ha b hb
  · rw [(hpre a (List.mem_of_mem_getLast? ha)).2]
    rw [List.head?_append_of_ne_nil _ hne] at hb
    exact hbelow a ha b hb

/-- The last range of a stretch that fits below what follows stays below it. -/
theorem Apart.gap {t x : κ} (h : Apart lo hi (pre ++ t :: x :: post)) : hi t < lo x :=
  (List.isChain_cons_cons.mp (List.isChain_append.mp h).2.1).1

/-- The range before `t` ends below `t`. -/
theorem Apart.below {t : κ} (h : Apart lo hi (pre ++ t :: post)) :
    ∀ a ∈ pre.getLast?, hi a < lo t :=
  fun a ha => (List.isChain_append.mp h).2.2 a ha t rfl

/-- In a list of ranges that are not upside down, every range ends strictly
below each later one. -/
theorem Apart.pairwise : ∀ {l : List κ}, Apart lo hi l → (∀ k ∈ l, lo k ≤ hi k) →
    l.Pairwise fun a b => hi a < lo b := by
  intro l
  induction l with
  | nil => exact fun _ _ => .nil
  | cons a l ih =>
    intro h hle
    have htail := ih (List.isChain_cons.mp h).2 fun k hk => hle k (by simp [hk])
    refine .cons (fun b hb => ?_) htail
    cases l with
    | nil => simp at hb
    | cons c l =>
      have hac : hi a < lo c := (List.isChain_cons_cons.mp h).1
      rcases List.mem_cons.mp hb with rfl | hb
      · exact hac
      · exact (hac.trans_le (hle c (by simp))).trans ((List.pairwise_cons.mp htail).1 b hb)

/-- In a sorted list every range ends at or below each later one. -/
theorem Sorted.pairwise : ∀ {l : List κ}, Sorted lo hi l → (∀ k ∈ l, lo k ≤ hi k) →
    l.Pairwise fun a b => hi a ≤ lo b := by
  intro l
  induction l with
  | nil => exact fun _ _ => .nil
  | cons a l ih =>
    intro h hle
    have htail := ih (List.isChain_cons.mp h).2 fun k hk => hle k (List.mem_cons_of_mem a hk)
    refine .cons (fun b hb => ?_) htail
    cases l with
    | nil => exact absurd hb List.not_mem_nil
    | cons c l =>
      have hac : hi a ≤ lo c := (List.isChain_cons_cons.mp h).1
      rcases List.mem_cons.mp hb with rfl | hb
      · exact hac
      · have hcb := (List.pairwise_cons.mp htail).1 b hb
        exact (hac.trans (hle c (List.mem_cons_of_mem a List.mem_cons_self))).trans hcb

/-- The ranges before `t` end at or below it, those behind it start at its end or above. -/
theorem Sorted.around {t : κ} (h : Sorted lo hi (pre ++ t :: post))
    (hle : ∀ k ∈ pre ++ t :: post, lo k ≤ hi k) :
    (∀ k ∈ pre, hi k ≤ lo t) ∧ ∀ k ∈ post, hi t ≤ lo k := by
  obtain ⟨-, hpost, hpre⟩ := List.pairwise_append.mp (h.pairwise hle)
  exact ⟨fun k hk => hpre k hk t List.mem_cons_self, (List.pairwise_cons.mp hpost).1⟩

/-- In a list of ranges that start higher and higher, what holds along a stretch holds of
every range of it but the last one, and the next one. -/
theorem rel_of_chain {R : κ → κ → Prop} {mid : List κ} {e k : κ}
    (hinc : (pre ++ (mid ++ e :: post)).Pairwise fun a b => lo a < lo b)
    (hchain : (mid ++ [e]).IsChain R) (hk : k ∈ pre ++ (mid ++ e :: post))
    (hlo : ∀ a ∈ (mid ++ [e]).head?, lo a ≤ lo k) (hlt : lo k < lo e) :
    ∃ a x b, mid ++ [e] = a ++ k :: x :: b ∧ R k x := by
  obtain ⟨-, hstretch, hpre⟩ := List.pairwise_append.mp hinc
  obtain ⟨-, hpost, -⟩ := List.pairwise_append.mp hstretch
  have hmem : k ∈ mid := by
    rcases List.mem_append.mp hk with hbefore | hk
    · -- the ranges before start below the first one of the stretch
      cases mid with
      | nil => exact absurd (hlo e rfl) (hpre k hbefore e (by simp)).not_ge
      | cons a mid => exact absurd (hlo a rfl) (hpre k hbefore a (by simp)).not_ge
    · rcases List.mem_append.mp hk with hk | hk
      · exact hk
      · rcases List.mem_cons.mp hk with rfl | hk
        · exact absurd hlt (lt_irrefl _)
        · exact absurd hlt ((List.pairwise_cons.mp hpost).1 k hk).not_gt
  obtain ⟨a, c, rfl⟩ := List.append_of_mem hmem
  obtain ⟨x, b, hxb⟩ : ∃ x b, c ++ [e] = x :: b := List.exists_cons_of_ne_nil (by simp)
  have heq : (a ++ k :: c) ++ [e] = a ++ k :: x :: b := by simp [hxb]
  rw [heq] at hchain
  exact ⟨a, x, b, heq, (List.isChain_cons_cons.mp (List.isChain_append.mp hchain).2.1).1⟩

theorem mem_covered {a : α} : a ∈ covered lo hi l ↔ ∃ k ∈ l, lo k ≤ a ∧ a < hi k := Iff.rfl

@[simp] theorem covered_nil : covered lo hi ([] : List κ) = ∅ := by
  ext a
  simp [covered]

@[simp] theorem covered_cons (k : κ) :
    covered lo hi (k :: l) = Set.Ico (lo k) (hi k) ∪ covered lo hi l := by
  ext a
  simp [covered, Set.mem_Ico]

@[simp] theorem covered_append (l' : List κ) :
    covered lo hi (l ++ l') = covered lo hi l ∪ covered lo hi l' := by
  ext a
  simp only [covered, List.mem_append, Set.mem_union, Set.mem_ofPred_eq]
  constructor
  · rintro ⟨k, hk | hk, ha⟩
    · exact .inl ⟨k, hk, ha⟩
    · exact .inr ⟨k, hk, ha⟩
  · rintro (⟨k, hk, ha⟩ | ⟨k, hk, ha⟩)
    · exact ⟨k, .inl hk, ha⟩
    · exact ⟨k, .inr hk, ha⟩

/-- What is covered before `t` lies below it. -/
theorem Apart.lt_of_mem_covered {t : κ} {a : α} (h : Apart lo hi (pre ++ t :: post))
    (hle : ∀ k ∈ pre ++ t :: post, lo k ≤ hi k) (ha : a ∈ covered lo hi pre) : a < lo t := by
  obtain ⟨k, hk, -, hak⟩ := ha
  exact hak.trans ((List.pairwise_append.mp (h.pairwise hle)).2.2 k hk t (by simp))

/-- What is covered after `t` lies above its end. -/
theorem Apart.gt_of_mem_covered {t : κ} {a : α} (h : Apart lo hi (pre ++ t :: post))
    (hle : ∀ k ∈ pre ++ t :: post, lo k ≤ hi k) (ha : a ∈ covered lo hi post) : hi t < a := by
  obtain ⟨k, hk, hak, -⟩ := ha
  have := (List.pairwise_cons.mp (List.pairwise_append.mp (h.pairwise hle)).2.1).1 k hk
  exact this.trans_le hak

theorem covered_congr (hl : ∀ k ∈ l, lo' k = lo k ∧ hi' k = hi k) :
    covered lo' hi' l = covered lo hi l := by
  ext a
  simp only [covered, Set.mem_ofPred_eq]
  refine exists_congr fun k => and_congr_right fun hk => ?_
  rw [(hl k hk).1, (hl k hk).2]

end RangeList
