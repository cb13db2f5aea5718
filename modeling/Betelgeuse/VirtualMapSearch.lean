/-
The searches along the list of the map.

`FIND_ENTRY_WITH_TRIPREF` is a walk along the list, and so are the other three loops of
the file; for each one there is a lemma that says where it stops on a list that ends
(`findEntry_of_holds`, `seekBeyond_of_holds`, `seekGap_of_holds`,
`seekMultiple_of_holds`).

`Found s frame pre t post` says where the first one stops in a well-formed map: behind
the entries `pre`, at the entry `t`, which starts below `frame` unless it is the first
one, with `post` to follow, which starts at `frame` or above.
-/
import Betelgeuse.VirtualMapLayout

open HeapList WordBitmap RangeList

namespace Betelgeuse

namespace VirtualAddressMap

variable {s : VirtualAddressMap} {pre post : List Slot} {t : Slot}

/-! ### On any list -/

theorem length_lt_of_holds (h : s.links.Holds (pre ++ t :: post)) : post.length < 128 := by
  have hlen := h.nodup.length_le_card
  rw [Fintype.card_fin, List.length_append, List.length_cons] at hlen
  omega

theorem deref_of_holds (h : s.links.Holds (pre ++ t :: post)) :
    s.deref (cellAfter pre) = some t := h.read_cellAfter

theorem next_of_holds (h : s.links.Holds (pre ++ t :: post)) : s.next t = post.head? := h.next_eq

theorem ne_of_holds (h : s.links.Holds (pre ++ t :: post)) {k : Slot} (hk : k ∈ post) : k ≠ t :=
  h.ne_around (List.mem_append_right pre hk)

/-- `FIND_ENTRY_WITH_TRIPREF` stops at an entry that starts below the address, unless it
is the first one, and whose successor does not. -/
theorem findEntry_of_holds {l : List Slot} (h : s.links.Holds l) (hne : l ≠ []) (frame : UInt64) :
    ∃ pre t post, l = pre ++ t :: post ∧ s.findEntry frame = some (cellAfter pre) ∧
      (∀ x ∈ post.head?, frame.toNat ≤ s.lo x) ∧ (pre ≠ [] → s.lo t < frame.toNat) := by
  obtain ⟨t₀, post₀, rfl⟩ := List.exists_cons_of_ne_nil hne
  have h₀ : s.links.Holds ([] ++ t₀ :: post₀) := h
  obtain ⟨mid, t, post, heq, hseek, hchain, hstop⟩ :=
    h₀.seek_spec (fun _ x => decide (s.base x < frame)) (length_lt_of_holds h₀)
  refine ⟨mid, t, post, heq, hseek, fun x hx => ?_, fun hne => ?_⟩
  · have hx := hstop x hx
    rw [decide_eq_false_iff_not, UInt64.not_lt, UInt64.le_iff_toNat_le] at hx
    exact hx
  · -- the step that led to `t` was allowed by the guard
    obtain ⟨mid, a, rfl⟩ := List.eq_nil_or_concat mid |>.resolve_left hne
    rw [List.concat_eq_append, List.append_assoc, List.singleton_append] at hchain
    have hat := (List.isChain_cons_cons.mp (List.isChain_append.mp hchain).2.1).1
    rw [decide_eq_true_eq, UInt64.lt_iff_toNat_lt] at hat
    exact hat

/-- `*frame` when the second loop of the `beyond_ex` functions stands at `e`: it
starts at `t` with `frame`. -/
def candidate (s : VirtualAddressMap) (t : Slot) (frame jumpCount : UInt64) (e : Slot) : UInt64 :=
  if e = t then frame else s.endOf e + jumpCount <<< 12

/-- The second loop of the `beyond_ex` functions stops at an entry whose
successor does not block the frame.  Before, every frame was blocked. -/
theorem seekBeyond_of_holds (blocks : UInt64 → UInt64 → Bool) (jumpCount : UInt64) :
    ∀ {post pre : List Slot} {t : Slot} {n : ℕ} (frame : UInt64),
      s.links.Holds (pre ++ t :: post) → post.length < n →
      ∃ mid t' post', t :: post = mid ++ t' :: post' ∧
        s.seekBeyond blocks jumpCount n (cellAfter pre) frame =
          some (cellAfter (pre ++ mid), s.candidate t frame jumpCount t') ∧
        (mid ++ [t']).IsChain
          (fun a b => blocks (s.base b) (s.candidate t frame jumpCount a) = true) ∧
        ∀ x ∈ post'.head?, blocks (s.base x) (s.candidate t frame jumpCount t') = false := by
  intro post
  induction post with
  | nil =>
    intro pre t n frame h hn
    obtain ⟨n, rfl⟩ : ∃ m, n = m + 1 := ⟨n - 1, by simp at hn; omega⟩
    refine ⟨[], t, [], rfl, ?_, by simp, by simp⟩
    rw [seekBeyond, deref_of_holds h]
    simp [next_of_holds h, candidate]
  | cons x post ih =>
    intro pre t n frame h hn
    obtain ⟨n, rfl⟩ : ∃ m, n = m + 1 := ⟨n - 1, by simp at hn; omega⟩
    by_cases hb : blocks (s.base x) frame = true
    · have h' : s.links.Holds ((pre ++ [t]) ++ x :: post) := by simpa using h
      obtain ⟨mid, t', post', heq, hseek, hchain, hstop⟩ :=
        ih (s.endOf x + jumpCount <<< 12) h' (by simp at hn; omega)
      -- behind `t` both runs of the loop have the same candidates
      have hcand : ∀ a ∈ mid ++ [t'], s.candidate x (s.endOf x + jumpCount <<< 12) jumpCount a =
          s.candidate t frame jumpCount a := by
        intro a ha
        have hat : a ≠ t := by
          refine ne_of_holds h ?_
          rw [heq]
          rcases List.mem_append.mp ha with ha | ha
          · simp [ha]
          · simp [List.mem_singleton.mp ha]
        rw [candidate, candidate, if_neg hat]
        split
        · rename_i hax
          rw [hax]
        · rfl
      rw [hcand t' (by simp)] at hseek hstop
      refine ⟨t :: mid, t', post', by simp [heq], ?_, ?_, hstop⟩
      · rw [seekBeyond, deref_of_holds h]
        rw [cellAfter_concat] at hseek
        simpa [next_of_holds h, hb] using hseek
      · refine isChain_cons_of_split heq (by rwa [candidate, if_pos rfl]) ?_
        refine List.IsChain.imp_of_mem_imp (fun a b ha _ hab => ?_) hchain
        rwa [hcand a ha] at hab
    · refine ⟨[], t, x :: post, rfl, ?_, by simp, ?_⟩
      · rw [seekBeyond, deref_of_holds h]
        simp [next_of_holds h, hb, candidate]
      · intro y hy
        obtain rfl : x = y := by simpa using hy
        rw [candidate, if_pos rfl]
        simpa using hb

/-- The loop of `page_virtual_alloc_multiple_after_ex`, when it finds a gap.
Every gap before was too small. -/
theorem seekGap_of_holds {allocCount : UInt64} :
    ∀ {post pre : List Slot} {t : Slot} {n : ℕ} {c : Cell Slot},
      s.links.Holds (pre ++ t :: post) → s.seekGap allocCount n (cellAfter pre) = some c →
      ∃ mid t' x post', t :: post = mid ++ t' :: x :: post' ∧ c = cellAfter (pre ++ mid) ∧
        (mid ++ [t']).IsChain (fun a b => s.base b < s.endOf a + allocCount <<< 12) ∧
        s.endOf t' + allocCount <<< 12 ≤ s.base x := by
  -- by induction on the entries behind `t`
  intro post
  induction post with
  | nil =>
    intro pre t n c h hc
    cases n with
    | zero => simp [seekGap] at hc
    | succ n =>
      rw [seekGap, deref_of_holds h] at hc
      simp [nextBase, next_of_holds h] at hc
  | cons x post ih =>
    intro pre t n c h hc
    cases n with
    | zero => simp [seekGap] at hc
    | succ n =>
      rw [seekGap, deref_of_holds h] at hc
      simp only [Option.bind_eq_bind, Option.bind_some, nextBase, next_of_holds h, List.head?_cons,
        Option.map_some] at hc
      split at hc
      · rename_i hsmall
        have h' : s.links.Holds ((pre ++ [t]) ++ x :: post) := by simpa using h
        rw [← cellAfter_concat pre t] at hc
        obtain ⟨mid, t', y, post', heq, hcell, hchain, hgap⟩ := ih h' hc
        exact ⟨t :: mid, t', y, post', by simp [heq], by simpa using hcell,
          isChain_cons_of_split heq hsmall hchain, hgap⟩
      · rename_i hgap
        refine ⟨[], t, x, post, rfl, ?_, by simp, UInt64.not_lt.mp hgap⟩
        simpa using hc.symm

/-- The loop of `page_virtual_alloc_multiple_ex` stops at an entry whose
successor leaves room.  Every gap before was too small. -/
theorem seekMultiple_of_holds (h : s.links.Holds (t :: post)) (allocCount : UInt64) :
    ∃ mid t' post', t :: post = mid ++ t' :: post' ∧
      s.links.seek (fun t x => decide (s.endOf t + allocCount <<< 12 > s.base x)) 128 .first =
        some (cellAfter mid) ∧
      (mid ++ [t']).IsChain (fun a b => s.base b < s.endOf a + allocCount <<< 12) ∧
      ∀ x ∈ post'.head?, s.endOf t' + allocCount <<< 12 ≤ s.base x := by
  have h₀ : s.links.Holds ([] ++ t :: post) := h
  obtain ⟨mid, t', post', heq, hseek, hchain, hstop⟩ := h₀.seek_spec
    (fun t x => decide (s.endOf t + allocCount <<< 12 > s.base x)) (length_lt_of_holds h₀)
  refine ⟨mid, t', post', heq, hseek, hchain.imp fun a b hab => ?_, fun x hx => ?_⟩
  · exact of_decide_eq_true hab
  · have hx := hstop x hx
    rwa [decide_eq_false_iff_not, gt_iff_lt, UInt64.not_lt] at hx

/-! ### In a well-formed map -/

theorem Layout.length_le (h : s.Layout (pre ++ t :: post)) : post.length < 128 :=
  length_lt_of_holds h.holds

/-- `FIND_ENTRY_WITH_TRIPREF` stops behind `pre`, at `t`. -/
structure Found (s : VirtualAddressMap) (frame : UInt64) (pre : List Slot) (t : Slot)
    (post : List Slot) : Prop where
  layout : s.Layout (pre ++ t :: post)
  find : s.findEntry frame = some (cellAfter pre)
  above : ∀ x ∈ post.head?, frame.toNat ≤ s.lo x
  below : pre ≠ [] → s.lo t < frame.toNat

theorem Layout.first_eq (h : s.Layout (t :: post)) : s.first = some t := h.holds.1

/-- In a well-formed map the search ends, at some entry. -/
theorem WellFormed.found (h : s.WellFormed) (frame : UInt64) :
    ∃ pre t post, s.Found frame pre t post := by
  obtain ⟨l, hl⟩ := h
  obtain ⟨pre, t, post, rfl, hfind, habove, hbelow⟩ :=
    findEntry_of_holds hl.holds hl.nonempty frame
  exact ⟨pre, t, post, hl, hfind, habove, hbelow⟩

theorem Found.deref_eq {frame : UInt64} (h : s.Found frame pre t post) :
    s.deref (cellAfter pre) = some t := h.layout.deref_eq

theorem Layout.seekBeyond_spec (blocks : UInt64 → UInt64 → Bool) (jumpCount : UInt64)
    {post pre : List Slot} {t : Slot} {n : ℕ} (frame : UInt64) (h : s.Layout (pre ++ t :: post))
    (hn : post.length < n) :
    ∃ mid t' post', t :: post = mid ++ t' :: post' ∧
      s.seekBeyond blocks jumpCount n (cellAfter pre) frame =
        some (cellAfter (pre ++ mid), s.candidate t frame jumpCount t') ∧
      (mid ++ [t']).IsChain
        (fun a b => blocks (s.base b) (s.candidate t frame jumpCount a) = true) ∧
      ∀ x ∈ post'.head?, blocks (s.base x) (s.candidate t frame jumpCount t') = false :=
  seekBeyond_of_holds blocks jumpCount frame h.holds hn

theorem Layout.seekGap_spec {allocCount : UInt64} {post pre : List Slot} {t : Slot} {n : ℕ}
    {c : Cell Slot} (h : s.Layout (pre ++ t :: post))
    (hc : s.seekGap allocCount n (cellAfter pre) = some c) :
    ∃ mid t' x post', t :: post = mid ++ t' :: x :: post' ∧ c = cellAfter (pre ++ mid) ∧
      (mid ++ [t']).IsChain (fun a b => s.base b < s.endOf a + allocCount <<< 12) ∧
      s.endOf t' + allocCount <<< 12 ≤ s.base x :=
  seekGap_of_holds h.holds hc

/-- When some gap is large enough the loop finds one. -/
theorem Layout.seekGap_isSome {allocCount : UInt64} {e x : Slot} {rest : List Slot} :
    ∀ {mid pre post : List Slot} {t : Slot} {n : ℕ}, s.Layout (pre ++ t :: post) →
      post.length < n → t :: post = mid ++ e :: x :: rest →
      s.endOf e + allocCount <<< 12 ≤ s.base x →
      ∃ c, s.seekGap allocCount n (cellAfter pre) = some c := by
  intro mid
  induction mid with
  | nil =>
    intro pre post t n h hn heq hgap
    obtain ⟨n, rfl⟩ : ∃ m, n = m + 1 := ⟨n - 1, by omega⟩
    obtain ⟨rfl, rfl⟩ := List.cons.inj heq
    refine ⟨cellAfter pre, ?_⟩
    rw [seekGap, h.deref_eq]
    simp [nextBase, h.next_eq, UInt64.not_lt.mpr hgap]
  | cons a mid ih =>
    intro pre post t n h hn heq hgap
    obtain ⟨n, rfl⟩ : ∃ m, n = m + 1 := ⟨n - 1, by omega⟩
    obtain ⟨rfl, hpost⟩ := List.cons.inj heq
    obtain ⟨y, post, rfl⟩ : ∃ y post', post = y :: post' := by
      cases post with
      | nil => cases mid <;> cases hpost
      | cons y post => exact ⟨y, post, rfl⟩
    have h' : s.Layout ((pre ++ [t]) ++ y :: post) := by simpa using h
    rw [seekGap, h.deref_eq]
    simp only [Option.bind_eq_bind, Option.bind_some, nextBase, h.next_eq, List.head?_cons,
      Option.map_some]
    split
    · rw [← cellAfter_concat pre t]
      exact ih h' (by simp at hn; omega) hpost hgap
    · exact ⟨_, rfl⟩

theorem Layout.seekMultiple_spec (h : s.Layout (t :: post)) (allocCount : UInt64) :
    ∃ mid t' post', t :: post = mid ++ t' :: post' ∧
      s.links.seek (fun t x => decide (s.endOf t + allocCount <<< 12 > s.base x)) 128 .first =
        some (cellAfter mid) ∧
      (mid ++ [t']).IsChain (fun a b => s.base b < s.endOf a + allocCount <<< 12) ∧
      ∀ x ∈ post'.head?, s.endOf t' + allocCount <<< 12 ≤ s.base x :=
  seekMultiple_of_holds h.holds allocCount

end VirtualAddressMap

end Betelgeuse
