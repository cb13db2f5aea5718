/-
While loops with fuel.

`loop c b out n s` is `while (c) b` with at most `n` tests of the condition; it
ends in the error `out` when these are used up.  A computation with fuel `f` is
`Stable` when more fuel does not change a result; `Yields f a` says that it has the
result `a`, and `Halts f` that it has one.  `yields_bind`, `halts_bind` and
`halts_foldlM` take sequences of such computations apart.

The rules for loops are the usual two and one for loops that do not end:

* `loop_invariant` — what holds before the loop and is kept by its body holds
  behind it;
* `loop_yields` — a loop with an invariant and a variant ends;
* `loop_diverges` — a loop whose invariant implies its condition does not.
-/
import Mathlib.Data.Nat.Notation
import Mathlib.Tactic.Common

namespace WhileLoop

universe u v

variable {S A B : Type u} {E : Type v}

@[simp] theorem ok_bind (a : A) (f : A → Except E B) : ((.ok a : Except E A) >>= f) = f a := rfl

theorem bind_eq_ok {x : Except E A} {f : A → Except E B} {b : B} :
    x >>= f = .ok b ↔ ∃ a, x = .ok a ∧ f a = .ok b := by
  cases x with
  | error e =>
    constructor
    · intro h
      cases h
    · rintro ⟨a, h, -⟩
      cases h
  | ok a =>
    constructor
    · exact fun h => ⟨a, rfl, h⟩
    · rintro ⟨a', h, h'⟩
      obtain rfl := Except.ok.inj h
      exact h'

/-- More fuel does not change a result. -/
def Stable (f : ℕ → Except E A) : Prop := ∀ n m a, n ≤ m → f n = .ok a → f m = .ok a

/-- With enough fuel the result is `a`. -/
def Yields (f : ℕ → Except E A) (a : A) : Prop := ∃ n, f n = .ok a

theorem Stable.const (r : Except E A) : Stable fun _ => r := fun _ _ _ _ h => h

theorem Stable.bind {f : ℕ → Except E A} {g : ℕ → A → Except E B} (hf : Stable f)
    (hg : ∀ a, Stable fun n => g n a) : Stable fun n => f n >>= g n := by
  intro n m b hnm h
  obtain ⟨a, hn, h⟩ := bind_eq_ok.mp h
  exact bind_eq_ok.mpr ⟨a, hf n m a hnm hn, hg a n m b hnm h⟩

theorem Stable.ite {p : Prop} [Decidable p] {f g : ℕ → Except E A} (hf : Stable f)
    (hg : Stable g) : Stable fun n => if p then f n else g n := by
  by_cases h : p
  · simpa only [if_pos h] using hf
  · simpa only [if_neg h] using hg

theorem yields_const {r : Except E A} {a : A} : Yields (fun _ => r) a ↔ r = .ok a :=
  ⟨fun ⟨_, h⟩ => h, fun h => ⟨0, h⟩⟩

/-- The result of a sequence is the result of the second part behind that of the
first. -/
theorem yields_bind {f : ℕ → Except E A} {g : ℕ → A → Except E B} (hf : Stable f)
    (hg : ∀ a, Stable fun n => g n a) {b : B} :
    Yields (fun n => f n >>= g n) b ↔ ∃ a, Yields f a ∧ Yields (fun n => g n a) b := by
  constructor
  · rintro ⟨n, h⟩
    obtain ⟨a, hn, h⟩ := bind_eq_ok.mp h
    exact ⟨a, ⟨n, hn⟩, n, h⟩
  · rintro ⟨a, ⟨n, hn⟩, m, hm⟩
    exact ⟨max n m, bind_eq_ok.mpr ⟨a, hf n (max n m) a (Nat.le_max_left n m) hn,
      hg a m (max n m) b (Nat.le_max_right n m) hm⟩⟩

theorem Stable.unique {f : ℕ → Except E A} (hf : Stable f) {a b : A} (ha : Yields f a)
    (hb : Yields f b) : a = b := by
  obtain ⟨n, hn⟩ := ha
  obtain ⟨m, hm⟩ := hb
  have hna := hf n (max n m) a (Nat.le_max_left n m) hn
  have hmb := hf m (max n m) b (Nat.le_max_right n m) hm
  exact Except.ok.inj (hna.symm.trans hmb)

/-- With enough fuel there is a result. -/
def Halts (f : ℕ → Except E A) : Prop := ∃ a, Yields f a

theorem halts_const {r : Except E A} : Halts (fun _ => r) ↔ ∃ a, r = .ok a := by
  simp only [Halts, yields_const]

/-- A sequence whose first part has a result halts if its second part does behind
it. -/
theorem halts_bind {f : ℕ → Except E A} {g : ℕ → A → Except E B} (hf : Stable f)
    (hg : ∀ a, Stable fun n => g n a) {a : A} (ha : Yields f a) :
    Halts (fun n => f n >>= g n) ↔ Halts fun n => g n a := by
  constructor
  · rintro ⟨b, hb⟩
    obtain ⟨a', ha', hb⟩ := (yields_bind hf hg).mp hb
    obtain rfl := hf.unique ha' ha
    exact ⟨b, hb⟩
  · rintro ⟨b, hb⟩
    exact ⟨b, (yields_bind hf hg).mpr ⟨a, ha, hb⟩⟩

theorem Halts.of_bind {f : ℕ → Except E A} {g : ℕ → A → Except E B}
    (h : Halts fun n => f n >>= g n) : Halts f := by
  obtain ⟨b, n, hn⟩ := h
  obtain ⟨a, ha, -⟩ := bind_eq_ok.mp hn
  exact ⟨a, n, ha⟩

section Fold

variable {D : Type v} {step : ℕ → A → D → Except E A}

theorem Stable.foldlM (hstep : ∀ a d, Stable fun n => step n a d) (l : List D) (a : A) :
    Stable fun n => l.foldlM (step n) a := by
  induction l generalizing a with
  | nil => exact Stable.const (.ok a)
  | cons d l ih => exact (hstep a d).bind ih

/-- A sequence over a list halts if every element does. -/
theorem halts_foldlM (hstep : ∀ a d, Stable fun n => step n a d) {P : D → Prop}
    (hP : ∀ a d, Halts (fun n => step n a d) ↔ P d) (l : List D) (a : A) :
    Halts (fun n => l.foldlM (step n) a) ↔ ∀ d ∈ l, P d := by
  induction l generalizing a with
  | nil => simp [halts_const, pure, Except.pure]
  | cons d l ih =>
    rw [List.forall_mem_cons]
    constructor
    · intro h
      obtain ⟨b, hb⟩ := h.of_bind
      have hl := (halts_bind (hstep a d) (fun b => Stable.foldlM hstep l b) hb).mp h
      exact ⟨(hP a d).mp ⟨b, hb⟩, (ih b).mp hl⟩
    · rintro ⟨hd, hl⟩
      obtain ⟨b, hb⟩ := (hP a d).mpr hd
      exact (halts_bind (hstep a d) (fun b => Stable.foldlM hstep l b) hb).mpr ((ih b).mpr hl)

end Fold

/-- `while (c) b`. -/
def loop (c : S → Prop) [DecidablePred c] (b : S → Except E S) (out : E) : ℕ → S → Except E S
  | 0, _ => .error out
  | n + 1, s => if c s then b s >>= loop c b out n else .ok s

section Loop

variable {c : S → Prop} [DecidablePred c] {b : S → Except E S} {out : E} {s s' : S}

theorem loop_exit (h : ¬ c s) (n : ℕ) : loop c b out (n + 1) s = .ok s := by
  rw [loop, if_neg h]

theorem loop_round (h : c s) (hb : b s = .ok s') (n : ℕ) :
    loop c b out (n + 1) s = loop c b out n s' := by
  rw [loop, if_pos h, hb]
  rfl

theorem loop_yields_exit (h : ¬ c s) : Yields (fun n => loop c b out n s) s :=
  ⟨1, loop_exit h 0⟩

theorem loop_yields_round {t : S} (h : c s) (hb : b s = .ok s')
    (ht : Yields (fun n => loop c b out n s') t) : Yields (fun n => loop c b out n s) t := by
  obtain ⟨n, hn⟩ := ht
  exact ⟨n + 1, (loop_round h hb n).trans hn⟩

theorem loop_stable (s : S) : Stable fun n => loop c b out n s := by
  intro n
  induction n generalizing s with
  | zero =>
    intro m a _ h
    cases h
  | succ n ih =>
    intro m a hnm h
    obtain ⟨m, rfl⟩ : ∃ k, m = k + 1 := ⟨m - 1, by omega⟩
    beta_reduce at h ⊢
    by_cases hc : c s
    · cases hb : b s with
      | error e =>
        rw [loop, if_pos hc, hb] at h
        cases h
      | ok s' =>
        rw [loop_round hc hb] at h ⊢
        exact ih s' m a (by omega) h
    · rw [loop_exit hc] at h ⊢
      exact h

/-- The invariant rule. -/
theorem loop_invariant (P : S → Prop) (h : P s)
    (hstep : ∀ s s', P s → c s → b s = .ok s' → P s') {n : ℕ}
    (hn : loop c b out n s = .ok s') : P s' ∧ ¬ c s' := by
  induction n generalizing s with
  | zero => cases hn
  | succ n ih =>
    by_cases hc : c s
    · cases hb : b s with
      | error e =>
        rw [loop, if_pos hc, hb] at hn
        cases hn
      | ok t =>
        rw [loop_round hc hb] at hn
        exact ih (hstep s t h hc hb) hn
    · rw [loop_exit hc] at hn
      obtain rfl := Except.ok.inj hn
      exact ⟨h, hc⟩

/-- A loop whose body keeps the invariant and lowers the variant ends. -/
theorem loop_yields (out : E) (P : S → Prop) (μ : S → ℕ) (h : P s)
    (hstep : ∀ s, P s → c s → ∃ s', b s = .ok s' ∧ P s' ∧ μ s' < μ s) :
    ∃ s', Yields (fun n => loop c b out n s) s' ∧ P s' ∧ ¬ c s' := by
  have hend : ∃ s', Yields (fun n => loop c b out n s) s' := by
    induction hμ : μ s using Nat.strongRecOn generalizing s with
    | ind k ih =>
      by_cases hc : c s
      · obtain ⟨t, hb, ht, hlt⟩ := hstep s h hc
        obtain ⟨s', n, hn⟩ := ih (μ t) (hμ ▸ hlt) ht rfl
        exact ⟨s', n + 1, (loop_round hc hb n).trans hn⟩
      · exact ⟨s, 1, loop_exit hc 0⟩
  obtain ⟨s', n, hn⟩ := hend
  refine ⟨s', ⟨n, hn⟩, loop_invariant P h (fun s t hs hc hb => ?_) hn⟩
  obtain ⟨t', hb', ht', -⟩ := hstep s hs hc
  rw [hb] at hb'
  obtain rfl := Except.ok.inj hb'
  exact ht'

/-- A loop whose invariant implies its condition does not end. -/
theorem loop_diverges (P : S → Prop) (h : P s) (hcond : ∀ s, P s → c s)
    (hstep : ∀ s s', P s → b s = .ok s' → P s') :
    ¬ Halts fun n => loop c b out n s := by
  rintro ⟨s', n, hn⟩
  obtain ⟨hs', hc⟩ := loop_invariant P h (fun s t hs _ hb => hstep s t hs hb) hn
  exact hc (hcond s' hs')

end Loop

end WhileLoop
