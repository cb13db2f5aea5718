/-
Programs that call services.

A `Prog` ends with a result, is stopped, or calls a service and goes on with what it answers.
`Run p es o` says that `es` are calls of the program with their answers, up to the result `o`
or to any point before it.  A `Monitor` follows the calls: it has a state, and allows a call or
not.

`wp` is the condition under which all calls of a program are allowed and a property holds at
its end, whatever is answered (`Run.accepts`).  It is taken apart as the program is
(`wp_bind`), and a part whose calls do not matter is passed over (`Only.wp`).
-/
import Mathlib.Tactic.Common

namespace ServicePrograms

variable {C : Type} {R : C → Type} {A B E S : Type}

/-- A program; `R c` is what the call `c` is answered with. -/
inductive Prog (R : C → Type) (A : Type) : Type
  | ret (a : A)
  | stop
  | call (c : C) (k : R c → Prog R A)

namespace Prog

def bind : Prog R A → (A → Prog R B) → Prog R B
  | ret a, f => f a
  | stop, _ => stop
  | call c k, f => call c fun r => (k r).bind f

instance : Monad (Prog R) where
  pure := ret
  bind := bind

/-- A single call. -/
def request (c : C) : Prog R (R c) := call c ret

/-- The run in which every call is answered by a function. -/
def runWith (respond : (c : C) → R c) : Prog R A → List ((c : C) × R c) × Option A
  | ret a => ([], some a)
  | stop => ([], none)
  | call c k =>
    let r := (k (respond c)).runWith respond
    (⟨c, respond c⟩ :: r.1, r.2)

end Prog

/-- The calls of a run with their answers, and the result if it has come to an end. -/
inductive Run : Prog R A → List ((c : C) × R c) → Option A → Prop
  | ret (a : A) : Run (.ret a) [] (some a)
  | cut (p : Prog R A) : Run p [] none
  | call {c : C} {k : R c → Prog R A} {r : R c} {es : List ((c : C) × R c)} {o : Option A} :
    Run (k r) es o → Run (.call c k) (⟨c, r⟩ :: es) o

theorem Run.runWith (respond : (c : C) → R c) (p : Prog R A) :
    Run p (p.runWith respond).1 (p.runWith respond).2 := by
  induction p with
  | ret a => exact .ret a
  | stop => exact .cut _
  | call c k ih => exact .call (ih (respond c))

/-- It allows calls in a state, and says how the state goes on behind them. -/
structure Monitor (R : C → Type) (S : Type) where
  allows : S → C → Prop
  next : S → (c : C) → R c → S

/-- All calls are allowed, from a state on. -/
def Monitor.Accepts (M : Monitor R S) : S → List ((c : C) × R c) → Prop
  | _, [] => True
  | s, e :: es => M.allows s e.1 ∧ M.Accepts (M.next s e.1 e.2) es

/-- The state behind some calls. -/
def Monitor.after (M : Monitor R S) : S → List ((c : C) × R c) → S
  | s, [] => s
  | s, e :: es => M.after (M.next s e.1 e.2) es

variable {M : Monitor R S} {Q Q' : A → S → Prop} {s : S}

/-- All calls of the program are allowed, and a result has the property. -/
def Prog.wp (M : Monitor R S) : Prog R A → (A → S → Prop) → S → Prop
  | ret a, Q, s => Q a s
  | stop, _, _ => True
  | call c k, Q, s => M.allows s c ∧ ∀ r, (k r).wp M Q (M.next s c r)

theorem Run.accepts {p : Prog R A} {es : List ((c : C) × R c)} {o : Option A} (h : Run p es o)
    (hp : p.wp M Q s) : M.Accepts s es := by
  induction h generalizing s with
  | ret a => trivial
  | cut p => trivial
  | call _ ih => exact ⟨hp.1, ih (hp.2 _)⟩

theorem wp_mono {p : Prog R A} (hp : p.wp M Q s) (h : ∀ a s, Q a s → Q' a s) : p.wp M Q' s := by
  induction p generalizing s with
  | ret a => exact h a s hp
  | stop => trivial
  | call c k ih => exact ⟨hp.1, fun r => ih r (hp.2 r)⟩

theorem wp_of_eq {s' : S} {p : Prog R A} (hs : s = s') (h : p.wp M Q s') : p.wp M Q s := hs ▸ h

@[simp] theorem wp_bind {p : Prog R A} {f : A → Prog R B} {Q : B → S → Prop} :
    (p >>= f).wp M Q s ↔ p.wp M (fun a s => (f a).wp M Q s) s := by
  induction p generalizing s with
  | ret a => exact Iff.rfl
  | stop => exact Iff.rfl
  | call c k ih => exact and_congr Iff.rfl (forall_congr' fun r => ih r)

/-! ### Programs that can be left -/

section ExceptT

variable {Q : Except E B → S → Prop}

@[simp] theorem wp_exceptT_bind {p : ExceptT E (Prog R) A} {f : A → ExceptT E (Prog R) B} :
    (p >>= f).run.wp M Q s ↔ p.run.wp M (fun r s => match r with
      | .ok a => (f a).run.wp M Q s
      | .error e => Q (.error e) s) s := by
  show (Prog.bind p.run _).wp M Q s ↔ _
  refine wp_bind.trans ⟨fun h => wp_mono h ?_, fun h => wp_mono h ?_⟩
  · rintro (e | a) s h
    · exact h
    · exact h
  · rintro (e | a) s h
    · exact h
    · exact h

@[simp] theorem wp_exceptT_lift {p : Prog R A} {Q : Except E A → S → Prop} :
    (liftM p : ExceptT E (Prog R) A).run.wp M Q s ↔ p.wp M (fun a s => Q (.ok a) s) s :=
  wp_bind

/-- The conditions for a result and for an error. -/
def Outcome (Q : A → S → Prop) (X : E → S → Prop) : Except E A → S → Prop
  | .ok a, s => Q a s
  | .error e, s => X e s

variable {P : A → S → Prop} {Q : B → S → Prop} {X : E → S → Prop}
  {f : A → ExceptT E (Prog R) B}

theorem wp_seq {p : ExceptT E (Prog R) A} (hp : p.run.wp M (Outcome P X) s)
    (hf : ∀ a s, P a s → (f a).run.wp M (Outcome Q X) s) :
    (p >>= f).run.wp M (Outcome Q X) s := by
  refine wp_exceptT_bind.mpr (wp_mono hp ?_)
  rintro (e | a) s h
  · exact h
  · exact hf a s h

theorem wp_lift {p : Prog R A} (h : p.wp M (fun a s => (f a).run.wp M (Outcome Q X) s) s) :
    ((liftM p : ExceptT E (Prog R) A) >>= f).run.wp M (Outcome Q X) s :=
  wp_exceptT_bind.mpr (wp_exceptT_lift.mpr h)

theorem wp_call {c : C} {f : R c → ExceptT E (Prog R) B} (h : M.allows s c)
    (hf : ∀ r, (f r).run.wp M (Outcome Q X) (M.next s c r)) :
    ((liftM (Prog.request c : Prog R (R c)) : ExceptT E (Prog R) (R c)) >>= f).run.wp M
      (Outcome Q X) s :=
  wp_lift ⟨h, hf⟩

end ExceptT

/-! ### Calls that do not matter -/

/-- All calls of the program have a property. -/
def Prog.Only (P : C → Prop) : Prog R A → Prop
  | ret _ => True
  | stop => True
  | call c k => P c ∧ ∀ r, (k r).Only P

/-- Calls that are allowed and do not change the state. -/
theorem Prog.Only.wp {P : C → Prop} {p : Prog R A} (h : p.Only P)
    (hs : ∀ c, P c → M.allows s c ∧ ∀ r, M.next s c r = s) (hQ : ∀ a, Q a s) : p.wp M Q s := by
  induction p with
  | ret a => exact hQ a
  | stop => trivial
  | call c k ih =>
    refine ⟨(hs c h.1).1, fun r => ?_⟩
    rw [(hs c h.1).2 r]
    exact ih r (h.2 r)

@[simp] theorem only_request (P : C → Prop) (c : C) :
    (Prog.request c : Prog R (R c)).Only P ↔ P c :=
  ⟨fun h => h.1, fun h => ⟨h, fun _ => trivial⟩⟩

theorem only_bind {P : C → Prop} {p : Prog R A} {f : A → Prog R B} (hp : p.Only P)
    (hf : ∀ a, (f a).Only P) : (p >>= f).Only P := by
  induction p with
  | ret a => exact hf a
  | stop => trivial
  | call c k ih => exact ⟨hp.1, fun r => ih r (hp.2 r)⟩

end ServicePrograms
