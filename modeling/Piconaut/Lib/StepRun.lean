import Mathlib.Data.List.Basic

/-!
# Runs of a step function

`step s a` is the state after the action `a`, or `none` where the state does not
allow the action.  A run is a list of actions that are all allowed in turn.

`run_invariant` is the induction over a run: what every step keeps, the whole run
keeps.  `Always P` says that `P` holds of each action of a list at the state that
the actions before it lead to, and `always_congr` that two such properties agree
when they agree under an invariant.
-/

namespace StepRun

variable {σ α : Type} (step : σ → α → Option σ)

/-- The state after the actions, when all of them are allowed. -/
def run (s : σ) (as : List α) : Option σ := as.foldlM step s

@[simp] theorem run_nil (s : σ) : run step s [] = some s := rfl

@[simp] theorem run_cons (s : σ) (a : α) (as : List α) :
    run step s (a :: as) = (step s a).bind fun t => run step t as := rfl

theorem run_append (s : σ) (as bs : List α) :
    run step s (as ++ bs) = (run step s as).bind fun t => run step t bs := by
  induction as generalizing s with
  | nil => rfl
  | cons a as ih =>
    rw [List.cons_append, run_cons, run_cons, Option.bind_assoc]
    exact congrArg _ (funext ih)

/-- `P` holds of every action that the run takes or stops at. -/
def Always (P : σ → α → Prop) (s : σ) (as : List α) : Prop :=
  ∀ pre a post t, as = pre ++ a :: post → run step s pre = some t → P t a

/-- Every step keeps `I`. -/
def Keeps (I : σ → Prop) : Prop := ∀ s a s', I s → step s a = some s' → I s'

section Invariant

variable {step} {I : σ → Prop}

/-- What every step keeps, a run keeps. -/
theorem run_invariant (hI : Keeps step I) {s s' : σ} {as : List α} (hs : I s)
    (hrun : run step s as = some s') : I s' := by
  induction as generalizing s with
  | nil =>
    obtain rfl : s = s' := Option.some.inj hrun
    exact hs
  | cons a as ih =>
    rw [run_cons, Option.bind_eq_some_iff] at hrun
    obtain ⟨t, ht, hrest⟩ := hrun
    exact ih (hI s a t hs ht) hrest

/-- Two properties that agree wherever the invariant holds agree along a run. -/
theorem always_congr (hI : Keeps step I) {P Q : σ → α → Prop}
    (hiff : ∀ s a, I s → (P s a ↔ Q s a)) {s : σ} (hs : I s) (as : List α) :
    Always step P s as ↔ Always step Q s as := by
  constructor
  · intro h pre a post t has hrun
    have ht : I t := run_invariant hI hs hrun
    exact (hiff t a ht).1 (h pre a post t has hrun)
  · intro h pre a post t has hrun
    have ht : I t := run_invariant hI hs hrun
    exact (hiff t a ht).2 (h pre a post t has hrun)

end Invariant

end StepRun
