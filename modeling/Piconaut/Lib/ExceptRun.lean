/-!
# Runs that can fail

A run is a fold of a step that may fail.  `bind_eq_ok_iff` takes a successful
sequence of two computations apart, `foldlM_cons_eq_ok` does the same for the
first step of a run, and `foldlM_invariant` is the induction over a run: what
every step keeps, a run that succeeds keeps.  `map_foldlM` is the simulation: an
abstraction that commutes with every step, failures included, commutes with a run.
-/

namespace ExceptRun

variable {ε α β σ : Type}

@[simp] theorem ok_bind (a : α) (f : α → Except ε β) : (Except.ok a >>= f) = f a := rfl

@[simp] theorem error_bind (e : ε) (f : α → Except ε β) :
    (Except.error e >>= f) = Except.error e := rfl

@[simp] theorem pure_eq_ok (a : α) : (pure a : Except ε α) = Except.ok a := rfl

theorem bind_eq_ok_iff {x : Except ε α} {f : α → Except ε β} {b : β} :
    x >>= f = .ok b ↔ ∃ a, x = .ok a ∧ f a = .ok b := by
  cases x with
  | error e => simp
  | ok a => simp

variable {f : σ → α → Except ε σ}

theorem foldlM_cons_eq_ok {a : α} {as : List α} {s s' : σ} :
    (a :: as).foldlM f s = .ok s' ↔ ∃ t, f s a = .ok t ∧ as.foldlM f t = .ok s' := by
  rw [List.foldlM_cons, bind_eq_ok_iff]

theorem foldlM_concat (as : List α) (a : α) (s : σ) :
    (as ++ [a]).foldlM f s = as.foldlM f s >>= fun t => f t a := by
  simp only [List.foldlM_append, List.foldlM_cons, List.foldlM_nil, bind_pure]

/-- What every step keeps, a run that succeeds keeps. -/
theorem foldlM_invariant {I : σ → Prop} (hstep : ∀ s a s', I s → f s a = .ok s' → I s')
    {as : List α} {s s' : σ} (hs : I s) (hrun : as.foldlM f s = .ok s') : I s' := by
  induction as generalizing s with
  | nil =>
    obtain rfl : s = s' := Except.ok.inj hrun
    exact hs
  | cons a as ih =>
    obtain ⟨t, ht, hrest⟩ := foldlM_cons_eq_ok.1 hrun
    exact ih (hstep s a t hs ht) hrest

/-- The abstraction `abs` commutes with a run if it commutes with every step under an
invariant that the steps keep. -/
theorem map_foldlM {τ : Type} {g : τ → α → Except ε τ} {abs : σ → τ} {I : σ → Prop}
    (hkeep : ∀ s a s', I s → f s a = .ok s' → I s')
    (hstep : ∀ s a, I s → (f s a).map abs = g (abs s) a) {s : σ} (hs : I s) (as : List α) :
    (as.foldlM f s).map abs = as.foldlM g (abs s) := by
  induction as generalizing s with
  | nil => rfl
  | cons a as ih =>
    have hfirst := hstep s a hs
    rw [List.foldlM_cons, List.foldlM_cons, ← hfirst]
    cases hrun : f s a with
    | error e => rfl
    | ok t => exact ih (hkeep s a t hs hrun)

end ExceptRun
