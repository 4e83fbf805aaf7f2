/-!
# While loops

`Ends cond body s r` says that the loop `while (cond) body` ends when it is started in
`s`, with the result `r`: the state in which the condition fails, or what the body
throws.  A loop that runs for ever has no result.  The body is a function, so there is
at most one result (`Ends.unique`).

`bounded` is the same loop with a bound on the number of iterations, as a function that
can be evaluated.  Where it stops because the condition fails, the loop ends
(`ends_of_bounded`).
-/

namespace WhileLoop

variable {ε σ : Type}

/-- The loop from a state ends with a result. -/
inductive Ends (cond : σ → Prop) (body : σ → Except ε σ) : σ → Except ε σ → Prop where
  | exit {s} (hcond : ¬ cond s) : Ends cond body s (.ok s)
  | throw {s e} (hcond : cond s) (hbody : body s = .error e) : Ends cond body s (.error e)
  | next {s t r} (hcond : cond s) (hbody : body s = .ok t) (hrest : Ends cond body t r) :
      Ends cond body s r

/-- At most `fuel` iterations of the loop. -/
def bounded (cond : σ → Prop) [DecidablePred cond] (body : σ → Except ε σ) :
    Nat → σ → Except ε σ
  | 0, s => .ok s
  | fuel + 1, s => if cond s then body s >>= bounded cond body fuel else .ok s

variable {cond : σ → Prop} {body : σ → Except ε σ}

/-- The result of a loop is unique. -/
theorem Ends.unique {s : σ} {r r' : Except ε σ} (h : Ends cond body s r)
    (h' : Ends cond body s r') : r = r' := by
  induction h with
  | exit hcond =>
    cases h' with
    | exit => rfl
    | throw hcond' => exact absurd hcond' hcond
    | next hcond' => exact absurd hcond' hcond
  | throw hcond hbody =>
    cases h' with
    | exit hcond' => exact absurd hcond hcond'
    | throw _ hbody' =>
      rw [hbody] at hbody'
      exact congrArg Except.error (Except.error.inj hbody')
    | next _ hbody' =>
      rw [hbody] at hbody'
      cases hbody'
  | next hcond hbody _ ih =>
    cases h' with
    | exit hcond' => exact absurd hcond hcond'
    | throw _ hbody' =>
      rw [hbody] at hbody'
      cases hbody'
    | next _ hbody' hrest' =>
      rw [hbody] at hbody'
      obtain rfl := Except.ok.inj hbody'
      exact ih hrest'

/-- A bounded loop that left through its condition is the whole loop. -/
theorem ends_of_bounded [DecidablePred cond] {fuel : Nat} {s t : σ}
    (h : bounded cond body fuel s = .ok t) (ht : ¬ cond t) : Ends cond body s (.ok t) := by
  induction fuel generalizing s with
  | zero =>
    obtain rfl : s = t := Except.ok.inj h
    exact .exit ht
  | succ fuel ih =>
    rw [bounded] at h
    split at h
    · rename_i hcond
      cases hbody : body s with
      | error e =>
        rw [hbody] at h
        cases h
      | ok u =>
        rw [hbody] at h
        exact .next hcond hbody (ih h)
    · obtain rfl : s = t := Except.ok.inj h
      exact .exit ht

end WhileLoop
