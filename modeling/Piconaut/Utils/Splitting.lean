import Piconaut.Lib.SeparatedList
import Piconaut.Lib.WhileLoop
import Piconaut.Utils.StringUtils

/-!
# Both `SplitString`s are the inverse of joining

`Router::AddRoute` splits a path with one overload of `SplitString` and
`Router::MatchRoute` with the other.  The overloads run the same loop and cut the
last token in two ways: up to `end - start` bytes, where `end` is `npos`, and up to
`npos` bytes.  Both counts are at least the bytes that are left, and `substr`
clamps them.

Here the loop has no bound: `SplitStringEnds` and `SplitStringCallbackEnds` say that
a call ends with a result.  The bounded loop of `Piconaut.Utils.StringUtils` never
reaches its bound, so it gives the same results (`splitStringEnds_iff`,
`splitStringCallbackEnds_iff`).
-/

namespace Piconaut.Utils

open Piconaut.CppStd SeparatedList WhileLoop

variable {σ : Type}

/-! ## The overloads without a bound -/

/-- `end != std::string::npos`, on the variables `start` and `end` of the loop and what
was made of the tokens so far. -/
def Found : Nat × Nat × σ → Prop
  | (_, stop, _) => stop ≠ npos

instance : DecidablePred (Found (σ := σ)) := fun (_, stop, _) =>
  inferInstanceAs (Decidable (stop ≠ npos))

/-- The body of the loop.  It runs only while `end` is a position, so `end + 1` does
not wrap. -/
def splitBody (s : Str) (delimiter : UInt8) (emit : σ → Str → σ) :
    Nat × Nat × σ → Except StdException (Nat × Nat × σ)
  | (start, stop, acc) => do
    let token ← substr s start (subSize stop start)
    return (stop + 1, find s delimiter (stop + 1), emit acc token)

/-- The loop, from its first search on, ends with the result `r`. -/
def LoopEnds (s : Str) (delimiter : UInt8) (emit : σ → Str → σ) (init : σ)
    (r : Except StdException (Nat × Nat × σ)) : Prop :=
  Ends Found (splitBody s delimiter emit) (0, find s delimiter 0, init) r

/-- `SplitString(str, delimiter)` ends: it returns `r` or throws it. -/
def SplitStringEnds (s : StdString) (delimiter : UInt8)
    (r : Except StdException (List Str)) : Prop :=
  ∃ final, LoopEnds s.bytes delimiter (fun ts t => ts ++ [t]) [] final ∧
    r = do
      let (start, stop, tokens) ← final
      let token ← substr s.bytes start (subSize stop start)
      return tokens ++ [token]

/-- `SplitString(str, delimiter, callback)` ends: `r` is what the callback has made of
`init` when the call returns, or what the call throws. -/
def SplitStringCallbackEnds (s : StdString) (delimiter : UInt8) (callback : σ → Str → σ)
    (init : σ) (r : Except StdException σ) : Prop :=
  ∃ final, LoopEnds s.bytes delimiter callback init final ∧
    r = do
      let (start, _, acc) ← final
      let token ← substr s.bytes start npos
      return callback acc token

/-- The callback that keeps its arguments, in order. -/
def keepArgument (arguments : List Str) (argument : Str) : List Str :=
  arguments ++ [argument]

/-! ## The bound is not reached -/

/-- `splitLoop` is the loop with a bound. -/
theorem splitLoop_eq_bounded (s : Str) (d : UInt8) (emit : σ → Str → σ)
    (fuel start stop : Nat) (acc : σ) :
    splitLoop s d emit fuel start stop acc =
      bounded Found (splitBody s d emit) fuel (start, stop, acc) := by
  induction fuel generalizing start stop acc with
  | zero => rfl
  | succ fuel ih =>
    rw [splitLoop, bounded]
    by_cases hstop : stop ≠ npos
    · rw [if_pos hstop, if_pos (show Found (start, stop, acc) from hstop), splitBody]
      cases substr s start (subSize stop start) with
      | error e => rfl
      | ok token => exact ih _ _ _
    · rw [if_neg hstop, if_neg (show ¬ Found (start, stop, acc) from hstop)]

/-- The loop ends, and only with the result of the bounded loop. -/
theorem loopEnds_iff (s : StdString) (d : UInt8) (emit : σ → Str → σ) (init : σ)
    (r : Except StdException (Nat × Nat × σ)) :
    LoopEnds s.bytes d emit init r ↔
      r = splitLoop s.bytes d emit (s.bytes.length + 1) 0 (find s.bytes d 0) init := by
  obtain ⟨toks, start, -, -, hloop⟩ :=
    splitLoop_spec s.size_lt d emit (s.bytes.length + 1) 0 init (Nat.zero_le _) (by omega)
  have hbounded := hloop
  rw [splitLoop_eq_bounded] at hbounded
  have hends : LoopEnds s.bytes d emit init (.ok (start, npos, toks.foldl emit init)) :=
    ends_of_bounded hbounded fun hfound => hfound rfl
  rw [hloop]
  constructor
  · intro h
    exact h.unique hends
  · rintro rfl
    exact hends

theorem splitStringEnds_iff (s : StdString) (d : UInt8) (r : Except StdException (List Str)) :
    SplitStringEnds s d r ↔ r = splitString s d := by
  simp only [SplitStringEnds, loopEnds_iff, exists_eq_left]
  rfl

theorem splitStringCallbackEnds_iff (s : StdString) (d : UInt8) (callback : σ → Str → σ)
    (init : σ) (r : Except StdException σ) :
    SplitStringCallbackEnds s d callback init r ↔
      r = splitStringCallback s d callback init := by
  simp only [SplitStringCallbackEnds, loopEnds_iff, exists_eq_left]
  rfl

/-! ## The result -/

/-- Both overloads end without an exception.  What the first one returns is what the
second one passes to its callback: the only parts without a delimiter that join to the
string.  There is one part more than there are delimiters, and leading, trailing and
consecutive delimiters give empty parts. -/
theorem splitStrings_invert_join (s : StdString) (d : UInt8) :
    (∀ r, SplitStringEnds s d r ↔ r = .ok (split d s.bytes).parts) ∧
      (∀ r, SplitStringCallbackEnds s d keepArgument [] r ↔ SplitStringEnds s d r) ∧
      (∀ (σ : Type) (callback : σ → Str → σ) (init : σ) (r : Except StdException σ),
        SplitStringCallbackEnds s d callback init r ↔
          r = .ok ((split d s.bytes).parts.foldl callback init)) ∧
      (∀ p : Parts d, p.join = s.bytes ↔ p = split d s.bytes) ∧
      (split d s.bytes).parts.length = s.bytes.count d + 1 ∧
      EmptyParts d s.bytes := by
  have hvector : ∀ r, SplitStringEnds s d r ↔ r = .ok (split d s.bytes).parts := by
    intro r
    rw [splitStringEnds_iff, splitString_eq]
    rfl
  have hcallback : ∀ (σ : Type) (callback : σ → Str → σ) (init : σ)
      (r : Except StdException σ), SplitStringCallbackEnds s d callback init r ↔
        r = .ok ((split d s.bytes).parts.foldl callback init) := by
    intro σ callback init r
    rw [splitStringCallbackEnds_iff, splitStringCallback_eq]
    rfl
  refine ⟨hvector, fun r => ?_, hcallback, fun _ => join_eq_iff, length_splitOn d s.bytes,
    emptyParts d s.bytes⟩
  have hkeep : (split d s.bytes).parts.foldl keepArgument [] = (split d s.bytes).parts :=
    foldl_concat _
  rw [hvector, hcallback, hkeep]

example : splitString ⟨str "/a//", by decide⟩ (ch '/') = .ok [[], str "a", [], []] := rfl

end Piconaut.Utils
