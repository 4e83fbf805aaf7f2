import Mathlib.Data.List.Infix
import Piconaut.Routers.RouteSyntax

/-!
# The language of `IsValidRoute`

`IsValidRoute` is a regular expression and a scan with one bit of state.  This
module says in plain terms which paths they accept.

* The expression accepts the concatenations of pieces (`matchesRouteRegex_iff`, with
  the definition of the pieces).
* The scan accepts a path if its braces alternate and no closing brace is right
  before an opening one (`scanBraces_iff`).  Its state is whether the last brace
  was an opening one, so the induction puts that brace in front of the others.

`isValidRoute_iff` is the two together.
-/

namespace Piconaut.Routers

open Piconaut.CppStd

/-- The braces of a path, in order. -/
def braces (path : Str) : Str := path.filter fun c => c = ch '{' || c = ch '}'

/-- An opening and a closing brace, `n` times. -/
def bracePairs (n : Nat) : Str := (List.replicate n [ch '{', ch '}']).flatten

/-! ## The scan -/

theorem braces_cons_of_ne {c : UInt8} (hopen : c ≠ ch '{') (hclose : c ≠ ch '}') (cs : Str) :
    braces (c :: cs) = braces cs := by
  simp [braces, hopen, hclose]

theorem braces_cons_open (cs : Str) : braces (ch '{' :: cs) = ch '{' :: braces cs := by
  simp [braces]

theorem braces_cons_close (cs : Str) : braces (ch '}' :: cs) = ch '}' :: braces cs := by
  simp [braces]

theorem bracePairs_succ (n : Nat) :
    bracePairs (n + 1) = ch '{' :: ch '}' :: bracePairs n := by
  rw [bracePairs, List.replicate_succ, List.flatten_cons]
  rfl

/-- Pairs start with an opening brace and then a closing one. -/
theorem cons_eq_bracePairs {b : UInt8} {bs : Str} {n : Nat} (h : b :: bs = bracePairs n) :
    b = ch '{' ∧ ∃ m, bs = ch '}' :: bracePairs m := by
  cases n with
  | zero => cases h
  | succ n =>
    rw [bracePairs_succ] at h
    exact ⟨(List.cons.inj h).1, n, (List.cons.inj h).2⟩

/-- A single opening brace is no sequence of pairs. -/
theorem not_pairs_open : ¬ ∃ n, [ch '{'] = bracePairs n := by
  rintro ⟨n, hn⟩
  obtain ⟨-, m, hm⟩ := cons_eq_bracePairs hn
  cases hm

/-- Two opening braces do not start pairs. -/
theorem not_pairs_open_open (bs : Str) : ¬ ∃ n, ch '{' :: ch '{' :: bs = bracePairs n := by
  rintro ⟨n, hn⟩
  obtain ⟨-, m, hm⟩ := cons_eq_bracePairs hn
  exact absurd (List.cons.inj hm).1 (by decide)

/-- A closing brace does not either. -/
theorem not_pairs_close (bs : Str) : ¬ ∃ n, ch '}' :: bs = bracePairs n := by
  rintro ⟨n, hn⟩
  exact absurd (cons_eq_bracePairs hn).1 (by decide)

/-- A pair in front of pairs makes pairs. -/
theorem pairs_open_close_iff (bs : Str) :
    (∃ n, ch '{' :: ch '}' :: bs = bracePairs n) ↔ ∃ n, bs = bracePairs n := by
  constructor
  · rintro ⟨n, hn⟩
    obtain ⟨-, m, hm⟩ := cons_eq_bracePairs hn
    exact ⟨m, (List.cons.inj hm).2⟩
  · rintro ⟨n, hn⟩
    exact ⟨n + 1, by rw [bracePairs_succ, ← hn]⟩

/-- A closing brace is right before an opening one at the front, or later. -/
theorem close_open_infix_cons (c : UInt8) (cs : Str) :
    [ch '}', ch '{'] <:+: c :: cs ↔
      (c = ch '}' ∧ cs.head? = some (ch '{')) ∨ [ch '}', ch '{'] <:+: cs := by
  rw [List.infix_cons_iff, List.cons_prefix_cons]
  refine or_congr_left ⟨?_, ?_⟩
  · rintro ⟨rfl, rest, rfl⟩
    exact ⟨rfl, rfl⟩
  · rintro ⟨rfl, hhead⟩
    obtain ⟨rest, rfl⟩ := List.head?_eq_some_iff.1 hhead
    exact ⟨rfl, rest, rfl⟩

/-- The scan accepts what completes the brace that is open, if one is, to pairs. -/
theorem scanBraces_iff (insideParam : Bool) (path : Str) :
    scanBraces insideParam path = true ↔
      (∃ n, (if insideParam then [ch '{'] else []) ++ braces path = bracePairs n) ∧
        ¬ [ch '}', ch '{'] <:+: path := by
  induction path generalizing insideParam with
  | nil =>
    cases insideParam with
    | false => exact ⟨fun _ => ⟨⟨0, rfl⟩, by simp⟩, fun _ => rfl⟩
    | true => exact ⟨fun h => (by cases h), fun h => absurd h.1 not_pairs_open⟩
  | cons c cs ih =>
    have hne : ch '{' ≠ ch '}' := by decide
    rw [scanBraces, close_open_infix_cons]
    by_cases hopen : c = ch '{'
    · subst hopen
      rw [if_pos rfl, braces_cons_open]
      cases insideParam with
      | false =>
        have hrest := ih true
        simp only [if_true, List.singleton_append] at hrest
        simp [hrest, hne]
      | true =>
        -- a second opening brace
        exact ⟨fun h => (by cases h), fun h => absurd h.1 (not_pairs_open_open _)⟩
    · by_cases hclose : c = ch '}'
      · subst hclose
        rw [if_neg hopen, if_pos rfl, braces_cons_close]
        cases insideParam with
        | false =>
          -- a closing brace and none is open
          exact ⟨fun h => (by cases h), fun h => absurd h.1 (not_pairs_close _)⟩
        | true =>
          have hrest := ih false
          rw [if_neg Bool.false_ne_true, List.nil_append] at hrest
          rw [if_pos rfl, List.singleton_append, pairs_open_close_iff]
          by_cases hhead : cs.head? = some (ch '{')
          · simp [hhead]
          · simp [hhead, hrest]
      · rw [if_neg hopen, if_neg hclose, ih insideParam, braces_cons_of_ne hopen hclose]
        simp [hclose]

/-- `IsValidRoute` accepts a path if it is a concatenation of pieces, its braces are
pairs, and no closing brace is right before an opening one. -/
theorem isValidRoute_iff (path : Str) :
    isValidRoute path = true ↔
      (∃ pieces : List Str, path = pieces.flatten ∧ ∀ piece ∈ pieces, IsPiece piece) ∧
      (∃ n, braces path = bracePairs n) ∧
      ¬ [ch '}', ch '{'] <:+: path := by
  rw [← matchesRouteRegex_iff]
  have hscan := scanBraces_iff false path
  rw [if_neg Bool.false_ne_true, List.nil_append] at hscan
  rw [← hscan, isValidRoute]
  cases matchesRouteRegex path with
  | true => simp
  | false => simp

end Piconaut.Routers
