import Piconaut.CppStd.Strings
import Piconaut.Lib.ExceptRun

/-!
# `piconaut/utils/string_utils.h`

The two overloads of `SplitString` and `RemoveSpacesRef`.

Both overloads run the same loop: cut a token at the next delimiter, move
`start` behind it, search again.  They differ in what they do with a token and
in how they cut the last one, so `splitLoop` takes the token consumer as an
argument and each overload adds its own last cut.  The loop is bounded by a
`fuel`; `splitLoop_spec` says that one step for each byte, and one more, are
enough.

`splitString_eq` and `splitStringCallback_eq` give both overloads in terms of
`List.splitOn`.
-/

namespace Piconaut.Utils

open Piconaut.CppStd

variable {σ : Type}

/-- The `while (end != npos)` loop of both overloads.  `emit` consumes one
token; the result is the final `start`, the final `end` and the consumed
tokens. -/
def splitLoop (s : Str) (delimiter : UInt8) (emit : σ → Str → σ) :
    Nat → Nat → Nat → σ → Except StdException (Nat × Nat × σ)
  | 0, start, stop, acc => .ok (start, stop, acc)
  | fuel + 1, start, stop, acc =>
    if stop ≠ npos then do
      let token ← substr s start (subSize stop start)
      splitLoop s delimiter emit fuel (stop + 1) (find s delimiter (stop + 1))
        (emit acc token)
    else .ok (start, stop, acc)

/-- `SplitString(str, delimiter)`, the overload that returns the tokens. -/
def splitString (s : StdString) (delimiter : UInt8) : Except StdException (List Str) := do
  let (start, stop, tokens) ← splitLoop s.bytes delimiter (fun ts t => ts ++ [t])
    (s.bytes.length + 1) 0 (find s.bytes delimiter 0) []
  let token ← substr s.bytes start (subSize stop start)
  return tokens ++ [token]

/-- `SplitString(str, delimiter, callback)`, the overload that passes each
token to a callback.  The callback acts on a state `σ`. -/
def splitStringCallback (s : StdString) (delimiter : UInt8) (callback : σ → Str → σ)
    (init : σ) : Except StdException σ := do
  let (start, _, acc) ← splitLoop s.bytes delimiter callback
    (s.bytes.length + 1) 0 (find s.bytes delimiter 0) init
  let token ← substr s.bytes start npos
  return callback acc token

/-- `RemoveSpacesRef(str)`. -/
def removeSpacesRef (s : Str) : Str := s.filter fun c => !isspace c

/-- The loop leaves with `stop = npos`, has consumed every token but the last
one, and `start` is where the last one begins.  The induction is on the fuel,
which stays above the number of bytes behind `start`. -/
theorem splitLoop_spec {s : Str} (hs : s.length < npos) (d : UInt8)
    (emit : σ → Str → σ) (fuel start : Nat) (acc : σ) (hstart : start ≤ s.length)
    (hfuel : s.length < start + fuel) :
    ∃ toks start', start' ≤ s.length ∧
      (s.drop start).splitOn d = toks ++ [s.drop start'] ∧
      splitLoop s d emit fuel start (find s d start) acc =
        .ok (start', npos, toks.foldl emit acc) := by
  induction fuel generalizing start acc with
  | zero => omega
  | succ fuel ih =>
    rw [splitLoop]
    by_cases hnpos : find s d start = npos
    · have hno : d ∉ s.drop start := (find_eq_npos_iff hs hstart).1 hnpos
      refine ⟨[], start, hstart, ?_, ?_⟩
      · rw [List.splitOn_eq_singleton hno, List.nil_append]
      · simp [hnpos]
    · obtain ⟨tok, rest, hdrop, htok, hfind⟩ := find_spec hnpos
      have hlen : s.length = start + tok.length + 1 + rest.length := by
        have h := congrArg List.length hdrop
        simp only [List.length_drop, List.length_append, List.length_cons] at h
        omega
      have hrest : s.drop (start + tok.length + 1) = rest := by
        rw [show start + tok.length + 1 = start + (tok.length + 1) by omega,
          ← List.drop_drop, hdrop]
        simp
      have hsub : substr s start (subSize (find s d start) start) = .ok tok := by
        rw [hfind, subSize_of_le (by omega) (by omega), substr, if_neg (by omega), hdrop]
        simp
      obtain ⟨toks, start', hle, hsplit, hloop⟩ :=
        ih (start + tok.length + 1) (emit acc tok) (by omega) (by omega)
      refine ⟨tok :: toks, start', hle, ?_, ?_⟩
      · rw [hdrop, List.splitOn_append_cons_self_of_not_mem htok, ← hrest, hsplit,
          List.cons_append]
      · rw [if_pos hnpos, hsub, List.foldl_cons, ← hloop, ← hfind]
        rfl

/-- Pushing the tokens back one by one gives the tokens. -/
theorem foldl_concat (tokens : List Str) :
    tokens.foldl (fun ts t => ts ++ [t]) [] = tokens := by
  rw [List.foldl_append_eq_append, List.nil_append, ← List.flatMap_def, List.flatMap_singleton']

/-- The first overload returns the parts between the delimiters. -/
theorem splitString_eq (s : StdString) (d : UInt8) :
    splitString s d = .ok (s.bytes.splitOn d) := by
  obtain ⟨toks, start, hle, hsplit, hloop⟩ :=
    splitLoop_spec s.size_lt d (fun ts t => ts ++ [t]) (s.bytes.length + 1) 0 []
      (Nat.zero_le _) (by omega)
  have hlt := s.size_lt
  have hlast : substr s.bytes start (subSize npos start) = .ok (s.bytes.drop start) := by
    rw [subSize_of_le (by omega) (Nat.le_refl _)]
    exact substr_rest hle (by omega)
  rw [List.drop_zero] at hsplit
  rw [splitString, hloop, foldl_concat]
  simp [hlast, hsplit]

/-- The second overload passes on the same parts, in the same order. -/
theorem splitStringCallback_eq (s : StdString) (d : UInt8) (callback : σ → Str → σ)
    (init : σ) :
    splitStringCallback s d callback init =
      .ok ((s.bytes.splitOn d).foldl callback init) := by
  obtain ⟨toks, start, hle, hsplit, hloop⟩ :=
    splitLoop_spec s.size_lt d callback (s.bytes.length + 1) 0 init
      (Nat.zero_le _) (by omega)
  have hlt := s.size_lt
  have hlast : substr s.bytes start npos = .ok (s.bytes.drop start) :=
    substr_rest hle (by omega)
  rw [List.drop_zero] at hsplit
  rw [splitStringCallback, hloop]
  simp [hlast, hsplit]

end Piconaut.Utils
