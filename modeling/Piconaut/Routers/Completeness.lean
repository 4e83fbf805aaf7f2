import Mathlib
import Piconaut.Lib.WildcardCover
import Piconaut.Routers.Resolution

/-!
# Route tables that shadow nothing

`MatchRoute` can miss a pattern that matches, because it prefers a static segment and does
not come back.  Whether that happens at all is a property of the registered patterns:
`complete_iff_closed` says that every request that some pattern matches reaches an
endpoint exactly if the patterns are `Closed`, and `Closed` is decided by comparing them
pairwise.  The table of `main.cc` is not closed because of its last route.
-/

namespace Piconaut.Routers

open Piconaut.CppStd Piconaut.Utils

variable {Fn : Type}

/-- The normalized pattern of an accepted call. -/
def Registered (calls : List (AddRouteCall Fn)) (s : Loc) : Prop :=
  ∃ c ∈ calls, c.accepted = true ∧ c.norm = s

/-- Wherever a static segment that is also a parameter value competes with a parameter,
the pattern with the parameter is covered by one with the static segment. -/
def Closed (calls : List (AddRouteCall Fn)) : Prop :=
  GreedyWalk.Closed paramMarker matchesParamRegex (Registered calls)

/-- Every list of request segments that a registered pattern matches is resolved to a
registered pattern. -/
def Complete (calls : List (AddRouteCall Fn)) : Prop :=
  ∀ xs, (∃ s, Registered calls s ∧ GreedyWalk.Matches paramMarker matchesParamRegex s xs) →
    ∃ s, Registered calls s ∧
      ∀ params, (matchParts xs (runCalls calls).root [] params).1 = .at s

instance (calls : List (AddRouteCall Fn)) (s : Loc) : Decidable (Registered calls s) :=
  inferInstanceAs (Decidable (∃ c ∈ calls, _))

instance (ls ks : Loc) : Decidable (GreedyWalk.Covers paramMarker matchesParamRegex ls ks) :=
  inferInstanceAs (Decidable (List.Forall₂ _ _ _))

/-! ## Deciding closedness -/

/-- The comparison of the patterns `p` and `q` at the position `i`. -/
def ClosedAt (calls : List (AddRouteCall Fn)) (p q : AddRouteCall Fn) (i : Nat) : Prop :=
  p.norm[i]? = some paramMarker → ∀ k ∈ q.norm[i]?, k ≠ paramMarker →
    matchesParamRegex k = true → p.norm.take i = q.norm.take i →
    ∃ r ∈ calls, r.accepted = true ∧ r.norm.take (i + 1) = q.norm.take (i + 1) ∧
      GreedyWalk.Covers paramMarker matchesParamRegex (r.norm.drop (i + 1))
        (p.norm.drop (i + 1))

instance (calls : List (AddRouteCall Fn)) (p q : AddRouteCall Fn) (i : Nat) :
    Decidable (ClosedAt calls p q i) := by
  unfold ClosedAt
  infer_instance

/-- A pattern is what is before a position, the key there, and what is behind it. -/
theorem eq_take_append {s : Loc} {i : Nat} {k : Str} (h : s[i]? = some k) :
    s = s.take i ++ k :: s.drop (i + 1) := by
  obtain ⟨hi, rfl⟩ := List.getElem?_eq_some_iff.1 h
  rw [List.getElem_cons_drop, List.take_append_drop]

/-- What is up to and including a position, and what is behind it. -/
theorem take_drop_append_cons (s : Loc) (k : Str) (t : Loc) :
    (s ++ k :: t).take (s.length + 1) = s ++ [k] ∧ (s ++ k :: t).drop (s.length + 1) = t := by
  rw [List.append_cons]
  exact ⟨List.take_left' (by simp), List.drop_left' (by simp)⟩

/-- Closedness is the comparison of all pairs of patterns. -/
theorem closed_iff (calls : List (AddRouteCall Fn)) :
    Closed calls ↔ ∀ p ∈ calls, p.accepted = true → ∀ q ∈ calls, q.accepted = true →
      ∀ i < p.norm.length, ClosedAt calls p q i := by
  constructor
  · intro hclosed p hp hpacc q hq hqacc i hi hmarker k hk hne hok hsame
    have hpsplit := eq_take_append hmarker
    have hqsplit := eq_take_append hk
    have hlive : p.norm.take i ++ [k] <+: q.norm := by
      rw [hsame]
      exact ⟨q.norm.drop (i + 1), by simpa using hqsplit.symm⟩
    obtain ⟨t', ⟨r, hr, hracc, hrnorm⟩, hcov⟩ := hclosed (p.norm.take i) k _ hne hok
      ⟨q.norm, ⟨q, hq, hqacc, rfl⟩, hlive⟩ ⟨p, hp, hpacc, hpsplit⟩
    have hlen : (p.norm.take i).length = i := by
      rw [List.length_take]
      omega
    obtain ⟨hrtake, hrdrop⟩ := take_drop_append_cons (p.norm.take i) k t'
    rw [← hrnorm, hlen] at hrtake hrdrop
    refine ⟨r, hr, hracc, ?_, by rw [hrdrop]; exact hcov⟩
    obtain ⟨rest, hrest⟩ := hlive
    obtain ⟨hqtake, -⟩ := take_drop_append_cons (p.norm.take i) k rest
    rw [List.append_cons, hlen, hrest] at hqtake
    rw [hrtake, hqtake]
  · rintro hall s k t hne hok ⟨_, ⟨q, hq, hqacc, rfl⟩, rest, hrest⟩ ⟨p, hp, hpacc, hpnorm⟩
    rw [← List.append_cons] at hrest
    obtain ⟨-, hpdrop⟩ := take_drop_append_cons s paramMarker t
    obtain ⟨hqtake, -⟩ := take_drop_append_cons s k rest
    rw [← hpnorm] at hpdrop
    rw [hrest] at hqtake
    have hi : s.length < p.norm.length := by
      rw [hpnorm]
      simp
    obtain ⟨r, hr, hracc, hrtake, hcov⟩ := hall p hp hpacc q hq hqacc s.length hi
      (by simp [hpnorm]) k (by simp [← hrest]) hne hok (by simp [hpnorm, ← hrest])
    rw [hqtake] at hrtake
    rw [hpdrop] at hcov
    refine ⟨r.norm.drop (s.length + 1), ⟨r, hr, hracc, ?_⟩, hcov⟩
    have hsplit := List.take_append_drop (s.length + 1) r.norm
    rw [hrtake, List.append_assoc, List.singleton_append] at hsplit
    exact hsplit.symm

instance (calls : List (AddRouteCall Fn)) : Decidable (Closed calls) :=
  decidable_of_iff _ (closed_iff calls).symm

/-! ## Completeness -/

/-- Some parameter value is no segment of any registered pattern. -/
theorem exists_fresh (calls : List (AddRouteCall Fn)) :
    ∃ x, matchesParamRegex x = true ∧ ∀ s, Registered calls s → x ∉ s := by
  let keys := (calls.flatMap AddRouteCall.norm).flatten
  let x : Str := List.replicate (keys.length + 1) (ch 'a')
  refine ⟨x, ?_, ?_⟩
  · have hall : ∀ c ∈ x, c = ch 'a' := fun c hc => List.eq_of_mem_replicate hc
    rw [matchesParamRegex, Bool.and_eq_true, List.all_eq_true]
    refine ⟨by simp [x], fun c hc => ?_⟩
    rw [hall c hc]
    decide
  · rintro _ ⟨c, hc, -, rfl⟩ hmem
    -- the value is longer than all segments together
    have hsub : x.Sublist keys :=
      List.sublist_flatten_of_mem (List.mem_flatMap.2 ⟨c, hc, hmem⟩)
    have hlen : x.length = keys.length + 1 := List.length_replicate
    have hle := hsub.length_le
    omega

/-- What the walk finds is what the loop of `MatchRoute` finds. -/
theorem matchParts_eq_at_iff (calls : List (AddRouteCall Fn)) (xs : List Str) (s : Loc) :
    (∀ params, (matchParts xs (runCalls calls).root [] params).1 = .at s) ↔
      walkFrom (runCalls calls).root [] xs = some s := by
  have hspec := matchParts_spec (runCalls_wellTyped calls) (PrefixTrie.sub?_nil _) xs
  cases hwalk : walkFrom (runCalls calls).root [] xs with
  | none =>
    simp only [hwalk] at hspec
    refine ⟨fun h => ?_, fun h => by cases h⟩
    have hnull := h PartialMap.empty
    rw [hspec] at hnull
    cases hnull
  | some s' =>
    simp only [hwalk] at hspec
    constructor
    · intro h
      obtain ⟨ks, -, hmatch⟩ := hspec PartialMap.empty
      have hat := h PartialMap.empty
      rw [hmatch] at hat
      rw [RouterMatchResult.at_inj hat]
    · intro h params
      obtain ⟨ks, -, hmatch⟩ := hspec params
      rw [hmatch, Option.some.inj h]

/-- Every request that a registered pattern matches reaches an endpoint exactly if the
registered patterns are closed, and that is the comparison of all pairs of patterns. -/
theorem complete_iff_closed (calls : List (AddRouteCall Fn)) :
    (Complete calls ↔ Closed calls) ∧
      (Closed calls ↔ ∀ p ∈ calls, p.accepted = true → ∀ q ∈ calls, q.accepted = true →
        ∀ i < p.norm.length, ClosedAt calls p q i) := by
  refine ⟨?_, closed_iff calls⟩
  have hN : ∀ s k, present (runCalls calls).root (s ++ [k]) = true ↔
      ∃ p, Registered calls p ∧ s ++ [k] <+: p := by
    intro s k
    rw [present_concat_iff]
    constructor
    · rintro ⟨q, hq, hacc, hpre⟩
      exact ⟨q.norm, ⟨q, hq, hacc, rfl⟩, hpre⟩
    · rintro ⟨_, ⟨q, hq, hacc, rfl⟩, hpre⟩
      exact ⟨q, hq, hacc, hpre⟩
  obtain ⟨x, hx, hfresh⟩ := exists_fresh calls
  rw [Closed, ← GreedyWalk.finds_all_iff_closed hN hx hfresh (by decide)]
  refine forall_congr' fun xs => imp_congr_right fun _ => exists_congr fun s => ?_
  rw [matchParts_eq_at_iff]

/-- Without its last route the table of `main.cc` shadows nothing. -/
example : Closed (mainRoutes.take 4) ∧ ¬ Closed mainRoutes := by decide +kernel

end Piconaut.Routers
