import Mathlib.Data.Nat.Find
import Piconaut.Lib.WildcardInsert
import Piconaut.Routers.RouteOrder

/-!
# What one more `AddRoute` does to the requests

An accepted call adds nodes behind the part of its pattern that is there already.  A
request is diverted if its descent arrives at the end of that part and goes on into the new
nodes.  From then on it can only follow the new pattern, also where it was resolved to
another one before.  Every other request is resolved as before, and only the endpoint at
the pattern's own address is replaced (`outcome_addRoute`).
-/

namespace Piconaut.Routers

open Piconaut.CppStd Piconaut.Utils

variable {Fn : Type}

/-! ## The new nodes -/

/-- The number of keys of an address that lead along existing nodes. -/
def sharedLength (t : RouterNode Fn) (s : Loc) : Nat :=
  Nat.findGreatest (fun i => present t (s.take i) = true) s.length

/-- The request goes on into the nodes that the call `q` adds. -/
def Diverts (calls : List (AddRouteCall Fn)) (q : AddRouteCall Fn) (r : StdString) : Prop :=
  GreedyWalk.Enters (present (runCalls calls).root) paramMarker matchesParamRegex q.norm
    (sharedLength (runCalls calls).root q.norm) (segments r.bytes)

instance (calls : List (AddRouteCall Fn)) (q : AddRouteCall Fn) (r : StdString) :
    Decidable (Diverts calls q r) := by
  unfold Diverts
  infer_instance

/-- The nodes after an accepted call. -/
theorem present_addRoute (calls : List (AddRouteCall Fn)) {q : AddRouteCall Fn}
    (hacc : q.accepted = true) (s : Loc) :
    present (runCalls (calls ++ [q])).root s = true ↔
      present (runCalls calls).root s = true ∨ s <+: q.norm := by
  rw [present_iff, present_iff]
  constructor
  · rintro (hnil | ⟨c, hc, hcacc, hs⟩)
    · exact Or.inl (Or.inl hnil)
    · rcases List.mem_append.1 hc with hc | hc
      · exact Or.inl (Or.inr ⟨c, hc, hcacc, hs⟩)
      · obtain rfl := List.mem_singleton.1 hc
        exact Or.inr hs
  · rintro ((hnil | ⟨c, hc, hcacc, hs⟩) | hs)
    · exact Or.inl hnil
    · exact Or.inr ⟨c, List.mem_append_left _ hc, hcacc, hs⟩
    · exact Or.inr ⟨q, by simp, hacc, hs⟩

/-- An accepted call inserts its pattern behind the shared part. -/
theorem inserts_addRoute (calls : List (AddRouteCall Fn)) {q : AddRouteCall Fn}
    (hacc : q.accepted = true) :
    GreedyWalk.Inserts (present (runCalls calls).root) (present (runCalls (calls ++ [q])).root)
      q.norm (sharedLength (runCalls calls).root q.norm) where
  mem := present_addRoute calls hacc
  le_length := Nat.findGreatest_le _
  shared := by
    have hroot : present (runCalls calls).root (q.norm.take 0) = true :=
      (present_iff calls _).2 (Or.inl rfl)
    exact Nat.findGreatest_spec (P := fun i => present (runCalls calls).root
      (q.norm.take i) = true) (Nat.zero_le _) hroot
  fresh i hi hlen := by
    have hno := Nat.findGreatest_is_greatest hi hlen
    simpa using hno

/-! ## Outcomes -/

/-- The endpoint that a call registers. -/
def AddRouteCall.outcome (q : AddRouteCall Fn) : Outcome Fn :=
  match q.handler with
  | none => .noHandler
  | some handler => .endpoint q.key handler

/-- The outcome of a request that follows the nodes of `q` alone: behind the end of the
request nothing of `q` is left, or a node without a handler is reached, or there is no
node. -/
def outcomeAlong (q : AddRouteCall Fn) (r : StdString) : Outcome Fn :=
  if MatchesRequest q r then q.outcome
  else if GreedyWalk.Matches paramMarker matchesParamRegex
      (q.norm.take (segments r.bytes).length) (segments r.bytes) then .noHandler
  else .empty

/-- What is found at the end of a walk. -/
def Router.outcomeAt (router : Router Fn) : Option Loc → Outcome Fn
  | none => .empty
  | some s => router.outcomeOf (.at s)

/-- The outcome of a request is that of its walk. -/
theorem outcome_eq_outcomeAt (calls : List (AddRouteCall Fn)) (r : StdString)
    (params : Params) :
    (runCalls calls).outcome r params =
      .ok ((runCalls calls).outcomeAt (walkFrom (runCalls calls).root [] (segments r.bytes))) := by
  have hspec := matchParts_spec (runCalls_wellTyped calls) (PrefixTrie.sub?_nil _)
    (segments r.bytes) params
  rw [Router.outcome, Router.matchRoute_eq, ExceptRun.ok_bind]
  cases hwalk : walkFrom (runCalls calls).root [] (segments r.bytes) with
  | none =>
    simp only [hwalk] at hspec
    show Except.ok ((runCalls calls).outcomeOf _) = _
    rw [hspec]
    rfl
  | some s =>
    simp only [hwalk] at hspec
    obtain ⟨ks, -, hmatch⟩ := hspec
    rw [hmatch]
    rfl

/-- An accepted call replaces the endpoint at its own address. -/
theorem outcomeOf_addRoute (calls : List (AddRouteCall Fn)) {q : AddRouteCall Fn}
    (hacc : q.accepted = true) (s : Loc) :
    (runCalls (calls ++ [q])).outcomeOf (.at s) =
      if s = q.norm then q.outcome else (runCalls calls).outcomeOf (.at s) := by
  rw [outcomeOf_at, outcomeOf_at, routesOf_apply, routesOf_apply, lastAccepted_concat, hacc]
  by_cases hs : s = q.norm
  · simp only [hs, decide_true, Bool.true_and, if_true, Option.map_some]
    rw [AddRouteCall.outcome]
    cases q.handler <;> rfl
  · have hs' : ¬ q.norm = s := fun h => hs h.symm
    simp only [hs, hs', decide_false, Bool.and_false, Bool.false_eq_true, if_false]

/-- A node that the call adds has no handler, unless it is the last one. -/
theorem outcomeOf_new (calls : List (AddRouteCall Fn)) {s : Loc}
    (hnew : present (runCalls calls).root s = false) :
    (runCalls calls).outcomeOf (.at s) = .noHandler := by
  have hno : routesOf calls s = none := by
    rw [← Option.not_isSome_iff_eq_none, routesOf_isSome_iff]
    rintro ⟨c, hc, hcacc, rfl⟩
    have hpres := (present_iff calls c.norm).2 (Or.inr ⟨c, hc, hcacc, List.prefix_rfl⟩)
    rw [hnew] at hpres
    cases hpres
  rw [outcomeOf_at, hno]

/-- The outcome along the new nodes is that of the pattern alone. -/
theorem outcomeAt_of_diverts (calls : List (AddRouteCall Fn)) {q : AddRouteCall Fn}
    (hacc : q.accepted = true) {r : StdString} (hdiv : Diverts calls q r) :
    (runCalls (calls ++ [q])).outcomeAt
        (walkFrom (runCalls (calls ++ [q])).root [] (segments r.bytes)) = outcomeAlong q r := by
  have hins := inserts_addRoute calls hacc
  rw [walkFrom, hins.walk_of_enters (present_prefixClosed _) hdiv, outcomeAlong]
  by_cases hmatch : GreedyWalk.Matches paramMarker matchesParamRegex
      (q.norm.take (segments r.bytes).length) (segments r.bytes)
  · rw [if_pos hmatch, if_pos hmatch, Router.outcomeAt, outcomeOf_addRoute calls hacc]
    have hlen := hmatch.length_eq
    rw [List.length_take] at hlen
    by_cases hfull : (segments r.bytes).length = q.norm.length
    · have hall : MatchesRequest q r := by
        rw [hfull, List.take_length] at hmatch
        exact hmatch
      rw [if_pos hall, hfull, List.take_length, if_pos rfl]
    · have hnot : ¬ MatchesRequest q r := fun h => hfull h.length_eq.symm
      have hne : q.norm.take (segments r.bytes).length ≠ q.norm := by
        intro heq
        have := congrArg List.length heq
        rw [List.length_take] at this
        omega
      obtain ⟨k, -, x, hx, -⟩ := hdiv
      have hlt := (List.getElem?_eq_some_iff.1 hx).1
      rw [if_neg hnot, if_neg hne, outcomeOf_new calls (hins.fresh _ hlt (by omega))]
  · have hnot : ¬ MatchesRequest q r := by
      intro h
      rw [← h.length_eq, List.take_length] at hmatch
      exact hmatch h
    rw [if_neg hmatch, if_neg hmatch, if_neg hnot]
    rfl

/-- The outcome of every request after one more accepted call, from the outcomes before
it.  A request that the call diverts follows the new pattern alone; one that was resolved
to the address of the pattern gets the new endpoint; for any other nothing changes. -/
theorem outcome_addRoute (calls : List (AddRouteCall Fn)) (q : AddRouteCall Fn)
    (hacc : q.accepted = true) (r : StdString) (params : Params) :
    (runCalls (calls ++ [q])).outcome r params =
      if Diverts calls q r then .ok (outcomeAlong q r)
      else if walkFrom (runCalls calls).root [] (segments r.bytes) = some q.norm then
        .ok q.outcome
      else (runCalls calls).outcome r params := by
  have hins := inserts_addRoute calls hacc
  rw [outcome_eq_outcomeAt]
  by_cases hdiv : Diverts calls q r
  · rw [if_pos hdiv, outcomeAt_of_diverts calls hacc hdiv]
  · rw [if_neg hdiv, walkFrom, hins.walk_eq (present_prefixClosed _) hdiv,
      outcome_eq_outcomeAt]
    change Except.ok (Router.outcomeAt _ (walkFrom (runCalls calls).root [] _)) = _
    cases hwalk : walkFrom (runCalls calls).root [] (segments r.bytes) with
    | none => rfl
    | some s =>
      simp only [Router.outcomeAt, outcomeOf_addRoute calls hacc, Option.some.injEq]
      by_cases hs : s = q.norm
      · rw [if_pos hs, if_pos hs]
      · rw [if_neg hs, if_neg hs]

/-- The route `/post/new`, added to the table of `main.cc`, takes the request `/post/new/x`
away from `/post/{id}/{slug}` and has no node for it. -/
theorem post_new_diverts :
    let q : AddRouteCall Unit := ⟨6, ⟨str "/post/new", by decide⟩, some ()⟩
    let r : StdString := ⟨str "/post/new/x", by decide⟩
    (runCalls mainRoutes).outcome r PartialMap.empty = .ok (.endpoint 3 ()) ∧
      (runCalls (mainRoutes ++ [q])).outcome r PartialMap.empty = .ok .empty := by
  intro q r
  have hbefore : walkFrom (runCalls mainRoutes).root [] (segments r.bytes) =
      some mainRoutes[2].norm := by decide +kernel
  have hdiv : Diverts mainRoutes q r := by decide +kernel
  have hempty : outcomeAlong q r = .empty := by
    rw [outcomeAlong, if_neg (by decide +kernel), if_neg (by decide +kernel)]
  constructor
  · rw [outcome_eq_outcomeAt, hbefore, Router.outcomeAt, outcomeOf_at]
    rfl
  · rw [outcome_addRoute mainRoutes q (by decide) r PartialMap.empty, if_pos hdiv, hempty]

end Piconaut.Routers
