import Piconaut.Routers.Resolution

/-!
# Registration order

What a caller learns from `MatchRoute` is the `Outcome`: no node, a node without a
handler, or a key with a handler.  It depends on the registered routes as a map
from normalized patterns to keys and handlers (`outcome_congr`), and not on the
calls that filled the map.  Calls for different patterns fill it in any order with
the same result (`routesOf_perm`), so permuting them changes no outcome
(`outcome_perm`).

The names of the parameters are not part of the outcome.  They do depend on the
order, see `params_preserved_iff`.
-/

namespace Piconaut.Routers

open Piconaut.CppStd Piconaut.Utils

variable {Fn : Type}

/-! ## Outcomes -/

/-- What a caller of `MatchRoute` reads through the pointers of the result. -/
inductive Outcome (Fn : Type) where
  | empty
  | noHandler
  | endpoint (key : SizeT) (handler : Fn)

/-- The key and the handler that the result points to. -/
def Router.outcomeOf (router : Router Fn) (result : RouterMatchResult) : Outcome Fn :=
  if result.isEmpty then .empty
  else
    match (fieldsAt router.root (result.executor.getD [])).handler with
    | none => .noHandler
    | some handler => .endpoint (fieldsAt router.root (result.key.getD [])).key handler

/-- A call of `MatchRoute` and what it returns pointers to. -/
def Router.outcome (router : Router Fn) (path : StdString) (params : Params) :
    Except StdException (Outcome Fn) := do
  let (result, _) ← router.matchRoute path params
  return router.outcomeOf result

/-! ## The registered routes as a map -/

/-- The key and the handler under each normalized pattern: an accepted call
overwrites what is there. -/
def routesOf (calls : List (AddRouteCall Fn)) : PartialMap Loc (SizeT × Option Fn) :=
  ((calls.filter AddRouteCall.accepted).map fun c => (c.norm, (c.key, c.handler))).foldl
    (fun m e => m.insert e.1 e.2) PartialMap.empty

theorem routesOf_apply (calls : List (AddRouteCall Fn)) (s : Loc) :
    routesOf calls s =
      (lastAccepted calls fun c => c.norm = s).map fun c => (c.key, c.handler) := by
  rw [routesOf, PartialMap.foldl_insert_apply, PartialMap.empty_apply, Option.or_none,
    LastMatch.findRev?_map, LastMatch.findRev?_filter, Option.map_map]
  rfl

/-- A pattern is registered if the map has an entry for it. -/
theorem routesOf_isSome_iff (calls : List (AddRouteCall Fn)) (s : Loc) :
    (routesOf calls s).isSome ↔ ∃ c ∈ calls, c.accepted = true ∧ c.norm = s := by
  rw [routesOf_apply, Option.isSome_map]
  constructor
  · intro h
    obtain ⟨c, hc⟩ := Option.isSome_iff_exists.1 h
    obtain ⟨hmem, hacc, hnorm⟩ := lastAccepted_eq_some hc
    exact ⟨c, hmem, hacc, by simpa using hnorm⟩
  · rintro ⟨c, hmem, hacc, rfl⟩
    obtain ⟨last, hlast⟩ := exists_last_of_mem hmem hacc
    rw [hlast]
    rfl

/-- Some registered pattern starts with `s`. -/
theorem exists_prefix_iff (calls : List (AddRouteCall Fn)) (s : Loc) :
    (∃ c ∈ calls, c.accepted = true ∧ s <+: c.norm) ↔
      ∃ t, (routesOf calls t).isSome ∧ s <+: t := by
  constructor
  · rintro ⟨c, hmem, hacc, hs⟩
    exact ⟨c.norm, (routesOf_isSome_iff calls _).2 ⟨c, hmem, hacc, rfl⟩, hs⟩
  · rintro ⟨t, ht, hs⟩
    obtain ⟨c, hmem, hacc, rfl⟩ := (routesOf_isSome_iff calls t).1 ht
    exact ⟨c, hmem, hacc, hs⟩

/-- Calls for different patterns fill the map in any order. -/
theorem routesOf_perm {calls calls' : List (AddRouteCall Fn)} (hperm : calls.Perm calls')
    (hnodup : (calls.map AddRouteCall.norm).Nodup) : routesOf calls = routesOf calls' := by
  refine PartialMap.foldl_insert_perm ((hperm.filter _).map _) ?_ _
  have hsub : ((calls.filter AddRouteCall.accepted).map AddRouteCall.norm).Sublist
      (calls.map AddRouteCall.norm) := List.filter_sublist.map _
  rw [List.map_map]
  exact hsub.nodup hnodup

/-! ## The outcome depends on the map only -/

section Congr

variable {calls calls' : List (AddRouteCall Fn)}

theorem selectedBy_congr (h : routesOf calls = routesOf calls') (s : Loc) (xs : List Str) :
    SelectedBy calls s xs ↔ SelectedBy calls' s xs := by
  have hpre : ∀ l : Loc, (∃ c ∈ calls, c.accepted = true ∧ l <+: c.norm) ↔
      ∃ c ∈ calls', c.accepted = true ∧ l <+: c.norm := by
    intro l
    rw [exists_prefix_iff, exists_prefix_iff, h]
  constructor
  · rintro ⟨hlen, hpos⟩
    refine ⟨hlen, fun i k x hk hx => (hpos i k x hk hx).imp id fun hparam => ?_⟩
    exact ⟨hparam.1, hparam.2.1, fun hq => hparam.2.2 ((hpre _).2 hq)⟩
  · rintro ⟨hlen, hpos⟩
    refine ⟨hlen, fun i k x hk hx => (hpos i k x hk hx).imp id fun hparam => ?_⟩
    exact ⟨hparam.1, hparam.2.1, fun hq => hparam.2.2 ((hpre _).1 hq)⟩

theorem present_congr (h : routesOf calls = routesOf calls') (s : Loc) :
    present (runCalls calls).root s = true ↔ present (runCalls calls').root s = true := by
  rw [present_iff, present_iff, exists_prefix_iff, exists_prefix_iff, h]

/-- `MatchRoute` stops at the same address. -/
theorem matchRoute_at_congr (h : routesOf calls = routesOf calls') (r : StdString)
    (params : Params) (s : Loc) :
    (∃ params', (runCalls calls).matchRoute r params = .ok (.at s, params')) ↔
      ∃ params', (runCalls calls').matchRoute r params = .ok (.at s, params') := by
  simp only [matchRoute_at_iff, exists_and_left, exists_eq, and_true]
  rw [present_congr h, selectedBy_congr h]

/-- An address has the handler and, if there is one, the key that the map has
there. -/
theorem outcomeOf_at (calls : List (AddRouteCall Fn)) (s : Loc) :
    (runCalls calls).outcomeOf (.at s) = match routesOf calls s with
      | some (key, some handler) => .endpoint key handler
      | _ => .noHandler := by
  have hend := runCalls_endpoint calls s
  rw [routesOf_apply, Router.outcomeOf]
  simp only [RouterMatchResult.isEmpty, RouterMatchResult.at, Option.isNone_some,
    Option.getD_some]
  cases hlast : lastAccepted calls (fun c => c.norm = s) with
  | none =>
    rw [hlast] at hend
    rw [hend]
    rfl
  | some c =>
    rw [hlast] at hend
    rw [hend.1, hend.2]
    cases hc : c.handler <;> simp [hc]

/-- Routers with the same map have the same outcomes. -/
theorem outcome_congr (h : routesOf calls = routesOf calls') (r : StdString)
    (params : Params) :
    (runCalls calls).outcome r params = (runCalls calls').outcome r params := by
  obtain ⟨result, params₁, hmatch, hcases⟩ := matchRoute_cases calls r params
  obtain ⟨result', params₂, hmatch', hcases'⟩ := matchRoute_cases calls' r params
  have hat := matchRoute_at_congr h r params
  rw [Router.outcome, Router.outcome, hmatch, hmatch']
  show Except.ok ((runCalls calls).outcomeOf result) =
    .ok ((runCalls calls').outcomeOf result')
  rcases hcases with rfl | ⟨s, rfl⟩
  · rcases hcases' with rfl | ⟨s', rfl⟩
    · rfl
    · -- only one of the two walks stops: they cannot differ
      obtain ⟨params', hm⟩ := (hat s').2 ⟨_, hmatch'⟩
      rw [hmatch] at hm
      cases hm
  · obtain ⟨params', hm⟩ := (hat s).1 ⟨_, hmatch⟩
    rw [hmatch'] at hm
    obtain ⟨rfl, -⟩ := Prod.mk.inj (Except.ok.inj hm)
    rw [outcomeOf_at, outcomeOf_at, h]

end Congr

/-- Calls for pairwise different patterns give the same outcomes in every order. -/
theorem outcome_perm (calls calls' : List (AddRouteCall Fn)) (hperm : calls.Perm calls')
    (hnodup : (calls.map AddRouteCall.norm).Nodup) (r : StdString) (params : Params) :
    (runCalls calls).outcome r params = (runCalls calls').outcome r params :=
  outcome_congr (routesOf_perm hperm hnodup) r params

/-- `GET /post/7` has the same outcome if `main.cc` registers its routes in the
opposite order. -/
theorem mainRoutes_reverse :
    (runCalls mainRoutes).outcome ⟨str "/post/7", by decide⟩ PartialMap.empty =
      (runCalls mainRoutes.reverse).outcome ⟨str "/post/7", by decide⟩ PartialMap.empty :=
  outcome_perm mainRoutes mainRoutes.reverse (List.reverse_perm _).symm (by decide) _ _

end Piconaut.Routers
