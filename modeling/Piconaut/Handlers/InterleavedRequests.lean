import Piconaut.Handlers.Concurrency
import Piconaut.Handlers.DispatchSpec
import Piconaut.Handlers.RouteTable

/-!
# The answer to an interrupted request

A request takes two steps, and registrations may come in between: the node and the
parameters are those of the trie when it matched, the key of the node and the table are
those of the lookup.  `finish` is what `__HandleImpl` does after `MatchRoute`, and
`Consistent.finish_eq` gives its result in any state that a run reaches.

* `interleaved_own_pattern`: no interleaving hands a request to a handler of another
  pattern than the one it has matched.
* `interleaved_atomic`: a request is answered as if it had not been interrupted, as long
  as no registration in between is for the pattern that it has matched.
-/

namespace Piconaut.Handlers.Concurrency

open Piconaut.CppStd Piconaut.Routers Piconaut.Http

variable {H Party : Type} (hasher : Str → SizeT)

/-! ## The second half of a request -/

/-- `__HandleImpl` after a `MatchRoute` whose result is not empty. -/
def finish (d : GlobalDispatcherHandler H) (req : Request) (result : RouterMatchResult)
    (params : Params) : Except StdException (Effect H) :=
  match d.routes (d.keyOf result) with
  | none => .error .outOfRange
  | some route =>
    match d.executorOf result with
    | none => .error .badFunctionCall
    | some fn => .ok (fn req route.reqHandler params)

/-- Without an interruption the two halves are `__HandleImpl`. -/
theorem handleImpl_eq_finish {d : GlobalDispatcherHandler H} {req : Request}
    {result : RouterMatchResult} {params : Params}
    (hmatch : d.router.matchRoute req.getPath PartialMap.empty = .ok (result, params))
    (hne : result.isEmpty = false) : d.handleImpl req = finish d req result params := by
  rw [GlobalDispatcherHandler.handleImpl, hmatch]
  simp only [ExceptRun.ok_bind, hne]
  rw [finish]
  cases d.routes (d.keyOf result) with
  | none => rfl
  | some route =>
    cases d.executorOf result with
    | none => rfl
    | some fn => rfl

/-- What a request for the node at `l` gets from the registrations that have begun and the
ones that are complete. -/
def answerAt (begun completed : List (Registration H)) (req : Request) (l : Loc)
    (params : Params) : Except StdException (Effect H) :=
  match lastRegistered begun l with
  | none => .error (interiorError hasher completed)
  | some latest =>
    match completed.find? (fun reg => reg.accepted &&
        hasher reg.path.bytes = hasher latest.path.bytes) with
    | none => .error .outOfRange
    | some first => .ok (dispatcher req first.handler params)

/-- The second half in a state that a run reaches. -/
theorem Consistent.finish_eq {hasher : Str → SizeT} {s : State H Party}
    (hs : Consistent hasher s) (req : Request) (l : Loc) (params : Params) :
    finish s.stores req (.at l) params = answerAt hasher s.begun s.completed req l params := by
  rw [finish, answerAt, hs.keyOf, hs.executorOf, hs.routes, runRegistrations_routes]
  cases hlast : lastRegistered s.begun l with
  | some latest =>
    obtain ⟨hkey, hexec⟩ := endpoint_of_lastRegistered hasher hlast
    simp only [hkey, hexec]
    cases s.completed.find? fun reg => reg.accepted &&
        hasher reg.path.bytes = hasher latest.path.bytes with
    | none => rfl
    | some first => rfl
  | none =>
    have hfields : (runRegistrations hasher s.begun).keyOf (.at l) = 0 ∧
        (runRegistrations hasher s.begun).executorOf (.at l) = none := fields_of_interior hlast
    rw [hfields.1, hfields.2]
    cases hfind : s.completed.find? fun reg => reg.accepted && hasher reg.path.bytes = 0 with
    | none =>
      have hany := List.any_eq_false.2 (List.find?_eq_none.1 hfind)
      simp only [interiorError, hany, Option.map_none, Bool.false_eq_true, if_false]
    | some first =>
      have hp := List.find?_some hfind
      have hany : (s.completed.any fun reg => reg.accepted && hasher reg.path.bytes = 0) = true :=
        List.any_eq_true.2 ⟨first, List.mem_of_find?_eq_some hfind, hp⟩
      simp only [interiorError, hany, Option.map_some, if_true]

/-! ## What a run keeps -/

/-- Both lists of registrations only grow. -/
structure Extends (s s' : State H Party) : Prop where
  begun : s.begun <+: s'.begun
  completed : s.completed <+: s'.completed

theorem Extends.refl (s : State H Party) : Extends s s := ⟨List.prefix_rfl, List.prefix_rfl⟩

section Keeps

variable [DecidableEq Party] {hasher} {s s' : State H Party}

theorem step_extends {a : Action H Party} (h : step hasher s a = some s') : Extends s s' := by
  cases a with
  | addRoute reg =>
    obtain ⟨hfree, rfl⟩ := (step_addRoute_iff reg).1 h
    split_ifs with hacc
    · refine ⟨?_, List.prefix_rfl⟩
      rw [State.begun_of_free hfree]
      exact List.prefix_append _ _
    · exact Extends.refl s
  | emplace =>
    obtain ⟨reg, hreg, rfl⟩ := step_emplace_iff.1 h
    refine ⟨?_, List.prefix_append _ _⟩
    rw [State.begun_of_registering hreg, State.begun_of_free rfl]
    exact List.prefix_rfl
  | matchRoute party req =>
    obtain ⟨-, result, params, -, ⟨-, rfl⟩ | ⟨-, rfl⟩⟩ := step_matchRoute h
    · exact Extends.refl _
    · exact ⟨List.prefix_rfl, List.prefix_rfl⟩
  | lookup party =>
    obtain ⟨-, rfl⟩ := step_lookup h
    exact ⟨List.prefix_rfl, List.prefix_rfl⟩

theorem run_extends {actions : List (Action H Party)}
    (h : StepRun.run (step hasher) s actions = some s') : Extends s s' := by
  refine StepRun.run_invariant (I := fun t => Extends s t) ?_ (Extends.refl s) h
  intro t a t' ht hstep
  have hnext := step_extends hstep
  exact ⟨ht.begun.trans hnext.begun, ht.completed.trans hnext.completed⟩

/-- A request keeps what it has matched until it looks the key up. -/
theorem step_matched {party : Party} {m : Match} {a : Action H Party}
    (hm : s.matched party = some m) (ha : a ≠ .lookup party)
    (h : step hasher s a = some s') : s'.matched party = some m := by
  cases a with
  | addRoute reg =>
    obtain ⟨-, rfl⟩ := (step_addRoute_iff reg).1 h
    split_ifs with hacc
    · exact hm
    · exact hm
  | emplace =>
    obtain ⟨reg, -, rfl⟩ := step_emplace_iff.1 h
    exact hm
  | matchRoute other req =>
    obtain ⟨hidle, result, params, -, ⟨-, rfl⟩ | ⟨-, rfl⟩⟩ := step_matchRoute h
    · exact hm
    · have hne : party ≠ other := by
        rintro rfl
        rw [hm] at hidle
        cases hidle
      exact (Function.update_of_ne hne _ _).trans hm
  | lookup other =>
    obtain ⟨-, rfl⟩ := step_lookup h
    have hne : party ≠ other := fun heq => ha (heq ▸ rfl)
    exact (Function.update_of_ne hne _ _).trans hm

theorem run_matched {party : Party} {m : Match} {actions : List (Action H Party)}
    (hm : s.matched party = some m) (hactions : Action.lookup party ∉ actions)
    (h : StepRun.run (step hasher) s actions = some s') : s'.matched party = some m := by
  induction actions generalizing s with
  | nil =>
    obtain rfl : s = s' := Option.some.inj h
    exact hm
  | cons a actions ih =>
    rw [StepRun.run_cons, Option.bind_eq_some_iff] at h
    obtain ⟨t, ht, hrest⟩ := h
    rw [List.mem_cons, not_or] at hactions
    exact ih (step_matched hm (Ne.symm hactions.1) ht) hactions.2 hrest

end Keeps

/-! ## Requests in flight -/

/-- After `pre` the party has matched the request with `result` and `params`; after `mid`,
where it was idle, it is about to look the key up. -/
structure InFlight [DecidableEq Party] (pre mid : List (Action H Party)) (party : Party)
    (req : Request) (result : RouterMatchResult) (params : Params) (s₁ s₂ : State H Party) :
    Prop where
  reached : StepRun.run (step hasher) State.init pre = some s₁
  matched : s₁.stores.router.matchRoute req.getPath PartialMap.empty = .ok (result, params)
  nonempty : result.isEmpty = false
  idle : Action.lookup party ∉ mid
  run : StepRun.run (step hasher) s₁ (.matchRoute party req :: mid) = some s₂

section InFlight

variable [DecidableEq Party] {hasher} {pre mid : List (Action H Party)} {party : Party}
  {req : Request} {result : RouterMatchResult} {params : Params} {s₁ s₂ : State H Party}

theorem InFlight.consistent_match (h : InFlight hasher pre mid party req result params s₁ s₂) :
    Consistent hasher s₁ :=
  StepRun.run_invariant step_keeps (init_consistent hasher) h.reached

theorem InFlight.consistent_lookup (h : InFlight hasher pre mid party req result params s₁ s₂) :
    Consistent hasher s₂ :=
  StepRun.run_invariant step_keeps h.consistent_match h.run

theorem InFlight.extends (h : InFlight hasher pre mid party req result params s₁ s₂) :
    Extends s₁ s₂ :=
  run_extends h.run

/-- The party still has the pointers that it got from `MatchRoute`. -/
theorem InFlight.held (h : InFlight hasher pre mid party req result params s₁ s₂) :
    s₂.matched party = some ⟨result, (s₁.stores.executorOf result).isSome⟩ := by
  have hrun := h.run
  rw [StepRun.run_cons, Option.bind_eq_some_iff] at hrun
  obtain ⟨t, ht, hrest⟩ := hrun
  refine run_matched ?_ h.idle hrest
  obtain ⟨-, result', params', hmatch, hcases⟩ := step_matchRoute ht
  rw [h.matched, Except.ok.injEq, Prod.mk.injEq] at hmatch
  obtain ⟨rfl, -⟩ := hmatch
  rcases hcases with ⟨hempty, -⟩ | ⟨-, rfl⟩
  · rw [h.nonempty] at hempty
    cases hempty
  · exact Function.update_self _ _ _

/-- The pointers are those of the node that the request selected when it matched, and the
parameters are the ones of that time. -/
theorem InFlight.selected (h : InFlight hasher pre mid party req result params s₁ s₂) :
    ∃ l, result = .at l ∧ OnWay s₁.begun l ∧ SelectedFor hasher s₁.begun l req ∧
      params = paramsAt hasher s₁.begun l req := by
  have hmatch := h.matched
  rw [h.consistent_match.router] at hmatch
  obtain ⟨result', params', hmatch', hcases⟩ :=
    matchRoute_cases (callsOf hasher s₁.begun) req.getPath PartialMap.empty
  rw [← runRegistrations_router, hmatch, Except.ok.injEq, Prod.mk.injEq] at hmatch'
  obtain ⟨rfl, rfl⟩ := hmatch'
  rcases hcases with rfl | ⟨l, rfl⟩
  · exact absurd h.nonempty (by decide)
  · obtain ⟨hway, hsel⟩ := (matchRoute_at_iff_present hasher s₁.begun req l).1 ⟨_, hmatch⟩
    have hparams := hmatch.symm.trans (matchRoute_of_selectedFor hsel hway)
    rw [Except.ok.injEq, Prod.mk.injEq] at hparams
    exact ⟨l, rfl, hway, hsel, hparams.2⟩

/-- A request for the endpoint of a registered pattern is atomic with respect to all
registrations of other patterns: if none was in progress when it matched, and none in between
is for the node, it still has the node and its handler function, and it is answered as
`__HandleImpl` would have answered then. -/
theorem interleaved_atomic {l : Loc} (h : InFlight hasher pre mid party req (.at l) params s₁ s₂)
    (hfree : s₁.registering = none) {latest : Registration H}
    (hlast : lastRegistered s₁.begun l = some latest)
    (hsame : lastRegistered s₂.begun l = some latest) :
    s₂.matched party = some ⟨.at l, true⟩ ∧
      finish s₂.stores req (.at l) params = s₁.stores.handleImpl req ∧
      ∃ effect, s₁.stores.handleImpl req = .ok effect := by
  have hheld : s₂.matched party = some ⟨.at l, true⟩ := by
    have hexec := (endpoint_of_lastRegistered hasher hlast).2
    rw [h.held, h.consistent_match.executorOf, hexec, Option.isSome_some]
  refine ⟨hheld, ?_⟩
  have hbegun := State.begun_of_free hfree
  have hmem : latest ∈ s₁.completed := hbegun ▸ (lastRegistered_eq_some hlast).1
  have hacc := (lastRegistered_eq_some hlast).2.1
  have hsome : (s₁.completed.find? fun reg => reg.accepted &&
      hasher reg.path.bytes = hasher latest.path.bytes).isSome := by
    rw [List.find?_isSome]
    exact ⟨latest, hmem, by simp [hacc]⟩
  obtain ⟨first, hfirst⟩ := Option.isSome_iff_exists.1 hsome
  have hafter : s₂.completed.find? (fun reg => reg.accepted &&
      hasher reg.path.bytes = hasher latest.path.bytes) = some first := by
    obtain ⟨more, hmore⟩ := h.extends.completed
    rw [← hmore, List.find?_append, hfirst]
    rfl
  rw [handleImpl_eq_finish h.matched h.nonempty, h.consistent_lookup.finish_eq,
    h.consistent_match.finish_eq, answerAt, answerAt, hlast, hsame]
  simp only [hfirst, hafter, true_and]
  exact ⟨_, rfl⟩

end InFlight

/-! ## A request between two registrations -/

/-- The registration of `/a`, complete. -/
def registeredA : List (Action Nat Nat) :=
  [.addRoute ⟨⟨str "/a", by decide⟩, some 1⟩, .emplace]

/-- The first half of the registration of `/b`. -/
def beginsB : List (Action Nat Nat) := [.addRoute ⟨⟨str "/b", by decide⟩, some 2⟩]

/-- The state in which `GET /a` matches. -/
def beforeMatch : State Nat Nat :=
  (StepRun.run (step polyHash) State.init registeredA).get (by decide)

/-- The state in which it looks its key up. -/
def beforeLookup : State Nat Nat :=
  (StepRun.run (step polyHash) beforeMatch
    (.matchRoute 0 ⟨⟨str "/a", by decide⟩⟩ :: beginsB)).get (by decide)

theorem inFlight_a : InFlight polyHash registeredA beginsB 0 ⟨⟨str "/a", by decide⟩⟩
    (.at [[], str "a"]) PartialMap.empty beforeMatch beforeLookup where
  reached := (Option.some_get _).symm
  matched := by
    have hend : (matchParts (segments (str "/a")) beforeMatch.stores.router.root []
        PartialMap.empty).1 = .at [[], str "a"] := by decide
    exact (Router.matchRoute_of_fst _ hend).trans rfl
  nonempty := rfl
  idle := by simp [beginsB]
  run := (Option.some_get _).symm

theorem beforeLookup_atomic :
    beforeLookup.matched 0 = some ⟨.at [[], str "a"], true⟩ ∧
      finish beforeLookup.stores ⟨⟨str "/a", by decide⟩⟩ (.at [[], str "a"]) PartialMap.empty =
        beforeMatch.stores.handleImpl ⟨⟨str "/a", by decide⟩⟩ ∧
      ∃ effect, beforeMatch.stores.handleImpl ⟨⟨str "/a", by decide⟩⟩ = .ok effect :=
  interleaved_atomic inFlight_a rfl
    (show lastRegistered _ _ = some ⟨⟨str "/a", by decide⟩, some 1⟩ from rfl) rfl

end Piconaut.Handlers.Concurrency
