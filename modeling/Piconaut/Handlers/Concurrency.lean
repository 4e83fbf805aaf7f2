import Mathlib.Logic.Function.Basic
import Piconaut.Handlers.GlobalDispatcher
import Piconaut.Lib.StepRun

/-!
# Registrations and requests at the same time

`RegisterRouteHandler` publishes a route in two steps, first the node of the trie
and then the entry of `routes_`, with the mutex held over both.  `__HandleImpl`
reads in two steps as well and takes no lock: `MatchRoute` returns pointers into a
node, and `routes_.at` is called with the hash that the node has by then.  Here
each of the four is one atomic step, and the parties take them in any order.

Between its two steps a registration has put a hash into the trie that the table
may not know yet.  That is the whole of it: `Consistent` says that the trie is
that of all registrations that have begun, the table that of the ones that are
complete, and `Consistent.lookup_isSome_iff` reads off when a lookup succeeds.
`lookups_succeed_iff` is the result for runs.  The last section says that a party
whose steps nothing interrupts makes a call of the dispatcher as it is modelled
elsewhere.
-/

namespace Piconaut.Handlers.Concurrency

open Piconaut.CppStd Piconaut.Routers Piconaut.Http

variable {H Party : Type} (hasher : Str → SizeT)

/-! ## The steps -/

/-- What a request keeps of `MatchRoute`: the two pointers, and whether the
handler function was non-null. -/
structure Match where
  result : RouterMatchResult
  hasHandler : Bool

/-- The dispatcher, the registration that holds the mutex, and the requests. -/
structure State (H Party : Type) where
  stores : GlobalDispatcherHandler H
  /-- The registration between `AddRoute` and `emplace`. -/
  registering : Option (Registration H)
  /-- The registrations that have written both stores, in order. -/
  completed : List (Registration H)
  /-- The requests between `MatchRoute` and `routes_.at`. -/
  matched : Party → Option Match

/-- The atomic steps. -/
inductive Action (H Party : Type) where
  /-- `router_.AddRoute(key, path, Dispatcher)` -/
  | addRoute (reg : Registration H)
  /-- `routes_.emplace(key, std::make_shared<Route>(key, path, handler))` -/
  | emplace
  /-- `router_.MatchRoute(req.GetPath(), params)` -/
  | matchRoute (party : Party) (req : Request)
  /-- `routes_.at(*route_result.key)` -/
  | lookup (party : Party)

/-- A fresh dispatcher and no party at work. -/
def State.init : State H Party := ⟨.init, none, [], fun _ => none⟩

/-- The state after the `emplace` of a registration. -/
def State.complete (s : State H Party) (reg : Registration H) : State H Party :=
  { s with
    stores := { s.stores with
      routes := s.stores.routes.emplace (hasher reg.path.bytes) (reg.toRoute hasher) }
    registering := none
    completed := s.completed ++ [reg] }

/-- One step, where the state allows it.  `AddRoute` needs the mutex; when it
throws, the mutex is free again. -/
def step [DecidableEq Party] (s : State H Party) : Action H Party → Option (State H Party)
  | .addRoute reg =>
    match s.registering with
    | some _ => none
    | none =>
      match s.stores.router.addRoute (hasher reg.path.bytes) reg.path (some dispatcher) with
      | (.error _, router) => some { s with stores := { s.stores with router := router } }
      | (.ok (), router) =>
        some { s with stores := { s.stores with router := router }, registering := some reg }
  | .emplace => s.registering.map fun reg => s.complete hasher reg
  | .matchRoute party req =>
    match s.matched party with
    | some _ => none
    | none =>
      match s.stores.router.matchRoute req.getPath PartialMap.empty with
      | .error _ => some s
      | .ok (result, _) =>
        -- an empty result is answered with the 404
        if result.isEmpty then some s
        else
          let found : Match := ⟨result, (s.stores.executorOf result).isSome⟩
          some { s with matched := Function.update s.matched party (some found) }
  | .lookup party =>
    (s.matched party).map fun _ => { s with matched := Function.update s.matched party none }

/-- The state after `AddRoute` has accepted a registration. -/
def State.begin (s : State H Party) (reg : Registration H) : State H Party :=
  { s with
    stores := { s.stores with router := s.stores.router.afterCall (reg.toCall hasher) }
    registering := some reg }

/-- The registrations that have written the trie, in order. -/
def State.begun (s : State H Party) : List (Registration H) :=
  s.completed ++ s.registering.toList

theorem State.begun_of_free {s : State H Party} (h : s.registering = none) :
    s.begun = s.completed := by
  rw [begun, h]
  exact List.append_nil _

theorem State.begun_of_registering {s : State H Party} {reg : Registration H}
    (h : s.registering = some reg) : s.begun = s.completed ++ [reg] := by
  rw [begun, h]
  rfl

/-! ## What each step does -/

section Steps

variable [DecidableEq Party] {hasher} {s s' : State H Party}

theorem step_addRoute_iff (reg : Registration H) :
    step hasher s (.addRoute reg) = some s' ↔
      s.registering = none ∧ s' = if reg.accepted then s.begin hasher reg else s := by
  obtain ⟨stores, registering, completed, matched⟩ := s
  rw [step]
  cases registering with
  | some other => simp
  | none =>
    simp only [addRoute_toCall, true_and]
    cases hacc : reg.accepted with
    | false =>
      have hsame : stores.router.afterCall (reg.toCall hasher) = stores.router :=
        afterCall_of_not_accepted stores.router hacc
      simp [hsame, eq_comm]
    | true => simp [State.begin, eq_comm]

theorem step_emplace_iff :
    step hasher s .emplace = some s' ↔
      ∃ reg, s.registering = some reg ∧ s' = s.complete hasher reg := by
  rw [step, Option.map_eq_some_iff]
  exact exists_congr fun reg => and_congr_right fun _ => eq_comm

theorem step_matchRoute {party : Party} {req : Request}
    (h : step hasher s (.matchRoute party req) = some s') :
    s.matched party = none ∧ ∃ result params,
      s.stores.router.matchRoute req.getPath PartialMap.empty = .ok (result, params) ∧
      (result.isEmpty = true ∧ s' = s ∨
        result.isEmpty = false ∧ s' = { s with
          matched := Function.update s.matched party
            (some ⟨result, (s.stores.executorOf result).isSome⟩) }) := by
  rw [step] at h
  cases hmatched : s.matched party with
  | some m =>
    rw [hmatched] at h
    cases h
  | none =>
    rw [hmatched, Router.matchRoute_eq] at h
    refine ⟨rfl, _, _, Router.matchRoute_eq _ _ _, ?_⟩
    simp only at h
    split_ifs at h with hempty
    · exact Or.inl ⟨hempty, (Option.some.inj h).symm⟩
    · exact Or.inr ⟨Bool.eq_false_of_not_eq_true hempty, (Option.some.inj h).symm⟩

theorem step_lookup {party : Party} (h : step hasher s (.lookup party) = some s') :
    (s.matched party).isSome ∧
      s' = { s with matched := Function.update s.matched party none } := by
  rw [step, Option.map_eq_some_iff] at h
  obtain ⟨m, hm, rfl⟩ := h
  exact ⟨by rw [hm]; rfl, rfl⟩

end Steps

/-! ## The invariant -/

/-- The trie is ahead of the table by the registration in progress, and a node with
a handler that a request holds is the endpoint of a registration. -/
structure Consistent (s : State H Party) : Prop where
  router : s.stores.router = (runRegistrations hasher s.begun).router
  routes : s.stores.routes = (runRegistrations hasher s.completed).routes
  accepted : ∀ reg ∈ s.begun, reg.accepted = true
  matched : ∀ party m, s.matched party = some m → m.hasHandler = true →
    ∃ reg ∈ s.begun, m.result = .at reg.norm

theorem init_consistent : Consistent hasher (State.init : State H Party) where
  router := rfl
  routes := rfl
  accepted := by
    intro reg hreg
    cases hreg
  matched := by
    intro party m hm
    cases hm

section Fields

variable {hasher} {s : State H Party}

theorem Consistent.keyOf (hs : Consistent hasher s) (result : RouterMatchResult) :
    s.stores.keyOf result = (runRegistrations hasher s.begun).keyOf result := by
  rw [GlobalDispatcherHandler.keyOf, hs.router]
  rfl

theorem Consistent.executorOf (hs : Consistent hasher s) (result : RouterMatchResult) :
    s.stores.executorOf result = (runRegistrations hasher s.begun).executorOf result := by
  rw [GlobalDispatcherHandler.executorOf, hs.router]
  rfl

end Fields

section Keeps

variable [DecidableEq Party] {hasher} {s s' : State H Party}

theorem Consistent.addRoute (hs : Consistent hasher s) {reg : Registration H}
    (h : step hasher s (.addRoute reg) = some s') : Consistent hasher s' := by
  obtain ⟨hfree, rfl⟩ := (step_addRoute_iff reg).1 h
  split_ifs with hacc
  · have hbegun := State.begun_of_free hfree
    refine ⟨?_, hs.routes, ?_, ?_⟩
    · change s.stores.router.afterCall (reg.toCall hasher) =
        (runRegistrations hasher (s.completed ++ [reg])).router
      rw [runRegistrations_concat, afterRegistration_eq, hs.router, hbegun]
    · intro other hother
      rcases List.mem_append.1 hother with hdone | hnew
      · exact hs.accepted other (hbegun ▸ hdone)
      · obtain rfl := List.mem_singleton.1 hnew
        exact hacc
    · intro party m hm hhandler
      obtain ⟨other, hother, hat⟩ := hs.matched party m hm hhandler
      exact ⟨other, List.mem_append_left _ (hbegun ▸ hother), hat⟩
  · exact hs

theorem Consistent.emplace (hs : Consistent hasher s)
    (h : step hasher s .emplace = some s') : Consistent hasher s' := by
  obtain ⟨reg, hreg, rfl⟩ := step_emplace_iff.1 h
  have hmem : reg ∈ s.begun := by
    rw [State.begun_of_registering hreg]
    exact List.mem_append_right _ List.mem_cons_self
  -- the registration only passes from the one that has begun to a completed one
  have hbegun : (s.complete hasher reg).begun = s.begun :=
    (State.begun_of_free rfl).trans (State.begun_of_registering hreg).symm
  refine ⟨?_, ?_, ?_, ?_⟩
  · rw [hbegun]
    exact hs.router
  · change s.stores.routes.emplace _ _ = (runRegistrations hasher (s.completed ++ [reg])).routes
    rw [runRegistrations_concat, afterRegistration_eq, ← hs.routes, if_pos (hs.accepted reg hmem)]
  · rw [hbegun]
    exact hs.accepted
  · rw [hbegun]
    exact hs.matched

theorem Consistent.matchRoute (hs : Consistent hasher s) {party : Party} {req : Request}
    (h : step hasher s (.matchRoute party req) = some s') : Consistent hasher s' := by
  obtain ⟨-, result, params, hmatch, ⟨-, rfl⟩ | ⟨hne, rfl⟩⟩ := step_matchRoute h
  · exact hs
  · refine ⟨hs.router, hs.routes, hs.accepted, ?_⟩
    intro other m hm hhandler
    by_cases hother : other = party
    · subst hother
      simp only [Function.update_self, Option.some.injEq] at hm
      subst hm
      obtain ⟨result', params', hmatch', hcases⟩ :=
        matchRoute_cases (callsOf hasher s.begun) req.getPath PartialMap.empty
      rw [hs.router, runRegistrations_router, hmatch', Except.ok.injEq, Prod.mk.injEq] at hmatch
      obtain ⟨rfl, -⟩ := hmatch
      rcases hcases with rfl | ⟨l, rfl⟩
      · cases hne
      · simp only [hs.executorOf] at hhandler
        obtain ⟨reg, hlast⟩ := exists_lastRegistered_of_handler hasher hhandler
        obtain ⟨hreg, -, rfl⟩ := lastRegistered_eq_some hlast
        exact ⟨reg, hreg, rfl⟩
    · simp only [Function.update_of_ne hother] at hm
      exact hs.matched other m hm hhandler

theorem Consistent.lookup (hs : Consistent hasher s) {party : Party}
    (h : step hasher s (.lookup party) = some s') : Consistent hasher s' := by
  obtain ⟨-, rfl⟩ := step_lookup h
  refine ⟨hs.router, hs.routes, hs.accepted, ?_⟩
  intro other m hm hhandler
  by_cases hother : other = party
  · subst hother
    simp at hm
  · simp only [Function.update_of_ne hother] at hm
    exact hs.matched other m hm hhandler

/-- Every step keeps the invariant. -/
theorem step_keeps :
    StepRun.Keeps (step hasher) fun s : State H Party => Consistent hasher s := by
  intro s a s' hs h
  cases a with
  | addRoute reg => exact hs.addRoute h
  | emplace => exact hs.emplace h
  | matchRoute party req => exact hs.matchRoute h
  | lookup party => exact hs.lookup h

end Keeps

/-! ## When a lookup succeeds -/

section Lookup

variable {hasher} {s : State H Party}

/-- The table has the hashes of the completed registrations. -/
theorem Consistent.routes_isSome_iff (hs : Consistent hasher s) (key : SizeT) :
    (s.stores.routes key).isSome ↔ ∃ reg ∈ s.completed, hasher reg.path.bytes = key := by
  rw [hs.routes, runRegistrations_routes, Option.isSome_map, List.find?_isSome]
  constructor
  · rintro ⟨reg, hreg, hp⟩
    rw [Bool.and_eq_true, decide_eq_true_eq] at hp
    exact ⟨reg, hreg, hp.2⟩
  · rintro ⟨reg, hreg, hkey⟩
    have hacc : reg.accepted = true := hs.accepted reg (List.mem_append_left _ hreg)
    exact ⟨reg, hreg, by simp [hacc, hkey]⟩

/-- A lookup fails in one case: the registration in progress has given the node a
hash that no completed one has used. -/
theorem Consistent.lookup_isSome_iff (hs : Consistent hasher s) {party : Party} {m : Match}
    (hm : s.matched party = some m) (hhandler : m.hasHandler = true) :
    (s.stores.routes (s.stores.keyOf m.result)).isSome ↔
      ∀ reg, s.registering = some reg → m.result = .at reg.norm →
        ∃ earlier ∈ s.completed, hasher earlier.path.bytes = hasher reg.path.bytes := by
  obtain ⟨q, hq, hat⟩ := hs.matched party m hm hhandler
  obtain ⟨latest, hlast⟩ := exists_lastRegistered hq (hs.accepted q hq)
  have hkey : s.stores.keyOf m.result = hasher latest.path.bytes := by
    rw [hs.keyOf, hat]
    exact (endpoint_of_lastRegistered hasher hlast).1
  rw [hs.routes_isSome_iff, hkey]
  cases hreg : s.registering with
  | none =>
    have hbegun := State.begun_of_free hreg
    have hmem : latest ∈ s.completed := hbegun ▸ (lastRegistered_eq_some hlast).1
    constructor
    · intro _ reg h
      cases h
    · intro _
      exact ⟨latest, hmem, rfl⟩
  | some reg =>
    have hbegun := State.begun_of_registering hreg
    have hacc : reg.accepted = true := hs.accepted reg (by simp [hbegun])
    rw [hbegun, lastRegistered_concat, hacc, Bool.true_and] at hlast
    by_cases hnorm : reg.norm = q.norm
    · -- the node is the one that the registration in progress has written
      simp only [hnorm, decide_true, if_true, Option.some.injEq] at hlast
      subst hlast
      constructor
      · rintro ⟨earlier, hearlier, heq⟩ other hother -
        obtain rfl := Option.some.inj hother
        exact ⟨earlier, hearlier, heq⟩
      · intro h
        exact h reg rfl (hnorm ▸ hat)
    · simp only [hnorm, decide_false, Bool.false_eq_true, if_false] at hlast
      have hmem : latest ∈ s.completed := (lastRegistered_eq_some hlast).1
      constructor
      · intro _ other hother hat'
        obtain rfl := Option.some.inj hother
        exact absurd (RouterMatchResult.at_inj (hat'.symm.trans hat)) hnorm
      · intro _
        exact ⟨latest, hmem, rfl⟩

end Lookup

/-- When `MatchRoute` has returned a non-null handler function, `routes_.at` on the
key succeeds. -/
def LookupSucceeds (s : State H Party) : Action H Party → Prop
  | .lookup party => ∀ m, s.matched party = some m → m.hasHandler = true →
      (s.stores.routes (s.stores.keyOf m.result)).isSome
  | _ => True

/-- When `MatchRoute` has returned a non-null handler function, the node is not
that of a registration between its two steps, unless a completed registration
has used the same hash. -/
def NotHalfRegistered (s : State H Party) : Action H Party → Prop
  | .lookup party => ∀ m, s.matched party = some m → m.hasHandler = true →
      ∀ reg, s.registering = some reg → m.result = .at reg.norm →
        ∃ earlier ∈ s.completed, hasher earlier.path.bytes = hasher reg.path.bytes
  | _ => True

/-- In a run of any registrations and requests every lookup succeeds exactly when
none is made at a half-registered node. -/
theorem lookups_succeed_iff [DecidableEq Party] (actions : List (Action H Party)) :
    StepRun.Always (step hasher) LookupSucceeds State.init actions ↔
      StepRun.Always (step hasher) (NotHalfRegistered hasher) State.init actions := by
  refine StepRun.always_congr step_keeps ?_ (init_consistent hasher) actions
  intro s a hs
  cases a with
  | lookup party =>
    constructor
    · intro h m hm hhandler
      exact (hs.lookup_isSome_iff hm hhandler).1 (h m hm hhandler)
    · intro h m hm hhandler
      exact (hs.lookup_isSome_iff hm hhandler).2 (h m hm hhandler)
  | _ => rfl

/-- A request for a new pattern between the two steps of its registration. -/
theorem lookup_half_registered_fails :
    let reg : Registration Nat := ⟨⟨str "/a", by decide⟩, some 1⟩
    ¬ StepRun.Always (step polyHash) LookupSucceeds (State.init : State Nat Nat)
      [.addRoute reg, .matchRoute 0 ⟨⟨str "/a", by decide⟩⟩, .lookup 0] := by
  intro reg h
  -- what the request holds before its lookup, and whether the table has the key
  have hheld : (StepRun.run (step polyHash) (State.init : State Nat Nat)
      [.addRoute reg, .matchRoute 0 ⟨⟨str "/a", by decide⟩⟩]).map (fun t =>
        (t.matched 0).map fun m =>
          (m.hasHandler, (t.stores.routes (t.stores.keyOf m.result)).isSome)) =
      some (some (true, false)) := by decide
  rw [Option.map_eq_some_iff] at hheld
  obtain ⟨t, ht, hm⟩ := hheld
  rw [Option.map_eq_some_iff] at hm
  obtain ⟨m, hm, hflags⟩ := hm
  obtain ⟨hhandler, hmissing⟩ := Prod.mk.inj hflags
  have hfound := h _ (.lookup 0) [] t rfl ht m hm hhandler
  rw [hmissing] at hfound
  cases hfound

/-! ## One party alone -/

/-- The steps of a registration that nothing interrupts. -/
def registrationSteps (reg : Registration H) : List (Action H Party) :=
  if reg.accepted then [.addRoute reg, .emplace] else [.addRoute reg]

/-- A registration that nothing interrupts is a call of `RegisterRouteHandler`. -/
theorem run_registrationSteps [DecidableEq Party] (s : State H Party) (hfree : s.registering = none)
    (reg : Registration H) :
    ∃ s', StepRun.run (step hasher) s (registrationSteps reg) = some s' ∧
      s'.stores = s.stores.afterRegistration hasher reg ∧ s'.registering = none := by
  have hadd : step hasher s (.addRoute reg) =
      some (if reg.accepted then s.begin hasher reg else s) :=
    (step_addRoute_iff reg).2 ⟨hfree, rfl⟩
  rw [registrationSteps, afterRegistration_eq]
  cases hacc : reg.accepted with
  | true =>
    have hput : step hasher (s.begin hasher reg) .emplace =
        some ((s.begin hasher reg).complete hasher reg) :=
      step_emplace_iff.2 ⟨reg, rfl, rfl⟩
    rw [if_pos rfl, StepRun.run_cons, hadd, if_pos hacc, Option.bind_some, StepRun.run_cons,
      hput, Option.bind_some, StepRun.run_nil]
    exact ⟨_, rfl, rfl, rfl⟩
  | false =>
    have hsame : s.stores.router.afterCall (reg.toCall hasher) = s.stores.router :=
      afterCall_of_not_accepted s.stores.router hacc
    have hno : ¬ reg.accepted = true := by simp [hacc]
    rw [if_neg Bool.false_ne_true, StepRun.run_cons, hadd, if_neg hno, Option.bind_some,
      StepRun.run_nil, hsame]
    exact ⟨s, rfl, rfl, hfree⟩

/-- A request that nothing interrupts is a call of `__HandleImpl`: the call throws
`std::out_of_range` exactly when the lookup fails. -/
theorem handleImpl_throws_iff [DecidableEq Party] {s s' : State H Party} {party : Party} {req : Request}
    (h : step hasher s (.matchRoute party req) = some s') :
    s.stores.handleImpl req = .error .outOfRange ↔
      ∃ m, s'.matched party = some m ∧
        s'.stores.routes (s'.stores.keyOf m.result) = none := by
  obtain ⟨hidle, result, params, hmatch, hcases⟩ := step_matchRoute h
  rw [GlobalDispatcherHandler.handleImpl, hmatch]
  simp only [ExceptRun.ok_bind]
  rcases hcases with ⟨hempty, rfl⟩ | ⟨hne, rfl⟩
  · simp [hempty, hidle, notFound]
  · simp only [hne, Bool.false_eq_true, if_false, Function.update_self, Option.some.injEq,
      exists_eq_left']
    cases s.stores.routes (s.stores.keyOf result) with
    | none => exact ⟨fun _ => rfl, fun _ => rfl⟩
    | some route =>
      refine ⟨fun hthrow => ?_, fun hnone => (by cases hnone)⟩
      cases hexec : s.stores.executorOf result with
      | none =>
        rw [hexec] at hthrow
        cases hthrow
      | some fn =>
        rw [hexec] at hthrow
        cases hthrow

end Piconaut.Handlers.Concurrency
