import Mathlib.Data.List.Find
import Piconaut.Http.Request
import Piconaut.Routers.Resolution

/-!
# `piconaut::handlers::GlobalDispatcherHandler`

The dispatcher keeps two stores: the route trie, whose nodes hold the hash of a
path, and `routes_`, a table from hashes to routes.  `RegisterRouteHandler`
writes both.  The trie overwrites, and `routes_` is filled with `emplace`, which
does not.  `__HandleImpl` reads them in turn: the node that `MatchRoute` returns
gives the hash, and the hash gives the route.

* `dispatchTotal_iff`: when a request gets the 404 or runs a registered handler,
  and no lookup on the way throws.  `Dispatcher` runs nothing for a null handler.
* `latestHandler_iff`: when the handler it gets is the one registered last.

`std::hash<std::string>` is the parameter `hasher`.  The mutex and the log
output are left out.
-/

namespace Piconaut.Handlers

open Piconaut.CppStd Piconaut.Routers Piconaut.Http

variable {H : Type}

/-- What a call of `__HandleImpl` does with the response. -/
inductive Effect (H : Type) where
  /-- `res.Send(body, status)` -/
  | send (body : Str) (status : Nat)
  /-- `handler->HandleRequest(request, response, params)` -/
  | handleRequest (handler : H) (request : Request) (params : Params)
  /-- Nothing is sent. -/
  | nothing

/-- `Route::HandlerFn`. -/
abbrev HandlerFn (H : Type) := Request → Option H → Params → Effect H

/-- `class Route`.  A `std::shared_ptr<HandlerBase>` may be null. -/
structure Route (H : Type) where
  key : SizeT
  path : StdString
  reqHandler : Option H

/-- `class GlobalDispatcherHandler`. -/
structure GlobalDispatcherHandler (H : Type) where
  router : Router (HandlerFn H)
  routes : PartialMap SizeT (Route H)

/-- `GlobalDispatcherHandler::GlobalDispatcherHandler()`. -/
def GlobalDispatcherHandler.init : GlobalDispatcherHandler H :=
  ⟨Router.init, PartialMap.empty⟩

/-- `GlobalDispatcherHandler::Dispatcher`. -/
def dispatcher : HandlerFn H := fun request handler params =>
  match handler with
  | none => .nothing
  | some h => .handleRequest h request params

/-- `GlobalDispatcherHandler::RegisterRouteHandler`.  The result is what the
call throws, if anything, and the dispatcher it leaves behind. -/
def GlobalDispatcherHandler.registerRouteHandler (hasher : Str → SizeT)
    (d : GlobalDispatcherHandler H) (path : StdString) (handler : Option H) :
    Except StdException Unit × GlobalDispatcherHandler H :=
  let key := hasher path.bytes
  match d.router.addRoute key path (some dispatcher) with
  | (.error e, router) => (.error e, { d with router := router })
  | (.ok (), router) => (.ok (), ⟨router, d.routes.emplace key ⟨key, path, handler⟩⟩)

/-- The `key` that a match result points to. -/
def GlobalDispatcherHandler.keyOf (d : GlobalDispatcherHandler H)
    (result : RouterMatchResult) : SizeT :=
  (fieldsAt d.router.root (result.key.getD [])).key

/-- The `handler` that a match result points to. -/
def GlobalDispatcherHandler.executorOf (d : GlobalDispatcherHandler H)
    (result : RouterMatchResult) : Option (HandlerFn H) :=
  (fieldsAt d.router.root (result.executor.getD [])).handler

/-- The answer to a request without a route. -/
def notFound : Effect H := .send (str "Eror 404: Not found") 404

/-- `GlobalDispatcherHandler::__HandleImpl`.  `routes_.at` throws on a missing
key, and a call of an empty `std::function` throws as well. -/
def GlobalDispatcherHandler.handleImpl (d : GlobalDispatcherHandler H) (req : Request) :
    Except StdException (Effect H) := do
  let (routeResult, params) ← d.router.matchRoute req.getPath PartialMap.empty
  if routeResult.isEmpty then
    return notFound
  else
    match d.routes (d.keyOf routeResult) with
    | none => throw .outOfRange
    | some route =>
      match d.executorOf routeResult with
      | none => throw .badFunctionCall
      | some fn => return fn req route.reqHandler params

/-! ## A sequence of registrations -/

/-- The arguments of one `RegisterRouteHandler` call. -/
structure Registration (H : Type) where
  path : StdString
  handler : Option H

namespace Registration

/-- The call is accepted: its path is a valid route. -/
def accepted (reg : Registration H) : Bool := isValidRoute reg.path.bytes

/-- The normalized form of the call's pattern. -/
def norm (reg : Registration H) : Loc := Routers.norm reg.path.bytes

variable (hasher : Str → SizeT)

/-- The `AddRoute` call that the registration makes. -/
def toCall (reg : Registration H) : AddRouteCall (HandlerFn H) :=
  ⟨hasher reg.path.bytes, reg.path, some dispatcher⟩

/-- The route that the registration puts into `routes_`. -/
def toRoute (reg : Registration H) : Route H :=
  ⟨hasher reg.path.bytes, reg.path, reg.handler⟩

end Registration

section Run

variable (hasher : Str → SizeT)

/-- The `AddRoute` calls of a sequence of registrations. -/
def callsOf (regs : List (Registration H)) : List (AddRouteCall (HandlerFn H)) :=
  regs.map (Registration.toCall hasher)

/-- The state that a registration leaves behind, thrown or not. -/
def GlobalDispatcherHandler.afterRegistration (d : GlobalDispatcherHandler H)
    (reg : Registration H) : GlobalDispatcherHandler H :=
  (d.registerRouteHandler hasher reg.path reg.handler).2

/-- A fresh dispatcher after a sequence of registrations. -/
def runRegistrations (regs : List (Registration H)) : GlobalDispatcherHandler H :=
  regs.foldl (GlobalDispatcherHandler.afterRegistration hasher) .init

/-- The last accepted registration whose pattern denotes the address `s`. -/
def lastRegistered (regs : List (Registration H)) (s : Loc) : Option (Registration H) :=
  regs.findRev? fun reg => reg.accepted && reg.norm = s

/-- The first accepted registration of a path string. -/
def firstRegistered (regs : List (Registration H)) (path : Str) : Option (Registration H) :=
  regs.find? fun reg => reg.accepted && reg.path.bytes = path

/-- The `AddRoute` call of a registration throws exactly when it is rejected. -/
theorem addRoute_toCall (router : Router (HandlerFn H)) (reg : Registration H) :
    router.addRoute (hasher reg.path.bytes) reg.path (some dispatcher) =
      (if reg.accepted then .ok ()
        else .error (.invalidArgument (str "Invalid route pattern: " ++ reg.path.bytes)),
        router.afterCall (reg.toCall hasher)) := by
  have hcall : (reg.toCall hasher).accepted = reg.accepted := rfl
  cases hacc : reg.accepted with
  | false =>
    have hthrow := addRoute_of_not_accepted router (reg.toCall hasher) (hcall.trans hacc)
    rw [Router.afterCall, hthrow]
    exact hthrow
  | true =>
    have hok := addRoute_of_accepted router (reg.toCall hasher) (hcall.trans hacc)
    rw [Router.afterCall, hok]
    exact hok

/-- One registration: an accepted one writes both stores, any other none. -/
theorem afterRegistration_eq (d : GlobalDispatcherHandler H) (reg : Registration H) :
    d.afterRegistration hasher reg =
      ⟨d.router.afterCall (reg.toCall hasher),
        if reg.accepted then d.routes.emplace (hasher reg.path.bytes) (reg.toRoute hasher)
        else d.routes⟩ := by
  rw [GlobalDispatcherHandler.afterRegistration, GlobalDispatcherHandler.registerRouteHandler,
    addRoute_toCall]
  cases reg.accepted <;> rfl

/-- One more registration. -/
theorem runRegistrations_concat (regs : List (Registration H)) (reg : Registration H) :
    runRegistrations hasher (regs ++ [reg]) =
      (runRegistrations hasher regs).afterRegistration hasher reg := by
  rw [runRegistrations, List.foldl_append]
  rfl

/-- The trie after a run is the one of the `AddRoute` calls. -/
theorem runRegistrations_router (regs : List (Registration H)) :
    (runRegistrations hasher regs).router = runCalls (callsOf hasher regs) := by
  induction regs using List.reverseRecOn with
  | nil => rfl
  | append_singleton regs reg ih =>
    rw [runRegistrations_concat, callsOf, List.map_append, List.map_singleton, runCalls_concat,
      afterRegistration_eq, ih]
    rfl

/-- The table after a run is a run of emplaces. -/
theorem runRegistrations_routes_foldl (regs : List (Registration H)) :
    (runRegistrations hasher regs).routes =
      ((regs.filter Registration.accepted).map
        fun reg => (hasher reg.path.bytes, reg.toRoute hasher)).foldl
        (fun m e => m.emplace e.1 e.2) PartialMap.empty := by
  induction regs using List.reverseRecOn with
  | nil => rfl
  | append_singleton regs reg ih =>
    rw [runRegistrations_concat, List.filter_append, List.map_append, List.foldl_append, ← ih,
      afterRegistration_eq]
    cases hacc : reg.accepted <;> simp [hacc]

/-- Under each hash the table has the first accepted registration with it. -/
theorem runRegistrations_routes (regs : List (Registration H)) (key : SizeT) :
    (runRegistrations hasher regs).routes key =
      (regs.find? fun reg => reg.accepted && hasher reg.path.bytes = key).map
        (Registration.toRoute hasher) := by
  rw [runRegistrations_routes_foldl, PartialMap.foldl_emplace_apply, PartialMap.empty_apply,
    Option.none_or, List.find?_map, List.find?_filter, Option.map_map]
  congr 2
  funext reg
  simp

theorem lastAccepted_callsOf (regs : List (Registration H)) (s : Loc) :
    lastAccepted (callsOf hasher regs) (fun c => c.norm = s) =
      (lastRegistered regs s).map (Registration.toCall hasher) := by
  rw [lastAccepted, callsOf, LastMatch.findRev?_map]
  rfl

theorem lastRegistered_concat (regs : List (Registration H)) (reg : Registration H)
    (s : Loc) :
    lastRegistered (regs ++ [reg]) s =
      if reg.accepted && reg.norm = s then some reg else lastRegistered regs s :=
  LastMatch.findRev?_concat _ regs reg

theorem lastRegistered_eq_some {regs : List (Registration H)} {s : Loc}
    {reg : Registration H} (h : lastRegistered regs s = some reg) :
    reg ∈ regs ∧ reg.accepted = true ∧ reg.norm = s := by
  obtain ⟨hmem, hp⟩ := LastMatch.findRev?_eq_some h
  simp only [Bool.and_eq_true, decide_eq_true_eq] at hp
  exact ⟨hmem, hp⟩

/-- An accepted registration has a last one for its address. -/
theorem exists_lastRegistered {regs : List (Registration H)} {p : Registration H}
    (hp : p ∈ regs) (hacc : p.accepted = true) :
    ∃ latest, lastRegistered regs p.norm = some latest :=
  LastMatch.exists_findRev? hp (by simp [hacc])

/-! ## Dispatch at an endpoint -/

/-- The node of a registered pattern has the hash of the path that was
registered last for it, and the dispatcher function. -/
theorem endpoint_of_lastRegistered {regs : List (Registration H)} {s : Loc}
    {latest : Registration H} (h : lastRegistered regs s = some latest) :
    (runRegistrations hasher regs).keyOf (.at s) = hasher latest.path.bytes ∧
      (runRegistrations hasher regs).executorOf (.at s) = some dispatcher := by
  have hlast : lastAccepted (callsOf hasher regs) (fun c => c.norm = s) =
      some (latest.toCall hasher) := by
    rw [lastAccepted_callsOf, h, Option.map_some]
  obtain ⟨-, d, hd, hkey, hhandler⟩ := data?_of_lastAccepted hlast
  have hfields : fieldsAt (runRegistrations hasher regs).router.root s = d := by
    rw [runRegistrations_router]
    exact fieldsAt_of_data? hd
  refine ⟨?_, ?_⟩
  · change (fieldsAt _ s).key = _
    rw [hfields, hkey]
    rfl
  · change (fieldsAt _ s).handler = _
    rw [hfields, hhandler]
    rfl

/-- A node with a handler function is the node of a registered pattern. -/
theorem exists_lastRegistered_of_handler {regs : List (Registration H)} {s : Loc}
    (h : ((runRegistrations hasher regs).executorOf (.at s)).isSome) :
    ∃ latest, lastRegistered regs s = some latest := by
  have hend := runCalls_endpoint (callsOf hasher regs) s
  rw [lastAccepted_callsOf, ← runRegistrations_router] at hend
  cases hlast : lastRegistered regs s with
  | some latest => exact ⟨latest, rfl⟩
  | none =>
    rw [hlast] at hend
    change (fieldsAt (runRegistrations hasher regs).router.root s).handler.isSome at h
    rw [show (fieldsAt (runRegistrations hasher regs).router.root s).handler = none
      from hend] at h
    cases h

/-- At the endpoint of a registered pattern the dispatcher runs the handler of
the first registration with the hash that the node holds. -/
theorem handleImpl_at {regs : List (Registration H)} {s : Loc} {latest : Registration H}
    (hlast : lastRegistered regs s = some latest) {req : Request} {params : Params}
    (hmatch : (runRegistrations hasher regs).router.matchRoute req.getPath PartialMap.empty =
      .ok (.at s, params)) :
    ∃ first, regs.find? (fun reg => reg.accepted &&
        hasher reg.path.bytes = hasher latest.path.bytes) = some first ∧
      (runRegistrations hasher regs).routes ((runRegistrations hasher regs).keyOf (.at s)) =
        some (first.toRoute hasher) ∧
      (runRegistrations hasher regs).handleImpl req =
        .ok (dispatcher req first.handler params) := by
  obtain ⟨hkey, hexec⟩ := endpoint_of_lastRegistered hasher hlast
  obtain ⟨hmem, hacc, -⟩ := lastRegistered_eq_some hlast
  have hsome : (regs.find? fun reg => reg.accepted &&
      hasher reg.path.bytes = hasher latest.path.bytes).isSome := by
    rw [List.find?_isSome]
    exact ⟨latest, hmem, by simp [hacc]⟩
  obtain ⟨first, hfirst⟩ := Option.isSome_iff_exists.1 hsome
  have hroute : (runRegistrations hasher regs).routes
      ((runRegistrations hasher regs).keyOf (.at s)) = some (first.toRoute hasher) := by
    rw [hkey, runRegistrations_routes, hfirst, Option.map_some]
  refine ⟨first, hfirst, hroute, ?_⟩
  rw [GlobalDispatcherHandler.handleImpl, hmatch]
  simp only [ExceptRun.ok_bind]
  rw [hroute, hexec]
  rfl

/-- Without a node for a request the answer is the 404. -/
theorem handleImpl_null {regs : List (Registration H)} {req : Request} {params : Params}
    (hmatch : (runRegistrations hasher regs).router.matchRoute req.getPath PartialMap.empty =
      .ok (.null, params)) :
    (runRegistrations hasher regs).handleImpl req = .ok notFound := by
  rw [GlobalDispatcherHandler.handleImpl, hmatch]
  rfl

/-! ## Which requests are dispatched -/

/-- A request that `MatchRoute` finds a node for has reached the endpoint of an
accepted registration, with a handler function and a key of `routes_`, and
`__HandleImpl` sends the 404 or runs a handler that was registered. -/
structure DispatchTotal (regs : List (Registration H)) (req : Request) : Prop where
  endpoint : ∀ result params,
    (runRegistrations hasher regs).router.matchRoute req.getPath PartialMap.empty =
      .ok (result, params) → result.isEmpty = false →
    ∃ reg ∈ regs, reg.accepted = true ∧ result = .at reg.norm ∧
      ((runRegistrations hasher regs).executorOf result).isSome ∧
      ((runRegistrations hasher regs).routes
        ((runRegistrations hasher regs).keyOf result)).isSome
  outcome : ∃ effect, (runRegistrations hasher regs).handleImpl req = .ok effect ∧
    (effect = notFound ∨ ∃ reg ∈ regs, reg.accepted = true ∧
      ∃ handler params, reg.handler = some handler ∧
        effect = .handleRequest handler req params)

/-- Every prefix of a registered pattern that the request selects is itself a
registered pattern. -/
def NoInteriorStop (regs : List (Registration H)) (req : Request) : Prop :=
  ∀ s, (∃ p ∈ regs, p.accepted = true ∧ s <+: p.norm) →
    SelectedBy (callsOf hasher regs) s (segments req.getPath.bytes) →
    ∃ q ∈ regs, q.accepted = true ∧ q.norm = s

/-- Where the request selects a registered pattern, the first registration that
shares its hash with the last one of the pattern has passed a handler. -/
def HandlerPassed (regs : List (Registration H)) (req : Request) : Prop :=
  ∀ s latest first, SelectedBy (callsOf hasher regs) s (segments req.getPath.bytes) →
    lastRegistered regs s = some latest →
    regs.find? (fun reg => reg.accepted &&
      hasher reg.path.bytes = hasher latest.path.bytes) = some first →
    first.handler.isSome

/-- A match that is not empty has stopped at a prefix of a registered pattern
that the request selects. -/
theorem matchRoute_at_iff_present (regs : List (Registration H)) (req : Request) (s : Loc) :
    (∃ params, (runRegistrations hasher regs).router.matchRoute req.getPath
        PartialMap.empty = .ok (.at s, params)) ↔
      (∃ p ∈ regs, p.accepted = true ∧ s <+: p.norm) ∧
        SelectedBy (callsOf hasher regs) s (segments req.getPath.bytes) := by
  rw [runRegistrations_router]
  have hpres := present_iff (callsOf hasher regs) s
  constructor
  · rintro ⟨params, hmatch⟩
    obtain ⟨⟨hs, hsel⟩, -⟩ := (matchRoute_at_iff _ _ _ _ _).1 hmatch
    refine ⟨?_, hsel⟩
    rcases hpres.1 hs with rfl | ⟨c, hc, hacc, hp⟩
    · -- a request has at least one segment, so the walk has left the root
      exact absurd (List.length_eq_zero_iff.1 hsel.length_eq.symm) (segments_ne_nil _)
    · obtain ⟨reg, hreg, rfl⟩ := List.mem_map.1 hc
      exact ⟨reg, hreg, hacc, hp⟩
  · rintro ⟨⟨reg, hreg, hacc, hp⟩, hsel⟩
    have hs := hpres.2 (Or.inr ⟨_, List.mem_map_of_mem hreg, hacc, hp⟩)
    exact ⟨_, (matchRoute_at_iff _ _ _ _ _).2 ⟨⟨hs, hsel⟩, rfl⟩⟩

/-- Without a handler nothing is run. -/
theorem isSome_of_dispatcher {req : Request} {params params' : Params} {handler : Option H}
    {h : H} (heq : dispatcher req handler params = .handleRequest h req params') :
    handler.isSome := by
  cases handler with
  | none => cases heq
  | some h' => rfl

/-- What is run at a registered pattern is never the 404. -/
theorem dispatcher_ne_notFound (req : Request) (handler : Option H) (params : Params) :
    dispatcher req handler params ≠ notFound := by
  cases handler <;> exact nofun

theorem DispatchTotal.noInteriorStop {regs : List (Registration H)} {req : Request}
    (h : DispatchTotal hasher regs req) : NoInteriorStop hasher regs req := by
  intro s hpre hsel
  obtain ⟨params, hmatch⟩ := (matchRoute_at_iff_present hasher regs req s).2 ⟨hpre, hsel⟩
  obtain ⟨reg, hreg, hacc, hat, -⟩ := h.endpoint _ _ hmatch rfl
  exact ⟨reg, hreg, hacc, (RouterMatchResult.at_inj hat).symm⟩

theorem DispatchTotal.handlerPassed {regs : List (Registration H)} {req : Request}
    (h : DispatchTotal hasher regs req) : HandlerPassed hasher regs req := by
  intro s latest first hsel hlast hfirst
  obtain ⟨hmem, hacc, hnorm⟩ := lastRegistered_eq_some hlast
  obtain ⟨params, hmatch⟩ := (matchRoute_at_iff_present hasher regs req s).2
    ⟨⟨latest, hmem, hacc, hnorm ▸ List.prefix_rfl⟩, hsel⟩
  obtain ⟨first', hfirst', -, hhandle⟩ := handleImpl_at hasher hlast hmatch
  obtain rfl : first = first' := Option.some.inj (hfirst.symm.trans hfirst')
  obtain ⟨effect, hok, hcases⟩ := h.outcome
  obtain rfl : dispatcher req first.handler params = effect :=
    Except.ok.inj (hhandle.symm.trans hok)
  rcases hcases with hnot | ⟨-, -, -, handler, params', -, heffect⟩
  · exact absurd hnot (dispatcher_ne_notFound req first.handler params)
  · exact isSome_of_dispatcher heffect

/-- Dispatch is total exactly when no walk stops at an interior node, and none at
a pattern whose stored handler is null. -/
theorem dispatchTotal_iff (regs : List (Registration H)) (req : Request) :
    DispatchTotal hasher regs req ↔
      NoInteriorStop hasher regs req ∧ HandlerPassed hasher regs req := by
  constructor
  · exact fun htotal => ⟨htotal.noInteriorStop, htotal.handlerPassed⟩
  · rintro ⟨hstop, hpassed⟩
    obtain ⟨result, params, hmatch, hcases⟩ :=
      matchRoute_cases (callsOf hasher regs) req.getPath PartialMap.empty
    rw [← runRegistrations_router] at hmatch
    rcases hcases with rfl | ⟨s, rfl⟩
    · refine ⟨?_, notFound, handleImpl_null hasher hmatch, Or.inl rfl⟩
      intro result' params' hmatch' hne
      rw [hmatch, Except.ok.injEq, Prod.mk.injEq] at hmatch'
      rw [← hmatch'.1] at hne
      cases hne
    · obtain ⟨hpre, hsel⟩ := (matchRoute_at_iff_present hasher regs req s).1 ⟨_, hmatch⟩
      obtain ⟨q, hq, hqacc, rfl⟩ := hstop s hpre hsel
      obtain ⟨latest, hlast⟩ := exists_lastRegistered hq hqacc
      obtain ⟨first, hfirst, hroute, hhandle⟩ := handleImpl_at hasher hlast hmatch
      obtain ⟨handler, hhandler⟩ :=
        Option.isSome_iff_exists.1 (hpassed _ latest first hsel hlast hfirst)
      have hfacc : first.accepted = true := by
        have hp := List.find?_some hfirst
        rw [Bool.and_eq_true] at hp
        exact hp.1
      rw [hhandler] at hhandle
      refine ⟨?_, _, hhandle, Or.inr ⟨first, List.mem_of_find?_eq_some hfirst, hfacc,
        handler, params, hhandler, rfl⟩⟩
      intro result' params' hmatch' _
      rw [hmatch, Except.ok.injEq, Prod.mk.injEq] at hmatch'
      rw [← hmatch'.1, (endpoint_of_lastRegistered hasher hlast).2, hroute]
      exact ⟨q, hq, hqacc, rfl, rfl, rfl⟩

/-- A hash for the examples below. -/
def polyHash (s : Str) : SizeT := s.foldl (fun h c => 31 * h + c.toUInt64) 7

/-- `GET /post` stops at the node above `/post/{id}`, which has no handler. -/
theorem interior_node_not_total :
    ¬ DispatchTotal polyHash [⟨⟨str "/post/\x7bid\x7d", by decide⟩, some ()⟩]
      ⟨⟨str "/post", by decide⟩⟩ := by
  intro h
  obtain ⟨reg, -, -, -, hexec, -⟩ := h.endpoint (.at [[], str "post"]) _
    (Router.matchRoute_of_fst _ (by decide)) rfl
  exact absurd hexec (by decide)

/-! ## Which handler is run -/

theorem dispatcher_inj {req : Request} {params : Params} {h h' : Option H}
    (heq : dispatcher req h params = dispatcher req h' params) : h = h' := by
  cases h <;> cases h' <;> simp_all [dispatcher]

/-- With a hash that separates the registered paths, a request for a registered
pattern runs the handler of its last registration exactly when the first
registration of that path string passed the same handler. -/
theorem latestHandler_iff (regs : List (Registration H))
    (hinj : ∀ a ∈ regs, ∀ b ∈ regs, a.accepted = true → b.accepted = true →
      hasher a.path.bytes = hasher b.path.bytes → a.path.bytes = b.path.bytes)
    (p : Registration H) (hp : p ∈ regs) (hacc : p.accepted = true)
    (req : Request) (params : Params)
    (hmatch : (runRegistrations hasher regs).router.matchRoute req.getPath PartialMap.empty =
      .ok (.at p.norm, params)) :
    ∃ latest first, lastRegistered regs p.norm = some latest ∧
      firstRegistered regs latest.path.bytes = some first ∧
      ((runRegistrations hasher regs).handleImpl req =
          .ok (dispatcher req latest.handler params) ↔
        first.handler = latest.handler) := by
  obtain ⟨latest, hlast⟩ := exists_lastRegistered hp hacc
  obtain ⟨hmem, hlacc, -⟩ := lastRegistered_eq_some hlast
  obtain ⟨first, hfirst, -, hhandle⟩ := handleImpl_at hasher hlast hmatch
  have hsame : regs.find? (fun reg => reg.accepted &&
      hasher reg.path.bytes = hasher latest.path.bytes) =
        firstRegistered regs latest.path.bytes := by
    refine List.find?_congr fun reg hreg => ?_
    cases hr : reg.accepted with
    | false => rfl
    | true =>
      have hiff : hasher reg.path.bytes = hasher latest.path.bytes ↔
          reg.path.bytes = latest.path.bytes :=
        ⟨hinj reg hreg latest hmem hr hlacc, congrArg hasher⟩
      simp [hiff]
  refine ⟨latest, first, hlast, hsame ▸ hfirst, ?_⟩
  rw [hhandle, Except.ok.injEq]
  exact ⟨dispatcher_inj, fun h => by rw [h]⟩

/-- A second spelling of a pattern takes over its requests. -/
theorem latestHandler_spellings :
    let regs : List (Registration Nat) :=
      [⟨⟨str "/\x7ba\x7d", by decide⟩, some 1⟩, ⟨⟨str "/\x7bb\x7d", by decide⟩, some 2⟩]
    ∃ params, (runRegistrations polyHash regs).handleImpl ⟨⟨str "/x", by decide⟩⟩ =
      .ok (dispatcher ⟨⟨str "/x", by decide⟩⟩ (some 2) params) := by
  intro regs
  obtain ⟨latest, first, hlast, hfirst, hiff⟩ := latestHandler_iff polyHash regs (by decide)
    regs[0] (List.getElem_mem _) (by decide) ⟨⟨str "/x", by decide⟩⟩ _
    (Router.matchRoute_of_fst _ (by decide))
  obtain rfl : regs[1] = latest := Option.some.inj hlast
  obtain rfl : regs[1] = first := Option.some.inj hfirst
  exact ⟨_, hiff.2 rfl⟩

/-- A second registration of the same path string is ignored: `emplace` keeps
the route of the first one. -/
theorem repeated_registration_ignored :
    let regs : List (Registration Nat) :=
      [⟨⟨str "/a", by decide⟩, some 1⟩, ⟨⟨str "/a", by decide⟩, some 2⟩]
    let req : Request := ⟨⟨str "/a", by decide⟩⟩
    ∃ params, (runRegistrations polyHash regs).router.matchRoute req.getPath
        PartialMap.empty = .ok (.at regs[0].norm, params) ∧
      lastRegistered regs regs[0].norm = some regs[1] ∧
      (runRegistrations polyHash regs).handleImpl req ≠
        .ok (dispatcher req regs[1].handler params) := by
  intro regs req
  have hmatch : (runRegistrations polyHash regs).router.matchRoute req.getPath
      PartialMap.empty = .ok (.at regs[0].norm, _) :=
    Router.matchRoute_of_fst _ (by decide)
  have hlast : lastRegistered regs regs[0].norm = some regs[1] := rfl
  refine ⟨_, hmatch, hlast, ?_⟩
  obtain ⟨first, hfirst, -, hhandle⟩ := handleImpl_at polyHash hlast hmatch
  obtain rfl : regs[0] = first := Option.some.inj hfirst
  rw [hhandle, ne_eq, Except.ok.injEq]
  exact fun h => absurd (dispatcher_inj h) (by decide)

end Run

end Piconaut.Handlers
