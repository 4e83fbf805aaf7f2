import Piconaut.Handlers.GlobalDispatcher

/-!
# The trie and the route table

A registration writes the trie and `routes_`.  The trie overwrites: two spellings
of a pattern, such as `/{a}` and `/{b}`, share a node, and the node has the hash
of the later one.  `routes_` keeps an entry for each spelling.  `StoresAgree` says
what holds between the two stores all the same, and `stores_agree` that it holds
after every sequence of registrations, as long as the hash separates the path
strings that were accepted.
-/

namespace Piconaut.Handlers

open Piconaut.CppStd Piconaut.Routers Piconaut.Http

variable {H : Type} (hasher : Str → SizeT)

/-- The hash separates the path strings of the accepted registrations. -/
def SeparatesPaths (regs : List (Registration H)) : Prop :=
  ∀ a ∈ regs, ∀ b ∈ regs, a.accepted = true → b.accepted = true →
    hasher a.path.bytes = hasher b.path.bytes → a.path.bytes = b.path.bytes

/-- How the two stores hang together after the registrations `regs`. -/
structure StoresAgree (d : GlobalDispatcherHandler H) (regs : List (Registration H)) : Prop where
  /-- A node with a handler has a route, for a spelling of the node's pattern. -/
  node : ∀ s fields, d.router.root.data? s = some fields → fields.handler.isSome →
    ∃ route, d.routes fields.key = some route ∧ route.key = fields.key ∧
      Routers.norm route.path.bytes = s
  /-- The table has no other entries than those of accepted path strings. -/
  accepted : ∀ key route, d.routes key = some route →
    ∃ reg ∈ regs, reg.accepted = true ∧ reg.path.bytes = route.path.bytes
  /-- An accepted path string has one entry. -/
  entry : ∀ reg ∈ regs, reg.accepted = true →
    ∃! key, ∃ route, d.routes key = some route ∧ route.path.bytes = reg.path.bytes

section Run

variable {hasher} {regs : List (Registration H)}

/-- An entry of the table is the route of the first registration with its hash. -/
theorem routes_eq_some {key : SizeT} {route : Route H}
    (h : (runRegistrations hasher regs).routes key = some route) :
    ∃ first ∈ regs, first.accepted = true ∧ hasher first.path.bytes = key ∧
      route = first.toRoute hasher := by
  rw [runRegistrations_routes, Option.map_eq_some_iff] at h
  obtain ⟨first, hfirst, rfl⟩ := h
  have hp := List.find?_some hfirst
  simp only [Bool.and_eq_true, decide_eq_true_eq] at hp
  exact ⟨first, List.mem_of_find?_eq_some hfirst, hp.1, hp.2, rfl⟩

/-- The path string of an accepted registration has the entry under its hash. -/
theorem SeparatesPaths.exists_route (hsep : SeparatesPaths hasher regs)
    {reg : Registration H} (hreg : reg ∈ regs) (hacc : reg.accepted = true) :
    ∃ route, (runRegistrations hasher regs).routes (hasher reg.path.bytes) = some route ∧
      route.key = hasher reg.path.bytes ∧ route.path.bytes = reg.path.bytes := by
  have hsome : ((runRegistrations hasher regs).routes (hasher reg.path.bytes)).isSome := by
    rw [runRegistrations_routes, Option.isSome_map, List.find?_isSome]
    exact ⟨reg, hreg, by simp [hacc]⟩
  obtain ⟨route, hroute⟩ := Option.isSome_iff_exists.1 hsome
  obtain ⟨first, hfirst, hfacc, hhash, rfl⟩ := routes_eq_some hroute
  exact ⟨_, hroute, hhash, hsep first hfirst reg hreg hfacc hacc hhash⟩

/-- A node with a handler has the hash of the registration that was last for it. -/
theorem exists_lastRegistered_of_data {s : Loc} {fields : NodeFields (HandlerFn H)}
    (hdata : (runRegistrations hasher regs).router.root.data? s = some fields)
    (hhandler : fields.handler.isSome) :
    ∃ latest, lastRegistered regs s = some latest ∧
      fields.key = hasher latest.path.bytes := by
  have hfields : fieldsAt (runRegistrations hasher regs).router.root s = fields :=
    fieldsAt_of_data? hdata
  rw [← hfields] at hhandler
  obtain ⟨latest, hlast⟩ := exists_lastRegistered_of_handler hasher hhandler
  have hkey := (endpoint_of_lastRegistered hasher hlast).1
  exact ⟨latest, hlast, hfields ▸ hkey⟩

end Run

/-- A call that throws leaves both stores as they are. -/
theorem registerRouteHandler_of_throws (d : GlobalDispatcherHandler H)
    (reg : Registration H) {e : StdException}
    (h : (d.registerRouteHandler hasher reg.path reg.handler).1 = .error e) :
    (d.registerRouteHandler hasher reg.path reg.handler).2 = d := by
  rw [GlobalDispatcherHandler.registerRouteHandler, addRoute_toCall] at h ⊢
  cases hacc : reg.accepted with
  | true =>
    rw [hacc] at h
    cases h
  | false =>
    have hsame : d.router.afterCall (reg.toCall hasher) = d.router :=
      afterCall_of_not_accepted d.router hacc
    rw [hsame]
    rfl

/-- After every sequence of registrations the two stores agree, and a further call
that throws leaves them as they are. -/
theorem stores_agree (regs : List (Registration H)) (hsep : SeparatesPaths hasher regs) :
    StoresAgree (runRegistrations hasher regs) regs ∧
      ∀ (reg : Registration H) (e : StdException),
        ((runRegistrations hasher regs).registerRouteHandler hasher reg.path
          reg.handler).1 = .error e →
        ((runRegistrations hasher regs).registerRouteHandler hasher reg.path
          reg.handler).2 = runRegistrations hasher regs := by
  refine ⟨⟨?_, ?_, ?_⟩, fun reg e => registerRouteHandler_of_throws hasher _ reg⟩
  · intro s fields hdata hhandler
    obtain ⟨latest, hlast, hkey⟩ := exists_lastRegistered_of_data hdata hhandler
    obtain ⟨hmem, hacc, hnorm⟩ := lastRegistered_eq_some hlast
    obtain ⟨route, hroute, hrkey, hpath⟩ := hsep.exists_route hmem hacc
    refine ⟨route, hkey ▸ hroute, hkey ▸ hrkey, ?_⟩
    rw [hpath]
    exact hnorm
  · intro key route hroute
    obtain ⟨first, hfirst, hacc, -, rfl⟩ := routes_eq_some hroute
    exact ⟨first, hfirst, hacc, rfl⟩
  · intro reg hreg hacc
    obtain ⟨route, hroute, -, hpath⟩ := hsep.exists_route hreg hacc
    refine ⟨hasher reg.path.bytes, ⟨route, hroute, hpath⟩, ?_⟩
    rintro key ⟨route', hroute', hpath'⟩
    obtain ⟨first, -, -, hhash, rfl⟩ := routes_eq_some hroute'
    rw [← hhash]
    exact congrArg hasher hpath'

/-- Two spellings of a pattern, one of them twice, and a path that is rejected. -/
theorem spellings_agree :
    let regs : List (Registration Nat) :=
      [⟨⟨str "/\x7ba\x7d", by decide⟩, some 1⟩, ⟨⟨str "/\x7bb\x7d", by decide⟩, some 2⟩,
        ⟨⟨str "/\x7ba\x7d", by decide⟩, some 3⟩, ⟨⟨str "a", by decide⟩, some 4⟩]
    StoresAgree (runRegistrations polyHash regs) regs :=
  (stores_agree polyHash _ (by
    unfold SeparatesPaths
    decide)).1

end Piconaut.Handlers
