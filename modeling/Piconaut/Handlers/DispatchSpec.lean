import Piconaut.Handlers.GlobalDispatcher
import Piconaut.Routers.Compaction

/-!
# What the dispatcher answers

`Answers` says what a request gets in terms of the registrations alone: no trie, no table,
and no assumption on the hash.  There are three cases.  The request selects no node and gets
the 404.  It selects a registered pattern and gets the handler of the first registration
that shares its hash with the last registration of the pattern.  Or it selects a node that
lies only on the way to registered patterns; that node has no handler and the key 0, and
what is thrown depends on whether some registered path has the hash 0.

`handleImpl_iff_answers` says that `__HandleImpl` is this specification.
-/

namespace Piconaut.Handlers

open Piconaut.CppStd Piconaut.Routers Piconaut.Http

variable {H : Type} (hasher : Str → SizeT)

/-! ## The specification -/

/-- Some accepted pattern starts with `s`. -/
def OnWay (regs : List (Registration H)) (s : Loc) : Prop :=
  ∃ p ∈ regs, p.accepted = true ∧ s <+: p.norm

/-- The parameters of a request that selects `s`. -/
def paramsAt (regs : List (Registration H)) (s : Loc) (req : Request) : Params :=
  (bindings (nameAt (callsOf hasher regs)) [] s (segments req.getPath.bytes)).foldl
    (fun m e => m.insert e.1 e.2) PartialMap.empty

/-- The request selects `s`. -/
def SelectedFor (regs : List (Registration H)) (s : Loc) (req : Request) : Prop :=
  SelectedBy (callsOf hasher regs) s (segments req.getPath.bytes)

/-- What is thrown at a node without a handler: its key is 0. -/
def interiorError (regs : List (Registration H)) : StdException :=
  if regs.any fun reg => reg.accepted && hasher reg.path.bytes = 0 then .badFunctionCall
  else .outOfRange

/-- The answer to a request after the registrations. -/
inductive Answers (regs : List (Registration H)) (req : Request) :
    Except StdException (Effect H) → Prop where
  | notFound (hnone : ∀ s, OnWay regs s → ¬ SelectedFor hasher regs s req) :
    Answers regs req (.ok notFound)
  | handler {s : Loc} {latest first : Registration H} (hsel : SelectedFor hasher regs s req)
      (hlast : lastRegistered regs s = some latest)
      (hfirst : regs.find? (fun reg => reg.accepted &&
        hasher reg.path.bytes = hasher latest.path.bytes) = some first) :
    Answers regs req (.ok (dispatcher req first.handler (paramsAt hasher regs s req)))
  | interior {s : Loc} (hsel : SelectedFor hasher regs s req) (hway : OnWay regs s)
      (hno : lastRegistered regs s = none) :
    Answers regs req (.error (interiorError hasher regs))

/-! ## The code meets it -/

section Run

variable {hasher} {regs : List (Registration H)} {req : Request} {s : Loc}

/-- A selected node is where `MatchRoute` ends, with the parameters of the node. -/
theorem matchRoute_of_selectedFor (hsel : SelectedFor hasher regs s req) (hway : OnWay regs s) :
    (runRegistrations hasher regs).router.matchRoute req.getPath PartialMap.empty =
      .ok (.at s, paramsAt hasher regs s req) := by
  obtain ⟨params, hmatch⟩ := (matchRoute_at_iff_present hasher regs req s).2 ⟨hway, hsel⟩
  rw [hmatch]
  rw [runRegistrations_router] at hmatch
  rw [((matchRoute_at_iff _ _ _ _ _).1 hmatch).2, bindings_nodeName, paramsAt]

/-- A node that is no endpoint has the key 0 and no handler. -/
theorem fields_of_interior (hno : lastRegistered regs s = none) :
    (runRegistrations hasher regs).keyOf (.at s) = 0 ∧
      (runRegistrations hasher regs).executorOf (.at s) = none := by
  have hlast : lastAccepted (callsOf hasher regs) (fun c => c.norm = s) = none := by
    rw [lastAccepted_callsOf, hno, Option.map_none]
  change (fieldsAt _ s).key = 0 ∧ (fieldsAt _ s).handler = none
  rw [runRegistrations_router]
  cases s using List.reverseRecOn with
  | nil =>
    rw [fieldsAt_runCalls_nil]
    exact ⟨rfl, rfl⟩
  | append_singleton l k =>
    rw [fieldsAt_runCalls, hlast]
    cases lastAccepted (callsOf hasher regs) fun c => l ++ [k] <+: c.norm with
    | none => exact ⟨rfl, rfl⟩
    | some c => simp [writtenFields]

/-- At such a node the dispatcher throws. -/
theorem handleImpl_interior (hsel : SelectedFor hasher regs s req) (hway : OnWay regs s)
    (hno : lastRegistered regs s = none) :
    (runRegistrations hasher regs).handleImpl req = .error (interiorError hasher regs) := by
  have hfields : (runRegistrations hasher regs).keyOf (.at s) = 0 ∧
      (runRegistrations hasher regs).executorOf (.at s) = none := fields_of_interior hno
  obtain ⟨hkey, hexec⟩ := hfields
  have hroutes := runRegistrations_routes hasher regs 0
  rw [GlobalDispatcherHandler.handleImpl, matchRoute_of_selectedFor hsel hway]
  simp only [ExceptRun.ok_bind, hkey, hexec]
  cases hfind : regs.find? fun reg => reg.accepted && hasher reg.path.bytes = 0 with
  | none =>
    have hany : (regs.any fun reg => reg.accepted && hasher reg.path.bytes = 0) = false :=
      List.any_eq_false.2 (List.find?_eq_none.1 hfind)
    rw [hfind, Option.map_none] at hroutes
    rw [interiorError, hany, hroutes]
    rfl
  | some first =>
    have hp := List.find?_some hfind
    have hany : (regs.any fun reg => reg.accepted && hasher reg.path.bytes = 0) = true :=
      List.any_eq_true.2 ⟨first, List.mem_of_find?_eq_some hfind, hp⟩
    rw [hfind, Option.map_some] at hroutes
    rw [interiorError, hany, hroutes]
    rfl

/-- Every answer of the specification is the one that the code gives. -/
theorem handleImpl_of_answers {result : Except StdException (Effect H)}
    (h : Answers hasher regs req result) :
    (runRegistrations hasher regs).handleImpl req = result := by
  cases h with
  | notFound hnone =>
    obtain ⟨result, params, hmatch, hcases⟩ :=
      matchRoute_cases (callsOf hasher regs) req.getPath PartialMap.empty
    rw [← runRegistrations_router] at hmatch
    rcases hcases with rfl | ⟨s, rfl⟩
    · exact handleImpl_null hasher hmatch
    · obtain ⟨hway, hsel⟩ := (matchRoute_at_iff_present hasher regs req s).1 ⟨_, hmatch⟩
      exact absurd hsel (hnone s hway)
  | @handler s latest first hsel hlast hfirst =>
    obtain ⟨hmem, hacc, hnorm⟩ := lastRegistered_eq_some hlast
    have hway : OnWay regs s := ⟨latest, hmem, hacc, hnorm ▸ List.prefix_rfl⟩
    obtain ⟨first', hfirst', -, hhandle⟩ :=
      handleImpl_at hasher hlast (matchRoute_of_selectedFor hsel hway)
    obtain rfl : first = first' := Option.some.inj (hfirst.symm.trans hfirst')
    exact hhandle
  | interior hsel hway hno => exact handleImpl_interior hsel hway hno

/-- The specification has an answer to every request. -/
theorem exists_answers (hasher : Str → SizeT) (regs : List (Registration H)) (req : Request) :
    ∃ result, Answers hasher regs req result := by
  by_cases hsome : ∃ s, OnWay regs s ∧ SelectedFor hasher regs s req
  · obtain ⟨s, hway, hsel⟩ := hsome
    cases hlast : lastRegistered regs s with
    | none => exact ⟨_, .interior hsel hway hlast⟩
    | some latest =>
      obtain ⟨first, hfirst, -⟩ :=
        handleImpl_at hasher hlast (matchRoute_of_selectedFor hsel hway)
      exact ⟨_, .handler hsel hlast hfirst⟩
  · exact ⟨_, .notFound fun s hway hsel => hsome ⟨s, hway, hsel⟩⟩

/-- The dispatcher answers what the specification says, also what it throws. -/
theorem handleImpl_iff_answers (hasher : Str → SizeT) (regs : List (Registration H))
    (req : Request) (result : Except StdException (Effect H)) :
    (runRegistrations hasher regs).handleImpl req = result ↔ Answers hasher regs req result := by
  refine ⟨fun h => ?_, handleImpl_of_answers⟩
  obtain ⟨answer, hanswer⟩ := exists_answers hasher regs req
  rw [← h, handleImpl_of_answers hanswer]
  exact hanswer

end Run

end Piconaut.Handlers
