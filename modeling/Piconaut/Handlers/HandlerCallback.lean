import Piconaut.Handlers.DispatchSpec
import Piconaut.Http.Response
import Piconaut.Rapidjson.Value

/-!
# `piconaut::handlers::HandlerBase`

`HandlerCallback` is the function that h2o calls for a request.  A server registers it for
the dispatcher, so a call runs `__HandleImpl` and with it at most one handler.  What the
handlers do is the parameter `handleRequest`; `h2o_req_t` is a request and a response.

h2o takes the result 0 for a request that is being answered, and does not ask another
handler.  `answeredOnce_iff` says for which requests that is so.  The output on `std::cout`
is left out.
-/

namespace Piconaut.Handlers

open Piconaut.CppStd Piconaut.Routers Piconaut.Http
open Piconaut.Rapidjson (Fault)

variable {H : Type}

/-- `HandlerBase::HandleRequest` of the handlers: what a call makes of the response. -/
abbrev HandleRequest (H : Type) :=
  H → HeadedRequest → Response → Params → Except Fault Response

/-- The part of `h2o_req_t` that a request and a response are made from. -/
structure H2oReq where
  request : HeadedRequest
  response : Response

/-- What a call of `__HandleImpl` makes of the response. -/
def Effect.perform (handleRequest : HandleRequest H) (req : H2oReq) :
    Effect H → Except Fault Response
  | .send body status => .ok (req.response.sendWith body status)
  | .handleRequest handler _ params => handleRequest handler req.request req.response params
  | .nothing => .ok req.response

/-- `HandlerBase::HandlerCallback`, for a server whose handler is a dispatcher.  The result
is the return value and the request that the call leaves behind. -/
def handlerCallback (handleRequest : HandleRequest H) (self : Option (GlobalDispatcherHandler H))
    (req : Option H2oReq) : Except Fault (Nat × Option H2oReq) :=
  match self, req with
  | some handler, some req => do
    let effect ← (handler.handleImpl req.request.toRequest).mapError Fault.exception
    let response ← effect.perform handleRequest req
    return (0, some { req with response := response })
  | _, _ => .ok (1, req)

section Run

variable (hasher : Str → SizeT) (handleRequest : HandleRequest H)
variable (regs : List (Registration H)) (req : H2oReq)

/-- What h2o gets from the callback after the registrations. -/
def respond : Except Fault (Nat × Option H2oReq) :=
  handlerCallback handleRequest (some (runRegistrations hasher regs)) (some req)

/-- A call that returns 0 has sent one more response. -/
def AnsweredOnce : Prop :=
  ∃ response sent, respond hasher handleRequest regs req =
      .ok (0, some { req with response := response }) ∧
    response.sent = req.response.sent ++ [sent]

/-- The handler that runs at `s` sends one response and returns. -/
def HandlerAnswers (s : Loc) : Prop :=
  ∃ latest first handler, lastRegistered regs s = some latest ∧
    regs.find? (fun reg => reg.accepted &&
      hasher reg.path.bytes = hasher latest.path.bytes) = some first ∧
    first.handler = some handler ∧
    ∃ response sent, handleRequest handler req.request req.response
        (paramsAt hasher regs s req.request.toRequest) = .ok response ∧
      response.sent = req.response.sent ++ [sent]

variable {hasher handleRequest regs req}

/-- The callback performs what `__HandleImpl` answers. -/
theorem respond_of_ok {effect : Effect H}
    (h : (runRegistrations hasher regs).handleImpl req.request.toRequest = .ok effect) :
    respond hasher handleRequest regs req =
      (effect.perform handleRequest req).map fun response =>
        (0, some { req with response := response }) := by
  rw [respond, handlerCallback, h]
  change ((effect.perform handleRequest req) >>= _) = _
  cases effect.perform handleRequest req with
  | error e => rfl
  | ok response => rfl

/-- What `__HandleImpl` throws leaves the callback. -/
theorem respond_of_error {e : StdException}
    (h : (runRegistrations hasher regs).handleImpl req.request.toRequest = .error e) :
    respond hasher handleRequest regs req = .error (.exception e) := by
  rw [respond, handlerCallback, h]
  rfl

/-- The callback answers exactly if what is performed answers. -/
theorem answeredOnce_of_ok {effect : Effect H}
    (h : (runRegistrations hasher regs).handleImpl req.request.toRequest = .ok effect) :
    AnsweredOnce hasher handleRequest regs req ↔
      ∃ response sent, effect.perform handleRequest req = .ok response ∧
        response.sent = req.response.sent ++ [sent] := by
  rw [AnsweredOnce, respond_of_ok h]
  refine exists₂_congr fun response sent => and_congr_left fun _ => ?_
  cases effect.perform handleRequest req with
  | error e => exact iff_of_false (by intro h; cases h) (by intro h; cases h)
  | ok response' => simp [Except.map]

/-- The nodes that a request selects are one node. -/
theorem selectedFor_unique {s s' : Loc} {req : Request} (hway : OnWay regs s)
    (hsel : SelectedFor hasher regs s req) (hway' : OnWay regs s')
    (hsel' : SelectedFor hasher regs s' req) : s = s' := by
  obtain ⟨params, hmatch⟩ := (matchRoute_at_iff_present hasher regs req s).2 ⟨hway, hsel⟩
  obtain ⟨params', hmatch'⟩ := (matchRoute_at_iff_present hasher regs req s').2 ⟨hway', hsel'⟩
  rw [hmatch, Except.ok.injEq, Prod.mk.injEq] at hmatch'
  exact RouterMatchResult.at_inj hmatch'.1

/-- A request that selects no node gets the 404, and nothing else is sent. -/
theorem respond_of_unselected
    (h : ∀ s, OnWay regs s → ¬ SelectedFor hasher regs s req.request.toRequest) :
    respond hasher handleRequest regs req =
      .ok (0, some { req with
        response := req.response.sendWith (str "Eror 404: Not found") 404 }) :=
  respond_of_ok (handleImpl_of_answers (.notFound h))

/-- The callback answers once exactly if every node that the request selects is that of a
handler that does. -/
theorem answeredOnce_iff_handlerAnswers :
    AnsweredOnce hasher handleRequest regs req ↔
      ∀ s, OnWay regs s → SelectedFor hasher regs s req.request.toRequest →
        HandlerAnswers hasher handleRequest regs req s := by
  obtain ⟨result, hanswers⟩ := exists_answers hasher regs req.request.toRequest
  have hrun := handleImpl_of_answers hanswers
  cases hanswers with
  | notFound hnone =>
    refine iff_of_true ⟨_, _, respond_of_unselected hnone, rfl⟩ fun s hway hsel => ?_
    exact absurd hsel (hnone s hway)
  | @handler s latest first hsel hlast hfirst =>
    obtain ⟨hmem, hacc, hnorm⟩ := lastRegistered_eq_some hlast
    have hway : OnWay regs s := ⟨latest, hmem, hacc, hnorm ▸ List.prefix_rfl⟩
    rw [answeredOnce_of_ok hrun]
    constructor
    · rintro ⟨response, sent, hperform, hsent⟩ s' hway' hsel'
      obtain rfl := selectedFor_unique hway hsel hway' hsel'
      cases hhandler : first.handler with
      | none =>
        rw [hhandler] at hperform
        obtain rfl : req.response = response := Except.ok.inj hperform
        exact absurd hsent (by simp)
      | some handler =>
        rw [hhandler] at hperform
        exact ⟨latest, first, handler, hlast, hfirst, hhandler, response, sent, hperform, hsent⟩
    · intro h
      obtain ⟨latest', first', handler, hlast', hfirst', hhandler, response, sent, hok, hsent⟩ :=
        h s hway hsel
      obtain rfl : latest = latest' := Option.some.inj (hlast.symm.trans hlast')
      obtain rfl : first = first' := Option.some.inj (hfirst.symm.trans hfirst')
      refine ⟨response, sent, ?_, hsent⟩
      rw [hhandler]
      exact hok
  | @interior s hsel hway hno =>
    refine iff_of_false ?_ fun h => ?_
    · rintro ⟨response, sent, hok, -⟩
      rw [respond_of_error hrun] at hok
      cases hok
    · obtain ⟨latest, -, -, hlast, -⟩ := h s hway hsel
      rw [hno] at hlast
      cases hlast

end Run

/-- A request is answered with exactly one response if and only if the node that it selects,
if there is one, is a registered pattern whose handler is not null and answers once.  A null
handler returns 0 and sends nothing.  Without a node the one response is the 404. -/
theorem answeredOnce_iff (hasher : Str → SizeT) (handleRequest : HandleRequest H)
    (regs : List (Registration H)) (req : H2oReq) :
    (AnsweredOnce hasher handleRequest regs req ↔
      ∀ s, OnWay regs s → SelectedFor hasher regs s req.request.toRequest →
        HandlerAnswers hasher handleRequest regs req s) ∧
    ((∀ s, OnWay regs s → ¬ SelectedFor hasher regs s req.request.toRequest) →
      respond hasher handleRequest regs req =
        .ok (0, some { req with
          response := req.response.sendWith (str "Eror 404: Not found") 404 })) :=
  ⟨answeredOnce_iff_handlerAnswers, respond_of_unselected⟩

end Piconaut.Handlers
