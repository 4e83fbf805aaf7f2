import Piconaut.Http.Request
import Piconaut.Http.Response
import Piconaut.Middleware.MiddlewareManager

/-!
# `piconaut::middleware::CsrfMiddleware`

The gate in front of state-changing requests.  It looks for the token under the name
`X-CSRF-Token`, and h2o keeps the names of received headers in lower case and
compares bytes.  So `GetHeader` never finds it, and every `POST` request is rejected
(`execute_gate_of_post`).  The rejection sets the status 403 and then calls `Send`
without a status, whose default argument sets it to 200.

`GateHolds` is what the gate is for, in a chain of arbitrary other middlewares.
`gateHolds_iff` says that it is kept for requests with other methods only.
-/

namespace Piconaut.Middleware

open Piconaut.CppStd Piconaut.Http CallChain

/-- `class CsrfMiddleware`.  The token is `std::to_string` of a random number. -/
structure CsrfMiddleware where
  csrfToken : Str
  generated : ∃ n : UInt64, csrfToken = str (toString n.toNat)

/-- A middleware's `Handle(req, res, next)`. -/
abbrev HttpMiddleware := HeadedRequest → MiddlewareBase Response

namespace CsrfMiddleware

/-- `CsrfMiddleware::ValidateToken`. -/
def validateToken (csrf : CsrfMiddleware) (token : Str) : Bool := token = csrf.csrfToken

/-- The last lines of `CsrfMiddleware::Handle`. -/
def passOn (csrf : CsrfMiddleware) : Behaviour Response :=
  .effect (fun res => res.addHeader (str "X-CSRF-Token") csrf.csrfToken)
    (.callNext fun _ => .finish)

/-- `CsrfMiddleware::Handle`. -/
def handle (csrf : CsrfMiddleware) : HttpMiddleware := fun req _ =>
  if req.method = str "POST" then
    let token := req.getHeader (str "X-CSRF-Token")
    if !csrf.validateToken token then
      .effect (fun res => res.status 403)
        (.effect (fun res => res.send (str "Forbidden: CSRF token invalid")) .finish)
    else csrf.passOn
  else csrf.passOn

/-- The request has a CSRF header with the token.  Header names compare without
case. -/
def Carries (csrf : CsrfMiddleware) (req : HeadedRequest) : Prop :=
  ∃ header ∈ req.headers,
    header.name.map toLower = (str "X-CSRF-Token").map toLower ∧
      header.value = csrf.csrfToken

theorem csrfToken_ne_nil (csrf : CsrfMiddleware) : csrf.csrfToken ≠ [] := by
  obtain ⟨n, hn⟩ := csrf.generated
  rw [hn, str]
  intro hnil
  rw [List.map_eq_nil_iff, String.toList_eq_nil_iff] at hnil
  exact Nat.repr_ne_empty hnil

/-- No request passes the check: `GetHeader` does not find the name. -/
theorem validateToken_getHeader (csrf : CsrfMiddleware) (req : HeadedRequest) :
    csrf.validateToken (req.getHeader (str "X-CSRF-Token")) = false := by
  have hnil : req.getHeader (str "X-CSRF-Token") = [] :=
    req.getHeader_of_upper (c := ch 'X') (by decide) (by decide)
  rw [hnil, validateToken, decide_eq_false_iff_not]
  exact Ne.symm csrf.csrfToken_ne_nil

/-- What the gate does with a `POST` request. -/
theorem handle_of_post (csrf : CsrfMiddleware) {req : HeadedRequest}
    (h : req.method = str "POST") (res : Response) :
    csrf.handle req res = .effect (fun res => res.status 403)
      (.effect (fun res => res.send (str "Forbidden: CSRF token invalid")) .finish) := by
  rw [handle, if_pos h]
  simp only [csrf.validateToken_getHeader req]
  rfl

end CsrfMiddleware

/-- The manager with these middlewares, and what it runs for a request. -/
def managerFor (middlewares : List HttpMiddleware) (req : HeadedRequest) :
    MiddlewareManager Response :=
  MiddlewareManager.ofAdded (middlewares.map fun middleware => middleware req)

/-- What the gate at position `i` is for, in the run that `manager` makes for `req`. -/
structure GateHolds (csrf : CsrfMiddleware) (manager : MiddlewareManager Response) (i : Nat)
    (req : HeadedRequest) (res : Response) : Prop where
  /-- A `POST` request without the token stops here.  No later middleware runs, and the
  gate sends a response with the status 403. -/
  rejects : req.method = str "POST" → ¬ csrf.Carries req →
    (∀ j, i < j → j ∉ enters (manager.handle res).1) ∧
      ∀ s, .enter i s ∈ (manager.handle res).1 →
        ∃ response, (manager.execute i s).2.sent = s.sent ++ [response] ∧
          response.status = 403
  /-- One with the token passes on to the next middleware. -/
  passes : req.method = str "POST" → csrf.Carries req →
    i ∈ calls (manager.handle res).1 ∧
      (i + 1 < manager.middlewares.length → i + 1 ∈ enters (manager.handle res).1)

section Gate

variable {csrf : CsrfMiddleware} {middlewares : List HttpMiddleware} {i : Nat}
  {req : HeadedRequest}

/-- A run of the gate on a `POST` request: two effects, no call, and a response with
the status 200. -/
theorem execute_gate_of_post (hgate : middlewares[i]? = some csrf.handle)
    (hpost : req.method = str "POST") (s : Response) :
    ∃ s₁ s₂, ((managerFor middlewares req).execute i s).1 =
        [.enter i s, .effect i 0 s₁, .effect i 0 s₂] ∧
      ((managerFor middlewares req).execute i s).2.sent =
        s.sent ++ [⟨200, str "OK", s.headers, str "Forbidden: CSRF token invalid"⟩] := by
  have hmiddlewares : (managerFor middlewares req).middlewares =
      middlewares.map fun middleware => middleware req :=
    MiddlewareManager.middlewares_ofAdded _
  obtain ⟨hlt, hget⟩ := List.getElem?_eq_some_iff.1 hgate
  have hlt' : i < (managerFor middlewares req).middlewares.length := by
    rw [hmiddlewares, List.length_map]
    exact hlt
  have hhandle : (managerFor middlewares req).middlewares[i] = csrf.handle req := by
    simp only [hmiddlewares, List.getElem_map, hget]
  rw [MiddlewareManager.execute_of_lt _ hlt', hhandle, csrf.handle_of_post hpost]
  exact ⟨_, _, rfl, rfl⟩

/-- The gate passes no `POST` request on. -/
theorem not_mem_calls_of_post (hgate : middlewares[i]? = some csrf.handle)
    (hpost : req.method = str "POST") (res : Response) :
    i ∉ calls ((managerFor middlewares req).handle res).1 := by
  intro hmem
  obtain ⟨s, hs⟩ := mem_calls.1 hmem
  obtain ⟨s', -, hwithin⟩ := MiddlewareManager.exists_enter_of_mem _ (Nat.le_refl i) hs
  obtain ⟨s₁, s₂, hrun, -⟩ := execute_gate_of_post hgate hpost s'
  rw [hrun] at hwithin
  simp at hwithin

theorem not_gateHolds_of_post (hgate : middlewares[i]? = some csrf.handle)
    (hpost : req.method = str "POST") {res : Response}
    (hreached : i ∈ enters ((managerFor middlewares req).handle res).1) :
    ¬ GateHolds csrf (managerFor middlewares req) i req res := by
  intro hholds
  by_cases hcarries : csrf.Carries req
  · exact not_mem_calls_of_post hgate hpost res (hholds.passes hpost hcarries).1
  · obtain ⟨s, hs⟩ := mem_enters.1 hreached
    obtain ⟨response, hsent, hstatus⟩ := (hholds.rejects hpost hcarries).2 s hs
    obtain ⟨s₁, s₂, -, hsent'⟩ := execute_gate_of_post hgate hpost s
    rw [hsent'] at hsent
    obtain rfl := List.singleton_inj.1 (List.append_cancel_left hsent)
    have hstatus' : 200 = 403 := hstatus
    omega

end Gate

/-- Where the gate is reached, it does what it is for exactly if the request is no
`POST` request. -/
theorem gateHolds_iff (csrf : CsrfMiddleware) (middlewares : List HttpMiddleware) (i : Nat)
    (hgate : middlewares[i]? = some csrf.handle) (req : HeadedRequest) (res : Response)
    (hreached : i ∈ enters ((managerFor middlewares req).handle res).1) :
    GateHolds csrf (managerFor middlewares req) i req res ↔ req.method ≠ str "POST" := by
  constructor
  · exact fun hholds hpost => not_gateHolds_of_post hgate hpost hreached hholds
  · exact fun hother =>
      ⟨fun hpost => absurd hpost hother, fun hpost => absurd hpost hother⟩

/-- A gate for the examples below. -/
def gate : CsrfMiddleware := ⟨str "7", 7, rfl⟩

/-- A response before anything was written. -/
def freshResponse : Response := ⟨0, [], [], []⟩

/-- A request with the gate's token, in the form in which h2o stores it. -/
def requestWithToken (method : Str) : HeadedRequest where
  pathNormalized := ⟨str "/", by decide⟩
  method := method
  headers := [⟨str "x-csrf-token", str "7", lower_of_all (by decide)⟩]

theorem get_passes_gate :
    GateHolds gate (managerFor [gate.handle] (requestWithToken (str "GET"))) 0
      (requestWithToken (str "GET")) freshResponse := by
  refine (gateHolds_iff gate [gate.handle] 0 rfl (requestWithToken (str "GET"))
    freshResponse ?_).2 (by decide)
  rw [MiddlewareManager.handle_eq_chain]
  decide

/-- A `POST` request is answered with the status 200 if it has no token, and rejected
if it has the right one. -/
theorem post_fails_gate :
    let bare : HeadedRequest := ⟨⟨⟨str "/", by decide⟩⟩, str "POST", []⟩
    let withToken := requestWithToken (str "POST")
    (¬ gate.Carries bare ∧
        ¬ GateHolds gate (managerFor [gate.handle] bare) 0 bare freshResponse) ∧
      gate.Carries withToken ∧
        ¬ GateHolds gate (managerFor [gate.handle] withToken) 0 withToken freshResponse := by
  intro bare withToken
  refine ⟨⟨?_, not_gateHolds_of_post rfl rfl ?_⟩, ?_, not_gateHolds_of_post rfl rfl ?_⟩
  · rintro ⟨header, hmem, -⟩
    cases hmem
  · rw [MiddlewareManager.handle_eq_chain]
    exact List.mem_cons_self
  · exact ⟨_, List.mem_cons_self, by decide, rfl⟩
  · rw [MiddlewareManager.handle_eq_chain]
    exact List.mem_cons_self

end Piconaut.Middleware
