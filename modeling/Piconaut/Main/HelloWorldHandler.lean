import Piconaut.Formats.Json.BuilderAppends
import Piconaut.Handlers.HandlerCallback

/-!
# The handler of `main.cc`

`HelloWorldHandler::HandleRequest` answers with a JSON document: the server, a status, five
headers of the request and, if there are any, the parameters of the route.  The body of
`HandleRequest` is a program of the builder (`helloProgram`).  It builds `helloDocument`
(`exec_helloProgram`), and the response is what the writer makes of it.

The order of the entries of an `std::unordered_map` is the parameter `order`, and the
writer of RapidJSON is the parameter `accept`.  The output on `std::cout` is left out.
-/

namespace Piconaut.Main

open Piconaut.CppStd Piconaut.Formats.Json Piconaut.Handlers Piconaut.Http
open Piconaut.Rapidjson (Fault)

/-! ## The source -/

/-- `ValueBuilder::SerializeToBytes`.  `accept` gives what `Document::Accept` writes, or
`none` where it returns `false`. -/
def serializeToBytes (accept : Rapidjson.Value → Option Str) (json : ValueBuilder) :
    Except Fault Str :=
  match accept json.document with
  | some bytes => .ok bytes
  | none => .error (.exception (.runtimeError (str "Failed to serialize JSON document.")))

/-- The statements of `HandleRequest` that write to `json`, for the entries of `params` in
the order of the loop. -/
def helloProgram (req : HeadedRequest) (params : List (Str × Str)) : List Statement :=
  [⟨[], str "server", .createJsonObject⟩,
    ⟨[str "server"], str "name", .assign (.cstr (str "Piconaut Framework"))⟩,
    ⟨[str "server"], str "version", .assign (.cstr (str "v0.2.1"))⟩,
    ⟨[], str "status", .assign (.int 200)⟩,
    ⟨[], str "userAgent", .assign (.string (req.getHeader (str "user-agent")))⟩,
    ⟨[], str "acceptLanguage", .assign (.string (req.getHeader (str "accept-language")))⟩,
    ⟨[], str "acceptEncoding", .assign (.string (req.getHeader (str "accept-encoding")))⟩,
    ⟨[], str "cacheControl", .assign (.string (req.getHeader (str "cache-control")))⟩,
    ⟨[], str "pragma", .assign (.string (req.getHeader (str "pragma")))⟩] ++
  (if params.length ≠ 0 then [⟨[], str "params", .createJsonObject⟩] else []) ++
  params.map fun p => ⟨[str "params"], p.1, .assign (.string p.2)⟩

/-- `HelloWorldHandler::HandleRequest`.  The handlers of `main` differ in nothing, so the
handler itself is not used. -/
def helloHandleRequest {H : Type} (order : PartialMap.Enumeration Str Str)
    (accept : Rapidjson.Value → Option Str) : HandleRequest H :=
  fun _ req res params => do
    let json ← exec .init (helloProgram req (order.entries params))
    let bytes ← serializeToBytes accept json
    return res.sendJson bytes 200

/-! ## The document -/

/-- A string member.  What the builder stores ends at the first NUL. -/
def text (s : Str) : Rapidjson.Value := .scalar (.string (cStr s))

/-- The members that every answer has. -/
def helloMembers (req : HeadedRequest) : List (Str × Rapidjson.Value) :=
  [(str "server", .object [(str "name", text (str "Piconaut Framework")),
      (str "version", text (str "v0.2.1"))]),
    (str "status", .scalar (.number (.integer 200))),
    (str "userAgent", text (req.getHeader (str "user-agent"))),
    (str "acceptLanguage", text (req.getHeader (str "accept-language"))),
    (str "acceptEncoding", text (req.getHeader (str "accept-encoding"))),
    (str "cacheControl", text (req.getHeader (str "cache-control"))),
    (str "pragma", text (req.getHeader (str "pragma")))]

/-- The document of an answer.  It has a member `params` exactly if there are parameters. -/
def helloDocument (req : HeadedRequest) (params : List (Str × Str)) : Rapidjson.Value :=
  .object (helloMembers req ++
    if params = [] then []
    else [(str "params", .object (params.map fun p => (p.1, .scalar (.string p.2))))])

/-- Parameters that the builder stores as they are: names and values are C strings, and no
name occurs twice. -/
structure Storable (params : List (Str × Str)) : Prop where
  names : (params.map Prod.fst).Nodup
  name_cStr : ∀ p ∈ params, cStr p.1 = p.1
  value_cStr : ∀ p ∈ params, cStr p.2 = p.2

/-- The order of the parameters does not matter. -/
theorem Storable.perm {params params' : List (Str × Str)} (h : Storable params)
    (hperm : params'.Perm params) : Storable params' :=
  ⟨(hperm.map _).nodup_iff.2 h.names, fun p hp => h.name_cStr p (hperm.mem_iff.1 hp),
    fun p hp => h.value_cStr p (hperm.mem_iff.1 hp)⟩

/-! ## The program builds the document -/

/-- The members of the root after the server, with their actions. -/
def headerBlock (req : HeadedRequest) : Block :=
  [(str "status", .assign (.int 200)),
    (str "userAgent", .assign (.string (req.getHeader (str "user-agent")))),
    (str "acceptLanguage", .assign (.string (req.getHeader (str "accept-language")))),
    (str "acceptEncoding", .assign (.string (req.getHeader (str "accept-encoding")))),
    (str "cacheControl", .assign (.string (req.getHeader (str "cache-control")))),
    (str "pragma", .assign (.string (req.getHeader (str "pragma"))))]

/-- The statements up to the parameters. -/
theorem exec_headers (req : HeadedRequest) :
    ∃ b, exec .init (helloProgram req []) = .ok b ∧ AtRest b ∧
      b.document = .object (helloMembers req) := by
  have hempty : ValueBuilder.init.document = .object [] := rfl
  obtain ⟨b₁, hexec₁, hrest₁, hdoc₁⟩ := exec_rootAppends atRest_init hempty
    [(str "server", .createJsonObject)] (by decide)
  have hserver : b₁.document = .object ([] ++ [(cStr (str "server"), .object [])]) := hdoc₁
  obtain ⟨b₂, hexec₂, hrest₂, hdoc₂⟩ := exec_memberAppends hrest₁ hserver (by simp)
    [(str "name", .assign (.cstr (str "Piconaut Framework"))),
      (str "version", .assign (.cstr (str "v0.2.1")))] (by decide)
  have hnames : (str "server" :: (members (headerBlock req)).map Prod.fst).Nodup := by
    change [str "server", str "status", str "userAgent", str "acceptLanguage",
      str "acceptEncoding", str "cacheControl", str "pragma"].Nodup
    decide
  obtain ⟨b₃, hexec₃, hrest₃, hdoc₃⟩ :=
    exec_rootAppends hrest₂ hdoc₂ (headerBlock req) hnames
  refine ⟨b₃, ?_, hrest₃, hdoc₃⟩
  exact (exec_append hexec₁).trans ((exec_append hexec₂).trans hexec₃)

/-- What the statements of the loop add. -/
theorem Storable.members_eq {params : List (Str × Str)} (h : Storable params) :
    members (params.map fun p => (p.1, .assign (.string p.2))) =
      params.map fun p => (p.1, (JsonTree.scalar (.string p.2) : Rapidjson.Value)) := by
  rw [members, List.map_map]
  refine List.map_congr_left fun p hp => ?_
  change (cStr p.1, (JsonTree.scalar (.string (cStr p.2)) : Rapidjson.Value)) = _
  rw [h.name_cStr p hp, h.value_cStr p hp]

/-- The builder holds the document after the statements. -/
theorem exec_helloProgram (req : HeadedRequest) {params : List (Str × Str)}
    (h : Storable params) :
    ∃ b, exec .init (helloProgram req params) = .ok b ∧
      b.document = helloDocument req params := by
  obtain ⟨b, hexec, hrest, hdoc⟩ := exec_headers req
  have hsplit : helloProgram req params = helloProgram req [] ++
      ((if params.length ≠ 0 then [⟨[], str "params", .createJsonObject⟩] else []) ++
        params.map fun p => ⟨[str "params"], p.1, .assign (.string p.2)⟩) := by
    simp [helloProgram]
  rw [hsplit, exec_append hexec]
  by_cases hparams : params = []
  · subst hparams
    exact ⟨b, rfl, by rw [hdoc, helloDocument, if_pos rfl, List.append_nil]⟩
  have hnew : str "params" ∉ (helloMembers req).map Prod.fst := by
    change str "params" ∉ [str "server", str "status", str "userAgent", str "acceptLanguage",
      str "acceptEncoding", str "cacheControl", str "pragma"]
    decide
  obtain ⟨b₁, hexec₁, hrest₁, hdoc₁⟩ := hrest.exec_append hdoc (str "params")
    .createJsonObject hnew
  have hempty : b₁.document =
      .object (helloMembers req ++ [(cStr (str "params"), .object [])]) := hdoc₁
  obtain ⟨b₂, hexec₂, -, hdoc₂⟩ := exec_memberAppends hrest₁ hempty hnew
    (params.map fun p => (p.1, .assign (.string p.2)))
    (by rw [h.members_eq, List.map_map]; exact h.names)
  have hobject : exec b [⟨[], str "params", .createJsonObject⟩] = .ok b₁ := by
    rw [exec, List.foldlM_cons, hexec₁]
    rfl
  refine ⟨b₂, ?_, ?_⟩
  · rw [memberAppends, List.map_map] at hexec₂
    rw [if_pos (by simpa using hparams), exec_append hobject]
    exact hexec₂
  · rw [hdoc₂, helloDocument, if_neg hparams, h.members_eq]
    rfl

/-- The response of a handler: the document of the request and its parameters, as the writer
writes it, or the error of the writer. -/
theorem helloHandleRequest_eq {H : Type} (order : PartialMap.Enumeration Str Str)
    (accept : Rapidjson.Value → Option Str) (handler : H) (req : HeadedRequest) (res : Response)
    {params : Routers.Params} (h : Storable (order.entries params)) :
    helloHandleRequest order accept handler req res params =
      match accept (helloDocument req (order.entries params)) with
      | some bytes => .ok (res.sendJson bytes 200)
      | none =>
        .error (.exception (.runtimeError (str "Failed to serialize JSON document."))) := by
  obtain ⟨json, hexec, hdoc⟩ := exec_helloProgram req h
  rw [helloHandleRequest, hexec, ExceptRun.ok_bind, serializeToBytes, hdoc]
  cases accept (helloDocument req (order.entries params)) with
  | none => rfl
  | some bytes => rfl

end Piconaut.Main
