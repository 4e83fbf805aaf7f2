import Piconaut.CppStd.Strings

/-!
# `piconaut::http::Response`

The part of `h2o_req_t` that a response writes.  `h2o_send_inline` sends what `res`
holds at the time of the call; `sent` lists what was sent.

`Send` and `SendJson` have a handler for `std::exception`.  Nothing in their bodies
throws one, so the handler is left out.
-/

namespace Piconaut.Http

open Piconaut.CppStd

/-- A response that was sent. -/
structure SentResponse where
  status : Nat
  reason : Str
  headers : List (Str × Str)
  body : Str

/-- `class Response`: the fields of `req_->res`, and what was sent. -/
structure Response where
  resStatus : Nat
  reason : Str
  headers : List (Str × Str)
  sent : List SentResponse

namespace Response

/-- `Response::Status`. -/
def status (res : Response) (statusCode : Nat) : Response :=
  { res with resStatus := statusCode }

/-- `Response::AddHeader`. -/
def addHeader (res : Response) (name value : Str) : Response :=
  { res with headers := res.headers ++ [(name, value)] }

/-- `h2o_send_inline`. -/
def sendInline (res : Response) (body : Str) : Response :=
  { res with sent := res.sent ++ [⟨res.resStatus, res.reason, res.headers, body⟩] }

/-- `Response::Send(body, status_code)`. -/
def sendWith (res : Response) (body : Str) (statusCode : Nat) : Response :=
  { res.status statusCode with reason := str "OK" }.sendInline body

/-- `Response::Send(body)`, with the default argument of the declaration. -/
def send (res : Response) (body : Str) : Response := res.sendWith body 200

/-- `Response::SendJson(json, status_code)`, with the bytes of the buffer. -/
def sendJson (res : Response) (json : Str) (statusCode : Nat) : Response :=
  let res := (res.status statusCode).addHeader (str "content-type") (str "application/json")
  { res with reason := str "OK" }.sendInline json

end Response

end Piconaut.Http
