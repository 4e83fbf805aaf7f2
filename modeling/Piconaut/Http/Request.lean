import Piconaut.CppStd.Strings

/-!
# `piconaut::http::Request`

The fields of the underlying `h2o_req_t` that the modelled members read.  The router
reads the path, the middlewares read the method and the headers as well.
-/

namespace Piconaut.Http

open Piconaut.CppStd

/-- A request, with the normalized path that h2o has computed. -/
structure Request where
  pathNormalized : StdString

/-- `Request::GetPath`. -/
def Request.getPath (req : Request) : StdString := req.pathNormalized

/-! ## Method and headers -/

/-- An upper-case letter. -/
def isUpper (c : UInt8) : Bool := ch 'A' ≤ c && c ≤ ch 'Z'

/-- `tolower` in the C locale. -/
def toLower (c : UInt8) : UInt8 := if isUpper c then c + 32 else c

/-- A received header.  h2o stores the name in lower case. -/
structure Header where
  name : Str
  value : Str
  lower : ∀ c ∈ name, isUpper c = false

/-- A name is in lower case if a scan of it says so. -/
theorem lower_of_all {name : Str} (h : name.all (fun c => !isUpper c) = true) :
    ∀ c ∈ name, isUpper c = false := by
  intro c hc
  have hnot := List.all_eq_true.1 h c hc
  rwa [Bool.not_eq_true'] at hnot

/-- A request with its method and its headers. -/
structure HeadedRequest extends Request where
  method : Str
  headers : List Header

/-- `h2o_find_header_by_str`: the first header whose stored name has the bytes of
`name`. -/
def findHeaderByStr (headers : List Header) (name : Str) : Option Nat :=
  headers.findIdx? fun header => header.name = name

/-- `Request::GetHeader`. -/
def HeadedRequest.getHeader (req : HeadedRequest) (name : Str) : Str :=
  match findHeaderByStr req.headers name with
  | some i => (req.headers[i]?.map Header.value).getD []
  | none => []

/-- A name with an upper-case letter is not found. -/
theorem HeadedRequest.getHeader_of_upper (req : HeadedRequest) {name : Str} {c : UInt8}
    (hc : c ∈ name) (hupper : isUpper c = true) : req.getHeader name = [] := by
  have hnone : findHeaderByStr req.headers name = none := by
    rw [findHeaderByStr, List.findIdx?_eq_none_iff]
    intro header _
    rw [decide_eq_false_iff_not]
    rintro rfl
    rw [header.lower c hc] at hupper
    cases hupper
  rw [getHeader, hnone]

end Piconaut.Http
