import Piconaut.Routers.RouteSyntax

/-!
# The string calls of `AddRoute`

`std::string::front` and `back` need a string that is not empty, and
`substr(1, size - 2)` cuts the braces of a segment only if it has two bytes.
This module lists the calls that `AddRoute` makes on its segments.

A segment behind a slash meets all of them (`pre_of_mem_partStringCalls`).  The
first segment is what stands before the first slash, and that is empty on every
accepted path: `front` is called on an empty string each time, and that is the
only call that goes wrong (`addRoute_violates_preconditions`).
-/

namespace Piconaut.Routers

open Piconaut.CppStd Piconaut.Utils

/-- A call on a string that has a precondition, with the string. -/
inductive StringCall where
  | front (s : Str)
  | back (s : Str)
  /-- `s.substr(1, s.size() - 2)`. -/
  | inner (s : Str)
  deriving DecidableEq

/-- The precondition of a call. -/
def StringCall.Pre : StringCall → Prop
  | .front s => s ≠ []
  | .back s => s ≠ []
  | .inner s => 2 ≤ s.length

instance : DecidablePred StringCall.Pre
  | .front s => inferInstanceAs (Decidable (s ≠ []))
  | .back s => inferInstanceAs (Decidable (s ≠ []))
  | .inner s => inferInstanceAs (Decidable (2 ≤ s.length))

/-- The calls that one iteration of the loop over the parts makes.  `&&` calls
`back` only behind a brace in front. -/
def partStringCalls (part : Str) : List StringCall :=
  [.front part] ++ (if front part = ch '{' then [.back part] else []) ++
    (if normalizePart part = paramMarker then [.inner part] else [])

/-- The calls that `AddRoute` makes, in order. -/
def addRouteStringCalls (path : StdString) : List StringCall :=
  if !isValidRoute path.bytes then []
  else
    let cleaned := splitStringCallback path (ch '/')
      (fun parts part => parts ++ [removeSpacesRef part]) []
    match cleaned with
    | .error _ => []
    | .ok parts =>
      let endpointParts := if parts.isEmpty then [[]] else parts
      endpointParts.flatMap partStringCalls

/-- Every call meets its precondition. -/
def RespectsPreconditions (path : StdString) : Prop :=
  ∀ call ∈ addRouteStringCalls path, call.Pre

/-- On an accepted path the parts are the segments of the path. -/
theorem addRouteStringCalls_eq {path : StdString} (h : isValidRoute path.bytes = true) :
    addRouteStringCalls path = (segments path.bytes).flatMap partStringCalls := by
  have hne : (segments path.bytes).isEmpty = false := by
    rw [List.isEmpty_eq_false_iff]
    exact segments_ne_nil _
  unfold addRouteStringCalls
  rw [splitStringCallback_removeSpacesRef h]
  simp [h, hne]

/-- A part in braces has an opening and a closing one. -/
theorem two_le_length_of_normalizePart {part : Str}
    (h : normalizePart part = paramMarker) : 2 ≤ part.length := by
  unfold normalizePart at h
  split at h
  · rename_i hbraces
    match part, hbraces with
    | [], hbraces => exact absurd hbraces.1 (by decide)
    | [c], hbraces =>
      -- the two braces are different bytes
      obtain rfl : c = ch '{' := hbraces.1
      exact absurd hbraces.2 (by decide)
    | _ :: _ :: _, _ => simp
  · rw [h]
    decide

/-- A part that is not empty meets the preconditions of its calls. -/
theorem pre_of_mem_partStringCalls {part : Str} (hne : part ≠ []) :
    ∀ call ∈ partStringCalls part, call.Pre := by
  intro call hcall
  rw [partStringCalls, List.mem_append, List.mem_append, List.mem_singleton] at hcall
  rcases hcall with (rfl | hback) | hinner
  · exact hne
  · split at hback
    · obtain rfl := List.mem_singleton.1 hback
      exact hne
    · cases hback
  · split at hinner
    · rename_i hmarker
      obtain rfl := List.mem_singleton.1 hinner
      exact two_le_length_of_normalizePart hmarker
    · cases hinner

/-- The calls on the empty part. -/
theorem partStringCalls_nil : partStringCalls [] = [.front []] := by decide

/-- On every accepted path `AddRoute` violates the precondition of one call: the
`front` of the empty segment before the first slash.  All other calls meet
theirs. -/
theorem addRoute_violates_preconditions (path : StdString)
    (h : isValidRoute path.bytes = true) :
    ¬ RespectsPreconditions path ∧
      ∃ calls, addRouteStringCalls path = .front [] :: calls ∧ ∀ call ∈ calls, call.Pre := by
  obtain ⟨segs, hsegs, hchars⟩ := segments_of_isValidRoute h
  have hcalls : addRouteStringCalls path = .front [] :: segs.flatMap partStringCalls := by
    rw [addRouteStringCalls_eq h, hsegs, List.flatMap_cons, partStringCalls_nil,
      List.singleton_append]
  refine ⟨?_, _, hcalls, ?_⟩
  · intro hall
    have hfront : (StringCall.front []).Pre := by
      apply hall
      rw [hcalls]
      exact List.mem_cons_self
    exact hfront rfl
  · intro call hcall
    obtain ⟨part, hpart, hmem⟩ := List.mem_flatMap.1 hcall
    exact pre_of_mem_partStringCalls (hchars part hpart).1 call hmem

/-- `/post/{id}` is accepted, and its first call is on an empty string. -/
theorem addRoute_post_violates_preconditions :
    ¬ RespectsPreconditions ⟨str "/post/\x7bid\x7d", by decide⟩ :=
  (addRoute_violates_preconditions ⟨str "/post/\x7bid\x7d", by decide⟩ (by decide)).1

/-- On `/post` the first call is `front` on the empty string before the slash. -/
theorem post_front_of_empty :
    isValidRoute (str "/post") = true ∧
      ∃ call ∈ addRouteStringCalls ⟨str "/post", by decide⟩, ¬ call.Pre :=
  ⟨by decide, .front [], by decide, by decide⟩

end Piconaut.Routers
