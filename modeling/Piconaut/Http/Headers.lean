import Piconaut.Http.Request
import Piconaut.Lib.LastMatch
import Piconaut.Lib.PartialMap

/-!
# The two header accessors

`Request::Headers` folds the received headers into a map, and an assignment
there overwrites: of the headers with one name the last one stays
(`headerMap_apply`).  `Request::GetHeader` searches from the front: it answers
with the first one (`getHeader_eq`).  The two agree on a name exactly if its
first and its last header have the same value (`accessorsAgree_iff`).
-/

namespace Piconaut.Http

open Piconaut.CppStd

namespace HeadedRequest

/-- `Request::Headers`. -/
def headerMap (req : HeadedRequest) : PartialMap Str Str :=
  req.headers.foldl (fun headers header => headers.insert header.name header.value)
    PartialMap.empty

/-- The two accessors agree on a name: where it occurs, the map holds the value
that `GetHeader` returns; where it does not, the map has no entry and `GetHeader`
returns the empty string. -/
structure AccessorsAgree (req : HeadedRequest) (name : Str) : Prop where
  occurs : (∃ header ∈ req.headers, header.name = name) →
    req.headerMap name = some (req.getHeader name)
  absent : (¬ ∃ header ∈ req.headers, header.name = name) →
    req.headerMap name = none ∧ req.getHeader name = []

/-- The map holds the value of the last header with the name. -/
theorem headerMap_apply (req : HeadedRequest) (name : Str) :
    req.headerMap name =
      (req.headers.findRev? fun header => header.name = name).map Header.value := by
  have hfold : req.headerMap = (req.headers.map fun header => (header.name, header.value)).foldl
      (fun m e => m.insert e.1 e.2) PartialMap.empty := by
    rw [headerMap, List.foldl_map]
  rw [hfold, PartialMap.foldl_insert_apply, PartialMap.empty_apply, Option.or_none,
    LastMatch.findRev?_map, Option.map_map]
  rfl

/-- `GetHeader` returns the value of the first header with the name. -/
theorem getHeader_eq (req : HeadedRequest) (name : Str) :
    req.getHeader name =
      ((req.headers.find? fun header => header.name = name).map Header.value).getD [] := by
  rw [List.find?_eq_bind_findIdx?_getElem?, getHeader, findHeaderByStr]
  cases req.headers.findIdx? fun header => header.name = name with
  | none => rfl
  | some i => rfl

/-- The accessors agree on a name exactly if the first and the last header with
it have the same value. -/
theorem accessorsAgree_iff (req : HeadedRequest) (name : Str) :
    req.AccessorsAgree name ↔
      ∀ first last, req.headers.find? (fun header => header.name = name) = some first →
        req.headers.findRev? (fun header => header.name = name) = some last →
        first.value = last.value := by
  constructor
  · intro hagree first last hfirst hlast
    have hmem : ∃ header ∈ req.headers, header.name = name :=
      ⟨first, List.mem_of_find?_eq_some hfirst, by simpa using List.find?_some hfirst⟩
    have hvalue := hagree.occurs hmem
    rw [headerMap_apply, getHeader_eq, hfirst, hlast] at hvalue
    exact (Option.some.inj hvalue).symm
  · intro hsame
    refine ⟨?_, ?_⟩
    · rintro ⟨header, hmem, hname⟩
      have hp : decide (header.name = name) = true := by simpa using hname
      obtain ⟨last, hlast⟩ := LastMatch.exists_findRev?
        (p := fun header : Header => header.name = name) hmem hp
      have hfound : (req.headers.find? fun header => header.name = name).isSome = true :=
        List.find?_isSome.2 ⟨header, hmem, hp⟩
      obtain ⟨first, hfirst⟩ := Option.isSome_iff_exists.1 hfound
      rw [headerMap_apply, getHeader_eq, hfirst, hlast, Option.map_some, Option.map_some,
        Option.getD_some, hsame first last hfirst hlast]
    · intro habsent
      have hnone : req.headers.find? (fun header => header.name = name) = none := by
        rw [List.find?_eq_none]
        intro header hmem hp
        exact habsent ⟨header, hmem, by simpa using hp⟩
      have hnoneRev : req.headers.findRev? (fun header => header.name = name) = none := by
        rw [List.findRev?_eq_find?_reverse, List.find?_eq_none]
        intro header hmem hp
        exact habsent ⟨header, List.mem_reverse.1 hmem, by simpa using hp⟩
      rw [headerMap_apply, getHeader_eq, hnone, hnoneRev]
      exact ⟨rfl, rfl⟩

/-- With two cookie headers the map holds the second one and `GetHeader` returns the
first. -/
theorem repeated_header_disagrees :
    ∃ req : HeadedRequest, (∃ header ∈ req.headers, header.name = str "cookie") ∧
      req.headerMap (str "cookie") = some (str "b=2") ∧
      req.getHeader (str "cookie") = str "a=1" := by
  refine ⟨{ pathNormalized := ⟨str "/", by decide⟩, method := str "GET",
            headers := [⟨str "cookie", str "a=1", lower_of_all (by decide)⟩,
              ⟨str "cookie", str "b=2", lower_of_all (by decide)⟩] }, ?_, ?_, ?_⟩
  · exact ⟨_, List.mem_cons_self, rfl⟩
  · decide
  · decide

end HeadedRequest

end Piconaut.Http
