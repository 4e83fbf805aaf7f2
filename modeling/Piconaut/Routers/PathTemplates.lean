import Piconaut.Lib.SeparatedList
import Piconaut.Routers.Resolution

/-!
# Paths made from patterns

A pattern is a template for request paths: `pathWith` writes a value into each of its
parameters.  `MatchRoute` is the inverse where nothing shadows the pattern
(`matchRoute_pathWith_iff`): the requests that are resolved to a pattern are its paths
with parameter values, and the values come back under the names of the parameter nodes.
-/

namespace Piconaut.Routers

open Piconaut.CppStd Piconaut.Utils

variable {Fn : Type}

/-! ## Keys and values -/

/-- The segments of a path: the values for the markers, and the other keys as they are. -/
def fillParams : Loc → List Str → List Str
  | [], _ => []
  | k :: ks, vs =>
    if k = paramMarker then vs.headD [] :: fillParams ks vs.tail else k :: fillParams ks vs

/-- The names of the parameters along an address, the first of them below `s`. -/
def paramNames (name : Loc → Str) : Loc → Loc → List Str
  | _, [] => []
  | s, k :: ks =>
    if k = paramMarker then name (s ++ [k]) :: paramNames name (s ++ [k]) ks
    else paramNames name (s ++ [k]) ks

/-- The values fit the pattern: there is one for each parameter, and all of them match the
parameter regex. -/
structure ValuesFor (ks : Loc) (vs : List Str) : Prop where
  length_eq : vs.length = ks.count paramMarker
  valid : ∀ v ∈ vs, matchesParamRegex v = true

/-- The path of a pattern with the values `vs`. -/
def AddRouteCall.pathWith (p : AddRouteCall Fn) (vs : List Str) : Str :=
  [ch '/'].intercalate (fillParams p.norm vs)

theorem valuesFor_cons_marker {ks : Loc} {vs : List Str} :
    ValuesFor (paramMarker :: ks) vs ↔
      ∃ v rest, vs = v :: rest ∧ matchesParamRegex v = true ∧ ValuesFor ks rest := by
  constructor
  · rintro ⟨hlen, hvalid⟩
    rw [List.count_cons_self] at hlen
    obtain ⟨v, rest, rfl⟩ := List.exists_cons_of_length_eq_add_one hlen
    refine ⟨v, rest, rfl, hvalid v List.mem_cons_self, ?_, fun w hw => ?_⟩
    · simpa using hlen
    · exact hvalid w (List.mem_cons_of_mem _ hw)
  · rintro ⟨v, rest, rfl, hv, hlen, hvalid⟩
    refine ⟨by rw [List.length_cons, hlen, List.count_cons_self], fun w hw => ?_⟩
    rcases List.mem_cons.1 hw with rfl | hw
    · exact hv
    · exact hvalid w hw

theorem valuesFor_cons_of_ne {k : Str} (hk : k ≠ paramMarker) {ks : Loc} {vs : List Str} :
    ValuesFor (k :: ks) vs ↔ ValuesFor ks vs := by
  have hcount : (k :: ks).count paramMarker = ks.count paramMarker :=
    List.count_cons_of_ne hk
  exact ⟨fun h => ⟨hcount ▸ h.length_eq, h.valid⟩, fun h => ⟨hcount ▸ h.length_eq, h.valid⟩⟩

/-- The segments that match a pattern are the pattern with values. -/
theorem matches_iff_fillParams (ks : Loc) (xs : List Str) :
    GreedyWalk.Matches paramMarker matchesParamRegex ks xs ↔
      ∃ vs, ValuesFor ks vs ∧ xs = fillParams ks vs := by
  induction ks generalizing xs with
  | nil =>
    rw [GreedyWalk.Matches, List.forall₂_nil_left_iff]
    constructor
    · rintro rfl
      exact ⟨[], ⟨rfl, by simp⟩, rfl⟩
    · rintro ⟨vs, -, rfl⟩
      rfl
  | cons k ks ih =>
    rw [GreedyWalk.Matches, List.forall₂_cons_left_iff]
    by_cases hk : k = paramMarker
    · subst hk
      constructor
      · rintro ⟨x, xs, hx, hrest, rfl⟩
        obtain ⟨vs, hvs, rfl⟩ := (ih xs).1 hrest
        have hvalid : matchesParamRegex x = true := hx.elim (fun h => absurd rfl h.1) And.right
        refine ⟨x :: vs, valuesFor_cons_marker.2 ⟨x, vs, rfl, hvalid, hvs⟩, ?_⟩
        rw [fillParams, if_pos rfl]
        rfl
      · rintro ⟨vs, hvs, rfl⟩
        obtain ⟨v, rest, rfl, hv, hrest⟩ := valuesFor_cons_marker.1 hvs
        refine ⟨v, fillParams ks rest, Or.inr ⟨rfl, hv⟩, (ih _).2 ⟨rest, hrest, rfl⟩, ?_⟩
        rw [fillParams, if_pos rfl]
        rfl
    · constructor
      · rintro ⟨x, xs, hx, hrest, rfl⟩
        obtain ⟨vs, hvs, rfl⟩ := (ih xs).1 hrest
        obtain rfl : k = x := hx.elim And.right fun h => absurd h.1 hk
        exact ⟨vs, (valuesFor_cons_of_ne hk).2 hvs, by rw [fillParams, if_neg hk]⟩
      · rintro ⟨vs, hvs, rfl⟩
        rw [fillParams, if_neg hk]
        exact ⟨k, _, Or.inl ⟨hk, rfl⟩, (ih _).2 ⟨vs, (valuesFor_cons_of_ne hk).1 hvs, rfl⟩, rfl⟩

/-- The parameters of a filled pattern are its names with the values. -/
theorem bindings_fillParams (name : Loc → Str) {ks : Loc} {vs : List Str} (s : Loc)
    (hvs : ValuesFor ks vs) :
    bindings name s ks (fillParams ks vs) = (paramNames name s ks).zip vs := by
  induction ks generalizing s vs with
  | nil => rfl
  | cons k ks ih =>
    by_cases hk : k = paramMarker
    · subst hk
      obtain ⟨v, rest, rfl, -, hrest⟩ := valuesFor_cons_marker.1 hvs
      simp only [fillParams, paramNames, bindings, if_true, List.zip_cons_cons, List.headD_cons,
        List.tail_cons, ih (s ++ [paramMarker]) hrest]
    · simp only [fillParams, paramNames, bindings, if_neg hk,
        ih (s ++ [k]) ((valuesFor_cons_of_ne hk).1 hvs)]

/-! ## Paths -/

/-- No key of a pattern has a slash. -/
theorem slash_not_mem_norm {path k : Str} (hk : k ∈ norm path) : ch '/' ∉ k := by
  obtain ⟨part, hpart, rfl⟩ := List.mem_map.1 hk
  unfold normalizePart
  split
  · decide
  · exact SeparatedList.not_mem_of_mem_splitOn hpart

theorem slash_not_mem_of_matchesParamRegex {v : Str} (hv : matchesParamRegex v = true) :
    ch '/' ∉ v := by
  rw [matchesParamRegex, Bool.and_eq_true, List.all_eq_true] at hv
  intro hmem
  exact absurd (hv.2 _ hmem) (by decide)

theorem slash_not_mem_fillParams {ks : Loc} (hks : ∀ k ∈ ks, ch '/' ∉ k) {vs : List Str}
    (hvs : ValuesFor ks vs) : ∀ x ∈ fillParams ks vs, ch '/' ∉ x := by
  induction ks generalizing vs with
  | nil => simp [fillParams]
  | cons k ks ih =>
    rw [List.forall_mem_cons] at hks
    by_cases hk : k = paramMarker
    · subst hk
      obtain ⟨v, rest, rfl, hv, hrest⟩ := valuesFor_cons_marker.1 hvs
      rw [fillParams, if_pos rfl, List.forall_mem_cons]
      exact ⟨slash_not_mem_of_matchesParamRegex hv, ih hks.2 hrest⟩
    · rw [fillParams, if_neg hk, List.forall_mem_cons]
      exact ⟨hks.1, ih hks.2 ((valuesFor_cons_of_ne hk).1 hvs)⟩

/-- The segments of the path of a pattern are the filled pattern, and no other path has
them. -/
theorem segments_eq_fillParams_iff (p : AddRouteCall Fn) {vs : List Str}
    (hvs : ValuesFor p.norm vs) (path : Str) :
    segments path = fillParams p.norm vs ↔ path = p.pathWith vs := by
  constructor
  · intro h
    rw [AddRouteCall.pathWith, ← h, segments, List.intercalate_splitOn]
  · rintro rfl
    refine List.splitOn_intercalate _ (slash_not_mem_fillParams (fun k hk => ?_) hvs) ?_
    · exact slash_not_mem_norm hk
    · obtain ⟨k, ks, hks⟩ := List.exists_cons_of_ne_nil (norm_ne_nil p.path.bytes)
      rw [AddRouteCall.norm, hks, fillParams]
      split <;> exact List.cons_ne_nil _ _

/-- The requests that are resolved to a registered pattern are its paths with parameter
values, as far as nothing shadows it, and the map is updated with these values under the
names of the parameter nodes. -/
theorem matchRoute_pathWith_iff (calls : List (AddRouteCall Fn)) (p : AddRouteCall Fn)
    (hp : p ∈ calls) (hacc : p.accepted = true) (r : StdString) (params params' : Params) :
    (runCalls calls).matchRoute r params = .ok (.at p.norm, params') ↔
      ¬ Shadowed calls p r ∧ ∃ vs, ValuesFor p.norm vs ∧ r.bytes = p.pathWith vs ∧
        params' = ((paramNames (nameAt calls) [] p.norm).zip vs).foldl
          (fun m e => m.insert e.1 e.2) params := by
  have hpres : present (runCalls calls).root p.norm = true :=
    (present_iff calls _).2 (Or.inr ⟨p, hp, hacc, List.prefix_rfl⟩)
  rw [matchRoute_at_iff, and_iff_right hpres, selectedBy_norm_iff, MatchesRequest,
    matches_iff_fillParams, bindings_nodeName]
  constructor
  · rintro ⟨⟨⟨vs, hvs, hsegs⟩, hun⟩, rfl⟩
    refine ⟨hun, vs, hvs, (segments_eq_fillParams_iff p hvs _).1 hsegs, ?_⟩
    rw [hsegs, bindings_fillParams _ _ hvs]
  · rintro ⟨hun, vs, hvs, hpath, rfl⟩
    have hsegs := (segments_eq_fillParams_iff p hvs _).2 hpath
    refine ⟨⟨⟨vs, hvs, hsegs⟩, hun⟩, ?_⟩
    rw [hsegs, bindings_fillParams _ _ hvs]

/-- `/post/{id}/{slug}` with `7` and `intro`. -/
theorem mainRoutes_pathWith :
    (runCalls mainRoutes).matchRoute ⟨str "/post/7/intro", by decide⟩ PartialMap.empty =
      .ok (.at mainRoutes[2].norm,
        (PartialMap.empty.insert (str "id") (str "7")).insert (str "slug") (str "intro")) := by
  have hsel : SelectedBy mainRoutes mainRoutes[2].norm (segments (str "/post/7/intro")) := by
    decide
  have hun := ((selectedBy_norm_iff mainRoutes mainRoutes[2]
    ⟨str "/post/7/intro", by decide⟩).1 hsel).2
  have hnames : paramNames (nameAt mainRoutes) [] mainRoutes[2].norm =
      [str "id", str "slug"] := by decide +kernel
  refine (matchRoute_pathWith_iff mainRoutes mainRoutes[2] (List.getElem_mem _) (by decide)
    _ PartialMap.empty _).2
    ⟨hun, [str "7", str "intro"], ⟨by decide, by decide⟩, by decide, ?_⟩
  rw [hnames]
  rfl

end Piconaut.Routers
