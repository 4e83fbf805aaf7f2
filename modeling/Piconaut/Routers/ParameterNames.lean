import Piconaut.Lib.LastWins
import Piconaut.Routers.Parameters
import Piconaut.Routers.PathTemplates

/-!
# Parameter nodes that patterns share

All patterns through a parameter node share its name, and the last call through it has
written it.  So a call for one pattern can change what another pattern's handler finds in
its map.

`params_preserved_iff` says when a further call `q` leaves the parameters of a request for
`p` as they are, under the names that `p` itself writes.  It compares the names in `p`
(`ownNames`) with the ones that the registered patterns give to the nodes of `p` before
the call (`nameAt`) and after it (`renamedBy`).  A name that `p` repeats counts at its
last place only.
-/

namespace Piconaut.Routers

open Piconaut.CppStd LastWins

variable {Fn : Type}

/-! ## Three spellings of the parameters -/

/-- The names that the pattern itself writes for its parameters, from left to right. -/
def ownNames (p : AddRouteCall Fn) : List Str :=
  (p.segments.filter fun seg => normalizePart seg = paramMarker).map innerText

/-- The segments of the request that face the parameters of the pattern. -/
def paramValues (p : AddRouteCall Fn) (r : StdString) : List Str :=
  ((p.norm.zip (segments r.bytes)).filter fun e => e.1 = paramMarker).map Prod.snd

/-- The names after one more call: it respells every node it passes through. -/
def renamedBy (q : AddRouteCall Fn) (name : Loc → Str) (s : Loc) : Str :=
  if s <+: q.norm then innerText (q.segments.getD (s.length - 1) []) else name s

/-- With the names `name`, the parameter nodes of the pattern are spelled like the pattern.
They have the names that it writes and no others, and each of these is last at the
parameter at which the pattern writes it last, or at one that `same` relates to it. -/
def SpelledLike (same : Nat → Nat → Prop) (p : AddRouteCall Fn) (name : Loc → Str) : Prop :=
  LastsAgree same (ownNames p) (paramNames name [] p.norm)

/-- The parameters at these positions face the same segment of the request. -/
def SameValue (p : AddRouteCall Fn) (r : StdString) (i j : Nat) : Prop :=
  (paramValues p r)[i]? = (paramValues p r)[j]?

/-- The map of a request for `p` is the same before and after a call, and it has the names
that are written in `p`. -/
structure KeepsParams (p : AddRouteCall Fn) (r : StdString) (before after : Params) : Prop where
  same : before = after
  own : after = (paramsOf p r).foldl (fun m e => m.insert e.1 e.2) PartialMap.empty

theorem nameAt_concat (calls : List (AddRouteCall Fn)) {q : AddRouteCall Fn}
    (hq : q.accepted = true) : nameAt (calls ++ [q]) = renamedBy q (nameAt calls) := by
  funext s
  rw [nameAt, lastAccepted_concat, hq, Bool.true_and, renamedBy]
  by_cases hs : s <+: q.norm
  · simp [hs]
  · simp only [hs, decide_false, if_false]
    rfl

/-! ## Names and values -/

/-- The parameters along an address are their names with the segments that face them. -/
theorem bindings_eq_zip (name : Loc → Str) (s ks : Loc) (xs : List Str) :
    bindings name s ks xs = (paramNames name s ks).zip
      (((ks.zip xs).filter fun e => e.1 = paramMarker).map Prod.snd) := by
  induction ks generalizing s xs with
  | nil => rfl
  | cons k ks ih =>
    cases xs with
    | nil => exact List.zip_nil_right.symm
    | cons x xs =>
      rw [bindings, paramNames, List.zip_cons_cons, ih]
      by_cases hk : k = paramMarker
      · simp [hk]
      · simp [hk]

/-- A pattern has one name for each of its parameters. -/
theorem length_paramNames (name : Loc → Str) (s ks : Loc) :
    (paramNames name s ks).length = ks.count paramMarker := by
  induction ks generalizing s with
  | nil => rfl
  | cons k ks ih =>
    by_cases hk : k = paramMarker
    · rw [paramNames, if_pos hk, List.length_cons, ih, hk, List.count_cons_self]
    · rw [paramNames, if_neg hk, ih, List.count_cons_of_ne hk]

/-- The own names are the ones that the pattern writes for its nodes.  The induction is on
the segments that are left. -/
theorem paramNames_nameIn (p : AddRouteCall Fn) (segs : List Str) (s : Loc)
    (hsegs : p.segments.drop s.length = segs) :
    paramNames (nameIn p) s (segs.map normalizePart) =
      (segs.filter fun seg => normalizePart seg = paramMarker).map innerText := by
  induction segs generalizing s with
  | nil => rfl
  | cons seg segs ih =>
    obtain ⟨hname, hdrop⟩ := nameIn_concat hsegs (normalizePart seg)
    rw [List.map_cons, paramNames, hname, ih _ hdrop]
    by_cases hmarker : normalizePart seg = paramMarker
    · simp [hmarker]
    · simp [hmarker]

theorem ownNames_eq (p : AddRouteCall Fn) : ownNames p = paramNames (nameIn p) [] p.norm :=
  (paramNames_nameIn p p.segments [] rfl).symm

/-- The parameters that are read off a pattern are its own names with the values. -/
theorem paramsOf_eq_zip (p : AddRouteCall Fn) (r : StdString) :
    paramsOf p r = (ownNames p).zip (paramValues p r) := by
  rw [ownNames_eq, paramValues, ← bindings_eq_zip]
  exact (bindings_nameIn p p.segments [] _ rfl).symm

/-- A request with as many segments as the pattern has a value for each parameter. -/
theorem length_paramValues {p : AddRouteCall Fn} {r : StdString}
    (hlen : p.norm.length = (segments r.bytes).length) :
    (paramValues p r).length = p.norm.count paramMarker := by
  have hfst : (p.norm.zip (segments r.bytes)).map Prod.fst = p.norm :=
    List.map_fst_zip (Nat.le_of_eq hlen)
  rw [paramValues, List.length_map, ← List.countP_eq_length_filter]
  conv_rhs => rw [← hfst, List.count, List.countP_map]
  refine List.countP_congr fun e _ => ?_
  simp

/-- A request that is resolved to a pattern gets the values under the names of the nodes. -/
theorem matchRoute_params {calls : List (AddRouteCall Fn)} {p : AddRouteCall Fn}
    {r : StdString} {params : Params}
    (h : (runCalls calls).matchRoute r PartialMap.empty = .ok (.at p.norm, params)) :
    (paramValues p r).length = p.norm.count paramMarker ∧
      params = ((paramNames (nameAt calls) [] p.norm).zip (paramValues p r)).foldl
        (fun m e => m.insert e.1 e.2) PartialMap.empty := by
  obtain ⟨⟨-, hsel⟩, hparams⟩ := (matchRoute_at_iff calls r _ _ _).1 h
  refine ⟨length_paramValues hsel.length_eq, ?_⟩
  rw [hparams, bindings_nodeName, bindings_eq_zip, paramValues]

/-- The map has the names that are written in the pattern exactly if the nodes are spelled
like it. -/
theorem params_own_iff {calls : List (AddRouteCall Fn)} {p : AddRouteCall Fn}
    {r : StdString} {params : Params}
    (h : (runCalls calls).matchRoute r PartialMap.empty = .ok (.at p.norm, params)) :
    params = (paramsOf p r).foldl (fun m e => m.insert e.1 e.2) PartialMap.empty ↔
      SpelledLike (SameValue p r) p (nameAt calls) := by
  obtain ⟨hlen, hparams⟩ := matchRoute_params h
  have hown : (ownNames p).length = (paramValues p r).length := by
    rw [ownNames_eq, length_paramNames, hlen]
  have hnames : (paramNames (nameAt calls) [] p.norm).length = (paramValues p r).length := by
    rw [length_paramNames, hlen]
  rw [hparams, paramsOf_eq_zip, eq_comm]
  exact foldl_insert_zip_eq_iff hown hnames

/-- Where the values differ from each other, only the same parameter has the same value. -/
theorem spelledLike_sameValue_iff {p : AddRouteCall Fn} {r : StdString}
    (hlen : (paramValues p r).length = p.norm.count paramMarker)
    (hvalues : (paramValues p r).Nodup) (name : Loc → Str) :
    SpelledLike (SameValue p r) p name ↔ SpelledLike (· = ·) p name := by
  refine lastsAgree_values_iff hvalues ?_
  rw [ownNames_eq, length_paramNames, hlen]

/-! ## When a call keeps them -/

/-- A further accepted call `q` keeps the parameters of a request for `p`, under the names
written in `p`, exactly when before and after it the nodes of `p` are spelled like `p`:
under every name the last parameter faces the same segment as the one that `p` gives the
name last.  Where the values of the request differ from each other it is the same
parameter. -/
theorem params_preserved_iff (calls : List (AddRouteCall Fn)) (p q : AddRouteCall Fn)
    (hq : q.accepted = true) (r : StdString) (before after : Params)
    (hbefore : (runCalls calls).matchRoute r PartialMap.empty = .ok (.at p.norm, before))
    (hafter : (runCalls (calls ++ [q])).matchRoute r PartialMap.empty =
      .ok (.at p.norm, after)) :
    (KeepsParams p r before after ↔
      SpelledLike (SameValue p r) p (nameAt calls) ∧
        SpelledLike (SameValue p r) p (renamedBy q (nameAt calls))) ∧
    ((paramValues p r).Nodup →
      (KeepsParams p r before after ↔
        SpelledLike (· = ·) p (nameAt calls) ∧
          SpelledLike (· = ·) p (renamedBy q (nameAt calls)))) := by
  have hlen := (matchRoute_params hbefore).1
  have hkeeps : KeepsParams p r before after ↔
      SpelledLike (SameValue p r) p (nameAt calls) ∧
        SpelledLike (SameValue p r) p (renamedBy q (nameAt calls)) := by
    rw [← params_own_iff hbefore, ← nameAt_concat calls hq, ← params_own_iff hafter]
    constructor
    · rintro ⟨rfl, hown⟩
      exact ⟨hown, hown⟩
    · rintro ⟨hown, hown'⟩
      exact ⟨hown.trans hown'.symm, hown'⟩
  refine ⟨hkeeps, fun hvalues => ?_⟩
  rw [hkeeps, spelledLike_sameValue_iff hlen hvalues, spelledLike_sameValue_iff hlen hvalues]

/-- `/{a}/c` keeps the parameter of `/{a}`. -/
theorem params_kept :
    let p : AddRouteCall Unit := ⟨1, ⟨str "/\x7ba\x7d", by decide⟩, some ()⟩
    let q : AddRouteCall Unit := ⟨2, ⟨str "/\x7ba\x7d/c", by decide⟩, some ()⟩
    KeepsParams p ⟨str "/x", by decide⟩
      (matchParts (segments (str "/x")) (runCalls [p]).root [] PartialMap.empty).2
      (matchParts (segments (str "/x")) (runCalls [p, q]).root [] PartialMap.empty).2 := by
  intro p q
  have hbefore : paramNames (nameAt [p]) [] p.norm = ownNames p := by decide
  have hafter : paramNames (renamedBy q (nameAt [p])) [] p.norm = ownNames p := by decide
  have hsame : LastsAgree (· = ·) (ownNames p) (ownNames p) := LastsAgree.refl (fun _ => rfl) _
  have hiff := (params_preserved_iff [p] p q (by decide) ⟨str "/x", by decide⟩ _ _
    (Router.matchRoute_of_fst _ (by decide)) (Router.matchRoute_of_fst _ (by decide))).2
    (by decide)
  refine hiff.2 ⟨?_, ?_⟩
  · rw [SpelledLike, hbefore]
    exact hsame
  · rw [SpelledLike, hafter]
    exact hsame

/-- `/{b}/c` takes the parameter of `/{a}` away from its handler. -/
theorem params_renamed :
    ∃ (p q : AddRouteCall Unit) (r : StdString) (before after : Params),
      p.accepted = true ∧ q.accepted = true ∧ q.norm ≠ p.norm ∧
      (runCalls [p]).matchRoute r PartialMap.empty = .ok (.at p.norm, before) ∧
      (runCalls [p, q]).matchRoute r PartialMap.empty = .ok (.at p.norm, after) ∧
      before ≠ after := by
  refine ⟨⟨1, ⟨str "/\x7ba\x7d", by decide⟩, some ()⟩,
    ⟨2, ⟨str "/\x7bb\x7d/c", by decide⟩, some ()⟩, ⟨str "/x", by decide⟩, _, _,
    by decide, by decide, by decide, Router.matchRoute_of_fst _ (by decide),
    Router.matchRoute_of_fst _ (by decide), ?_⟩
  intro h
  exact absurd (congrFun h (str "a")) (by decide)

end Piconaut.Routers
