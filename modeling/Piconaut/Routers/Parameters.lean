import Piconaut.Routers.Resolution

/-!
# The parameter map of a match

What `MatchRoute` writes to the caller's map.

* `matchRoute_paramsOf`: where the patterns agree on the names of the parameters
  they share, a request that is resolved to a pattern updates the map with the
  pattern's own names and the segments that face them, and with nothing else.
* `matchRoute_null_iff`: an empty result does not leave the map alone.  It has
  the parameters of the nodes that the descent went through before it was stuck.
-/

namespace Piconaut.Routers

open Piconaut.CppStd Piconaut.Utils

variable {Fn : Type}

/-! ## A request that is resolved -/

/-- All accepted patterns that share a normalized prefix ending in a parameter
write the same name there. -/
def NamesAgree (calls : List (AddRouteCall Fn)) : Prop :=
  ∀ a ∈ calls, a.accepted = true → ∀ b ∈ calls, b.accepted = true →
    ∀ i < a.norm.length, a.norm.getD i [] = paramMarker →
      a.norm.take (i + 1) = b.norm.take (i + 1) →
      innerText (a.segments.getD i []) = innerText (b.segments.getD i [])

instance (calls : List (AddRouteCall Fn)) : Decidable (NamesAgree calls) := by
  unfold NamesAgree
  infer_instance

/-- The parameters of a request, read off the pattern: for every segment in
braces the text between them and the request segment that faces it. -/
def paramsOf (p : AddRouteCall Fn) (r : StdString) : List (Str × Str) :=
  ((p.segments.zip (segments r.bytes)).filter fun e => normalizePart e.1 = paramMarker).map
    fun e => (innerText e.1, e.2)

/-- The characters of a parameter value. -/
def IsParamChar (c : UInt8) : Prop :=
  (ch 'A' ≤ c ∧ c ≤ ch 'Z') ∨ (ch 'a' ≤ c ∧ c ≤ ch 'z') ∨ (ch '0' ≤ c ∧ c ≤ ch '9') ∨
    c = ch '_' ∨ c = ch '-'

theorem matchesParamRegex_iff {part : Str} :
    matchesParamRegex part = true ↔ part ≠ [] ∧ ∀ c ∈ part, IsParamChar c := by
  rw [matchesParamRegex, Bool.and_eq_true, Bool.not_eq_true', List.isEmpty_eq_false_iff,
    List.all_eq_true]
  refine and_congr_right fun _ => forall₂_congr fun c _ => ?_
  simp only [IsParamChar, Bool.or_eq_true, Bool.and_eq_true, decide_eq_true_eq, beq_iff_eq]
  tauto

/-- The name that the pattern itself writes for the node at an address. -/
def nameIn (p : AddRouteCall Fn) (s : Loc) : Str :=
  innerText (p.segments.getD (s.length - 1) [])

/-- Where the names agree, the node on the way to a pattern has the pattern's
name. -/
theorem nameAt_eq_nameIn {calls : List (AddRouteCall Fn)} (hnames : NamesAgree calls)
    {p : AddRouteCall Fn} (hp : p ∈ calls) (hacc : p.accepted = true) {s : Loc}
    (hs : s ++ [paramMarker] <+: p.norm) :
    nameAt calls (s ++ [paramMarker]) = nameIn p (s ++ [paramMarker]) := by
  obtain ⟨last, hlast⟩ := lastAccepted_isSome (p := fun c => s ++ [paramMarker] <+: c.norm)
    hp hacc (by simpa using hs)
  obtain ⟨hmem, hlastacc, hpre⟩ := lastAccepted_eq_some hlast
  have hpre' : s ++ [paramMarker] <+: last.norm := by simpa using hpre
  have hlen : s.length < last.norm.length := by
    have h := hpre'.length_le
    simp only [List.length_append, List.length_singleton] at h
    omega
  have htake : ∀ {l : Loc}, s ++ [paramMarker] <+: l →
      l.take (s.length + 1) = s ++ [paramMarker] := by
    intro l hl
    obtain ⟨rest, rfl⟩ := hl
    rw [List.take_append_of_le_length (by simp), List.take_of_length_le (by simp)]
  have hmarker : last.norm.getD s.length [] = paramMarker := by
    obtain ⟨rest, hrest⟩ := hpre'
    rw [← hrest]
    simp
  have hsame := hnames last hmem hlastacc p hp hacc s.length hlen hmarker
    ((htake hpre').trans (htake hs).symm)
  rw [nameAt, hlast, nameIn]
  simpa using hsame

/-- The name of a node is what the pattern writes there, and the rest of the pattern
is behind it. -/
theorem nameIn_concat {p : AddRouteCall Fn} {s : Loc} {seg : Str} {segs : List Str}
    (hsegs : p.segments.drop s.length = seg :: segs) (k : Str) :
    nameIn p (s ++ [k]) = innerText seg ∧ p.segments.drop (s ++ [k]).length = segs := by
  have hlt : s.length < p.segments.length := by
    have h := congrArg List.length hsegs
    simp only [List.length_drop, List.length_cons] at h
    omega
  rw [← List.getElem_cons_drop hlt, List.cons.injEq] at hsegs
  refine ⟨?_, by simpa using hsegs.2⟩
  rw [nameIn, ← hsegs.1, List.getD_eq_getElem?_getD]
  simp [hlt]

/-- With the pattern's own names the parameters along its address are the ones
read off the pattern.  The induction is on the segments that are left. -/
theorem bindings_nameIn (p : AddRouteCall Fn) (segs : List Str) (s : Loc) (xs : List Str)
    (hsegs : p.segments.drop s.length = segs) :
    bindings (nameIn p) s (segs.map normalizePart) xs =
      ((segs.zip xs).filter fun e => normalizePart e.1 = paramMarker).map
        fun e => (innerText e.1, e.2) := by
  induction segs generalizing s xs with
  | nil => rfl
  | cons seg segs ih =>
    cases xs with
    | nil => rfl
    | cons x xs =>
      obtain ⟨hname, hdrop⟩ := nameIn_concat hsegs (normalizePart seg)
      have hrest := ih (s ++ [normalizePart seg]) xs hdrop
      rw [List.map_cons, bindings, List.zip_cons_cons, hrest, hname]
      by_cases hmarker : normalizePart seg = paramMarker
      · simp [hmarker]
      · simp [hmarker]

/-- Every value that a selected pattern delivers matches the parameter regex. -/
theorem isParamChar_of_mem_paramsOf {calls : List (AddRouteCall Fn)} {p : AddRouteCall Fn}
    {r : StdString} (hsel : SelectedBy calls p.norm (segments r.bytes)) :
    ∀ e ∈ paramsOf p r, e.2 ≠ [] ∧ ∀ c ∈ e.2, IsParamChar c := by
  intro e he
  obtain ⟨⟨seg, x⟩, hmem, rfl⟩ := List.mem_map.1 he
  rw [List.mem_filter, decide_eq_true_iff] at hmem
  obtain ⟨i, hi⟩ := List.mem_iff_getElem?.1 hmem.1
  rw [List.getElem?_zip_eq_some] at hi
  have hk : p.norm[i]? = some (normalizePart seg) := by
    change ((segments p.path.bytes).map normalizePart)[i]? = _
    rw [List.getElem?_map]
    exact congrArg (Option.map normalizePart) hi.1
  rcases hsel.position i _ x hk hi.2 with h | ⟨-, hok, -⟩
  · exact absurd hmem.2 h.1
  · exact matchesParamRegex_iff.1 hok

/-- Parameters are extracted exactly.  Where all accepted patterns agree on the
names, a request that is resolved to a pattern leaves the map updated from left
to right with the parameters read off the pattern: one for each segment of the
pattern in braces, under the name that the pattern writes, with the segment of the
request as its value.  No other entry is touched. -/
theorem matchRoute_paramsOf (calls : List (AddRouteCall Fn)) (hnames : NamesAgree calls)
    (p : AddRouteCall Fn) (hp : p ∈ calls) (hacc : p.accepted = true) (r : StdString)
    (params params' : Params)
    (hmatch : (runCalls calls).matchRoute r params = .ok (.at p.norm, params')) :
    p.segments.length = (segments r.bytes).length ∧
      params' = (paramsOf p r).foldl (fun m e => m.insert e.1 e.2) params ∧
      (∀ e ∈ paramsOf p r, e.2 ≠ [] ∧ ∀ c ∈ e.2, IsParamChar c) ∧
      ∀ n, n ∉ (paramsOf p r).map Prod.fst → params' n = params n := by
  obtain ⟨⟨-, hsel⟩, hparams⟩ := (matchRoute_at_iff calls r params params' _).1 hmatch
  have hbindings : bindings (nodeName (runCalls calls).root) [] p.norm (segments r.bytes) =
      paramsOf p r := by
    have hnode : bindings (nodeName (runCalls calls).root) [] p.norm (segments r.bytes) =
        bindings (nameIn p) [] p.norm (segments r.bytes) := by
      refine bindings_congr _ _ fun l hl => ?_
      rw [List.nil_append] at hl ⊢
      rw [nodeName_eq_nameAt, nameAt_eq_nameIn hnames hp hacc hl]
    rw [hnode]
    exact bindings_nameIn p p.segments [] _ rfl
  rw [hbindings] at hparams
  refine ⟨?_, hparams, isParamChar_of_mem_paramsOf hsel, ?_⟩
  · have hlen := hsel.length_eq
    change ((segments p.path.bytes).map normalizePart).length = _ at hlen
    rwa [List.length_map] at hlen
  · intro n hn
    have hnone : (paramsOf p r).findRev? (fun e => e.1 = n) = none := by
      rw [List.findRev?_eq_find?_reverse, List.find?_eq_none]
      intro e he
      rw [decide_eq_true_iff]
      rintro rfl
      exact hn (List.mem_map_of_mem (List.mem_reverse.1 he))
    rw [hparams, PartialMap.foldl_insert_apply, hnone]
    rfl

/-- `GET /post/7` delivers `7` under the name that `/post/{id}` writes. -/
theorem mainRoutes_paramsOf :
    (matchParts (segments (str "/post/7")) (runCalls mainRoutes).root [] PartialMap.empty).2 =
      (paramsOf mainRoutes[1] ⟨str "/post/7", by decide⟩).foldl
        (fun m e => m.insert e.1 e.2) PartialMap.empty :=
  (matchRoute_paramsOf mainRoutes (by decide +kernel) mainRoutes[1] (List.getElem_mem _)
    (by decide) ⟨str "/post/7", by decide⟩ PartialMap.empty _
    (Router.matchRoute_of_fst _ (by decide))).2.1

example : paramsOf mainRoutes[1] ⟨str "/post/7", by decide⟩ = [(str "id", str "7")] := by
  decide

/-! ## A request that is not resolved -/

/-- The descent for the segments `xs` is stuck at the address `s`: it has
consumed as many segments as `s` has keys, and no node continues with the next
one. -/
structure StuckAt (calls : List (AddRouteCall Fn)) (s : Loc) (xs : List Str) : Prop where
  lt_length : s.length < xs.length
  registered : s = [] ∨ ∃ c ∈ calls, c.accepted = true ∧ s <+: c.norm
  selected : SelectedBy calls s (xs.take s.length)
  noStatic : ∀ q ∈ calls, q.accepted = true → s ++ [xs.getD s.length []] <+: q.norm →
    xs.getD s.length [] = paramMarker
  noParameter : matchesParamRegex (xs.getD s.length []) = true →
    ∀ q ∈ calls, q.accepted = true → ¬ s ++ [paramMarker] <+: q.norm

/-- The walk has no step exactly if no registered pattern continues. -/
theorem next_eq_none_iff (calls : List (AddRouteCall Fn)) (s : Loc) (x : Str) :
    GreedyWalk.next (present (runCalls calls).root) paramMarker matchesParamRegex s x = none ↔
      (∀ q ∈ calls, q.accepted = true → s ++ [x] <+: q.norm → x = paramMarker) ∧
        (matchesParamRegex x = true →
          ∀ q ∈ calls, q.accepted = true → ¬ s ++ [paramMarker] <+: q.norm) := by
  rw [GreedyWalk.next_eq_none_iff, present_concat_iff, present_concat_iff]
  constructor
  · rintro ⟨hstatic, hparam⟩
    refine ⟨fun q hq hacc hpre => ?_, fun hok q hq hacc hpre => ?_⟩
    · by_contra hne
      exact hstatic ⟨hne, q, hq, hacc, hpre⟩
    · exact hparam ⟨⟨q, hq, hacc, hpre⟩, hok⟩
  · rintro ⟨hstatic, hparam⟩
    refine ⟨?_, ?_⟩
    · rintro ⟨hne, q, hq, hacc, hpre⟩
      exact hne (hstatic q hq hacc hpre)
    · rintro ⟨⟨q, hq, hacc, hpre⟩, hok⟩
      exact hparam hok q hq hacc hpre

/-- A descent that is stuck has recorded the parameters up to there. -/
theorem matchRoute_of_stuckAt {calls : List (AddRouteCall Fn)} {s : Loc} {r : StdString}
    (h : StuckAt calls s (segments r.bytes)) (params : Params) :
    (runCalls calls).matchRoute r params =
      .ok (.null, (bindings (nameAt calls) [] s ((segments r.bytes).take s.length)).foldl
        (fun m e => m.insert e.1 e.2) params) := by
  set xs := segments r.bytes with hxs
  have hsplit : xs = xs.take s.length ++ xs.getD s.length [] :: xs.drop (s.length + 1) := by
    rw [List.getD_eq_getElem?_getD, List.getElem?_eq_getElem h.lt_length, Option.getD_some,
      List.getElem_cons_drop, List.take_append_drop]
  have hwalk := (walkFrom_eq_some_iff calls s _).2
    ⟨(present_iff calls s).2 h.registered, h.selected⟩
  have hstuck := (next_eq_none_iff calls s _).2 ⟨h.noStatic, h.noParameter⟩
  have hT := runCalls_wellTyped calls
  obtain ⟨child, hchild, hrun⟩ := matchParts_append hT (PrefixTrie.sub?_nil _) hwalk
    (xs.getD s.length [] :: xs.drop (s.length + 1)) params
  rw [Router.matchRoute_eq, ← hxs]
  conv_lhs => rw [hsplit]
  rw [hrun, matchParts_cons_none hT hchild _ _ hstuck, bindings_nodeName]

/-- A descent that fails is stuck somewhere. -/
theorem exists_stuckAt {calls : List (AddRouteCall Fn)} {xs : List Str}
    (h : walkFrom (runCalls calls).root [] xs = none) : ∃ s, StuckAt calls s xs := by
  obtain ⟨ys, x, zs, s, rfl, hwalk, hstuck⟩ := GreedyWalk.walk_eq_none_iff.1 h
  obtain ⟨hpresent, hselected⟩ := (walkFrom_eq_some_iff calls s ys).1 hwalk
  obtain ⟨hstatic, hparam⟩ := (next_eq_none_iff calls s x).1 hstuck
  have hlen := hselected.length_eq
  have hget : (ys ++ x :: zs).getD s.length [] = x := by
    rw [hlen]
    simp
  refine ⟨s, ?_, (present_iff calls s).1 hpresent, ?_, ?_, ?_⟩
  · simp [hlen]
  · rw [hlen, List.take_left]
    exact hselected
  · rw [hget]
    exact hstatic
  · rw [hget]
    exact hparam

/-- What an empty result leaves behind.  `MatchRoute` returns one exactly if its
descent is stuck at some address, and then the map is updated from left to right
with the parameters of the address: for every parameter node on the way its name
and the segment of the request that it took.  Nothing is taken back. -/
theorem matchRoute_null_iff (calls : List (AddRouteCall Fn)) (r : StdString)
    (params params' : Params) :
    (∃ result, (runCalls calls).matchRoute r params = .ok (result, params') ∧
        result.isEmpty = true) ↔
      ∃ s, StuckAt calls s (segments r.bytes) ∧
        params' = (bindings (nameAt calls) [] s ((segments r.bytes).take s.length)).foldl
          (fun m e => m.insert e.1 e.2) params := by
  constructor
  · rintro ⟨result, hmatch, hempty⟩
    have hspec := matchParts_spec (runCalls_wellTyped calls) (PrefixTrie.sub?_nil _)
      (segments r.bytes) params
    rw [Router.matchRoute_eq, Except.ok.injEq] at hmatch
    cases hwalk : walkFrom (runCalls calls).root [] (segments r.bytes) with
    | some s =>
      rw [hwalk] at hspec
      obtain ⟨ks, -, hat⟩ := hspec
      rw [hat, Prod.mk.injEq] at hmatch
      rw [← hmatch.1] at hempty
      cases hempty
    | none =>
      obtain ⟨s, hs⟩ := exists_stuckAt hwalk
      have hrun := matchRoute_of_stuckAt hs params
      rw [Router.matchRoute_eq, hmatch, Except.ok.injEq, Prod.mk.injEq] at hrun
      exact ⟨s, hs, hrun.2⟩
  · rintro ⟨s, hs, rfl⟩
    exact ⟨.null, matchRoute_of_stuckAt hs params, rfl⟩

/-- `/x/c` is no request for `/{a}/b`, and its first segment stays in the map. -/
theorem failed_match_leaves_param :
    ∃ (calls : List (AddRouteCall Unit)) (r : StdString) (params' : Params),
      (runCalls calls).matchRoute r PartialMap.empty = .ok (.null, params') ∧
        params' (str "a") = some (str "x") ∧ params' ≠ PartialMap.empty := by
  refine ⟨[⟨1, ⟨str "/{a}/b", by decide⟩, some ()⟩], ⟨str "/x/c", by decide⟩, _,
    Router.matchRoute_of_fst _ (by decide), by decide, ?_⟩
  intro h
  exact absurd (congrFun h (str "a")) (by decide)

end Piconaut.Routers
