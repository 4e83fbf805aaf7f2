import Piconaut.Routers.MatchRoute

/-!
# The resolution rule of the router

Which endpoint a request is resolved to, and with which parameters, in terms of
the registered patterns alone.

* `SelectedBy` is the rule: a position of an address carries the request's
  segment, or it carries the marker and no registered pattern continues with
  the segment there.  `matchRoute_at_iff` says that `MatchRoute` decides it.
* `matchRoute_resolution` is the rule for the endpoint of a registered pattern.
* `matchRoute_complete_iff` says which requests reach a pattern that matches
  them.  A pattern that matches can be `Shadowed`: the descent prefers a static
  segment of another pattern and does not come back.
* `bindings_nodeName` says under which names the parameters are recorded.  All
  patterns through a parameter node share its name, and the last call through it
  has written it.
-/

namespace Piconaut.Routers

open Piconaut.CppStd Piconaut.Utils

variable {Fn : Type}

/-! ## The rule -/

/-- The address `s` is the one that the registered patterns select for the
segments `xs`. -/
structure SelectedBy (calls : List (AddRouteCall Fn)) (s : Loc) (xs : List Str) : Prop where
  length_eq : s.length = xs.length
  position : ∀ (i : Nat) k x, s[i]? = some k → xs[i]? = some x →
    (k ≠ paramMarker ∧ k = x) ∨
      (k = paramMarker ∧ matchesParamRegex x = true ∧
        ¬ ∃ q ∈ calls, q.accepted = true ∧ s.take i ++ [x] <+: q.norm)

/-- The pattern matches the request segment by segment. -/
def MatchesRequest (c : AddRouteCall Fn) (r : StdString) : Prop :=
  GreedyWalk.Matches paramMarker matchesParamRegex c.norm (segments r.bytes)

/-- At a parameter of the pattern a registered pattern continues with the
request's own segment. -/
def Shadowed (calls : List (AddRouteCall Fn)) (c : AddRouteCall Fn) (r : StdString) : Prop :=
  ∃ (i : Nat) (x : Str), c.norm[i]? = some paramMarker ∧ (segments r.bytes)[i]? = some x ∧
    ∃ q ∈ calls, q.accepted = true ∧ c.norm.take i ++ [x] <+: q.norm

/-- The request is resolved to the endpoint of the call: `MatchRoute` ends at
its node, and the node has its key and its handler. -/
def ReturnsEndpointOf (router : Router Fn) (r : StdString) (params : Params)
    (c : AddRouteCall Fn) : Prop :=
  ∃ params' d, router.matchRoute r params = .ok (.at c.norm, params') ∧
    router.root.data? c.norm = some d ∧ d.key = c.key ∧ d.handler = c.handler

instance (calls : List (AddRouteCall Fn)) (s : Loc) (xs : List Str) :
    Decidable (SelectedBy calls s xs) :=
  decidable_of_iff
    (s.length = xs.length ∧ ∀ i < s.length,
      (s.getD i [] ≠ paramMarker ∧ s.getD i [] = xs.getD i []) ∨
        (s.getD i [] = paramMarker ∧ matchesParamRegex (xs.getD i []) = true ∧
          ¬ ∃ q ∈ calls, q.accepted = true ∧ s.take i ++ [xs.getD i []] <+: q.norm)) <| by
    constructor
    · rintro ⟨hlen, hpos⟩
      refine ⟨hlen, fun i k x hk hx => ?_⟩
      have h := hpos i (List.getElem?_eq_some_iff.1 hk).1
      rwa [List.getD_eq_getElem?_getD, List.getD_eq_getElem?_getD, hk, hx] at h
    · rintro ⟨hlen, hpos⟩
      refine ⟨hlen, fun i hi => ?_⟩
      have hi' : i < xs.length := by omega
      rw [List.getD_eq_getElem?_getD, List.getD_eq_getElem?_getD,
        List.getElem?_eq_getElem hi, List.getElem?_eq_getElem hi']
      exact hpos i _ _ (List.getElem?_eq_getElem hi) (List.getElem?_eq_getElem hi')

instance (c : AddRouteCall Fn) (r : StdString) : Decidable (MatchesRequest c r) :=
  inferInstanceAs (Decidable (List.Forall₂ _ _ _))

theorem RouterMatchResult.at_inj {s s' : Loc} (h : RouterMatchResult.at s = .at s') :
    s = s' := by
  have hkey := congrArg RouterMatchResult.key h
  exact Option.some.inj hkey

theorem present_iff (calls : List (AddRouteCall Fn)) (s : Loc) :
    present (runCalls calls).root s = true ↔
      s = [] ∨ ∃ c ∈ calls, c.accepted = true ∧ s <+: c.norm :=
  runCalls_nodes calls s

/-- A node below another one comes from a registered pattern. -/
theorem present_concat_iff (calls : List (AddRouteCall Fn)) (s : Loc) (k : Str) :
    present (runCalls calls).root (s ++ [k]) = true ↔
      ∃ q ∈ calls, q.accepted = true ∧ s ++ [k] <+: q.norm := by
  rw [present_iff]
  simp

/-- The walk over the trie follows the rule. -/
theorem selects_iff_selectedBy (calls : List (AddRouteCall Fn)) (s : Loc) (xs : List Str) :
    Selects (runCalls calls).root s xs ↔ SelectedBy calls s xs := by
  rw [Selects, GreedyWalk.selects_iff, GreedyWalk.matches_iff]
  constructor
  · rintro ⟨⟨hlen, hpos⟩, hun⟩
    refine ⟨hlen, fun i k x hk hx => ?_⟩
    rcases hpos i k x hk hx with h | ⟨rfl, hok⟩
    · exact Or.inl h
    · refine Or.inr ⟨rfl, hok, fun hq => ?_⟩
      exact hun i x hk hx ⟨ne_paramMarker_of_matchesParamRegex hok,
        (present_concat_iff calls _ x).2 hq⟩
  · rintro ⟨hlen, hpos⟩
    refine ⟨⟨hlen, fun i k x hk hx => ?_⟩, fun i x hk hx hno => ?_⟩
    · rcases hpos i k x hk hx with h | ⟨hk', hok, -⟩
      · exact Or.inl h
      · exact Or.inr ⟨hk', hok⟩
    · rcases hpos i _ x hk hx with h | ⟨-, -, hnot⟩
      · exact h.1 rfl
      · exact hnot ((present_concat_iff calls _ x).1 hno.2)

/-- The descent arrives where the rule leads. -/
theorem walkFrom_eq_some_iff (calls : List (AddRouteCall Fn)) (s : Loc) (xs : List Str) :
    walkFrom (runCalls calls).root [] xs = some s ↔
      present (runCalls calls).root s = true ∧ SelectedBy calls s xs := by
  rw [walkFrom, GreedyWalk.walk_eq_some_iff (present_prefixClosed _)]
  change _ ∧ Selects _ s _ ↔ _
  rw [selects_iff_selectedBy]
  refine and_congr_left fun _ => ⟨fun h => ?_, Or.inr⟩
  rcases h with rfl | h
  · exact (present_iff calls []).2 (Or.inl rfl)
  · exact h

/-- `MatchRoute` ends at a node exactly when the rule selects its address, and
then it has recorded the parameters along the address. -/
theorem matchRoute_at_iff (calls : List (AddRouteCall Fn)) (r : StdString)
    (params params' : Params) (s : Loc) :
    (runCalls calls).matchRoute r params = .ok (.at s, params') ↔
      (present (runCalls calls).root s = true ∧ SelectedBy calls s (segments r.bytes)) ∧
        params' = (bindings (nodeName (runCalls calls).root) [] s (segments r.bytes)).foldl
          (fun m e => m.insert e.1 e.2) params := by
  have hspec := matchParts_spec (runCalls_wellTyped calls) (PrefixTrie.sub?_nil _)
    (segments r.bytes) params
  rw [Router.matchRoute_eq, ← walkFrom_eq_some_iff]
  cases hw : walkFrom (runCalls calls).root [] (segments r.bytes) with
  | none =>
    rw [hw] at hspec
    refine ⟨fun h => ?_, fun h => by cases h.1⟩
    rw [Except.ok.injEq] at h
    rw [h] at hspec
    cases hspec
  | some s0 =>
    rw [hw] at hspec
    obtain ⟨ks, rfl, hmatch⟩ := hspec
    rw [hmatch, Except.ok.injEq, Prod.mk.injEq]
    constructor
    · rintro ⟨hat, rfl⟩
      rw [RouterMatchResult.at_inj hat]
      exact ⟨rfl, rfl⟩
    · rintro ⟨hs, rfl⟩
      rw [Option.some.inj hs]
      exact ⟨rfl, rfl⟩

/-- A result of `MatchRoute` is empty or points into a node. -/
theorem matchRoute_cases (calls : List (AddRouteCall Fn)) (r : StdString) (params : Params) :
    ∃ result params', (runCalls calls).matchRoute r params = .ok (result, params') ∧
      (result = .null ∨ ∃ s, result = .at s) := by
  have hspec := matchParts_spec (runCalls_wellTyped calls) (PrefixTrie.sub?_nil _)
    (segments r.bytes) params
  refine ⟨_, _, Router.matchRoute_eq _ r params, ?_⟩
  cases hw : walkFrom (runCalls calls).root [] (segments r.bytes) with
  | none =>
    rw [hw] at hspec
    exact Or.inl hspec
  | some s =>
    rw [hw] at hspec
    obtain ⟨ks, rfl, hmatch⟩ := hspec
    rw [hmatch]
    exact Or.inr ⟨_, rfl⟩

/-! ## The endpoint of a request -/

/-- The node of a registered pattern carries the last call for it. -/
theorem data?_of_lastAccepted {calls : List (AddRouteCall Fn)} {s : Loc}
    {last : AddRouteCall Fn} (h : lastAccepted calls (fun c => c.norm = s) = some last) :
    last.norm = s ∧ ∃ d, (runCalls calls).root.data? s = some d ∧
      d.key = last.key ∧ d.handler = last.handler := by
  obtain ⟨hmem, hacc, hnorm⟩ := lastAccepted_eq_some h
  have hs : last.norm = s := by simpa using hnorm
  have hpres : present (runCalls calls).root s = true :=
    (present_iff calls s).2 (Or.inr ⟨last, hmem, hacc, hs ▸ List.prefix_rfl⟩)
  obtain ⟨d, hd⟩ := Option.isSome_iff_exists.1 hpres
  have hend := (runCalls_trieRefines calls).endpoint s d hd
  rw [h] at hend
  exact ⟨hs, d, hd, hend⟩

/-- A request is resolved to the last call for an address exactly when the rule
selects the address. -/
theorem returnsEndpointOf_iff {calls : List (AddRouteCall Fn)} {s : Loc}
    {last : AddRouteCall Fn} (h : lastAccepted calls (fun c => c.norm = s) = some last)
    (r : StdString) (params : Params) :
    ReturnsEndpointOf (runCalls calls) r params last ↔
      SelectedBy calls s (segments r.bytes) := by
  obtain ⟨rfl, d, hd, hkey, hhandler⟩ := data?_of_lastAccepted h
  have hpres : present (runCalls calls).root last.norm = true := by
    rw [present, hd]
    rfl
  constructor
  · rintro ⟨params', -, hmatch, -⟩
    exact ((matchRoute_at_iff calls r params params' _).1 hmatch).1.2
  · intro hsel
    exact ⟨_, d, (matchRoute_at_iff calls r params _ _).2 ⟨⟨hpres, hsel⟩, rfl⟩, hd, hkey,
      hhandler⟩

/-- The rule is a match that nothing shadows. -/
theorem selectedBy_norm_iff (calls : List (AddRouteCall Fn)) (c : AddRouteCall Fn)
    (r : StdString) :
    SelectedBy calls c.norm (segments r.bytes) ↔
      MatchesRequest c r ∧ ¬ Shadowed calls c r := by
  rw [MatchesRequest, GreedyWalk.matches_iff]
  constructor
  · rintro ⟨hlen, hpos⟩
    refine ⟨⟨hlen, fun i k x hk hx => ?_⟩, ?_⟩
    · exact (hpos i k x hk hx).imp id fun h => ⟨h.1, h.2.1⟩
    · rintro ⟨i, x, hk, hx, hq⟩
      rcases hpos i _ x hk hx with h | ⟨-, -, hno⟩
      · exact h.1 rfl
      · exact hno hq
  · rintro ⟨⟨hlen, hpos⟩, hun⟩
    refine ⟨hlen, fun i k x hk hx => ?_⟩
    rcases hpos i k x hk hx with h | ⟨rfl, hok⟩
    · exact Or.inl h
    · exact Or.inr ⟨rfl, hok, fun hq => hun ⟨i, x, hk, hx, hq⟩⟩

/-- A registered pattern has a last call for its address. -/
theorem exists_last_of_mem {calls : List (AddRouteCall Fn)} {p : AddRouteCall Fn}
    (hp : p ∈ calls) (hacc : p.accepted = true) :
    ∃ last, lastAccepted calls (fun c => c.norm = p.norm) = some last :=
  lastAccepted_isSome hp hacc (by simp)

/-- The resolution rule.  A request is resolved to the endpoint of a registered
pattern, with the key and the handler of the last call for it, exactly when
every position of the normalized pattern is a static segment equal to the
request's, or a parameter whose segment no registered pattern continues with.
A selected pattern differs from any other matching one first at a position
where it is static and the other one has a parameter. -/
theorem matchRoute_resolution (calls : List (AddRouteCall Fn)) (p : AddRouteCall Fn)
    (hp : p ∈ calls) (hacc : p.accepted = true) (r : StdString) (params : Params) :
    ((∃ last, lastAccepted calls (fun c => c.norm = p.norm) = some last ∧
        ReturnsEndpointOf (runCalls calls) r params last) ↔
      SelectedBy calls p.norm (segments r.bytes)) ∧
    (SelectedBy calls p.norm (segments r.bytes) →
      ∀ q ∈ calls, q.accepted = true → MatchesRequest q r →
        p.norm = q.norm ∨ ∃ c k a b, p.norm = c ++ k :: a ∧
          q.norm = c ++ paramMarker :: b ∧ k ≠ paramMarker) := by
  obtain ⟨last, hlast⟩ := exists_last_of_mem hp hacc
  constructor
  · constructor
    · rintro ⟨last', hlast', hret⟩
      exact (returnsEndpointOf_iff hlast' r params).1 hret
    · intro hsel
      exact ⟨last, hlast, (returnsEndpointOf_iff hlast r params).2 hsel⟩
  · intro hsel q hq hqacc hmatch
    have hpres : present (runCalls calls).root q.norm = true :=
      (present_iff calls _).2 (Or.inr ⟨q, hq, hqacc, List.prefix_rfl⟩)
    have hselects := (selects_iff_selectedBy calls p.norm _).2 hsel
    exact hselects.leftmost (present_prefixClosed _) hmatch hpres

/-- The route table of `main.cc`, with the numbers 1 to 5 for its hash values. -/
def mainRoutes : List (AddRouteCall Unit) :=
  [⟨1, ⟨str "/post", by decide⟩, some ()⟩,
    ⟨2, ⟨str "/post/\x7bid\x7d", by decide⟩, some ()⟩,
    ⟨3, ⟨str "/post/\x7bid\x7d/\x7bslug\x7d", by decide⟩, some ()⟩,
    ⟨4, ⟨str "/\x7byear\x7d/\x7bmonth\x7d", by decide⟩, some ()⟩,
    ⟨5, ⟨str "/\x7byear\x7d/\x7bmonth\x7d/post/\x7bid\x7d/\x7bslug\x7d", by decide⟩,
      some ()⟩]

/-- `GET /post/7` reaches `/post/{id}`, not `/{year}/{month}`. -/
theorem mainRoutes_resolution :
    ∃ last, lastAccepted mainRoutes (fun c => c.norm = mainRoutes[1].norm) = some last ∧
      ReturnsEndpointOf (runCalls mainRoutes) ⟨str "/post/7", by decide⟩ PartialMap.empty
        last :=
  (matchRoute_resolution mainRoutes mainRoutes[1] (List.getElem_mem _) (by decide)
    ⟨str "/post/7", by decide⟩ PartialMap.empty).1.2 (by decide)

/-- A request reaches the endpoint of a registered pattern that matches it
exactly when some registered pattern matches it without being shadowed. -/
theorem matchRoute_complete_iff (calls : List (AddRouteCall Fn)) (r : StdString)
    (params : Params) :
    (∃ p ∈ calls, p.accepted = true ∧ MatchesRequest p r ∧
        ReturnsEndpointOf (runCalls calls) r params p) ↔
      ∃ p ∈ calls, p.accepted = true ∧ MatchesRequest p r ∧ ¬ Shadowed calls p r := by
  constructor
  · rintro ⟨p, hp, hacc, hmatch, params', d, hret, -⟩
    have hsel := ((matchRoute_at_iff calls r params params' _).1 hret).1.2
    exact ⟨p, hp, hacc, (selectedBy_norm_iff calls p r).1 hsel⟩
  · rintro ⟨p, hp, hacc, hmatch, hun⟩
    obtain ⟨last, hlast⟩ := exists_last_of_mem hp hacc
    obtain ⟨hmem, hlastacc, -⟩ := lastAccepted_eq_some hlast
    have hnorm : last.norm = p.norm := (data?_of_lastAccepted hlast).1
    have hsel := (selectedBy_norm_iff calls p r).2 ⟨hmatch, hun⟩
    refine ⟨last, hmem, hlastacc, ?_, (returnsEndpointOf_iff hlast r params).2 hsel⟩
    rw [MatchesRequest, hnorm]
    exact hmatch

/-- `GET /post/1/post/2/x` matches the last route of `main.cc`, but the descent
enters `/post/{id}/{slug}` and stops there. -/
theorem mainRoutes_not_complete :
    (∃ p ∈ mainRoutes, p.accepted = true ∧
        MatchesRequest p ⟨str "/post/1/post/2/x", by decide⟩) ∧
      ¬ ∃ p ∈ mainRoutes, p.accepted = true ∧
        ReturnsEndpointOf (runCalls mainRoutes) ⟨str "/post/1/post/2/x", by decide⟩
          PartialMap.empty p := by
  constructor
  · exact ⟨mainRoutes[4], List.getElem_mem _, by decide, by decide⟩
  · rintro ⟨p, -, -, params, d, hmatch, -⟩
    rw [Router.matchRoute_eq, Except.ok.injEq] at hmatch
    have hnull : (matchParts (segments (str "/post/1/post/2/x")) (runCalls mainRoutes).root []
        PartialMap.empty).1 = .null := by decide
    rw [hmatch] at hnull
    cases hnull

/-! ## The names of the parameters -/

/-- The name that a parameter node has after a sequence of calls: the one that
the last accepted call through it spells. -/
def nameAt (calls : List (AddRouteCall Fn)) (s : Loc) : Str :=
  match lastAccepted calls (fun c => s <+: c.norm) with
  | some c => innerText (c.segments.getD (s.length - 1) [])
  | none => []

/-- The trie has the names that the calls spell. -/
theorem nodeName_eq_nameAt (calls : List (AddRouteCall Fn)) (s : Loc) :
    nodeName (runCalls calls).root (s ++ [paramMarker]) = nameAt calls (s ++ [paramMarker]) := by
  rw [nodeName, nameAt]
  cases hdata : (runCalls calls).root.data? (s ++ [paramMarker]) with
  | some d =>
    obtain ⟨c, hc, hname⟩ := (runCalls_trieRefines calls).paramName s d hdata
    rw [fieldsAt_of_data? hdata, hc, hname]
    simp
  | none =>
    have hno : lastAccepted calls (fun c => s ++ [paramMarker] <+: c.norm) = none := by
      cases hlast : lastAccepted calls (fun c => s ++ [paramMarker] <+: c.norm) with
      | none => rfl
      | some c =>
        obtain ⟨hmem, hacc, hpre⟩ := lastAccepted_eq_some hlast
        have hsome := (runCalls_nodes calls (s ++ [paramMarker])).2
          (Or.inr ⟨c, hmem, hacc, by simpa using hpre⟩)
        rw [hdata] at hsome
        cases hsome
    rw [hno, fieldsAt, hdata]
    rfl

/-- The parameters along an address depend only on the names of its parameter
nodes. -/
theorem bindings_congr {name name' : Loc → Str}
    {s : Loc} (ks : Loc) (xs : List Str)
    (h : ∀ l, s ++ l ++ [paramMarker] <+: s ++ ks →
      name (s ++ l ++ [paramMarker]) = name' (s ++ l ++ [paramMarker])) :
    bindings name s ks xs = bindings name' s ks xs := by
  induction ks generalizing s xs with
  | nil => cases xs <;> rfl
  | cons k ks ih =>
    cases xs with
    | nil => rfl
    | cons x xs =>
      have hrest : bindings name (s ++ [k]) ks xs = bindings name' (s ++ [k]) ks xs := by
        refine ih xs fun l hl => ?_
        have happ : s ++ [k] ++ l ++ [paramMarker] = s ++ (k :: l) ++ [paramMarker] := by simp
        rw [happ] at hl ⊢
        exact h (k :: l) (by simpa using hl)
      rw [bindings, bindings, hrest]
      by_cases hk : k = paramMarker
      · subst hk
        have hhead := h [] (by simp)
        simp only [List.append_nil] at hhead
        rw [if_pos rfl, if_pos rfl, hhead]
      · rw [if_neg hk, if_neg hk]

/-- The descent records the parameters under the names that the calls spell. -/
theorem bindings_nodeName (calls : List (AddRouteCall Fn)) (ks : Loc) (xs : List Str) :
    bindings (nodeName (runCalls calls).root) [] ks xs = bindings (nameAt calls) [] ks xs :=
  bindings_congr ks xs fun l _ => nodeName_eq_nameAt calls ([] ++ l)

end Piconaut.Routers
