import Piconaut.Routers.RouterTrie

/-!
# What `MatchRoute` finds

`MatchRoute` is the greedy descent of `GreedyWalk` over the nodes of the trie,
with the parameter marker as the wildcard (`matchParts_spec`).  On the way it
records the parameters: `bindings` lists them, a name for every marker of the
address and the request segment that faces it.
-/

namespace Piconaut.Routers

open Piconaut.CppStd Piconaut.Utils

variable {Fn : Type}

/-! ## The walk -/

/-- The node at `s` exists. -/
def present (t : RouterNode Fn) (s : Loc) : Bool := (t.data? s).isSome

theorem present_prefixClosed (t : RouterNode Fn) : GreedyWalk.PrefixClosed (present t) :=
  fun _ _ h => PrefixTrie.data?_isSome_of_append h

/-- The parameter nodes are the ones under the marker, and all of them carry
the parameter regex. -/
structure WellTyped (t : RouterNode Fn) : Prop where
  type_iff : ∀ s k d, t.data? (s ++ [k]) = some d →
    (d.type = .kParameter ↔ k = paramMarker)
  paramRegex : ∀ s d, t.data? (s ++ [paramMarker]) = some d →
    d.paramRegex = matchesParamRegex

theorem runCalls_wellTyped (calls : List (AddRouteCall Fn)) :
    WellTyped (runCalls calls).root := by
  refine ⟨(runCalls_trieRefines calls).type_iff, ?_⟩
  intro s d hd
  obtain ⟨c, -, -, hregex⟩ := exists_last_param hd
  exact hregex

/-- The keys that the walk takes at the segments of a request. -/
abbrev walkFrom (t : RouterNode Fn) : Loc → List Str → Option Loc :=
  GreedyWalk.walk (present t) paramMarker matchesParamRegex

/-- The address `s` is the one a walk takes at the segments `xs`. -/
abbrev Selects (t : RouterNode Fn) (s : Loc) (xs : List Str) : Prop :=
  GreedyWalk.Selects (present t) paramMarker matchesParamRegex s xs

/-- The parameters along an address: for every marker the name of its node and
the request segment that faces it. -/
def bindings (name : Loc → Str) : Loc → Loc → List Str → List (Str × Str)
  | s, k :: ks, x :: xs =>
    if k = paramMarker then (name (s ++ [k]), x) :: bindings name (s ++ [k]) ks xs
    else bindings name (s ++ [k]) ks xs
  | _, _, _ => []

/-- The name that the node at `s` has for its parameter. -/
def nodeName (t : RouterNode Fn) (s : Loc) : Str := (fieldsAt t s).paramName

section Walk

variable {t : RouterNode Fn} {node : RouterNode Fn} {loc : Loc}

/-- The static child under a key. -/
theorem findChild_static (hT : WellTyped t) (hnode : t.sub? loc = some node) (k : Str) :
    RouterNode.findChild node k .kStatic =
      if k = paramMarker then none else t.sub? (loc ++ [k]) := by
  rw [RouterNode.findChild, PrefixTrie.sub?_concat, hnode, Option.bind_some]
  cases hchild : node.children k with
  | none => simp
  | some child =>
    have hdata : t.data? (loc ++ [k]) = some child.data := by
      simp [PrefixTrie.data?, PrefixTrie.sub?_concat, hnode, hchild]
    have htype := hT.type_iff loc k _ hdata
    by_cases hk : k = paramMarker
    · rw [if_pos hk, Option.filter_some, htype.2 hk]
      rfl
    · have hstatic : child.data.type = .kStatic := by
        cases htyp : child.data.type with
        | kStatic => rfl
        | kParameter => exact absurd (htype.1 htyp) hk
      rw [if_neg hk, Option.filter_some, hstatic]
      rfl

/-- The parameter child. -/
theorem findChild_parameter (hT : WellTyped t) (hnode : t.sub? loc = some node) :
    RouterNode.findChild node paramMarker .kParameter = t.sub? (loc ++ [paramMarker]) := by
  rw [RouterNode.findChild, PrefixTrie.sub?_concat, hnode, Option.bind_some]
  cases hchild : node.children paramMarker with
  | none => rfl
  | some child =>
    have hdata : t.data? (loc ++ [paramMarker]) = some child.data := by
      simp [PrefixTrie.data?, PrefixTrie.sub?_concat, hnode, hchild]
    rw [Option.filter_some, (hT.type_iff loc _ _ hdata).2 rfl]
    rfl

/-- One iteration of `MatchRoute` that moves on takes the step of the walk. -/
theorem matchParts_cons_some (hT : WellTyped t) (hnode : t.sub? loc = some node)
    {part k : Str} (parts : List Str) (params : Params)
    (hk : GreedyWalk.next (present t) paramMarker matchesParamRegex loc part = some k) :
    ∃ child, t.sub? (loc ++ [k]) = some child ∧
      matchParts (part :: parts) node loc params =
        matchParts parts child (loc ++ [k])
          (if k = paramMarker then params.insert (nodeName t (loc ++ [k])) part
          else params) := by
  obtain ⟨hpres, hchosen⟩ := GreedyWalk.next_eq_some_iff.1 hk
  rw [present, PrefixTrie.data?_isSome, Option.isSome_iff_exists] at hpres
  obtain ⟨child, hchild⟩ := hpres
  refine ⟨child, hchild, ?_⟩
  rw [matchParts, findChild_static hT hnode, findChild_parameter hT hnode]
  rcases hchosen with ⟨hne, rfl⟩ | ⟨rfl, hok, hno⟩
  · simp [hne, hchild]
  · have hdata : t.data? (loc ++ [paramMarker]) = some child.data := by
      simp [PrefixTrie.data?, hchild]
    have hstatic : (if part = paramMarker then none else t.sub? (loc ++ [part])) = none := by
      by_cases hpart : part = paramMarker
      · rw [if_pos hpart]
      · rw [if_neg hpart, ← Option.not_isSome_iff_eq_none, ← PrefixTrie.data?_isSome]
        exact fun h => hno ⟨hpart, h⟩
    have hname : nodeName t (loc ++ [paramMarker]) = child.data.paramName := by
      rw [nodeName, fieldsAt_of_data? hdata]
    simp only [hstatic, hchild, hT.paramRegex _ _ hdata, hok, if_true, hname]

/-- One iteration of `MatchRoute` fails where the walk has no step. -/
theorem matchParts_cons_none (hT : WellTyped t) (hnode : t.sub? loc = some node)
    {part : Str} (parts : List Str) (params : Params)
    (hk : GreedyWalk.next (present t) paramMarker matchesParamRegex loc part = none) :
    matchParts (part :: parts) node loc params = (.null, params) := by
  rw [matchParts, findChild_static hT hnode, findChild_parameter hT hnode]
  obtain ⟨hno, hnoparam⟩ := GreedyWalk.next_eq_none_iff.1 hk
  simp only [present, PrefixTrie.data?_isSome] at hno hnoparam
  have hstatic : (if part = paramMarker then none else t.sub? (loc ++ [part])) = none := by
    by_cases hpart : part = paramMarker
    · rw [if_pos hpart]
    · rw [if_neg hpart, ← Option.not_isSome_iff_eq_none]
      exact fun h => hno ⟨hpart, h⟩
  rw [hstatic]
  cases hchild : t.sub? (loc ++ [paramMarker]) with
  | none => rfl
  | some child =>
    have hdata : t.data? (loc ++ [paramMarker]) = some child.data := by
      simp [PrefixTrie.data?, hchild]
    have hregex : matchesParamRegex part = false := by
      cases hm : matchesParamRegex part with
      | false => rfl
      | true => exact absurd ⟨by simp [hchild], hm⟩ hnoparam
    simp [hT.paramRegex _ _ hdata, hregex]

/-- Where the walk over the first segments arrives, `MatchRoute` goes on with the
others, and it has recorded the parameters up to there.  The induction is on the
first segments. -/
theorem matchParts_append (hT : WellTyped t) (hnode : t.sub? loc = some node)
    {xs : List Str} {ks : Loc} (hwalk : walkFrom t loc xs = some (loc ++ ks))
    (ys : List Str) (params : Params) :
    ∃ child, t.sub? (loc ++ ks) = some child ∧
      matchParts (xs ++ ys) node loc params =
        matchParts ys child (loc ++ ks) ((bindings (nodeName t) loc ks xs).foldl
          (fun m e => m.insert e.1 e.2) params) := by
  induction xs generalizing node loc ks params with
  | nil =>
    obtain rfl : ks = [] := by simpa [walkFrom, GreedyWalk.walk] using hwalk
    exact ⟨node, by rw [List.append_nil]; exact hnode, by rw [List.append_nil]; rfl⟩
  | cons x xs ih =>
    rw [walkFrom, GreedyWalk.walk] at hwalk
    cases hnext : GreedyWalk.next (present t) paramMarker matchesParamRegex loc x with
    | none =>
      rw [hnext] at hwalk
      cases hwalk
    | some k =>
      rw [hnext] at hwalk
      obtain ⟨ls, hls⟩ := GreedyWalk.walk_extends hwalk
      obtain rfl : ks = k :: ls := by simpa using hls
      obtain ⟨child, hchild, hstep⟩ := matchParts_cons_some hT hnode (xs ++ ys) params hnext
      have happ : loc ++ k :: ls = loc ++ [k] ++ ls := by simp
      rw [happ] at hwalk ⊢
      obtain ⟨last, hlast, hrest⟩ := ih hchild hwalk
        (if k = paramMarker then params.insert (nodeName t (loc ++ [k])) x else params)
      refine ⟨last, hlast, ?_⟩
      rw [List.cons_append, hstep, hrest, bindings]
      by_cases hk : k = paramMarker
      · simp only [if_pos hk, List.foldl_cons]
      · simp only [if_neg hk]

/-- `MatchRoute` ends where the walk ends, and has recorded the parameters of
that address. -/
theorem matchParts_spec (hT : WellTyped t) (hnode : t.sub? loc = some node)
    (xs : List Str) (params : Params) :
    match walkFrom t loc xs with
    | some s => ∃ ks, s = loc ++ ks ∧
        matchParts xs node loc params =
          (.at s, (bindings (nodeName t) loc ks xs).foldl
            (fun m e => m.insert e.1 e.2) params)
    | none => (matchParts xs node loc params).1 = .null := by
  cases hwalk : walkFrom t loc xs with
  | some s =>
    obtain ⟨ks, rfl⟩ := GreedyWalk.walk_extends hwalk
    obtain ⟨child, -, hmatch⟩ := matchParts_append hT hnode hwalk [] params
    rw [List.append_nil] at hmatch
    exact ⟨ks, rfl, hmatch⟩
  | none =>
    obtain ⟨ys, x, zs, s, rfl, hys, hstuck⟩ := GreedyWalk.walk_eq_none_iff.1 hwalk
    obtain ⟨ks, rfl⟩ := GreedyWalk.walk_extends hys
    obtain ⟨child, hchild, hmatch⟩ := matchParts_append hT hnode hys (x :: zs) params
    rw [hmatch, matchParts_cons_none hT hchild zs _ hstuck]

end Walk

end Piconaut.Routers
