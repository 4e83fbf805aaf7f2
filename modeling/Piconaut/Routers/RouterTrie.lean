import Mathlib.Data.List.Induction
import Piconaut.Lib.LastMatch
import Piconaut.Routers.Router

/-!
# The route trie as a map from normalized patterns

What `AddRoute` does to the tree, and what a sequence of calls leaves there.

* `addRoute_data?` is the step lemma.  An accepted call writes the nodes at the
  non-empty prefixes of its normalized pattern and no other node; the last of
  them also receives the key and the handler.
* `runCalls_refines` is the run lemma, by induction on the sequence of calls.
  `TrieRefines` collects what it says: which addresses carry a node, and the
  last writer of each field.
-/

namespace Piconaut.Routers

open Piconaut.CppStd Piconaut.Utils

variable {Fn : Type}

/-! ## One iteration of the loop -/

theorem addRoutePart_snd (state : RouterNode Fn × Loc) (part : Str) :
    (addRoutePart state part).2 = state.2 ++ [normalizePart part] := rfl

/-- One iteration writes the child it moves to, and no other node. -/
theorem addRoutePart_data? (t : RouterNode Fn) (l : Loc) (part : Str)
    (hl : (t.data? l).isSome) (s : Loc) :
    (addRoutePart (t, l) part).1.data? s =
      if s = l ++ [normalizePart part] then
        some (passThrough part ((t.data? s).getD {}))
      else t.data? s := by
  simp only [addRoutePart, ← PrefixTrie.data?_isNone, PrefixTrie.data?_modify]
  cases hchild : t.data? (l ++ [normalizePart part]) with
  | none =>
    simp only [Option.isNone_none, if_true, PrefixTrie.data?_insertChild_leaf t l _ _ _ hl hchild]
    by_cases hs : s = l ++ [normalizePart part]
    · simp [hs, hchild]
    · simp [hs]
  | some d =>
    by_cases hs : s = l ++ [normalizePart part]
    · simp [hs, hchild]
    · simp [hs]

/-- The new node is there for the next iteration. -/
theorem addRoutePart_isSome (t : RouterNode Fn) (l : Loc) (part : Str)
    (hl : (t.data? l).isSome) :
    ((addRoutePart (t, l) part).1.data? (l ++ [normalizePart part])).isSome := by
  rw [addRoutePart_data? t l part hl, if_pos rfl]
  rfl

/-! ## The whole loop -/

theorem foldl_addRoutePart_snd (parts : List Str) (state : RouterNode Fn × Loc) :
    (parts.foldl addRoutePart state).2 = state.2 ++ parts.map normalizePart := by
  induction parts generalizing state with
  | nil => simp
  | cons part parts ih =>
    rw [List.foldl_cons, ih, addRoutePart_snd, List.append_assoc]
    rfl

/-- The loop leaves every node alone that is not below its start. -/
theorem foldl_addRoutePart_of_disjoint (parts : List Str) (t : RouterNode Fn) (l s : Loc)
    (hl : (t.data? l).isSome) (hs : ¬ l <+: s) :
    (parts.foldl addRoutePart (t, l)).1.data? s = t.data? s := by
  induction parts generalizing t l with
  | nil => rfl
  | cons part parts ih =>
    have hs' : ¬ l ++ [normalizePart part] <+: s :=
      fun h => hs ((List.prefix_append l _).trans h)
    have hne : s ≠ l ++ [normalizePart part] := fun h => hs' (h ▸ List.prefix_rfl)
    have hstep : addRoutePart (t, l) part =
        ((addRoutePart (t, l) part).1, l ++ [normalizePart part]) := rfl
    rw [List.foldl_cons, hstep, ih _ _ (addRoutePart_isSome t l part hl) hs',
      addRoutePart_data? t l part hl, if_neg hne]

/-- Below its start the loop writes the nodes along the normalized parts, each
one with the part that leads to it.  The induction is on the parts that are
left. -/
theorem foldl_addRoutePart_data? (parts : List Str) (t : RouterNode Fn) (l s : Loc)
    (hl : (t.data? l).isSome) :
    (parts.foldl addRoutePart (t, l)).1.data? (l ++ s) =
      if s ≠ [] ∧ s <+: parts.map normalizePart then
        some (passThrough (parts.getD (s.length - 1) []) ((t.data? (l ++ s)).getD {}))
      else t.data? (l ++ s) := by
  induction parts generalizing t l s with
  | nil =>
    have hno : ¬ (s ≠ [] ∧ s <+: [].map normalizePart) := by simp
    rw [if_neg hno]
    rfl
  | cons part parts ih =>
    have hstep : addRoutePart (t, l) part =
        ((addRoutePart (t, l) part).1, l ++ [normalizePart part]) := rfl
    have hl' := addRoutePart_isSome t l part hl
    rw [List.foldl_cons, hstep]
    cases s with
    | nil =>
      have hnot : ¬ l ++ [normalizePart part] <+: l := by
        intro h
        have hlen := h.length_le
        rw [List.length_append, List.length_singleton] at hlen
        omega
      rw [if_neg (by simp), List.append_nil, foldl_addRoutePart_of_disjoint _ _ _ _ hl' hnot,
        addRoutePart_data? t l part hl, if_neg (by simp)]
    | cons k s =>
      by_cases hk : k = normalizePart part
      · -- the address follows this iteration: the rest of it is the loop's rest
        subst hk
        have happ : l ++ normalizePart part :: s = (l ++ [normalizePart part]) ++ s := by simp
        rw [happ, ih _ _ _ hl', addRoutePart_data? t l part hl]
        cases s with
        | nil => simp
        | cons k' s => simp
      · have hnot : ¬ l ++ [normalizePart part] <+: l ++ k :: s := by
          rw [List.prefix_append_right_inj, List.cons_prefix_cons]
          exact fun h => hk h.1.symm
        rw [foldl_addRoutePart_of_disjoint _ _ _ _ hl' hnot, addRoutePart_data? t l part hl,
          if_neg (by simp [hk]), if_neg]
        rw [List.map_cons, List.cons_prefix_cons]
        exact fun h => hk h.2.1

/-! ## One call -/

/-- A rejected call throws and changes nothing. -/
theorem addRoute_of_not_accepted (router : Router Fn) (c : AddRouteCall Fn)
    (h : c.accepted = false) :
    router.addRoute c.key c.path c.handler =
      (.error (.invalidArgument (str "Invalid route pattern: " ++ c.path.bytes)), router) := by
  unfold AddRouteCall.accepted at h
  simp [Router.addRoute, h]

/-- An accepted call runs the loop over the parts of its pattern and then sets
the key and the handler of the node it arrived at. -/
theorem addRoute_of_accepted (router : Router Fn) (c : AddRouteCall Fn)
    (h : c.accepted = true) :
    router.addRoute c.key c.path c.handler =
      (.ok (), ⟨(c.segments.foldl addRoutePart (router.root, [])).1.modify c.norm
        fun d => { d with key := c.key, handler := c.handler }⟩) := by
  have hparts : (segments c.path.bytes).isEmpty = false := by
    rw [List.isEmpty_eq_false_iff]
    exact segments_ne_nil _
  have hnode : c.norm = (c.segments.foldl addRoutePart (router.root, [])).2 := by
    rw [foldl_addRoutePart_snd]
    rfl
  unfold AddRouteCall.accepted at h
  rw [hnode]
  simp only [Router.addRoute, h, splitStringCallback_removeSpacesRef h, hparts]
  rfl

/-- What an accepted call leaves at each address. -/
theorem addRoute_data? (router : Router Fn) (c : AddRouteCall Fn) (h : c.accepted = true)
    (s : Loc) :
    (router.afterCall c).root.data? s =
      if s ≠ [] ∧ s <+: c.norm then
        let d := passThrough (c.segments.getD (s.length - 1) [])
          ((router.root.data? s).getD {})
        some (if s = c.norm then { d with key := c.key, handler := c.handler } else d)
      else router.root.data? s := by
  have hloop := fun s => foldl_addRoutePart_data? c.segments router.root [] s (by simp)
  simp only [List.nil_append] at hloop
  have hself : c.norm ≠ [] ∧ c.norm <+: c.segments.map normalizePart :=
    ⟨norm_ne_nil _, List.prefix_rfl⟩
  rw [Router.afterCall, addRoute_of_accepted router c h]
  simp only [PrefixTrie.data?_modify]
  by_cases hs : s = c.norm
  · subst hs
    simp only [hloop, if_pos hself, if_true, Option.map_some]
    rw [if_pos ⟨hself.1, List.prefix_rfl⟩]
  · simp only [if_neg hs, hloop]
    rfl

/-! ## A sequence of calls -/

/-- The last accepted call of a sequence that satisfies `p`. -/
def lastAccepted (calls : List (AddRouteCall Fn)) (p : AddRouteCall Fn → Bool) :
    Option (AddRouteCall Fn) :=
  calls.findRev? fun c => c.accepted && p c

@[simp] theorem lastAccepted_nil (p : AddRouteCall Fn → Bool) :
    lastAccepted [] p = none := rfl

theorem lastAccepted_concat (calls : List (AddRouteCall Fn)) (c : AddRouteCall Fn)
    (p : AddRouteCall Fn → Bool) :
    lastAccepted (calls ++ [c]) p =
      if c.accepted && p c then some c else lastAccepted calls p :=
  LastMatch.findRev?_concat _ calls c

theorem lastAccepted_eq_some {calls : List (AddRouteCall Fn)} {p : AddRouteCall Fn → Bool}
    {c : AddRouteCall Fn} (h : lastAccepted calls p = some c) :
    c ∈ calls ∧ c.accepted = true ∧ p c = true := by
  obtain ⟨hmem, hp⟩ := LastMatch.findRev?_eq_some h
  rw [Bool.and_eq_true] at hp
  exact ⟨hmem, hp⟩

/-- An accepted call that satisfies `p` has a last one. -/
theorem lastAccepted_isSome {calls : List (AddRouteCall Fn)} {p : AddRouteCall Fn → Bool}
    {c : AddRouteCall Fn} (hc : c ∈ calls) (hacc : c.accepted = true) (hp : p c = true) :
    ∃ c', lastAccepted calls p = some c' :=
  LastMatch.exists_findRev? hc (by rw [hacc, hp]; rfl)

/-- The fields of the node at `s`, or those of a fresh node. -/
def fieldsAt (t : RouterNode Fn) (s : Loc) : NodeFields Fn := (t.data? s).getD {}

theorem fieldsAt_of_data? {t : RouterNode Fn} {s : Loc} {d : NodeFields Fn}
    (h : t.data? s = some d) : fieldsAt t s = d := by
  rw [fieldsAt, h, Option.getD_some]

@[simp] theorem passThrough_key (part : Str) (d : NodeFields Fn) :
    (passThrough part d).key = d.key := by
  unfold passThrough
  split <;> rfl

@[simp] theorem passThrough_handler (part : Str) (d : NodeFields Fn) :
    (passThrough part d).handler = d.handler := by
  unfold passThrough
  split <;> rfl

/-- The part that leads to an address of a pattern has the address's last key. -/
theorem normalizePart_of_prefix {c : AddRouteCall Fn} {s : Loc} {k : Str}
    (h : s ++ [k] <+: c.norm) : normalizePart (c.segments.getD s.length []) = k := by
  have hget : c.norm[s.length]? = some k := by
    obtain ⟨rest, hrest⟩ := h
    rw [← hrest]
    simp
  have hmap : c.norm[s.length]? = (c.segments[s.length]?).map normalizePart :=
    List.getElem?_map
  rw [hmap] at hget
  obtain ⟨part, hpart, rfl⟩ := Option.map_eq_some_iff.1 hget
  rw [List.getD_eq_getElem?_getD, hpart, Option.getD_some]

/-- One accepted call, read at the fields of a node. -/
theorem fieldsAt_afterCall (router : Router Fn) (c : AddRouteCall Fn)
    (h : c.accepted = true) (s : Loc) :
    fieldsAt (router.afterCall c).root s =
      if s ≠ [] ∧ s <+: c.norm then
        let d := passThrough (c.segments.getD (s.length - 1) []) (fieldsAt router.root s)
        if s = c.norm then { d with key := c.key, handler := c.handler } else d
      else fieldsAt router.root s := by
  rw [fieldsAt, addRoute_data? router c h]
  split <;> rfl

theorem runCalls_concat (calls : List (AddRouteCall Fn)) (c : AddRouteCall Fn) :
    runCalls (calls ++ [c]) = (runCalls calls).afterCall c := by
  rw [runCalls, List.foldl_append]
  rfl

theorem afterCall_of_not_accepted (router : Router Fn) {c : AddRouteCall Fn}
    (h : c.accepted = false) : router.afterCall c = router := by
  rw [Router.afterCall, addRoute_of_not_accepted router c h]

/-- The addresses that carry a node: the root and the prefixes of the accepted
normalized patterns. -/
theorem runCalls_nodes (calls : List (AddRouteCall Fn)) (s : Loc) :
    ((runCalls calls).root.data? s).isSome ↔
      s = [] ∨ ∃ c ∈ calls, c.accepted = true ∧ s <+: c.norm := by
  induction calls using List.reverseRecOn with
  | nil => cases s <;> simp [runCalls, Router.init]
  | append_singleton calls c ih =>
    rw [runCalls_concat]
    cases hacc : c.accepted with
    | false =>
      rw [afterCall_of_not_accepted _ hacc, ih]
      simp [hacc]
    | true =>
      rw [addRoute_data? _ c hacc]
      by_cases hs : s ≠ [] ∧ s <+: c.norm
      · rw [if_pos hs]
        simp only [Option.isSome_some, true_iff]
        exact Or.inr ⟨c, by simp, hacc, hs.2⟩
      · rw [if_neg hs, ih]
        constructor
        · rintro (h | ⟨c', hc', h⟩)
          · exact Or.inl h
          · exact Or.inr ⟨c', by simp [hc'], h⟩
        · rintro (h | ⟨c', hc', hacc', hp⟩)
          · exact Or.inl h
          · rcases List.mem_append.1 hc' with hc' | hc'
            · exact Or.inr ⟨c', hc', hacc', hp⟩
            · obtain rfl := List.mem_singleton.1 hc'
              by_cases hnil : s = []
              · exact Or.inl hnil
              · exact absurd ⟨hnil, hp⟩ hs

/-- Induction over the calls for the fields of one node and the last accepted call that
writes them: what holds of the fields of a new node and no call, and is kept by every
accepted call, holds after all calls. -/
theorem runCalls_lastWriter {s : Loc} {p : AddRouteCall Fn → Bool}
    {R : Option (AddRouteCall Fn) → NodeFields Fn → Prop} (hinit : R none {})
    (hstep : ∀ (router : Router Fn) (c : AddRouteCall Fn) (o : Option (AddRouteCall Fn)),
      c.accepted = true → R o (fieldsAt router.root s) →
        R (if p c then some c else o) (fieldsAt (router.afterCall c).root s))
    (calls : List (AddRouteCall Fn)) :
    R (lastAccepted calls p) (fieldsAt (runCalls calls).root s) := by
  induction calls using List.reverseRecOn with
  | nil =>
    have hfields : fieldsAt (runCalls ([] : List (AddRouteCall Fn))).root s = {} := by
      cases s <;> rfl
    rw [hfields]
    exact hinit
  | append_singleton calls c ih =>
    rw [runCalls_concat, lastAccepted_concat]
    cases hacc : c.accepted with
    | false =>
      rw [afterCall_of_not_accepted _ hacc]
      exact ih
    | true => exact hstep _ c _ hacc ih

/-- The last writer of a node's key and handler is the last accepted call whose
normalized pattern is the node's address. -/
theorem runCalls_endpoint (calls : List (AddRouteCall Fn)) (s : Loc) :
    match lastAccepted calls (fun c => c.norm = s) with
    | some c => (fieldsAt (runCalls calls).root s).key = c.key ∧
        (fieldsAt (runCalls calls).root s).handler = c.handler
    | none => (fieldsAt (runCalls calls).root s).handler = none := by
  refine runCalls_lastWriter (R := fun o d => match o with
    | some c => d.key = c.key ∧ d.handler = c.handler
    | none => d.handler = none) rfl (fun router c o hacc ih => ?_) calls
  rw [fieldsAt_afterCall _ c hacc]
  by_cases hs : c.norm = s
  · subst hs
    simp [norm_ne_nil, AddRouteCall.norm]
  · have hs' : s ≠ c.norm := fun h => hs h.symm
    simp only [hs, hs', decide_false, Bool.false_eq_true, if_false]
    by_cases hp : s ≠ [] ∧ s <+: c.norm
    · simp only [if_pos hp, passThrough_key, passThrough_handler]
      exact ih
    · simp only [if_neg hp]
      exact ih

/-- A node's type, and the last writer of its parameter fields: the last
accepted call that passed through it. -/
theorem runCalls_param (calls : List (AddRouteCall Fn)) (s : Loc) (k : Str) :
    match lastAccepted calls (fun c => s ++ [k] <+: c.norm) with
    | some c =>
      if k = paramMarker then
        (fieldsAt (runCalls calls).root (s ++ [k])).type = .kParameter ∧
          (fieldsAt (runCalls calls).root (s ++ [k])).paramName =
            innerText (c.segments.getD s.length []) ∧
          (fieldsAt (runCalls calls).root (s ++ [k])).paramRegex = matchesParamRegex
      else (fieldsAt (runCalls calls).root (s ++ [k])).type = .kStatic
    | none => (fieldsAt (runCalls calls).root (s ++ [k])).type = .kStatic := by
  refine runCalls_lastWriter (R := fun o d => match o with
    | some c =>
      if k = paramMarker then
        d.type = .kParameter ∧ d.paramName = innerText (c.segments.getD s.length []) ∧
          d.paramRegex = matchesParamRegex
      else d.type = .kStatic
    | none => d.type = .kStatic) rfl (fun router c o hacc ih => ?_) calls
  rw [fieldsAt_afterCall _ c hacc]
  by_cases hs : s ++ [k] <+: c.norm
  · have hpart := normalizePart_of_prefix hs
    have hlen : (s ++ [k]).length - 1 = s.length := by simp
    have hne : s ++ [k] ≠ [] := by simp
    simp only [hs, hne, hlen, decide_true, if_true, ne_eq, not_false_eq_true, and_true]
    generalize c.segments.getD s.length [] = part at hpart ⊢
    subst hpart
    by_cases hk : normalizePart part = paramMarker
    · simp only [passThrough, if_pos hk]
      split <;> simp
    · simp only [passThrough, if_neg hk]
      split <;> simp
  · simpa [hs] using ih

/-! ## The refinement -/

/-- The tree is the map from normalized patterns that a sequence of calls
describes. -/
structure TrieRefines (t : RouterNode Fn) (calls : List (AddRouteCall Fn)) : Prop where
  /-- The nodes are the root and the prefixes of the accepted patterns. -/
  nodes : ∀ s, (t.data? s).isSome ↔
    s = [] ∨ ∃ c ∈ calls, c.accepted = true ∧ s <+: c.norm
  /-- A node has the key and the handler of the last call for its address. -/
  endpoint : ∀ s d, t.data? s = some d →
    match lastAccepted calls (fun c => c.norm = s) with
    | some c => d.key = c.key ∧ d.handler = c.handler
    | none => d.handler = none
  /-- The root has no other child than the one under the empty key. -/
  rootChild : ∀ k, (t.data? [k]).isSome → k = []
  /-- No other node has a child under the empty key. -/
  innerChild : ∀ s k, s ≠ [] → (t.data? (s ++ [k])).isSome → k ≠ []
  /-- The parameter nodes are the ones under the marker. -/
  type_iff : ∀ s k d, t.data? (s ++ [k]) = some d →
    (d.type = .kParameter ↔ k = paramMarker)
  /-- A parameter node has the name that the last call through it spells. -/
  paramName : ∀ s d, t.data? (s ++ [paramMarker]) = some d →
    ∃ c, lastAccepted calls (fun c => s ++ [paramMarker] <+: c.norm) = some c ∧
      d.paramName = innerText (c.segments.getD s.length [])

/-- A node below the root lies on the way of a last accepted call. -/
theorem exists_lastAccepted_of_data? {calls : List (AddRouteCall Fn)} {s : Loc} {k : Str}
    {d : NodeFields Fn} (h : (runCalls calls).root.data? (s ++ [k]) = some d) :
    ∃ c, lastAccepted calls (fun c => s ++ [k] <+: c.norm) = some c := by
  have hsome : ((runCalls calls).root.data? (s ++ [k])).isSome := by rw [h]; rfl
  rcases (runCalls_nodes calls _).1 hsome with hnil | ⟨c, hc, hacc, hp⟩
  · simp at hnil
  · exact lastAccepted_isSome hc hacc (by simpa using hp)

/-- The last accepted call through a parameter node has written its fields. -/
theorem exists_last_param {calls : List (AddRouteCall Fn)} {s : Loc} {d : NodeFields Fn}
    (hd : (runCalls calls).root.data? (s ++ [paramMarker]) = some d) :
    ∃ c, lastAccepted calls (fun c => s ++ [paramMarker] <+: c.norm) = some c ∧
      d.paramName = innerText (c.segments.getD s.length []) ∧
      d.paramRegex = matchesParamRegex := by
  obtain ⟨c, hc⟩ := exists_lastAccepted_of_data? hd
  have h := runCalls_param calls s paramMarker
  simp only [hc, fieldsAt_of_data? hd, if_true] at h
  exact ⟨c, hc, h.2⟩

/-- A call throws exactly when it is not accepted. -/
theorem addRoute_ok_iff (router : Router Fn) (c : AddRouteCall Fn) :
    (router.addRoute c.key c.path c.handler).1 = .ok () ↔ c.accepted = true := by
  cases hacc : c.accepted with
  | false => simp [addRoute_of_not_accepted router c hacc]
  | true => simp [addRoute_of_accepted router c hacc]

/-- Every sequence of calls leaves the map it describes. -/
theorem runCalls_trieRefines (calls : List (AddRouteCall Fn)) :
    TrieRefines (runCalls calls).root calls := by
  refine ⟨runCalls_nodes calls, ?_, ?_, ?_, ?_, ?_⟩
  · intro s d hd
    have h := runCalls_endpoint calls s
    rw [fieldsAt_of_data? hd] at h
    exact h
  · intro k hk
    rcases (runCalls_nodes calls _).1 hk with h | ⟨c, -, hacc, hp⟩
    · simp at h
    · obtain ⟨ks, hks, -⟩ := norm_of_isValidRoute hacc
      rw [AddRouteCall.norm, hks, List.cons_prefix_cons] at hp
      exact hp.1
  · intro s k hs hk
    rcases (runCalls_nodes calls _).1 hk with h | ⟨c, -, hacc, hp⟩
    · simp at h
    · obtain ⟨ks, hks, hne⟩ := norm_of_isValidRoute hacc
      obtain ⟨k0, s, rfl⟩ := List.exists_cons_of_ne_nil hs
      rw [AddRouteCall.norm, hks, List.cons_append, List.cons_prefix_cons] at hp
      exact hne k (hp.2.subset (by simp))
  · intro s k d hd
    obtain ⟨c, hc⟩ := exists_lastAccepted_of_data? hd
    have h := runCalls_param calls s k
    simp only [hc, fieldsAt_of_data? hd] at h
    split at h
    · rename_i hk
      exact ⟨fun _ => hk, fun _ => h.1⟩
    · rename_i hk
      rw [h]
      exact ⟨fun he => absurd he (by decide), fun he => absurd he hk⟩
  · intro s d hd
    obtain ⟨c, hc, hname, -⟩ := exists_last_param hd
    exact ⟨c, hc, hname⟩

/-- Every sequence of calls leaves the map it describes, and a call that throws
leaves the tree as it was. -/
theorem runCalls_refines (calls : List (AddRouteCall Fn)) :
    TrieRefines (runCalls calls).root calls ∧
      ∀ (c : AddRouteCall Fn) (e : StdException),
        ((runCalls calls).addRoute c.key c.path c.handler).1 = .error e →
        ((runCalls calls).addRoute c.key c.path c.handler).2 = runCalls calls := by
  refine ⟨runCalls_trieRefines calls, fun c e he => ?_⟩
  have hacc : c.accepted = false := by
    cases hacc : c.accepted with
    | false => rfl
    | true =>
      rw [(addRoute_ok_iff _ c).2 hacc] at he
      cases he
  rw [addRoute_of_not_accepted _ c hacc]

end Piconaut.Routers
