import Piconaut.Lib.SeparatedList
import Piconaut.Routers.RouterTrie

/-!
# Brace expressions and parameters

`IsValidRoute` pairs the braces of a path as it scans the characters, across the
slashes.  `AddRoute` splits the path at its slashes and takes a part for a
parameter if its first and its last character are braces.  `expressions` is what
the first one reads, `elementsAlong` what the second one leaves in the trie.

The two readings agree on a path exactly if every part has no brace at all or is
one expression as a whole (`agreesOnParams_iff`).  A part like `a{b}` is
accepted and becomes a static node with braces in its key, `{a}x{b}` becomes one
parameter, and in `/{a/b}` the expression spans a slash.
-/

namespace Piconaut.Routers

open Piconaut.CppStd Piconaut.Utils

variable {Fn : Type}

/-! ## The two readings of a path -/

/-- The brace expressions that the scan of `IsValidRoute` pairs, from one position
on: the texts between a `{` and the next `}`.  The first argument is what has been
read since the `{`, if the scan is inside an expression. -/
def scanExpressions : Option Str → Str → List Str
  | _, [] => []
  | none, c :: cs =>
    if c = ch '{' then scanExpressions (some []) cs else scanExpressions none cs
  | some read, c :: cs =>
    if c = ch '}' then read :: scanExpressions none cs
    else scanExpressions (some (read ++ [c])) cs

/-- The brace expressions of a path, from left to right. -/
def expressions (path : Str) : List Str := scanExpressions none path

/-- What a node below the root stands for. -/
inductive PathElement where
  | static (text : Str)
  | parameter (name : Str)
  deriving DecidableEq

namespace PathElement

/-- The name, if the element is a parameter. -/
def name? : PathElement → Option Str
  | static _ => none
  | parameter name => some name

/-- The text that the element was made of. -/
def text : PathElement → Str
  | static text => text
  | parameter name => name

end PathElement

/-- The nodes of the trie along an address, from below `s` on: a parameter node with
its name, a static node with its key. -/
def elementsAlong (t : RouterNode Fn) : Loc → Loc → List PathElement
  | _, [] => []
  | s, k :: ks =>
    match t.data? (s ++ [k]) with
    | none => elementsAlong t (s ++ [k]) ks
    | some d =>
      (if d.type = .kParameter then .parameter d.paramName else .static k) ::
        elementsAlong t (s ++ [k]) ks

/-- The text has no brace. -/
def BraceFree (s : Str) : Prop := ch '{' ∉ s ∧ ch '}' ∉ s

instance (s : Str) : Decidable (BraceFree s) := inferInstanceAs (Decidable (_ ∧ _))

/-- The trie has the parameters of the path that the validator has read. -/
structure AgreesOnParams (t : RouterNode Fn) (path : Str) : Prop where
  /-- The expressions are the parameter names, in order. -/
  params : (elementsAlong t [] (norm path)).filterMap PathElement.name? = expressions path
  /-- No brace is left in a parameter name or in a static segment. -/
  braceFree : ∀ e ∈ elementsAlong t [] (norm path), BraceFree e.text
  /-- No expression spans a slash. -/
  slashFree : ∀ e ∈ expressions path, ch '/' ∉ e

/-- The part has no brace, or is one brace expression. -/
def WholeSegment (part : Str) : Prop :=
  BraceFree part ∨ part = ch '{' :: innerText part ++ [ch '}'] ∧ BraceFree (innerText part)

instance (part : Str) : Decidable (WholeSegment part) := inferInstanceAs (Decidable (_ ∨ _))

/-! ## What `AddRoute` makes of a part -/

/-- The node that `AddRoute` makes for a part. -/
def elementOf (part : Str) : PathElement :=
  if normalizePart part = paramMarker then .parameter (innerText part) else .static part

@[simp] theorem innerText_braces (inner : Str) :
    innerText (ch '{' :: inner ++ [ch '}']) = inner := by
  simp [innerText]

theorem back_concat (s : Str) (c : UInt8) : back (s ++ [c]) = c := by
  rw [back, List.getLastD_concat]

/-- A part with the marker as key starts and ends with a brace. -/
theorem eq_of_normalizePart_eq {part : Str} (h : normalizePart part = paramMarker) :
    part = ch '{' :: innerText part ++ [ch '}'] := by
  have hbraces : front part = ch '{' ∧ back part = ch '}' := by
    unfold normalizePart at h
    split at h
    · assumption
    · rw [h]
      decide
  obtain ⟨hfront, hback⟩ := hbraces
  cases part with
  | nil => exact absurd hfront (by decide)
  | cons c cs =>
    obtain rfl : c = ch '{' := hfront
    rcases List.eq_nil_or_concat cs with rfl | ⟨inner, d, rfl⟩
    · exact absurd hback (by decide)
    · rw [List.concat_eq_append, ← List.cons_append, back_concat] at hback
      subst hback
      simp [innerText]

/-- A brace expression has the marker as key. -/
theorem elementOf_braces (inner : Str) :
    elementOf (ch '{' :: inner ++ [ch '}']) = .parameter inner := by
  have hkey : normalizePart (ch '{' :: inner ++ [ch '}']) = paramMarker := by
    exact if_pos ⟨rfl, back_concat _ _⟩
  rw [elementOf, if_pos hkey, innerText_braces]

theorem elementOf_of_braceFree {part : Str} (h : BraceFree part) :
    elementOf part = .static part := by
  refine if_neg fun hkey => h.1 ?_
  rw [eq_of_normalizePart_eq hkey]
  simp

/-- The type and the name of the node that a part leads to. -/
theorem afterCall_data?_along (router : Router Fn) {c : AddRouteCall Fn}
    (hacc : c.accepted = true) {before after : List Str} {part : Str}
    (hparts : c.segments = before ++ part :: after) :
    ∃ d, (router.afterCall c).root.data?
        (before.map normalizePart ++ [normalizePart part]) = some d ∧
      (if d.type = .kParameter then PathElement.parameter d.paramName
        else .static (normalizePart part)) = elementOf part := by
  have hnorm : c.norm = before.map normalizePart ++ [normalizePart part] ++
      after.map normalizePart := by
    show c.segments.map normalizePart = _
    rw [hparts]
    simp
  have hpart : c.segments.getD (before.map normalizePart).length [] = part := by
    rw [hparts]
    simp
  have hlen : (before.map normalizePart ++ [normalizePart part]).length - 1 =
      (before.map normalizePart).length := by simp
  have hpre : before.map normalizePart ++ [normalizePart part] ≠ [] ∧
      before.map normalizePart ++ [normalizePart part] <+: c.norm :=
    ⟨by simp, hnorm ▸ List.prefix_append _ _⟩
  rw [addRoute_data? router c hacc, if_pos hpre, hlen, hpart]
  refine ⟨_, rfl, ?_⟩
  by_cases hkey : normalizePart part = paramMarker
  · simp only [passThrough, elementOf, if_pos hkey]
    split <;> simp
  · have helement : elementOf part = .static (normalizePart part) := by
      rw [elementOf, if_neg hkey, normalizePart_of_ne_marker hkey]
    rw [helement]
    simp only [passThrough, if_neg hkey]
    split <;> simp

/-- An accepted call leaves one node for each part.  The induction is on the parts
that are left. -/
theorem elementsAlong_afterCall (router : Router Fn) {c : AddRouteCall Fn}
    (hacc : c.accepted = true) (before after : List Str)
    (hparts : c.segments = before ++ after) :
    elementsAlong (router.afterCall c).root (before.map normalizePart)
      (after.map normalizePart) = after.map elementOf := by
  induction after generalizing before with
  | nil => rfl
  | cons part after ih =>
    obtain ⟨d, hd, helement⟩ := afterCall_data?_along router hacc hparts
    have hrest := ih (before ++ [part]) (by rw [hparts]; simp)
    rw [List.map_append, List.map_singleton] at hrest
    rw [List.map_cons, List.map_cons, elementsAlong, hd]
    show _ :: _ = _
    rw [helement, hrest]

theorem elementsAlong_norm (router : Router Fn) {c : AddRouteCall Fn}
    (hacc : c.accepted = true) :
    elementsAlong (router.afterCall c).root [] c.norm = c.segments.map elementOf :=
  elementsAlong_afterCall router hacc [] c.segments rfl

/-! ## What the validator reads -/

/-- A text without braces is skipped. -/
theorem scanExpressions_none_append {text : Str} (h : BraceFree text) (rest : Str) :
    scanExpressions none (text ++ rest) = scanExpressions none rest := by
  induction text with
  | nil => rfl
  | cons c text ih =>
    have hc : c ≠ ch '{' := fun heq => h.1 (by simp [heq])
    have htext : BraceFree text :=
      ⟨fun hmem => h.1 (by simp [hmem]), fun hmem => h.2 (by simp [hmem])⟩
    rw [List.cons_append, scanExpressions, if_neg hc, ih htext]

/-- Inside an expression a text without braces is read. -/
theorem scanExpressions_some_append {text : Str} (h : BraceFree text) (read rest : Str) :
    scanExpressions (some read) (text ++ rest) =
      scanExpressions (some (read ++ text)) rest := by
  induction text generalizing read with
  | nil => simp
  | cons c text ih =>
    have hc : c ≠ ch '}' := fun heq => h.2 (by simp [heq])
    have htext : BraceFree text :=
      ⟨fun hmem => h.1 (by simp [hmem]), fun hmem => h.2 (by simp [hmem])⟩
    rw [List.cons_append, scanExpressions, if_neg hc, ih htext, List.append_assoc]
    rfl

/-- A whole segment is read as `AddRoute` reads it. -/
theorem scanExpressions_segment {part : Str} (h : WholeSegment part) (rest : Str) :
    scanExpressions none (part ++ rest) =
      (elementOf part).name?.toList ++ scanExpressions none rest := by
  rcases h with hfree | ⟨hpart, hinner⟩
  · rw [elementOf_of_braceFree hfree, scanExpressions_none_append hfree]
    rfl
  · generalize innerText part = inner at hpart hinner
    subst hpart
    rw [elementOf_braces, List.append_assoc, List.cons_append, scanExpressions, if_pos rfl,
      scanExpressions_some_append hinner]
    rfl

/-- The expressions of a path whose parts are whole, by induction on the parts. -/
theorem scanExpressions_intercalate {parts : List Str} (h : ∀ part ∈ parts, WholeSegment part) :
    scanExpressions none ([ch '/'].intercalate parts) =
      (parts.map elementOf).filterMap PathElement.name? := by
  induction parts with
  | nil => rfl
  | cons part parts ih =>
    have hpart := h part List.mem_cons_self
    have hrest := ih fun part' hmem => h part' (List.mem_cons_of_mem _ hmem)
    have hcons : ∀ es : List PathElement, (elementOf part :: es).filterMap PathElement.name? =
        (elementOf part).name?.toList ++ es.filterMap PathElement.name? := by
      intro es
      rw [List.filterMap_cons]
      cases (elementOf part).name? <;> rfl
    rw [List.map_cons, hcons, ← hrest]
    cases parts with
    | nil =>
      have hone := scanExpressions_segment hpart []
      rw [List.append_nil] at hone
      rw [List.intercalate_singleton]
      exact hone
    | cons next parts =>
      rw [List.intercalate_cons_cons, List.append_assoc, scanExpressions_segment hpart,
        List.singleton_append, scanExpressions, if_neg (by decide)]

theorem expressions_eq {path : Str} (h : ∀ part ∈ segments path, WholeSegment part) :
    expressions path = ((segments path).map elementOf).filterMap PathElement.name? := by
  have hpath : [ch '/'].intercalate (segments path) = path := List.intercalate_splitOn _
  rw [← scanExpressions_intercalate h, hpath]
  rfl

/-! ## When the readings agree -/

/-- A node without braces was made of a whole segment, and the other way round. -/
theorem braceFree_elementOf_iff (part : Str) :
    BraceFree (elementOf part).text ↔ WholeSegment part := by
  constructor
  · intro h
    by_cases hkey : normalizePart part = paramMarker
    · rw [elementOf, if_pos hkey] at h
      exact Or.inr ⟨eq_of_normalizePart_eq hkey, h⟩
    · rw [elementOf, if_neg hkey] at h
      exact Or.inl h
  · rintro (hfree | ⟨hpart, hinner⟩)
    · rw [elementOf_of_braceFree hfree]
      exact hfree
    · rw [hpart, elementOf_braces]
      exact hinner

/-- After an accepted call the trie has the parameters that the validator has read
exactly if every part of the path is whole. -/
theorem agreesOnParams_iff (router : Router Fn) (c : AddRouteCall Fn)
    (hacc : c.accepted = true) :
    AgreesOnParams (router.afterCall c).root c.path.bytes ↔
      ∀ part ∈ c.segments, WholeSegment part := by
  have helements : elementsAlong (router.afterCall c).root [] (norm c.path.bytes) =
      c.segments.map elementOf := elementsAlong_norm router hacc
  constructor
  · intro hagree part hpart
    rw [← braceFree_elementOf_iff]
    exact hagree.braceFree _ (helements ▸ List.mem_map_of_mem hpart)
  · intro hwhole
    have hexpr := expressions_eq hwhole
    refine ⟨?_, ?_, ?_⟩
    · rw [helements, hexpr]
      rfl
    · rw [helements]
      intro e he
      obtain ⟨part, hpart, rfl⟩ := List.mem_map.1 he
      exact (braceFree_elementOf_iff part).2 (hwhole part hpart)
    · rw [hexpr]
      intro e he
      obtain ⟨element, helement, hname⟩ := List.mem_filterMap.1 he
      obtain ⟨part, hpart, rfl⟩ := List.mem_map.1 helement
      have hslash : ch '/' ∉ part := SeparatedList.not_mem_of_mem_splitOn hpart
      by_cases hkey : normalizePart part = paramMarker
      · rw [elementOf, if_pos hkey] at hname
        obtain rfl : innerText part = e := Option.some.inj hname
        rw [eq_of_normalizePart_eq hkey] at hslash
        exact fun hmem => hslash (by simp [hmem])
      · rw [elementOf, if_neg hkey] at hname
        cases hname

/-- The routes of `main.cc` are read the same way by both. -/
theorem post_route_agrees :
    AgreesOnParams (Router.init.afterCall (⟨1, ⟨str "/post/\x7bid\x7d", by decide⟩, some ()⟩ :
      AddRouteCall Unit)).root (str "/post/\x7bid\x7d") :=
  (agreesOnParams_iff Router.init _ (by decide)).2 (by decide)

/-- `/{a}-{b}` is accepted with two expressions, and becomes one parameter. -/
theorem separated_expressions_disagree :
    let c : AddRouteCall Unit := ⟨1, ⟨str "/\x7ba\x7d-\x7bb\x7d", by decide⟩, some ()⟩
    c.accepted = true ∧ ¬ AgreesOnParams (Router.init.afterCall c).root c.path.bytes := by
  intro c
  refine ⟨by decide, fun hagree => ?_⟩
  exact absurd hagree.params (by decide)

end Piconaut.Routers
