import Piconaut.Lib.Outline
import Piconaut.Lib.SeparatedList
import Piconaut.Routers.Resolution

/-!
# What `PrintRouterTree` shows

`RouterNode::PrintNode` prints one line for each child: two spaces for each level above it,
its key, and the name of its parameter if it has one.  The order of the children is that of
the map and may be any.

`readTree` reads such a text back.  For a router that was built by `AddRoute` it finds the
nodes again (`readTree_printRouterTree`), so what is printed determines what is matched:
two routers that print the same text, whatever the orders, resolve every request to the
same address and deliver the same parameters (`printRouterTree_determines`).
-/

namespace Piconaut.Routers

open Piconaut.CppStd Piconaut.Utils Outline

variable {Fn : Type}

/-- `'\n'`. -/
def newline : UInt8 := 0x0a

/-! ## `PrintRouterTree` -/

/-- What is printed behind the key of a child. -/
def paramNote (child : NodeFields Fn) : Str :=
  if child.type = .kParameter then str " (param: " ++ child.paramName ++ str ")" else []

mutual

/-- `RouterNode::PrintNode`.  `order` gives the keys of `children`, for each node in the
order of its map. -/
def printNode (order : Loc → List Str) : RouterNode Fn → Loc → Str → Str
  | .node _ children, loc, indent =>
    (order loc).flatMap fun key => printChild order (children key) loc key indent

/-- One iteration of its loop. -/
def printChild (order : Loc → List Str) : Option (RouterNode Fn) → Loc → Str → Str → Str
  | none, _, _, _ => []
  | some child, loc, key, indent =>
    indent ++ key ++ paramNote child.data ++ [newline] ++
      printNode order child (loc ++ [key]) (indent ++ str "  ")

end

/-- What is printed before the nodes. -/
def treeHeader : Str := str "Router Tree" ++ [newline, newline] ++ str "Route Root:"

/-- `Router::PrintRouterTree`. -/
def Router.printRouterTree (order : Loc → List Str) (router : Router Fn) : Str :=
  treeHeader ++ printNode order router.root [] []

/-! ## Lines -/

/-- The name that is noted beside a key. -/
def noteOf (d : NodeFields Fn) : Option Str :=
  if d.type = .kParameter then some d.paramName else none

/-- What a line has behind its key. -/
def noteText : Option Str → Str
  | some name => str " (param: " ++ name ++ str ")"
  | none => []

/-- A line without its newline. -/
def lineText (l : Line Str (Option Str)) : Str :=
  List.replicate (2 * l.depth) (ch ' ') ++ (l.key ++ noteText l.note)

/-- The line that a text spells. -/
def readLine (text : Str) : Line Str (Option Str) :=
  let indent := text.takeWhile (· = ch ' ')
  let rest := text.drop indent.length
  let key := rest.takeWhile (· ≠ ch ' ')
  let note := rest.drop key.length
  ⟨indent.length / 2, key, if note = [] then none else some (note.drop 9).dropLast⟩

/-- The nodes that a printed tree shows. -/
def readTree (text : Str) : List (Entry Str (Option Str)) :=
  Outline.read [] ((((text.drop treeHeader.length).splitOn newline).dropLast).map readLine)

/-- Keys and names are without blanks, and only a node with a key has a name. -/
structure Printable (l : Line Str (Option Str)) : Prop where
  key : ∀ c ∈ l.key, isRouteChar c = true
  note : ∀ name ∈ l.note, l.key ≠ [] ∧ ∀ c ∈ name, isRouteChar c = true

theorem ne_blank_of_isRouteChar {c : UInt8} (h : isRouteChar c = true) :
    c ≠ ch ' ' ∧ c ≠ newline := by
  have hspace := isspace_of_isRouteChar h
  constructor
  · rintro rfl
    exact absurd hspace (by decide)
  · rintro rfl
    exact absurd hspace (by decide)

theorem takeWhile_replicate_append {n : Nat} {rest : Str} (h : rest.head? ≠ some (ch ' ')) :
    (List.replicate n (ch ' ') ++ rest).takeWhile (· = ch ' ') = List.replicate n (ch ' ') := by
  induction n with
  | zero =>
    cases rest with
    | nil => rfl
    | cons c rest =>
      have hc : c ≠ ch ' ' := fun hc => h (by rw [hc]; rfl)
      simp [hc]
  | succ n ih => simpa [List.replicate_succ] using ih

theorem takeWhile_noteText (note : Option Str) :
    (noteText note).takeWhile (· ≠ ch ' ') = [] := by
  cases note with
  | none => rfl
  | some name => rfl

theorem Printable.readLine_lineText {l : Line Str (Option Str)} (h : Printable l) :
    readLine (lineText l) = l := by
  obtain ⟨depth, key, note⟩ := l
  have hkey : ∀ c ∈ key, decide (c ≠ ch ' ') = true :=
    fun c hc => decide_eq_true (ne_blank_of_isRouteChar (h.key c hc)).1
  have hhead : (key ++ noteText note).head? ≠ some (ch ' ') := by
    cases key with
    | nil =>
      cases note with
      | none => simp [noteText]
      | some name => exact absurd rfl (h.note name rfl).1
    | cons c key =>
      have hc : c ≠ ch ' ' := of_decide_eq_true (hkey c List.mem_cons_self)
      simpa using hc
  unfold readLine lineText
  dsimp only
  rw [takeWhile_replicate_append hhead, List.length_replicate,
    List.drop_left' (List.length_replicate ..), List.takeWhile_append_of_pos hkey,
    takeWhile_noteText, List.append_nil, List.drop_left, Nat.mul_div_cancel_left _ (by decide)]
  cases note with
  | none => rfl
  | some name =>
    have hnote : (str " (param: " ++ name ++ str ")").drop 9 = name ++ [ch ')'] := by
      rw [List.append_assoc]
      exact List.drop_left' rfl
    rw [noteText, if_neg (by simp [str]), hnote, List.dropLast_concat]

theorem Printable.newline_not_mem {l : Line Str (Option Str)} (h : Printable l) :
    newline ∉ lineText l := by
  obtain ⟨depth, key, note⟩ := l
  have hkey : newline ∉ key := fun hc => (ne_blank_of_isRouteChar (h.key _ hc)).2 rfl
  unfold lineText
  rw [List.mem_append, List.mem_append, not_or, not_or]
  refine ⟨?_, hkey, ?_⟩
  · rw [List.mem_replicate]
    exact fun hc => absurd hc.2 (by decide)
  · cases note with
    | none => exact List.not_mem_nil
    | some name =>
      have hname : newline ∉ name :=
        fun hc => (ne_blank_of_isRouteChar ((h.note _ rfl).2 _ hc)).2 rfl
      have htext : newline ∉ str " (param: " ∧ newline ∉ str ")" := by decide
      simp [noteText, htext, hname]

/-! ## The text of a tree -/

theorem lineText_noteOf (loc : Loc) (key : Str) (d : NodeFields Fn) :
    lineText (Entry.line ⟨loc, key, noteOf d⟩) =
      List.replicate (2 * loc.length) (ch ' ') ++ (key ++ paramNote d) := by
  unfold lineText noteText Entry.line noteOf paramNote
  by_cases htype : d.type = .kParameter
  · simp only [if_pos htype]
  · simp only [if_neg htype]

mutual

/-- A node prints the lines of its outline. -/
theorem printNode_eq (order : Loc → List Str) (t : RouterNode Fn) (loc : Loc) :
    printNode order t loc (List.replicate (2 * loc.length) (ch ' ')) =
      ((listing order noteOf t loc).map fun e => lineText e.line ++ [newline]).flatten := by
  match t with
  | .node d children =>
    rw [printNode, listing]
    induction order loc with
    | nil => rfl
    | cons key keys ih =>
      rw [List.flatMap_cons, List.flatMap_cons, List.map_append, List.flatten_append, ih,
        printChild_eq]

theorem printChild_eq (order : Loc → List Str) (o : Option (RouterNode Fn)) (loc : Loc)
    (key : Str) :
    printChild order o loc key (List.replicate (2 * loc.length) (ch ' ')) =
      ((childListing order noteOf o loc key).map
        fun e => lineText e.line ++ [newline]).flatten := by
  match o with
  | none =>
    rw [printChild, childListing]
    rfl
  | some child =>
    have hindent : List.replicate (2 * loc.length) (ch ' ') ++ str "  " =
        List.replicate (2 * (loc ++ [key]).length) (ch ' ') := by
      rw [List.length_append, List.length_singleton, Nat.mul_add, List.replicate_add]
      rfl
    rw [printChild, childListing, hindent, printNode_eq, List.map_cons, List.flatten_cons,
      lineText_noteOf]
    simp only [List.append_assoc]

end

/-- A tree of printable nodes is read back from its text. -/
theorem readTree_of_printable (order : Loc → List Str) (router : Router Fn)
    (h : ∀ e ∈ listing order noteOf router.root [], Printable e.line) :
    readTree (router.printRouterTree order) = listing order noteOf router.root [] := by
  have htext : (router.printRouterTree order).drop treeHeader.length =
      (((listing order noteOf router.root []).map fun e => lineText e.line).map
        (· ++ [newline])).flatten := by
    rw [Router.printRouterTree, List.drop_left, List.map_map]
    exact printNode_eq order router.root []
  rw [readTree, htext, SeparatedList.splitOn_terminated, List.dropLast_concat, List.map_map]
  · have hlines : (listing order noteOf router.root []).map
          (readLine ∘ fun e => lineText e.line) =
        (listing order noteOf router.root []).map Entry.line :=
      List.map_congr_left fun e he => (h e he).readLine_lineText
    rw [hlines]
    exact read_map_line (ordered_listing router.root (List.prefix_refl [])).1
  · intro text hmem
    obtain ⟨e, he, rfl⟩ := List.mem_map.1 hmem
    exact (h e he).newline_not_mem

/-! ## Routers that `AddRoute` has built -/

/-- The parts of a valid pattern are made of route characters. -/
theorem isRouteChar_of_mem_segments {c : AddRouteCall Fn} (hacc : c.accepted = true) {part : Str}
    (hpart : part ∈ c.segments) : ∀ x ∈ part, isRouteChar x = true := by
  obtain ⟨segs, hsegs, hchars⟩ := segments_of_isValidRoute hacc
  rw [AddRouteCall.segments, hsegs, List.mem_cons] at hpart
  rcases hpart with rfl | hpart
  · simp
  · exact (hchars part hpart).2

theorem isRouteChar_of_mem_normalizePart {part : Str} (h : ∀ x ∈ part, isRouteChar x = true) :
    ∀ x ∈ normalizePart part, isRouteChar x = true := by
  unfold normalizePart
  split
  · have hmarker : paramMarker.all isRouteChar = true := by decide
    exact List.all_eq_true.1 hmarker
  · exact h

theorem isRouteChar_of_mem_innerText {part : Str} (h : ∀ x ∈ part, isRouteChar x = true) :
    ∀ x ∈ innerText part, isRouteChar x = true :=
  fun x hx => h x (List.mem_of_mem_drop (List.mem_of_mem_take hx))

/-- The nodes of a router are printable. -/
theorem printable_runCalls (calls : List (AddRouteCall Fn)) (order : Loc → List Str) :
    ∀ e ∈ listing order noteOf (runCalls calls).root [], Printable e.line := by
  intro e he
  obtain ⟨s, -, hpath, hdata⟩ := data?_of_mem_listing _ he
  rw [List.nil_append] at hpath
  rw [← hpath] at hdata
  obtain ⟨d, hd, hnote⟩ := Option.map_eq_some_iff.1 hdata
  obtain ⟨c, hc⟩ := exists_lastAccepted_of_data? hd
  obtain ⟨-, hacc, hpre⟩ := lastAccepted_eq_some hc
  have hchars := fun part (hpart : part ∈ c.segments) => isRouteChar_of_mem_segments hacc hpart
  constructor
  · have hmem : e.key ∈ c.norm := (of_decide_eq_true hpre).subset (by simp)
    obtain ⟨part, hpart, hkey⟩ := List.mem_map.1 hmem
    show ∀ x ∈ e.key, isRouteChar x = true
    rw [← hkey]
    exact isRouteChar_of_mem_normalizePart (hchars part hpart)
  · intro name hname
    have hname' : noteOf d = some name := hnote.trans hname
    have hparam : d.type = .kParameter ∧ d.paramName = name := by
      unfold noteOf at hname'
      split at hname'
      · exact ⟨by assumption, Option.some.inj hname'⟩
      · cases hname'
    have hkey : e.key = paramMarker :=
      ((runCalls_trieRefines calls).type_iff e.above e.key d hd).1 hparam.1
    have hd' : (runCalls calls).root.data? (e.above ++ [paramMarker]) = some d := by
      rw [← hkey]
      exact hd
    obtain ⟨c', hc', hinner, -⟩ := exists_last_param hd'
    refine ⟨by show e.key ≠ []; rw [hkey]; decide, ?_⟩
    rw [← hparam.2, hinner]
    refine isRouteChar_of_mem_innerText fun x hx => ?_
    rw [List.getD_eq_getElem?_getD] at hx
    cases hget : c'.segments[e.above.length]? with
    | none => simp [hget] at hx
    | some part =>
      rw [hget, Option.getD_some] at hx
      exact isRouteChar_of_mem_segments (lastAccepted_eq_some hc').2.1
        (List.mem_of_getElem? hget) x hx

theorem readTree_printRouterTree (calls : List (AddRouteCall Fn)) (order : Loc → List Str) :
    readTree ((runCalls calls).printRouterTree order) =
      listing order noteOf (runCalls calls).root [] :=
  readTree_of_printable order _ (printable_runCalls calls order)

/-! ## What the nodes that are shown determine -/

theorem noteOf_eq_none_iff (d : NodeFields Fn) : noteOf d = none ↔ d.type = .kStatic := by
  unfold noteOf
  cases d.type <;> simp

theorem noteOf_eq_some_iff (d : NodeFields Fn) (name : Str) :
    noteOf d = some name ↔ d.type = .kParameter ∧ d.paramName = name := by
  unfold noteOf
  cases d.type <;> simp

/-- Every parameter node below the root has the regex. -/
def HasRegex (node : RouterNode Fn) : Prop :=
  ∀ k s d, node.data? (k :: s) = some d → d.type = .kParameter →
    d.paramRegex = matchesParamRegex

theorem hasRegex_runCalls (calls : List (AddRouteCall Fn)) : HasRegex (runCalls calls).root := by
  intro k s d hd htype
  obtain ⟨s', k', hs⟩ : ∃ s' k', k :: s = s' ++ [k'] :=
    ⟨(k :: s).dropLast, (k :: s).getLast (by simp), (List.dropLast_append_getLast _).symm⟩
  rw [hs] at hd
  have hmarker := ((runCalls_wellTyped calls).type_iff s' k' d hd).1 htype
  exact (runCalls_wellTyped calls).paramRegex s' d (hmarker ▸ hd)

theorem HasRegex.child {node child : RouterNode Fn} {k : Str} (h : HasRegex node)
    (hchild : node.children k = some child) : HasRegex child := by
  intro k' s d hd
  refine h k (k' :: s) d ?_
  rw [PrefixTrie.data?_cons, hchild]
  exact hd

section Same

variable {Fn' : Type}

/-- The same nodes lie below the two, with the same notes. -/
def SameBelow (node : RouterNode Fn) (node' : RouterNode Fn') : Prop :=
  ∀ k s, (node.data? (k :: s)).map noteOf = (node'.data? (k :: s)).map noteOf

variable {node : RouterNode Fn} {node' : RouterNode Fn'}

/-- Under each key either neither has a child, or both have one and these agree. -/
theorem SameBelow.children (h : SameBelow node node') (k : Str) :
    (node.children k = none ∧ node'.children k = none) ∨
      ∃ child child', node.children k = some child ∧ node'.children k = some child' ∧
        noteOf child.data = noteOf child'.data ∧ SameBelow child child' := by
  have hroot := h k []
  rw [PrefixTrie.data?_cons, PrefixTrie.data?_cons] at hroot
  cases hchild : node.children k with
  | none =>
    cases hchild' : node'.children k with
    | none => exact Or.inl ⟨rfl, rfl⟩
    | some child' => simp [hchild, hchild'] at hroot
  | some child =>
    cases hchild' : node'.children k with
    | none => simp [hchild, hchild'] at hroot
    | some child' =>
      refine Or.inr ⟨child, child', rfl, rfl, by simpa [hchild, hchild'] using hroot, ?_⟩
      intro k' s
      have hbelow := h k (k' :: s)
      rwa [PrefixTrie.data?_cons _ k, PrefixTrie.data?_cons _ k, hchild, hchild'] at hbelow

/-- The children that a lookup with a type yields agree. -/
theorem SameBelow.findChild (h : SameBelow node node') (k : Str) (type : NodeType) :
    (RouterNode.findChild node k type = none ∧ RouterNode.findChild node' k type = none) ∨
      ∃ child child', RouterNode.findChild node k type = some child ∧
        RouterNode.findChild node' k type = some child' ∧ node.children k = some child ∧
        node'.children k = some child' ∧ child.data.type = type ∧
        noteOf child.data = noteOf child'.data ∧ SameBelow child child' := by
  rcases h.children k with ⟨hnone, hnone'⟩ | ⟨child, child', hchild, hchild', hnote, hbelow⟩
  · exact Or.inl ⟨by rw [RouterNode.findChild, hnone]; rfl,
      by rw [RouterNode.findChild, hnone']; rfl⟩
  · have htype : child.data.type = type ↔ child'.data.type = type := by
      have hstatic : child.data.type = .kStatic ↔ child'.data.type = .kStatic := by
        rw [← noteOf_eq_none_iff, ← noteOf_eq_none_iff, hnote]
      revert hstatic
      cases child.data.type <;> cases child'.data.type <;> cases type <;> simp
    by_cases hc : child.data.type = type
    · exact Or.inr ⟨child, child', by simp [RouterNode.findChild, hchild, hc],
        by simp [RouterNode.findChild, hchild', htype.1 hc], hchild, hchild', hc, hnote, hbelow⟩
    · have hc' : ¬ child'.data.type = type := fun h' => hc (htype.2 h')
      exact Or.inl ⟨by simp [RouterNode.findChild, hchild, hc],
        by simp [RouterNode.findChild, hchild', hc']⟩

/-- The loop of `MatchRoute` does the same below nodes that agree. -/
theorem matchParts_congr (h : SameBelow node node') (hregex : HasRegex node)
    (hregex' : HasRegex node') (parts : List Str) (loc : Loc) (params : Params) :
    matchParts parts node loc params = matchParts parts node' loc params := by
  induction parts generalizing node node' loc params with
  | nil => rfl
  | cons part parts ih =>
    rw [matchParts, matchParts]
    rcases h.findChild part .kStatic with
      ⟨hnone, hnone'⟩ | ⟨child, child', hfind, hfind', hchild, hchild', -, -, hbelow⟩
    · rw [hnone, hnone']
      dsimp only
      rcases h.findChild paramMarker .kParameter with
        ⟨hno, hno'⟩ | ⟨child, child', hfind, hfind', hchild, hchild', htype, hnote, hbelow⟩
      · rw [hno, hno']
      · rw [hfind, hfind']
        have hdata : node.data? [paramMarker] = some child.data := by
          rw [PrefixTrie.data?_cons, hchild]
          rfl
        have hdata' : node'.data? [paramMarker] = some child'.data := by
          rw [PrefixTrie.data?_cons, hchild']
          rfl
        obtain ⟨htype', hname⟩ := (noteOf_eq_some_iff child'.data child.data.paramName).1
          (hnote.symm.trans ((noteOf_eq_some_iff _ _).2 ⟨htype, rfl⟩))
        dsimp only
        rw [hregex _ _ _ hdata htype, hregex' _ _ _ hdata' htype', hname]
        split
        · exact ih hbelow (hregex.child hchild) (hregex'.child hchild') _ _
        · rfl
    · rw [hfind, hfind']
      exact ih hbelow (hregex.child hchild) (hregex'.child hchild') _ _

/-- Two routers that print the same text, each in any order of the children, match every
request alike. -/
theorem printRouterTree_determines (calls : List (AddRouteCall Fn))
    (calls' : List (AddRouteCall Fn')) (order order' : Loc → List Str)
    (horder : Exhaustive order (runCalls calls).root [])
    (horder' : Exhaustive order' (runCalls calls').root [])
    (hprint : (runCalls calls).printRouterTree order = (runCalls calls').printRouterTree order')
    (r : StdString) (params : Params) :
    (runCalls calls).matchRoute r params = (runCalls calls').matchRoute r params := by
  have hlisting : listing order noteOf (runCalls calls).root [] =
      listing order' noteOf (runCalls calls').root [] := by
    rw [← readTree_printRouterTree, ← readTree_printRouterTree, hprint]
  have hsame : SameBelow (runCalls calls).root (runCalls calls').root := by
    intro k s
    refine Option.ext fun note => ?_
    have hmem : _ ↔ (k :: s ≠ [] ∧
        ((runCalls calls).root.data? (k :: s)).map noteOf = some note) :=
      mem_listing_iff_data? horder (k :: s) note
    rw [hlisting, mem_listing_iff_data? horder' (k :: s) note] at hmem
    simpa using hmem.symm
  rw [Router.matchRoute_eq, Router.matchRoute_eq, matchParts_congr hsame (hasRegex_runCalls calls)
    (hasRegex_runCalls calls')]

end Same

/-- An order that has the children of every node, by the calls that made them. -/
def callOrder (calls : List (AddRouteCall Fn)) (loc : Loc) : List Str :=
  (((calls.filter fun c => c.accepted).filter fun c => loc <+: c.norm).filterMap
    fun c => c.norm[loc.length]?).eraseDups

theorem exhaustive_callOrder (calls : List (AddRouteCall Fn)) :
    Exhaustive (callOrder calls) (runCalls calls).root [] := by
  intro s sub k hsub hk
  have hpresent : present (runCalls calls).root (s ++ [k]) = true := by
    rw [present, PrefixTrie.data?_isSome, PrefixTrie.sub?_concat, hsub]
    exact hk
  obtain ⟨c, hc, hacc, hpre⟩ := ((present_iff calls _).1 hpresent).resolve_left (by simp)
  have hget : c.norm[s.length]? = some k := by
    obtain ⟨rest, hrest⟩ := hpre
    rw [← hrest]
    simp
  rw [List.nil_append, callOrder, List.mem_eraseDups, List.mem_filterMap]
  refine ⟨c, ?_, hget⟩
  simp [hc, hacc, (List.prefix_append s [k]).trans hpre]

/-- A pattern that is inside another, and the order of the calls, leave no trace. -/
theorem printRouterTree_inside_other :
    (runCalls [⟨1, ⟨str "/post", by decide⟩, some ()⟩,
      ⟨2, ⟨str "/post/\x7bid\x7d", by decide⟩, none⟩]).matchRoute
        ⟨str "/post/7", by decide⟩ PartialMap.empty =
    (runCalls [⟨3, ⟨str "/post/\x7bid\x7d", by decide⟩, some true⟩]).matchRoute
        ⟨str "/post/7", by decide⟩ PartialMap.empty :=
  printRouterTree_determines _ _ _ _ (exhaustive_callOrder _) (exhaustive_callOrder _)
    (by decide +kernel) _ _

end Piconaut.Routers
