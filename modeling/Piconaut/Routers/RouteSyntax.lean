import Piconaut.Utils.StringUtils

/-!
# Route patterns

`Router::IsValidRoute`, the parameter marker, and the normalized form of a
pattern.

The expression of `IsValidRoute` matches the concatenations of pieces, a piece
being a slash and at least one route character (`matchesRouteRegex_iff`).  So a
valid pattern is empty or starts with `/`, and every part behind the first one is
a non-empty run of route characters (`segments_of_isValidRoute`).  No route
character is white space, so the space removal of `AddRoute` changes nothing on
a valid pattern (`map_removeSpacesRef_of_isValidRoute`).

`normalizePart` is the map key that `AddRoute` uses for a part, and `norm` is
the list of these keys for a whole pattern: the address of the pattern's node
in the trie.
-/

namespace Piconaut.Routers

open Piconaut.CppStd Piconaut.Utils

/-! ## `IsValidRoute` -/

/-- The bracket expression of `valid_route_regex`. -/
def isRouteChar (c : UInt8) : Bool :=
  (ch 'A' ≤ c && c ≤ ch 'Z') || (ch 'a' ≤ c && c ≤ ch 'z') ||
    (ch '0' ≤ c && c ≤ ch '9') || (str "-._~%!$&'()*+,;=:@\x7b\x7d").contains c

/-- The rest of a match of `valid_route_regex` behind a `/`.  The flag says
whether the current group has a character already. -/
def inGroup : Bool → Str → Bool
  | nonempty, [] => nonempty
  | nonempty, c :: cs =>
    if isRouteChar c then inGroup true cs else nonempty && c == ch '/' && inGroup false cs

/-- `std::regex_match(path, valid_route_regex)`: zero or more groups of a `/`
and at least one route character. -/
def matchesRouteRegex : Str → Bool
  | [] => true
  | c :: cs => c == ch '/' && inGroup false cs

/-- The brace scan of `IsValidRoute`, from one position on. -/
def scanBraces : Bool → Str → Bool
  | insideParam, [] => !insideParam
  | insideParam, c :: cs =>
    if c = ch '{' then
      if insideParam then false else scanBraces true cs
    else if c = ch '}' then
      if !insideParam then false
      else if cs.head? = some (ch '{') then false else scanBraces false cs
    else scanBraces insideParam cs

/-- `Router::IsValidRoute`. -/
def isValidRoute (path : Str) : Bool :=
  if !matchesRouteRegex path then false else scanBraces false path

/-! ## Parts and their map keys -/

/-- The common key for parameters. -/
def paramMarker : Str := [ch '{', ch '}']

/-- `param_regex`: a non-empty run of letters, digits, `_` and `-`. -/
def matchesParamRegex (part : Str) : Bool :=
  !part.isEmpty && part.all fun c =>
    (ch 'a' ≤ c && c ≤ ch 'z') || (ch 'A' ≤ c && c ≤ ch 'Z') ||
      (ch '0' ≤ c && c ≤ ch '9') || c == ch '_' || c == ch '-'

/-- `normalized_part`: the marker for a part in braces, the part itself
otherwise. -/
def normalizePart (part : Str) : Str :=
  if front part = ch '{' ∧ back part = ch '}' then paramMarker else part

/-- `part.substr(1, part.size() - 2)`: the text between the braces. -/
def innerText (part : Str) : Str := (part.drop 1).take (part.length - 2)

/-- The parts of a path between its slashes. -/
def segments (path : Str) : List Str := path.splitOn (ch '/')

/-- The normalized form of a pattern. -/
def norm (path : Str) : List Str := (segments path).map normalizePart

@[simp] theorem normalizePart_nil : normalizePart [] = [] := by decide

/-- A request segment that is the marker itself is no parameter value. -/
theorem ne_paramMarker_of_matchesParamRegex {part : Str}
    (h : matchesParamRegex part = true) : part ≠ paramMarker := by
  rintro rfl
  exact absurd h (by decide)

/-- A part is its own key, unless it is a parameter. -/
theorem normalizePart_of_ne_marker {part : Str} (h : normalizePart part ≠ paramMarker) :
    normalizePart part = part := by
  unfold normalizePart at h ⊢
  split
  · rename_i hbraces
    exact absurd (if_pos hbraces) h
  · rfl

theorem normalizePart_eq_nil_iff {part : Str} : normalizePart part = [] ↔ part = [] := by
  constructor
  · intro h
    have hne : normalizePart part ≠ paramMarker := by
      rw [h]
      decide
    rw [← normalizePart_of_ne_marker hne, h]
  · intro h
    rw [h, normalizePart_nil]

theorem segments_ne_nil (path : Str) : segments path ≠ [] :=
  List.splitOn_ne_nil _ _

theorem norm_ne_nil (path : Str) : norm path ≠ [] := by
  simp [norm, segments_ne_nil]

/-! ## The shape of a valid pattern -/

/-- No route character is removed by `RemoveSpacesRef`. -/
theorem isspace_of_isRouteChar {c : UInt8} (h : isRouteChar c = true) :
    isspace c = false := by
  have hall : ∀ n : Fin 256, isRouteChar (UInt8.ofFin n) = true →
      isspace (UInt8.ofFin n) = false := by decide +kernel
  exact hall c.toFin h

/-- A slash and at least one route character. -/
def IsPiece (piece : Str) : Prop :=
  ∃ cs, piece = ch '/' :: cs ∧ cs ≠ [] ∧ ∀ c ∈ cs, isRouteChar c = true

/-- A run of route characters inside a group is skipped. -/
theorem inGroup_append {cs : Str} (h : ∀ c ∈ cs, isRouteChar c = true) (nonempty : Bool)
    (rest : Str) : inGroup nonempty (cs ++ rest) = inGroup (nonempty || !cs.isEmpty) rest := by
  induction cs generalizing nonempty with
  | nil => simp
  | cons c cs ih =>
    have hc : isRouteChar c = true := h c List.mem_cons_self
    rw [List.cons_append, inGroup, if_pos hc, ih fun x hx => h x (List.mem_cons_of_mem _ hx)]
    simp

/-- A group that is not empty may be followed by pieces. -/
theorem inGroup_flatten {pieces : List Str} (h : ∀ piece ∈ pieces, IsPiece piece) :
    inGroup true pieces.flatten = true := by
  induction pieces with
  | nil => rfl
  | cons piece pieces ih =>
    obtain ⟨cs, rfl, hne, hchars⟩ := h piece List.mem_cons_self
    have hslash : ¬ isRouteChar (ch '/') = true := by decide
    have hflag : (false || !cs.isEmpty) = true := by simp [hne]
    rw [List.flatten_cons, List.cons_append, inGroup, if_neg hslash, inGroup_append hchars,
      hflag, ih fun p hp => h p (List.mem_cons_of_mem _ hp)]
    rfl

/-- What is left of a match behind a slash is the rest of the group and pieces. -/
theorem exists_pieces_of_inGroup {nonempty : Bool} {cs : Str}
    (h : inGroup nonempty cs = true) :
    ∃ (group : Str) (pieces : List Str), cs = group ++ pieces.flatten ∧
      (nonempty = false → group ≠ []) ∧
      (∀ c ∈ group, isRouteChar c = true) ∧ ∀ piece ∈ pieces, IsPiece piece := by
  induction cs generalizing nonempty with
  | nil =>
    rw [inGroup] at h
    exact ⟨[], [], rfl, by simp [h], by simp, by simp⟩
  | cons c cs ih =>
    rw [inGroup] at h
    by_cases hc : isRouteChar c = true
    · rw [if_pos hc] at h
      obtain ⟨group, pieces, rfl, -, hchars, hpieces⟩ := ih h
      refine ⟨c :: group, pieces, rfl, by simp, ?_, hpieces⟩
      intro x hx
      rcases List.mem_cons.1 hx with rfl | hx
      · exact hc
      · exact hchars x hx
    · -- the group ends here, and the next one starts
      rw [if_neg hc, Bool.and_eq_true, Bool.and_eq_true, beq_iff_eq] at h
      obtain ⟨⟨hflag, rfl⟩, hrest⟩ := h
      obtain ⟨group, pieces, rfl, hne, hchars, hpieces⟩ := ih hrest
      refine ⟨[], (ch '/' :: group) :: pieces, by simp, by simp [hflag], by simp, ?_⟩
      intro piece hpiece
      rcases List.mem_cons.1 hpiece with rfl | hpiece
      · exact ⟨group, rfl, hne rfl, hchars⟩
      · exact hpieces piece hpiece

/-- The expression matches the concatenations of pieces. -/
theorem matchesRouteRegex_iff (path : Str) :
    matchesRouteRegex path = true ↔
      ∃ pieces : List Str, path = pieces.flatten ∧ ∀ piece ∈ pieces, IsPiece piece := by
  constructor
  · intro h
    cases path with
    | nil => exact ⟨[], rfl, by simp⟩
    | cons c cs =>
      rw [matchesRouteRegex, Bool.and_eq_true, beq_iff_eq] at h
      obtain ⟨rfl, hgroup⟩ := h
      obtain ⟨group, pieces, rfl, hne, hchars, hpieces⟩ := exists_pieces_of_inGroup hgroup
      refine ⟨(ch '/' :: group) :: pieces, by simp, ?_⟩
      intro piece hpiece
      rcases List.mem_cons.1 hpiece with rfl | hpiece
      · exact ⟨group, rfl, hne rfl, hchars⟩
      · exact hpieces piece hpiece
  · rintro ⟨pieces, rfl, hpieces⟩
    cases pieces with
    | nil => rfl
    | cons piece pieces =>
      obtain ⟨cs, rfl, hne, hchars⟩ := hpieces piece List.mem_cons_self
      have hflag : (false || !cs.isEmpty) = true := by simp [hne]
      rw [List.flatten_cons, List.cons_append, matchesRouteRegex, inGroup_append hchars, hflag,
        inGroup_flatten fun p hp => hpieces p (List.mem_cons_of_mem _ hp)]
      rfl

theorem not_slash_of_isRouteChar {cs : Str} (h : ∀ c ∈ cs, isRouteChar c = true) :
    ch '/' ∉ cs := by
  intro hmem
  exact absurd (h _ hmem) (by decide)

/-- The slashes of pieces are the places where a path is split. -/
theorem segments_pieces {group : Str} (hgroup : ch '/' ∉ group) {pieces : List Str}
    (h : ∀ piece ∈ pieces, IsPiece piece) :
    segments (group ++ pieces.flatten) = group :: pieces.map List.tail := by
  induction pieces generalizing group with
  | nil =>
    rw [List.flatten_nil, List.append_nil]
    exact List.splitOn_eq_singleton hgroup
  | cons piece pieces ih =>
    obtain ⟨cs, rfl, -, hchars⟩ := h piece List.mem_cons_self
    have hrest := ih (not_slash_of_isRouteChar hchars) fun p hp => h p (List.mem_cons_of_mem _ hp)
    rw [segments] at hrest ⊢
    rw [List.flatten_cons, List.cons_append, List.splitOn_append_cons_self_of_not_mem hgroup,
      hrest]
    rfl

/-- A valid pattern splits into an empty first part and non-empty parts of
route characters. -/
theorem segments_of_isValidRoute {path : Str} (h : isValidRoute path = true) :
    ∃ segs, segments path = [] :: segs ∧
      ∀ s ∈ segs, s ≠ [] ∧ ∀ c ∈ s, isRouteChar c = true := by
  have hregex : matchesRouteRegex path = true := by
    unfold isValidRoute at h
    cases hregex : matchesRouteRegex path with
    | true => rfl
    | false => simp [hregex] at h
  obtain ⟨pieces, rfl, hpieces⟩ := (matchesRouteRegex_iff path).1 hregex
  refine ⟨pieces.map List.tail, segments_pieces List.not_mem_nil hpieces, ?_⟩
  intro s hs
  obtain ⟨piece, hpiece, rfl⟩ := List.mem_map.1 hs
  obtain ⟨cs, rfl, hne, hchars⟩ := hpieces piece hpiece
  exact ⟨hne, hchars⟩

/-- On a valid pattern `RemoveSpacesRef` leaves every part as it is. -/
theorem map_removeSpacesRef_of_isValidRoute {path : Str} (h : isValidRoute path = true) :
    (segments path).map removeSpacesRef = segments path := by
  obtain ⟨segs, hsegs, hchars⟩ := segments_of_isValidRoute h
  have hself : ∀ s ∈ segs, removeSpacesRef s = id s := by
    intro s hs
    rw [removeSpacesRef, id, List.filter_eq_self]
    intro c hc
    rw [isspace_of_isRouteChar ((hchars s hs).2 c hc)]
    rfl
  rw [hsegs, List.map_cons, List.map_congr_left hself, List.map_id]
  rfl

/-- On a valid pattern the callback of `AddRoute` collects the segments. -/
theorem splitStringCallback_removeSpacesRef {path : StdString}
    (h : isValidRoute path.bytes = true) :
    splitStringCallback path (ch '/') (fun parts part => parts ++ [removeSpacesRef part]) [] =
      .ok (segments path.bytes) := by
  have hcleaned := map_removeSpacesRef_of_isValidRoute h
  rw [segments] at hcleaned ⊢
  rw [splitStringCallback_eq, List.foldl_append_eq_append, List.nil_append, ← List.flatMap_def,
    ← List.map_eq_flatMap, hcleaned]

/-- The address of a valid pattern starts with the empty key and has no other
one. -/
theorem norm_of_isValidRoute {path : Str} (h : isValidRoute path = true) :
    ∃ ks, norm path = [] :: ks ∧ ∀ k ∈ ks, k ≠ [] := by
  obtain ⟨segs, hsegs, hchars⟩ := segments_of_isValidRoute h
  refine ⟨segs.map normalizePart, by simp [norm, hsegs], ?_⟩
  intro k hk
  obtain ⟨s, hs, rfl⟩ := List.mem_map.1 hk
  exact fun hnil => (hchars s hs).1 (normalizePart_eq_nil_iff.1 hnil)

end Piconaut.Routers
