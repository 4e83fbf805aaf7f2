import Piconaut.Http.QueryString

/-!
# Query parameters

A query is a list of items with `&` between them, and the parameter called `name` is
the value of the first item of the form `name=value` (`parameter`).

`GetQueryString` returns it or something else, and the first item in which the bytes
of the name occur decides (`FirstMentionDecides`).  That item may be `name=value`.
If it is not, because the name is the end of a longer key, or part of a value, or
without an equals sign, then the function returns what follows an equals sign there,
or nothing, and is right only if the parameter happens to have that value.
`returnsParameter_iff` is the condition.
-/

namespace Piconaut.Http

open Piconaut.CppStd InfixSearch SeparatedList

/-- The value of the first item of the form `name=value`, empty if there is none. -/
def parameter (name : Str) (items : List Str) : Str :=
  match items.find? fun item => (name ++ [ch '=']).isPrefixOf item with
  | some item => item.drop (name.length + 1)
  | none => []

/-- What follows an equals sign. -/
def behindEquals : Str → Str
  | [] => []
  | c :: t => if c = ch '=' then t else []

/-- The first item that mentions the name is `name=value`, or what follows the name
there is, as a value, that of the parameter in the items behind it.  If the query ends
with the name, the bytes behind the query must not look like a value. -/
def FirstMentionDecides (name : Str) (past : Nat → UInt8) (items : List Str) : Prop :=
  match firstItem name items with
  | none => True
  | some (pre, post, later) =>
    (pre = [] ∧ post.head? = some (ch '=')) ∨
      (behindEquals post = parameter name later ∧
        (post = [] → later = [] → past 0 ≠ ch '=' ∨ past 1 = ch '&'))

/-- `GetQueryString` returns the parameter. -/
def ReturnsParameter (strstr : Strstr) (buf : PathBuffer) (name : StdString) : Prop :=
  (buf.getQueryString strstr name).value =
    some (parameter name.bytes (buf.query.splitOn (ch '&')))

/-! ## The parameter, by the first mention -/

/-- An item with a first occurrence of the name is `name=value` if nothing is in front
of the name and an equals sign is behind it. -/
theorem isPrefixOf_iff {name item pre post : Str} (h : FirstOccurrence name item pre post) :
    (name ++ [ch '=']).isPrefixOf item = true ↔ pre = [] ∧ post.head? = some (ch '=') := by
  rw [List.isPrefixOf_iff_prefix]
  constructor
  · rintro ⟨value, hvalue⟩
    rw [List.append_assoc] at hvalue
    have hpre : pre = [] :=
      List.length_eq_zero_iff.1 (Nat.le_zero.1 (h.least [] ([ch '='] ++ value) hvalue.symm))
    have hpost : name ++ post = name ++ ([ch '='] ++ value) := by
      have heq := h.eq
      rw [hpre, List.nil_append] at heq
      exact heq.symm.trans hvalue.symm
    exact ⟨hpre, by rw [List.append_cancel_left hpost]; rfl⟩
  · rintro ⟨rfl, hpost⟩
    obtain ⟨value, rfl⟩ := List.head?_eq_some_iff.1 hpost
    exact ⟨value, by rw [h.eq]; simp⟩

/-- The first item that mentions the name holds the parameter, or a later one does. -/
theorem parameter_eq (name : Str) (items : List Str) :
    parameter name items =
      match firstItem name items with
      | none => []
      | some (pre, post, later) =>
        if pre = [] ∧ post.head? = some (ch '=') then post.tail else parameter name later := by
  induction items with
  | nil => rfl
  | cons item items ih =>
    rw [firstItem]
    cases hdrop : item.dropInfix? name with
    | none =>
      -- an item without the name does not start with it
      have hno : (name ++ [ch '=']).isPrefixOf item = false := by
        rw [← Bool.not_eq_true, List.isPrefixOf_iff_prefix]
        intro hpre
        refine dropInfix?_eq_none_iff.1 hdrop ?_
        exact ((List.prefix_append _ _).trans hpre).isInfix
      rw [← ih, parameter, List.find?_cons, hno]
      rfl
    | some p =>
      have hfirst := dropInfix?_eq_some_iff.1 hdrop
      rw [parameter, List.find?_cons]
      by_cases hform : p.1 = [] ∧ p.2.head? = some (ch '=')
      · have hvalue : item.drop (name.length + 1) = p.2.tail := by
          rw [hfirst.eq, hform.1, List.nil_append, ← List.drop_drop, List.drop_left,
            List.drop_one]
        simp only [(isPrefixOf_iff hfirst).2 hform, hvalue, if_pos hform]
      · have hno := mt (isPrefixOf_iff hfirst).1 hform
        rw [Bool.not_eq_true] at hno
        simp only [hno, if_neg hform]
        rfl

/-! ## The value that is returned -/

section Value

variable {strstr : Strstr} {buf : PathBuffer} {name : StdString} {pre post : Str}

/-- With the name at the end of the query the empty value is returned exactly if the
bytes behind the query do not look like a value. -/
theorem value_of_suffix_iff (strstr : Strstr) (h : buf.queryAt ≠ npos)
    (hfirst : FirstOccurrence name.bytes buf.query pre []) :
    (buf.getQueryString strstr name).value = some [] ↔
      (buf.past 0 ≠ ch '=' ∨ buf.past 1 = ch '&') := by
  rw [buf.getQueryString_of_suffix strstr h hfirst]
  by_cases hequals : buf.past 0 = ch '='
  · rw [if_neg (not_not_intro hequals)]
    set stop := buf.queryAt + 1 + buf.query.length with hstop
    have hpast : buf.byteAt (stop + 1) = buf.past 1 := buf.byteAt_past h 1
    have hfound : memchr buf.byteAt (ch '&') (stop + 1) npos = some (stop + 1) ↔
        buf.past 1 = ch '&' := by
      rw [memchr_eq_self_iff (by decide), hpast]
    simp only [hequals, ne_eq, not_true_eq_false, false_or]
    rw [← hfound, PathBuffer.construct]
    cases hrun : memchr buf.byteAt (ch '&') (stop + 1) npos with
    | none =>
      -- without an ampersand anywhere the constructor is asked for `npos` bytes
      have hcount : subSize stop (stop + 1) = npos := by
        unfold subSize npos
        omega
      have hmax : maxSize < npos := by decide
      simp [hcount, hmax]
    | some i =>
      obtain ⟨hle, hlt⟩ := memchr_bounds hrun
      have hcount : subSize i (stop + 1) = i - (stop + 1) := by
        unfold subSize
        unfold npos at hlt ⊢
        omega
      simp only [Option.getD_some, hcount, Option.some.injEq]
      split
      · rename_i hmax
        refine iff_of_false (by simp) ?_
        omega
      · simp only [Option.some.injEq, PathBuffer.read, List.map_eq_nil_iff,
          List.range_eq_nil]
        omega
  · rw [if_pos hequals]
    exact iff_of_true rfl (Or.inl hequals)

/-- With a byte of the query behind the name the value is what follows an equals sign,
up to the next ampersand. -/
theorem value_of_inside (strstr : Strstr) (h : buf.queryAt ≠ npos) {c : UInt8} {t : Str}
    (hfirst : FirstOccurrence name.bytes buf.query pre (c :: t)) :
    (buf.getQueryString strstr name).value =
      some (if c = ch '=' then t.takeWhile (fun x => x ≠ ch '&') else []) := by
  rw [buf.getQueryString_of_inside strstr h hfirst]
  by_cases hc : c = ch '='
  · simp [hc]
  · simp [hc]

/-- Without a mention of the name nothing is returned. -/
theorem value_of_absent (hno : ¬ name.bytes <:+: buf.query) :
    (buf.getQueryString strstr name).value = some [] := by
  by_cases h : buf.queryAt = npos
  · rw [PathBuffer.getQueryString, if_pos h]
  · rw [buf.getQueryString_of_absent strstr h hno]

/-- Without a query there is no byte to find a name in. -/
theorem query_of_npos (h : buf.queryAt = npos) : buf.query = [] := by
  have hsize := buf.path.size_lt
  rw [PathBuffer.query, h, List.drop_eq_nil_iff]
  omega

end Value

/-- `GetQueryString` returns the parameter exactly if the first mention of its name
decides in its favour. -/
theorem returnsParameter_iff (strstr : Strstr) (buf : PathBuffer) (name : StdString)
    (hne : name.bytes ≠ []) (hamp : ch '&' ∉ name.bytes) :
    ReturnsParameter strstr buf name ↔
      FirstMentionDecides name.bytes buf.past (buf.query.splitOn (ch '&')) := by
  have hsearch := dropInfix?_splitOn hamp buf.query
  rw [ReturnsParameter, FirstMentionDecides, parameter_eq]
  cases hfirst : firstItem name.bytes (buf.query.splitOn (ch '&')) with
  | none =>
    rw [hfirst, Option.map_none, Option.map_eq_none_iff] at hsearch
    exact iff_of_true (value_of_absent (dropInfix?_eq_none_iff.1 hsearch)) trivial
  | some m =>
    obtain ⟨pre, post, later⟩ := m
    rw [hfirst, Option.map_some, Option.map_eq_some_iff] at hsearch
    obtain ⟨⟨pre', behind⟩, hdrop, hbehind⟩ := hsearch
    have hoccurs := dropInfix?_eq_some_iff.1 hdrop
    have h : buf.queryAt ≠ npos := by
      intro hnpos
      have heq := hoccurs.eq
      rw [query_of_npos hnpos] at heq
      simp [hne] at heq
    obtain ⟨item, hitem, hmention⟩ := exists_mem_of_firstItem hfirst
    have hpost : ch '&' ∉ post := by
      have hno := not_mem_of_mem_splitOn hitem
      rw [hmention.eq] at hno
      exact fun hmem => hno (by simp [hmem])
    change behind = post ++ later.flatMap (List.cons (ch '&')) at hbehind
    rw [hbehind] at hoccurs
    cases post with
    | nil =>
      cases later with
      | nil =>
        -- the query ends with the name
        have hvalue := value_of_suffix_iff strstr h hoccurs
        simpa [behindEquals, parameter] using hvalue
      | cons l ls =>
        have hvalue := value_of_inside strstr h hoccurs
        have hsep : ch '&' ≠ ch '=' := by decide
        simp [hvalue, hsep, behindEquals]
    | cons c t =>
      rw [List.cons_append] at hoccurs
      have hvalue := value_of_inside strstr h hoccurs
      have ht : ch '&' ∉ t := fun hmem => hpost (List.mem_cons_of_mem _ hmem)
      rw [hvalue, takeWhile_item ht]
      by_cases hc : c = ch '='
      · by_cases hpre : pre = []
        · simp [hc, hpre]
        · simp [hc, hpre, behindEquals]
      · simp [hc, behindEquals]

/-- `id` is found behind another parameter. -/
theorem post_id_returnsParameter :
    ReturnsParameter .scan
      ⟨⟨str "/post?x=1&id=7", by decide⟩, 5, fun _ => 0, Or.inr (by decide)⟩
      ⟨str "id", by decide⟩ := by
  refine (returnsParameter_iff _ _ _ (by decide) (by decide)).2 ?_
  have hfirst : firstItem (str "id") ((str "x=1&id=7").splitOn (ch '&')) =
      some ([], str "=7", []) := by decide
  show FirstMentionDecides (str "id") _ ((str "x=1&id=7").splitOn (ch '&'))
  rw [FirstMentionDecides, hfirst]
  exact Or.inl ⟨rfl, by decide⟩

/-- In `aname=5&name=6` the name is found in the longer key `aname`. -/
theorem longer_key_is_returned :
    ∃ (buf : PathBuffer) (name : StdString), name.bytes = str "name" ∧
      buf.query = str "aname=5&name=6" ∧
      (buf.getQueryString .scan name).value = some (str "5") ∧
      parameter name.bytes (buf.query.splitOn (ch '&')) = str "6" :=
  ⟨⟨⟨str "/?aname=5&name=6", by decide⟩, 1, fun _ => 0, Or.inr (by decide)⟩,
    ⟨str "name", by decide⟩, rfl, by decide, by decide +kernel, by decide⟩

end Piconaut.Http
