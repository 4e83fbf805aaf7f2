import Piconaut.CppStd.Strings
import Piconaut.Lib.InfixSearch

/-!
# `Request::GetQueryString`

The query is the part of the path behind `?`.  It is a slice of a buffer: no NUL
ends it, and other bytes are behind it.  `PathBuffer` has the path and these bytes,
and `QueryLookup` records, with the value that is returned, which bytes a lookup
reads and what it subtracts for `memchr`.

The function searches the query for the bytes of the name, wherever they are, and
looks at the one byte behind them.

* `getQueryString_of_absent`, `getQueryString_of_suffix` and
  `getQueryString_of_inside` say what it does if the first occurrence of the name is
  missing, at the end of the query, or inside it.
* `readsInside_iff`: it reads a byte behind the query exactly if the first occurrence
  is at the end.
* `returnsParameter_iff`: when its value is that of the parameter with the name.
-/

namespace Piconaut.Http

open Piconaut.CppStd InfixSearch

/-! ## The function -/

/-- `h2o_strstr`, of which is known that it returns the least offset of an occurrence
of the needle, or `SIZE_MAX`. -/
structure Strstr where
  find (hay needle : Str) : Nat
  found : ∀ {hay needle pre post : Str}, FirstOccurrence needle hay pre post →
    find hay needle = pre.length
  absent : ∀ {hay needle : Str}, ¬ needle <:+: hay → find hay needle = npos

/-- A search from left to right. -/
def Strstr.scan : Strstr where
  find hay needle :=
    match hay.dropInfix? needle with
    | some (pre, _) => pre.length
    | none => npos
  found h := by rw [dropInfix?_eq_some_iff.2 h]
  absent h := by rw [dropInfix?_eq_none_iff.2 h]

/-- `memchr`, on the `n` bytes from `pos` on: the position of the first `c`. -/
def memchr (byte : Nat → UInt8) (c : UInt8) : Nat → Nat → Option Nat
  | _, 0 => none
  | pos, n + 1 => if byte pos = c then some pos else memchr byte c (pos + 1) n

/-- The path of a request, the position of its `?`, and the bytes behind the path. -/
structure PathBuffer where
  path : StdString
  queryAt : Nat
  past : Nat → UInt8
  queryAt_wf : queryAt = npos ∨ path.bytes[queryAt]? = some (ch '?')

/-- What a lookup does: the ranges that it reads, each as a start and a length, the
subtraction that gives the length passed to `memchr`, and the value, which is `none`
if `std::string` throws `std::length_error`. -/
structure QueryLookup where
  reads : List (Nat × Nat)
  remaining : Option (Nat × Nat)
  value : Option Str
  deriving DecidableEq

namespace PathBuffer

/-- The byte at an offset from `path.base`. -/
def byteAt (buf : PathBuffer) (i : Nat) : UInt8 :=
  buf.path.bytes.getD i (buf.past (i - buf.path.bytes.length))

/-- The `n` bytes from `start` on. -/
def read (buf : PathBuffer) (start n : Nat) : Str :=
  (List.range n).map fun i => buf.byteAt (start + i)

/-- `std::string(base + start, n)`. -/
def construct (buf : PathBuffer) (start n : Nat) : Option Str :=
  if maxSize < n then none else some (buf.read start n)

/-- `Request::GetQueryString`.  Positions are offsets from `path.base`. -/
def getQueryString (strstr : Strstr) (buf : PathBuffer) (name : StdString) : QueryLookup :=
  if buf.queryAt = npos then ⟨[], none, some []⟩
  else
    let base := buf.queryAt + 1
    let len := subSize (subSize buf.path.bytes.length buf.queryAt) 1
    let offset := strstr.find (buf.read base len) name.bytes
    if offset = npos then ⟨[(base, len)], none, some []⟩
    else
      let found := base + offset + name.bytes.length
      if buf.byteAt found ≠ ch '=' then ⟨[(base, len), (found, 1)], none, some []⟩
      else
        let start := found + 1
        let remaining := subSize len (start - base)
        let stop := (memchr buf.byteAt (ch '&') start remaining).getD (base + len)
        ⟨[(base, len), (found, 1), (start, remaining), (start, subSize stop start)],
          some (len, start - base), buf.construct start (subSize stop start)⟩

/-- The part of the path behind `?`. -/
def query (buf : PathBuffer) : Str := buf.path.bytes.drop (buf.queryAt + 1)

end PathBuffer

/-! ## Memory -/

/-- Over bytes that are known `memchr` stops where `takeWhile` does. -/
theorem memchr_takeWhile {byte : Nat → UInt8} (c : UInt8) {t : Str} {pos : Nat}
    (hbyte : ∀ i (hi : i < t.length), byte (pos + i) = t[i]) :
    (memchr byte c pos t.length).getD (pos + t.length) =
      pos + (t.takeWhile fun x => x ≠ c).length := by
  induction t generalizing pos with
  | nil => rfl
  | cons x t ih =>
    have hx : byte pos = x := hbyte 0 (by simp)
    have hrest := ih fun i hi => by
      have h := hbyte (i + 1) (by simpa using hi)
      rw [List.getElem_cons_succ] at h
      rw [← h, Nat.add_assoc, Nat.add_comm 1 i]
    rw [List.length_cons, memchr, hx]
    by_cases hc : x = c
    · simp [hc]
    · have hsum : pos + (t.length + 1) = pos + 1 + t.length := by omega
      rw [if_neg hc, hsum, hrest]
      simp [hc]
      omega

/-- What `memchr` finds is in its range. -/
theorem memchr_bounds {byte : Nat → UInt8} {c : UInt8} {pos n i : Nat}
    (h : memchr byte c pos n = some i) : pos ≤ i ∧ i < pos + n := by
  induction n generalizing pos with
  | zero => cases h
  | succ n ih =>
    rw [memchr] at h
    split at h
    · obtain rfl := Option.some.inj h
      omega
    · have hrest := ih h
      omega

/-- It stops at once if the first byte is the one it looks for. -/
theorem memchr_eq_self_iff {byte : Nat → UInt8} {c : UInt8} {pos n : Nat} (hn : 0 < n) :
    memchr byte c pos n = some pos ↔ byte pos = c := by
  obtain ⟨m, rfl⟩ := Nat.exists_eq_add_of_lt hn
  rw [Nat.zero_add, memchr]
  split
  · rename_i hc
    exact iff_of_true rfl hc
  · rename_i hc
    refine iff_of_false (fun h => ?_) hc
    have hle := (memchr_bounds h).1
    omega

namespace PathBuffer

variable {buf : PathBuffer} {strstr : Strstr} {name : StdString} {pre post : Str}

theorem queryAt_lt (h : buf.queryAt ≠ npos) : buf.queryAt < buf.path.bytes.length :=
  (List.getElem?_eq_some_iff.1 (buf.queryAt_wf.resolve_left h)).1

theorem length_query (buf : PathBuffer) :
    buf.query.length = buf.path.bytes.length - (buf.queryAt + 1) :=
  List.length_drop

/-- The length of `query_string` does not wrap around. -/
theorem subSize_query (h : buf.queryAt ≠ npos) :
    subSize (subSize buf.path.bytes.length buf.queryAt) 1 = buf.query.length := by
  have hlt := queryAt_lt h
  have hsize := buf.path.size_lt
  have hinner : subSize buf.path.bytes.length buf.queryAt =
      buf.path.bytes.length - buf.queryAt := subSize_of_le (by omega) (by omega)
  rw [length_query, hinner, subSize_of_le (by omega) (by omega), Nat.sub_sub]

theorem byteAt_query (buf : PathBuffer) {i : Nat} (hi : i < buf.query.length) :
    buf.byteAt (buf.queryAt + 1 + i) = buf.query[i] := by
  have hlt : buf.queryAt + 1 + i < buf.path.bytes.length := by
    rw [length_query] at hi
    omega
  rw [byteAt, List.getD_eq_getElem?_getD, List.getElem?_eq_getElem hlt, Option.getD_some]
  exact (List.getElem_drop ..).symm

/-- Behind the query the other bytes begin. -/
theorem byteAt_past (h : buf.queryAt ≠ npos) (i : Nat) :
    buf.byteAt (buf.queryAt + 1 + buf.query.length + i) = buf.past i := by
  have hlt := queryAt_lt h
  have hpos : buf.queryAt + 1 + buf.query.length + i = buf.path.bytes.length + i := by
    rw [length_query]
    omega
  rw [byteAt, hpos, List.getD_eq_getElem?_getD, List.getElem?_eq_none (Nat.le_add_right _ _),
    Option.getD_none, Nat.add_sub_cancel_left]

/-- A range inside the query reads a part of it. -/
theorem read_query (before part after : Str) (h : buf.query = before ++ (part ++ after)) :
    buf.read (buf.queryAt + 1 + before.length) part.length = part := by
  refine List.ext_getElem (by simp [read]) fun i hi hpart => ?_
  have hlt : before.length + i < buf.query.length := by
    rw [h]
    simp only [List.length_append]
    omega
  have hbyte := buf.byteAt_query hlt
  simp only [read, List.getElem_map, List.getElem_range]
  rw [Nat.add_assoc, hbyte]
  simp [h, hpart]

theorem byteAt_split {before after : Str} {c : UInt8} (h : buf.query = before ++ c :: after) :
    buf.byteAt (buf.queryAt + 1 + before.length) = c := by
  have hlt : before.length < buf.query.length := by
    rw [h]
    simp
  rw [buf.byteAt_query hlt]
  simp [h]

/-- From a position in the query on `memchr` finds what ends a run there, or else the
end of the query is taken. -/
theorem memchr_query {before t : Str} (h : buf.query = before ++ t) (c : UInt8) :
    (memchr buf.byteAt c (buf.queryAt + 1 + before.length) t.length).getD
        (buf.queryAt + 1 + buf.query.length) =
      buf.queryAt + 1 + before.length + (t.takeWhile fun x => x ≠ c).length := by
  have hend : buf.queryAt + 1 + buf.query.length =
      buf.queryAt + 1 + before.length + t.length := by
    rw [h, List.length_append]
    omega
  rw [hend]
  refine memchr_takeWhile c fun i hi => ?_
  have hlt : before.length + i < buf.query.length := by
    rw [h, List.length_append]
    omega
  rw [Nat.add_assoc, buf.byteAt_query hlt]
  simp [h]

/-- A part of the query is not too long for a string. -/
theorem construct_query {before part after : Str}
    (h : buf.query = before ++ (part ++ after)) :
    buf.construct (buf.queryAt + 1 + before.length) part.length = some part := by
  have hlen := congrArg List.length h
  have hquery := buf.length_query
  have hsize := buf.path.size_le
  simp only [List.length_append] at hlen
  rw [construct, if_neg (by omega), read_query before part after h]

theorem read_whole_query (buf : PathBuffer) :
    buf.read (buf.queryAt + 1) buf.query.length = buf.query :=
  read_query [] buf.query [] (by simp)

/-! ## What a lookup does -/

/-- Without the name in the query there is nothing to read behind it. -/
theorem getQueryString_of_absent (strstr : Strstr) (h : buf.queryAt ≠ npos)
    (hno : ¬ name.bytes <:+: buf.query) :
    buf.getQueryString strstr name =
      ⟨[(buf.queryAt + 1, buf.query.length)], none, some []⟩ := by
  simp only [getQueryString, if_neg h, subSize_query h, read_whole_query, strstr.absent hno, if_true]

/-- Where the name occurs, its first occurrence decides. -/
theorem getQueryString_of_first (strstr : Strstr) (h : buf.queryAt ≠ npos)
    (hfirst : FirstOccurrence name.bytes buf.query pre post) :
    let base := buf.queryAt + 1
    let found := base + pre.length + name.bytes.length
    let remaining := subSize buf.query.length (found + 1 - base)
    let stop := (memchr buf.byteAt (ch '&') (found + 1) remaining).getD
      (base + buf.query.length)
    buf.getQueryString strstr name =
      if buf.byteAt found ≠ ch '=' then
        ⟨[(base, buf.query.length), (found, 1)], none, some []⟩
      else
        ⟨[(base, buf.query.length), (found, 1), (found + 1, remaining),
            (found + 1, subSize stop (found + 1))],
          some (buf.query.length, found + 1 - base),
          buf.construct (found + 1) (subSize stop (found + 1))⟩ := by
  have hoffset : pre.length ≠ npos := by
    have hlen := congrArg List.length hfirst.eq
    have hsize := buf.path.size_lt
    rw [length_query] at hlen
    simp only [List.length_append] at hlen
    omega
  simp only [getQueryString, if_neg h, subSize_query h, read_whole_query, strstr.found hfirst,
    if_neg hoffset]

/-- A name at the end of the query: the byte behind the query is read, and if it is
`=` the length passed to `memchr` wraps around. -/
theorem getQueryString_of_suffix (strstr : Strstr) (h : buf.queryAt ≠ npos)
    (hfirst : FirstOccurrence name.bytes buf.query pre []) :
    let stop := buf.queryAt + 1 + buf.query.length
    buf.getQueryString strstr name =
      if buf.past 0 ≠ ch '=' then
        ⟨[(buf.queryAt + 1, buf.query.length), (stop, 1)], none, some []⟩
      else
        let found := (memchr buf.byteAt (ch '&') (stop + 1) npos).getD stop
        ⟨[(buf.queryAt + 1, buf.query.length), (stop, 1), (stop + 1, npos),
            (stop + 1, subSize found (stop + 1))],
          some (buf.query.length, buf.query.length + 1),
          buf.construct (stop + 1) (subSize found (stop + 1))⟩ := by
  have hlen := congrArg List.length hfirst.eq
  simp only [List.append_nil, List.length_append] at hlen
  have hfound : buf.queryAt + 1 + pre.length + name.bytes.length =
      buf.queryAt + 1 + buf.query.length := by omega
  have hsub : buf.queryAt + 1 + buf.query.length + 1 - (buf.queryAt + 1) =
      buf.query.length + 1 := by omega
  have hwrap : subSize buf.query.length (buf.query.length + 1) = npos := by
    unfold subSize npos
    omega
  have hpast : buf.byteAt (buf.queryAt + 1 + buf.query.length) = buf.past 0 :=
    byteAt_past h 0
  rw [getQueryString_of_first strstr h hfirst]
  simp only [hfound, hsub, hwrap, hpast]

/-- A name with a byte of the query behind it: the value is what follows an equals
sign up to the next `&`, and everything that is read is in the query. -/
theorem getQueryString_of_inside (strstr : Strstr) (h : buf.queryAt ≠ npos) {c : UInt8} {t : Str}
    (hfirst : FirstOccurrence name.bytes buf.query pre (c :: t)) :
    let found := buf.queryAt + 1 + pre.length + name.bytes.length
    let value := t.takeWhile fun x => x ≠ ch '&'
    buf.getQueryString strstr name =
      if c ≠ ch '=' then
        ⟨[(buf.queryAt + 1, buf.query.length), (found, 1)], none, some []⟩
      else
        ⟨[(buf.queryAt + 1, buf.query.length), (found, 1), (found + 1, t.length),
            (found + 1, value.length)],
          some (buf.query.length, pre.length + name.bytes.length + 1), some value⟩ := by
  intro found value
  have hlen := congrArg List.length hfirst.eq
  simp only [List.length_append, List.length_cons] at hlen
  have hsize := buf.path.size_lt
  have hquery := buf.length_query
  have hsplit : buf.query = (pre ++ name.bytes) ++ c :: t := by
    rw [hfirst.eq, List.append_assoc]
  have hrest : buf.query = (pre ++ (name.bytes ++ [c])) ++ t := by
    rw [hfirst.eq]
    simp
  have hparts : buf.query = (pre ++ (name.bytes ++ [c])) ++
      (value ++ t.dropWhile fun x => x ≠ ch '&') := by
    rw [List.takeWhile_append_dropWhile, hrest]
  have hfound : buf.queryAt + 1 + (pre ++ name.bytes).length = found := by
    rw [List.length_append, ← Nat.add_assoc]
  have hstart : buf.queryAt + 1 + (pre ++ (name.bytes ++ [c])).length = found + 1 := by
    simp only [List.length_append, List.length_singleton]
    omega
  have hc : buf.byteAt found = c := hfound ▸ byteAt_split hsplit
  have hstop := memchr_query hrest (ch '&')
  have hconstruct := construct_query hparts
  rw [hstart] at hstop hconstruct
  have hbase : found + 1 - (buf.queryAt + 1) = pre.length + name.bytes.length + 1 := by omega
  have hremaining : subSize buf.query.length (pre.length + name.bytes.length + 1) =
      t.length := by
    rw [subSize_of_le (by omega) (by omega)]
    omega
  have hvalue : value.length ≤ t.length := (List.takeWhile_prefix _).length_le
  have hcount : subSize (found + 1 + value.length) (found + 1) = value.length := by
    rw [subSize_of_le (by omega) (by omega), Nat.add_sub_cancel_left]
  rw [getQueryString_of_first strstr h hfirst]
  simp only [found, value] at hc hbase hstop hcount hconstruct ⊢
  simp only [hc, hbase, hremaining, hstop, hcount, hconstruct]

/-! ## Staying inside the query -/

/-- Every byte that a lookup reads is in the query, the length for `memchr` does not
wrap around, and the value is a part of the query. -/
structure ReadsInside (strstr : Strstr) (buf : PathBuffer) (name : StdString) : Prop where
  reads : ∀ range ∈ (buf.getQueryString strstr name).reads,
    ∀ i, range.1 ≤ i → i < range.1 + range.2 →
      buf.queryAt + 1 ≤ i ∧ i < buf.path.bytes.length
  remaining : ∀ sub ∈ (buf.getQueryString strstr name).remaining, sub.2 ≤ sub.1
  value : ∃ s, (buf.getQueryString strstr name).value = some s ∧ s <:+: buf.query

theorem not_readsInside_of_suffix (h : buf.queryAt ≠ npos)
    (hfirst : FirstOccurrence name.bytes buf.query pre []) :
    ¬ ReadsInside strstr buf name := by
  intro hinside
  have hmem : (buf.queryAt + 1 + buf.query.length, 1) ∈
      (buf.getQueryString strstr name).reads := by
    rw [getQueryString_of_suffix strstr h hfirst]
    split
    · simp
    · simp
  have hlt := (hinside.reads _ hmem _ (Nat.le_refl _) (Nat.lt_succ_self _)).2
  rw [length_query] at hlt
  omega

theorem readsInside_of_inside (h : buf.queryAt ≠ npos) {c : UInt8} {t : Str}
    (hfirst : FirstOccurrence name.bytes buf.query pre (c :: t)) :
    ReadsInside strstr buf name := by
  have hlen := congrArg List.length hfirst.eq
  simp only [List.length_append, List.length_cons] at hlen
  have hquery := buf.length_query
  have hvalue : (t.takeWhile fun x => x ≠ ch '&').length ≤ t.length :=
    (List.takeWhile_prefix _).length_le
  have hrun := getQueryString_of_inside strstr h hfirst
  dsimp only at hrun
  by_cases hc : c = ch '='
  · rw [if_neg (not_not_intro hc)] at hrun
    refine ⟨?_, ?_, _, by rw [hrun], ?_⟩
    · rw [hrun]
      simp only [List.forall_mem_cons]
      refine ⟨?_, ?_, ?_, ?_, by simp⟩
      all_goals
        intros
        omega
    · rw [hrun]
      rintro sub hsub
      obtain rfl := Option.some.inj hsub
      show pre.length + name.bytes.length + 1 ≤ buf.query.length
      omega
    · rw [hfirst.eq]
      exact (List.takeWhile_prefix _).isInfix.trans
        ⟨pre ++ (name.bytes ++ [c]), [], by simp⟩
  · rw [if_pos hc] at hrun
    refine ⟨?_, ?_, [], by rw [hrun], List.nil_infix⟩
    · rw [hrun]
      simp only [List.forall_mem_cons]
      refine ⟨?_, ?_, by simp⟩
      all_goals
        intros
        omega
    · rw [hrun]
      rintro sub hsub
      cases hsub

theorem readsInside_of_absent (h : buf.queryAt ≠ npos)
    (hno : ¬ name.bytes <:+: buf.query) : ReadsInside strstr buf name := by
  have hquery := buf.length_query
  have hrun := getQueryString_of_absent strstr h hno
  refine ⟨?_, ?_, [], by rw [hrun], List.nil_infix⟩
  · rw [hrun]
    simp only [List.forall_mem_cons]
    refine ⟨?_, by simp⟩
    intros
    omega
  · rw [hrun]
    rintro sub hsub
    cases hsub

/-- A lookup stays inside the query exactly if the first occurrence of the name, if
there is one, does not end where the query ends. -/
theorem readsInside_iff (strstr : Strstr) (buf : PathBuffer) (h : buf.queryAt ≠ npos)
    (name : StdString) :
    ReadsInside strstr buf name ↔
      ∀ pre post, FirstOccurrence name.bytes buf.query pre post → post ≠ [] := by
  constructor
  · rintro hinside pre post hfirst rfl
    exact not_readsInside_of_suffix h hfirst hinside
  · intro hcond
    by_cases hinfix : name.bytes <:+: buf.query
    · obtain ⟨pre, post, hfirst⟩ := exists_of_infix hinfix
      cases post with
      | nil => exact absurd rfl (hcond pre [] hfirst)
      | cons c t => exact readsInside_of_inside h hfirst
    · exact readsInside_of_absent h hinfix

/-- A name in front of an equals sign is looked up inside the query. -/
theorem post_id_readsInside :
    ReadsInside .scan
      ⟨⟨str "/post?id=7", by decide⟩, 5, fun _ => 0, Or.inr (by decide)⟩
      ⟨str "id", by decide⟩ := by
  refine (readsInside_iff _ _ (by decide) _).2 fun pre post hfirst => ?_
  have hdrop := dropInfix?_eq_some_iff.2 hfirst
  have hquery : List.dropInfix? (str "id=7") (str "id") = some ([], str "=7") := by decide
  obtain ⟨-, rfl⟩ := Prod.mk.inj (Option.some.inj (hquery.symm.trans hdrop))
  decide

/-- The query `a` and the name `a`: the byte behind the query is read, the length for
`memchr` wraps around, and what is returned is not in the query. -/
theorem lookup_leaves_query :
    ∃ (buf : PathBuffer) (name : StdString), buf.queryAt ≠ npos ∧
      buf.path.bytes = str "/?a" ∧ name.bytes = str "a" ∧
      buf.getQueryString .scan name =
        ⟨[(2, 1), (3, 1), (4, npos), (4, 6)], some (1, 2), some (str "secret")⟩ ∧
      ¬ str "secret" <:+: buf.query := by
  refine ⟨⟨⟨str "/?a", by decide⟩, 1, fun i => (str "=secret&").getD i 0, Or.inr (by decide)⟩,
    ⟨str "a", by decide⟩, by decide, rfl, rfl, ?_, ?_⟩
  · decide +kernel
  · decide

end PathBuffer

end Piconaut.Http
