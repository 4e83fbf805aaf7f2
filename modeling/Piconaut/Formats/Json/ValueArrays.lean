import Mathlib.Data.List.Forall2
import Piconaut.Formats.Json.Value
import Piconaut.Lib.LastMatch

/-!
# Arrays of values, written and read back

`v[k] = ws` stores the documents of `ws` as an array, and
`v[k].As<std::vector<Value>>()` makes a vector of fresh values whose documents are
the elements.  A fresh value is empty, and filling its document does not change
that, so the first `operator[]` on such a value replaces the document.

* `storeThenRead_eq`: the documents come back, in order.
* `readAt_ofElement`: no member of them can be read.
* `roundTrips_iff`: when a caller gets back what went in.
-/

namespace Piconaut.Formats.Json

open Piconaut.CppStd
open Piconaut.Rapidjson (Fault ValuePtr nullValue emptyObject)

/-! ## Values built by keyed assignments -/

/-- The right-hand side of a keyed assignment of a scalar. -/
inductive KeyedArg where
  | string (s : Str)
  | cstr (s : Str)
  | int (i : Int32)
  | double (d : Float)
  | bool (b : Bool)

namespace KeyedArg

/-- The type under which the argument is read back. -/
def type : KeyedArg → ScalarType
  | string _ | cstr _ => .string
  | int _ => .int
  | double _ => .double
  | bool _ => .bool

/-- The assignment that C++ selects. -/
def assign : KeyedArg → Value → Except Fault Value
  | string s => Value.assign .string s
  | cstr s => Value.assignCStr s
  | int i => Value.assign .int i
  | double d => Value.assign .double d
  | bool b => Value.assign .bool b

end KeyedArg

/-- `w[key] = x`. -/
def assignKey (w : Value) (a : Str × KeyedArg) : Except Fault Value := do
  let w ← w.subscript a.1
  a.2.assign w

/-- A list of keyed assignments to a fresh value. -/
def build (as : List (Str × KeyedArg)) : Except Fault Value := as.foldlM assignKey Value.init

/-- The argument assigned last under `key`. -/
def lastAssigned (as : List (Str × KeyedArg)) (key : Str) : Option KeyedArg :=
  (as.findRev? fun a => a.1 = key).map Prod.snd

/-! ## The round trip -/

/-- `v[k] = ws` and then `v[k].As<std::vector<Value>>()`. -/
def storeThenRead (v : Value) (k : Str) (ws : List Value) : Except Fault (List Value) := do
  let v ← v.subscript k
  let v ← v.assignValues ws
  let v ← v.subscript k
  v.asValues

/-- `w[key].As<T>()`. -/
def readAt (w : Value) (key : Str) (T : ScalarType) : Except Fault T.Carrier := do
  let w ← w.subscript key
  w.as T

/-- The vector that comes back is as long as `ws`, and each member that was
assigned in an element reads the same in both. -/
def RoundTrips (v : Value) (k : Str) (ass : List (List (Str × KeyedArg))) (ws : List Value) :
    Prop :=
  ∃ ws', storeThenRead v k ws = .ok ws' ∧ ws'.length = ws.length ∧
    ∀ (i : Nat) as w w', ass[i]? = some as → ws[i]? = some w → ws'[i]? = some w' →
      ∀ key x, lastAssigned as key = some x →
        ∃ r, readAt w' key x.type = .ok r ∧ readAt w key x.type = .ok r

/-- What is stored under a key is found there, provided that the root can have
members. -/
theorem storeThenRead_eq (v : Value) (k : Str) (ws : List Value)
    (h : v.ensureObject.document.IsObject) :
    storeThenRead v k ws = .ok (ws.map fun w => Value.ofElement w.document) := by
  have hchild := Value.child?_touch_self h (cStr k)
  have hafter : (JsonTree.mapMember (cStr k)
      (fun _ => JsonTree.array (ws.map Value.document))
      (Value.touch (cStr k) v.ensureObject.document)).child? (cStr k) =
        some (.array (ws.map Value.document)) := by
    rw [JsonTree.child?_mapMember_self, hchild, Option.map_some]
  calc storeThenRead v k ws
      = (do
          let v ← (Value.member (Value.touch (cStr k) v.ensureObject.document)
            (cStr k)).assignValues ws
          let v ← v.subscript k
          v.asValues) := by rw [storeThenRead, v.subscript_eq k h]; rfl
    _ = (do
          let v ← (Value.member _ (cStr k)).subscript k
          v.asValues) := by rw [Value.assignValues, Value.assignStored_member hchild]; rfl
    _ = (Value.member _ (cStr k)).asValues := by rw [Value.subscript_member hafter]; rfl
    _ = .ok ((ws.map Value.document).map Value.ofElement) := by
          rw [Value.asValues, Value.elements, Value.current_member hafter]; rfl
    _ = .ok (ws.map fun w => Value.ofElement w.document) := by rw [List.map_map]; rfl

/-- A member of an extracted element reads as null, so no scalar can be read. -/
theorem readAt_ofElement (e : Rapidjson.Value) (key : Str) (T : ScalarType) :
    readAt (Value.ofElement e) key T = runtimeError ("JSON value is not " ++ T.article) := by
  have hroot : (Value.ofElement e).ensureObject.document = emptyObject := rfl
  have hobj : (Value.ofElement e).ensureObject.document.IsObject := ⟨[], hroot⟩
  have hnull : ((Value.ofElement e).ensureObject.document.child? (cStr key)).getD
      nullValue = nullValue := by
    rw [hroot]
    rfl
  have hchild := Value.child?_touch_self hobj (cStr key)
  rw [hnull] at hchild
  rw [readAt, (Value.ofElement e).subscript_eq key hobj]
  show Value.as T (Value.member _ _) = _
  rw [Value.as, Value.current_member hchild]
  cases T <;> rfl

/-- A key that was assigned has a last assignment. -/
theorem exists_lastAssigned {as : List (Str × KeyedArg)} {a : Str × KeyedArg} (h : a ∈ as) :
    ∃ x, lastAssigned as a.1 = some x := by
  obtain ⟨last, hlast⟩ :=
    LastMatch.exists_findRev? (p := fun a' => a'.1 = a.1) h (decide_eq_true rfl)
  exact ⟨last.2, by rw [lastAssigned, hlast]; rfl⟩

/-- A caller gets the elements back exactly if `v` can have members and no element
has a member that could be read. -/
theorem roundTrips_iff (v : Value) (k : Str) (ass : List (List (Str × KeyedArg)))
    (ws : List Value) (hws : List.Forall₂ (fun as w => build as = .ok w) ass ws) :
    RoundTrips v k ass ws ↔
      (v.isEmpty = true ∨ v.document.IsObject) ∧ ∀ as ∈ ass, as = [] := by
  have hroot : v.ensureObject.document.IsObject ↔
      v.isEmpty = true ∨ v.document.IsObject := by
    rw [Value.document_ensureObject]
    cases v.isEmpty with
    | true => simp [JsonTree.IsObject, emptyObject]
    | false => simp
  constructor
  · rintro ⟨ws', hrun, hlen, hread⟩
    have hobj : v.ensureObject.document.IsObject := by
      by_contra hnot
      rw [storeThenRead, v.subscript_error k hnot] at hrun
      cases hrun
    rw [storeThenRead_eq v k ws hobj] at hrun
    obtain rfl := Except.ok.inj hrun
    refine ⟨hroot.1 hobj, fun as has => ?_⟩
    by_contra hne
    obtain ⟨i, hi, rfl⟩ := List.getElem_of_mem has
    have hi' : i < ws.length := hws.length_eq ▸ hi
    obtain ⟨x, hx⟩ := exists_lastAssigned (List.getLast_mem hne)
    obtain ⟨r, hr, -⟩ := hread i ass[i] ws[i] (Value.ofElement ws[i].document)
      (List.getElem?_eq_getElem hi) (List.getElem?_eq_getElem hi')
      (by rw [List.getElem?_map, List.getElem?_eq_getElem hi', Option.map_some]) _ x hx
    rw [readAt_ofElement] at hr
    cases hr
  · rintro ⟨hobj, hempty⟩
    refine ⟨_, storeThenRead_eq v k ws (hroot.2 hobj), by rw [List.length_map], ?_⟩
    intro i as w w' has _ _ key x hx
    rw [hempty as (List.mem_of_getElem? has)] at hx
    cases hx

/-- Two values without members survive. -/
theorem empty_values_roundTrip :
    RoundTrips Value.init (str "k") [[], []] [Value.init, Value.init] :=
  (roundTrips_iff Value.init (str "k") [[], []] [Value.init, Value.init]
    (.cons rfl (.cons rfl .nil))).2 ⟨Or.inl rfl, by simp⟩

/-- The value after `w["j"] = 1`. -/
def withInt : Value :=
  Value.member (.object [(str "j", .scalar (.number (.integer 1)))]) (str "j")

/-- `v["k"] = ws` with `ws = {w}`: in what is read back `["j"].As<int>()` throws. -/
theorem member_not_readable :
    build [(str "j", .int 1)] = .ok withInt ∧
      ¬ RoundTrips Value.init (str "k") [[(str "j", .int 1)]] [withInt] := by
  refine ⟨rfl, ?_⟩
  rintro ⟨ws', hrun, -, hread⟩
  rw [storeThenRead_eq _ _ _ ⟨[], rfl⟩] at hrun
  obtain rfl := Except.ok.inj hrun
  obtain ⟨r, hr, -⟩ := hread 0 _ _ _ rfl rfl rfl (str "j") (.int 1)
    (by simp [lastAssigned])
  rw [readAt_ofElement] at hr
  cases hr

end Piconaut.Formats.Json
