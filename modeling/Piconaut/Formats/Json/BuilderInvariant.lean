import Piconaut.Formats.Json.ValueBuilder

/-!
# The invariant of `ValueBuilder`

`Coherent` says how the fields of a builder hang together: `value_nodes_` walks down
the document one recorded key at a time, `current_value_` points to a value that
is there, and `current_type_` is the class of that value or undetermined.

Under the invariant no pointer is stale, so each operation has a closed form:
`subscript_eq`, `assign_eq`, `createJsonObject_eq` and `assignBuilder_eq`.
Everything that is said about builders rests on these four, and not on the
definitions.  `Reachable.inv` says that every builder a program can hold meets
the invariant.
-/

namespace Piconaut.Formats.Json

open Piconaut.CppStd Piconaut.Rapidjson

/-! ## Classes of values -/

/-- The type of a value, with both booleans in one class. -/
inductive JsonClass where
  | null
  | boolean
  | object
  | array
  | string
  | number
  deriving DecidableEq

/-- The class of a value. -/
def classOf : Rapidjson.Value → JsonClass
  | .scalar .null => .null
  | .scalar (.bool _) => .boolean
  | .scalar (.number _) => .number
  | .scalar (.string _) => .string
  | .array _ => .array
  | .object _ => .object

/-- The class that a cached type stands for. -/
def JsonValueType.toClass : JsonValueType → Option JsonClass
  | .kUnknown => none
  | .kNullType => some .null
  | .kFalseType => some .boolean
  | .kTrueType => some .boolean
  | .kObjectType => some .object
  | .kArrayType => some .array
  | .kStringType => some .string
  | .kNumberType => some .number

@[simp] theorem toClass_ofType (v : Rapidjson.Value) :
    (JsonValueType.ofType (getType v)).toClass = some (classOf v) := by
  cases v with
  | array es => rfl
  | object ms => rfl
  | scalar s =>
    cases s with
    | bool b => cases b <;> rfl
    | null => rfl
    | number n => rfl
    | string s => rfl

@[simp] theorem toClass_eq_none {t : JsonValueType} : t.toClass = none ↔ t = .kUnknown := by
  cases t <;> decide

/-! ## What the scalar assignments have in common -/

namespace ScalarArg

/-- The types the overload accepts. -/
def accepts : ScalarArg → JsonValueType → Bool
  | string _ | cstr _ => ValueBuilder.acceptsString
  | uint _ | int _ | double _ | float _ => ValueBuilder.acceptsNumber
  | bool _ => ValueBuilder.acceptsBool

/-- The type the overload records. -/
def newType : ScalarArg → Option JsonValueType
  | string _ => some .kStringType
  | uint _ | int _ | double _ | float _ => some .kNumberType
  | cstr _ | bool _ => none

/-- The value the overload writes. -/
def stored : ScalarArg → Rapidjson.Value
  | string value | cstr value => .scalar (.string (cStr value))
  | uint value => .scalar (.number (.integer value.toNat))
  | int value => .scalar (.number (.integer value.toInt))
  | double value => .scalar (.number (.double value))
  | float value => .scalar (.number (.double value.toFloat))
  | bool value => .scalar (.bool value)

/-- The class of the argument. -/
def cls : ScalarArg → JsonClass
  | string _ | cstr _ => .string
  | uint _ | int _ | double _ | float _ => .number
  | bool _ => .boolean

@[simp] theorem classOf_stored (x : ScalarArg) : classOf x.stored = x.cls := by
  cases x <;> rfl

/-- The guard compares the cached type with the class of the argument. -/
theorem accepts_iff (x : ScalarArg) (t : JsonValueType) :
    x.accepts t = true ↔ t = .kUnknown ∨ t.toClass = some x.cls := by
  have hstring : ValueBuilder.acceptsString t = true ↔
      t = .kUnknown ∨ t.toClass = some .string := by cases t <;> decide
  have hnumber : ValueBuilder.acceptsNumber t = true ↔
      t = .kUnknown ∨ t.toClass = some .number := by cases t <;> decide
  have hbool : ValueBuilder.acceptsBool t = true ↔
      t = .kUnknown ∨ t.toClass = some .boolean := by cases t <;> decide
  cases x with
  | string value => exact hstring
  | cstr value => exact hstring
  | uint value => exact hnumber
  | int value => exact hnumber
  | double value => exact hnumber
  | float value => exact hnumber
  | bool value => exact hbool

/-- What is recorded is the class of the argument, where anything is recorded. -/
theorem toClass_newType (x : ScalarArg) (t : JsonValueType) :
    (x.newType.getD t).toClass = some x.cls ∨ x.newType.getD t = t := by
  cases x with
  | cstr value => exact Or.inr rfl
  | bool value => exact Or.inr rfl
  | string value => exact Or.inl rfl
  | uint value => exact Or.inl rfl
  | int value => exact Or.inl rfl
  | double value => exact Or.inl rfl
  | float value => exact Or.inl rfl

/-- A scalar has no members. -/
theorem child?_stored (x : ScalarArg) (k : Str) : x.stored.child? k = none := by
  cases x <;> rfl

end ScalarArg

theorem ValueBuilder.assign_eq_assignScalar (x : ScalarArg) :
    ValueBuilder.assign x = assignScalar x.accepts x.newType x.stored := by
  cases x <;> rfl

/-! ## The walk -/

/-- The nodes walk down from `l`, one recorded key at a time. -/
def IsWalk : Loc → List JsonBuilderNode → Prop
  | _, [] => True
  | l, node :: nodes =>
    node.value = ValuePtr.to (l ++ [cStr node.key]) ∧ IsWalk (l ++ [cStr node.key]) nodes

/-- The location that a list of keys spells. -/
abbrev locOf (keys : List Str) : Loc := keys.map cStr

theorem isWalk_concat {l : Loc} {nodes : List JsonBuilderNode} (h : IsWalk l nodes)
    (key : Str) :
    IsWalk l (nodes ++
      [⟨key, ValuePtr.to (l ++ locOf (nodes.map JsonBuilderNode.key) ++ [cStr key])⟩]) := by
  induction nodes generalizing l with
  | nil =>
    refine ⟨?_, trivial⟩
    simp
  | cons node nodes ih =>
    obtain ⟨hvalue, hrest⟩ := h
    refine ⟨hvalue, ?_⟩
    have := ih hrest
    simpa using this

/-- A write at the end of the walk, or below it, keeps every pointer of the walk. -/
theorem map_afterWrite_of_isWalk {l w : Loc} {nodes : List JsonBuilderNode}
    (h : IsWalk l nodes) (hw : l ++ locOf (nodes.map JsonBuilderNode.key) <+: w) :
    nodes.map (fun node => { node with value := node.value.afterWrite w }) = nodes := by
  induction nodes generalizing l with
  | nil => rfl
  | cons node nodes ih =>
    obtain ⟨hvalue, hrest⟩ := h
    have hw' : l ++ [cStr node.key] ++ locOf (nodes.map JsonBuilderNode.key) <+: w := by
      simpa using hw
    have hhead : node.value.afterWrite w = node.value := by
      rw [hvalue]
      exact ValuePtr.afterWrite_to (List.IsPrefix.trans (List.prefix_append _ _) hw')
    rw [List.map_cons, hhead, ih hrest hw']

theorem getLast?_of_isWalk {l : Loc} {nodes : List JsonBuilderNode} (h : IsWalk l nodes)
    (hne : nodes ≠ []) :
    (nodes.getLast?.map JsonBuilderNode.value) =
      some (ValuePtr.to (l ++ locOf (nodes.map JsonBuilderNode.key))) := by
  induction nodes generalizing l with
  | nil => exact absurd rfl hne
  | cons node nodes ih =>
    obtain ⟨hvalue, hrest⟩ := h
    cases nodes with
    | nil => simp [hvalue]
    | cons next nodes =>
      have hlast := ih hrest (List.cons_ne_nil _ _)
      rw [List.getLast?_cons_cons, hlast]
      simp

namespace ValueBuilder

/-- The location that the recorded keys spell. -/
def walked (b : ValueBuilder) : Loc := locOf (b.valueNodes.map JsonBuilderNode.key)

/-- The location of `current_value_`. -/
def currentLoc (b : ValueBuilder) : Loc := (b.currentValue.getD ValuePtr.root).loc

/-- How the fields of a builder hang together. -/
structure Coherent (b : ValueBuilder) : Prop where
  empty : b.isEmpty = true →
    b.document = emptyObject ∧ b.valueNodes = [] ∧ b.currentLoc = []
  walk : IsWalk [] b.valueNodes
  node : ∃ v, b.document.get? b.walked = some v
  current : b.currentValue = some (ValuePtr.to b.currentLoc)
  value : ∃ v, b.document.get? b.currentLoc = some v ∧
    ∀ c, b.currentType.toClass = some c → classOf v = c
  last : b.valueNodes ≠ [] → b.currentLoc = b.walked

variable {b : ValueBuilder}

/-- Away from the root the walk ends at the current value. -/
theorem Coherent.currentLoc_of_walked (h : Coherent b) (hne : b.walked ≠ []) :
    b.currentLoc = b.walked := by
  refine h.last fun hnil => hne ?_
  simp [walked, hnil]

/-! ## Closed forms of the operations -/

theorem Coherent.getNodeValue_eq (h : Coherent b) : b.getNodeValue = ValuePtr.to b.walked := by
  unfold getNodeValue walked
  by_cases hne : b.valueNodes = []
  · simp [hne, ValuePtr.root, ValuePtr.to]
  · have hlast := getLast?_of_isWalk h.walk hne
    cases hnode : b.valueNodes.getLast? with
    | none => simp [hnode] at hlast
    | some node => simpa [hnode] using hlast

/-- Making the root an object changes nothing but the flag. -/
theorem Coherent.ensureObject_eq (h : Coherent b) :
    b.ensureObject = { b with isEmpty := false } := by
  unfold ensureObject
  split
  · rename_i hempty
    obtain ⟨hdoc, hnodes, hloc⟩ := h.empty hempty
    have hcur : b.currentValue.map (ValuePtr.afterWrite []) = b.currentValue := by
      rw [h.current, hloc, Option.map_some, ValuePtr.afterWrite_to_self]
    simp only [store, hcur, hdoc, hnodes, List.map_nil, JsonTree.update_nil]
  · rename_i hempty
    have hfalse : b.isEmpty = false := by simpa using hempty
    simp [← hfalse]

private theorem Coherent.getNodeValue_ready (h : Coherent b) :
    ({ b with isEmpty := false } : ValueBuilder).getNodeValue = ValuePtr.to b.walked :=
  h.getNodeValue_eq

/-- A write at the end of the walk keeps the walk. -/
private theorem Coherent.map_afterWrite (h : Coherent b) :
    b.valueNodes.map (fun node => { node with value := node.value.afterWrite b.walked }) =
      b.valueNodes :=
  map_afterWrite_of_isWalk h.walk (List.prefix_refl _)

/-- The builder after `operator[]`, given the document and the type it leaves. -/
def visit (b : ValueBuilder) (key : Str) (document : Rapidjson.Value) (type : JsonValueType) :
    ValueBuilder where
  document := document
  currentValue := some (ValuePtr.to (b.walked ++ [cStr key]))
  isEmpty := false
  currentType := type
  valueNodes := b.valueNodes ++ [⟨key, ValuePtr.to (b.walked ++ [cStr key])⟩]

/-- `operator[]` looks the key up in the object at the end of the walk, and
appends a null member if it is missing. -/
theorem Coherent.subscript_eq (h : Coherent b) (key : Str) {t : Rapidjson.Value}
    (hget : b.document.get? b.walked = some t) (ht : t.IsObject) :
    b.subscript key = .ok (match t.child? (cStr key) with
      | some v => b.visit key b.document (.ofType (getType v))
      | none => b.visit key
          (JsonTree.update b.walked (JsonTree.append (cStr key) nullValue) b.document)
          .kUnknown) := by
  unfold subscript
  simp only [h.ensureObject_eq, h.getNodeValue_ready, load_to hget, ValuePtr.to_loc]
  cases hfound : t.child? (cStr key) with
  | none =>
    simp [hasMember_object ht, hfound, store, h.map_afterWrite, visit]
  | some v =>
    have hmember : b.document.get? (b.walked ++ [cStr key]) = some v := by
      rw [JsonTree.get?_concat, hget, Option.bind_some, hfound]
    simp [hasMember_object ht, hfound, load_to hmember, visit]

/-- On any other value `operator[]` asserts. -/
theorem Coherent.subscript_error (h : Coherent b) (key : Str) {t : Rapidjson.Value}
    (hget : b.document.get? b.walked = some t) (ht : ¬ t.IsObject) :
    b.subscript key = .error .assertion := by
  unfold subscript
  simp only [h.ensureObject_eq, h.getNodeValue_ready, load_to hget]
  simp [hasMember_error ht]

/-- The builder after a write to `current_value_`. -/
def overwrite (b : ValueBuilder) (isEmpty : Bool) (value : Rapidjson.Value)
    (type : JsonValueType) : ValueBuilder where
  document := JsonTree.update b.currentLoc (fun _ => value) b.document
  currentValue := b.currentValue
  isEmpty := isEmpty
  currentType := type
  valueNodes := []

/-- An assignment writes the current value or refuses, and ends the walk. -/
theorem Coherent.assign_eq (h : Coherent b) (x : ScalarArg) :
    b.assign x = .ok (if x.accepts b.currentType
      then b.overwrite false x.stored (x.newType.getD b.currentType)
      else { b with isEmpty := false, valueNodes := [] }) := by
  obtain ⟨v, hv, -⟩ := h.value
  rw [assign_eq_assignScalar, assignScalar]
  simp only [h.ensureObject_eq, h.current]
  split
  · simp [load_to hv, store, overwrite, h.current]
  · simp

/-- `CreateJsonObject` does the same with an empty object, and writes only while
the type is undetermined. -/
theorem Coherent.createJsonObject_eq (h : Coherent b) :
    b.createJsonObject = .ok (if b.currentType = .kUnknown
      then b.overwrite b.isEmpty emptyObject .kObjectType
      else { b with valueNodes := [] }) := by
  obtain ⟨v, hv, -⟩ := h.value
  unfold createJsonObject
  simp only [h.current]
  split
  · simp [load_to hv, store, overwrite, h.current]
  · simp

/-- The builder after an assignment from `other`. -/
def embed (b other : ValueBuilder) : ValueBuilder where
  document := JsonTree.update b.walked (fun _ => other.document) b.document
  currentValue := some (ValuePtr.to b.walked)
  isEmpty := false
  currentType := .ofType (getType other.document)
  valueNodes := b.valueNodes

/-- An assignment from another builder writes the end of the walk, whatever is
there, and the walk goes on. -/
theorem Coherent.assignBuilder_eq (h : Coherent b) (other : ValueBuilder) :
    assignBuilder other b = .ok (b.embed other) := by
  obtain ⟨v, hv⟩ := h.node
  unfold assignBuilder
  simp only [h.ensureObject_eq, h.getNodeValue_ready, load_to hv]
  simp [store, h.map_afterWrite, embed]

/-! ## Every operation keeps the invariant -/

theorem walked_visit (b : ValueBuilder) (key : Str) (document : Rapidjson.Value)
    (type : JsonValueType) : (b.visit key document type).walked = b.walked ++ [cStr key] := by
  simp [walked, visit]

theorem Coherent.init : Coherent ValueBuilder.init where
  empty _ := ⟨rfl, rfl, rfl⟩
  walk := trivial
  node := ⟨_, rfl⟩
  current := rfl
  value := ⟨_, rfl, fun c hc => by cases hc⟩
  last hne := absurd rfl hne

theorem Coherent.copy (h : Coherent b) : Coherent b.copy where
  empty hempty := ⟨(h.empty hempty).1, rfl, rfl⟩
  walk := trivial
  node := ⟨_, rfl⟩
  current := rfl
  value := ⟨_, rfl, fun c hc => by cases hc⟩
  last hne := absurd rfl hne

/-- A visit keeps the invariant if the document holds the visited member and the
type is the member's. -/
theorem Coherent.visit (h : Coherent b) {key : Str} {document v : Rapidjson.Value}
    {type : JsonValueType}
    (hget : document.get? (b.walked ++ [cStr key]) = some v)
    (htype : ∀ c, type.toClass = some c → classOf v = c) :
    Coherent (b.visit key document type) where
  empty hempty := by cases hempty
  walk := by
    have := isWalk_concat h.walk key
    simpa [ValueBuilder.visit, walked] using this
  node := ⟨v, by rw [walked_visit]; exact hget⟩
  current := rfl
  value := ⟨v, hget, htype⟩
  last _ := (walked_visit b key document type).symm

/-- What `operator[]` can do: it visits a member, old or new. -/
theorem Coherent.subscript_cases (h : Coherent b) {key : Str} {b' : ValueBuilder}
    (hrun : b.subscript key = .ok b') :
    ∃ t, b.document.get? b.walked = some t ∧ t.IsObject ∧
      ((∃ v, t.child? (cStr key) = some v ∧
          b' = b.visit key b.document (.ofType (getType v))) ∨
        (t.child? (cStr key) = none ∧
          b' = b.visit key
            (JsonTree.update b.walked (JsonTree.append (cStr key) nullValue) b.document)
            .kUnknown)) := by
  obtain ⟨t, ht⟩ := h.node
  by_cases hobj : t.IsObject
  · refine ⟨t, ht, hobj, ?_⟩
    rw [h.subscript_eq key ht hobj] at hrun
    cases hfound : t.child? (cStr key) with
    | none => exact Or.inr ⟨rfl, by simpa [hfound] using hrun.symm⟩
    | some v => exact Or.inl ⟨v, rfl, by simpa [hfound] using hrun.symm⟩
  · rw [h.subscript_error key ht hobj] at hrun
    cases hrun

/-- A subscript reaches a member of the value at the end of the walk. -/
theorem Coherent.subscript_currentValue (h : Coherent b) {key : Str} {b' : ValueBuilder}
    (hrun : b.subscript key = .ok b') :
    b'.currentValue = some (ValuePtr.to (b.walked ++ [cStr key])) := by
  obtain ⟨t, -, -, ⟨v, -, rfl⟩ | ⟨-, rfl⟩⟩ := h.subscript_cases hrun
  · rfl
  · rfl

/-- It makes the walk one key longer. -/
theorem Coherent.walked_subscript (h : Coherent b) {key : Str} {b' : ValueBuilder}
    (hrun : b.subscript key = .ok b') : b'.walked = b.walked ++ [cStr key] := by
  obtain ⟨t, -, -, ⟨v, -, rfl⟩ | ⟨-, rfl⟩⟩ := h.subscript_cases hrun
  · exact walked_visit ..
  · exact walked_visit ..

/-- A member that was just appended is there. -/
theorem get?_append_member {document t : Rapidjson.Value} {l : Loc} {k : Str} (v : Rapidjson.Value)
    (hget : document.get? l = some t) (ht : t.IsObject) (hnew : t.child? k = none) :
    (JsonTree.update l (JsonTree.append k v) document).get? (l ++ [k]) = some v := by
  rw [JsonTree.get?_concat, JsonTree.get?_update_self, hget]
  simp [JsonTree.child?_append ht, hnew]

theorem Coherent.subscript (h : Coherent b) {key : Str} {b' : ValueBuilder}
    (hrun : b.subscript key = .ok b') : Coherent b' := by
  obtain ⟨t, ht, hobj, ⟨v, hv, rfl⟩ | ⟨hnone, rfl⟩⟩ := h.subscript_cases hrun
  · refine h.visit (v := v) ?_ ?_
    · rw [JsonTree.get?_concat, ht, Option.bind_some, hv]
    · intro c hc
      rw [toClass_ofType] at hc
      exact Option.some.inj hc
  · refine h.visit (v := nullValue) (get?_append_member _ ht hobj hnone) ?_
    intro c hc
    cases hc

/-- Ending the walk keeps the invariant. -/
theorem Coherent.clear (h : Coherent b) {isEmpty : Bool}
    (hempty : isEmpty = true → b.isEmpty = true) :
    Coherent { b with isEmpty := isEmpty, valueNodes := [] } where
  empty hisEmpty := ⟨(h.empty (hempty hisEmpty)).1, rfl, (h.empty (hempty hisEmpty)).2.2⟩
  walk := trivial
  node := ⟨_, rfl⟩
  current := h.current
  value := h.value
  last hne := absurd rfl hne

/-- So does writing the current value. -/
theorem Coherent.overwrite (h : Coherent b) {isEmpty : Bool} {value : Rapidjson.Value}
    {type : JsonValueType}
    (hempty : isEmpty = true → b.isEmpty = true ∧ value = emptyObject)
    (htype : ∀ c, type.toClass = some c → classOf value = c) :
    Coherent (b.overwrite isEmpty value type) where
  empty hisEmpty := by
    obtain ⟨hb, rfl⟩ := hempty hisEmpty
    obtain ⟨-, -, hloc⟩ := h.empty hb
    refine ⟨?_, rfl, hloc⟩
    simp [ValueBuilder.overwrite, hloc]
  walk := trivial
  node := ⟨_, rfl⟩
  current := h.current
  value := by
    obtain ⟨v, hv, -⟩ := h.value
    refine ⟨value, ?_, htype⟩
    have hloc : (b.overwrite isEmpty value type).currentLoc = b.currentLoc := rfl
    rw [hloc, ValueBuilder.overwrite, JsonTree.get?_update_self, hv, Option.map_some]
  last hne := absurd rfl hne

theorem Coherent.assign (h : Coherent b) {x : ScalarArg} {b' : ValueBuilder}
    (hrun : b.assign x = .ok b') : Coherent b' := by
  rw [h.assign_eq x] at hrun
  split at hrun
  · rename_i haccepts
    obtain rfl := Except.ok.inj hrun
    refine h.overwrite (by simp) ?_
    intro c hc
    rw [ScalarArg.classOf_stored]
    rcases x.toClass_newType b.currentType with hnew | hold
    · rw [hnew] at hc
      exact Option.some.inj hc
    · rw [hold] at hc
      rcases (x.accepts_iff _).1 haccepts with hunknown | hcls
      · rw [hunknown] at hc
        cases hc
      · rw [hcls] at hc
        exact Option.some.inj hc
  · obtain rfl := Except.ok.inj hrun
    exact h.clear (by simp)

theorem Coherent.createJsonObject (h : Coherent b) {b' : ValueBuilder}
    (hrun : b.createJsonObject = .ok b') : Coherent b' := by
  rw [h.createJsonObject_eq] at hrun
  split at hrun
  · obtain rfl := Except.ok.inj hrun
    refine h.overwrite (fun hb => ⟨hb, rfl⟩) ?_
    intro c hc
    exact Option.some.inj hc
  · obtain rfl := Except.ok.inj hrun
    exact h.clear (fun hb => hb)

theorem Coherent.embed (h : Coherent b) (other : ValueBuilder) : Coherent (b.embed other) := by
  obtain ⟨v, hv⟩ := h.node
  have hget : (b.embed other).document.get? b.walked = some other.document := by
    rw [ValueBuilder.embed, JsonTree.get?_update_self, hv, Option.map_some]
  exact {
    empty := fun hempty => by cases hempty
    walk := h.walk
    node := ⟨_, hget⟩
    current := rfl
    value := ⟨_, hget, fun c hc => by
      rw [ValueBuilder.embed, toClass_ofType] at hc
      exact Option.some.inj hc⟩
    last := fun _ => rfl }

/-- The builders that a program can hold. -/
inductive Reachable : ValueBuilder → Prop where
  | init : Reachable ValueBuilder.init
  | copy {b : ValueBuilder} : Reachable b → Reachable b.copy
  | subscript {b b' : ValueBuilder} {key : Str} :
      Reachable b → b.subscript key = .ok b' → Reachable b'
  | assign {b b' : ValueBuilder} {x : ScalarArg} :
      Reachable b → b.assign x = .ok b' → Reachable b'
  | createJsonObject {b b' : ValueBuilder} :
      Reachable b → b.createJsonObject = .ok b' → Reachable b'
  | assignBuilder {b b' other : ValueBuilder} :
      Reachable b → Reachable other → assignBuilder other b = .ok b' → Reachable b'

/-- Every builder that a program can hold meets the invariant. -/
theorem Reachable.inv (h : Reachable b) : Coherent b := by
  induction h with
  | init => exact Coherent.init
  | copy _ ih => exact ih.copy
  | subscript _ hrun ih => exact ih.subscript hrun
  | assign _ hrun ih => exact ih.assign hrun
  | createJsonObject _ hrun ih => exact ih.createJsonObject hrun
  | assignBuilder _ _ hrun ih _ =>
    rw [ih.assignBuilder_eq] at hrun
    obtain rfl := Except.ok.inj hrun
    exact ih.embed _

end ValueBuilder

end Piconaut.Formats.Json
