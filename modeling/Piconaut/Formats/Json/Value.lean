import Piconaut.Rapidjson.Value

/-!
# `piconaut::formats::json::Value`

A `Value` owns a document and points to the value that the last subscript
reached.  `operator[]` looks only at the root, so the pointer is never more than
one member deep.  `is_empty_` says that the root is still to be made an object;
the next `operator[]` or assignment then replaces it.

The overloads for `std::string`, `int`, `double` and `bool`, their optionals and
their vectors differ in the type only, and the type is a parameter of theirs.  So
it is with `As<T>`.  `SerializeToBytes` is left out.
-/

namespace Piconaut.Formats.Json

open Piconaut.CppStd
open Piconaut.Rapidjson (Scalar Fault Loc ValuePtr load hasMember nullValue emptyObject)

/-! ## Scalar types -/

/-- The types of the scalar overloads. -/
inductive ScalarType where
  | string
  | int
  | double
  | bool
  deriving DecidableEq

namespace ScalarType

/-- The values of a type. -/
abbrev Carrier : ScalarType → Type
  | string => Str
  | int => Int32
  | double => Float
  | bool => Bool

/-- `rapidjson::Value(x)`.  A string is read up to its first NUL. -/
def toValue : (T : ScalarType) → T.Carrier → Rapidjson.Value
  | string, s => .scalar (.string (cStr s))
  | int, i => .scalar (.number (.integer i.toInt))
  | double, d => .scalar (.number (.double d))
  | bool, b => .scalar (.bool b)

/-- `IsString` and `GetString`, `IsInt` and `GetInt`, and so on. -/
def get? : (T : ScalarType) → Rapidjson.Value → Option T.Carrier
  | string, .scalar (.string s) => some (cStr s)
  | int, .scalar (.number (.integer i)) =>
    if Int32.minValue.toInt ≤ i ∧ i ≤ Int32.maxValue.toInt then some (Int32.ofInt i) else none
  | double, .scalar (.number (.double d)) => some d
  | bool, .scalar (.bool b) => some b
  | _, _ => none

/-- The type as the error messages name it. -/
def article : ScalarType → String
  | string => "a string"
  | int => "an integer"
  | double => "a double"
  | bool => "a boolean"

end ScalarType

/-- `throw std::runtime_error(what)`. -/
def runtimeError {α : Type} (what : String) : Except Fault α :=
  .error (.exception (.runtimeError (str what)))

/-! ## The class -/

/-- `class Value`.  A null `current_value_` is `none`. -/
structure Value where
  document : Rapidjson.Value
  currentValue : Option ValuePtr
  isEmpty : Bool

namespace Value

/-- `Value::Value()`. -/
def init : Value := ⟨emptyObject, some ValuePtr.root, true⟩

/-- `Value::Value(const Value& other)`. -/
def copy (other : Value) : Value := ⟨other.document, some ValuePtr.root, other.isEmpty⟩

/-- `operator=(const Value& other)` for a value other than this one. -/
def assignValue (other _v : Value) : Value :=
  ⟨other.document, some ValuePtr.root, other.isEmpty⟩

/-- Write the value at `l`, with the effect on `current_value_`. -/
def store (v : Value) (l : Loc) (f : Rapidjson.Value → Rapidjson.Value) : Value :=
  { v with
    document := JsonTree.update l f v.document
    currentValue := v.currentValue.map (ValuePtr.afterWrite l) }

/-- The common first lines of the operators. -/
def ensureObject (v : Value) : Value :=
  if v.isEmpty then
    { v.store [] (fun _ => emptyObject) with isEmpty := false }
  else v

/-- `Value::operator[]`. -/
def subscript (v : Value) (key : Str) : Except Fault Value := do
  let v := v.ensureObject
  let found ← hasMember v.document (cStr key)
  let v :=
    if found then v
    else v.store [] (JsonTree.append (cStr key) nullValue)
  return { v with currentValue := some (ValuePtr.to [cStr key]) }

/-- `*current_value_ = value`. -/
def writeCurrent (value : Rapidjson.Value) (v : Value) (current : ValuePtr) :
    Except Fault Value := do
  let _ ← load v.document current
  return v.store current.loc fun _ => value

/-- The assignments that make the root an object and do nothing if
`current_value_` is null. -/
def assignStored (value : Rapidjson.Value) (v : Value) : Except Fault Value :=
  let v := v.ensureObject
  match v.currentValue with
  | none => .ok v
  | some current => writeCurrent value v current

/-- `operator=(const std::string&)`, `operator=(int)`, `operator=(double)` and
`operator=(bool)`. -/
def assign (T : ScalarType) (x : T.Carrier) : Value → Except Fault Value :=
  assignStored (T.toValue x)

/-- `operator=(const char*)`. -/
def assignCStr (x : Str) : Value → Except Fault Value :=
  assignStored (.scalar (.string (cStr x)))

/-- `operator=(const std::optional<T>&)`.  Without a value it writes through
`current_value_` and touches nothing else. -/
def assignOptional (T : ScalarType) (x : Option T.Carrier) (v : Value) : Except Fault Value :=
  match x with
  | some x => v.assign T x
  | none =>
    match v.currentValue with
    | none => .error .dangling
    | some current => writeCurrent nullValue v current

/-- `operator=(const std::vector<Value>&)`. -/
def assignValues (items : List Value) : Value → Except Fault Value :=
  assignStored (.array (items.map Value.document))

/-- `operator=(const std::vector<T>&)`. -/
def assignVector (T : ScalarType) (items : List T.Carrier) : Value → Except Fault Value :=
  assignStored (.array (items.map T.toValue))

/-! ## Reading -/

/-- `*current_value_` in `As<T>`. -/
def current (v : Value) : Except Fault Rapidjson.Value :=
  match v.currentValue with
  | none => runtimeError "Null JSON value"
  | some current => load v.document current

/-- `As<T>` for a scalar type. -/
def as (T : ScalarType) (v : Value) : Except Fault T.Carrier := do
  let value ← v.current
  match T.get? value with
  | some x => return x
  | none => runtimeError ("JSON value is not " ++ T.article)

/-- `As<std::optional<T>>`. -/
def asOptional (T : ScalarType) (v : Value) : Except Fault (Option T.Carrier) := do
  let value ← v.current
  match value with
  | .scalar .null => return none
  | _ => some <$> v.as T

/-- The elements of the array that `As` reads. -/
def elements (v : Value) : Except Fault (List Rapidjson.Value) := do
  let value ← v.current
  match value with
  | .array es => return es
  | _ => runtimeError "JSON value is not an array"

/-- The element that `As<std::vector<Value>>` makes of an array element: a fresh
`Value` whose document is overwritten, as the vector copies it. -/
def ofElement (e : Rapidjson.Value) : Value := { init with document := e }.copy

/-- `As<std::vector<Value>>`. -/
def asValues (v : Value) : Except Fault (List Value) := do
  let es ← v.elements
  return es.map ofElement

/-- `As<std::vector<T>>`. -/
def asVector (T : ScalarType) (v : Value) : Except Fault (List T.Carrier) := do
  let es ← v.elements
  es.mapM fun e =>
    match T.get? e with
    | some x => .ok x
    | none => runtimeError ("JSON array element is not " ++ T.article)

/-! ## Keyed access -/

theorem document_ensureObject (v : Value) :
    v.ensureObject.document =
      if v.isEmpty then emptyObject else v.document := by
  unfold ensureObject
  split <;> rfl

/-- It does not change a document that is fresh while the value is empty. -/
theorem document_ensureObject_of_fresh {v : Value}
    (h : v.isEmpty = true → v.document = emptyObject) : v.ensureObject.document = v.document := by
  rw [document_ensureObject]
  split
  · rename_i hempty
    exact (h hempty).symm
  · rfl

@[simp] theorem isEmpty_ensureObject (v : Value) : v.ensureObject.isEmpty = false := by
  unfold ensureObject
  split
  · rfl
  · rename_i h
    simpa using h

/-- An object with a member called `name`, a null member if it had none. -/
def touch (name : Str) (document : Rapidjson.Value) : Rapidjson.Value :=
  match document.child? name with
  | some _ => document
  | none => JsonTree.append name nullValue document

theorem child?_touch_self {document : Rapidjson.Value} (h : document.IsObject) (name : Str) :
    (touch name document).child? name =
      some ((document.child? name).getD nullValue) := by
  unfold touch
  cases hfound : document.child? name with
  | some old => simp [hfound]
  | none => simp [JsonTree.child?_append h, hfound]

theorem touch_of_child? {document old : Rapidjson.Value} {name : Str}
    (h : document.child? name = some old) : touch name document = document := by
  rw [touch, h]

/-- The value whose current value is the member called `name`. -/
def member (document : Rapidjson.Value) (name : Str) : Value :=
  ⟨document, some (ValuePtr.to [name]), false⟩

/-- `operator[]` reaches the member, and adds a null member if there is none. -/
theorem subscript_eq (v : Value) (key : Str) (h : v.ensureObject.document.IsObject) :
    v.subscript key =
      .ok (member (touch (cStr key) v.ensureObject.document) (cStr key)) := by
  unfold subscript touch
  simp only [Rapidjson.hasMember_object h]
  cases hfound : v.ensureObject.document.child? (cStr key) with
  | none => simp [member, store]
  | some old => simp [member]

/-- A second subscript of the same member changes nothing. -/
theorem subscript_member {document old : Rapidjson.Value} {key : Str}
    (h : document.child? (cStr key) = some old) :
    (member document (cStr key)).subscript key = .ok (member document (cStr key)) := by
  have hdoc : (member document (cStr key)).ensureObject.document = document := rfl
  rw [subscript_eq _ _ (hdoc ▸ JsonTree.isObject_of_child? h), hdoc, touch_of_child? h]

/-- On a root that is no object it asserts. -/
theorem subscript_error (v : Value) (key : Str) (h : ¬ v.ensureObject.document.IsObject) :
    v.subscript key = .error .assertion := by
  unfold subscript
  simp [Rapidjson.hasMember_error h]

/-- An assignment to a member that is there overwrites it. -/
theorem assignStored_member {document old : Rapidjson.Value} {name : Str}
    (h : document.child? name = some old) (value : Rapidjson.Value) :
    (member document name).assignStored value =
      .ok (member (JsonTree.mapMember name (fun _ => value) document) name) := by
  have hload : load document (ValuePtr.to [name]) = .ok old :=
    Rapidjson.load_to ((document.get?_singleton name).trans h)
  simp [assignStored, ensureObject, member, writeCurrent, hload, store,
    JsonTree.update_singleton]

/-- What `As` reads at a member that is there. -/
theorem current_member {document value : Rapidjson.Value} {name : Str}
    (h : document.child? name = some value) : (member document name).current = .ok value :=
  Rapidjson.load_to ((document.get?_singleton name).trans h)

end Value

end Piconaut.Formats.Json
