import Piconaut.Rapidjson.Value

/-!
# `piconaut::formats::json::ValueBuilder`

A builder writes a document through one interface: `operator[]` walks to a
member and returns the builder itself, and an assignment or `CreateJsonObject`
writes what the walk reached.  The state between the calls is the path walked so
far (`value_nodes_`), the value it reached (`current_value_`), the type that
value is believed to have (`current_type_`), and whether the root is still to
be made an object (`is_empty_`).

The seven scalar assignments are one function, `assignScalar`, with the types a
call accepts and the type it records as parameters.  Two of them record none.
The serializers and the messages on `std::cerr` are left out.
-/

namespace Piconaut.Formats.Json

open Piconaut.CppStd Piconaut.Rapidjson

/-- `enum class JsonValueType`. -/
inductive JsonValueType where
  | kUnknown
  | kNullType
  | kFalseType
  | kTrueType
  | kObjectType
  | kArrayType
  | kStringType
  | kNumberType
  deriving DecidableEq

/-- `static_cast<JsonValueType>` of a `rapidjson::Type`. -/
def JsonValueType.ofType : ValueType → JsonValueType
  | .kNullType => .kNullType
  | .kFalseType => .kFalseType
  | .kTrueType => .kTrueType
  | .kObjectType => .kObjectType
  | .kArrayType => .kArrayType
  | .kStringType => .kStringType
  | .kNumberType => .kNumberType

/-- `struct JsonBuilderNode`. -/
structure JsonBuilderNode where
  key : Str
  value : ValuePtr
  deriving DecidableEq

/-- `class ValueBuilder`.  A null `current_value_` is `none`. -/
structure ValueBuilder where
  document : Rapidjson.Value
  currentValue : Option ValuePtr
  isEmpty : Bool
  currentType : JsonValueType
  valueNodes : List JsonBuilderNode

namespace ValueBuilder

/-- `ValueBuilder::ValueBuilder()`. -/
def init : ValueBuilder := ⟨emptyObject, some ValuePtr.root, true, .kUnknown, []⟩

/-- `ValueBuilder::ValueBuilder(const ValueBuilder& other)`. -/
def copy (other : ValueBuilder) : ValueBuilder :=
  ⟨other.document, some ValuePtr.root, other.isEmpty, .kUnknown, []⟩

/-- `ValueBuilder::GetNodeValue`. -/
def getNodeValue (b : ValueBuilder) : ValuePtr :=
  match b.valueNodes.getLast? with
  | none => ValuePtr.root
  | some node => node.value

/-- Write the value at `l`, with the effect on every pointer the builder holds. -/
def store (b : ValueBuilder) (l : Loc) (f : Rapidjson.Value → Rapidjson.Value) : ValueBuilder :=
  { b with
    document := JsonTree.update l f b.document
    currentValue := b.currentValue.map (ValuePtr.afterWrite l)
    valueNodes := b.valueNodes.map fun node =>
      { node with value := node.value.afterWrite l } }

/-- The common first lines of the operators. -/
def ensureObject (b : ValueBuilder) : ValueBuilder :=
  if b.isEmpty then
    { b.store [] (fun _ => emptyObject) with isEmpty := false }
  else b

/-- `ValueBuilder::operator[]`.  The key is read as a C string and recorded
whole. -/
def subscript (b : ValueBuilder) (key : Str) : Except Fault ValueBuilder := do
  let b := b.ensureObject
  let nodeValue := b.getNodeValue
  let object ← load b.document nodeValue
  let found ← hasMember object (cStr key)
  let member := ValuePtr.to (nodeValue.loc ++ [cStr key])
  let b ←
    if found then do
      let value ← load b.document member
      pure { b with currentType := .ofType (getType value) }
    else
      pure { b.store nodeValue.loc (JsonTree.append (cStr key) nullValue) with
        currentType := .kUnknown }
  return { b with
    currentValue := some member
    valueNodes := b.valueNodes ++ [⟨key, member⟩] }

/-- `ValueBuilder::CreateJsonObject`. -/
def createJsonObject (b : ValueBuilder) : Except Fault ValueBuilder := do
  match b.currentValue with
  | none =>
    throw (.exception (.runtimeError
      (str ("please call `json[\"key_name\"].CreateJsonObject()` before call " ++
        "CreateJsonObject on root"))))
  | some current =>
    if b.currentType = .kUnknown then
      let _ ← load b.document current
      let b := b.store current.loc fun _ => emptyObject
      return { b with currentType := .kObjectType, valueNodes := [] }
    else
      return { b with valueNodes := [] }

/-- The scalar assignments.  A call accepts some cached types, writes `value`,
and records `newType` if it records any. -/
def assignScalar (accepts : JsonValueType → Bool) (newType : Option JsonValueType)
    (value : Rapidjson.Value) (b : ValueBuilder) : Except Fault ValueBuilder := do
  let b := b.ensureObject
  match b.currentValue with
  | none => return b
  | some current =>
    if accepts b.currentType then
      let _ ← load b.document current
      let b := b.store current.loc fun _ => value
      return { b with currentType := newType.getD b.currentType, valueNodes := [] }
    else
      return { b with valueNodes := [] }

/-- The types over which a string may be written. -/
def acceptsString (t : JsonValueType) : Bool := t = .kUnknown || t = .kStringType

/-- The types over which a number may be written. -/
def acceptsNumber (t : JsonValueType) : Bool := t = .kUnknown || t = .kNumberType

/-- The types over which a boolean may be written. -/
def acceptsBool (t : JsonValueType) : Bool :=
  t = .kUnknown || t = .kFalseType || t = .kTrueType

/-- `operator=(const std::string& value)`. -/
def assignString (value : Str) : ValueBuilder → Except Fault ValueBuilder :=
  assignScalar acceptsString (some .kStringType) (.scalar (.string (cStr value)))

/-- `operator=(unsigned int value)`. -/
def assignUInt (value : UInt32) : ValueBuilder → Except Fault ValueBuilder :=
  assignScalar acceptsNumber (some .kNumberType) (.scalar (.number (.integer value.toNat)))

/-- `operator=(int value)`. -/
def assignInt (value : Int32) : ValueBuilder → Except Fault ValueBuilder :=
  assignScalar acceptsNumber (some .kNumberType) (.scalar (.number (.integer value.toInt)))

/-- `operator=(double value)`. -/
def assignDouble (value : Float) : ValueBuilder → Except Fault ValueBuilder :=
  assignScalar acceptsNumber (some .kNumberType) (.scalar (.number (.double value)))

/-- `operator=(float value)`. -/
def assignFloat (value : Float32) : ValueBuilder → Except Fault ValueBuilder :=
  assignScalar acceptsNumber (some .kNumberType) (.scalar (.number (.double value.toFloat)))

/-- `operator=(bool value)`, which leaves `current_type_` alone. -/
def assignBool (value : Bool) : ValueBuilder → Except Fault ValueBuilder :=
  assignScalar acceptsBool none (.scalar (.bool value))

/-- `operator=(const char* value)`, which leaves `current_type_` alone. -/
def assignCStr (value : Str) : ValueBuilder → Except Fault ValueBuilder :=
  assignScalar acceptsString none (.scalar (.string (cStr value)))

/-- `operator=(const ValueBuilder& other)` for a builder other than this one.
It does not look at `current_type_` and does not clear `value_nodes_`. -/
def assignBuilder (other b : ValueBuilder) : Except Fault ValueBuilder := do
  let b := b.ensureObject
  let node := b.getNodeValue
  let _ ← load b.document node
  let b := b.store node.loc fun _ => other.document
  return { b with
    currentType := .ofType (getType other.document)
    currentValue := some node }

end ValueBuilder

/-! ## Right-hand sides -/

/-- The argument of a scalar assignment. -/
inductive ScalarArg where
  | string (value : Str)
  | cstr (value : Str)
  | uint (value : UInt32)
  | int (value : Int32)
  | double (value : Float)
  | float (value : Float32)
  | bool (value : Bool)

/-- `b = x`, with the overload that C++ selects. -/
def ValueBuilder.assign (x : ScalarArg) : ValueBuilder → Except Fault ValueBuilder :=
  match x with
  | .string value => assignString value
  | .cstr value => assignCStr value
  | .uint value => assignUInt value
  | .int value => assignInt value
  | .double value => assignDouble value
  | .float value => assignFloat value
  | .bool value => assignBool value

/-- `json[k1]...[kn]`. -/
def ValueBuilder.subscripts (b : ValueBuilder) (keys : List Str) :
    Except Fault ValueBuilder :=
  keys.foldlM ValueBuilder.subscript b

end Piconaut.Formats.Json
