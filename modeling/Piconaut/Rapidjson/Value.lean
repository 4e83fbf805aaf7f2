import Piconaut.CppStd.Strings
import Piconaut.Lib.ExceptRun
import Piconaut.Lib.JsonTree

/-!
# RapidJSON values

What the repository uses of RapidJSON, which is a dependency and not part of the
tree.  A `rapidjson::Value` is a scalar, an array, or an object with an ordered
member list: `HasMember` and `operator[]` look a name up in it, and `AddMember`
appends to it.  Each of the three asserts that the value is an object.

A `rapidjson::Value*` into a document is the location of the value and a flag.
The memory below a value goes away when the value is overwritten, and it may
move when a member is added.  A write at a location therefore clears the flag of
every pointer strictly below it, and `load` refuses a pointer whose flag is
cleared.
-/

namespace Piconaut.Rapidjson

open Piconaut.CppStd

/-- A number.  The flags of an integer follow from its value, so the type it was
stored from is not kept. -/
inductive Number where
  | integer (i : Int)
  | double (d : Float)

/-- Values without members or elements. -/
inductive Scalar where
  | null
  | bool (b : Bool)
  | number (n : Number)
  | string (s : Str)

/-- `rapidjson::Value`. -/
abbrev Value := JsonTree Str Scalar

/-- `rapidjson::Type`. -/
inductive ValueType where
  | kNullType
  | kFalseType
  | kTrueType
  | kObjectType
  | kArrayType
  | kStringType
  | kNumberType
  deriving DecidableEq

/-- `Value()`, the null value. -/
def nullValue : Value := .scalar .null

/-- `Value(kObjectType)`. -/
def emptyObject : Value := .object []

/-- `Value::GetType`. -/
def getType : Value → ValueType
  | .scalar .null => .kNullType
  | .scalar (.bool false) => .kFalseType
  | .scalar (.bool true) => .kTrueType
  | .scalar (.number _) => .kNumberType
  | .scalar (.string _) => .kStringType
  | .array _ => .kArrayType
  | .object _ => .kObjectType

/-- What stops a call before it returns. -/
inductive Fault where
  /-- `RAPIDJSON_ASSERT` -/
  | assertion
  /-- A pointer is followed to memory that was freed or moved. -/
  | dangling
  | exception (e : StdException)
  deriving DecidableEq

/-- `Value::HasMember`. -/
def hasMember (v : Value) (name : Str) : Except Fault Bool :=
  match v with
  | .object _ => .ok (v.child? name).isSome
  | _ => .error .assertion

theorem hasMember_object {v : Value} (h : v.IsObject) (name : Str) :
    hasMember v name = .ok (v.child? name).isSome := by
  obtain ⟨ms, rfl⟩ := h
  rfl

theorem hasMember_error {v : Value} (h : ¬ v.IsObject) (name : Str) :
    hasMember v name = .error .assertion := by
  cases v with
  | scalar s => rfl
  | array es => rfl
  | object ms => exact absurd ⟨ms, rfl⟩ h

/-! ## Pointers into a document -/

/-- The member names that lead to a value from the root of its document. -/
abbrev Loc := List Str

/-- A `rapidjson::Value*`. -/
structure ValuePtr where
  loc : Loc
  live : Bool
  deriving DecidableEq

/-- `&document_`. -/
def ValuePtr.root : ValuePtr := ⟨[], true⟩

/-- A pointer to a location that was just looked up. -/
def ValuePtr.to (l : Loc) : ValuePtr := ⟨l, true⟩

/-- The location `l` is strictly below `w`. -/
def strictlyBelow (w l : Loc) : Bool := w.isPrefixOf l && w.length < l.length

/-- What a write at `w` leaves of a pointer. -/
def ValuePtr.afterWrite (w : Loc) (p : ValuePtr) : ValuePtr :=
  { p with live := p.live && !strictlyBelow w p.loc }

/-- The value that a pointer points to. -/
def load (document : Value) (p : ValuePtr) : Except Fault Value :=
  if p.live then
    match document.get? p.loc with
    | some v => .ok v
    | none => .error .dangling
  else .error .dangling

@[simp] theorem ValuePtr.to_loc (l : Loc) : (ValuePtr.to l).loc = l := rfl

theorem strictlyBelow_eq_false {w l : Loc} (h : l <+: w) : strictlyBelow w l = false := by
  have hlen : ¬ w.length < l.length := Nat.not_lt.2 h.length_le
  simp [strictlyBelow, hlen]

/-- A write keeps the pointers to the location itself and to what is above it. -/
theorem ValuePtr.afterWrite_to {w l : Loc} (h : l <+: w) :
    (ValuePtr.to l).afterWrite w = ValuePtr.to l := by
  simp [ValuePtr.to, ValuePtr.afterWrite, strictlyBelow_eq_false h]

/-- A write at a location leaves the pointer to it valid. -/
@[simp] theorem ValuePtr.afterWrite_to_self (l : Loc) :
    (ValuePtr.to l).afterWrite l = ValuePtr.to l :=
  afterWrite_to (List.prefix_refl l)

theorem load_to {document v : Value} {l : Loc} (h : document.get? l = some v) :
    load document (ValuePtr.to l) = .ok v := by
  simp [load, ValuePtr.to, h]

end Piconaut.Rapidjson
