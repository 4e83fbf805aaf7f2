import Mathlib.Logic.Function.Basic
import Piconaut.Formats.Json.ValueMap

/-!
# Values are places

A `Value` holds a pointer into its document.  Seen from outside it is a `Place`: a
document, the member that the next assignment writes and `As` reads, if it is not the root,
and whether the next subscript starts over.  A place has no pointers.

A session is any program over any number of values: constructions, copies, assignments of
one value to another, subscripts, assignments of every type with a key or without one, and
calls of `As`, whose exceptions the program handles.  `valueSession_eq`: the values and the
places go through a session in step, read the same, and fail at the same call if one does.
So no pointer of a `Value` is ever null or stale, and `As` never finds a null value.
-/

namespace Piconaut.Formats.Json

open Piconaut.CppStd
open Piconaut.Rapidjson (Fault ValuePtr nullValue emptyObject load)

/-! ## Places -/

/-- What a value is, seen from outside. -/
structure Place where
  document : Rapidjson.Value
  /-- The member under the pointer, or the root. -/
  key : Option Str
  /-- The next subscript or assignment starts with an empty object. -/
  fresh : Bool

namespace Place

/-- A value that was just constructed. -/
def new : Place := ⟨emptyObject, none, true⟩

/-- A copy points to the root. -/
def copy (p : Place) : Place := { p with key := none }

/-- The document that a subscript works on. -/
def root (p : Place) : Rapidjson.Value := if p.fresh then emptyObject else p.document

/-- Move to a member of the root, which is added if it is missing. -/
def subscript (p : Place) (key : Str) : Except Fault Place :=
  if p.root.IsObject then .ok ⟨Value.touch (cStr key) p.root, some (cStr key), false⟩
  else .error .assertion

/-- The document with another value under the pointer. -/
def put (p : Place) (value : Rapidjson.Value) : Rapidjson.Value :=
  match p.key with
  | none => value
  | some key => JsonTree.mapMember key (fun _ => value) p.document

/-- An assignment. -/
def write (p : Place) (value : Rapidjson.Value) : Place := ⟨p.put value, p.key, false⟩

/-- An assignment of an optional without a value leaves a fresh value fresh. -/
def writeNull (p : Place) : Place := { p with document := p.put nullValue }

/-- What `As` reads. -/
def value (p : Place) : Rapidjson.Value :=
  match p.key with
  | none => p.document
  | some key => (p.document.child? key).getD nullValue

/-- The assignment of a typed argument. -/
def assign (p : Place) : MapArg → Place
  | .typed (.optional _) none => p.writeNull
  | x => p.write x.stored

/-- An element of an array, as `As<std::vector<Value>>` delivers it. -/
def element (value : Rapidjson.Value) : Place := ⟨value, none, true⟩

/-- The member under the pointer is there, and only the root is fresh. -/
structure WellFormed (p : Place) : Prop where
  member : ∀ key ∈ p.key, (p.document.child? key).isSome
  fresh : p.fresh = true → p.key = none

/-- The value at a place. -/
def toValue (p : Place) : Value := ⟨p.document, some (ValuePtr.to p.key.toList), p.fresh⟩

variable {p : Place}

/-! ## Calls on one value -/

theorem WellFormed.fresh_eq_false (h : p.WellFormed) {key : Str} (hkey : p.key = some key) :
    p.fresh = false := by
  by_contra hc
  rw [h.fresh (by simpa using hc)] at hkey
  cases hkey

theorem toValue_eq_member {key : Str} (hkey : p.key = some key) (hfresh : p.fresh = false) :
    p.toValue = Value.member p.document key := by
  rw [toValue, Value.member, hkey, hfresh]
  rfl

theorem document_ensureObject_toValue (p : Place) : p.toValue.ensureObject.document = p.root :=
  Value.document_ensureObject p.toValue

theorem subscript_toValue (p : Place) (key : Str) :
    p.toValue.subscript key = (p.subscript key).map toValue := by
  unfold subscript
  by_cases hobj : p.root.IsObject
  · rw [if_pos hobj, Value.subscript_eq _ _ (by rwa [document_ensureObject_toValue]),
      document_ensureObject_toValue]
    rfl
  · rw [if_neg hobj, Value.subscript_error _ _ (by rwa [document_ensureObject_toValue])]
    rfl

theorem assignStored_toValue (h : p.WellFormed) (value : Rapidjson.Value) :
    p.toValue.assignStored value = .ok (p.write value).toValue := by
  cases hkey : p.key with
  | none =>
    obtain ⟨document, key, fresh⟩ := p
    obtain rfl : key = none := hkey
    cases fresh <;> rfl
  | some key =>
    obtain ⟨old, hold⟩ := Option.isSome_iff_exists.1 (h.member key hkey)
    rw [toValue_eq_member hkey (h.fresh_eq_false hkey), Value.assignStored_member hold, write,
      put, hkey]
    rfl

/-- Without a value only the pointer is written through. -/
theorem assignNull_toValue (h : p.WellFormed) (T : ScalarType) :
    p.toValue.assignOptional T none = .ok p.writeNull.toValue := by
  cases hkey : p.key with
  | none =>
    obtain ⟨document, key, fresh⟩ := p
    obtain rfl : key = none := hkey
    rfl
  | some key =>
    obtain ⟨old, hold⟩ := Option.isSome_iff_exists.1 (h.member key hkey)
    have hfresh := h.fresh_eq_false hkey
    have hwrite : p.writeNull.toValue =
        Value.member (JsonTree.mapMember key (fun _ => nullValue) p.document) key := by
      rw [toValue_eq_member (p := p.writeNull) hkey hfresh, writeNull, put, hkey]
    rw [toValue_eq_member hkey hfresh, hwrite]
    exact Value.assignStored_member hold nullValue

theorem assign_toValue (h : p.WellFormed) (x : MapArg) :
    x.assign p.toValue = .ok (p.assign x).toValue := by
  cases x with
  | cstr s => exact assignStored_toValue h _
  | typed A x =>
    cases A with
    | scalar T => exact assignStored_toValue h _
    | vector T => exact assignStored_toValue h _
    | optional T =>
      cases x with
      | none => exact assignNull_toValue h T
      | some x => exact assignStored_toValue h _

theorem current_toValue (h : p.WellFormed) : p.toValue.current = .ok p.value := by
  cases hkey : p.key with
  | none =>
    obtain ⟨document, key, fresh⟩ := p
    obtain rfl : key = none := hkey
    rfl
  | some key =>
    obtain ⟨old, hold⟩ := Option.isSome_iff_exists.1 (h.member key hkey)
    rw [toValue_eq_member hkey (h.fresh_eq_false hkey), Value.current_member hold, value, hkey]
    simp [hold]

/-! ## Reading -/

/-- A value that points to the root of a document. -/
def reader (value : Rapidjson.Value) : Value := ⟨value, some ValuePtr.root, false⟩

/-- `As` depends on the value under the pointer only. -/
theorem as_congr {v v' : Value} (h : v.current = v'.current) (A : AsType) : A.as v = A.as v' := by
  have hscalar : ∀ T, Value.as T v = Value.as T v' := by
    intro T
    rw [Value.as, Value.as, h]
  cases A with
  | scalar T => exact hscalar T
  | optional T =>
    show Value.asOptional T v = Value.asOptional T v'
    rw [Value.asOptional, Value.asOptional, h, hscalar]
  | vector T =>
    show Value.asVector T v = Value.asVector T v'
    rw [Value.asVector, Value.asVector, Value.elements, Value.elements, h]

theorem as_toValue (h : p.WellFormed) (A : AsType) : A.as p.toValue = A.as (reader p.value) :=
  as_congr (current_toValue h) A

theorem elements_toValue (h : p.WellFormed) : p.toValue.elements = (reader p.value).elements := by
  rw [Value.elements, Value.elements, current_toValue h]
  rfl

/-! ## Well-formed places -/

theorem WellFormed.new : new.WellFormed := ⟨fun _ h => (by cases h), fun _ => rfl⟩

theorem WellFormed.copy (p : Place) : p.copy.WellFormed := ⟨fun _ h => (by cases h), fun _ => rfl⟩

theorem WellFormed.element (value : Rapidjson.Value) : (element value).WellFormed :=
  ⟨fun _ h => (by cases h), fun _ => rfl⟩

theorem WellFormed.subscript {p' : Place} {key : Str} (h : p.subscript key = .ok p') :
    p'.WellFormed := by
  unfold Place.subscript at h
  split at h
  · rename_i hobj
    obtain rfl := Except.ok.inj h
    refine ⟨?_, fun hc => by cases hc⟩
    rintro _ ⟨⟩
    rw [Value.child?_touch_self hobj]
    rfl
  · cases h

/-- The member is there after it was overwritten. -/
theorem isSome_child?_put (h : p.WellFormed) (value : Rapidjson.Value) :
    ∀ key ∈ p.key, ((p.put value).child? key).isSome := by
  intro key hkey
  obtain ⟨old, hold⟩ := Option.isSome_iff_exists.1 (h.member key hkey)
  have hput : p.put value = JsonTree.mapMember key (fun _ => value) p.document := by
    rw [put, Option.mem_def.1 hkey]
  rw [hput, JsonTree.child?_mapMember_self, hold]
  rfl

theorem WellFormed.write (h : p.WellFormed) (value : Rapidjson.Value) :
    (p.write value).WellFormed :=
  ⟨isSome_child?_put h value, fun hc => by cases hc⟩

theorem WellFormed.assign (h : p.WellFormed) (x : MapArg) : (p.assign x).WellFormed := by
  unfold Place.assign
  split
  · exact ⟨isSome_child?_put h nullValue, h.fresh⟩
  · exact h.write _

end Place

/-! ## Sessions -/

/-- What the program sees of a read: the result, or the exception that it handles. -/
inductive Reading where
  | typed (A : AsType) (result : Except StdException A.Carrier)
  /-- The size of a `std::vector<Value>`. -/
  | size (result : Except StdException Nat)

/-- Handle exceptions. -/
def caught {α : Type} : Except Fault α → Except Fault (Except StdException α)
  | .ok x => .ok (.ok x)
  | .error (.exception e) => .ok (.error e)
  | .error f => .error f

/-- A program over numbered values, with all that it has read. -/
structure Session (V : Type) where
  values : Nat → V
  readings : List Reading

namespace Session

variable {V W : Type}

/-- Replace a value. -/
def set (s : Session V) (i : Nat) (v : V) : Session V :=
  { s with values := Function.update s.values i v }

/-- Note a reading. -/
def note (s : Session V) (r : Reading) : Session V := { s with readings := s.readings ++ [r] }

/-- The session with each value seen through `f`. -/
def map (f : V → W) (s : Session V) : Session W := ⟨fun i => f (s.values i), s.readings⟩

theorem map_set (f : V → W) (s : Session V) (i : Nat) (v : V) :
    (s.set i v).map f = (s.map f).set i (f v) := by
  refine congrArg (Session.mk · s.readings) (funext fun j => ?_)
  by_cases hj : j = i
  · subst hj
    simp [set]
  · simp [set, map, hj]

end Session

/-- A statement of the program. -/
inductive ValueOp where
  | construct (i : Nat)
  /-- Construct `i` as a copy of `j`. -/
  | copy (i j : Nat)
  /-- Assign `j` to `i`. -/
  | assignValue (i j : Nat)
  | subscript (i : Nat) (key : Str)
  | assign (i : Nat) (x : MapArg)
  /-- Assign a vector of the values `js` to `i`. -/
  | assignValues (i : Nat) (js : List Nat)
  | read (i : Nat) (A : AsType)
  /-- Read a vector of values from `i`, and copy the element `n` to `j` if there is one. -/
  | readValues (i n j : Nat)

namespace ValueOp

/-- A statement on the values. -/
def step (s : Session Value) : ValueOp → Except Fault (Session Value)
  | construct i => .ok (s.set i .init)
  | copy i j => .ok (s.set i (s.values j).copy)
  | assignValue i j =>
    -- an assignment of a value to itself does nothing
    if i = j then .ok s else .ok (s.set i (Value.assignValue (s.values j) (s.values i)))
  | subscript i key => do
    let v ← (s.values i).subscript key
    return s.set i v
  | assign i x => do
    let v ← x.assign (s.values i)
    return s.set i v
  | assignValues i js => do
    let v ← (s.values i).assignValues (js.map s.values)
    return s.set i v
  | read i A => do
    let result ← caught (A.as (s.values i))
    return s.note (.typed A result)
  | readValues i n j => do
    let result ← caught (s.values i).asValues
    let s := s.note (.size (result.map List.length))
    match result.toOption.bind (·[n]?) with
    | some element => return s.set j element.copy
    | none => return s

/-- The same statement on their places. -/
def stepPlaces (s : Session Place) : ValueOp → Except Fault (Session Place)
  | construct i => .ok (s.set i .new)
  | copy i j => .ok (s.set i (s.values j).copy)
  | assignValue i j => if i = j then .ok s else .ok (s.set i (s.values j).copy)
  | subscript i key => do
    let p ← (s.values i).subscript key
    return s.set i p
  | assign i x => .ok (s.set i ((s.values i).assign x))
  | assignValues i js =>
    .ok (s.set i ((s.values i).write (.array (js.map fun j => (s.values j).document))))
  | read i A => do
    let result ← caught (A.as (Place.reader (s.values i).value))
    return s.note (.typed A result)
  | readValues i n j => do
    let result ← caught (Place.reader (s.values i).value).elements
    let s := s.note (.size (result.map List.length))
    match result.toOption.bind (·[n]?) with
    | some element => return s.set j (.element element)
    | none => return s

end ValueOp

/-- A session that starts with fresh values. -/
def valueSession (ops : List ValueOp) : Except Fault (Session Value) :=
  ops.foldlM ValueOp.step ⟨fun _ => .init, []⟩

/-- A session that starts with fresh places. -/
def placeSession (ops : List ValueOp) : Except Fault (Session Place) :=
  ops.foldlM ValueOp.stepPlaces ⟨fun _ => .new, []⟩

/-! ## In step -/

namespace Session

/-- All places are well formed. -/
def WellFormed (s : Session Place) : Prop := ∀ i, (s.values i).WellFormed

/-- The values at the places. -/
def toValues (s : Session Place) : Session Value := s.map Place.toValue

variable {s s' : Session Place}

theorem WellFormed.set (h : s.WellFormed) {p : Place} (hp : p.WellFormed) (i : Nat) :
    (s.set i p).WellFormed := by
  intro j
  by_cases hj : j = i
  · subst hj
    simpa [Session.set] using hp
  · simpa [Session.set, hj] using h j

theorem toValues_set (s : Session Place) (i : Nat) (p : Place) :
    (s.set i p).toValues = s.toValues.set i p.toValue :=
  map_set ..

/-- Every statement keeps the places well formed. -/
theorem WellFormed.stepPlaces (h : s.WellFormed) {op : ValueOp} (hstep : op.stepPlaces s = .ok s') :
    s'.WellFormed := by
  cases op with
  | construct i =>
    obtain rfl := Except.ok.inj hstep
    exact h.set .new i
  | copy i j =>
    obtain rfl := Except.ok.inj hstep
    exact h.set (.copy _) i
  | assignValue i j =>
    rw [ValueOp.stepPlaces] at hstep
    split at hstep
    · obtain rfl := Except.ok.inj hstep
      exact h
    · obtain rfl := Except.ok.inj hstep
      exact h.set (.copy _) i
  | subscript i key =>
    obtain ⟨p, hp, hrest⟩ := ExceptRun.bind_eq_ok_iff.1 hstep
    obtain rfl := Except.ok.inj hrest
    exact h.set (.subscript hp) i
  | assign i x =>
    obtain rfl := Except.ok.inj hstep
    exact h.set ((h i).assign x) i
  | assignValues i js =>
    obtain rfl := Except.ok.inj hstep
    exact h.set ((h i).write _) i
  | read i A =>
    obtain ⟨result, -, hrest⟩ := ExceptRun.bind_eq_ok_iff.1 hstep
    obtain rfl := Except.ok.inj hrest
    exact h
  | readValues i n j =>
    obtain ⟨result, -, hrest⟩ := ExceptRun.bind_eq_ok_iff.1 hstep
    dsimp only at hrest
    split at hrest
    · obtain rfl := Except.ok.inj hrest
      exact WellFormed.set (s := s.note _) h (.element _) j
    · obtain rfl := Except.ok.inj hrest
      exact h

/-- A statement on the places is the statement on their values. -/
theorem WellFormed.toValues_stepPlaces (h : s.WellFormed) (op : ValueOp) :
    (op.stepPlaces s).map toValues = op.step s.toValues := by
  cases op with
  | construct i => exact congrArg Except.ok (toValues_set ..)
  | copy i j => exact congrArg Except.ok (toValues_set ..)
  | assignValue i j =>
    rw [ValueOp.stepPlaces, ValueOp.step]
    split
    · rfl
    · exact congrArg Except.ok (toValues_set ..)
  | subscript i key =>
    have hvalue : s.toValues.values i = (s.values i).toValue := rfl
    rw [ValueOp.stepPlaces, ValueOp.step, hvalue, Place.subscript_toValue]
    cases (s.values i).subscript key with
    | error f => rfl
    | ok p => exact congrArg Except.ok (toValues_set ..)
  | assign i x =>
    have hvalue : s.toValues.values i = (s.values i).toValue := rfl
    rw [ValueOp.stepPlaces, ValueOp.step, hvalue, Place.assign_toValue (h i)]
    exact congrArg Except.ok (toValues_set ..)
  | assignValues i js =>
    have hvalue : s.toValues.values i = (s.values i).toValue := rfl
    rw [ValueOp.stepPlaces, ValueOp.step, hvalue, Value.assignValues,
      Place.assignStored_toValue (h i), List.map_map]
    exact congrArg Except.ok (toValues_set ..)
  | read i A =>
    have hvalue : s.toValues.values i = (s.values i).toValue := rfl
    rw [ValueOp.stepPlaces, ValueOp.step, hvalue, Place.as_toValue (h i)]
    cases caught (A.as (Place.reader (s.values i).value)) with
    | error f => rfl
    | ok result => rfl
  | readValues i n j =>
    have hvalue : s.toValues.values i = (s.values i).toValue := rfl
    rw [ValueOp.stepPlaces, ValueOp.step, hvalue, Value.asValues, Place.elements_toValue (h i)]
    cases (Place.reader (s.values i).value).elements with
    | error f => cases f <;> rfl
    | ok es =>
      have hsize : (es.map Value.ofElement).length = es.length := List.length_map _
      cases hget : es[n]? with
      | none => simp [caught, hget, hsize, Except.toOption, Except.map, toValues, map, note]
      | some element =>
        have hset : ((s.note (.size (.ok es.length))).set j (.element element)).toValues =
            (s.toValues.note (.size (.ok es.length))).set j (Value.ofElement element).copy :=
          toValues_set ..
        simpa [caught, hget, hsize, Except.toOption, Except.map] using hset

end Session

/-- The values and the places go through every session in step, and read the same. -/
theorem valueSession_eq (ops : List ValueOp) :
    valueSession ops = (placeSession ops).map Session.toValues := by
  have hnew : Session.WellFormed ⟨fun _ => .new, []⟩ := fun _ => .new
  exact (ExceptRun.map_foldlM (fun _ _ _ h hstep => h.stepPlaces hstep)
    (fun _ op h => h.toValues_stepPlaces op) hnew ops).symm

end Piconaut.Formats.Json
