import Mathlib.Data.List.Induction
import Piconaut.Formats.Json.Value
import Piconaut.Lib.LastMatch
import Piconaut.Lib.MemberNames
import Piconaut.Lib.PartialMap

/-!
# `Value` as a map

`v[key] = x` and `v[key].As<T>()` use a `Value` as a map from keys to typed
values.  `AsType` lists the types that both sides know, `AsType.stored` is the
RapidJSON value that an assignment leaves, and `AsType.as_stored` says that `As`
of the same type reads it back.

A read changes the document: `operator[]` adds a null member for a key it does not
find.  `Represents` is the invariant of a run of assignments and reads.  The
document holds what was assigned last under each key, and has one member for each
key that was subscripted.  `MapOp.step_spec` is the step lemma, and
`value_lastWriteWins` the result for a run.
-/

namespace Piconaut.Formats.Json

open Piconaut.CppStd
open Piconaut.Rapidjson (Fault ValuePtr nullValue emptyObject)

/-! ## Assignments and extractions by type -/

/-- A string without a NUL byte, or any other value. -/
def ScalarType.NulFree : (T : ScalarType) → T.Carrier → Prop
  | .string, s => 0 ∉ s
  | _, _ => True

/-- The types `T` of the assignments and of `As<T>`, other than
`std::vector<Value>`. -/
inductive AsType where
  | scalar (T : ScalarType)
  | optional (T : ScalarType)
  | vector (T : ScalarType)
  deriving DecidableEq

namespace AsType

/-- The values of a type. -/
abbrev Carrier : AsType → Type
  | scalar T => T.Carrier
  | optional T => Option T.Carrier
  | vector T => List T.Carrier

/-- The `operator=` of a type. -/
def assign : (A : AsType) → A.Carrier → Value → Except Fault Value
  | scalar T, x => Value.assign T x
  | optional T, x => Value.assignOptional T x
  | vector T, xs => Value.assignVector T xs

/-- `As<T>`. -/
def as : (A : AsType) → Value → Except Fault A.Carrier
  | scalar T => Value.as T
  | optional T => Value.asOptional T
  | vector T => Value.asVector T

/-- All strings in the value are without NUL bytes. -/
def NulFree : (A : AsType) → A.Carrier → Prop
  | scalar T, x => T.NulFree x
  | optional T, x => ∀ y ∈ x, T.NulFree y
  | vector T, xs => ∀ y ∈ xs, T.NulFree y

/-- What an assignment leaves in the document. -/
def stored : (A : AsType) → A.Carrier → Rapidjson.Value
  | scalar T, x => T.toValue x
  | optional T, x => (x.map T.toValue).getD nullValue
  | vector T, xs => .array (xs.map T.toValue)

end AsType

/-- What is stored for a scalar is read back. -/
theorem ScalarType.get?_toValue {T : ScalarType} {x : T.Carrier} (h : T.NulFree x) :
    T.get? (T.toValue x) = some x := by
  cases T with
  | string =>
    have hself : cStr x = x := cStr_of_not_mem h
    show some (cStr (cStr x)) = some x
    rw [hself, hself]
  | int =>
    have hbounds : Int32.minValue.toInt ≤ x.toInt ∧ x.toInt ≤ Int32.maxValue.toInt :=
      ⟨x.minValue_le_toInt, x.toInt_le⟩
    show (if _ then some (Int32.ofInt x.toInt) else none) = some x
    rw [if_pos hbounds, Int32.ofInt_toInt]
  | double => rfl
  | bool => rfl

theorem Value.as_member {T : ScalarType} {x : T.Carrier} (hx : T.NulFree x)
    {document : Rapidjson.Value} {name : Str} (h : document.child? name = some (T.toValue x)) :
    Value.as T (Value.member document name) = .ok x := by
  rw [Value.as, Value.current_member h]
  simp only [ExceptRun.ok_bind, ScalarType.get?_toValue hx]
  rfl

/-- The elements of a stored vector are read back. -/
theorem mapM_get?_toValue {T : ScalarType} {xs : List T.Carrier} (h : ∀ x ∈ xs, T.NulFree x)
    (what : String) :
    (xs.map T.toValue).mapM (fun e => match T.get? e with
      | some x => (.ok x : Except Fault T.Carrier)
      | none => runtimeError what) = .ok xs := by
  induction xs with
  | nil => rfl
  | cons x xs ih =>
    have hrest := ih fun y hy => h y (List.mem_cons_of_mem _ hy)
    rw [List.map_cons, List.mapM_cons, ScalarType.get?_toValue (h x List.mem_cons_self)]
    simp only [ExceptRun.ok_bind]
    rw [hrest]
    rfl

/-- `As` reads back what an assignment of its type has stored. -/
theorem AsType.as_stored {A : AsType} {x : A.Carrier} (hx : A.NulFree x)
    {document : Rapidjson.Value} {name : Str} (h : document.child? name = some (A.stored x)) :
    A.as (Value.member document name) = .ok x := by
  cases A with
  | scalar T => exact Value.as_member hx h
  | optional T =>
    show Value.asOptional T _ = _
    rw [Value.asOptional, Value.current_member h]
    cases x with
    | none => rfl
    | some y =>
      have hread : Value.as T (Value.member document name) = .ok y :=
        Value.as_member (hx y rfl) h
      cases T <;> simp [stored, ScalarType.toValue, hread]
  | vector T =>
    show Value.asVector T _ = _
    rw [Value.asVector, Value.elements, Value.current_member h]
    exact mapM_get?_toValue hx _

/-- An assignment to a member that is there leaves the stored value. -/
theorem AsType.assign_member (A : AsType) (x : A.Carrier) {document old : Rapidjson.Value}
    {name : Str} (h : document.child? name = some old) :
    A.assign x (Value.member document name) =
      .ok (Value.member (JsonTree.mapMember name (fun _ => A.stored x) document) name) := by
  cases A with
  | scalar T => exact Value.assignStored_member h _
  | vector T => exact Value.assignStored_member h _
  | optional T =>
    cases x with
    | some y => exact Value.assignStored_member h _
    | none =>
      -- without a value only the pointer is written through; the root is an object here
      have hsame : Value.assignOptional T none (Value.member document name) =
          Value.assignStored nullValue (Value.member document name) := rfl
      exact hsame.trans (Value.assignStored_member h _)

/-! ## Runs of keyed assignments and reads -/

/-- The right-hand side of a keyed assignment: a value of one of the types, or a
`const char*`, which is read back as a string. -/
inductive MapArg where
  | typed (A : AsType) (x : A.Carrier)
  | cstr (s : Str)

namespace MapArg

/-- The type under which the argument is read back. -/
def type : MapArg → AsType
  | typed A _ => A
  | cstr _ => .scalar .string

/-- The value that is read back. -/
def value : (x : MapArg) → x.type.Carrier
  | typed _ x => x
  | cstr s => s

/-- The assignment that C++ selects. -/
def assign : MapArg → Value → Except Fault Value
  | typed A x => A.assign x
  | cstr s => Value.assignCStr s

/-- What the assignment leaves in the document. -/
def stored (x : MapArg) : Rapidjson.Value := x.type.stored x.value

def NulFree (x : MapArg) : Prop := x.type.NulFree x.value

theorem assign_member (x : MapArg) {document old : Rapidjson.Value} {name : Str}
    (h : document.child? name = some old) :
    x.assign (Value.member document name) =
      .ok (Value.member (JsonTree.mapMember name (fun _ => x.stored) document) name) := by
  cases x with
  | typed A x => exact A.assign_member x h
  | cstr s => exact Value.assignStored_member h _

end MapArg

/-- A keyed assignment, or a keyed read. -/
inductive MapOp where
  | assign (key : Str) (x : MapArg)
  | read (key : Str) (A : AsType)
  | readValues (key : Str)

namespace MapOp

/-- The key in brackets. -/
def key : MapOp → Str
  | assign key _ | read key _ | readValues key => key

/-- Key and argument are without NUL bytes. -/
def NulFree : MapOp → Prop
  | assign key x => 0 ∉ key ∧ x.NulFree
  | read key _ | readValues key => 0 ∉ key

/-- The value after a read.  `As` does not change it, and the caller handles what
`As` throws. -/
def afterRead {α : Type} (v : Value) : Except Fault α → Except Fault Value
  | .ok _ | .error (.exception _) => .ok v
  | .error f => .error f

/-- The value that a statement leaves behind. -/
def step (v : Value) : MapOp → Except Fault Value
  | assign key x => do
    let v ← v.subscript key
    x.assign v
  | read key A => do
    let v ← v.subscript key
    afterRead v (A.as v)
  | readValues key => do
    let v ← v.subscript key
    afterRead v v.asValues

end MapOp

/-- A run of keyed assignments and reads on a fresh value. -/
def runMap (ops : List MapOp) : Except Fault Value := ops.foldlM MapOp.step Value.init

/-- `v[key].As<T>()`. -/
def readAs (v : Value) (key : Str) (A : AsType) : Except Fault A.Carrier := do
  let v ← v.subscript key
  A.as v

/-- The assignments of a run. -/
def writes (ops : List MapOp) : List (Str × MapArg) :=
  ops.filterMap fun op => match op with
    | .assign key x => some (key, x)
    | _ => none

/-- The argument that was assigned last under `key`. -/
def lastWrite (ops : List MapOp) (key : Str) : Option MapArg :=
  ((writes ops).findRev? fun w => w.1 = key).map Prod.snd

/-- The last writes are the content of a map into which each write is inserted. -/
theorem lastWrite_eq_foldl (ops : List MapOp) :
    lastWrite ops = (writes ops).foldl (fun m w => m.insert w.1 w.2) PartialMap.empty := by
  funext key
  rw [PartialMap.foldl_insert_apply, PartialMap.empty_apply, Option.or_none, lastWrite]

theorem lastWrite_concat (ops : List MapOp) (op : MapOp) :
    lastWrite (ops ++ [op]) = match op with
      | .assign key x => PartialMap.insert (lastWrite ops) key x
      | _ => lastWrite ops := by
  rw [lastWrite_eq_foldl, lastWrite_eq_foldl, writes, List.filterMap_append,
    List.foldl_append]
  cases op <;> rfl

/-! ## The invariant -/

/-- The document holds what was written last, and one member for each key that was
subscripted. -/
structure Represents (v : Value) (written : PartialMap Str MapArg) (visited : List Str) :
    Prop where
  fresh : v.isEmpty = true → v.document = emptyObject
  root : v.document.IsObject
  nodup : v.document.names.Nodup
  names : ∀ key, key ∈ v.document.names ↔ key ∈ visited
  stored : ∀ key x, written key = some x → v.document.child? key = some x.stored

theorem represents_init : Represents Value.init PartialMap.empty [] where
  fresh _ := rfl
  root := ⟨[], rfl⟩
  nodup := List.nodup_nil
  names _ := Iff.rfl
  stored _ _ h := by cases h

section Step

variable {v : Value} {written : PartialMap Str MapArg} {visited : List Str} {key : Str}

theorem Represents.document_ensureObject (h : Represents v written visited) :
    v.ensureObject.document = v.document :=
  Value.document_ensureObject_of_fresh h.fresh

/-- `operator[]` reaches a member, and keeps what was written. -/
theorem Represents.subscript (h : Represents v written visited) (hkey : 0 ∉ key) :
    ∃ document old, v.subscript key = .ok (Value.member document key) ∧
      document.child? key = some old ∧
      Represents (Value.member document key) written (visited ++ [key]) := by
  have hsub := v.subscript_eq key (h.document_ensureObject ▸ h.root)
  rw [h.document_ensureObject, cStr_of_not_mem hkey] at hsub
  have hchild := Value.child?_touch_self h.root key
  refine ⟨_, _, hsub, hchild, ?_⟩
  cases hfound : v.document.child? key with
  | some old =>
    have hvisited : key ∈ visited := by
      rw [← h.names, JsonTree.mem_names_iff, hfound]
      rfl
    rw [Value.touch_of_child? hfound]
    refine ⟨fun hempty => (by cases hempty), h.root, h.nodup, fun key' => ?_, h.stored⟩
    rw [List.mem_append, List.mem_singleton, ← h.names]
    refine ⟨Or.inl, fun hmem => hmem.elim id fun heq => ?_⟩
    rw [heq]
    exact (h.names key).2 hvisited
  | none =>
    have htouch : Value.touch key v.document = JsonTree.append key nullValue v.document := by
      rw [Value.touch, hfound]
    have hnew : key ∉ v.document.names := by
      rw [JsonTree.mem_names_iff, hfound]
      simp
    rw [htouch]
    refine ⟨fun hempty => (by cases hempty), JsonTree.append_isObject h.root _ _, ?_, ?_, ?_⟩
    · show (JsonTree.append key nullValue v.document).names.Nodup
      rw [JsonTree.names_append h.root]
      exact h.nodup.append (List.nodup_singleton key) (by simpa using hnew)
    · intro key'
      show key' ∈ (JsonTree.append key nullValue v.document).names ↔ _
      rw [JsonTree.names_append h.root, List.mem_append, List.mem_append, h.names]
    · intro key' x hx
      show (JsonTree.append key nullValue v.document).child? key' = _
      rw [JsonTree.child?_append h.root, h.stored key' x hx, Option.some_or]

/-- An assignment to the member is an insertion. -/
theorem Represents.assign {document old : Rapidjson.Value}
    (h : Represents (Value.member document key) written visited)
    (hold : document.child? key = some old) (x : MapArg) :
    Represents (Value.member (JsonTree.mapMember key (fun _ => x.stored) document) key)
      (written.insert key x) visited where
  fresh hempty := by cases hempty
  root := (JsonTree.mapMember_isObject_iff _ _ _).2 h.root
  nodup := by
    show (JsonTree.mapMember key _ document).names.Nodup
    rw [JsonTree.names_mapMember]
    exact h.nodup
  names key' := by
    show key' ∈ (JsonTree.mapMember key _ document).names ↔ _
    rw [JsonTree.names_mapMember]
    exact h.names key'
  stored key' y hy := by
    show (JsonTree.mapMember key _ document).child? key' = _
    by_cases hk : key' = key
    · subst hk
      rw [PartialMap.insert_self, Option.some.injEq] at hy
      rw [JsonTree.child?_mapMember_self, hold, Option.map_some, hy]
    · rw [PartialMap.insert_of_ne _ _ hk] at hy
      rw [JsonTree.child?_mapMember_of_ne _ _ hk]
      exact h.stored key' y hy

end Step

/-! ## Reads -/

/-- A computation that returns or throws, and does not end the program. -/
def Handled {α : Type} (r : Except Fault α) : Prop :=
  ∀ f, r = .error f → ∃ e, f = .exception e

theorem MapOp.afterRead_eq {α : Type} {r : Except Fault α} (h : Handled r) (v : Value) :
    afterRead v r = .ok v := by
  cases r with
  | ok a => rfl
  | error f =>
    obtain ⟨e, rfl⟩ := h f rfl
    rfl

theorem handled_runtimeError {α : Type} (what : String) :
    Handled (runtimeError what : Except Fault α) := by
  rintro f ⟨⟩
  exact ⟨_, rfl⟩

theorem handled_ok {α : Type} (a : α) : Handled (.ok a : Except Fault α) := by
  rintro f ⟨⟩

theorem Handled.bind {α β : Type} {r : Except Fault α} {f : α → Except Fault β}
    (h : Handled r) (hf : ∀ a, Handled (f a)) : Handled (r >>= f) := by
  cases r with
  | ok a => exact hf a
  | error e =>
    rintro _ ⟨⟩
    exact h e rfl

theorem handled_mapM {α β : Type} {f : α → Except Fault β} (hf : ∀ a, Handled (f a))
    (as : List α) : Handled (as.mapM f) := by
  induction as with
  | nil => exact handled_ok _
  | cons a as ih =>
    rw [List.mapM_cons]
    exact (hf a).bind fun b => ih.bind fun bs => handled_ok _

section Reads

variable {document value : Rapidjson.Value} {name : Str}

theorem handled_as (T : ScalarType) (h : document.child? name = some value) :
    Handled (Value.as T (Value.member document name)) := by
  rw [Value.as, Value.current_member h]
  refine (handled_ok _).bind fun value => ?_
  cases T.get? value with
  | some x => exact handled_ok x
  | none => exact handled_runtimeError _

theorem handled_elements (h : document.child? name = some value) :
    Handled (Value.member document name).elements := by
  rw [Value.elements, Value.current_member h]
  refine (handled_ok _).bind fun value => ?_
  cases value with
  | array es => exact handled_ok es
  | scalar s => exact handled_runtimeError _
  | object ms => exact handled_runtimeError _

theorem handled_asValues (h : document.child? name = some value) :
    Handled (Value.member document name).asValues :=
  (handled_elements h).bind fun _ => handled_ok _

/-- `As` at a member that is there returns or throws. -/
theorem AsType.handled_as (A : AsType) (h : document.child? name = some value) :
    Handled (A.as (Value.member document name)) := by
  cases A with
  | scalar T => exact Json.handled_as T h
  | vector T =>
    refine (handled_elements h).bind fun es => handled_mapM (fun e => ?_) es
    cases T.get? e with
    | some x => exact handled_ok x
    | none => exact handled_runtimeError _
  | optional T =>
    show Handled (Value.asOptional T _)
    rw [Value.asOptional, Value.current_member h]
    refine (handled_ok _).bind fun value => ?_
    split
    · exact handled_ok _
    · exact (Json.handled_as T h).bind fun x => handled_ok _

end Reads

/-! ## Last write wins -/

/-- One statement keeps the invariant. -/
theorem MapOp.step_spec {v : Value} {ops : List MapOp} {op : MapOp}
    (h : Represents v (lastWrite ops) (ops.map MapOp.key)) (hnul : op.NulFree) :
    ∃ v', op.step v = .ok v' ∧
      Represents v' (lastWrite (ops ++ [op])) ((ops ++ [op]).map MapOp.key) := by
  rw [lastWrite_concat, List.map_append]
  cases op with
  | assign key x =>
    obtain ⟨document, old, hsub, hold, hrep⟩ := h.subscript hnul.1
    refine ⟨_, ?_, hrep.assign hold x⟩
    rw [step, hsub, ExceptRun.ok_bind, x.assign_member hold]
  | read key A =>
    obtain ⟨document, old, hsub, hold, hrep⟩ := h.subscript hnul
    refine ⟨_, ?_, hrep⟩
    rw [step, hsub, ExceptRun.ok_bind, afterRead_eq (A.handled_as hold)]
  | readValues key =>
    obtain ⟨document, old, hsub, hold, hrep⟩ := h.subscript hnul
    refine ⟨_, ?_, hrep⟩
    rw [step, hsub, ExceptRun.ok_bind, afterRead_eq (handled_asValues hold)]

/-- A run keeps the invariant, by induction on the run. -/
theorem runMap_represents (ops : List MapOp) (hnul : ∀ op ∈ ops, op.NulFree) :
    ∃ v, runMap ops = .ok v ∧ Represents v (lastWrite ops) (ops.map MapOp.key) := by
  induction ops using List.reverseRecOn with
  | nil => exact ⟨_, rfl, represents_init⟩
  | append_singleton ops op ih =>
    obtain ⟨v, hrun, hrep⟩ := ih fun op' hop' => hnul op' (List.mem_append_left _ hop')
    obtain ⟨v', hstep, hrep'⟩ := op.step_spec hrep (hnul op (by simp))
    refine ⟨v', ?_, hrep'⟩
    rw [runMap, ExceptRun.foldlM_concat]
    show runMap ops >>= _ = _
    rw [hrun, ExceptRun.ok_bind, hstep]

/-- The arguments of a run without NUL bytes have none. -/
theorem nulFree_of_lastWrite {ops : List MapOp} (hnul : ∀ op ∈ ops, op.NulFree) {key : Str}
    {x : MapArg} (h : lastWrite ops key = some x) : 0 ∉ key ∧ x.NulFree := by
  rw [lastWrite, Option.map_eq_some_iff] at h
  obtain ⟨w, hw, rfl⟩ := h
  obtain ⟨hmem, hp⟩ := LastMatch.findRev?_eq_some hw
  have hkey : w.1 = key := of_decide_eq_true hp
  obtain ⟨op, hop, hwrite⟩ := List.mem_filterMap.1 hmem
  cases op with
  | assign key' x' =>
    obtain rfl := Option.some.inj hwrite
    exact hkey ▸ hnul _ hop
  | read key' A => cases hwrite
  | readValues key' => cases hwrite

/-- A run of keyed assignments and reads succeeds.  Afterwards each key reads as
the value assigned last, under the type of that assignment, and the document has
one member for each key that was subscripted. -/
theorem value_lastWriteWins (ops : List MapOp) (hnul : ∀ op ∈ ops, op.NulFree) :
    ∃ v, runMap ops = .ok v ∧
      (∀ key x, lastWrite ops key = some x → readAs v key x.type = .ok x.value) ∧
      v.document.IsObject ∧ v.document.names.Nodup ∧
      ∀ key, key ∈ v.document.names ↔ ∃ op ∈ ops, op.key = key := by
  obtain ⟨v, hrun, hrep⟩ := runMap_represents ops hnul
  refine ⟨v, hrun, fun key x hx => ?_, hrep.root, hrep.nodup, fun key => ?_⟩
  · obtain ⟨hkey, hfree⟩ := nulFree_of_lastWrite hnul hx
    obtain ⟨document, old, hsub, -, hrep'⟩ := hrep.subscript hkey
    rw [readAs, hsub, ExceptRun.ok_bind]
    exact AsType.as_stored hfree (hrep'.stored key x hx)
  · rw [hrep.names, List.mem_map]

/-- `v["a"] = 1`, `v["b"].As<bool>()`, which throws, and `v["a"] = {"x", "y"}`: the
vector is read back. -/
theorem retyped_key_reads_last :
    let ops : List MapOp := [.assign (str "a") (.typed (.scalar .int) (1 : Int32)),
      .read (str "b") (.scalar .bool),
      .assign (str "a") (.typed (.vector .string) [str "x", str "y"])]
    ∃ v, runMap ops = .ok v ∧
      readAs v (str "a") (.vector .string) = .ok [str "x", str "y"] := by
  intro ops
  obtain ⟨v, hrun, hread, -⟩ := value_lastWriteWins ops (by
    intro op hop
    simp only [ops, List.mem_cons, List.not_mem_nil, or_false] at hop
    rcases hop with rfl | rfl | rfl
    · exact ⟨by decide, trivial⟩
    · exact (by decide : (0 : UInt8) ∉ str "b")
    · exact ⟨by decide, (by decide : ∀ y ∈ [str "x", str "y"], (0 : UInt8) ∉ y)⟩)
  exact ⟨v, hrun, hread (str "a") (.typed (.vector .string) [str "x", str "y"]) rfl⟩

end Piconaut.Formats.Json
