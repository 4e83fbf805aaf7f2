import Piconaut.Formats.Json.BuilderDenotation
import Piconaut.Formats.Json.ValueMap
import Piconaut.Lib.MemberWrites

/-!
# The two writers

`Value` and `ValueBuilder` both write an object through `json[key] = x`, and both have
the overloads for `std::string`, `const char*`, `int`, `double` and `bool`.  A `Value`
overwrites whatever is there.  A builder overwrites a value of the same class only.

`writers_agree_iff`: the same assignments give the same document exactly if under every
key the first and the last argument have the same class.
-/

namespace Piconaut.Formats.Json

open Piconaut.CppStd
open Piconaut.Rapidjson (Fault nullValue emptyObject)

/-! ## Shared assignments -/

/-- An argument that both writers take. -/
inductive SharedArg where
  | typed (T : ScalarType) (x : T.Carrier)
  | cstr (s : Str)

namespace SharedArg

/-- The overload of `Value`. -/
def toMap : SharedArg → MapArg
  | typed T x => .typed (.scalar T) x
  | cstr s => .cstr s

/-- The overload of `ValueBuilder`. -/
def toScalar : SharedArg → ScalarArg
  | typed .string s => .string s
  | typed .int i => .int i
  | typed .double d => .double d
  | typed .bool b => .bool b
  | cstr s => .cstr s

/-- The class of the argument. -/
def cls (x : SharedArg) : JsonClass := x.toScalar.cls

/-- Both overloads write the same value. -/
theorem stored_toMap (x : SharedArg) : x.toMap.stored = x.toScalar.stored := by
  cases x with
  | cstr s => rfl
  | typed T x => cases T <;> rfl

end SharedArg

/-- `json[key] = x` for each entry, in order. -/
abbrev Assignments := List (Str × SharedArg)

/-- The assignments, on a `Value`. -/
def Assignments.onValue (as : Assignments) : List MapOp := as.map fun a => .assign a.1 a.2.toMap

/-- The assignments, on a `ValueBuilder`. -/
def Assignments.onBuilder (as : Assignments) : List Statement :=
  as.map fun a => ⟨[], a.1, .assign a.2.toScalar⟩

/-- The arguments that are assigned under a key, in order. -/
def Assignments.under (as : Assignments) (key : Str) : List SharedArg :=
  (as.filter fun a => cStr a.1 = key).map Prod.snd

/-- The members that the assignments write. -/
def Assignments.written (as : Assignments) : List (Str × Rapidjson.Value) :=
  as.map fun a => (cStr a.1, a.2.toScalar.stored)

/-! ## On a `Value` -/

/-- `operator[]` and an assignment write a member, whatever is there. -/
theorem mapMember_touch (ms : List (Str × Rapidjson.Value)) (name : Str)
    (value : Rapidjson.Value) :
    JsonTree.mapMember name (fun _ => value) (Value.touch name (.object ms)) =
      .object (MemberList.write (fun _ _ => true) ms (name, value)) := by
  unfold Value.touch
  cases hfound : (JsonTree.object ms).child? name with
  | none =>
    rw [JsonTree.object_write_of_none value hfound]
    exact JsonTree.mapMember_append _ _ hfound
  | some old =>
    rw [JsonTree.object_write_of_some value hfound]
    rfl

/-- A `Value` whose document holds the members, also if it is still to be made an object. -/
def HoldsMembers (v : Value) (ms : List (Str × Rapidjson.Value)) : Prop :=
  v.document = .object ms ∧ v.ensureObject.document = .object ms

theorem HoldsMembers.step {v : Value} {ms : List (Str × Rapidjson.Value)}
    (h : HoldsMembers v ms) (key : Str) (x : MapArg) :
    ∃ v', MapOp.step v (.assign key x) = .ok v' ∧
      HoldsMembers v' (MemberList.write (fun _ _ => true) ms (cStr key, x.stored)) := by
  have hobj : v.ensureObject.document.IsObject := ⟨ms, h.2⟩
  have hold := Value.child?_touch_self hobj (cStr key)
  have hassign := x.assign_member hold
  refine ⟨_, (by rw [MapOp.step, v.subscript_eq key hobj]; exact hassign), ?_⟩
  have hdoc := mapMember_touch ms (cStr key) x.stored
  rw [h.2]
  exact ⟨hdoc, hdoc⟩

/-- The assignments on a `Value` write all members. -/
theorem runMap_document (as : Assignments) :
    (runMap as.onValue).map Value.document =
      .ok (.object (MemberList.writes (fun _ _ => true) as.written)) := by
  suffices hrun : ∃ v, runMap as.onValue = .ok v ∧
      HoldsMembers v (MemberList.writes (fun _ _ => true) as.written) by
    obtain ⟨v, hrun, hdoc, -⟩ := hrun
    rw [hrun, ← hdoc]
    rfl
  induction as using List.reverseRecOn with
  | nil => exact ⟨_, rfl, rfl, rfl⟩
  | append_singleton as a ih =>
    obtain ⟨v, hrun, hholds⟩ := ih
    obtain ⟨v', hstep, hholds'⟩ := hholds.step a.1 a.2.toMap
    refine ⟨v', ?_, ?_⟩
    · rw [runMap] at hrun
      rw [runMap, Assignments.onValue, List.map_append, List.map_singleton,
        ExceptRun.foldlM_concat]
      rw [Assignments.onValue] at hrun
      rw [hrun]
      exact hstep
    · rw [Assignments.written, List.map_append, List.map_singleton, MemberList.writes_concat,
        ← a.2.stored_toMap]
      exact hholds'

/-! ## On a `ValueBuilder` -/

/-- A statement of one key writes a member over a value of its class. -/
theorem docStep_assign (ms : List (Str × Rapidjson.Value)) (key : Str) (x : ScalarArg) :
    docStep (.object ms) ⟨[], key, .assign x⟩ =
      .ok (.object (MemberList.write (MemberList.sameClass classOf) ms (cStr key, x.stored))) := by
  have hget : (JsonTree.object ms : Rapidjson.Value).get? (locOf []) = some (.object ms) := rfl
  rw [docStep_of_object hget ⟨ms, rfl⟩]
  refine congrArg Except.ok ?_
  show refLeaf (cStr key) (some x.cls) x.stored (.object ms) = _
  unfold refLeaf
  cases hfound : (JsonTree.object ms).child? (cStr key) with
  | none =>
    rw [JsonTree.object_write_of_none _ hfound]
  | some old =>
    have hclass : some x.cls = some (classOf old) ↔
        MemberList.sameClass classOf old x.stored = true := by
      rw [MemberList.sameClass, decide_eq_true_iff, x.classOf_stored, Option.some.injEq]
      exact eq_comm
    rw [JsonTree.object_write_of_some _ hfound]
    dsimp only
    by_cases hsame : some x.cls = some (classOf old)
    · rw [if_pos hsame, if_pos (hclass.1 hsame)]
    · rw [if_neg hsame, if_neg fun h => hsame (hclass.2 h)]

/-- The assignments on a builder write the members of the right class. -/
theorem exec_document (as : Assignments) :
    (exec ValueBuilder.init as.onBuilder).map ValueBuilder.document =
      .ok (.object (MemberList.writes (MemberList.sameClass classOf) as.written)) := by
  have hinit : BetweenStatements ValueBuilder.init := ⟨ValueBuilder.Coherent.init, rfl⟩
  rw [hinit.map_run]
  induction as using List.reverseRecOn with
  | nil => rfl
  | append_singleton as a ih =>
    rw [docRun, Assignments.onBuilder, List.map_append, List.map_singleton,
      ExceptRun.foldlM_concat]
    rw [docRun, Assignments.onBuilder] at ih
    rw [ih, ExceptRun.ok_bind, docStep_assign, Assignments.written, Assignments.written,
      List.map_append, List.map_singleton, MemberList.writes_concat]

/-! ## Agreement -/

/-- The first argument under a key is the first member with its name. -/
theorem Assignments.child?_written (as : Assignments) (key : Str) :
    ((JsonTree.object as.written).child? key).map classOf =
      (as.under key).head?.map SharedArg.cls := by
  rw [JsonTree.child?_object, written, MemberList.lookup_map, under, List.head?_map,
    Option.map_map, Option.map_map]
  refine congrArg (Option.map · _) (funext fun a => ?_)
  exact a.2.toScalar.classOf_stored

theorem Assignments.child?_reverse_written (as : Assignments) (key : Str) :
    ((JsonTree.object as.written.reverse).child? key).map classOf =
      (as.under key).getLast?.map SharedArg.cls := by
  have hreverse : as.written.reverse = Assignments.written as.reverse := by
    rw [written, written, List.map_reverse]
  rw [hreverse, child?_written, under, List.filter_reverse, List.map_reverse, List.head?_reverse]
  rfl

/-- The same assignments give the same document exactly if under every key the first and
the last argument have the same class.  Keys are compared as C strings. -/
theorem writers_agree_iff (as : Assignments) :
    (runMap as.onValue).map Value.document =
        (exec ValueBuilder.init as.onBuilder).map ValueBuilder.document ↔
      ∀ key, (as.under key).getLast?.map SharedArg.cls =
        (as.under key).head?.map SharedArg.cls := by
  rw [runMap_document, exec_document, Except.ok.injEq, JsonTree.object.injEq,
    MemberList.writes_eq_iff]
  refine forall_congr' fun key => ?_
  rw [← as.child?_reverse_written, ← as.child?_written]
  rfl

end Piconaut.Formats.Json
