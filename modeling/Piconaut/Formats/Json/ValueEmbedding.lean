import Piconaut.Formats.Json.BuilderStatements
import Piconaut.Formats.Json.StringStorage

/-!
# Assigning to one key

`x[key] = rhs` is meant to write one member and to leave the others alone
(`EmbedsAt`).  `operator[]` returns the container itself, so it is up to each
overload of `operator=` to write through `current_value_`.

* The overloads of `Value` for stored types do so (`embedsAt_assign`,
  `embedsAt_assignValues`).
* `ValueBuilder::operator=(const ValueBuilder&)` does so (`embedsAt_assignBuilder`).
* `Value::operator=(const Value&)` does not look at `current_value_`.  It copies the
  other document over the whole of its own, subscript or not (`assignAt_eq`), and as
  no document is a member of itself it never embeds one
  (`assignAt_never_embeds`).
-/

namespace Piconaut.Formats.Json

open Piconaut.CppStd
open Piconaut.Rapidjson (Fault ValuePtr nullValue emptyObject)

/-- From `before` to `after` the member `key` became `x`, and every other member
stayed as it was. -/
structure EmbedsAt (before after : Rapidjson.Value) (key : Str) (x : Rapidjson.Value) : Prop where
  member : after.child? (cStr key) = some x
  others : ∀ name, name ≠ cStr key → after.child? name = before.child? name

/-! ## Stored types -/

section Stored

variable {v : Value}

/-- An assignment through the pointer embeds the value. -/
theorem embedsAt_mapMember {document : Rapidjson.Value} (h : document.IsObject) (key : Str)
    (x : Rapidjson.Value) :
    EmbedsAt document
      (JsonTree.mapMember (cStr key) (fun _ => x) (Value.touch (cStr key) document)) key x where
  member := child?_assign_self h x rfl
  others _ hname := child?_assign_of_ne h _ hname

/-- `v[key] = x` for a scalar, an optional, a vector or a `const char*`.  The
document of a value that is still empty is `{}`. -/
theorem embedsAt_assign (hfresh : v.isEmpty = true → v.document = emptyObject)
    (hroot : v.document.IsObject) (key : Str) (x : MapArg) :
    ∃ v', (v.subscript key >>= x.assign) = .ok v' ∧
      EmbedsAt v.document v'.document key x.stored := by
  have hdoc := Value.document_ensureObject_of_fresh hfresh
  refine ⟨Value.member _ (cStr key), ?_, embedsAt_mapMember hroot key x.stored⟩
  rw [v.subscript_eq key (hdoc ▸ hroot), hdoc, ExceptRun.ok_bind]
  exact x.assign_member (Value.child?_touch_self hroot _)

/-- `v[key] = ws` for a vector of values. -/
theorem embedsAt_assignValues (hfresh : v.isEmpty = true → v.document = emptyObject)
    (hroot : v.document.IsObject) (key : Str) (ws : List Value) :
    ∃ v', (v.subscript key >>= Value.assignValues ws) = .ok v' ∧
      EmbedsAt v.document v'.document key (.array (ws.map Value.document)) := by
  have hdoc := Value.document_ensureObject_of_fresh hfresh
  refine ⟨Value.member _ (cStr key), ?_, embedsAt_mapMember hroot key _⟩
  rw [v.subscript_eq key (hdoc ▸ hroot), hdoc, ExceptRun.ok_bind]
  exact Value.assignStored_member (Value.child?_touch_self hroot _) _

end Stored

/-! ## Builders -/

/-- `b[key] = other` between two statements. -/
theorem embedsAt_assignBuilder {b : ValueBuilder} (h : AtRest b) (key : Str)
    (other : ValueBuilder) :
    ∃ b', (b.subscript key >>= ValueBuilder.assignBuilder other) = .ok b' ∧
      EmbedsAt b.document b'.document key other.document := by
  obtain ⟨b₁, hsub, hinv, hwalked, hothers⟩ := h.subscript_spec key
  obtain ⟨old, hold⟩ := hinv.node
  have hget : b₁.document.child? (cStr key) = some old := by
    rwa [hwalked, JsonTree.get?_singleton] at hold
  refine ⟨b₁.embed other, ?_, ?_, ?_⟩
  · rw [hsub, ExceptRun.ok_bind, hinv.assignBuilder_eq]
  · rw [ValueBuilder.embed, hwalked, JsonTree.update_singleton,
      JsonTree.child?_mapMember_self, hget, Option.map_some]
  · intro name hname
    have hkeep := hothers name [] hname
    rw [JsonTree.get?_singleton, JsonTree.get?_singleton] at hkeep
    rw [ValueBuilder.embed, hwalked, JsonTree.update_singleton,
      JsonTree.child?_mapMember_of_ne _ _ hname, hkeep]

/-! ## Values -/

/-- `v[key] = w` for a value `w` other than `v`. -/
def Value.assignAt (v : Value) (key : Str) (w : Value) : Except Fault Value := do
  let v ← v.subscript key
  return assignValue w v

/-- The subscript leaves no trace: `v` is a copy of `w`. -/
theorem assignAt_eq (v : Value) (key : Str) (w : Value) (h : v.ensureObject.document.IsObject) :
    v.assignAt key w = .ok w.copy := by
  rw [Value.assignAt, v.subscript_eq key h]
  rfl

/-- No assignment of a value to a key embeds it. -/
theorem assignAt_never_embeds (v : Value) (key : Str) (w : Value) :
    ¬ ∃ v', v.assignAt key w = .ok v' ∧ EmbedsAt v.document v'.document key w.document := by
  rintro ⟨v', hrun, hembeds⟩
  by_cases hroot : v.ensureObject.document.IsObject
  · obtain rfl := Except.ok.inj ((assignAt_eq v key w hroot).symm.trans hrun)
    -- the member would be the document that it is a member of
    exact JsonTree.child?_ne_self _ _ hembeds.member
  · rw [Value.assignAt, v.subscript_error key hroot] at hrun
    cases hrun

/-- After `v["x"] = 1; w["y"] = 2; v["a"] = w` the value `v` has a member `y` and no
member `a` or `x`. -/
theorem assignAt_overwrites_document :
    ∃ v w v' : Value, Value.init.subscript (str "x") >>= Value.assign .int 1 = .ok v ∧
      Value.init.subscript (str "y") >>= Value.assign .int 2 = .ok w ∧
      v.assignAt (str "a") w = .ok v' ∧
      v'.document.child? (str "a") = none ∧ v'.document.child? (str "x") = none ∧
      (v.document.child? (str "x")).isSome = true ∧
      (v'.document.child? (str "y")).isSome = true :=
  ⟨_, _, _, rfl, rfl, rfl, rfl, rfl, rfl, rfl⟩

end Piconaut.Formats.Json
