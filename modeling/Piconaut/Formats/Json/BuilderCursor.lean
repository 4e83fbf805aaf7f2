import Mathlib.Logic.Function.Basic
import Piconaut.Formats.Json.BuilderClasses

/-!
# Builders are cursors

A `ValueBuilder` holds pointers into its document, a cached type and a flag.  Seen from
outside it is a `Cursor`: a document, the path where the next key is looked up, the path
that the next assignment writes, and the class that is expected there.  A cursor has no
pointers, so no call on it can follow a stale one.

A session is any program over any number of builders: constructions, copies, calls in any
order, and assignments of one builder to another.  `session_refines`: the builders and the
cursors go through a session in step, up to the call that fails if one does.
-/

namespace Piconaut.Formats.Json

open Piconaut.CppStd Piconaut.Rapidjson ValueBuilder

/-! ## Cursors -/

/-- What a builder is, seen from outside. -/
structure Cursor where
  document : Rapidjson.Value
  /-- Where the next subscript looks its key up. -/
  path : Loc
  /-- What the next assignment writes. -/
  target : Loc
  /-- The class that the target must have, if it must have one. -/
  cls : Option JsonClass

namespace Cursor

/-- A cursor at the root of a document. -/
def atRoot (document : Rapidjson.Value) : Cursor := ⟨document, [], [], none⟩

/-- Move to a member of the object under the path, which is added if it is missing. -/
def subscript (c : Cursor) (key : Str) : Except Fault Cursor :=
  let below := c.path ++ [cStr key]
  match c.document.get? c.path with
  | none => .error .assertion
  | some object =>
    if object.IsObject then
      match object.child? (cStr key) with
      | some member => .ok ⟨c.document, below, below, some (classOf member)⟩
      | none =>
        .ok ⟨JsonTree.update c.path (JsonTree.append (cStr key) nullValue) c.document, below,
          below, none⟩
    else .error .assertion

/-- Write the target, or leave it if it has another class.  The next key is looked up in
the root. -/
def assign (c : Cursor) (x : ScalarArg) : Cursor :=
  if c.cls = none ∨ c.cls = some x.cls then
    { document := JsonTree.update c.target (fun _ => x.stored) c.document
      path := []
      target := c.target
      cls := if x.newType.isSome then some x.cls else c.cls }
  else { c with path := [] }

/-- Write an empty object over a target of no class. -/
def createJsonObject (c : Cursor) : Cursor :=
  if c.cls = none then
    { document := JsonTree.update c.target (fun _ => emptyObject) c.document
      path := []
      target := c.target
      cls := some .object }
  else { c with path := [] }

/-- Write another document under the path, and stay there. -/
def embed (c : Cursor) (document : Rapidjson.Value) : Cursor where
  document := JsonTree.update c.path (fun _ => document) c.document
  path := c.path
  target := c.path
  cls := some (classOf document)

/-- A call. -/
def apply (c : Cursor) : BuilderOp → Except Fault Cursor
  | .subscript key => c.subscript key
  | .action .createJsonObject => .ok c.createJsonObject
  | .action (.assign x) => .ok (c.assign x)

end Cursor

/-- The cursor of a builder. -/
def ValueBuilder.cursor (b : ValueBuilder) : Cursor :=
  ⟨b.document, b.walked, b.currentLoc, b.currentType.toClass⟩

/-! ## One builder -/

/-- The class after an assignment that is accepted. -/
theorem ScalarArg.toClass_getD_newType (x : ScalarArg)
    (t : JsonValueType) :
    (x.newType.getD t).toClass = if x.newType.isSome then some x.cls else t.toClass := by
  cases x <;> rfl

namespace ValueBuilder

variable {b : ValueBuilder}

theorem cursor_visit (b : ValueBuilder) (key : Str) (document : Rapidjson.Value)
    (type : JsonValueType) :
    (b.visit key document type).cursor =
      ⟨document, b.walked ++ [cStr key], b.walked ++ [cStr key], type.toClass⟩ := by
  rw [cursor, walked_visit]
  rfl

theorem cursor_embed (b other : ValueBuilder) :
    (b.embed other).cursor = b.cursor.embed other.document := by
  rw [cursor, embed, toClass_ofType]
  rfl

theorem Coherent.cursor_subscript (h : Coherent b) (key : Str) :
    (b.subscript key).map cursor = b.cursor.subscript key := by
  obtain ⟨t, ht⟩ := h.node
  have hget : b.cursor.document.get? b.cursor.path = some t := ht
  rw [Cursor.subscript, hget]
  dsimp only
  by_cases hobj : t.IsObject
  · rw [h.subscript_eq key ht hobj, if_pos hobj]
    cases t.child? (cStr key) with
    | none => exact congrArg Except.ok (cursor_visit ..)
    | some v =>
      refine congrArg Except.ok ?_
      dsimp only
      rw [cursor_visit, toClass_ofType]
      rfl
  · rw [h.subscript_error key ht hobj, if_neg hobj]
    rfl

theorem Coherent.cursor_assign (h : Coherent b) (x : ScalarArg) :
    (b.assign x).map cursor = .ok (b.cursor.assign x) := by
  have haccepts : (b.cursor.cls = none ∨ b.cursor.cls = some x.cls) ↔
      x.accepts b.currentType = true := by
    rw [x.accepts_iff, ← toClass_eq_none]
    rfl
  rw [h.assign_eq x]
  refine congrArg Except.ok ?_
  by_cases hx : x.accepts b.currentType = true
  · rw [if_pos hx, Cursor.assign, if_pos (haccepts.2 hx), cursor, ValueBuilder.overwrite,
      x.toClass_getD_newType]
    rfl
  · rw [if_neg hx, Cursor.assign, if_neg fun hc => hx (haccepts.1 hc)]
    rfl

theorem Coherent.cursor_createJsonObject (h : Coherent b) :
    b.createJsonObject.map cursor = .ok b.cursor.createJsonObject := by
  have hnone : b.cursor.cls = none ↔ b.currentType = .kUnknown := toClass_eq_none
  rw [h.createJsonObject_eq]
  refine congrArg Except.ok ?_
  by_cases ht : b.currentType = .kUnknown
  · rw [if_pos ht, Cursor.createJsonObject, if_pos (hnone.2 ht)]
    rfl
  · rw [if_neg ht, Cursor.createJsonObject, if_neg fun hc => ht (hnone.1 hc)]
    rfl

/-- A call on a builder is the call on its cursor. -/
theorem Coherent.cursor_apply (h : Coherent b) (op : BuilderOp) :
    (op.apply b).map cursor = b.cursor.apply op := by
  cases op with
  | subscript key => exact h.cursor_subscript key
  | action a =>
    cases a with
    | createJsonObject => exact h.cursor_createJsonObject
    | assign x => exact h.cursor_assign x

end ValueBuilder

/-! ## Sessions -/

/-- A step of a program over numbered builders. -/
inductive SessionOp where
  | construct (i : Nat)
  /-- Construct `i` as a copy of `j`. -/
  | copy (i j : Nat)
  | call (i : Nat) (op : BuilderOp)
  /-- Assign `j` to `i`. -/
  | assign (i j : Nat)

/-- One step on the builders. -/
def SessionOp.step (builders : Nat → ValueBuilder) : SessionOp → Except Fault (Nat → ValueBuilder)
  | construct i => .ok (Function.update builders i ValueBuilder.init)
  | copy i j => .ok (Function.update builders i (builders j).copy)
  | call i op => do
    let b ← op.apply (builders i)
    return Function.update builders i b
  | assign i j =>
    -- an assignment of a builder to itself returns at once
    if i = j then .ok builders
    else do
      let b ← assignBuilder (builders j) (builders i)
      return Function.update builders i b

/-- The same step on their cursors. -/
def SessionOp.stepCursors (cursors : Nat → Cursor) : SessionOp → Except Fault (Nat → Cursor)
  | construct i => .ok (Function.update cursors i (.atRoot emptyObject))
  | copy i j => .ok (Function.update cursors i (.atRoot (cursors j).document))
  | call i op => do
    let c ← (cursors i).apply op
    return Function.update cursors i c
  | assign i j =>
    if i = j then .ok cursors
    else .ok (Function.update cursors i ((cursors i).embed (cursors j).document))

/-- A session on fresh builders. -/
def runSession (ops : List SessionOp) : Except Fault (Nat → ValueBuilder) :=
  ops.foldlM SessionOp.step fun _ => ValueBuilder.init

/-- A session on fresh cursors. -/
def runCursors (ops : List SessionOp) : Except Fault (Nat → Cursor) :=
  ops.foldlM SessionOp.stepCursors fun _ => .atRoot emptyObject

/-- The cursors of the builders. -/
def cursorsOf (builders : Nat → ValueBuilder) : Nat → Cursor := fun i => (builders i).cursor

theorem cursorsOf_update (builders : Nat → ValueBuilder) (i : Nat) (b : ValueBuilder) :
    cursorsOf (Function.update builders i b) =
      Function.update (cursorsOf builders) i b.cursor := by
  funext j
  by_cases hj : j = i
  · subst hj
    simp [cursorsOf]
  · simp [cursorsOf, hj]

variable {builders : Nat → ValueBuilder}

/-- Changing one builder of a coherent family. -/
theorem coherent_update (h : ∀ i, Coherent (builders i)) {b : ValueBuilder} (hb : Coherent b)
    (i j : Nat) : Coherent (Function.update builders i b j) := by
  by_cases hj : j = i
  · subst hj
    simpa using hb
  · simpa [hj] using h j

/-- Every step keeps all builders coherent. -/
theorem SessionOp.step_coherent {op : SessionOp} {builders' : Nat → ValueBuilder}
    (h : ∀ i, Coherent (builders i)) (hstep : op.step builders = .ok builders') :
    ∀ i, Coherent (builders' i) := by
  cases op with
  | construct i =>
    obtain rfl := Except.ok.inj hstep
    exact coherent_update h Coherent.init i
  | copy i j =>
    obtain rfl := Except.ok.inj hstep
    exact coherent_update h (h j).copy i
  | call i op =>
    obtain ⟨b, hb, hrest⟩ := ExceptRun.bind_eq_ok_iff.1 hstep
    obtain rfl := Except.ok.inj hrest
    exact coherent_update h ((h i).apply hb) i
  | assign i j =>
    rw [SessionOp.step] at hstep
    split at hstep
    · obtain rfl := Except.ok.inj hstep
      exact h
    · rw [(h i).assignBuilder_eq] at hstep
      obtain rfl := Except.ok.inj hstep
      exact coherent_update h ((h i).embed _) i

/-- A step on the builders is the step on their cursors. -/
theorem SessionOp.step_cursorsOf (h : ∀ i, Coherent (builders i)) (op : SessionOp) :
    (op.step builders).map cursorsOf = op.stepCursors (cursorsOf builders) := by
  cases op with
  | construct i => exact congrArg Except.ok (cursorsOf_update ..)
  | copy i j => exact congrArg Except.ok (cursorsOf_update ..)
  | call i op =>
    have hcall := (h i).cursor_apply op
    have hcursor : cursorsOf builders i = (builders i).cursor := rfl
    rw [SessionOp.step, SessionOp.stepCursors, hcursor, ← hcall]
    cases op.apply (builders i) with
    | error e => rfl
    | ok b => exact congrArg Except.ok (cursorsOf_update ..)
  | assign i j =>
    rw [SessionOp.step, SessionOp.stepCursors]
    split
    · rfl
    · rw [(h i).assignBuilder_eq]
      refine congrArg Except.ok ?_
      rw [cursorsOf_update, cursor_embed]
      rfl

/-- The builders and the cursors go through every session in step. -/
theorem session_refines (ops : List SessionOp) :
    (runSession ops).map cursorsOf = runCursors ops := by
  refine ExceptRun.map_foldlM (I := fun builders => ∀ i, Coherent (builders i)) ?_ ?_ ?_ ops
  · exact fun _ _ _ h hstep => SessionOp.step_coherent h hstep
  · exact fun _ op h => SessionOp.step_cursorsOf h op
  · exact fun _ => Coherent.init

end Piconaut.Formats.Json
