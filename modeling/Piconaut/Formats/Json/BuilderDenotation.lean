import Piconaut.Formats.Json.BuilderSafety
import Piconaut.Formats.Json.BuilderStatements

/-!
# What a program does to a document

`docStep` is the meaning of one statement on a document: the keys before the last must
lead to an object, and the last member of it is added, overwritten or left.  It is a total
meaning: where the keys lead elsewhere, it is the assertion that the builder hits.

`exec_denotes`: between two statements the document is all that a builder remembers.  A
program does to the builder's document what `docStep` says, statement by statement and up
to the first failure, and the same program does the same to a copy of the builder.
-/

namespace Piconaut.Formats.Json

open Piconaut.CppStd Piconaut.Rapidjson ValueBuilder

/-- One statement on a document. -/
def docStep (document : Rapidjson.Value) (st : Statement) : Except Fault Rapidjson.Value :=
  match document.get? (locOf st.parents) with
  | none => .error .assertion
  | some object =>
    if object.IsObject then
      .ok (JsonTree.update (locOf st.parents)
        (refLeaf (cStr st.leaf) st.action.overwrites st.action.stored) document)
    else .error .assertion

/-- A program on a document. -/
def docRun (document : Rapidjson.Value) (prog : List Statement) : Except Fault Rapidjson.Value :=
  prog.foldlM docStep document

/-- The location holds no object. -/
def NoObjectAt (document : Rapidjson.Value) (l : Loc) : Prop :=
  ∀ object, document.get? l = some object → ¬ object.IsObject

variable {b : ValueBuilder}

theorem docStep_of_noObjectAt {document : Rapidjson.Value} {st : Statement}
    (h : NoObjectAt document (locOf st.parents)) : docStep document st = .error .assertion := by
  unfold docStep
  cases hget : document.get? (locOf st.parents) with
  | none => rfl
  | some object => exact if_neg (h object hget)

theorem docStep_of_object {document object : Rapidjson.Value} {st : Statement}
    (hget : document.get? (locOf st.parents) = some object) (hobj : object.IsObject) :
    docStep document st = .ok (JsonTree.update (locOf st.parents)
      (refLeaf (cStr st.leaf) st.action.overwrites st.action.stored) document) := by
  unfold docStep
  rw [hget]
  exact if_pos hobj

/-- A null member that was just added has nothing below it. -/
theorem noObjectAt_append {document t : Rapidjson.Value} {l : Loc} {k : Str} (m : Loc)
    (hget : document.get? l = some t) (ht : t.IsObject) (hnew : t.child? k = none) :
    NoObjectAt (JsonTree.update l (JsonTree.append k nullValue) document) (l ++ [k] ++ m) := by
  intro object hobject
  rw [JsonTree.get?_append, get?_append_member nullValue hget ht hnew, Option.bind_some] at hobject
  cases m with
  | nil =>
    obtain rfl := Option.some.inj hobject
    rintro ⟨_, hnull⟩
    cases hnull
  | cons k' m => cases hobject

/-- Subscripts on the way to no object run into the assertion.  The induction is on the
keys: the walk goes on below a member, or below the null that it adds for a missing one. -/
theorem subscripts_error (h : Coherent b) (keys : List Str) (leaf : Str)
    (hno : NoObjectAt b.document (b.walked ++ locOf keys)) :
    b.subscripts (keys ++ [leaf]) = .error .assertion := by
  induction keys generalizing b with
  | nil =>
    obtain ⟨t, ht⟩ := h.node
    have hobj : ¬ t.IsObject := hno t (by simpa using ht)
    rw [subscripts, List.nil_append, List.foldlM_cons, h.subscript_error leaf ht hobj]
    rfl
  | cons key keys ih =>
    have hsplit : b.walked ++ locOf (key :: keys) = b.walked ++ [cStr key] ++ locOf keys := by
      simp
    rw [subscripts, List.cons_append, List.foldlM_cons]
    cases hrun : b.subscript key with
    | error e =>
      have hassert : e = .assertion := by
        obtain ⟨t, ht⟩ := h.node
        by_cases hobj : t.IsObject
        · rw [h.subscript_eq key ht hobj] at hrun
          cases hrun
        · rw [h.subscript_error key ht hobj] at hrun
          exact (Except.error.inj hrun).symm
      rw [hassert]
      rfl
    | ok b₁ =>
      refine ih (h.subscript hrun) ?_
      rw [h.walked_subscript hrun]
      obtain ⟨t, ht, hobj, ⟨v, -, rfl⟩ | ⟨hnone, rfl⟩⟩ := h.subscript_cases hrun
      · rw [← hsplit]
        exact hno
      · exact noObjectAt_append _ ht hobj hnone

/-- Between statements: no walk is under way. -/
def BetweenStatements (b : ValueBuilder) : Prop := Coherent b ∧ b.valueNodes = []

/-- The parents of a statement lead to an object, or they do not. -/
theorem object_or_noObjectAt (document : Rapidjson.Value) (l : Loc) :
    (∃ object, document.get? l = some object ∧ object.IsObject) ∨ NoObjectAt document l := by
  by_cases h : ∃ object, document.get? l = some object ∧ object.IsObject
  · exact Or.inl h
  · exact Or.inr fun object hget hobj => h ⟨object, hget, hobj⟩

/-- A statement runs into the assertion if its parents lead to no object. -/
theorem BetweenStatements.exec_error (h : BetweenStatements b) {st : Statement}
    (hno : NoObjectAt b.document (locOf st.parents)) : st.exec b = .error .assertion := by
  have hwalked : b.walked = [] := by simp [walked, h.2]
  rw [Statement.exec, subscripts_error h.1 st.parents st.leaf (by rwa [hwalked])]
  rfl

/-- A statement on a builder is the statement on its document. -/
theorem BetweenStatements.map_exec (h : BetweenStatements b) (st : Statement) :
    (st.exec b).map ValueBuilder.document = docStep b.document st := by
  rcases object_or_noObjectAt b.document (locOf st.parents) with ⟨object, hget, hobj⟩ | hno
  · obtain ⟨b', hexec, -, -, hdoc⟩ := exec_spec h.1 h.2 st hget hobj
    rw [hexec, docStep_of_object hget hobj, ← hdoc]
    rfl
  · rw [h.exec_error hno, docStep_of_noObjectAt hno]
    rfl

theorem BetweenStatements.exec (h : BetweenStatements b) {st : Statement} {b' : ValueBuilder}
    (hrun : st.exec b = .ok b') : BetweenStatements b' := by
  rcases object_or_noObjectAt b.document (locOf st.parents) with ⟨object, hget, hobj⟩ | hno
  · obtain ⟨b₁, hexec, hinv, hnodes, -⟩ := exec_spec h.1 h.2 st hget hobj
    obtain rfl : b₁ = b' := Except.ok.inj (hexec.symm.trans hrun)
    exact ⟨hinv, hnodes⟩
  · rw [h.exec_error hno] at hrun
    cases hrun

theorem BetweenStatements.map_run (h : BetweenStatements b) (prog : List Statement) :
    (Json.exec b prog).map ValueBuilder.document = docRun b.document prog :=
  ExceptRun.map_foldlM (fun _ _ _ hb hrun => hb.exec hrun) (fun _ st hb => hb.map_exec st) h prog

/-- Between two statements the document is all that a builder remembers: a program on the
builder, and on a copy of it, is the program on the document. -/
theorem exec_denotes (hb : Reachable b) (hnodes : b.valueNodes = []) (prog : List Statement) :
    (exec b prog).map ValueBuilder.document = docRun b.document prog ∧
      (exec b.copy prog).map ValueBuilder.document = docRun b.document prog := by
  have hcopy : BetweenStatements b.copy := ⟨hb.inv.copy, rfl⟩
  exact ⟨BetweenStatements.map_run ⟨hb.inv, hnodes⟩ prog, hcopy.map_run prog⟩

/-- `json["object"]["key1"] = 1` and then `json["object"]["key1"]["x"].CreateJsonObject()`,
on the builder that holds an object. -/
theorem withObject_denotes :
    (exec withObject [⟨[str "object"], str "key1", .assign (.int 1)⟩,
        ⟨[str "object", str "key1"], str "x", .createJsonObject⟩]).map ValueBuilder.document =
      .error .assertion :=
  have hreached : Reachable withObject :=
    runOps_reachable .init [.subscript (str "object"), .action .createJsonObject] rfl
  (exec_denotes hreached rfl _).1.trans rfl

end Piconaut.Formats.Json
