import Piconaut.Formats.Json.BuilderClasses
import Piconaut.Lib.MemberNames

/-!
# What holds of every builder

Two properties of all builders that a program can hold, from `Coherent` by
induction on how the builder came about.

* `builder_pointers_live`: `current_value_` and the entries of `value_nodes_`
  can be followed, the entries form a chain from the root, and no operation
  follows a stale pointer.  The only way to fail is the assertion of
  `operator[]` on a value that is no object.
* `builder_names_distinct`: no object of the document has two members with one
  name.  `AddMember` does not look for the name; the lookup before it does, in
  the same object and with the same bytes of the key.
-/

namespace Piconaut.Formats.Json

open Piconaut.CppStd Piconaut.Rapidjson ValueBuilder

variable {b : ValueBuilder}

/-- A run of calls on a builder leaves a builder that a program can hold. -/
theorem runOps_reachable (hb : Reachable b) (ops : List BuilderOp) {b' : ValueBuilder}
    (hrun : runOps b ops = .ok b') : Reachable b' := by
  refine ExceptRun.foldlM_invariant (fun b₁ op b₂ h hstep => ?_) hb hrun
  cases op with
  | subscript key => exact h.subscript hstep
  | action a =>
    cases a with
    | createJsonObject => exact h.createJsonObject hstep
    | assign x => exact h.assign hstep

/-! ## Pointers -/

/-- The nodes lead down from `parent`: each one points to the member that the
value before it has under the recorded key, read as a C string like every key. -/
def IsChain (document : Rapidjson.Value) : ValuePtr → List JsonBuilderNode → Prop
  | _, [] => True
  | parent, node :: nodes =>
    (∃ object member, load document parent = .ok object ∧
      object.child? (cStr node.key) = some member ∧
      node.value.loc = parent.loc ++ [cStr node.key] ∧
      load document node.value = .ok member) ∧
    IsChain document node.value nodes

/-- Every pointer of the builder designates a value of its own document, and the
nodes are a chain from the root. -/
structure PointersLive (b : ValueBuilder) : Prop where
  current : ∃ p v, b.currentValue = some p ∧ load b.document p = .ok v
  nodes : ∀ node ∈ b.valueNodes, ∃ v, load b.document node.value = .ok v
  chain : IsChain b.document ValuePtr.root b.valueNodes

/-- No operation follows a stale pointer.  `operator[]` may hit the assertion,
and the others return. -/
structure NoStaleAccess (b : ValueBuilder) : Prop where
  subscript : ∀ key e, b.subscript key = .error e → e = .assertion
  assign : ∀ x, ∃ b', b.assign x = .ok b'
  createJsonObject : ∃ b', b.createJsonObject = .ok b'
  assignBuilder : ∀ other, ∃ b', assignBuilder other b = .ok b'

/-- A walk to a value that is there is a chain.  The induction is on the nodes
that are left. -/
theorem isChain_of_isWalk {document v : Rapidjson.Value} {l : Loc}
    {nodes : List JsonBuilderNode} (h : IsWalk l nodes)
    (hget : document.get? (l ++ locOf (nodes.map JsonBuilderNode.key)) = some v) :
    IsChain document (ValuePtr.to l) nodes := by
  induction nodes generalizing l with
  | nil => trivial
  | cons node nodes ih =>
    obtain ⟨hvalue, hrest⟩ := h
    have hget' : document.get?
        (l ++ [cStr node.key] ++ locOf (nodes.map JsonBuilderNode.key)) = some v := by
      simpa using hget
    obtain ⟨member, hmember, -⟩ := JsonTree.get?_append_eq_some.1 hget'
    obtain ⟨object, hobject, hchild⟩ := JsonTree.get?_concat_eq_some.1 hmember
    refine ⟨⟨object, member, load_to hobject, hchild, ?_, ?_⟩, ?_⟩
    · rw [hvalue]
      rfl
    · rw [hvalue]
      exact load_to hmember
    · rw [hvalue]
      exact ih hrest hget'

/-- The entries of a chain can be followed. -/
theorem IsChain.load_ok {document : Rapidjson.Value} {parent : ValuePtr}
    {nodes : List JsonBuilderNode} (h : IsChain document parent nodes) :
    ∀ node ∈ nodes, ∃ v, load document node.value = .ok v := by
  induction nodes generalizing parent with
  | nil => simp
  | cons first nodes ih =>
    obtain ⟨⟨_, member, -, -, -, hload⟩, hrest⟩ := h
    intro node hnode
    rcases List.mem_cons.1 hnode with rfl | hnode
    · exact ⟨member, hload⟩
    · exact ih hrest node hnode

theorem ValueBuilder.Coherent.pointersLive (h : Coherent b) : PointersLive b := by
  obtain ⟨v, hv, -⟩ := h.value
  obtain ⟨t, ht⟩ := h.node
  have hchain : IsChain b.document ValuePtr.root b.valueNodes :=
    isChain_of_isWalk h.walk ht
  exact ⟨⟨_, v, h.current, load_to hv⟩, hchain.load_ok, hchain⟩

theorem ValueBuilder.Coherent.noStaleAccess (h : Coherent b) : NoStaleAccess b where
  subscript key e he := by
    obtain ⟨t, ht⟩ := h.node
    by_cases hobj : t.IsObject
    · rw [h.subscript_eq key ht hobj] at he
      cases he
    · rw [h.subscript_error key ht hobj] at he
      exact (Except.error.inj he).symm
  assign x := ⟨_, h.assign_eq x⟩
  createJsonObject := ⟨_, h.createJsonObject_eq⟩
  assignBuilder other := ⟨_, h.assignBuilder_eq other⟩

/-- A builder that a program can hold has live pointers only, and no operation on
it follows a stale one. -/
theorem builder_pointers_live (h : Reachable b) : PointersLive b ∧ NoStaleAccess b :=
  ⟨h.inv.pointersLive, h.inv.noStaleAccess⟩

/-- `json["a"].CreateJsonObject()` and then `json["a"]["b"]`. -/
def nestedCalls : List BuilderOp :=
  [.subscript (str "a"), .action .createJsonObject, .subscript (str "a"),
    .subscript (str "b")]

/-- They leave a chain of two nodes. -/
theorem nestedCalls_pointers_live :
    ∃ b, runOps init nestedCalls = .ok b ∧ b.valueNodes.length = 2 ∧
      PointersLive b ∧ NoStaleAccess b :=
  ⟨_, rfl, rfl, builder_pointers_live (runOps_reachable .init nestedCalls rfl)⟩

/-! ## Member names -/

theorem distinctNames_stored (x : ScalarArg) : x.stored.DistinctNames := by
  cases x <;> exact .scalar _

theorem distinctNames_emptyObject : emptyObject.DistinctNames := .object List.nodup_nil (by simp)

/-- `operator[]` appends a name only where it is not found. -/
theorem distinctNames_subscript (h : Coherent b) (hnames : b.document.DistinctNames)
    {key : Str} {b' : ValueBuilder} (hrun : b.subscript key = .ok b') :
    b'.document.DistinctNames := by
  obtain ⟨t, ht, -, ⟨v, -, rfl⟩ | ⟨hnone, rfl⟩⟩ := h.subscript_cases hrun
  · exact hnames
  · refine hnames.update fun c hc => ?_
    obtain rfl : t = c := Option.some.inj (ht.symm.trans hc)
    exact (hnames.get? ht).append hnone (.scalar _)

theorem distinctNames_assign (h : Coherent b) (hnames : b.document.DistinctNames)
    {x : ScalarArg} {b' : ValueBuilder} (hrun : b.assign x = .ok b') :
    b'.document.DistinctNames := by
  rw [h.assign_eq x] at hrun
  obtain rfl := Except.ok.inj hrun
  split
  · exact hnames.update fun _ _ => distinctNames_stored x
  · exact hnames

theorem distinctNames_createJsonObject (h : Coherent b) (hnames : b.document.DistinctNames)
    {b' : ValueBuilder} (hrun : b.createJsonObject = .ok b') : b'.document.DistinctNames := by
  rw [h.createJsonObject_eq] at hrun
  obtain rfl := Except.ok.inj hrun
  split
  · exact hnames.update fun _ _ => distinctNames_emptyObject
  · exact hnames

theorem distinctNames_assignBuilder (h : Coherent b) (hnames : b.document.DistinctNames)
    {other b' : ValueBuilder} (hother : other.document.DistinctNames)
    (hrun : assignBuilder other b = .ok b') : b'.document.DistinctNames := by
  rw [h.assignBuilder_eq other] at hrun
  obtain rfl := Except.ok.inj hrun
  exact hnames.update fun _ _ => hother

/-- In every object of every builder's document the names are pairwise
distinct. -/
theorem builder_names_distinct (h : Reachable b) : b.document.DistinctNames := by
  induction h with
  | init => exact distinctNames_emptyObject
  | copy _ ih => exact ih
  | subscript hb hrun ih => exact distinctNames_subscript hb.inv ih hrun
  | assign hb hrun ih => exact distinctNames_assign hb.inv ih hrun
  | createJsonObject hb hrun ih => exact distinctNames_createJsonObject hb.inv ih hrun
  | assignBuilder hb _ hrun ih ihother =>
    exact distinctNames_assignBuilder hb.inv ih ihother hrun

/-- `json["a\0b"] = 1` and `json["a"] = "x"`.  The second key reaches the member of
the first one, which keeps its number. -/
def nulKeyCalls : List BuilderOp :=
  [.subscript (str "a" ++ 0 :: str "b"), .action (.assign (.int 1)),
    .subscript (str "a"), .action (.assign (.string (str "x")))]

/-- These calls leave one member. -/
theorem nulKeyCalls_names_distinct :
    ∃ b, runOps init nulKeyCalls = .ok b ∧ b.document.DistinctNames :=
  ⟨_, rfl, builder_names_distinct (runOps_reachable .init nulKeyCalls rfl)⟩

end Piconaut.Formats.Json
