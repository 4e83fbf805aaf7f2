import Mathlib.Data.List.Induction
import Mathlib.Data.List.Infix
import Piconaut.Formats.Json.BuilderInvariant

/-!
# Builder programs build the document they spell

A whole statement is `json[k1]...[kn] = x` or `json[k1]...[kn].CreateJsonObject()`.
`exec` runs a list of them with the operations of the builder.  `refRun` gives the
list its meaning on an ordered document: a statement appends the leaf to its
parent if the leaf is missing, overwrites it in place if it holds a value of the
same class, and does nothing otherwise.

* `walk_spec`: subscripts along existing members walk and change nothing.
* `exec_spec`: one statement of the builder is one statement of the reference, and
  it ends the walk.
* `program_builds_document`: the two agree after every statement of a program.
-/

namespace Piconaut.Formats.Json

open Piconaut.CppStd Piconaut.Rapidjson ValueBuilder

/-! ## Statements -/

/-- What a statement does with the value its subscripts reach. -/
inductive Action where
  | createJsonObject
  | assign (x : ScalarArg)

/-- The call that ends a statement. -/
def Action.run : Action → ValueBuilder → Except Fault ValueBuilder
  | createJsonObject, b => b.createJsonObject
  | assign x, b => b.assign x

/-- `json[k1]...[kn]` with its action: the keys before the last, and the last. -/
structure Statement where
  parents : List Str
  leaf : Str
  action : Action

/-- One statement, run on the builder. -/
def Statement.exec (b : ValueBuilder) (st : Statement) : Except Fault ValueBuilder := do
  let b ← b.subscripts (st.parents ++ [st.leaf])
  st.action.run b

/-- A program, run on the builder. -/
def exec (b : ValueBuilder) (prog : List Statement) : Except Fault ValueBuilder :=
  prog.foldlM Statement.exec b

/-! ## The reference -/

/-- The argument of an assignment as a value. -/
def ScalarArg.value : ScalarArg → Rapidjson.Value
  | .string s | .cstr s => .scalar (.string s)
  | .uint n => .scalar (.number (.integer n.toNat))
  | .int n => .scalar (.number (.integer n.toInt))
  | .double d => .scalar (.number (.double d))
  | .float d => .scalar (.number (.double d.toFloat))
  | .bool b => .scalar (.bool b)

/-- The value that an action puts under a new key. -/
def Action.value : Action → Rapidjson.Value
  | createJsonObject => emptyObject
  | assign x => x.value

/-- The class of the values that an action overwrites. -/
def Action.overwrites : Action → Option JsonClass
  | createJsonObject => none
  | assign x => some x.cls

/-- What a statement does to the object that holds its leaf. -/
def refLeaf (k : Str) (overwrites : Option JsonClass) (value t : Rapidjson.Value) :
    Rapidjson.Value :=
  match t.child? k with
  | none => JsonTree.append k value t
  | some old =>
    if overwrites = some (classOf old) then JsonTree.mapMember k (fun _ => value) t else t

/-- One statement on an ordered document. -/
def refStep (t : Rapidjson.Value) (st : Statement) : Rapidjson.Value :=
  JsonTree.update st.parents (refLeaf st.leaf st.action.overwrites st.action.value) t

/-- A program on an ordered document, from the empty object. -/
def refRun (prog : List Statement) : Rapidjson.Value := prog.foldl refStep emptyObject

/-! ## Programs without surprises -/

/-- The argument has no NUL byte. -/
def ScalarArg.NulFree : ScalarArg → Prop
  | .string s | .cstr s => 0 ∉ s
  | _ => True

/-- The argument of the action, if it has one, has no NUL byte. -/
def Action.NulFree : Action → Prop
  | createJsonObject => True
  | assign x => x.NulFree

/-- No key and no string of the statement has a NUL byte. -/
def Statement.NulFree (st : Statement) : Prop :=
  (∀ k ∈ st.parents ++ [st.leaf], 0 ∉ k) ∧ st.action.NulFree

instance (x : ScalarArg) : Decidable x.NulFree :=
  match x with
  | .string s => inferInstanceAs (Decidable (0 ∉ s))
  | .cstr s => inferInstanceAs (Decidable (0 ∉ s))
  | .uint _ | .int _ | .double _ | .float _ | .bool _ => isTrue trivial

instance (a : Action) : Decidable a.NulFree :=
  match a with
  | .createJsonObject => isTrue trivial
  | .assign x => inferInstanceAs (Decidable x.NulFree)

instance (st : Statement) : Decidable st.NulFree := inferInstanceAs (Decidable (_ ∧ _))

/-- Every location on the way to `l`, the root apart, holds an object. -/
def ObjectsAlong (t : Rapidjson.Value) (l : Loc) : Prop :=
  ∀ m, m ≠ [] → m <+: l → ∃ v, t.get? m = some v ∧ v.IsObject

/-- Every proper prefix of the statement's keys leads to an object. -/
def Statement.Scoped (t : Rapidjson.Value) (st : Statement) : Prop := ObjectsAlong t st.parents

/-- Every statement of the program is scoped when it runs. -/
def ScopedProgram (prog : List Statement) : Prop :=
  ∀ done st, done ++ [st] <+: prog → ∀ b, exec init done = .ok b → st.Scoped b.document

/-! ## The walk of one statement -/

/-- The value that an action stores. -/
def Action.stored : Action → Rapidjson.Value
  | createJsonObject => emptyObject
  | assign x => x.stored

/-- The cached types under which an action writes. -/
def Action.Accepts (a : Action) (t : JsonValueType) : Prop :=
  t = .kUnknown ∨ ∃ c, a.overwrites = some c ∧ t.toClass = some c

variable {b : ValueBuilder}

/-- Subscripts along existing members move the walk and leave the document. -/
theorem walk_spec (h : Coherent b) (keys : List Str) {v : Rapidjson.Value}
    (hget : b.document.get? (b.walked ++ locOf keys) = some v) :
    ∃ b', b.subscripts keys = .ok b' ∧ Coherent b' ∧ b'.document = b.document ∧
      b'.walked = b.walked ++ locOf keys := by
  induction keys generalizing b with
  | nil => exact ⟨b, rfl, h, rfl, by simp⟩
  | cons key keys ih =>
    have hsplit : b.walked ++ locOf (key :: keys) = b.walked ++ [cStr key] ++ locOf keys := by
      simp
    rw [hsplit] at hget
    obtain ⟨c, hc, -⟩ := JsonTree.get?_append_eq_some.1 hget
    obtain ⟨t, ht, hchild⟩ := JsonTree.get?_concat_eq_some.1 hc
    have hstep : b.subscript key =
        .ok (b.visit key b.document (.ofType (getType c))) := by
      rw [h.subscript_eq key ht (JsonTree.isObject_of_child? hchild), hchild]
    have hinv := h.subscript hstep
    rw [← walked_visit b key b.document (.ofType (getType c))] at hget hsplit
    obtain ⟨b', hrun, hinv', hdoc, hwalked⟩ := ih hinv hget
    refine ⟨b', ?_, hinv', hdoc, by rw [hwalked, hsplit]⟩
    rw [subscripts, List.foldlM_cons, hstep]
    exact hrun

/-- An action writes the current value where it accepts the cached type, and ends
the walk. -/
theorem Action.run_spec (h : Coherent b) (a : Action) :
    ∃ b', a.run b = .ok b' ∧ Coherent b' ∧ b'.valueNodes = [] ∧
      (a.Accepts b.currentType → b'.document =
        JsonTree.update b.currentLoc (fun _ => a.stored) b.document) ∧
      (¬ a.Accepts b.currentType → b'.document = b.document) := by
  cases a with
  | createJsonObject =>
    have hrun := h.createJsonObject_eq
    refine ⟨_, hrun, h.createJsonObject hrun, ?_, ?_, ?_⟩
    · split <;> rfl
    · rintro (hunknown | ⟨c, hc, -⟩)
      · rw [if_pos hunknown]
        rfl
      · cases hc
    · intro hnot
      rw [if_neg fun hunknown => hnot (Or.inl hunknown)]
  | assign x =>
    have hrun := h.assign_eq x
    have haccepts : (assign x).Accepts b.currentType ↔ x.accepts b.currentType = true := by
      rw [x.accepts_iff]
      simp [Accepts, overwrites]
    refine ⟨_, hrun, h.assign hrun, ?_, ?_, ?_⟩
    · split <;> rfl
    · intro hacc
      rw [if_pos (haccepts.1 hacc)]
      rfl
    · intro hnot
      rw [if_neg fun hacc => hnot (haccepts.2 hacc)]

/-- The last subscript and the action together are one step of the reference on
the object that holds the leaf. -/
theorem leaf_spec (h : Coherent b) {t : Rapidjson.Value} (hget : b.document.get? b.walked = some t)
    (ht : t.IsObject) (leaf : Str) (a : Action) :
    ∃ b₁ b', b.subscript leaf = .ok b₁ ∧ a.run b₁ = .ok b' ∧ Coherent b' ∧
      b'.valueNodes = [] ∧ b'.document = JsonTree.update b.walked
        (refLeaf (cStr leaf) a.overwrites a.stored) b.document := by
  have hstep := h.subscript_eq leaf hget ht
  cases hchild : t.child? (cStr leaf) with
  | none =>
    rw [hchild] at hstep
    obtain ⟨b', hrun, hinv, hnodes, hwrite, -⟩ := Action.run_spec (h.subscript hstep) a
    refine ⟨_, b', hstep, hrun, hinv, hnodes, ?_⟩
    rw [hwrite (Or.inl rfl)]
    show JsonTree.update (b.walked ++ [cStr leaf]) _ (JsonTree.update b.walked _ _) = _
    rw [JsonTree.update_concat, JsonTree.update_update]
    refine JsonTree.update_congr fun c hc => ?_
    obtain rfl : t = c := Option.some.inj (hget.symm.trans hc)
    rw [refLeaf, hchild, Function.comp_apply, JsonTree.mapMember_append _ _ hchild]
  | some old =>
    rw [hchild] at hstep
    obtain ⟨b', hrun, hinv, hnodes, hwrite, hkeep⟩ := Action.run_spec (h.subscript hstep) a
    refine ⟨_, b', hstep, hrun, hinv, hnodes, ?_⟩
    have haccepts : a.Accepts (.ofType (getType old)) ↔
        a.overwrites = some (classOf old) := by
      rw [Action.Accepts, ← toClass_eq_none, toClass_ofType]
      simp
    by_cases hover : a.overwrites = some (classOf old)
    · rw [hwrite (haccepts.2 hover)]
      show JsonTree.update (b.walked ++ [cStr leaf]) _ _ = _
      rw [JsonTree.update_concat]
      refine JsonTree.update_congr fun c hc => ?_
      obtain rfl : t = c := Option.some.inj (hget.symm.trans hc)
      simp only [refLeaf, hchild, if_pos hover]
    · rw [hkeep fun hacc => hover (haccepts.1 hacc)]
      refine (JsonTree.update_of_fixed fun c hc => ?_).symm
      obtain rfl : t = c := Option.some.inj (hget.symm.trans hc)
      simp only [refLeaf, hchild, if_neg hover]

/-- One whole statement, run between statements, is one step of the reference and
ends its walk. -/
theorem exec_spec (h : Coherent b) (hnodes : b.valueNodes = []) (st : Statement)
    {t : Rapidjson.Value} (hget : b.document.get? (locOf st.parents) = some t) (ht : t.IsObject) :
    ∃ b', st.exec b = .ok b' ∧ Coherent b' ∧ b'.valueNodes = [] ∧
      b'.document = JsonTree.update (locOf st.parents)
        (refLeaf (cStr st.leaf) st.action.overwrites st.action.stored) b.document := by
  have hroot : b.walked = [] := by simp [walked, hnodes]
  obtain ⟨b₀, hwalk, hinv₀, hdoc₀, hwalked⟩ := walk_spec h st.parents
    (by rw [hroot]; exact hget)
  rw [hroot, List.nil_append] at hwalked
  obtain ⟨b₁, b', hleaf, hrun, hinv', hnodes', hdoc'⟩ :=
    leaf_spec hinv₀ (by rw [hwalked, hdoc₀]; exact hget) ht st.leaf st.action
  refine ⟨b', ?_, hinv', hnodes', by rw [hdoc', hwalked, hdoc₀]⟩
  have hsub : b.subscripts (st.parents ++ [st.leaf]) = .ok b₁ := by
    rw [subscripts] at hwalk
    rw [subscripts, ExceptRun.foldlM_concat, hwalk]
    exact hleaf
  rw [Statement.exec, hsub]
  exact hrun

/-! ## Programs -/

theorem refLeaf_isObject {k : Str} {overwrites : Option JsonClass} {value t : Rapidjson.Value}
    (ht : t.IsObject) : (refLeaf k overwrites value t).IsObject := by
  unfold refLeaf
  split
  · exact JsonTree.append_isObject ht k value
  · split
    · exact (JsonTree.mapMember_isObject_iff _ _ _).2 ht
    · exact ht

theorem locOf_eq_self {keys : List Str} (h : ∀ k ∈ keys, 0 ∉ k) : locOf keys = keys := by
  rw [locOf, List.map_congr_left fun k hk => cStr_of_not_mem (h k hk)]
  exact List.map_id' keys

theorem ScalarArg.stored_eq_value {x : ScalarArg} (h : x.NulFree) : x.stored = x.value := by
  cases x with
  | string s => simp only [stored, value, cStr_of_not_mem h]
  | cstr s => simp only [stored, value, cStr_of_not_mem h]
  | uint n => rfl
  | int n => rfl
  | double d => rfl
  | float d => rfl
  | bool b => rfl

theorem Action.NulFree.stored_eq_value {a : Action} (h : a.NulFree) : a.stored = a.value := by
  cases a with
  | createJsonObject => rfl
  | assign x => exact ScalarArg.stored_eq_value h

/-- Without NUL bytes the step of the builder is the step of the reference. -/
theorem Statement.NulFree.refStep_eq {st : Statement} (h : st.NulFree) (t : Rapidjson.Value) :
    refStep t st = JsonTree.update (locOf st.parents)
      (refLeaf (cStr st.leaf) st.action.overwrites st.action.stored) t := by
  have hparents : locOf st.parents = st.parents :=
    locOf_eq_self fun k hk => h.1 k (List.mem_append_left _ hk)
  have hleaf : cStr st.leaf = st.leaf :=
    cStr_of_not_mem (h.1 _ (List.mem_append_right _ (List.mem_singleton_self _)))
  rw [refStep, hparents, hleaf, h.2.stored_eq_value]

/-- The last of these objects, which may be the root. -/
theorem ObjectsAlong.last {t : Rapidjson.Value} {l : Loc} (h : ObjectsAlong t l) (ht : t.IsObject) :
    ∃ v, t.get? l = some v ∧ v.IsObject := by
  by_cases hnil : l = []
  · exact ⟨t, by rw [hnil]; rfl, ht⟩
  · exact h l hnil (List.prefix_refl _)

/-- The statements are scoped when the reference runs them, from `t` on. -/
def RefScoped : Rapidjson.Value → List Statement → Prop
  | _, [] => True
  | t, st :: prog => st.Scoped t ∧ RefScoped (refStep t st) prog

instance (t : Rapidjson.Value) (l : Loc) : Decidable (ObjectsAlong t l) :=
  decidable_of_iff (∀ m ∈ l.inits, m ≠ [] → ∃ v ∈ t.get? m, v.IsObject) (by
    simp only [ObjectsAlong, List.mem_inits, Option.mem_def]
    exact ⟨fun h m hne hm => h m hm hne, fun h m hm hne => h m hne hm⟩)

instance decidableRefScoped : (prog : List Statement) → (t : Rapidjson.Value) →
    Decidable (RefScoped t prog)
  | [], _ => isTrue trivial
  | st :: prog, t =>
    @instDecidableAnd (ObjectsAlong t st.parents) _ inferInstance
      (decidableRefScoped prog (refStep t st))

/-- A program that is scoped for the reference is scoped for the builder. -/
theorem scoped_of_refScoped (h : Coherent b) (hnodes : b.valueNodes = [])
    (hobj : b.document.IsObject) {prog : List Statement} (hnul : ∀ st ∈ prog, st.NulFree)
    (hscope : RefScoped b.document prog) {done : List Statement} {st : Statement}
    (hdone : done ++ [st] <+: prog) {b' : ValueBuilder} (hexec : exec b done = .ok b') :
    st.Scoped b'.document := by
  induction prog generalizing b done with
  | nil => simp at hdone
  | cons first prog ih =>
    obtain ⟨hfirst, hrest⟩ := hscope
    cases done with
    | nil =>
      obtain rfl : b = b' := Except.ok.inj hexec
      obtain rfl : st = first := by simpa using hdone
      exact hfirst
    | cons first' done =>
      obtain ⟨rfl, hdone'⟩ := List.cons_prefix_cons.1 hdone
      have hst : first'.NulFree := hnul _ List.mem_cons_self
      have hparents : locOf first'.parents = first'.parents :=
        locOf_eq_self fun k hk => hst.1 k (List.mem_append_left _ hk)
      obtain ⟨v, hv, hvobj⟩ := hfirst.last hobj
      obtain ⟨b₁, hexec₁, hinv₁, hnodes₁, hdoc₁⟩ :=
        exec_spec h hnodes first' (by rw [hparents]; exact hv) hvobj
      rw [exec, List.foldlM_cons, hexec₁] at hexec
      refine ih hinv₁ hnodes₁ ?_ (fun st hst => hnul st (List.mem_cons_of_mem _ hst))
        ?_ hdone' hexec
      · rw [hdoc₁]
        exact JsonTree.update_isObject hobj fun _ => refLeaf_isObject hobj
      · rw [hdoc₁, ← hst.refStep_eq]
        exact hrest

/-- After every statement of a scoped program the document is the reference
document, and the next statement starts at the root. -/
theorem program_builds_document (prog : List Statement) (hnul : ∀ st ∈ prog, st.NulFree)
    (hscope : ScopedProgram prog) (done : List Statement) (hdone : done <+: prog) :
    ∃ b, exec init done = .ok b ∧ b.document = refRun done ∧
      b.getNodeValue = ValuePtr.root := by
  suffices hrun : ∃ b, exec init done = .ok b ∧ b.document = refRun done ∧ Coherent b ∧
      b.valueNodes = [] ∧ b.document.IsObject by
    obtain ⟨b, hexec, hdoc, -, hnodes, -⟩ := hrun
    refine ⟨b, hexec, hdoc, ?_⟩
    simp [getNodeValue, hnodes]
  induction done using List.reverseRecOn with
  | nil => exact ⟨init, rfl, rfl, Coherent.init, rfl, ⟨_, rfl⟩⟩
  | append_singleton done st ih =>
    obtain ⟨b, hexec, hdoc, hinv, hnodes, hobj⟩ :=
      ih ((List.prefix_append _ _).trans hdone)
    have hst : st.NulFree := hnul st (hdone.subset (by simp))
    have hparents : locOf st.parents = st.parents :=
      locOf_eq_self fun k hk => hst.1 k (List.mem_append_left _ hk)
    obtain ⟨v, hv, hvobj⟩ := (hscope done st hdone b hexec).last hobj
    obtain ⟨b', hexec', hinv', hnodes', hdoc'⟩ :=
      exec_spec hinv hnodes st (by rw [hparents]; exact hv) hvobj
    refine ⟨b', ?_, ?_, hinv', hnodes', ?_⟩
    · rw [exec] at hexec
      rw [exec, ExceptRun.foldlM_concat, hexec]
      exact hexec'
    · rw [hdoc', ← hst.refStep_eq, hdoc, refRun, refRun, List.foldl_append]
      rfl
    · rw [hdoc']
      exact JsonTree.update_isObject hobj fun _ => refLeaf_isObject hobj

/-- The program of the test "[JsonBuilder] Multi Level Test". -/
def multiLevelTest : List Statement :=
  [⟨[], str "key0", .assign (.cstr (str "value0"))⟩,
   ⟨[], str "object", .createJsonObject⟩,
   ⟨[str "object"], str "key1", .assign (.cstr (str "value1"))⟩,
   ⟨[str "object"], str "key2", .assign (.cstr (str "value2"))⟩,
   ⟨[str "object"], str "inner", .createJsonObject⟩,
   ⟨[str "object", str "inner"], str "status", .assign (.int 1)⟩,
   ⟨[], str "other", .assign (.bool true)⟩]

/-- The test builds its document. -/
theorem multiLevelTest_builds :
    ∃ b, exec init multiLevelTest = .ok b ∧ b.document = refRun multiLevelTest ∧
      b.getNodeValue = ValuePtr.root :=
  program_builds_document multiLevelTest (by decide)
    (fun _ _ hdone _ hexec => scoped_of_refScoped Coherent.init rfl ⟨_, rfl⟩ (by decide)
      (by decide) hdone hexec)
    multiLevelTest (List.prefix_refl _)

end Piconaut.Formats.Json
