import Piconaut.Formats.Json.BuilderPrograms

/-!
# When an assignment ends its statement

The scalar assignments and `CreateJsonObject` clear `value_nodes_`, so the next
subscript starts at the root.  `operator=(const ValueBuilder&)` does not, and the
next subscript goes on from the value that was assigned.

`EndsStatement` is what a program relies on: after `json[k1]...[kn] = rhs` the
subscript `json[q]` reaches the member `q` of the root, and what is assigned there
leaves the value at `k1...kn` alone.  `endsStatement_iff` gives the right-hand
sides and keys for which it holds.
-/

namespace Piconaut.Formats.Json

open Piconaut.CppStd Piconaut.Rapidjson ValueBuilder

/-- The right-hand side of an assignment. -/
inductive Rhs where
  | scalar (x : ScalarArg)
  /-- The builder itself. -/
  | self
  | other (builder : ValueBuilder)

/-- `b = rhs`.  `operator=(const ValueBuilder&)` returns at once if both sides are
the same builder. -/
def Rhs.assign (rhs : Rhs) (b : ValueBuilder) : Except Fault ValueBuilder :=
  match rhs with
  | scalar x => b.assign x
  | self => .ok b
  | other builder => assignBuilder builder b

/-- The value that the right-hand side stands for. -/
def Rhs.stored : Rhs → Option Rapidjson.Value
  | scalar x => some x.stored
  | self => none
  | other builder => some builder.document

/-- The right-hand side may be written over the old value, if there is one. -/
def Rhs.Fits : Rhs → Option Rapidjson.Value → Prop
  | scalar x, old => ∀ v, old = some v → classOf v = x.cls
  | self, _ => False
  | other _, _ => True

/-- `json[k1]...[kn] = rhs`. -/
def assignAt (b : ValueBuilder) (keys : List Str) (rhs : Rhs) : Except Fault ValueBuilder := do
  let b ← b.subscripts keys
  rhs.assign b

/-- A builder as whole statements leave it. -/
def ReachedByStatements (b : ValueBuilder) : Prop := ∃ prog, exec init prog = .ok b

/-- The assignment `json[parents][leaf] = rhs` ends its statement: the subscript
`q` that follows reaches a member of the root, and an assignment to it keeps the
value that was just assigned. -/
def EndsStatement (b : ValueBuilder) (parents : List Str) (leaf : Str) (rhs : Rhs) (q : Str) :
    Prop :=
  ∃ b₁ b₂, assignAt b (parents ++ [leaf]) rhs = .ok b₁ ∧
    (rhs.Fits (b.document.get? (locOf (parents ++ [leaf]))) →
      b₁.document.get? (locOf (parents ++ [leaf])) = rhs.stored) ∧
    b₁.subscript q = .ok b₂ ∧
    b₂.currentValue = some (ValuePtr.to [cStr q]) ∧
    (q ≠ parents.headD leaf → ∀ y : Rhs, ∃ b₃, y.assign b₂ = .ok b₃ ∧
      b₃.document.get? (locOf (parents ++ [leaf])) =
        b₁.document.get? (locOf (parents ++ [leaf])))

/-! ## Between statements -/

variable {b : ValueBuilder}

/-- The state between two statements. -/
structure AtRest (b : ValueBuilder) : Prop where
  inv : Coherent b
  nodes : b.valueNodes = []
  root : b.document.IsObject

theorem AtRest.walked_eq (h : AtRest b) : b.walked = [] := by
  simp [walked, h.nodes]

/-- Subscripts that succeed walk the keys, and keep the root an object. -/
theorem subscripts_spec (h : Coherent b) (hroot : b.document.IsObject) {keys : List Str}
    {b' : ValueBuilder} (hrun : b.subscripts keys = .ok b') :
    Coherent b' ∧ b'.document.IsObject ∧ b'.walked = b.walked ++ locOf keys := by
  induction keys generalizing b with
  | nil =>
    obtain rfl : b = b' := Except.ok.inj hrun
    exact ⟨h, hroot, by simp⟩
  | cons key keys ih =>
    obtain ⟨b₁, hstep, hrest⟩ := ExceptRun.foldlM_cons_eq_ok.1 hrun
    have hroot₁ : b₁.document.IsObject := by
      obtain ⟨t, -, -, ⟨v, -, rfl⟩ | ⟨-, rfl⟩⟩ := h.subscript_cases hstep
      · exact hroot
      · exact JsonTree.update_isObject hroot fun _ => JsonTree.append_isObject hroot _ _
    obtain ⟨hinv, hobj, hwalked⟩ := ih (h.subscript hstep) hroot₁ hrest
    refine ⟨hinv, hobj, ?_⟩
    rw [hwalked, h.walked_subscript hstep]
    simp

theorem AtRest.exec (h : AtRest b) {st : Statement} {b' : ValueBuilder}
    (hrun : st.exec b = .ok b') : AtRest b' := by
  obtain ⟨b₁, hsub, hact⟩ := ExceptRun.bind_eq_ok_iff.1 hrun
  obtain ⟨hinv, hroot, hwalked⟩ := subscripts_spec h.inv h.root hsub
  have hne : b₁.walked ≠ [] := by
    rw [hwalked]
    simp
  obtain ⟨b₂, hact₂, hinv₂, hnodes₂, hwrite, hkeep⟩ := Action.run_spec hinv st.action
  obtain rfl : b₂ = b' := Except.ok.inj (hact₂.symm.trans hact)
  refine ⟨hinv₂, hnodes₂, ?_⟩
  by_cases hacc : st.action.Accepts b₁.currentType
  · rw [hwrite hacc, hinv.currentLoc_of_walked hne]
    exact JsonTree.update_isObject hroot fun hnil => absurd hnil hne
  · rw [hkeep hacc]
    exact hroot

theorem atRest_init : AtRest ValueBuilder.init := ⟨Coherent.init, rfl, ⟨_, rfl⟩⟩

theorem ReachedByStatements.atRest (h : ReachedByStatements b) : AtRest b := by
  obtain ⟨prog, hrun⟩ := h
  exact ExceptRun.foldlM_invariant (fun _ _ _ hrest hstep => hrest.exec hstep) atRest_init hrun

/-! ## Assignments of builders -/

/-- After an assignment of a builder the walk is where it was, so the next
subscript is not resolved from the root. -/
theorem AtRest.not_endsStatement (h : AtRest b) (parents : List Str) (leaf : Str)
    {rhs : Rhs} (hrhs : ∀ x, rhs ≠ .scalar x) (q : Str) :
    ¬ EndsStatement b parents leaf rhs q := by
  rintro ⟨b₁, b₂, hassign, -, hsub, hcur, -⟩
  obtain ⟨b₀, hwalk, hrhs₀⟩ := ExceptRun.bind_eq_ok_iff.1 hassign
  obtain ⟨hinv₀, -, hwalked₀⟩ := subscripts_spec h.inv h.root hwalk
  have hafter : Coherent b₁ ∧ b₁.walked = b₀.walked := by
    cases rhs with
    | scalar x => exact absurd rfl (hrhs x)
    | self =>
      obtain rfl : b₀ = b₁ := Except.ok.inj hrhs₀
      exact ⟨hinv₀, rfl⟩
    | other builder =>
      obtain rfl : b₀.embed builder = b₁ :=
        Except.ok.inj ((hinv₀.assignBuilder_eq builder).symm.trans hrhs₀)
      exact ⟨hinv₀.embed builder, rfl⟩
  have hlong := hafter.1.subscript_currentValue hsub
  rw [hafter.2, hwalked₀, h.walked_eq, hcur] at hlong
  have hlen := congrArg (fun p => (p.getD ValuePtr.root).loc.length) hlong
  simp at hlen

/-! ## Assignments of scalars -/

/-- What a scalar assignment leaves under its path. -/
theorem get?_refLeaf {document t : Rapidjson.Value} {l : Loc} {k : Str} (x : ScalarArg)
    (hget : document.get? l = some t) (ht : t.IsObject) :
    ∃ w, (JsonTree.update l (refLeaf k (some x.cls) x.stored) document).get? (l ++ [k]) =
        some w ∧
      ((∀ v, document.get? (l ++ [k]) = some v → classOf v = x.cls) → w = x.stored) := by
  rw [JsonTree.get?_concat, JsonTree.get?_concat, JsonTree.get?_update_self, hget]
  simp only [Option.map_some, Option.bind_some, refLeaf]
  cases hchild : t.child? k with
  | none =>
    refine ⟨x.stored, ?_, fun _ => rfl⟩
    simp [JsonTree.child?_append ht, hchild]
  | some old =>
    by_cases hcls : some x.cls = some (classOf old)
    · refine ⟨x.stored, ?_, fun _ => rfl⟩
      simp only [if_pos hcls, JsonTree.child?_mapMember_self, hchild, Option.map_some]
    · refine ⟨old, ?_, fun hfits => ?_⟩
      · simp only [if_neg hcls, hchild]
      · exact absurd (congrArg some (hfits old rfl).symm) hcls

/-- Between statements a subscript succeeds.  It reaches a member of the root and
changes no other member. -/
theorem AtRest.subscript_spec (h : AtRest b) (q : Str) :
    ∃ b', b.subscript q = .ok b' ∧ Coherent b' ∧ b'.walked = [cStr q] ∧
      ∀ k l, k ≠ cStr q → b'.document.get? (k :: l) = b.document.get? (k :: l) := by
  have hget : b.document.get? b.walked = some b.document := by rw [h.walked_eq]; rfl
  have hrun := h.inv.subscript_eq q hget h.root
  refine ⟨_, hrun, h.inv.subscript hrun, ?_, ?_⟩
  · rw [h.inv.walked_subscript hrun, h.walked_eq, List.nil_append]
  · intro k l hk
    split
    · rfl
    · show (JsonTree.update b.walked _ b.document).get? (k :: l) = _
      rw [h.walked_eq]
      exact JsonTree.get?_append_member_of_ne _ l hk

/-- An assignment after one subscript writes the member it reached, or nothing. -/
theorem Rhs.assign_spec (h : Coherent b) {k : Str} (hwalked : b.walked = [k]) (y : Rhs) :
    ∃ b', y.assign b = .ok b' ∧
      (b'.document = b.document ∨
        ∃ v, b'.document = JsonTree.update [k] (fun _ => v) b.document) := by
  have hloc : b.currentLoc = [k] := by
    rw [h.currentLoc_of_walked (by rw [hwalked]; exact List.cons_ne_nil _ _), hwalked]
  cases y with
  | scalar x =>
    refine ⟨_, h.assign_eq x, ?_⟩
    split
    · exact Or.inr ⟨x.stored, by rw [overwrite, hloc]⟩
    · exact Or.inl rfl
  | self => exact ⟨b, rfl, Or.inl rfl⟩
  | other builder =>
    exact ⟨_, h.assignBuilder_eq builder, Or.inr ⟨builder.document, by rw [embed, hwalked]⟩⟩

/-- The path of an assignment starts with its first key. -/
theorem locOf_eq_cons (parents : List Str) (leaf : Str) :
    ∃ rest, locOf (parents ++ [leaf]) = cStr (parents.headD leaf) :: rest := by
  cases parents with
  | nil => exact ⟨[], rfl⟩
  | cons k parents => exact ⟨locOf (parents ++ [leaf]), rfl⟩

/-- The value under the path of a scalar assignment is there afterwards, and it is
the assigned one where that one fits. -/
theorem AtRest.assignAt_scalar (h : AtRest b) {parents : List Str} (leaf : Str)
    (hparents : ObjectsAlong b.document (locOf parents)) (x : ScalarArg) :
    ∃ b₁ w, assignAt b (parents ++ [leaf]) (.scalar x) = .ok b₁ ∧ AtRest b₁ ∧
      b₁.document.get? (locOf (parents ++ [leaf])) = some w ∧
      ((Rhs.scalar x).Fits (b.document.get? (locOf (parents ++ [leaf]))) → w = x.stored) := by
  obtain ⟨t, ht, hobj⟩ := hparents.last h.root
  have hpath : locOf (parents ++ [leaf]) = locOf parents ++ [cStr leaf] := by simp
  obtain ⟨b₁, hexec, -, -, hdoc⟩ :=
    exec_spec h.inv h.nodes ⟨parents, leaf, .assign x⟩ ht hobj
  obtain ⟨w, hw, hfits⟩ := get?_refLeaf (k := cStr leaf) x ht hobj
  refine ⟨b₁, w, hexec, h.exec hexec, ?_, ?_⟩
  · rw [hdoc, hpath]
    exact hw
  · rw [hpath]
    exact hfits

/-- A scalar assignment ends its statement, provided that `q` is another C string
than the first key or the same key. -/
theorem AtRest.endsStatement (h : AtRest b) {parents : List Str} {leaf : Str}
    (hparents : ObjectsAlong b.document (locOf parents)) (x : ScalarArg) {q : Str}
    (hq : cStr q = cStr (parents.headD leaf) → q = parents.headD leaf) :
    EndsStatement b parents leaf (.scalar x) q := by
  obtain ⟨b₁, w, hassign, hrest, hw, hfits⟩ := h.assignAt_scalar leaf hparents x
  obtain ⟨b₂, hsub, hinv₂, hwalked₂, hframe₂⟩ := hrest.subscript_spec q
  refine ⟨b₁, b₂, hassign, ?_, hsub, ?_, ?_⟩
  · intro hfit
    rw [hw, hfits hfit]
    rfl
  · rw [hrest.inv.subscript_currentValue hsub, hrest.walked_eq, List.nil_append]
  · intro hne y
    obtain ⟨rest, hpath⟩ := locOf_eq_cons parents leaf
    have hkey : cStr (parents.headD leaf) ≠ cStr q := fun heq => hne (hq heq.symm)
    obtain ⟨b₃, hassign₃, hdoc₃⟩ := Rhs.assign_spec hinv₂ hwalked₂ y
    refine ⟨b₃, hassign₃, ?_⟩
    rw [hpath, ← hframe₂ _ rest hkey]
    rcases hdoc₃ with hsame | ⟨v, hwrite⟩
    · rw [hsame]
    · rw [hwrite]
      refine JsonTree.get?_update_disjoint _ _ ?_ ?_
      · intro hpre
        exact hkey (List.cons_prefix_cons.1 hpre).1.symm
      · intro hpre
        exact hkey (List.cons_prefix_cons.1 hpre).1

/-- If `q` is another key with the C string of the first one, an assignment to it
can change the value that was just assigned. -/
theorem AtRest.key_eq_of_endsStatement (h : AtRest b) {parents : List Str} {leaf : Str}
    (hparents : ObjectsAlong b.document (locOf parents)) {x : ScalarArg} {q : Str}
    (hends : EndsStatement b parents leaf (.scalar x) q)
    (hq : cStr q = cStr (parents.headD leaf)) : q = parents.headD leaf := by
  by_contra hne
  obtain ⟨b₁, w, hassign, hrest, hw, -⟩ := h.assignAt_scalar leaf hparents x
  obtain ⟨b₁', b₂, hassign', -, hsub, -, hkeep⟩ := hends
  obtain rfl : b₁ = b₁' := Except.ok.inj (hassign.symm.trans hassign')
  obtain ⟨b₂', hsub', hinv₂, hwalked₂, -⟩ := hrest.subscript_spec q
  obtain rfl : b₂ = b₂' := Except.ok.inj (hsub.symm.trans hsub')
  obtain ⟨rest, hpath⟩ := locOf_eq_cons parents leaf
  -- whatever builder is assigned to `q`, its document is then found under the path
  have hread : ∀ other : ValueBuilder, other.document.get? rest = some w := by
    intro other
    obtain ⟨b₃, hassign₃, hsame⟩ := hkeep hne (.other other)
    obtain rfl : b₂.embed other = b₃ :=
      Except.ok.inj ((hinv₂.assignBuilder_eq other).symm.trans hassign₃)
    obtain ⟨v, hv⟩ := hinv₂.node
    rw [hwalked₂] at hv
    rw [hw, hpath, ← hq, embed, hwalked₂] at hsame
    have happ := JsonTree.get?_update_append b₂.document [cStr q] rest fun _ => other.document
    rw [hv, Option.bind_some] at happ
    rw [← happ]
    exact hsame
  have hempty := hread init
  have htrue := hread { init with document := .scalar (.bool true) }
  cases rest with
  | nil =>
    rw [JsonTree.get?_nil] at hempty htrue
    cases Option.some.inj (hempty.trans htrue.symm)
  | cons k rest => cases htrue

/-- An assignment ends its statement exactly if the right-hand side is a scalar,
and the next key is not a second spelling of the first key. -/
theorem endsStatement_iff (b : ValueBuilder) (hb : ReachedByStatements b)
    (parents : List Str) (leaf : Str)
    (hparents : ObjectsAlong b.document (locOf parents)) (rhs : Rhs) (q : Str) :
    EndsStatement b parents leaf rhs q ↔
      (∃ x, rhs = .scalar x) ∧
        (cStr q = cStr (parents.headD leaf) → q = parents.headD leaf) := by
  constructor
  · intro hends
    by_cases hscalar : ∃ x, rhs = .scalar x
    · refine ⟨hscalar, ?_⟩
      obtain ⟨x, rfl⟩ := hscalar
      exact hb.atRest.key_eq_of_endsStatement hparents hends
    · have hother : ∀ x, rhs ≠ .scalar x := fun x hx => hscalar ⟨x, hx⟩
      exact absurd hends (hb.atRest.not_endsStatement parents leaf hother q)
  · rintro ⟨⟨x, rfl⟩, hq⟩
    exact hb.atRest.endsStatement hparents x hq

/-- The builder after `json["object"].CreateJsonObject()`. -/
def withObject : ValueBuilder where
  document := .object [(str "object", emptyObject)]
  currentValue := some (ValuePtr.to [str "object"])
  isEmpty := false
  currentType := .kObjectType
  valueNodes := []

theorem withObject_reached : ReachedByStatements withObject :=
  ⟨[⟨[], str "object", .createJsonObject⟩], rfl⟩

/-- `json["object"]["key1"] = 1` and then `json["other"]`. -/
theorem withObject_endsStatement :
    EndsStatement withObject [str "object"] (str "key1") (.scalar (.int 1)) (str "other") :=
  (endsStatement_iff withObject withObject_reached [str "object"] (str "key1") (by decide)
    (.scalar (.int 1)) (str "other")).2 ⟨⟨_, rfl⟩, by decide⟩

/-- `json["a"] = other` for a fresh `other`, and then `json["b"]`: the subscript
goes on inside `a`. -/
theorem builder_assignment_continues :
    ReachedByStatements init ∧ ObjectsAlong init.document (locOf []) ∧ str "b" ≠ str "a" ∧
      ¬ EndsStatement init [] (str "a") (.other init) (str "b") :=
  ⟨⟨[], rfl⟩, by decide, by decide,
    atRest_init.not_endsStatement [] (str "a")
      (fun _ h => by cases h) (str "b")⟩

end Piconaut.Formats.Json
