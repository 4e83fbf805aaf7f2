import Piconaut.Formats.Json.BuilderPrograms

/-!
# When an initialised member keeps its class

The guard of an assignment compares the class of its argument with
`current_type_`, not with the value that is there.  The two agree as long as the
type is known.  `operator=(bool)` and `operator=(const char*)` leave it
undetermined, and so does a copy construction.  A further assignment through the
same reference then overwrites what is there.

`StepKeeps` is the law of one call: no initialised member changes its class, and a
call that would change it leaves the document alone.  `StepMeets` is the condition
on the state before the call.  `classes_kept_iff` says that a run of calls obeys
the law exactly if its calls meet the condition.
-/

namespace Piconaut.Formats.Json

open Piconaut.CppStd Piconaut.Rapidjson ValueBuilder

/-! ## Runs of calls -/

/-- A call on a builder: a subscript, a scalar assignment or `CreateJsonObject`. -/
inductive BuilderOp where
  | subscript (key : Str)
  | action (a : Action)

/-- The effect of a call. -/
def BuilderOp.apply : BuilderOp → ValueBuilder → Except Fault ValueBuilder
  | subscript key, b => b.subscript key
  | action a, b => a.run b

/-- A run of calls. -/
def runOps (b : ValueBuilder) (ops : List BuilderOp) : Except Fault ValueBuilder :=
  ops.foldlM (fun b op => op.apply b) b

/-- The class that an action gives to the current value. -/
def Action.cls : Action → JsonClass
  | createJsonObject => .object
  | assign x => x.cls

/-- The class that a call gives to the current value, if it gives one. -/
def BuilderOp.cls : BuilderOp → Option JsonClass
  | subscript _ => none
  | action a => some a.cls

/-! ## The law and its condition -/

/-- The member at `l` holds a value of class `c`.  A null member has been
subscripted and not assigned. -/
def InitialisedAs (t : Rapidjson.Value) (l : Loc) (c : JsonClass) : Prop :=
  l ≠ [] ∧ c ≠ .null ∧ ∃ v, t.get? l = some v ∧ classOf v = c

/-- Initialised members keep their class, and a call of another class than the one
of the current member is refused. -/
def StepKeeps (b : ValueBuilder) (op : BuilderOp) (b' : ValueBuilder) : Prop :=
  (∀ l c, InitialisedAs b.document l c → InitialisedAs b'.document l c) ∧
    ∀ c c', op.cls = some c' → InitialisedAs b.document b.currentLoc c → c ≠ c' →
      b'.document = b.document

/-- Every initialised member at or below `l` is the one at `l`, with class `c`. -/
def OnlyHolds (t : Rapidjson.Value) (l : Loc) (c : JsonClass) : Prop :=
  ∀ l' c', InitialisedAs t l' c' → l <+: l' → l' = l ∧ c' = c

/-- The type of the current value is known, or the call overwrites nothing but
values of its own class. -/
def StepMeets (b : ValueBuilder) (op : BuilderOp) : Prop :=
  ∀ c, op.cls = some c →
    b.currentType ≠ .kUnknown ∨ OnlyHolds b.document b.currentLoc c

/-- Every call of the run obeys the law. -/
def RunKeeps : ValueBuilder → List BuilderOp → Prop
  | _, [] => True
  | b, op :: ops => ∀ b', op.apply b = .ok b' → StepKeeps b op b' ∧ RunKeeps b' ops

/-- Every call of the run meets the condition. -/
def RunMeets : ValueBuilder → List BuilderOp → Prop
  | _, [] => True
  | b, op :: ops => StepMeets b op ∧ ∀ b', op.apply b = .ok b' → RunMeets b' ops

/-! ## What an update does to the classes -/

theorem classOf_mapMember (k : Str) (f : Rapidjson.Value → Rapidjson.Value)
    (t : Rapidjson.Value) : classOf (JsonTree.mapMember k f t) = classOf t := by
  cases t <;> rfl

/-- An update can only change what is at or below its location. -/
theorem initialisedAs_update {t : Rapidjson.Value} {l : Loc}
    {f : Rapidjson.Value → Rapidjson.Value}
    (hbelow : ∀ m c, InitialisedAs t (l ++ m) c →
      InitialisedAs (JsonTree.update l f t) (l ++ m) c)
    {l' : Loc} {c : JsonClass} (h : InitialisedAs t l' c) :
    InitialisedAs (JsonTree.update l f t) l' c := by
  by_cases hl : l <+: l'
  · obtain ⟨m, rfl⟩ := hl
    exact hbelow m c h
  · obtain ⟨hne, hnull, v, hv, hcls⟩ := h
    by_cases hl' : l' <+: l
    · obtain ⟨m, rfl⟩ := hl'
      refine ⟨hne, hnull, JsonTree.update m f v, ?_, ?_⟩
      · rw [JsonTree.get?_update_prefix, hv, Option.map_some]
      · cases m with
        | nil => exact absurd (by simp) hl
        | cons k m =>
          rw [JsonTree.update_cons, classOf_mapMember]
          exact hcls
    · refine ⟨hne, hnull, v, ?_, hcls⟩
      rw [JsonTree.get?_update_disjoint _ _ hl hl', hv]

/-- Appending a member keeps the classes. -/
theorem initialisedAs_append {t u : Rapidjson.Value} {l : Loc} {k : Str} (v : Rapidjson.Value)
    (hget : t.get? l = some u) (hu : u.IsObject) {l' : Loc} {c : JsonClass}
    (h : InitialisedAs t l' c) :
    InitialisedAs (JsonTree.update l (JsonTree.append k v) t) l' c := by
  refine initialisedAs_update (fun m c hm => ?_) h
  obtain ⟨hne, hnull, w, hw, hcls⟩ := hm
  rw [JsonTree.get?_append, hget, Option.bind_some] at hw
  rw [InitialisedAs, JsonTree.get?_update_append, hget, Option.bind_some]
  cases m with
  | nil =>
    obtain rfl : u = w := Option.some.inj hw
    obtain ⟨ms, rfl⟩ := hu
    exact ⟨hne, hnull, _, rfl, hcls⟩
  | cons k' m =>
    refine ⟨hne, hnull, w, ?_, hcls⟩
    obtain ⟨d, hd, hrest⟩ := Option.bind_eq_some_iff.1 hw
    rw [JsonTree.get?_cons, JsonTree.child?_append hu, hd, Option.some_or, Option.bind_some]
    exact hrest

/-- Writing a value without members keeps the classes exactly if nothing else than
its class is lost. -/
theorem initialisedAs_write_iff {t u v : Rapidjson.Value} {l : Loc} (hget : t.get? l = some u)
    (hleaf : ∀ k, v.child? k = none) :
    (∀ l' c, InitialisedAs t l' c →
        InitialisedAs (JsonTree.update l (fun _ => v) t) l' c) ↔
      OnlyHolds t l (classOf v) := by
  constructor
  · rintro hkeep l' c h ⟨m, rfl⟩
    obtain ⟨-, -, w, hw, hcls⟩ := hkeep _ c h
    rw [JsonTree.get?_update_append, hget, Option.bind_some] at hw
    cases m with
    | nil =>
      obtain rfl : v = w := Option.some.inj hw
      exact ⟨List.append_nil l, hcls.symm⟩
    | cons k m =>
      rw [JsonTree.get?_cons, hleaf k] at hw
      cases hw
  · intro honly l' c h
    refine initialisedAs_update (fun m c hm => ?_) h
    obtain ⟨hm', rfl⟩ := honly _ c hm (List.prefix_append l m)
    obtain rfl : m = [] := by simpa using hm'
    obtain ⟨hne, hnull, -⟩ := hm
    refine ⟨hne, hnull, v, ?_, rfl⟩
    rw [List.append_nil, JsonTree.get?_update_self, hget, Option.map_some]

/-! ## One call -/

variable {b : ValueBuilder}

theorem Action.classOf_stored (a : Action) : classOf a.stored = a.cls := by
  cases a with
  | createJsonObject => rfl
  | assign x => exact x.classOf_stored

theorem Action.child?_stored (a : Action) (k : Str) : a.stored.child? k = none := by
  cases a with
  | createJsonObject => rfl
  | assign x => exact x.child?_stored k

/-- A value that an action overwrites for its class has no members. -/
theorem onlyHolds_of_overwrites {t v : Rapidjson.Value} {l : Loc} (hget : t.get? l = some v)
    {a : Action} (hover : a.overwrites = some (classOf v)) : OnlyHolds t l a.cls := by
  rintro l' c ⟨-, -, w, hw, hcls⟩ ⟨m, rfl⟩
  cases a with
  | createJsonObject => cases hover
  | assign x =>
    have hx : x.cls = classOf v := Option.some.inj hover
    have hleaf : ¬ v.IsObject := by
      rintro ⟨ms, rfl⟩
      cases x <;> cases hx
    rw [JsonTree.get?_append, hget, Option.bind_some] at hw
    cases m with
    | nil =>
      obtain rfl : v = w := Option.some.inj hw
      exact ⟨List.append_nil l, hcls.symm.trans hx.symm⟩
    | cons k m =>
      rw [JsonTree.get?_cons, JsonTree.child?_of_not_object hleaf] at hw
      cases hw

/-- A subscript obeys the law. -/
theorem ValueBuilder.Coherent.stepKeeps_subscript (h : Coherent b) {key : Str} {b' : ValueBuilder}
    (hrun : b.subscript key = .ok b') : StepKeeps b (.subscript key) b' := by
  refine ⟨?_, fun _ _ hcls => by cases hcls⟩
  intro l c hinit
  obtain ⟨t, ht, hobj, ⟨v, -, rfl⟩ | ⟨-, rfl⟩⟩ := h.subscript_cases hrun
  · exact hinit
  · exact initialisedAs_append nullValue ht hobj hinit

/-- An action obeys the law exactly if it meets the condition. -/
theorem ValueBuilder.Coherent.stepKeeps_action_iff (h : Coherent b) {a : Action} {b' : ValueBuilder}
    (hrun : a.run b = .ok b') : StepKeeps b (.action a) b' ↔ StepMeets b (.action a) := by
  obtain ⟨v, hv, htype⟩ := h.value
  obtain ⟨b₁, hrun₁, -, -, hwrite, hkeep⟩ := Action.run_spec h a
  obtain rfl : b₁ = b' := Except.ok.inj (hrun₁.symm.trans hrun)
  have hiff := initialisedAs_write_iff hv (v := a.stored) a.child?_stored
  rw [a.classOf_stored] at hiff
  constructor
  · rintro ⟨hclasses, -⟩ c hc
    obtain rfl : a.cls = c := Option.some.inj hc
    by_cases hunknown : b.currentType = .kUnknown
    · rw [hwrite (Or.inl hunknown)] at hclasses
      exact Or.inr (hiff.1 hclasses)
    · exact Or.inl hunknown
  · intro hmeets
    by_cases hacc : a.Accepts b.currentType
    · have honly : OnlyHolds b.document b.currentLoc a.cls := by
        rcases hmeets a.cls rfl with hknown | honly
        · rcases hacc with hunknown | ⟨c, hover, hcls⟩
          · exact absurd hunknown hknown
          · obtain rfl : classOf v = c := htype c hcls
            exact onlyHolds_of_overwrites hv hover
        · exact honly
      rw [StepKeeps, hwrite hacc]
      refine ⟨hiff.2 honly, ?_⟩
      intro c c' hc' hinit hne
      obtain rfl : a.cls = c' := Option.some.inj hc'
      exact absurd (honly _ c hinit (List.prefix_refl _)).2 hne
    · rw [StepKeeps, hkeep hacc]
      exact ⟨fun _ _ hinit => hinit, fun _ _ _ _ _ => rfl⟩

theorem ValueBuilder.Coherent.apply (h : Coherent b) {op : BuilderOp} {b' : ValueBuilder}
    (hrun : op.apply b = .ok b') : Coherent b' := by
  cases op with
  | subscript key => exact h.subscript hrun
  | action a =>
    obtain ⟨b₁, hrun₁, hinv, -⟩ := Action.run_spec h a
    obtain rfl : b₁ = b' := Except.ok.inj (hrun₁.symm.trans hrun)
    exact hinv

/-! ## Runs -/

/-- A run obeys the law exactly if its calls meet the condition. -/
theorem ValueBuilder.Coherent.runKeeps_iff (h : Coherent b) (ops : List BuilderOp) :
    RunKeeps b ops ↔ RunMeets b ops := by
  induction ops generalizing b with
  | nil => exact Iff.rfl
  | cons op ops ih =>
    constructor
    · intro hkeeps
      refine ⟨?_, fun b' hrun => (ih (h.apply hrun)).1 (hkeeps b' hrun).2⟩
      cases op with
      | subscript key =>
        intro c hc
        cases hc
      | action a =>
        obtain ⟨b', hrun, -⟩ := Action.run_spec h a
        exact (h.stepKeeps_action_iff hrun).1 (hkeeps b' hrun).1
    · rintro ⟨hmeets, hrest⟩ b' hrun
      refine ⟨?_, (ih (h.apply hrun)).2 (hrest b' hrun)⟩
      cases op with
      | subscript key => exact h.stepKeeps_subscript hrun
      | action a => exact (h.stepKeeps_action_iff hrun).2 hmeets

/-- What is left of a run that obeys the law obeys it. -/
theorem RunKeeps.suffix {ops₁ ops : List BuilderOp} {b₁ : ValueBuilder}
    (h : RunKeeps b (ops₁ ++ ops)) (hrun : runOps b ops₁ = .ok b₁) : RunKeeps b₁ ops := by
  induction ops₁ generalizing b with
  | nil =>
    obtain rfl : b = b₁ := Except.ok.inj hrun
    exact h
  | cons op ops₁ ih =>
    obtain ⟨b₂, hstep, hrest⟩ := ExceptRun.foldlM_cons_eq_ok.1 hrun
    exact ih (h b₂ hstep).2 hrest

/-- Along a run that obeys the law the classes stay. -/
theorem RunKeeps.initialisedAs {ops₁ ops : List BuilderOp} {b₁ : ValueBuilder}
    (h : RunKeeps b (ops₁ ++ ops)) (hrun : runOps b ops₁ = .ok b₁) {l : Loc} {c : JsonClass}
    (hinit : InitialisedAs b.document l c) : InitialisedAs b₁.document l c := by
  induction ops₁ generalizing b with
  | nil =>
    obtain rfl : b = b₁ := Except.ok.inj hrun
    exact hinit
  | cons op ops₁ ih =>
    obtain ⟨b₂, hstep, hrest⟩ := ExceptRun.foldlM_cons_eq_ok.1 hrun
    obtain ⟨hkeeps, hrun'⟩ := h b₂ hstep
    exact ih hrun' hrest (hkeeps.1 l c hinit)

/-- A run of calls from any builder obeys the law exactly if its calls meet the
condition, and then a member keeps the class that it has at any point of the
run. -/
theorem classes_kept_iff (b : ValueBuilder) (hb : Reachable b) (ops : List BuilderOp) :
    (RunKeeps b ops ↔ RunMeets b ops) ∧
      (RunMeets b ops → ∀ ops₁ ops₂ b₁ b₂, ops₁ ++ ops₂ <+: ops →
        runOps b ops₁ = .ok b₁ → runOps b₁ ops₂ = .ok b₂ →
        ∀ l c, InitialisedAs b₁.document l c → InitialisedAs b₂.document l c) := by
  refine ⟨hb.inv.runKeeps_iff ops, ?_⟩
  rintro hmeets ops₁ ops₂ b₁ b₂ ⟨rest, rfl⟩ hrun₁ hrun₂ l c hinit
  have hkeeps := (hb.inv.runKeeps_iff _).2 hmeets
  rw [List.append_assoc] at hkeeps
  exact (hkeeps.suffix hrun₁).initialisedAs hrun₂ hinit

/-- `json["a"] = 1`, and then `= "x"` through the same reference, which is
refused. -/
theorem number_kept :
    RunKeeps init [.subscript (str "a"), .action (.assign (.int 1)),
      .action (.assign (.string (str "x")))] := by
  refine (classes_kept_iff init .init _).1.2 ?_
  refine ⟨fun c hc => (by cases hc), ?_⟩
  rintro _ ⟨⟩
  refine ⟨fun c _ => Or.inr ?_, ?_⟩
  · rintro l c ⟨-, hnull, v, hv, hcls⟩ ⟨m, rfl⟩
    cases m with
    | nil => exact absurd (hcls.symm.trans (congrArg classOf (Option.some.inj hv).symm)) hnull
    | cons k m => cases hv
  · rintro _ ⟨⟩
    refine ⟨fun c _ => Or.inl (by decide), ?_⟩
    rintro _ ⟨⟩
    trivial

/-- `json["a"] = true`, and then `= 5` through the same reference: the member
becomes a number. -/
theorem boolean_overwritten :
    Reachable init ∧
      ¬ RunKeeps init [.subscript (str "a"), .action (.assign (.bool true)),
        .action (.assign (.int 5))] := by
  refine ⟨.init, fun hkeeps => ?_⟩
  have hlast := ((hkeeps _ rfl).2 _ rfl).2 _ rfl
  have htrue : InitialisedAs (.object [(str "a", .scalar (.bool true))]) [str "a"] .boolean :=
    ⟨by simp, by decide, _, rfl, rfl⟩
  obtain ⟨-, -, v, hv, hcls⟩ := hlast.1.1 _ _ htrue
  obtain rfl := Option.some.inj hv
  cases hcls

end Piconaut.Formats.Json
