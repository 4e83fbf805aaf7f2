/-!
# Ordered documents

A document is a scalar, an array, or an object whose members keep the order in
which they were added.  A location is the list of member names that leads to a
value from the root.

`update l f` applies `f` to the value at location `l` and leaves a document
without that location alone.  The lemmas say how updates compose
(`update_append`, `update_update`) and what a later lookup sees: the new value
at and below `l` (`get?_update_append`), the rebuilt ancestors of `l`
(`get?_update_prefix`), and the old value everywhere else
(`get?_update_disjoint`).

Names are compared from the left, so a second member with the same name is
never seen.
-/

universe u

/-! ## Member lists -/

namespace MemberList

variable {K V : Type u} [DecidableEq K]

/-- Apply `f` to the value of the first member called `k`. -/
def modify (k : K) (f : V → V) : List (K × V) → List (K × V)
  | [] => []
  | (k', v) :: ms => if k' = k then (k', f v) :: ms else (k', v) :: modify k f ms

theorem lookup_concat (ms : List (K × V)) (k k' : K) (v : V) :
    (ms ++ [(k, v)]).lookup k' =
      (ms.lookup k').or (if k' = k then some v else none) := by
  induction ms with
  | nil =>
    by_cases h : k' = k
    · simp [h]
    · simp [h]
  | cons m ms ih =>
    obtain ⟨key, val⟩ := m
    by_cases h : k' = key
    · simp [h]
    · simp [List.lookup_cons, beq_false_of_ne h, ih]

theorem mem_of_lookup {ms : List (K × V)} {k : K} {v : V} (h : ms.lookup k = some v) :
    (k, v) ∈ ms := by
  obtain ⟨before, after, rfl, -⟩ := List.lookup_eq_some_iff.1 h
  exact List.mem_append_right _ List.mem_cons_self

theorem lookup_modify_self (k : K) (f : V → V) (ms : List (K × V)) :
    (modify k f ms).lookup k = (ms.lookup k).map f := by
  induction ms with
  | nil => rfl
  | cons m ms ih =>
    obtain ⟨key, val⟩ := m
    by_cases h : key = k
    · simp [modify, h]
    · have hne : (k == key) = false := beq_false_of_ne (Ne.symm h)
      simp [modify, h, List.lookup_cons, hne, ih]

theorem lookup_modify_of_ne {k k' : K} (f : V → V) (ms : List (K × V)) (h : k' ≠ k) :
    (modify k f ms).lookup k' = ms.lookup k' := by
  induction ms with
  | nil => rfl
  | cons m ms ih =>
    obtain ⟨key, val⟩ := m
    by_cases hk : key = k
    · have hne : (k' == key) = false := beq_false_of_ne (hk ▸ h)
      simp [modify, hk, List.lookup_cons, hk ▸ hne]
    · simp only [modify, hk, if_false, List.lookup_cons, ih]

theorem modify_modify (k : K) (f g : V → V) (ms : List (K × V)) :
    modify k f (modify k g ms) = modify k (f ∘ g) ms := by
  induction ms with
  | nil => rfl
  | cons m ms ih =>
    obtain ⟨key, val⟩ := m
    by_cases h : key = k
    · simp [modify, h]
    · simp [modify, h, ih]

theorem modify_id (k : K) (ms : List (K × V)) : modify k (fun v => v) ms = ms := by
  induction ms with
  | nil => rfl
  | cons m ms ih =>
    obtain ⟨key, val⟩ := m
    simp [modify, ih]

/-- Only the value found under `k` matters. -/
theorem modify_congr {k : K} {f g : V → V} {ms : List (K × V)}
    (h : ∀ v, ms.lookup k = some v → f v = g v) : modify k f ms = modify k g ms := by
  induction ms with
  | nil => rfl
  | cons m ms ih =>
    obtain ⟨key, val⟩ := m
    by_cases hk : key = k
    · have hfg : f val = g val := h val (by simp [hk])
      simp [modify, hk, hfg]
    · have hne : (k == key) = false := beq_false_of_ne (Ne.symm hk)
      have hrest : modify k f ms = modify k g ms :=
        ih fun v hv => h v (by simpa [List.lookup_cons, hne] using hv)
      simp [modify, hk, hrest]

/-- A member that was just appended is the one that a modification reaches. -/
theorem modify_concat_self {k : K} {ms : List (K × V)} (f : V → V) (v : V)
    (h : ms.lookup k = none) : modify k f (ms ++ [(k, v)]) = ms ++ [(k, f v)] := by
  induction ms with
  | nil => simp [modify]
  | cons m ms ih =>
    obtain ⟨key, val⟩ := m
    by_cases hk : key = k
    · simp [hk] at h
    · have hne : (k == key) = false := beq_false_of_ne (Ne.symm hk)
      have hrest : ms.lookup k = none := by simpa [List.lookup_cons, hne] using h
      simp [modify, hk, ih hrest]

end MemberList

/-! ## Documents -/

/-- Documents with member names `K` and scalars `S`. -/
inductive JsonTree (K S : Type u) where
  | scalar (s : S)
  | array (elements : List (JsonTree K S))
  | object (members : List (K × JsonTree K S))

namespace JsonTree

variable {K S : Type u} [DecidableEq K]

/-- The value of the member called `k`. -/
def child? (k : K) : JsonTree K S → Option (JsonTree K S)
  | object ms => ms.lookup k
  | _ => none

/-- The value at a location. -/
def get? (t : JsonTree K S) : List K → Option (JsonTree K S)
  | [] => some t
  | k :: ks => (t.child? k).bind fun c => c.get? ks

/-- Apply `f` to the value of the member called `k`. -/
def mapMember (k : K) (f : JsonTree K S → JsonTree K S) : JsonTree K S → JsonTree K S
  | object ms => object (MemberList.modify k f ms)
  | t => t

/-- Apply `f` to the value at a location. -/
def update : List K → (JsonTree K S → JsonTree K S) → JsonTree K S → JsonTree K S
  | [], f => f
  | k :: ks, f => mapMember k (update ks f)

/-- Append a member to an object. -/
def append (k : K) (v : JsonTree K S) : JsonTree K S → JsonTree K S
  | object ms => object (ms ++ [(k, v)])
  | t => t

omit [DecidableEq K] in
/-- The value is an object. -/
def IsObject (t : JsonTree K S) : Prop := ∃ ms, t = object ms

omit [DecidableEq K] in
instance (t : JsonTree K S) : Decidable t.IsObject :=
  match t with
  | object ms => isTrue ⟨ms, rfl⟩
  | scalar _ => isFalse (by rintro ⟨_, h⟩; cases h)
  | array _ => isFalse (by rintro ⟨_, h⟩; cases h)

@[simp] theorem get?_nil (t : JsonTree K S) : t.get? [] = some t := rfl

theorem get?_cons (t : JsonTree K S) (k : K) (ks : List K) :
    t.get? (k :: ks) = (t.child? k).bind fun c => c.get? ks := rfl

theorem get?_singleton (t : JsonTree K S) (k : K) : t.get? [k] = t.child? k :=
  Option.bind_fun_some _

@[simp] theorem child?_object (k : K) (ms : List (K × JsonTree K S)) :
    (object ms).child? k = ms.lookup k := rfl

@[simp] theorem update_nil (f : JsonTree K S → JsonTree K S) (t : JsonTree K S) :
    update [] f t = f t := rfl

theorem update_cons (k : K) (ks : List K) (f : JsonTree K S → JsonTree K S)
    (t : JsonTree K S) : update (k :: ks) f t = mapMember k (update ks f) t := rfl

theorem update_singleton (k : K) (f : JsonTree K S → JsonTree K S) (t : JsonTree K S) :
    update [k] f t = mapMember k f t := rfl

/-- Looking up a concatenation is looking up in two stages. -/
theorem get?_append (t : JsonTree K S) (l m : List K) :
    t.get? (l ++ m) = (t.get? l).bind fun c => c.get? m := by
  induction l generalizing t with
  | nil => rfl
  | cons k l ih =>
    rw [List.cons_append, get?_cons, get?_cons, Option.bind_assoc]
    simp only [ih]

theorem get?_concat (t : JsonTree K S) (l : List K) (k : K) :
    t.get? (l ++ [k]) = (t.get? l).bind fun c => c.child? k := by
  rw [get?_append]
  simp only [get?_cons, get?_nil, Option.bind_fun_some]

theorem get?_append_eq_some {t v : JsonTree K S} {l m : List K} :
    t.get? (l ++ m) = some v ↔ ∃ c, t.get? l = some c ∧ c.get? m = some v := by
  rw [get?_append, Option.bind_eq_some_iff]

theorem get?_concat_eq_some {t v : JsonTree K S} {l : List K} {k : K} :
    t.get? (l ++ [k]) = some v ↔ ∃ c, t.get? l = some c ∧ c.child? k = some v := by
  rw [get?_concat, Option.bind_eq_some_iff]

/-- Only an object has something strictly below it. -/
theorem isObject_of_child? {t v : JsonTree K S} {k : K} (h : t.child? k = some v) :
    t.IsObject := by
  cases t with
  | scalar s => cases h
  | array es => cases h
  | object ms => exact ⟨ms, rfl⟩

theorem child?_of_not_object {t : JsonTree K S} (h : ¬ t.IsObject) (k : K) :
    t.child? k = none := by
  cases t with
  | scalar s => rfl
  | array es => rfl
  | object ms => exact absurd ⟨ms, rfl⟩ h

/-- A document is finite, so it is no member of its own. -/
theorem child?_ne_self (t : JsonTree K S) (k : K) : t.child? k ≠ some t := by
  intro h
  obtain ⟨ms, rfl⟩ := isObject_of_child? h
  have hlt := List.sizeOf_lt_of_mem (MemberList.mem_of_lookup h)
  simp only [Prod.mk.sizeOf_spec, object.sizeOf_spec] at hlt
  omega

theorem child?_mapMember_self (k : K) (f : JsonTree K S → JsonTree K S)
    (t : JsonTree K S) : (mapMember k f t).child? k = (t.child? k).map f := by
  cases t with
  | scalar s => rfl
  | array es => rfl
  | object ms => exact MemberList.lookup_modify_self k f ms

theorem child?_mapMember_of_ne {k k' : K} (f : JsonTree K S → JsonTree K S)
    (t : JsonTree K S) (h : k' ≠ k) : (mapMember k f t).child? k' = t.child? k' := by
  cases t with
  | scalar s => rfl
  | array es => rfl
  | object ms => exact MemberList.lookup_modify_of_ne f ms h

theorem child?_append {t : JsonTree K S} (h : t.IsObject) (k k' : K) (v : JsonTree K S) :
    (append k v t).child? k' =
      (t.child? k').or (if k' = k then some v else none) := by
  obtain ⟨ms, rfl⟩ := h
  exact MemberList.lookup_concat ms k k' v

omit [DecidableEq K] in
theorem append_isObject {t : JsonTree K S} (h : t.IsObject) (k : K) (v : JsonTree K S) :
    (append k v t).IsObject := by
  obtain ⟨ms, rfl⟩ := h
  exact ⟨_, rfl⟩

theorem mapMember_isObject_iff (k : K) (f : JsonTree K S → JsonTree K S)
    (t : JsonTree K S) : (mapMember k f t).IsObject ↔ t.IsObject := by
  cases t <;> simp [mapMember, IsObject]

/-! ## What an update leaves behind -/

/-- Below a location that two paths share, the value there is what they see. -/
theorem get?_update_common (t : JsonTree K S) (l m n : List K)
    (f : JsonTree K S → JsonTree K S) :
    (update (l ++ m) f t).get? (l ++ n) = (t.get? l).bind fun c => (update m f c).get? n := by
  induction l generalizing t with
  | nil => rfl
  | cons k l ih =>
    rw [List.cons_append, List.cons_append, update_cons, get?_cons, get?_cons,
      child?_mapMember_self]
    cases t.child? k with
    | none => rfl
    | some c => exact ih c

/-- At and below the updated location the new value is seen. -/
theorem get?_update_append (t : JsonTree K S) (l m : List K)
    (f : JsonTree K S → JsonTree K S) :
    (update l f t).get? (l ++ m) = (t.get? l).bind fun c => (f c).get? m := by
  have h := get?_update_common t l [] m f
  rw [List.append_nil] at h
  exact h

theorem get?_update_self (t : JsonTree K S) (l : List K) (f : JsonTree K S → JsonTree K S) :
    (update l f t).get? l = (t.get? l).map f := by
  have h := get?_update_append t l [] f
  rw [List.append_nil] at h
  rw [h]
  cases t.get? l <;> rfl

/-- Above the updated location the old value is seen, itself updated. -/
theorem get?_update_prefix (t : JsonTree K S) (l m : List K)
    (f : JsonTree K S → JsonTree K S) :
    (update (l ++ m) f t).get? l = (t.get? l).map (update m f) := by
  have h := get?_update_common t l m [] f
  rw [List.append_nil] at h
  rw [h]
  cases t.get? l <;> rfl

/-- A location that neither contains nor is contained in the updated one keeps
its value. -/
theorem get?_update_disjoint (t : JsonTree K S) {l m : List K}
    (f : JsonTree K S → JsonTree K S) (hlm : ¬ l <+: m) (hml : ¬ m <+: l) :
    (update l f t).get? m = t.get? m := by
  induction l generalizing t m with
  | nil => exact absurd List.nil_prefix hlm
  | cons k l ih =>
    cases m with
    | nil => exact absurd List.nil_prefix hml
    | cons k' m =>
      rw [update_cons, get?_cons, get?_cons]
      by_cases hk : k' = k
      · subst hk
        have hlm' : ¬ l <+: m := fun h => hlm (List.cons_prefix_cons.2 ⟨rfl, h⟩)
        have hml' : ¬ m <+: l := fun h => hml (List.cons_prefix_cons.2 ⟨rfl, h⟩)
        rw [child?_mapMember_self]
        cases t.child? k' with
        | none => rfl
        | some c => exact ih c hlm' hml'
      · rw [child?_mapMember_of_ne _ _ hk]

/-- An update keeps the root an object, unless it is at the root. -/
theorem update_isObject {t : JsonTree K S} {l : List K} {f : JsonTree K S → JsonTree K S}
    (ht : t.IsObject) (hf : l = [] → (f t).IsObject) : (update l f t).IsObject := by
  cases l with
  | nil => exact hf rfl
  | cons k l => exact (mapMember_isObject_iff _ _ _).2 ht

/-- Appending a member does not change what is found under another name. -/
theorem get?_append_member_of_ne {t : JsonTree K S} {k k' : K} (v : JsonTree K S)
    (l : List K) (h : k' ≠ k) : (append k v t).get? (k' :: l) = t.get? (k' :: l) := by
  cases t with
  | scalar s => rfl
  | array es => rfl
  | object ms =>
    rw [get?_cons, get?_cons, child?_append ⟨ms, rfl⟩, if_neg h, Option.or_none]

/-! ## How updates compose -/

theorem mapMember_mapMember (k : K) (f g : JsonTree K S → JsonTree K S)
    (t : JsonTree K S) : mapMember k f (mapMember k g t) = mapMember k (f ∘ g) t := by
  cases t with
  | scalar s => rfl
  | array es => rfl
  | object ms => exact congrArg object (MemberList.modify_modify k f g ms)

theorem mapMember_congr {k : K} {f g : JsonTree K S → JsonTree K S} {t : JsonTree K S}
    (h : ∀ c, t.child? k = some c → f c = g c) : mapMember k f t = mapMember k g t := by
  cases t with
  | scalar s => rfl
  | array es => rfl
  | object ms => exact congrArg object (MemberList.modify_congr h)

theorem update_append (l m : List K) (f : JsonTree K S → JsonTree K S)
    (t : JsonTree K S) : update (l ++ m) f t = update l (update m f) t := by
  induction l generalizing t with
  | nil => rfl
  | cons k l ih =>
    rw [List.cons_append, update_cons, update_cons]
    exact mapMember_congr fun c _ => ih c

theorem update_concat (l : List K) (k : K) (f : JsonTree K S → JsonTree K S)
    (t : JsonTree K S) : update (l ++ [k]) f t = update l (mapMember k f) t :=
  update_append l [k] f t

/-- Two updates of one location are one update. -/
theorem update_update (l : List K) (f g : JsonTree K S → JsonTree K S)
    (t : JsonTree K S) : update l f (update l g t) = update l (f ∘ g) t := by
  induction l generalizing t with
  | nil => rfl
  | cons k l ih =>
    rw [update_cons, update_cons, update_cons, mapMember_mapMember]
    exact mapMember_congr fun c _ => ih c

/-- An update depends on its function at the value found there only. -/
theorem update_congr {l : List K} {f g : JsonTree K S → JsonTree K S} {t : JsonTree K S}
    (h : ∀ c, t.get? l = some c → f c = g c) : update l f t = update l g t := by
  induction l generalizing t with
  | nil => exact h t rfl
  | cons k l ih =>
    refine mapMember_congr fun c hc => ih fun d hd => h d ?_
    rw [get?_cons, hc]
    exact hd

theorem update_id (l : List K) (t : JsonTree K S) : update l (fun c => c) t = t := by
  induction l generalizing t with
  | nil => rfl
  | cons k l ih =>
    have hid : update l (fun c => c) = fun c : JsonTree K S => c := funext ih
    rw [update_cons, hid]
    cases t with
    | scalar s => rfl
    | array es => rfl
    | object ms => exact congrArg object (MemberList.modify_id k ms)

/-- An update that changes nothing at its location changes nothing. -/
theorem update_of_fixed {l : List K} {f : JsonTree K S → JsonTree K S} {t : JsonTree K S}
    (h : ∀ c, t.get? l = some c → f c = c) : update l f t = t := by
  have hid : update l f t = update l (fun c => c) t := update_congr h
  rw [hid, update_id]

/-- Writing into a member that was just appended is appending the result. -/
theorem mapMember_append {k : K} {t : JsonTree K S} (f : JsonTree K S → JsonTree K S)
    (v : JsonTree K S) (h : t.child? k = none) :
    mapMember k f (append k v t) = append k (f v) t := by
  cases t with
  | scalar s => rfl
  | array es => rfl
  | object ms => exact congrArg object (MemberList.modify_concat_self f v h)

end JsonTree
