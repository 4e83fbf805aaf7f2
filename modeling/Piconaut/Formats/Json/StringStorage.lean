import Piconaut.Formats.Json.BuilderInvariant
import Piconaut.Formats.Json.ValueMap

/-!
# Strings with NUL bytes

Keys and string values are `std::string`s, and both classes hand them to RapidJSON
as `c_str()` without their size.  What is behind the first NUL is lost on the
way.  `BuilderStoresWhole` and `ValueStoresWhole` say that nothing is lost when a
string is assigned under a fresh key.  By `stringsStoredWhole_iff` this is so, in
both classes, exactly if neither the key nor the value has a NUL and the key with
which it is compared is not the key with a NUL and more bytes behind it.
-/

namespace Piconaut.Formats.Json

open Piconaut.CppStd
open Piconaut.Rapidjson (Fault Loc ValuePtr nullValue)

/-- `json[key] = value` leaves a member with these bytes, and another key addresses
another member. -/
structure BuilderStoresWhole (b : ValueBuilder) (key value key' : Str) : Prop where
  stored : ∃ b₁ b₂, b.subscript key = .ok b₁ ∧ b₁.assign (.string value) = .ok b₂ ∧
    b₂.document.get? (b.walked ++ [key]) = some (.scalar (.string value))
  keys : key' ≠ key → ∀ b₁ b₂, b.subscript key = .ok b₁ → b.subscript key' = .ok b₂ →
    b₁.currentLoc ≠ b₂.currentLoc

/-- `v[key] = value` does so too, and `v[key].As<std::string>()` reads the value. -/
structure ValueStoresWhole (v : Value) (key value key' : Str) : Prop where
  stored : ∃ v₁ v₂, v.subscript key = .ok v₁ ∧ Value.assign .string value v₁ = .ok v₂ ∧
    v₂.document.child? key = some (.scalar (.string value)) ∧
    readAs v₂ key (.scalar .string) = .ok value
  keys : key' ≠ key → ∀ v₁ v₂, v.subscript key = .ok v₁ → v.subscript key' = .ok v₂ →
    v₁.currentValue.map ValuePtr.loc ≠ v₂.currentValue.map ValuePtr.loc

/-- Neither string has a NUL, and `key'` does not continue `key` behind one. -/
def NulSafe (key value key' : Str) : Prop :=
  0 ∉ key ∧ 0 ∉ value ∧ ¬ ∃ rest, key' = key ++ 0 :: rest

/-- C strings keep such keys apart. -/
theorem NulSafe.cStr_ne {key value key' : Str} (h : NulSafe key value key')
    (hne : key' ≠ key) : cStr key ≠ cStr key' := by
  obtain ⟨hkey, -, hother⟩ := h
  intro heq
  rw [cStr_of_not_mem hkey] at heq
  by_cases hself : cStr key' = key'
  · exact hne (hself.symm.trans heq.symm)
  · rw [heq] at hother
    exact hother (eq_append_zero_of_cStr_ne hself)

/-! ## `ValueBuilder` -/

section Builder

open ValueBuilder

variable {b b₁ b₂ : ValueBuilder} {t : Rapidjson.Value} {key value name : Str}

theorem currentLoc_subscript (h : Coherent b) (hrun : b.subscript key = .ok b₁) :
    b₁.currentLoc = b.walked ++ [cStr key] := by
  rw [currentLoc, h.subscript_currentValue hrun]
  rfl

/-- `json[key] = value` leaves the members alone that the C string does not name. -/
theorem get?_assign_of_ne (h : Coherent b) (hget : b.document.get? b.walked = some t)
    (hsub : b.subscript key = .ok b₁) (hassign : b₁.assign (.string value) = .ok b₂)
    (hname : name ≠ cStr key) :
    b₂.document.get? (b.walked ++ [name]) = t.child? name := by
  have hloc := currentLoc_subscript h hsub
  -- the subscript may append a member under another name
  have hfirst : b₁.document.get? (b.walked ++ [name]) = t.child? name := by
    obtain ⟨t', ht', hobj, ⟨v, -, rfl⟩ | ⟨-, rfl⟩⟩ := h.subscript_cases hsub
    · show b.document.get? _ = _
      rw [JsonTree.get?_concat, hget, Option.bind_some]
    · obtain rfl : t = t' := Option.some.inj (hget.symm.trans ht')
      show (JsonTree.update _ _ _).get? _ = _
      rw [JsonTree.get?_update_append, hget, Option.bind_some, JsonTree.get?_singleton,
        JsonTree.child?_append hobj, if_neg hname, Option.or_none]
  rw [(h.subscript hsub).assign_eq] at hassign
  obtain rfl := Except.ok.inj hassign
  split
  · have hno : ∀ m n : Str, m ≠ n → ¬ b.walked ++ [m] <+: b.walked ++ [n] := by
      intro m n hne hpre
      rw [List.prefix_append_right_inj, List.cons_prefix_cons] at hpre
      exact hne hpre.1
    show (JsonTree.update b₁.currentLoc _ b₁.document).get? _ = _
    rw [hloc, JsonTree.get?_update_disjoint _ _ (hno _ _ (Ne.symm hname)) (hno _ _ hname),
      hfirst]
  · exact hfirst

/-- Under a fresh C string it leaves the value as a C string. -/
theorem get?_assign_self (h : Coherent b) (hget : b.document.get? b.walked = some t)
    (hobj : t.IsObject) (hfresh : t.child? (cStr key) = none) (value : Str) :
    ∃ b₁ b₂, b.subscript key = .ok b₁ ∧ b₁.assign (.string value) = .ok b₂ ∧
      b₂.document.get? (b.walked ++ [cStr key]) = some (.scalar (.string (cStr value))) := by
  have hsub := h.subscript_eq key hget hobj
  simp only [hfresh] at hsub
  have hassign := (h.subscript hsub).assign_eq (.string value)
  -- the type of a new member is undetermined, so the assignment is accepted
  have haccepts : (ScalarArg.string value).accepts (b.visit key
      (JsonTree.update b.walked (JsonTree.append (cStr key) nullValue) b.document)
      .kUnknown).currentType = true := rfl
  rw [if_pos haccepts] at hassign
  refine ⟨_, _, hsub, hassign, ?_⟩
  have hmember := get?_append_member nullValue hget hobj hfresh
  show (JsonTree.update (b.walked ++ [cStr key]) _ _).get? _ = _
  rw [JsonTree.get?_update_self]
  show ((JsonTree.update b.walked (JsonTree.append (cStr key) nullValue) b.document).get?
    (b.walked ++ [cStr key])).map _ = _
  rw [hmember]
  rfl

end Builder

/-! ## `Value` -/

section Value

variable {v v₁ v₂ : Value} {key value name : Str}

/-- `v[key] = value`, with both read as C strings. -/
theorem assign_string_eq (h : v.ensureObject.document.IsObject) (key value : Str) :
    ∃ v₁, v.subscript key = .ok v₁ ∧
      Value.assign .string value v₁ =
        .ok (Value.member (JsonTree.mapMember (cStr key)
          (fun _ => .scalar (.string (cStr value)))
          (Value.touch (cStr key) v.ensureObject.document)) (cStr key)) :=
  ⟨_, v.subscript_eq key h, Value.assignStored_member (Value.child?_touch_self h _) _⟩

/-- A member that the C string does not name is left alone. -/
theorem child?_assign_of_ne {document : Rapidjson.Value} (h : document.IsObject)
    (f : Rapidjson.Value → Rapidjson.Value) (hname : name ≠ cStr key) :
    (JsonTree.mapMember (cStr key) f (Value.touch (cStr key) document)).child? name =
      document.child? name := by
  rw [JsonTree.child?_mapMember_of_ne _ _ hname]
  cases hfound : document.child? (cStr key) with
  | some old => rw [Value.touch_of_child? hfound]
  | none =>
    rw [Value.touch, hfound]
    show (JsonTree.append _ _ _).child? _ = _
    rw [JsonTree.child?_append h, if_neg hname, Option.or_none]

/-- The member that it names holds the value. -/
theorem child?_assign_self {document : Rapidjson.Value} (h : document.IsObject)
    (value : Rapidjson.Value) (hname : name = cStr key) :
    (JsonTree.mapMember (cStr key) (fun _ => value)
      (Value.touch (cStr key) document)).child? name = some value := by
  rw [hname, JsonTree.child?_mapMember_self, Value.child?_touch_self h, Option.map_some]

end Value

/-! ## When nothing is lost -/

section Whole

open ValueBuilder

variable {key value key' : Str}

/-- A stored string determines the string. -/
theorem string_inj {a b : Str}
    (h : (.scalar (.string a) : Rapidjson.Value) = .scalar (.string b)) : a = b := by
  injection h with hscalar
  injection hscalar

theorem builderStoresWhole_iff {b : ValueBuilder} {t : Rapidjson.Value} (h : Coherent b)
    (hget : b.document.get? b.walked = some t) (hfresh : t.child? key = none) :
    BuilderStoresWhole b key value key' ↔ t.IsObject ∧ NulSafe key value key' := by
  constructor
  · rintro ⟨⟨b₁, b₂, hsub, hassign, hmember⟩, hkeys⟩
    have hobj : t.IsObject := by
      by_contra hno
      rw [h.subscript_error key hget hno] at hsub
      cases hsub
    have hself : cStr key = key := by
      by_contra hne
      rw [get?_assign_of_ne h hget hsub hassign (Ne.symm hne), hfresh] at hmember
      cases hmember
    have hkey := (cStr_eq_self_iff key).1 hself
    obtain ⟨b₁', b₂', hsub', hassign', hmember'⟩ :=
      get?_assign_self h hget hobj (hself.symm ▸ hfresh) value
    obtain rfl : b₁ = b₁' := Except.ok.inj (hsub.symm.trans hsub')
    obtain rfl : b₂ = b₂' := Except.ok.inj (hassign.symm.trans hassign')
    rw [hself, hmember] at hmember'
    have hvalue : value = cStr value := string_inj (Option.some.inj hmember')
    refine ⟨hobj, hkey, (cStr_eq_self_iff value).1 hvalue.symm, ?_⟩
    rintro ⟨rest, rfl⟩
    have hcut := cStr_append_zero hkey rest
    obtain ⟨b₃, -, hsub₃, -⟩ := get?_assign_self h hget hobj (hcut.symm ▸ hfresh) value
    refine hkeys (by simp) b₁ b₃ hsub hsub₃ ?_
    rw [currentLoc_subscript h hsub, currentLoc_subscript h hsub₃, hself, hcut]
  · rintro ⟨hobj, hsafe⟩
    have hself := cStr_of_not_mem hsafe.1
    refine ⟨?_, fun hne b₁ b₂ hsub₁ hsub₂ heq => ?_⟩
    · have hrun := get?_assign_self h hget hobj (hself.symm ▸ hfresh) value
      rw [hself, cStr_of_not_mem hsafe.2.1] at hrun
      exact hrun
    · rw [currentLoc_subscript h hsub₁, currentLoc_subscript h hsub₂] at heq
      have htail := List.append_cancel_left heq
      exact hsafe.cStr_ne hne (List.cons.inj htail).1

theorem valueStoresWhole_iff {v : Value}
    (hfresh : v.ensureObject.document.child? key = none) :
    ValueStoresWhole v key value key' ↔
      v.ensureObject.document.IsObject ∧ NulSafe key value key' := by
  constructor
  · rintro ⟨⟨v₁', v₂, hsub', hassign', hmember, -⟩, hkeys⟩
    have hroot : v.ensureObject.document.IsObject := by
      by_contra hno
      rw [v.subscript_error key hno] at hsub'
      cases hsub'
    obtain ⟨v₁, hsub, hassign⟩ := assign_string_eq hroot key value
    obtain rfl : v₁ = v₁' := Except.ok.inj (hsub.symm.trans hsub')
    obtain rfl := Except.ok.inj (hassign.symm.trans hassign')
    have hself : cStr key = key := by
      by_contra hne
      have hleft := child?_assign_of_ne hroot
        (fun _ => .scalar (.string (cStr value))) (Ne.symm hne)
      rw [hfresh] at hleft
      cases hleft.symm.trans hmember
    have hkey := (cStr_eq_self_iff key).1 hself
    have hmember' := child?_assign_self hroot (.scalar (.string (cStr value))) hself.symm
    have hvalue : value = cStr value :=
      string_inj (Option.some.inj (hmember.symm.trans hmember'))
    refine ⟨hroot, hkey, (cStr_eq_self_iff value).1 hvalue.symm, ?_⟩
    rintro ⟨rest, rfl⟩
    refine hkeys (by simp) _ _ (v.subscript_eq key hroot) (v.subscript_eq _ hroot) ?_
    rw [cStr_append_zero hkey, hself]
  · rintro ⟨hroot, hsafe⟩
    obtain ⟨v₁, hsub, hassign⟩ := assign_string_eq hroot key value
    have hself := cStr_of_not_mem hsafe.1
    have hvalue := cStr_of_not_mem hsafe.2.1
    refine ⟨⟨v₁, _, hsub, hassign, ?_, ?_⟩, fun hne v₁ v₂ hsub₁ hsub₂ heq => ?_⟩
    · rw [hvalue]
      exact child?_assign_self hroot _ hself.symm
    · have hmember := child?_assign_self hroot (.scalar (.string (cStr value))) (Eq.refl (cStr key))
      rw [readAs, Value.subscript_member hmember, ExceptRun.ok_bind]
      exact Value.as_member (T := .string) hsafe.2.1 hmember
    · rw [v.subscript_eq key hroot] at hsub₁
      rw [v.subscript_eq key' hroot] at hsub₂
      obtain rfl := Except.ok.inj hsub₁
      obtain rfl := Except.ok.inj hsub₂
      have hloc : [cStr key] = [cStr key'] := Option.some.inj heq
      exact hsafe.cStr_ne hne (List.cons.inj hloc).1

/-- For a key that is fresh at the end of the builder's walk and at the value's root,
the strings are stored whole exactly if there is an object to store them in and they
are free of NUL bytes as `NulSafe` says. -/
theorem stringsStoredWhole_iff (key value key' : Str) (b : ValueBuilder) (hb : Reachable b)
    (t : Rapidjson.Value) (hget : b.document.get? b.walked = some t)
    (hfresh : t.child? key = none) (v : Value)
    (hfresh' : v.ensureObject.document.child? key = none) :
    (BuilderStoresWhole b key value key' ↔ t.IsObject ∧ NulSafe key value key') ∧
      (ValueStoresWhole v key value key' ↔
        v.ensureObject.document.IsObject ∧ NulSafe key value key') :=
  ⟨builderStoresWhole_iff hb.inv hget hfresh, valueStoresWhole_iff hfresh'⟩

/-- A plain key and a plain value on fresh objects. -/
theorem plain_strings_stored :
    BuilderStoresWhole init (str "a") (str "x") (str "b") ∧
      ValueStoresWhole Value.init (str "a") (str "x") (str "b") := by
  have hsafe : NulSafe (str "a") (str "x") (str "b") := by
    refine ⟨by decide, by decide, ?_⟩
    rintro ⟨rest, hrest⟩
    have hhead : ch 'b' = ch 'a' := (List.cons.inj hrest).1
    exact absurd hhead (by decide)
  have hiff := stringsStoredWhole_iff (str "a") (str "x") (str "b") init .init _ rfl rfl
    Value.init rfl
  exact ⟨hiff.1.2 ⟨⟨[], rfl⟩, hsafe⟩, hiff.2.2 ⟨⟨[], rfl⟩, hsafe⟩⟩

/-- The value `"x\0y"` is cut to `"x"` in both classes. -/
theorem nul_value_cut :
    ¬ BuilderStoresWhole init (str "a") (str "x" ++ 0 :: str "y") (str "b") ∧
      ¬ ValueStoresWhole Value.init (str "a") (str "x" ++ 0 :: str "y") (str "b") := by
  have hnot : ¬ NulSafe (str "a") (str "x" ++ 0 :: str "y") (str "b") := by
    rintro ⟨-, hvalue, -⟩
    exact absurd hvalue (by decide)
  exact ⟨fun h => hnot ((builderStoresWhole_iff Coherent.init rfl rfl).1 h).2,
    fun h => hnot ((valueStoresWhole_iff rfl).1 h).2⟩

end Whole

end Piconaut.Formats.Json
