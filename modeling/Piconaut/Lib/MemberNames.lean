import Mathlib.Data.List.Nodup
import Piconaut.Lib.JsonTree

/-!
# Member names

`names` lists the member names of an object.  Only `append` makes the list
longer, so the list is free of duplicates as long as no name is appended twice.

`DistinctNames` says this of every object in a document, at every depth.  A
document keeps the property if what an update writes has it
(`DistinctNames.update`), and it holds of every part of a document that has it
(`DistinctNames.get?`).
-/

universe u

/-! ## One member list -/

namespace MemberList

variable {K V : Type u} [DecidableEq K]

theorem lookup_isSome_iff (ms : List (K × V)) (k : K) :
    (ms.lookup k).isSome ↔ k ∈ ms.map Prod.fst := by
  induction ms with
  | nil => simp
  | cons m ms ih =>
    obtain ⟨key, val⟩ := m
    by_cases h : k = key
    · simp [h]
    · simp [List.lookup_cons, beq_false_of_ne h, ih, h]

theorem lookup_eq_none_of_not_mem {ms : List (K × V)} {k : K} (h : k ∉ ms.map Prod.fst) :
    ms.lookup k = none := by
  rw [← Option.not_isSome_iff_eq_none, lookup_isSome_iff]
  exact h

theorem map_fst_modify (k : K) (f : V → V) (ms : List (K × V)) :
    (modify k f ms).map Prod.fst = ms.map Prod.fst := by
  induction ms with
  | nil => rfl
  | cons m ms ih =>
    obtain ⟨key, val⟩ := m
    by_cases h : key = k
    · simp [modify, h]
    · simp [modify, h, ih]

/-- A modified list has the old members, and the modified one. -/
theorem mem_modify {k : K} {f : V → V} {ms : List (K × V)} {m : K × V}
    (h : m ∈ modify k f ms) : m ∈ ms ∨ ∃ v, ms.lookup k = some v ∧ m = (k, f v) := by
  induction ms with
  | nil => cases h
  | cons m' ms ih =>
    obtain ⟨key, val⟩ := m'
    by_cases hk : key = k
    · rw [modify, if_pos hk, List.mem_cons] at h
      rcases h with hhead | htail
      · exact Or.inr ⟨val, by simp [hk], by rw [hhead, hk]⟩
      · exact Or.inl (List.mem_cons_of_mem _ htail)
    · have hne : (k == key) = false := beq_false_of_ne (Ne.symm hk)
      rw [modify, if_neg hk, List.mem_cons] at h
      rcases h with hhead | htail
      · exact Or.inl (hhead ▸ List.mem_cons_self)
      · rcases ih htail with hold | ⟨v, hv, hm⟩
        · exact Or.inl (List.mem_cons_of_mem _ hold)
        · exact Or.inr ⟨v, by simpa [List.lookup_cons, hne] using hv, hm⟩

end MemberList

namespace JsonTree

variable {K S : Type u} [DecidableEq K]

omit [DecidableEq K] in
/-- The names of an object's members, in order. -/
def names : JsonTree K S → List K
  | object ms => ms.map Prod.fst
  | _ => []

theorem mem_names_iff (t : JsonTree K S) (k : K) : k ∈ t.names ↔ (t.child? k).isSome := by
  cases t with
  | scalar s => simp [names, child?]
  | array es => simp [names, child?]
  | object ms => exact (MemberList.lookup_isSome_iff ms k).symm

omit [DecidableEq K] in
theorem names_append {t : JsonTree K S} (h : t.IsObject) (k : K) (v : JsonTree K S) :
    (append k v t).names = t.names ++ [k] := by
  obtain ⟨ms, rfl⟩ := h
  simp [append, names]

theorem names_mapMember (k : K) (f : JsonTree K S → JsonTree K S) (t : JsonTree K S) :
    (mapMember k f t).names = t.names := by
  cases t with
  | scalar s => rfl
  | array es => rfl
  | object ms => exact MemberList.map_fst_modify k f ms

/-! ## Every object of a document -/

omit [DecidableEq K] in
/-- In every object of the document the member names are pairwise distinct. -/
inductive DistinctNames : JsonTree K S → Prop where
  | scalar (s : S) : DistinctNames (.scalar s)
  | array {es : List (JsonTree K S)} :
      (∀ e ∈ es, DistinctNames e) → DistinctNames (.array es)
  | object {ms : List (K × JsonTree K S)} :
      (ms.map Prod.fst).Nodup → (∀ m ∈ ms, DistinctNames m.2) → DistinctNames (.object ms)

omit [DecidableEq K] in
theorem DistinctNames.nodup {t : JsonTree K S} (h : t.DistinctNames) : t.names.Nodup := by
  cases h with
  | scalar s => exact List.nodup_nil
  | array _ => exact List.nodup_nil
  | object hnodup _ => exact hnodup

theorem DistinctNames.child? {t c : JsonTree K S} {k : K} (h : t.DistinctNames)
    (hc : t.child? k = some c) : c.DistinctNames := by
  cases h with
  | scalar s => cases hc
  | array _ => cases hc
  | object _ hmembers => exact hmembers (k, c) (MemberList.mem_of_lookup hc)

theorem DistinctNames.get? {t c : JsonTree K S} {l : List K} (h : t.DistinctNames)
    (hc : t.get? l = some c) : c.DistinctNames := by
  induction l generalizing t with
  | nil => exact Option.some.inj hc ▸ h
  | cons k l ih =>
    rw [get?_cons, Option.bind_eq_some_iff] at hc
    obtain ⟨d, hd, hrest⟩ := hc
    exact ih (h.child? hd) hrest

/-- A new name may be appended. -/
theorem DistinctNames.append {t v : JsonTree K S} {k : K} (h : t.DistinctNames)
    (hnew : t.child? k = none) (hv : v.DistinctNames) : (append k v t).DistinctNames := by
  cases h with
  | scalar s => exact .scalar s
  | array hes => exact .array hes
  | @object ms hnodup hmembers =>
    have hfresh : k ∉ ms.map Prod.fst := by
      rw [← MemberList.lookup_isSome_iff, ← child?_object, hnew]
      simp
    refine .object ?_ ?_
    · rw [List.map_append]
      exact hnodup.append (List.nodup_singleton k) (by simpa using hfresh)
    · intro m hm
      rcases List.mem_append.1 hm with hold | hnew'
      · exact hmembers m hold
      · rw [List.mem_singleton.1 hnew']
        exact hv

theorem DistinctNames.mapMember {t : JsonTree K S} {k : K}
    {f : JsonTree K S → JsonTree K S} (h : t.DistinctNames)
    (hf : ∀ c, t.child? k = some c → (f c).DistinctNames) :
    (mapMember k f t).DistinctNames := by
  cases h with
  | scalar s => exact .scalar s
  | array hes => exact .array hes
  | object hnodup hmembers =>
    refine .object ?_ ?_
    · rw [MemberList.map_fst_modify]
      exact hnodup
    · intro m hm
      rcases MemberList.mem_modify hm with hold | ⟨c, hc, rfl⟩
      · exact hmembers m hold
      · exact hf c hc

/-- An update keeps the names distinct if the value it writes has distinct names.
The induction is on the location. -/
theorem DistinctNames.update {t : JsonTree K S} {l : List K}
    {f : JsonTree K S → JsonTree K S} (h : t.DistinctNames)
    (hf : ∀ c, t.get? l = some c → (f c).DistinctNames) : (update l f t).DistinctNames := by
  induction l generalizing t with
  | nil => exact hf t rfl
  | cons k l ih =>
    rw [update_cons]
    refine h.mapMember fun c hc => ih (h.child? hc) fun d hd => hf d ?_
    rw [get?_cons, hc, Option.bind_some, hd]

end JsonTree
