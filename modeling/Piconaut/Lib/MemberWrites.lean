import Mathlib.Data.List.Induction
import Piconaut.Lib.MemberNames

/-!
# Writing into a member list

`write replaces ms m` puts the member `m` into a list: at the end if its name is new, and over
the value that has the name if `replaces` allows one to replace the other.

The names after a run of writes do not depend on `replaces` (`names_writes`).  Two policies
matter: every write is allowed, so the last one under a name is found (`lookup_writes_all`),
and only values of one class replace each other, so the class of the first one stays
(`map_lookup_writes_same`).  `writes_eq_iff`: the two give the same list exactly if under
every name the first and the last write have the same class.
-/

universe u

namespace MemberList

variable {K V C : Type u} [DecidableEq K]

/-- Add a member, or overwrite the one with its name where `replaces` allows it. -/
def write (replaces : V → V → Bool) (ms : List (K × V)) (m : K × V) : List (K × V) :=
  match ms.lookup m.1 with
  | none => ms ++ [m]
  | some old => if replaces old m.2 then modify m.1 (fun _ => m.2) ms else ms

/-- The list after a run of writes. -/
def writes (replaces : V → V → Bool) (ws : List (K × V)) : List (K × V) :=
  ws.foldl (write replaces) []

variable {replaces : V → V → Bool}

theorem writes_concat (ws : List (K × V)) (w : K × V) :
    writes replaces (ws ++ [w]) = write replaces (writes replaces ws) w := by
  simp [writes, List.foldl_append]

/-! ## One write -/

theorem lookup_write_self (ms : List (K × V)) (m : K × V) :
    (write replaces ms m).lookup m.1 = some (match ms.lookup m.1 with
      | none => m.2
      | some old => if replaces old m.2 then m.2 else old) := by
  obtain ⟨key, val⟩ := m
  unfold write
  dsimp only
  cases hold : ms.lookup key with
  | none => simp [lookup_concat, hold]
  | some old =>
    dsimp only
    split
    · rw [lookup_modify_self, hold, Option.map_some]
    · exact hold

theorem lookup_write_of_ne {k : K} (ms : List (K × V)) (m : K × V) (hk : k ≠ m.1) :
    (write replaces ms m).lookup k = ms.lookup k := by
  obtain ⟨key, val⟩ := m
  unfold write
  split
  · simp [lookup_concat, hk]
  · split
    · exact lookup_modify_of_ne _ _ hk
    · rfl

theorem map_fst_write (ms : List (K × V)) (m : K × V) :
    (write replaces ms m).map Prod.fst =
      if m.1 ∈ ms.map Prod.fst then ms.map Prod.fst else ms.map Prod.fst ++ [m.1] := by
  unfold write
  cases hold : ms.lookup m.1 with
  | none =>
    have hmem : m.1 ∉ ms.map Prod.fst := by
      rw [← lookup_isSome_iff, hold]
      simp
    rw [if_neg hmem, List.map_append]
    rfl
  | some old =>
    have hmem : m.1 ∈ ms.map Prod.fst := by
      rw [← lookup_isSome_iff, hold]
      rfl
    rw [if_pos hmem]
    dsimp only
    split
    · exact map_fst_modify _ _ _
    · rfl

/-- The first member with a name comes from the first entry with it. -/
theorem lookup_map {A : Type u} (as : List A) (name : A → K) (value : A → V) (k : K) :
    (as.map fun a => (name a, value a)).lookup k =
      (as.filter fun a => name a = k).head?.map value := by
  induction as with
  | nil => rfl
  | cons a as ih =>
    rw [List.map_cons, List.lookup_cons]
    by_cases hk : k = name a
    · simp [hk]
    · rw [beq_false_of_ne hk, List.filter_cons_of_neg (by simpa using Ne.symm hk)]
      exact ih

/-! ## A run of writes -/

theorem names_writes (replaces' : V → V → Bool) (ws : List (K × V)) :
    (writes replaces ws).map Prod.fst = (writes replaces' ws).map Prod.fst := by
  induction ws using List.reverseRecOn with
  | nil => rfl
  | append_singleton ws w ih =>
    rw [writes_concat, writes_concat, map_fst_write, map_fst_write, ih]

theorem nodup_names_writes (ws : List (K × V)) : ((writes replaces ws).map Prod.fst).Nodup := by
  induction ws using List.reverseRecOn with
  | nil => exact List.nodup_nil
  | append_singleton ws w ih =>
    rw [writes_concat, map_fst_write]
    split
    · exact ih
    · rename_i hnew
      exact ih.append (List.nodup_singleton _) (by simpa using hnew)

/-- Lists with the same names, none of them twice, are equal if the lookups are. -/
theorem ext_of_lookup {ms ms' : List (K × V)} (hnames : ms.map Prod.fst = ms'.map Prod.fst)
    (hnodup : (ms.map Prod.fst).Nodup) (h : ∀ k, ms.lookup k = ms'.lookup k) : ms = ms' := by
  induction ms generalizing ms' with
  | nil =>
    cases ms' with
    | nil => rfl
    | cons m' ms' => cases hnames
  | cons m ms ih =>
    cases ms' with
    | nil => cases hnames
    | cons m' ms' =>
      obtain ⟨k, v⟩ := m
      obtain ⟨k', v'⟩ := m'
      obtain ⟨rfl, hrest⟩ := List.cons.inj hnames
      obtain ⟨hk, hnodup⟩ := List.nodup_cons.1 hnodup
      obtain rfl : v = v' := by simpa using h k
      refine congrArg _ (ih hrest hnodup fun key => ?_)
      by_cases hkey : key = k
      · subst hkey
        rw [lookup_eq_none_of_not_mem hk, lookup_eq_none_of_not_mem (hrest ▸ hk)]
      · simpa [List.lookup_cons, beq_false_of_ne hkey] using h key

/-- Where every write is allowed, the last one is found. -/
theorem lookup_writes_all (ws : List (K × V)) (k : K) :
    (writes (fun _ _ => true) ws).lookup k = ws.reverse.lookup k := by
  induction ws using List.reverseRecOn with
  | nil => rfl
  | append_singleton ws w ih =>
    rw [writes_concat, List.reverse_concat, List.lookup_cons]
    by_cases hk : k = w.1
    · subst hk
      rw [lookup_write_self]
      cases (writes _ ws).lookup w.1 <;> simp
    · rw [lookup_write_of_ne _ _ hk, ih, beq_false_of_ne hk]

section Classes

variable [DecidableEq C] (cls : V → C)

/-- Values of one class replace each other. -/
def sameClass (old new : V) : Bool := cls old = cls new

/-- The class of the first write stays. -/
theorem map_lookup_writes_same (ws : List (K × V)) (k : K) :
    ((writes (sameClass cls) ws).lookup k).map cls = (ws.lookup k).map cls := by
  induction ws using List.reverseRecOn with
  | nil => rfl
  | append_singleton ws w ih =>
    rw [writes_concat, lookup_concat]
    by_cases hk : k = w.1
    · subst hk
      rw [lookup_write_self]
      cases hold : (writes (sameClass cls) ws).lookup w.1 with
      | none =>
        rw [hold, Option.map_none, eq_comm, Option.map_eq_none_iff] at ih
        simp [ih]
      | some old =>
        rw [hold, Option.map_some, eq_comm, Option.map_eq_some_iff] at ih
        obtain ⟨first, hfirst, hcls⟩ := ih
        simp only [hfirst, Option.some_or, Option.map_some, Option.some.injEq, hcls]
        split
        · rename_i hsame
          exact (of_decide_eq_true hsame).symm
        · rfl
    · rw [lookup_write_of_ne _ _ hk, ih, if_neg hk, Option.or_none]

/-- If the last write has the class of the first, it is found. -/
theorem lookup_writes_same (ws : List (K × V)) (k : K)
    (h : (ws.reverse.lookup k).map cls = (ws.lookup k).map cls) :
    (writes (sameClass cls) ws).lookup k = ws.reverse.lookup k := by
  induction ws using List.reverseRecOn with
  | nil => rfl
  | append_singleton ws w ih =>
    rw [List.reverse_concat, List.lookup_cons, lookup_concat] at h
    rw [writes_concat, List.reverse_concat, List.lookup_cons]
    by_cases hk : k = w.1
    · subst hk
      have hclass := map_lookup_writes_same cls ws w.1
      rw [lookup_write_self]
      cases hold : (writes (sameClass cls) ws).lookup w.1 with
      | none => simp
      | some old =>
        rw [hold, Option.map_some, eq_comm, Option.map_eq_some_iff] at hclass
        obtain ⟨first, hfirst, hcls⟩ := hclass
        have hsame : cls old = cls w.2 := by
          simpa [hfirst, hcls] using h.symm
        simp [sameClass, hsame]
    · rw [lookup_write_of_ne _ _ hk, beq_false_of_ne hk]
      rw [beq_false_of_ne hk, if_neg hk, Option.or_none] at h
      exact ih h

/-- The two policies agree exactly if under every name the first and the last write have
the same class. -/
theorem writes_eq_iff (ws : List (K × V)) :
    writes (fun _ _ => true) ws = writes (sameClass cls) ws ↔
      ∀ k, (ws.reverse.lookup k).map cls = (ws.lookup k).map cls := by
  constructor
  · intro h k
    rw [← lookup_writes_all, h, map_lookup_writes_same]
  · intro h
    refine ext_of_lookup (names_writes _ ws) (nodup_names_writes ws) fun k => ?_
    rw [lookup_writes_all, lookup_writes_same cls ws k (h k)]

end Classes

end MemberList

/-! ## Members of a document -/

namespace JsonTree

variable {K S : Type u} [DecidableEq K] {replaces : JsonTree K S → JsonTree K S → Bool}
  {ms : List (K × JsonTree K S)} {k : K}

theorem object_write_of_none (v : JsonTree K S) (h : (object ms).child? k = none) :
    object (MemberList.write replaces ms (k, v)) = append k v (object ms) := by
  rw [child?_object] at h
  rw [MemberList.write, h]
  rfl

theorem object_write_of_some (v : JsonTree K S) {old : JsonTree K S}
    (h : (object ms).child? k = some old) :
    object (MemberList.write replaces ms (k, v)) =
      if replaces old v then mapMember k (fun _ => v) (object ms) else object ms := by
  rw [child?_object] at h
  rw [MemberList.write, h]
  dsimp only
  split <;> rfl

end JsonTree
