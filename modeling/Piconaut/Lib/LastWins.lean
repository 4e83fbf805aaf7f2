import Mathlib.Data.List.Induction
import Mathlib.Data.List.Nodup
import Piconaut.Lib.PartialMap

/-!
# Maps from a list of keys and a list of values

When keys are inserted with their values one after the other, a repeated key keeps the
value of its last position.  So the map does not depend on all of the keys: two lists of
keys for the same values give one map exactly if every key has its last position in both
of them at the same value (`foldl_insert_zip_eq_iff`), and where the values differ from
each other, at the same place (`lastsAgree_values_iff`).
-/

namespace LastWins

variable {α β : Type}

/-- The last position of `a` is `i`. -/
def LastAt (l : List α) (a : α) (i : Nat) : Prop :=
  l[i]? = some a ∧ ∀ j : Nat, l[j]? = some a → j ≤ i

/-- The lists have the same elements, and `same` relates the last positions that an element
has in them. -/
def LastsAgree (same : Nat → Nat → Prop) (l l' : List α) : Prop :=
  ∀ a, (∀ i, LastAt l a i → ∃ j, LastAt l' a j ∧ same i j) ∧
    ∀ j, LastAt l' a j → ∃ i, LastAt l a i ∧ same i j

section

variable {l l' : List α} {a b : α} {i j : Nat} {same : Nat → Nat → Prop}

theorem LastAt.lt_length (h : LastAt l a i) : i < l.length :=
  (List.getElem?_eq_some_iff.1 h.1).1

theorem not_lastAt_nil : ¬ LastAt ([] : List α) a i := fun h => by cases h.1

/-- A new last element is at its last position, and the others keep theirs. -/
theorem lastAt_concat :
    LastAt (l ++ [b]) a i ↔ (b = a ∧ i = l.length) ∨ (b ≠ a ∧ LastAt l a i) := by
  have hlast : (l ++ [b])[l.length]? = some b := List.getElem?_concat_length
  have hle : ∀ {j : Nat} {c : α}, (l ++ [b])[j]? = some c → j ≤ l.length := by
    intro j c hc
    have hlt := (List.getElem?_eq_some_iff.1 hc).1
    rw [List.length_append, List.length_singleton] at hlt
    omega
  have hfront : ∀ {j : Nat}, b ≠ a → ((l ++ [b])[j]? = some a ↔ l[j]? = some a) := by
    intro j hne
    constructor
    · intro hj
      have hlt : j < l.length := by
        refine Nat.lt_of_le_of_ne (hle hj) ?_
        rintro rfl
        exact hne (Option.some.inj (hlast.symm.trans hj))
      rwa [List.getElem?_append_left hlt] at hj
    · intro hj
      rwa [List.getElem?_append_left (List.getElem?_eq_some_iff.1 hj).1]
  by_cases hb : b = a
  · subst hb
    constructor
    · rintro ⟨hi, hmax⟩
      exact Or.inl ⟨rfl, Nat.le_antisymm (hle hi) (hmax _ hlast)⟩
    · rintro (⟨-, rfl⟩ | ⟨hne, -⟩)
      · exact ⟨hlast, fun j hj => hle hj⟩
      · exact absurd rfl hne
  · rw [LastAt, LastAt, hfront hb]
    simp only [hfront hb, hb, false_and, ne_eq, not_false_eq_true, true_and, false_or]

theorem LastsAgree.refl (hsame : ∀ i, same i i) (l : List α) : LastsAgree same l l :=
  fun _ => ⟨fun i hi => ⟨i, hi, hsame i⟩, fun j hj => ⟨j, hj, hsame j⟩⟩

/-- The relation matters on positions of the lists only. -/
theorem lastsAgree_congr {same' : Nat → Nat → Prop}
    (h : ∀ i j, i < l.length → j < l'.length → (same i j ↔ same' i j)) :
    LastsAgree same l l' ↔ LastsAgree same' l l' := by
  refine forall_congr' fun a => and_congr ?_ ?_
  · refine forall₂_congr fun i hi => exists_congr fun j => and_congr_right fun hj => ?_
    exact h i j hi.lt_length hj.lt_length
  · refine forall₂_congr fun j hj => exists_congr fun i => and_congr_right fun hi => ?_
    exact h i j hi.lt_length hj.lt_length

/-- Values that differ from each other tell their positions. -/
theorem lastsAgree_values_iff {vs : List β} (hvs : vs.Nodup) (hlen : l.length = vs.length) :
    LastsAgree (fun i j => vs[i]? = vs[j]?) l l' ↔ LastsAgree (· = ·) l l' :=
  lastsAgree_congr fun _ _ hi _ => List.getElem?_inj (hlen ▸ hi) hvs

end

/-! ## The map -/

section

open PartialMap

variable [DecidableEq α]

/-- Each key has the value of its last position. -/
theorem foldl_insert_zip_eq_some {ks : List α} {vs : List β} (hlen : ks.length = vs.length)
    (k : α) (v : β) :
    (ks.zip vs).foldl (fun m e => m.insert e.1 e.2) empty k = some v ↔
      ∃ i, LastAt ks k i ∧ vs[i]? = some v := by
  induction ks using List.reverseRecOn generalizing vs with
  | nil =>
    refine iff_of_false nofun ?_
    rintro ⟨i, hi, -⟩
    exact not_lastAt_nil hi
  | append_singleton ks k' ih =>
    rw [List.length_append, List.length_singleton] at hlen
    obtain ⟨vs, v', rfl⟩ : ∃ ws w, vs = ws ++ [w] := by
      rcases List.eq_nil_or_concat vs with rfl | ⟨ws, w, hw⟩
      · simp at hlen
      · exact ⟨ws, w, by rw [hw, List.concat_eq_append]⟩
    have hlen' : ks.length = vs.length := by simpa using hlen
    rw [List.zip_append hlen', List.foldl_append, List.zip_cons_cons, List.zip_nil_left,
      List.foldl_cons, List.foldl_nil]
    by_cases hk : k = k'
    · subst hk
      have hlast : (vs ++ [v'])[ks.length]? = some v' := by
        rw [hlen']
        exact List.getElem?_concat_length
      simp only [insert_self, lastAt_concat, true_and, ne_eq, not_true_eq_false, false_and,
        or_false, exists_eq_left, hlast]
    · rw [insert_of_ne _ _ hk, ih hlen']
      refine exists_congr fun i => ?_
      simp only [lastAt_concat, Ne.symm hk, false_and, ne_eq, not_false_eq_true, true_and,
        false_or]
      refine and_congr_right fun hi => ?_
      rw [List.getElem?_append_left (hlen' ▸ hi.lt_length)]

/-- When two lists of keys give the same map for the same values. -/
theorem foldl_insert_zip_eq_iff {ks ks' : List α} {vs : List β}
    (hlen : ks.length = vs.length) (hlen' : ks'.length = vs.length) :
    (ks.zip vs).foldl (fun m e => m.insert e.1 e.2) empty =
        (ks'.zip vs).foldl (fun m e => m.insert e.1 e.2) empty ↔
      LastsAgree (fun i j => vs[i]? = vs[j]?) ks ks' := by
  have hvalue : ∀ {i : Nat}, i < vs.length → ∃ v, vs[i]? = some v := fun hi =>
    ⟨_, List.getElem?_eq_getElem hi⟩
  constructor
  · intro heq k
    constructor
    · intro i hi
      obtain ⟨v, hv⟩ := hvalue (hlen ▸ hi.lt_length)
      have hk := (foldl_insert_zip_eq_some hlen k v).2 ⟨i, hi, hv⟩
      rw [heq] at hk
      obtain ⟨j, hj, hv'⟩ := (foldl_insert_zip_eq_some hlen' k v).1 hk
      exact ⟨j, hj, hv.trans hv'.symm⟩
    · intro j hj
      obtain ⟨v, hv⟩ := hvalue (hlen' ▸ hj.lt_length)
      have hk := (foldl_insert_zip_eq_some hlen' k v).2 ⟨j, hj, hv⟩
      rw [← heq] at hk
      obtain ⟨i, hi, hv'⟩ := (foldl_insert_zip_eq_some hlen k v).1 hk
      exact ⟨i, hi, hv'.trans hv.symm⟩
  · intro hagree
    funext k
    refine Option.ext fun v => ?_
    rw [foldl_insert_zip_eq_some hlen, foldl_insert_zip_eq_some hlen']
    constructor
    · rintro ⟨i, hi, hv⟩
      obtain ⟨j, hj, hsame⟩ := (hagree k).1 i hi
      exact ⟨j, hj, hsame.symm.trans hv⟩
    · rintro ⟨j, hj, hv⟩
      obtain ⟨i, hi, hsame⟩ := (hagree k).2 j hj
      exact ⟨i, hi, hsame.trans hv⟩

end

end LastWins
