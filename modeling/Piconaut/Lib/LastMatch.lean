import Mathlib.Data.List.Basic
import Mathlib.Data.List.Find
import Mathlib.Data.List.Pairwise

/-!
# The last element with a property

A log in which later entries count more is read with `List.findRev?`.  The lemmas
say what it finds in a log with one more entry, what is known of an entry that is
found, when one is found, and how it goes with `map` and `filter`.  A log may be
compacted: where the property depends on a key only, the last entry of each key is
enough (`findRev?_pwFilter`).

`Since p q` says of a log that some entry has `p` and no later one has `q`.
-/

namespace LastMatch

variable {α β : Type} {p : α → Bool} {l : List α} {a : α}

theorem findRev?_concat (p : α → Bool) (l : List α) (a : α) :
    (l ++ [a]).findRev? p = if p a then some a else l.findRev? p := by
  rw [List.findRev?_eq_find?_reverse, List.findRev?_eq_find?_reverse, List.reverse_append,
    List.reverse_singleton, List.singleton_append, List.find?_cons]
  cases p a <;> rfl

theorem findRev?_eq_some (h : l.findRev? p = some a) : a ∈ l ∧ p a = true := by
  rw [List.findRev?_eq_find?_reverse] at h
  exact ⟨List.mem_reverse.1 (List.mem_of_find?_eq_some h), List.find?_some h⟩

/-- Where an element has the property, there is a last one. -/
theorem exists_findRev? (ha : a ∈ l) (hp : p a = true) : ∃ b, l.findRev? p = some b := by
  rw [List.findRev?_eq_find?_reverse, ← Option.isSome_iff_exists, List.find?_isSome]
  exact ⟨a, List.mem_reverse.2 ha, hp⟩

theorem findRev?_map (f : β → α) (p : α → Bool) (l : List β) :
    (l.map f).findRev? p = (l.findRev? fun b => p (f b)).map f := by
  rw [List.findRev?_eq_find?_reverse, List.findRev?_eq_find?_reverse, ← List.map_reverse,
    List.find?_map]
  rfl

theorem findRev?_filter (q p : α → Bool) (l : List α) :
    (l.filter q).findRev? p = l.findRev? fun a => q a && p a := by
  rw [List.findRev?_eq_find?_reverse, List.findRev?_eq_find?_reverse, ← List.filter_reverse,
    List.find?_filter]
  simp only [Bool.decide_and, Bool.decide_eq_true]

theorem findRev?_congr {q : α → Bool} (h : ∀ a ∈ l, p a = q a) :
    l.findRev? p = l.findRev? q := by
  rw [List.findRev?_eq_find?_reverse, List.findRev?_eq_find?_reverse]
  exact List.find?_congr fun a ha => h a (List.mem_reverse.1 ha)

/-- Entries with the key of a later one are never found. -/
theorem findRev?_pwFilter [DecidableEq β] (key : α → β) (l : List α)
    (hp : ∀ a b, key a = key b → p a = p b) :
    (l.pwFilter fun a b => key a ≠ key b).findRev? p = l.findRev? p := by
  induction l with
  | nil => rfl
  | cons a l ih =>
    by_cases hkeep : ∀ b ∈ l.pwFilter (fun a b => key a ≠ key b), key a ≠ key b
    · rw [List.pwFilter_cons_of_pos hkeep, List.findRev?, List.findRev?, ih]
    · rw [List.pwFilter_cons_of_neg hkeep, List.findRev?, ih]
      cases hlater : l.findRev? p with
      | some b => rfl
      | none =>
        -- the later entry with the same key would be found as well
        cases hpa : p a with
        | false => rfl
        | true =>
          push Not at hkeep
          obtain ⟨b, hb, hkey⟩ := hkeep
          obtain ⟨c, hc⟩ := exists_findRev? (List.pwFilter_sublist l |>.subset hb)
            ((hp a b hkey).symm.trans hpa)
          rw [hlater] at hc
          cases hc

/-- An entry has `p`, and no later one has `q`. -/
def Since (p q : α → Prop) (l : List α) : Prop :=
  ∃ front a back, l = front ++ a :: back ∧ p a ∧ ∀ b ∈ back, ¬ q b

variable {r q : α → Prop}

theorem since_concat : Since r q (l ++ [a]) ↔ r a ∨ (¬ q a ∧ Since r q l) := by
  constructor
  · rintro ⟨front, b, back, hl, hb, hback⟩
    rcases List.eq_nil_or_concat back with rfl | ⟨back, a', rfl⟩
    · obtain ⟨-, rfl⟩ := List.append_singleton_inj.1 hl
      exact Or.inl hb
    · have hl' : l ++ [a] = (front ++ b :: back) ++ [a'] := by simpa using hl
      obtain ⟨rfl, rfl⟩ := List.append_singleton_inj.1 hl'
      refine Or.inr ⟨hback a (by simp), front, b, back, rfl, hb, fun x hx => ?_⟩
      exact hback x (by simp [hx])
  · rintro (ha | ⟨ha, front, b, back, rfl, hb, hback⟩)
    · exact ⟨l, a, [], rfl, ha, by simp⟩
    · refine ⟨front, b, back ++ [a], by simp, hb, fun x hx => ?_⟩
      rcases List.mem_append.1 hx with hx | hx
      · exact hback x hx
      · rwa [List.mem_singleton.1 hx]

theorem Since.exists_mem (h : Since r q l) : ∃ a ∈ l, r a := by
  obtain ⟨front, a, back, rfl, ha, -⟩ := h
  exact ⟨a, by simp, ha⟩

end LastMatch
