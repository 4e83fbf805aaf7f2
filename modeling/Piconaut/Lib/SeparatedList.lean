import Mathlib.Data.List.Basic
import Mathlib.Data.Nat.Init
import Mathlib.Logic.Equiv.Defs

/-!
# Lists that are divided by a separator

`Parts d` are the lists of parts that can be joined and divided again: there is at least
one part, and no part has the separator `d`.  Joining them with `d` between neighbours
loses nothing and reaches every list (`joinEquiv`), so dividing a list is the inverse of
joining.  `split` is that inverse, by `List.splitOn`.

`sepInduction` is the induction over the parts of a list.
-/

namespace SeparatedList

variable {α : Type} {d : α}

/-- Induction over the parts of a list: the last part has no separator, and any other
one is followed by a separator and the parts behind it. -/
@[elab_as_elim]
theorem sepInduction {motive : List α → Prop} (d : α)
    (last : ∀ item, d ∉ item → motive item)
    (sep : ∀ item rest, d ∉ item → motive rest → motive (item ++ d :: rest)) (l : List α) :
    motive l := by
  induction hn : l.length using Nat.strong_induction_on generalizing l with
  | _ n ih =>
    subst hn
    by_cases hmem : d ∈ l
    · obtain ⟨item, rest, rfl, hitem⟩ := List.eq_append_cons_of_mem hmem
      refine sep item rest hitem (ih rest.length ?_ rest rfl)
      simp only [List.length_append, List.length_cons]
      omega
    · exact last l hmem

/-- Parts that can be joined by `d` and divided again. -/
@[ext]
structure Parts (d : α) where
  parts : List (List α)
  ne_nil : parts ≠ []
  free : ∀ part ∈ parts, d ∉ part

/-- The parts with the separator between neighbours. -/
def Parts.join (p : Parts d) : List α := [d].intercalate p.parts

section Split

variable [BEq α] [LawfulBEq α]

/-- A list is its parts, each with the separator in front of it. -/
theorem flatMap_splitOn (d : α) (l : List α) : (l.splitOn d).flatMap (List.cons d) = d :: l := by
  induction l using sepInduction d with
  | last item hitem => simp [List.splitOn_eq_singleton hitem]
  | sep item rest hitem ih =>
    rw [List.splitOn_append_cons_self_of_not_mem hitem, List.flatMap_cons, ih]
    simp

/-- No part has a separator. -/
theorem not_mem_of_mem_splitOn {item l : List α} (h : item ∈ l.splitOn d) : d ∉ item := by
  induction l using sepInduction d with
  | last item' hitem =>
    rw [List.splitOn_eq_singleton hitem, List.mem_singleton] at h
    rw [h]
    exact hitem
  | sep item' rest hitem ih =>
    rw [List.splitOn_append_cons_self_of_not_mem hitem, List.mem_cons] at h
    rcases h with rfl | h
    · exact hitem
    · exact ih h

/-- Parts that each have the separator behind them are divided into the parts and an empty
rest. -/
theorem splitOn_terminated {parts : List (List α)} (h : ∀ part ∈ parts, d ∉ part) :
    (parts.map (· ++ [d])).flatten.splitOn d = parts ++ [[]] := by
  induction parts with
  | nil => simp
  | cons part parts ih =>
    rw [List.map_cons, List.flatten_cons, List.append_assoc, List.singleton_append,
      List.splitOn_append_cons_self_of_not_mem (h part List.mem_cons_self),
      ih fun p hp => h p (List.mem_cons_of_mem _ hp)]
    rfl

/-- There is one part more than there are separators. -/
theorem length_splitOn (d : α) (l : List α) : (l.splitOn d).length = l.count d + 1 := by
  induction l using sepInduction d with
  | last item hitem =>
    rw [List.splitOn_eq_singleton hitem, List.count_eq_zero.2 hitem]
    rfl
  | sep item rest hitem ih =>
    rw [List.splitOn_append_cons_self_of_not_mem hitem, List.length_cons, ih,
      List.count_append, List.count_eq_zero.2 hitem, List.count_cons_self, Nat.zero_add]

/-- The parts of a list. -/
def split (d : α) (l : List α) : Parts d where
  parts := l.splitOn d
  ne_nil := List.splitOn_ne_nil d l
  free _ := not_mem_of_mem_splitOn

/-- Joining is a bijection, and dividing is its inverse. -/
def joinEquiv (d : α) : Parts d ≃ List α where
  toFun := Parts.join
  invFun := split d
  left_inv p := Parts.ext (List.splitOn_intercalate d p.free p.ne_nil)
  right_inv _ := List.intercalate_splitOn d

/-- The parts of a list are the only ones that join to it. -/
theorem join_eq_iff {p : Parts d} {l : List α} : p.join = l ↔ p = split d l :=
  (Equiv.eq_symm_apply (joinEquiv d)).symm

/-- The parts of two lists with a separator between them. -/
theorem split_append_cons (d : α) (front back : List α) :
    (split d (front ++ d :: back)).parts = (split d front).parts ++ (split d back).parts :=
  List.splitOn_append_cons_self front back

/-- A separator at either end of a list has an empty part there, and so have two that
follow each other between them. -/
structure EmptyParts (d : α) (l : List α) : Prop where
  leading : ∀ back, l = d :: back → (split d l).parts = [] :: (split d back).parts
  trailing : ∀ front, l = front ++ [d] → (split d l).parts = (split d front).parts ++ [[]]
  consecutive : ∀ front back, l = front ++ d :: d :: back →
    (split d l).parts = (split d front).parts ++ [] :: (split d back).parts

theorem emptyParts (d : α) (l : List α) : EmptyParts d l where
  leading back h := by
    rw [h]
    exact split_append_cons d [] back
  trailing front h := by
    rw [h]
    exact split_append_cons d front []
  consecutive front back h := by
    rw [h, split_append_cons]
    exact congrArg _ (split_append_cons d [] back)

end Split

end SeparatedList
