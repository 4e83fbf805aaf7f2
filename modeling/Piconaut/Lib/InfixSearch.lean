import Mathlib.Data.List.Infix
import Mathlib.Data.Nat.Find
import Piconaut.Lib.SeparatedList

/-!
# The first occurrence of a word

`FirstOccurrence needle hay pre post` says that `needle` occurs in `hay` between
`pre` and `post`, and nowhere further to the left.  `List.dropInfix?` computes it
(`dropInfix?_eq_some_iff`, `dropInfix?_eq_none_iff`).

The other lemmas are about a list that is divided by a separator which the word
does not contain.  An occurrence lies on one side of a separator
(`infix_append_sep`), so the first one lies in the first item that has any
(`dropInfix?_append_sep`).  `firstItem` is the search item by item
(`dropInfix?_splitOn`).
-/

namespace InfixSearch

open SeparatedList

variable {α : Type} {needle hay pre post item rest : List α} {d : α}

/-- The leftmost occurrence of `needle` in `hay` is between `pre` and `post`. -/
structure FirstOccurrence (needle hay pre post : List α) : Prop where
  eq : hay = pre ++ (needle ++ post)
  least : ∀ pre' post', hay = pre' ++ (needle ++ post') → pre.length ≤ pre'.length

theorem FirstOccurrence.isInfix (h : FirstOccurrence needle hay pre post) :
    needle <:+: hay :=
  ⟨pre, post, by rw [h.eq, List.append_assoc]⟩

/-- A word that occurs has a first occurrence. -/
theorem exists_of_infix (h : needle <:+: hay) :
    ∃ pre post, FirstOccurrence needle hay pre post := by
  classical
  have hex : ∃ n pre post, hay = pre ++ (needle ++ post) ∧ pre.length = n := by
    obtain ⟨pre, post, hpp⟩ := h
    exact ⟨_, pre, post, by rw [← hpp, List.append_assoc], rfl⟩
  obtain ⟨pre, post, heq, hlen⟩ := Nat.find_spec hex
  refine ⟨pre, post, heq, fun pre' post' heq' => ?_⟩
  rw [hlen]
  exact Nat.find_min' hex ⟨pre', post', heq', rfl⟩

/-! ## The computed one -/

section Computed

variable [BEq α] [LawfulBEq α]

theorem dropInfix?_eq_some_iff :
    hay.dropInfix? needle = some (pre, post) ↔ FirstOccurrence needle hay pre post := by
  rw [List.dropInfix?_eq_some_iff]
  constructor
  · rintro ⟨⟨needle', heq, hbeq⟩, hmin⟩
    obtain rfl := eq_of_beq hbeq
    refine ⟨by rw [heq, List.append_assoc], fun pre' post' heq' => ?_⟩
    exact hmin pre' needle' post' (by rw [heq', List.append_assoc]) BEq.rfl
  · intro h
    refine ⟨⟨needle, by rw [h.eq, List.append_assoc], BEq.rfl⟩, ?_⟩
    intro pre' needle' post' heq' hbeq
    obtain rfl := eq_of_beq hbeq
    exact h.least pre' post' (by rw [heq', List.append_assoc])

theorem dropInfix?_eq_none_iff : hay.dropInfix? needle = none ↔ ¬ needle <:+: hay := by
  cases hdrop : hay.dropInfix? needle with
  | some p => exact iff_of_false (by simp) fun hno => hno (dropInfix?_eq_some_iff.1 hdrop).isInfix
  | none =>
    refine iff_of_true rfl fun hinfix => ?_
    obtain ⟨pre, post, hfirst⟩ := exists_of_infix hinfix
    rw [dropInfix?_eq_some_iff.2 hfirst] at hdrop
    cases hdrop

end Computed

/-! ## Separators -/

/-- An occurrence lies on one side of a separator. -/
theorem append_sep_cases (hd : d ∉ needle) (h : item ++ d :: rest = pre ++ (needle ++ post)) :
    (∃ post', item = pre ++ (needle ++ post') ∧ post = post' ++ d :: rest) ∨
      ∃ pre', pre = item ++ d :: pre' ∧ rest = pre' ++ (needle ++ post) := by
  rcases List.append_eq_append_iff.1 h with ⟨mid, rfl, hmid⟩ | ⟨mid, rfl, hmid⟩
  · cases mid with
    | cons c mid =>
      obtain ⟨rfl, rfl⟩ := List.cons.inj hmid
      exact Or.inr ⟨mid, rfl, rfl⟩
    | nil =>
      -- the separator would be the first letter of the word
      cases needle with
      | cons c needle =>
        obtain ⟨rfl, -⟩ := List.cons.inj hmid
        exact absurd List.mem_cons_self hd
      | nil => exact Or.inl ⟨[], by simp, by simpa using hmid.symm⟩
  · rcases List.append_eq_append_iff.1 hmid with ⟨mid', rfl, hpost⟩ | ⟨mid', rfl, hpost⟩
    · exact Or.inl ⟨mid', rfl, hpost⟩
    · cases mid' with
      | cons c mid' =>
        obtain ⟨rfl, -⟩ := List.cons.inj hpost
        exact absurd (by simp) hd
      | nil => exact Or.inl ⟨[], by simp, by simpa using hpost.symm⟩

theorem infix_append_sep (hd : d ∉ needle) :
    needle <:+: item ++ d :: rest ↔ needle <:+: item ∨ needle <:+: rest := by
  constructor
  · rintro ⟨pre, post, h⟩
    rw [List.append_assoc] at h
    rcases append_sep_cases hd h.symm with ⟨post', rfl, -⟩ | ⟨pre', -, rfl⟩
    · exact Or.inl ⟨pre, post', List.append_assoc _ _ _⟩
    · exact Or.inr ⟨pre', post, List.append_assoc _ _ _⟩
  · rintro (h | h)
    · exact h.trans (List.prefix_append _ _).isInfix
    · exact h.trans ((List.suffix_cons d rest).trans (List.suffix_append _ _)).isInfix

/-- The first occurrence in the first item is the first one of the list. -/
theorem FirstOccurrence.append_sep (hd : d ∉ needle)
    (h : FirstOccurrence needle item pre post) :
    FirstOccurrence needle (item ++ d :: rest) pre (post ++ d :: rest) where
  eq := by rw [h.eq]; simp
  least := by
    intro pre' post' heq
    rcases append_sep_cases hd heq with ⟨post'', hitem, -⟩ | ⟨pre'', rfl, -⟩
    · exact h.least pre' post'' hitem
    · have hle := congrArg List.length h.eq
      simp only [List.length_append, List.length_cons] at hle ⊢
      omega

/-- An item without an occurrence is skipped. -/
theorem FirstOccurrence.skip_sep (hd : d ∉ needle) (hitem : ¬ needle <:+: item)
    (h : FirstOccurrence needle rest pre post) :
    FirstOccurrence needle (item ++ d :: rest) (item ++ d :: pre) post where
  eq := by rw [h.eq]; simp
  least := by
    intro pre' post' heq
    rcases append_sep_cases hd heq with ⟨post'', rfl, -⟩ | ⟨pre'', rfl, hrest⟩
    · exact absurd ⟨pre', post'', List.append_assoc _ _ _⟩ hitem
    · have hle := h.least pre'' post' hrest
      simp only [List.length_append, List.length_cons]
      omega

/-- The search looks at the first item, and then at the rest. -/
theorem dropInfix?_append_sep [BEq α] [LawfulBEq α] (hd : d ∉ needle) (item rest : List α) :
    (item ++ d :: rest).dropInfix? needle =
      match item.dropInfix? needle with
      | some (pre, post) => some (pre, post ++ d :: rest)
      | none => (rest.dropInfix? needle).map fun p => (item ++ d :: p.1, p.2) := by
  cases hitem : item.dropInfix? needle with
  | some p => exact dropInfix?_eq_some_iff.2 ((dropInfix?_eq_some_iff.1 hitem).append_sep hd)
  | none =>
    have hno := dropInfix?_eq_none_iff.1 hitem
    cases hrest : rest.dropInfix? needle with
    | some p =>
      exact dropInfix?_eq_some_iff.2 ((dropInfix?_eq_some_iff.1 hrest).skip_sep hd hno)
    | none =>
      refine dropInfix?_eq_none_iff.2 fun hinfix => ?_
      exact ((infix_append_sep hd).1 hinfix).elim hno (dropInfix?_eq_none_iff.1 hrest)

/-! ## Items -/

section Items

variable [BEq α] [LawfulBEq α]

/-- The first item that contains the word: what is in front of its first occurrence
there, what is behind it, and the items that follow. -/
def firstItem (needle : List α) : List (List α) → Option (List α × List α × List (List α))
  | [] => none
  | item :: later =>
    match item.dropInfix? needle with
    | some (pre, post) => some (pre, post, later)
    | none => firstItem needle later

/-- The search in a list arrives in the first item that contains the word, with the
items that follow behind it. -/
theorem dropInfix?_splitOn (hd : d ∉ needle) (l : List α) :
    (l.dropInfix? needle).map Prod.snd =
      (firstItem needle (l.splitOn d)).map fun m => m.2.1 ++ m.2.2.flatMap (List.cons d) := by
  induction l using sepInduction d with
  | last item hitem =>
    rw [List.splitOn_eq_singleton hitem, firstItem]
    cases item.dropInfix? needle with
    | none => rfl
    | some p => simp
  | sep item rest hitem ih =>
    rw [dropInfix?_append_sep hd, List.splitOn_append_cons_self_of_not_mem hitem, firstItem]
    cases item.dropInfix? needle with
    | some p => simp [flatMap_splitOn]
    | none =>
      rw [← ih]
      cases rest.dropInfix? needle <;> rfl

/-- The first item that contains the word is one of the items. -/
theorem exists_mem_of_firstItem {items later : List (List α)}
    (h : firstItem needle items = some (pre, post, later)) :
    ∃ item ∈ items, FirstOccurrence needle item pre post := by
  induction items with
  | nil => cases h
  | cons item items ih =>
    rw [firstItem] at h
    cases hdrop : item.dropInfix? needle with
    | none =>
      rw [hdrop] at h
      obtain ⟨item', hmem, hfirst⟩ := ih h
      exact ⟨item', List.mem_cons_of_mem _ hmem, hfirst⟩
    | some p =>
      rw [hdrop] at h
      obtain ⟨rfl, rfl, -⟩ : p.1 = pre ∧ p.2 = post ∧ _ := by simpa using h
      exact ⟨item, List.mem_cons_self, dropInfix?_eq_some_iff.1 hdrop⟩

end Items

/-- Up to the next separator there is the rest of the item. -/
theorem takeWhile_item [DecidableEq α] (hpost : d ∉ post) (later : List (List α)) :
    (post ++ later.flatMap (List.cons d)).takeWhile (fun x => x ≠ d) = post := by
  have hall : ∀ x ∈ post, (decide (x ≠ d)) = true := by
    intro x hx
    rw [decide_eq_true_iff]
    rintro rfl
    exact hpost hx
  rw [List.takeWhile_append_of_pos hall]
  cases later <;> simp

end InfixSearch
