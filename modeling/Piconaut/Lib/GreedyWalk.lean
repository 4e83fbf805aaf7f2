import Mathlib.Data.List.Forall2
import Mathlib.Data.List.Induction

/-!
# Greedy descent with a wildcard key

A walk consumes a word letter by letter and follows a prefix-closed set `N` of
addresses.  At each letter it takes the child that carries the letter itself;
without one it takes the child that carries the wildcard `marker`, as long as
the letter is `ok`.  It never reconsiders a choice.

`walk` is the algorithm.  `Selects` is what it decides, one position at a
time: the address carries the letter, or it carries the wildcard and the
letter is `ok` and `N` does not continue with the letter.  `walk_eq_some_iff`
is the equivalence of the two for a prefix-closed `N`.

`Matches` drops the side condition on `N`: it is the relation that a search
with backtracking would decide.  `Selects.leftmost` compares the two: the
selected address differs from any other matching one first at a position
where it carries the letter and the other carries the wildcard.
-/

namespace GreedyWalk

variable {K : Type} [DecidableEq K]
variable (N : List K → Bool) (marker : K) (ok : K → Bool)

/-- The key that the walk follows from the address `s` at the letter `x`. -/
def next (s : List K) (x : K) : Option K :=
  if x ≠ marker ∧ N (s ++ [x]) then some x
  else if N (s ++ [marker]) ∧ ok x then some marker
  else none

/-- The greedy descent from the address `s`. -/
def walk : List K → List K → Option (List K)
  | s, [] => some s
  | s, x :: xs =>
    match next N marker ok s x with
    | some k => walk (s ++ [k]) xs
    | none => none

/-- The walk takes the key `k` at the letter `x`. -/
def Chosen (s : List K) (k x : K) : Prop :=
  (k ≠ marker ∧ k = x) ∨ (k = marker ∧ ok x ∧ ¬ (x ≠ marker ∧ N (s ++ [x])))

/-- The walk takes the keys `ks` at the letters `xs`, from the address `s`. -/
def SelectsFrom (s : List K) : List K → List K → Prop
  | [], [] => True
  | k :: ks, x :: xs => Chosen N marker ok s k x ∧ SelectsFrom (s ++ [k]) ks xs
  | _, _ => False

/-- The keys `ks` are the ones a walk from the root takes at the letters `xs`. -/
def Selects (ks xs : List K) : Prop := SelectsFrom N marker ok [] ks xs

/-- The keys match the letters, whatever else `N` contains. -/
def Matches (ks xs : List K) : Prop :=
  List.Forall₂ (fun k x => (k ≠ marker ∧ k = x) ∨ (k = marker ∧ ok x = true)) ks xs

/-- `N` contains every prefix of its members. -/
def PrefixClosed : Prop := ∀ s k, N (s ++ [k]) → N s

variable {N marker ok}

/-- One step of the walk takes the key that is chosen, when `N` has it. -/
theorem next_eq_some_iff {s : List K} {k x : K} :
    next N marker ok s x = some k ↔ N (s ++ [k]) ∧ Chosen N marker ok s k x := by
  unfold next Chosen
  split_ifs with hstatic hmarker
  · constructor
    · intro h
      obtain rfl := Option.some.inj h
      exact ⟨hstatic.2, Or.inl ⟨hstatic.1, rfl⟩⟩
    · rintro ⟨-, ⟨-, rfl⟩ | ⟨-, -, hno⟩⟩
      · rfl
      · exact absurd hstatic hno
  · constructor
    · intro h
      obtain rfl := Option.some.inj h
      exact ⟨hmarker.1, Or.inr ⟨rfl, hmarker.2, hstatic⟩⟩
    · rintro ⟨hN, ⟨hne, rfl⟩ | ⟨rfl, -, -⟩⟩
      · exact absurd ⟨hne, hN⟩ hstatic
      · rfl
  · constructor
    · intro h
      cases h
    · rintro ⟨hN, ⟨hne, rfl⟩ | ⟨rfl, hok, -⟩⟩
      · exact absurd ⟨hne, hN⟩ hstatic
      · exact absurd ⟨hN, hok⟩ hmarker

/-- The walk has no step if neither the letter nor the wildcard continues. -/
theorem next_eq_none_iff {s : List K} {x : K} :
    next N marker ok s x = none ↔
      ¬ (x ≠ marker ∧ N (s ++ [x]) = true) ∧ ¬ (N (s ++ [marker]) = true ∧ ok x = true) := by
  unfold next
  split_ifs with hstatic hmarker
  · simp [hstatic]
  · simp [hmarker]
  · exact iff_of_true rfl ⟨hstatic, hmarker⟩

omit [DecidableEq K] in
theorem PrefixClosed.of_append (hN : PrefixClosed N) {s s' : List K}
    (h : N (s ++ s')) : N s := by
  induction s' using List.reverseRecOn with
  | nil => simpa using h
  | append_singleton s' k ih =>
    rw [← List.append_assoc] at h
    exact ih (hN _ _ h)

theorem walk_cons (s : List K) (x : K) (xs : List K) :
    walk N marker ok s (x :: xs) =
      (next N marker ok s x).bind fun k => walk N marker ok (s ++ [k]) xs := by
  rw [walk]
  cases next N marker ok s x with
  | none => rfl
  | some k => rfl

/-- The walk only extends the address it starts from. -/
theorem walk_extends {s xs t : List K} (h : walk N marker ok s xs = some t) :
    ∃ ks, t = s ++ ks := by
  induction xs generalizing s with
  | nil => exact ⟨[], by simpa [walk] using h.symm⟩
  | cons x xs ih =>
    rw [walk] at h
    cases hnext : next N marker ok s x with
    | none => simp [hnext] at h
    | some k =>
      rw [hnext] at h
      obtain ⟨ks, rfl⟩ := ih h
      exact ⟨k :: ks, by simp⟩

/-- A walk over two words is two walks. -/
theorem walk_append (s ys zs : List K) :
    walk N marker ok s (ys ++ zs) =
      (walk N marker ok s ys).bind fun t => walk N marker ok t zs := by
  induction ys generalizing s with
  | nil => rfl
  | cons y ys ih =>
    rw [List.cons_append, walk, walk]
    cases next N marker ok s y with
    | none => rfl
    | some k => exact ih (s ++ [k])

/-- A walk that fails arrives somewhere and has no step there. -/
theorem walk_eq_none_iff {s xs : List K} :
    walk N marker ok s xs = none ↔
      ∃ ys x zs t, xs = ys ++ x :: zs ∧ walk N marker ok s ys = some t ∧
        next N marker ok t x = none := by
  constructor
  · intro h
    induction xs generalizing s with
    | nil => cases h
    | cons x xs ih =>
      rw [walk] at h
      cases hnext : next N marker ok s x with
      | none => exact ⟨[], x, xs, s, rfl, rfl, hnext⟩
      | some k =>
        rw [hnext] at h
        obtain ⟨ys, y, zs, t, rfl, hwalk, hstuck⟩ := ih h
        refine ⟨x :: ys, y, zs, t, rfl, ?_, hstuck⟩
        rw [walk, hnext]
        exact hwalk
  · rintro ⟨ys, x, zs, t, rfl, hwalk, hstuck⟩
    rw [walk_append, hwalk, Option.bind_some, walk, hstuck]

/-- The walk arrives at the keys that are selected, as long as `N` contains
their address.  The induction is on the letters that are left. -/
theorem walk_append_eq_some_iff (hN : PrefixClosed N) (s ks xs : List K) :
    walk N marker ok s xs = some (s ++ ks) ↔
      (ks = [] ∨ N (s ++ ks)) ∧ SelectsFrom N marker ok s ks xs := by
  induction xs generalizing s ks with
  | nil => cases ks <;> simp [walk, SelectsFrom]
  | cons x xs ih =>
    cases ks with
    | nil =>
      -- the walk is not done, so it cannot stop where it started
      refine ⟨fun h => ?_, fun h => h.2.elim⟩
      rw [walk] at h
      cases hnext : next N marker ok s x with
      | none => simp [hnext] at h
      | some k =>
        rw [hnext] at h
        obtain ⟨t, ht⟩ := walk_extends h
        simp at ht
    | cons k ks =>
      have happ : s ++ k :: ks = (s ++ [k]) ++ ks := by simp
      have hstep : next N marker ok s x = some k ↔
          N (s ++ [k]) ∧ Chosen N marker ok s k x := next_eq_some_iff
      rw [walk]
      constructor
      · intro h
        cases hnext : next N marker ok s x with
        | none => simp [hnext] at h
        | some k' =>
          rw [hnext] at h
          obtain ⟨t, ht⟩ := walk_extends h
          obtain rfl : k = k' := by simp at ht; exact ht.1
          obtain ⟨hmem, hchosen⟩ := hstep.1 hnext
          obtain ⟨hrest, hsel⟩ := (ih (s ++ [k]) ks).1 (by rw [← happ]; exact h)
          refine ⟨Or.inr ?_, hchosen, hsel⟩
          rcases hrest with rfl | hrest
          · exact hmem
          · rw [happ]; exact hrest
      · rintro ⟨hmem, hchosen, hsel⟩
        have hks : N ((s ++ [k]) ++ ks) := by
          rw [← happ]; exact hmem.resolve_left (by simp)
        rw [hstep.2 ⟨hN.of_append hks, hchosen⟩, happ]
        exact (ih (s ++ [k]) ks).2 ⟨Or.inr hks, hsel⟩

/-- The walk from the root arrives at the selected keys. -/
theorem walk_eq_some_iff (hN : PrefixClosed N) {ks xs : List K} :
    walk N marker ok [] xs = some ks ↔
      (ks = [] ∨ N ks) ∧ Selects N marker ok ks xs := by
  have h : walk N marker ok [] xs = some ([] ++ ks) ↔ _ :=
    walk_append_eq_some_iff hN [] ks xs
  simpa [Selects] using h

/-! ## Selection against matching -/

omit [DecidableEq K] in
private theorem selectsFrom_iff (s ks xs : List K) :
    SelectsFrom N marker ok s ks xs ↔
      Matches marker ok ks xs ∧
        ∀ i x, ks[i]? = some marker → xs[i]? = some x →
          ¬ (x ≠ marker ∧ N (s ++ ks.take i ++ [x])) := by
  induction ks generalizing s xs with
  | nil => cases xs <;> simp [SelectsFrom, Matches]
  | cons k ks ih =>
    cases xs with
    | nil => simp [SelectsFrom, Matches]
    | cons x xs =>
      rw [SelectsFrom, ih, Matches, Matches, List.forall₂_cons]
      constructor
      · rintro ⟨hchosen, hmatch, hun⟩
        refine ⟨⟨?_, hmatch⟩, ?_⟩
        · exact hchosen.imp id fun h => ⟨h.1, h.2.1⟩
        · intro i y hk hy
          cases i with
          | zero =>
            obtain rfl : k = marker := by simpa using hk
            obtain rfl : x = y := by simpa using hy
            rcases hchosen with h | h
            · exact absurd rfl h.1
            · simpa using h.2.2
          | succ i => simpa using hun i y (by simpa using hk) (by simpa using hy)
      · rintro ⟨⟨hhead, hmatch⟩, hun⟩
        refine ⟨?_, hmatch, ?_⟩
        · rcases hhead with h | ⟨rfl, hok⟩
          · exact Or.inl h
          · exact Or.inr ⟨rfl, hok, by simpa using hun 0 x (by simp) (by simp)⟩
        · intro i y hk hy
          simpa using hun (i + 1) y (by simpa using hk) (by simpa using hy)

omit [DecidableEq K] in
/-- The selected keys are the matching ones that no letter of the word
shadows: `N` never continues with the letter where the keys carry the
wildcard. -/
theorem selects_iff {ks xs : List K} :
    Selects N marker ok ks xs ↔
      Matches marker ok ks xs ∧
        ∀ i x, ks[i]? = some marker → xs[i]? = some x →
          ¬ (x ≠ marker ∧ N (ks.take i ++ [x])) := by
  have h : SelectsFrom N marker ok [] ks xs ↔ _ := selectsFrom_iff [] ks xs
  simpa [Selects] using h

omit [DecidableEq K] in
/-- Matching, read at each position. -/
theorem matches_iff {ks xs : List K} :
    Matches marker ok ks xs ↔
      ks.length = xs.length ∧
        ∀ (i : Nat) k x, ks[i]? = some k → xs[i]? = some x →
          (k ≠ marker ∧ k = x) ∨ (k = marker ∧ ok x = true) := by
  rw [Matches, List.forall₂_iff_get]
  refine and_congr_right fun hlen => ⟨?_, ?_⟩
  · intro h i k x hk hx
    obtain ⟨hik, rfl⟩ := List.getElem?_eq_some_iff.1 hk
    obtain ⟨hix, rfl⟩ := List.getElem?_eq_some_iff.1 hx
    exact h i hik hix
  · intro h i hik hix
    exact h i _ _ (List.getElem?_eq_getElem hik) (List.getElem?_eq_getElem hix)

private theorem SelectsFrom.leftmost (hN : PrefixClosed N) {s ks ls xs : List K}
    (hsel : SelectsFrom N marker ok s ks xs) (hmatch : Matches marker ok ls xs)
    (hls : N (s ++ ls)) :
    ks = ls ∨ ∃ c k a b, ks = c ++ k :: a ∧ ls = c ++ marker :: b ∧ k ≠ marker := by
  induction xs generalizing s ks ls with
  | nil =>
    cases hmatch
    cases ks with
    | nil => exact Or.inl rfl
    | cons k ks => exact hsel.elim
  | cons x xs ih =>
    cases ks with
    | nil => exact hsel.elim
    | cons k ks =>
      cases hmatch with
      | @cons l _ ls _ hl hrest =>
        by_cases hkl : k = l
        · subst hkl
          rcases ih hsel.2 hrest (by simpa using hls) with rfl | ⟨c, k', a, b, rfl, rfl, hne⟩
          · exact Or.inl rfl
          · exact Or.inr ⟨k :: c, k', a, b, rfl, rfl, hne⟩
        · -- two keys that both match `x` are `x` itself and the wildcard
          rcases hsel.1 with ⟨hk, rfl⟩ | ⟨rfl, -, hno⟩
          · rcases hl with ⟨-, rfl⟩ | ⟨rfl, -⟩
            · exact absurd rfl hkl
            · exact Or.inr ⟨[], k, ks, ls, rfl, rfl, hk⟩
          · rcases hl with ⟨hl, rfl⟩ | ⟨rfl, -⟩
            · have hall : N ((s ++ [l]) ++ ls) := by simpa using hls
              exact absurd ⟨hl, hN.of_append hall⟩ hno
            · exact absurd rfl hkl

/-- The selected keys prefer the letter over the wildcard, leftmost first. -/
theorem Selects.leftmost (hN : PrefixClosed N) {ks ls xs : List K}
    (hsel : Selects N marker ok ks xs) (hmatch : Matches marker ok ls xs) (hls : N ls) :
    ks = ls ∨ ∃ c k a b, ks = c ++ k :: a ∧ ls = c ++ marker :: b ∧ k ≠ marker :=
  SelectsFrom.leftmost hN hsel hmatch (by simpa using hls)

end GreedyWalk
