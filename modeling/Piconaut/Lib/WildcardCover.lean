import Piconaut.Lib.GreedyWalk

/-!
# When a greedy descent finds every match

A greedy walk over the prefixes of a set `P` of patterns commits to a key before it has
seen the rest of the word.  It finds a pattern for every word that some pattern matches
exactly if `P` is `Closed`: wherever a key competes with the wildcard, some pattern below
the key covers the rest of the pattern below the wildcard (`finds_all_iff_closed`).

For the direction from left to right a word has to steer the walk along a given pattern.
`fill` writes a letter into the wildcards of a pattern that occurs in none of the
patterns, and `walk_fill` says that the walk then follows the pattern itself.
-/

namespace GreedyWalk

variable {K : Type}

section Defs

variable (marker : K) (ok : K → Bool)

/-- Each key of `ls` matches what the key of `ks` that faces it matches. -/
def Covers (ls ks : List K) : Prop :=
  List.Forall₂ (fun l k => l = k ∨ (l = marker ∧ ok k = true)) ls ks

/-- Where a key that the wildcard accepts continues some pattern, and the wildcard another
one, the key also continues a pattern that covers the other one. -/
def Closed (P : List K → Prop) : Prop :=
  ∀ s k t, k ≠ marker → ok k = true → (∃ p, P p ∧ s ++ [k] <+: p) → P (s ++ marker :: t) →
    ∃ t', P (s ++ k :: t') ∧ Covers marker ok t' t

/-- The letter `x` in place of each wildcard. -/
def fill [DecidableEq K] (x : K) (ks : List K) : List K :=
  ks.map fun k => if k = marker then x else k

end Defs

variable [DecidableEq K]
variable {P : List K → Prop} {N : List K → Bool} {marker : K} {ok : K → Bool}

omit [DecidableEq K] in
/-- What covers a pattern matches its words. -/
theorem Covers.matches_of_matches {ls ks xs : List K} (hcov : Covers marker ok ls ks)
    (hmatch : Matches marker ok ks xs) : Matches marker ok ls xs := by
  induction hcov generalizing xs with
  | nil =>
    cases hmatch
    exact List.Forall₂.nil
  | @cons l k ls ks hlk _ ih =>
    cases hmatch with
    | cons hkx hrest =>
      refine List.Forall₂.cons ?_ (ih hrest)
      rcases hlk with rfl | ⟨rfl, hok⟩
      · exact hkx
      · rcases hkx with ⟨-, rfl⟩ | ⟨-, hokx⟩
        · exact Or.inr ⟨rfl, hok⟩
        · exact Or.inr ⟨rfl, hokx⟩

/-- The keys of a walk match its word. -/
theorem matches_of_walk {s ks xs : List K} (h : walk N marker ok s xs = some (s ++ ks)) :
    Matches marker ok ks xs := by
  induction xs generalizing s ks with
  | nil =>
    obtain rfl : ks = [] := by simpa [walk] using h
    exact List.Forall₂.nil
  | cons x xs ih =>
    rw [walk] at h
    cases hnext : next N marker ok s x with
    | none => simp [hnext] at h
    | some k =>
      rw [hnext] at h
      obtain ⟨ls, hls⟩ := walk_extends h
      obtain rfl : ks = k :: ls := by simpa using hls
      have hrest : walk N marker ok (s ++ [k]) xs = some (s ++ [k] ++ ls) := by simpa using h
      refine List.Forall₂.cons ?_ (ih hrest)
      exact (next_eq_some_iff.1 hnext).2.imp id fun hparam => ⟨hparam.1, hparam.2.1⟩

section Complete

variable (hN : ∀ s k, N (s ++ [k]) = true ↔ ∃ p, P p ∧ s ++ [k] <+: p)
include hN

omit [DecidableEq K] in
/-- A key of a pattern is there for the walk. -/
theorem mem_of_pattern {s : List K} {k : K} {t : List K} (hp : P (s ++ k :: t)) :
    N (s ++ [k]) = true :=
  (hN s k).2 ⟨_, hp, t, by simp⟩

/-- Over a closed set the walk always has a pattern ahead that matches the rest of the
word.  The induction is on the rest. -/
theorem walk_of_closed (hmarker : ok marker = false) (hclosed : Closed marker ok P)
    {s t xs : List K} (hp : P (s ++ t)) (hmatch : Matches marker ok t xs) :
    ∃ q, P q ∧ walk N marker ok s xs = some q := by
  induction xs generalizing s t with
  | nil =>
    cases hmatch
    exact ⟨s, by simpa using hp, rfl⟩
  | cons x xs ih =>
    cases hmatch with
    | @cons k _ t _ hkx hrest =>
      by_cases hstatic : x ≠ marker ∧ N (s ++ [x]) = true
      · have hnext : next N marker ok s x = some x :=
          next_eq_some_iff.2 ⟨hstatic.2, Or.inl ⟨hstatic.1, rfl⟩⟩
        rw [walk, hnext]
        rcases hkx with ⟨-, rfl⟩ | ⟨rfl, hok⟩
        · exact ih (by simpa using hp) hrest
        · -- the walk leaves the pattern, and closedness provides another one
          obtain ⟨t', hp', hcov⟩ := hclosed s x t hstatic.1 hok ((hN s x).1 hstatic.2) hp
          exact ih (by simpa using hp') (hcov.matches_of_matches hrest)
      · rcases hkx with ⟨hne, rfl⟩ | ⟨rfl, hok⟩
        · exact absurd ⟨hne, mem_of_pattern hN hp⟩ hstatic
        · have hnext : next N k ok s x = some k :=
            next_eq_some_iff.2 ⟨mem_of_pattern hN hp, Or.inr ⟨rfl, hok, hstatic⟩⟩
          rw [walk, hnext]
          exact ih (by simpa using hp) hrest

variable {x : K} (hx : ok x = true) (hfresh : ∀ p, P p → x ∉ p)
include hx hfresh

/-- Filled with a fresh letter, a pattern leads the walk along itself. -/
theorem walk_fill {s ks : List K}
    (hks : ks = [] ∨ ∃ p, P p ∧ s ++ ks <+: p) :
    walk N marker ok s (fill marker x ks) = some (s ++ ks) := by
  induction ks generalizing s with
  | nil => simp [fill, walk]
  | cons k ks ih =>
    obtain ⟨p, hp, hpre⟩ := hks.resolve_left (by simp)
    have happ : s ++ k :: ks = s ++ [k] ++ ks := by simp
    have hmem : N (s ++ [k]) = true :=
      (hN s k).2 ⟨p, hp, (List.prefix_append _ ks).trans (happ ▸ hpre)⟩
    have hnext : next N marker ok s (if k = marker then x else k) = some k := by
      refine next_eq_some_iff.2 ⟨hmem, ?_⟩
      by_cases hk : k = marker
      · rw [if_pos hk]
        refine Or.inr ⟨hk, hx, ?_⟩
        rintro ⟨-, hno⟩
        obtain ⟨q, hq, hqpre⟩ := (hN s x).1 hno
        exact hfresh q hq (hqpre.subset (by simp))
      · rw [if_neg hk]
        exact Or.inl ⟨hk, rfl⟩
    have hrest := ih (Or.inr ⟨p, hp, happ ▸ hpre⟩)
    rw [fill, List.map_cons, walk, hnext, happ]
    exact hrest

omit hN hfresh in
/-- A pattern matches its filling. -/
theorem matches_fill (ks : List K) : Matches marker ok ks (fill marker x ks) := by
  rw [Matches, fill, List.forall₂_map_right_iff, List.forall₂_same]
  intro k _
  by_cases hk : k = marker
  · rw [if_pos hk]
    exact Or.inr ⟨hk, hx⟩
  · rw [if_neg hk]
    exact Or.inl ⟨hk, rfl⟩

omit hN hx hfresh in
/-- What matches a filling, and does not have the letter itself, covers the pattern. -/
theorem covers_of_matches_fill {ls ks : List K} (hno : x ∉ ls)
    (hmatch : Matches marker ok ls (fill marker x ks)) : Covers marker ok ls ks := by
  rw [Matches, fill, List.forall₂_map_right_iff] at hmatch
  induction hmatch with
  | nil => exact List.Forall₂.nil
  | @cons l k ls ks hlk _ ih =>
    rw [List.mem_cons, not_or] at hno
    refine List.Forall₂.cons ?_ (ih hno.2)
    by_cases hk : k = marker
    · rw [if_pos hk] at hlk
      rcases hlk with ⟨-, rfl⟩ | ⟨rfl, -⟩
      · exact absurd rfl hno.1
      · exact Or.inl hk.symm
    · rw [if_neg hk] at hlk
      exact hlk.imp And.right id

/-- The walk finds a pattern for every word that some pattern matches exactly if the set
of patterns is closed. -/
theorem finds_all_iff_closed (hmarker : ok marker = false) :
    (∀ xs, (∃ p, P p ∧ Matches marker ok p xs) → ∃ q, P q ∧ walk N marker ok [] xs = some q) ↔
      Closed marker ok P := by
  constructor
  · intro hfinds s k t hk hok hlive hp
    -- a word that goes along `s`, then takes `k`, and matches `t` behind it
    have hs : walk N marker ok [] (fill marker x s) = some s :=
      walk_fill hN hx hfresh (Or.inr ⟨_, hp, List.prefix_append _ _⟩)
    have hnext : next N marker ok s k = some k :=
      next_eq_some_iff.2 ⟨(hN s k).2 hlive, Or.inl ⟨hk, rfl⟩⟩
    have hmatch : Matches marker ok (s ++ marker :: t)
        (fill marker x s ++ k :: fill marker x t) :=
      List.rel_append (matches_fill hx s)
        (List.Forall₂.cons (Or.inr ⟨rfl, hok⟩) (matches_fill hx t))
    obtain ⟨q, hq, hwalk⟩ := hfinds _ ⟨_, hp, hmatch⟩
    rw [walk_append, hs, Option.bind_some, walk, hnext] at hwalk
    obtain ⟨t', rfl⟩ := walk_extends hwalk
    refine ⟨t', by simpa using hq, ?_⟩
    refine covers_of_matches_fill (fun hmem => hfresh _ hq ?_) (matches_of_walk hwalk)
    exact List.mem_append_right _ hmem
  · rintro hclosed xs ⟨p, hp, hmatch⟩
    exact walk_of_closed hN hmarker hclosed (s := []) hp hmatch

end Complete

end GreedyWalk
