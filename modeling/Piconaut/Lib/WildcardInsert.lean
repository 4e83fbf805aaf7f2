import Piconaut.Lib.WildcardCover

/-!
# One more path for a greedy descent

What the insertion of a path `q` does to the walks of `GreedyWalk`.  The path shares its
first `m` keys with the addresses that are there, and everything behind them is new.  A
walk `Enters` the new part when it arrives at the shared keys and takes the next key of
`q` there.  From then on it can only go along `q` (`walk_of_enters`); every other walk is
what it was (`walk_eq`).
-/

namespace GreedyWalk

variable {K : Type} [DecidableEq K]

/-- `N'` has the prefixes of `q` besides the members of `N`, and `N` has the first `m` keys
of `q` and no more of them. -/
structure Inserts (N N' : List K → Bool) (q : List K) (m : Nat) : Prop where
  mem : ∀ s, N' s = true ↔ N s = true ∨ s <+: q
  le_length : m ≤ q.length
  shared : N (q.take m) = true
  fresh : ∀ i, m < i → i ≤ q.length → N (q.take i) = false

/-- The walk arrives at the shared part of `q` and takes its next key there. -/
def Enters (N : List K → Bool) (marker : K) (ok : K → Bool) (q : List K) (m : Nat)
    (xs : List K) : Prop :=
  ∃ k ∈ q[m]?, ∃ x ∈ xs[m]?, walk N marker ok [] (xs.take m) = some (q.take m) ∧
    Chosen N marker ok (q.take m) k x

instance (N : List K → Bool) (marker : K) (ok : K → Bool) (s : List K) (k x : K) :
    Decidable (Chosen N marker ok s k x) := by
  unfold Chosen
  infer_instance

instance (N : List K → Bool) (marker : K) (ok : K → Bool) (q : List K) (m : Nat)
    (xs : List K) : Decidable (Enters N marker ok q m xs) := by
  unfold Enters
  infer_instance

instance (marker : K) (ok : K → Bool) (ks xs : List K) :
    Decidable (Matches marker ok ks xs) :=
  inferInstanceAs (Decidable (List.Forall₂ _ _ _))

variable {N N' : List K → Bool} {marker : K} {ok : K → Bool} {q : List K} {m : Nat}

/-! ## Two walks that take the same steps -/

theorem walk_length {s xs t : List K} (h : walk N marker ok s xs = some t) :
    t.length = s.length + xs.length := by
  obtain ⟨ks, rfl⟩ := walk_extends h
  rw [List.length_append, (matches_of_walk h).length_eq]

/-- Walks agree if they take the same steps at the addresses that one of them visits. -/
theorem walk_congr {s xs : List K}
    (h : ∀ ys x zs t, xs = ys ++ x :: zs → walk N marker ok s ys = some t →
      next N' marker ok t x = next N marker ok t x) :
    walk N' marker ok s xs = walk N marker ok s xs := by
  induction xs generalizing s with
  | nil => rfl
  | cons x xs ih =>
    have hfirst := h [] x xs s rfl rfl
    rw [walk, walk, hfirst]
    cases hnext : next N marker ok s x with
    | none => rfl
    | some k =>
      refine ih fun ys y zs t hxs hwalk => h (x :: ys) y zs t (by rw [hxs]; rfl) ?_
      rw [walk, hnext]
      exact hwalk

/-- A walk stays in the set it follows. -/
theorem mem_of_walk {s xs t : List K} (hs : N s = true)
    (h : walk N marker ok s xs = some t) : N t = true := by
  induction xs generalizing s with
  | nil =>
    obtain rfl : s = t := by simpa [walk] using h
    exact hs
  | cons x xs ih =>
    rw [walk] at h
    cases hnext : next N marker ok s x with
    | none => simp [hnext] at h
    | some k =>
      rw [hnext] at h
      exact ih (next_eq_some_iff.1 hnext).1 h

/-! ## What is new -/

namespace Inserts

variable (h : Inserts N N' q m)
include h

omit [DecidableEq K] in
theorem length_shared : (q.take m).length = m := by
  rw [List.length_take, Nat.min_eq_left h.le_length]

omit [DecidableEq K] in
/-- A new child of an old address is behind the shared part, and has the next key of `q`. -/
theorem eq_of_new_child (hN : PrefixClosed N) {s : List K} {y : K} (hs : N s = true)
    (hold : N (s ++ [y]) = false) (hnew : N' (s ++ [y]) = true) :
    s = q.take m ∧ q[m]? = some y := by
  have hpre : s ++ [y] <+: q := by
    rcases (h.mem _).1 hnew with hmem | hpre
    · rw [hold] at hmem
      cases hmem
    · exact hpre
  have htake : s = q.take s.length :=
    List.prefix_iff_eq_take.1 ((List.prefix_append s [y]).trans hpre)
  have hchild : s ++ [y] = q.take (s.length + 1) := by
    simpa using List.prefix_iff_eq_take.1 hpre
  have hget : q[s.length]? = some y := by
    obtain ⟨rest, rfl⟩ := hpre
    simp
  have hlt : s.length < q.length := (List.getElem?_eq_some_iff.1 hget).1
  have hge : m ≤ s.length := by
    by_contra hlt'
    have hbelow : q.take (s.length + 1) <+: q.take m := List.take_prefix_take_left (by omega)
    obtain ⟨rest, hrest⟩ := hbelow
    have hbefore : N (q.take (s.length + 1) ++ rest) = true := by
      rw [hrest]
      exact h.shared
    have hmem : N (s ++ [y]) = true := by
      rw [hchild]
      exact hN.of_append hbefore
    rw [hold] at hmem
    cases hmem
  have hle : s.length ≤ m := by
    by_contra hlt'
    rw [htake, h.fresh _ (by omega) (by omega)] at hs
    cases hs
  obtain rfl : s.length = m := by omega
  exact ⟨htake, hget⟩

omit [DecidableEq K] in
/-- The children of any other old address are what they were. -/
theorem mem_child_iff (hN : PrefixClosed N) {s : List K} {y : K} (hs : N s = true)
    (hne : s = q.take m → q[m]? ≠ some y) : N' (s ++ [y]) = true ↔ N (s ++ [y]) = true := by
  refine ⟨fun hnew => ?_, fun hold => (h.mem _).2 (Or.inl hold)⟩
  by_contra hold
  obtain ⟨hshared, hget⟩ :=
    h.eq_of_new_child hN hs (by simpa using hold) hnew
  exact hne hshared hget

/-- Without a new child to take, a step is what it was. -/
theorem next_eq (hN : PrefixClosed N) {s : List K} {x : K} (hs : N s = true)
    (hno : ∀ k, s = q.take m → q[m]? = some k → ¬ Chosen N marker ok s k x) :
    next N' marker ok s x = next N marker ok s x := by
  have hstatic : (x ≠ marker ∧ N' (s ++ [x]) = true) ↔ (x ≠ marker ∧ N (s ++ [x]) = true) := by
    refine and_congr_right fun hx => h.mem_child_iff hN hs fun hshared hget => ?_
    exact hno x hshared hget (Or.inl ⟨hx, rfl⟩)
  by_cases hold : x ≠ marker ∧ N (s ++ [x]) = true
  · rw [next, next, if_pos hold, if_pos (hstatic.2 hold)]
  · have hmarker : (N' (s ++ [marker]) = true ∧ ok x = true) ↔
        (N (s ++ [marker]) = true ∧ ok x = true) := by
      refine and_congr_left fun hok => h.mem_child_iff hN hs fun hshared hget => ?_
      exact hno marker hshared hget (Or.inr ⟨rfl, hok, hold⟩)
    rw [next, next, if_neg hold, if_neg fun hnew => hold (hstatic.1 hnew)]
    exact if_congr hmarker rfl rfl

/-- A walk that does not enter the new part is what it was. -/
theorem walk_eq (hN : PrefixClosed N) {xs : List K} (hno : ¬ Enters N marker ok q m xs) :
    walk N' marker ok [] xs = walk N marker ok [] xs := by
  have hshared : N ([] ++ q.take m) = true := h.shared
  have hroot : N [] = true := hN.of_append hshared
  refine walk_congr fun ys x zs t hxs hwalk => h.next_eq hN (mem_of_walk hroot hwalk) ?_
  rintro k rfl hget hchosen
  have hlen : ys.length = m := by
    have hl := walk_length hwalk
    rw [h.length_shared] at hl
    simpa using hl.symm
  refine hno ⟨k, hget, x, ?_, ?_, hchosen⟩
  · rw [hxs, ← hlen]
    simp
  · rw [hxs, ← hlen, List.take_left, hlen]
    exact hwalk

/-- In the new part there is one step: along `q`. -/
theorem next_new (hN : PrefixClosed N) {i : Nat} (hi : m < i) (hlen : i ≤ q.length) (k x : K) :
    next N' marker ok (q.take i) x = some k ↔
      q[i]? = some k ∧ ((k ≠ marker ∧ k = x) ∨ (k = marker ∧ ok x = true)) := by
  have hchild : ∀ y, N' (q.take i ++ [y]) = true ↔ q[i]? = some y := by
    intro y
    have hold : ¬ N (q.take i ++ [y]) = true := by
      intro hmem
      have hnode := hN _ _ hmem
      rw [h.fresh i hi hlen] at hnode
      cases hnode
    rw [h.mem, or_iff_right hold]
    constructor
    · rintro ⟨rest, hrest⟩
      have hget := congrArg (fun l => l[i]?) hrest
      have hleni : (q.take i).length = i := by rw [List.length_take, Nat.min_eq_left hlen]
      simpa [List.getElem?_append, hleni] using hget.symm
    · intro hget
      obtain ⟨hlt, rfl⟩ := List.getElem?_eq_some_iff.1 hget
      rw [List.take_append_getElem hlt]
      exact List.take_prefix _ _
  rw [next_eq_some_iff, hchild]
  refine and_congr_right fun hget => or_congr_right ?_
  refine and_congr_right fun hk => and_iff_left ?_
  rintro ⟨hne, hx⟩
  rw [hchild, hget, hk] at hx
  exact hne (Option.some.inj hx).symm

/-- A walk in the new part goes along `q` as long as the word matches.  The induction is on
the word. -/
theorem walk_new (hN : PrefixClosed N) {i : Nat} (hi : m < i) (hlen : i ≤ q.length)
    (xs : List K) :
    walk N' marker ok (q.take i) xs =
      if Matches marker ok ((q.drop i).take xs.length) xs then some (q.take (i + xs.length))
      else none := by
  induction xs generalizing i with
  | nil =>
    have hnil : Matches marker ok ((q.drop i).take ([] : List K).length) [] :=
      List.Forall₂.nil
    rw [if_pos hnil, walk, List.length_nil, Nat.add_zero]
  | cons x xs ih =>
    have hstep : ∀ k, next N' marker ok (q.take i) x = some k ↔ _ :=
      fun k => h.next_new hN hi hlen k x
    rw [walk]
    cases hnext : next N' marker ok (q.take i) x with
    | some k =>
      obtain ⟨hget, hkx⟩ := (hstep k).1 hnext
      obtain ⟨hlt, rfl⟩ := List.getElem?_eq_some_iff.1 hget
      have hdrop : (q.drop i).take (x :: xs).length =
          q[i] :: (q.drop (i + 1)).take xs.length := by
        rw [← List.getElem_cons_drop hlt]
        rfl
      have hmatch : Matches marker ok (q[i] :: (q.drop (i + 1)).take xs.length) (x :: xs) ↔
          Matches marker ok ((q.drop (i + 1)).take xs.length) xs := by
        rw [Matches, List.forall₂_cons, and_iff_right hkx]
        rfl
      have hlength : i + 1 + xs.length = i + (x :: xs).length := by
        rw [List.length_cons]
        omega
      simp only [List.take_append_getElem hlt, ih (Nat.lt_succ_of_lt hi) hlt, hdrop, hmatch,
        hlength]
    | none =>
      refine (if_neg fun hmatch => ?_).symm
      cases hrest : q.drop i with
      | nil =>
        rw [hrest] at hmatch
        cases hmatch
      | cons k rest =>
        rw [hrest] at hmatch
        cases hmatch with
        | cons hkx _ =>
          have hget : q[i]? = some k := by
            rw [← List.head?_drop, hrest, List.head?_cons]
          rw [(hstep k).2 ⟨hget, hkx⟩] at hnext
          cases hnext

/-- The step into the new part. -/
theorem next_shared (hN : PrefixClosed N) {k x : K} (hget : q[m]? = some k)
    (hchosen : Chosen N marker ok (q.take m) k x) :
    next N' marker ok (q.take m) x = some k := by
  obtain ⟨hlt, rfl⟩ := List.getElem?_eq_some_iff.1 hget
  have hmem : N' (q.take m ++ [q[m]]) = true := by
    rw [h.mem, List.take_append_getElem hlt]
    exact Or.inr (List.take_prefix _ _)
  refine next_eq_some_iff.2 ⟨hmem, hchosen.imp id ?_⟩
  rintro ⟨hk, hok, hno⟩
  refine ⟨hk, hok, fun hx => hno ⟨hx.1, ?_⟩⟩
  refine (h.mem_child_iff hN h.shared fun _ hget' => hx.1 ?_).1 hx.2
  rw [hget, hk] at hget'
  exact (Option.some.inj hget').symm

/-- A walk that enters the new part goes along `q`. -/
theorem walk_of_enters (hN : PrefixClosed N) {xs : List K} (henters : Enters N marker ok q m xs) :
    walk N' marker ok [] xs =
      if Matches marker ok (q.take xs.length) xs then some (q.take xs.length) else none := by
  obtain ⟨k, hget, x, hx, hwalk, hchosen⟩ := henters
  have hstep := h.next_shared hN hget hchosen
  have hfirst : walk N' marker ok [] (xs.take m) = some (q.take m) := by
    rw [h.walk_eq hN, hwalk]
    rintro ⟨k', -, x', hx', -⟩
    rw [List.getElem?_eq_none (List.length_take_le m xs)] at hx'
    cases hx'
  have hshared : Matches marker ok (q.take m) (xs.take m) :=
    matches_of_walk (s := []) hfirst
  obtain ⟨hltq, rfl⟩ := List.getElem?_eq_some_iff.1 hget
  obtain ⟨hltx, rfl⟩ := List.getElem?_eq_some_iff.1 hx
  have hsplit : xs = xs.take m ++ xs[m] :: xs.drop (m + 1) := by
    rw [List.getElem_cons_drop, List.take_append_drop]
  have hlength : m + 1 + (xs.drop (m + 1)).length = xs.length := by
    rw [List.length_drop]
    omega
  have hmatch : Matches marker ok (q.take xs.length) xs ↔
      Matches marker ok ((q.drop (m + 1)).take (xs.drop (m + 1)).length)
        (xs.drop (m + 1)) := by
    have htail : (q.drop (m + 1)).take (xs.drop (m + 1)).length =
        (q.take xs.length).drop (m + 1) := by
      rw [List.drop_take, List.length_drop]
    constructor
    · intro hall
      rw [htail]
      exact List.forall₂_drop (m + 1) hall
    · intro hrest
      have hqsplit : q.take xs.length = q.take m ++ q[m] ::
          (q.drop (m + 1)).take (xs.drop (m + 1)).length := by
        rw [← hlength, Nat.add_assoc, List.take_add, ← List.getElem_cons_drop hltq,
          Nat.add_comm 1, List.take_succ_cons]
      rw [hqsplit]
      conv_rhs => rw [hsplit]
      exact List.rel_append hshared
        (List.Forall₂.cons (hchosen.imp id fun hparam => ⟨hparam.1, hparam.2.1⟩) hrest)
  conv_lhs => rw [hsplit]
  rw [walk_append, hfirst, Option.bind_some, walk, hstep]
  simp only [List.take_append_getElem hltq, h.walk_new hN (Nat.lt_succ_self m) hltq, hlength,
    hmatch]

end Inserts

end GreedyWalk
