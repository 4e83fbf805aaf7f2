/-!
# Tries addressed by paths

A trie node carries data and a partial map from keys to child nodes.  A node
is addressed by the list of keys that leads to it from the root, and
`data? t s` reads the data of the node at `s`.

Every update of a trie goes through `alter`, which rewrites the subtree at one
address.  `data?_modify` and `data?_insertChild` read the two updates a caller
makes, a change of one node's data and a new leaf, as pointwise changes of
`data?`.  With these two rules a proof about a run of updates never looks at
the tree again, and `eq_of_data?` turns what it says about `data?` into an
equation between tries.
-/

/-- A trie whose edges carry keys from `K` and whose nodes carry data in `α`. -/
inductive PrefixTrie (K α : Type) where
  | node (data : α) (children : K → Option (PrefixTrie K α))

namespace PrefixTrie

variable {K α : Type}

/-- The data stored in the root node. -/
def data : PrefixTrie K α → α
  | node d _ => d

/-- The children of the root node. -/
def children : PrefixTrie K α → K → Option (PrefixTrie K α)
  | node _ ch => ch

/-- A node without children. -/
def leaf (d : α) : PrefixTrie K α := node d fun _ => none

/-- The subtree at an address. -/
def sub? : PrefixTrie K α → List K → Option (PrefixTrie K α)
  | t, [] => some t
  | t, k :: ks => (t.children k).bind fun c => c.sub? ks

/-- The data of the node at an address. -/
def data? (t : PrefixTrie K α) (s : List K) : Option α := (t.sub? s).map data

@[simp] theorem data_node (d : α) (ch : K → Option (PrefixTrie K α)) :
    (node d ch).data = d := rfl

@[simp] theorem children_node (d : α) (ch : K → Option (PrefixTrie K α)) :
    (node d ch).children = ch := rfl

@[simp] theorem data_leaf (d : α) : (leaf d : PrefixTrie K α).data = d := rfl

@[simp] theorem sub?_nil (t : PrefixTrie K α) : t.sub? [] = some t := by
  rw [sub?]

theorem sub?_cons (t : PrefixTrie K α) (k : K) (ks : List K) :
    t.sub? (k :: ks) = (t.children k).bind fun c => c.sub? ks := by
  rw [sub?]

/-- An address is followed one part after the other. -/
theorem sub?_append (t : PrefixTrie K α) (s s' : List K) :
    t.sub? (s ++ s') = (t.sub? s).bind fun c => c.sub? s' := by
  induction s generalizing t with
  | nil => simp
  | cons k ks ih =>
    rw [List.cons_append, sub?_cons, sub?_cons, Option.bind_assoc]
    congr 1
    funext c
    exact ih c

/-- The child under `k` of the node at `s` is the node at `s ++ [k]`. -/
theorem sub?_concat (t : PrefixTrie K α) (s : List K) (k : K) :
    t.sub? (s ++ [k]) = (t.sub? s).bind fun c => c.children k := by
  rw [sub?_append]
  congr 1
  funext c
  rw [sub?_cons]
  cases c.children k <;> simp

@[simp] theorem data?_nil (t : PrefixTrie K α) : t.data? [] = some t.data := by
  simp [data?]

@[simp] theorem data?_leaf_cons (d : α) (k : K) (ks : List K) :
    (leaf d : PrefixTrie K α).data? (k :: ks) = none := by
  simp [data?, leaf, sub?_cons]

theorem data?_isSome (t : PrefixTrie K α) (s : List K) :
    (t.data? s).isSome = (t.sub? s).isSome := by
  simp [data?]

theorem data?_isNone (t : PrefixTrie K α) (s : List K) :
    (t.data? s).isNone = (t.sub? s).isNone := by
  simp [data?]

/-- The nodes of a trie are closed under prefixes of their addresses. -/
theorem data?_isSome_of_append {t : PrefixTrie K α} {s s' : List K}
    (h : (t.data? (s ++ s')).isSome) : (t.data? s).isSome := by
  rw [data?_isSome, sub?_append] at h
  rw [data?_isSome]
  cases hs : t.sub? s with
  | none => simp [hs] at h
  | some c => rfl

/-- Nothing lies below an address without a node. -/
theorem data?_append_eq_none {t : PrefixTrie K α} {s : List K} (s' : List K)
    (h : t.data? s = none) : t.data? (s ++ s') = none := by
  cases happ : t.data? (s ++ s') with
  | none => rfl
  | some d =>
    have hbelow : (t.data? (s ++ s')).isSome := by rw [happ]; rfl
    have hs := data?_isSome_of_append hbelow
    rw [h] at hs
    exact absurd hs (by simp)

theorem data?_cons (t : PrefixTrie K α) (k : K) (ks : List K) :
    t.data? (k :: ks) = (t.children k).bind fun c => c.data? ks := by
  rw [data?, sub?_cons, Option.map_bind]
  rfl

/-- A trie is its data.  The recursion is on the trie, with an option of a trie for the
child under a key. -/
theorem eq_of_data? (t t' : PrefixTrie K α) (h : ∀ s, t.data? s = t'.data? s) : t = t' := by
  refine @PrefixTrie.rec K α (fun t => ∀ t', (∀ s, t.data? s = t'.data? s) → t = t')
    (fun o => ∀ o' : Option (PrefixTrie K α),
      (∀ s, (o.bind fun c => c.data? s) = o'.bind fun c => c.data? s) → o = o') ?_ ?_ ?_ t t' h
  · rintro d ch ih ⟨d', ch'⟩ hdata
    have hroot : d = d' := by simpa using hdata []
    have hchildren : ch = ch' := by
      funext k
      refine ih k (ch' k) fun s => ?_
      have hk := hdata (k :: s)
      rwa [data?_cons, data?_cons] at hk
    rw [hroot, hchildren]
  · intro o' hnone
    cases o' with
    | none => rfl
    | some c' => simpa using hnone []
  · intro c ih o' hsome
    cases o' with
    | none => simpa using hsome []
    | some c' => rw [ih c' hsome]

/-! ## Rewriting one subtree -/

variable [DecidableEq K]

/-- Rewrite the subtree at an address; without such a node nothing happens. -/
def alter (f : PrefixTrie K α → PrefixTrie K α) :
    List K → PrefixTrie K α → PrefixTrie K α
  | [], t => f t
  | k :: ks, t =>
    node t.data fun k' =>
      if k' = k then (t.children k).map (alter f ks) else t.children k'

/-- Change the data of the node at `s`. -/
def modify (t : PrefixTrie K α) (s : List K) (f : α → α) : PrefixTrie K α :=
  t.alter (fun n => node (f n.data) n.children) s

/-- Make `c` the child under `k` of the node at `s`. -/
def insertChild (t : PrefixTrie K α) (s : List K) (k : K) (c : PrefixTrie K α) :
    PrefixTrie K α :=
  t.alter (fun n => node n.data fun k' => if k' = k then some c else n.children k') s

/-- Below the rewritten address one reads the new subtree. -/
theorem sub?_alter_append (f : PrefixTrie K α → PrefixTrie K α) (l s : List K)
    (t : PrefixTrie K α) :
    (alter f l t).sub? (l ++ s) = (t.sub? l).bind fun n => (f n).sub? s := by
  induction l generalizing t with
  | nil => simp [alter]
  | cons k ks ih =>
    rw [alter, List.cons_append, sub?_cons, sub?_cons, children_node, if_pos rfl]
    cases t.children k with
    | none => rfl
    | some c => exact ih c

/-- Away from the rewritten address the data stays. -/
theorem data?_alter_of_disjoint (f : PrefixTrie K α → PrefixTrie K α)
    {l s : List K} (t : PrefixTrie K α) (h : ¬ l <+: s) :
    (alter f l t).data? s = t.data? s := by
  induction l generalizing t s with
  | nil => exact absurd List.nil_prefix h
  | cons k ks ih =>
    cases s with
    | nil => simp [alter]
    | cons k' s =>
      by_cases hk : k' = k
      · subst hk
        have hs : ¬ ks <+: s := fun hp => h (List.cons_prefix_cons.2 ⟨rfl, hp⟩)
        rw [alter, data?, data?, sub?_cons, sub?_cons, children_node, if_pos rfl]
        cases t.children k' with
        | none => rfl
        | some c => exact ih c hs
      · rw [alter, data?, data?, sub?_cons, sub?_cons, children_node, if_neg hk]

/-- A change of one node's data is a pointwise change of `data?`. -/
theorem data?_modify (t : PrefixTrie K α) (l s : List K) (f : α → α) :
    (t.modify l f).data? s = if s = l then (t.data? l).map f else t.data? s := by
  rw [modify]
  by_cases hp : l <+: s
  · obtain ⟨s', rfl⟩ := hp
    rw [data?, sub?_alter_append]
    cases s' with
    | nil =>
      rw [if_pos (List.append_nil l), data?]
      cases t.sub? l <;> simp
    | cons k ks =>
      rw [if_neg (by simp), data?, sub?_append]
      simp only [sub?_cons, children_node]
  · have hne : s ≠ l := fun he => hp (he ▸ List.prefix_rfl)
    rw [if_neg hne]
    exact data?_alter_of_disjoint _ t hp

/-- A new leaf under a key without a child is one more entry of `data?`. -/
theorem data?_insertChild_leaf (t : PrefixTrie K α) (l s : List K) (k : K) (d : α)
    (hl : (t.data? l).isSome) (hk : t.data? (l ++ [k]) = none) :
    (t.insertChild l k (leaf d)).data? s =
      if s = l ++ [k] then some d else t.data? s := by
  rw [insertChild]
  by_cases hp : l <+: s
  · obtain ⟨s', rfl⟩ := hp
    rw [data?_isSome] at hl
    obtain ⟨n, hn⟩ := Option.isSome_iff_exists.1 hl
    rw [data?, sub?_alter_append, hn, Option.bind_some]
    cases s' with
    | nil => simp [data?, hn]
    | cons k' ks =>
      by_cases hkk : k' = k
      · subst hkk
        rw [sub?_cons, children_node, if_pos rfl, Option.bind_some]
        cases ks with
        | nil => simp [leaf]
        | cons k'' ks =>
          rw [if_neg (by simp), show l ++ k' :: k'' :: ks = (l ++ [k']) ++ k'' :: ks by simp,
            data?_append_eq_none _ hk]
          simp [leaf, sub?_cons]
      · rw [if_neg (by simp [hkk]), data?, sub?_append, hn, Option.bind_some, sub?_cons,
          sub?_cons, children_node, if_neg hkk]
  · have hne : s ≠ l ++ [k] := fun he => hp (he ▸ List.prefix_append l [k])
    rw [if_neg hne]
    exact data?_alter_of_disjoint _ t hp

end PrefixTrie
