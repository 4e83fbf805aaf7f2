import Mathlib.Data.List.Infix
import Mathlib.Data.List.Basic
import Piconaut.Lib.PrefixTrie

/-!
# Outlines of tries

An outline lists the nodes of a trie below its root, each one after its parent and before
the nodes that are not below it.  A line of it has the depth of a node in place of the keys
above it.

`read` recovers the keys above from the line before: they are its first keys, as many as
the depth says.  `read_map_line` says that this is right for every list of entries that is
`Ordered`, and `ordered_listing` that the outline of a trie is.  `mem_listing_iff_data?`:
the entries are the nodes.
-/

namespace Outline

variable {K D α : Type}

/-- A node: the keys that lead to its parent, its own key, and a note. -/
structure Entry (K D : Type) where
  above : List K
  key : K
  note : D

/-- A line: the depth in place of the keys above. -/
structure Line (K D : Type) where
  depth : Nat
  key : K
  note : D

namespace Entry

/-- The keys that lead to the node. -/
def path (e : Entry K D) : List K := e.above ++ [e.key]

/-- The line of the entry. -/
def line (e : Entry K D) : Line K D := ⟨e.above.length, e.key, e.note⟩

end Entry

/-! ## Reading -/

/-- Every entry lies directly below a node on the path of the entry before it. -/
def Ordered : List K → List (Entry K D) → Prop
  | _, [] => True
  | current, e :: es => e.above <+: current ∧ Ordered e.path es

/-- The entries of the lines, below the path of the line before them. -/
def read : List K → List (Line K D) → List (Entry K D)
  | _, [] => []
  | current, l :: ls =>
    let e : Entry K D := ⟨current.take l.depth, l.key, l.note⟩
    e :: read e.path ls

theorem read_map_line {current : List K} {es : List (Entry K D)} (h : Ordered current es) :
    read current (es.map Entry.line) = es := by
  induction es generalizing current with
  | nil => rfl
  | cons e es ih =>
    have htake : current.take e.above.length = e.above := (List.prefix_iff_eq_take.1 h.1).symm
    rw [List.map_cons, read]
    simp only [Entry.line, htake]
    exact congrArg _ (ih h.2)

/-- The path of the last entry. -/
def lastPath (current : List K) (es : List (Entry K D)) : List K :=
  es.foldl (fun _ e => e.path) current

theorem ordered_append {current : List K} {es es' : List (Entry K D)} (h : Ordered current es)
    (h' : Ordered (lastPath current es) es') : Ordered current (es ++ es') := by
  induction es generalizing current with
  | nil => exact h'
  | cons e es ih => exact ⟨h.1, ih h.2 h'⟩

theorem lastPath_append (current : List K) (es es' : List (Entry K D)) :
    lastPath current (es ++ es') = lastPath (lastPath current es) es' :=
  List.foldl_append

/-! ## The outline of a trie -/

section Listing

variable (order : List K → List K) (note : α → D)

mutual

/-- The nodes below the node at `loc`, with the children of each in the given order. -/
def listing : PrefixTrie K α → List K → List (Entry K D)
  | .node _ children, loc => (order loc).flatMap fun k => childListing (children k) loc k

/-- The child under a key, if there is one, and the nodes below it. -/
def childListing : Option (PrefixTrie K α) → List K → K → List (Entry K D)
  | none, _, _ => []
  | some child, loc, k => ⟨loc, k, note child.data⟩ :: listing child (loc ++ [k])

end

variable {order note}

mutual

/-- The outline below a node starts and ends below it.  The recursion is on the trie, with
an option of a trie for the child under a key. -/
theorem ordered_listing (t : PrefixTrie K α) {loc current : List K} (h : loc <+: current) :
    Ordered current (listing order note t loc) ∧
      loc <+: lastPath current (listing order note t loc) := by
  match t with
  | .node d children =>
    rw [listing]
    induction order loc generalizing current with
    | nil => exact ⟨trivial, h⟩
    | cons k ks ih =>
      obtain ⟨hchild, hlast⟩ := ordered_childListing (children k) k h
      obtain ⟨hrest, hend⟩ := ih hlast
      rw [List.flatMap_cons, lastPath_append]
      exact ⟨ordered_append hchild hrest, hend⟩

theorem ordered_childListing (o : Option (PrefixTrie K α)) (k : K) {loc current : List K}
    (h : loc <+: current) :
    Ordered current (childListing order note o loc k) ∧
      loc <+: lastPath current (childListing order note o loc k) := by
  match o with
  | none =>
    rw [childListing]
    exact ⟨trivial, h⟩
  | some child =>
    obtain ⟨hrest, hlast⟩ := ordered_listing child (List.prefix_refl (loc ++ [k]))
    rw [childListing]
    exact ⟨⟨h, hrest⟩, (List.prefix_append _ _).trans hlast⟩

end

mutual

/-- An entry is a node. -/
theorem data?_of_mem_listing (t : PrefixTrie K α) {loc : List K} {e : Entry K D}
    (h : e ∈ listing order note t loc) :
    ∃ s, s ≠ [] ∧ e.path = loc ++ s ∧ (t.data? s).map note = some e.note := by
  match t with
  | .node d children =>
    rw [listing, List.mem_flatMap] at h
    obtain ⟨k, -, hk⟩ := h
    obtain ⟨s, hpath, hdata⟩ := data?_of_mem_childListing (children k) hk
    exact ⟨k :: s, List.cons_ne_nil _ _, hpath, by rw [PrefixTrie.data?_cons]; exact hdata⟩

theorem data?_of_mem_childListing (o : Option (PrefixTrie K α)) {k : K} {loc : List K}
    {e : Entry K D} (h : e ∈ childListing order note o loc k) :
    ∃ s, e.path = loc ++ k :: s ∧ (o.bind fun c => c.data? s).map note = some e.note := by
  match o with
  | none => simp [childListing] at h
  | some child =>
    rw [childListing, List.mem_cons] at h
    rcases h with rfl | h
    · exact ⟨[], rfl, by simp⟩
    · obtain ⟨s, -, hpath, hdata⟩ := data?_of_mem_listing child h
      exact ⟨s, by simpa using hpath, hdata⟩

end

/-- The order has every child of every node below `loc`. -/
def Exhaustive (order : List K → List K) (t : PrefixTrie K α) (loc : List K) : Prop :=
  ∀ s sub k, t.sub? s = some sub → (sub.children k).isSome → k ∈ order (loc ++ s)

theorem Exhaustive.child {t child : PrefixTrie K α} {loc : List K} {k : K}
    (h : Exhaustive order t loc) (hchild : t.children k = some child) :
    Exhaustive order child (loc ++ [k]) := by
  intro s sub k' hsub hk'
  have hmem := h (k :: s) sub k' (by rw [PrefixTrie.sub?_cons, hchild]; exact hsub) hk'
  simpa using hmem

/-- A node has an entry.  The induction is on the way to it. -/
theorem exists_mem_listing {t : PrefixTrie K α} {loc s : List K} {n : D}
    (h : Exhaustive order t loc) (hs : s ≠ []) (hdata : (t.data? s).map note = some n) :
    ∃ e ∈ listing order note t loc, e.path = loc ++ s ∧ e.note = n := by
  induction s generalizing t loc with
  | nil => exact absurd rfl hs
  | cons k s ih =>
    obtain ⟨d, children⟩ := t
    rw [PrefixTrie.data?_cons, PrefixTrie.children_node] at hdata
    cases hchild : children k with
    | none => simp [hchild] at hdata
    | some child =>
      have hk : k ∈ order loc := by
        have hmem := h [] _ k rfl (by rw [PrefixTrie.children_node, hchild]; rfl)
        simpa using hmem
      have hmem : ∀ e ∈ childListing order note (children k) loc k,
          e ∈ listing order note (.node d children) loc := by
        intro e he
        rw [listing]
        exact List.mem_flatMap.2 ⟨k, hk, he⟩
      rw [hchild] at hmem hdata
      rw [childListing] at hmem
      by_cases hnil : s = []
      · subst hnil
        refine ⟨_, hmem _ List.mem_cons_self, rfl, ?_⟩
        simpa using hdata
      · obtain ⟨e, he, hpath, hnote⟩ := ih (h.child hchild) hnil hdata
        exact ⟨e, hmem e (List.mem_cons_of_mem _ he), by simpa using hpath, hnote⟩

/-- The entries of an outline are the nodes below the root. -/
theorem mem_listing_iff_data? {t : PrefixTrie K α} (h : Exhaustive order t []) (s : List K)
    (n : D) :
    (∃ e ∈ listing order note t [], e.path = s ∧ e.note = n) ↔
      s ≠ [] ∧ (t.data? s).map note = some n := by
  constructor
  · rintro ⟨e, he, rfl, rfl⟩
    obtain ⟨s, hs, hpath, hdata⟩ := data?_of_mem_listing t he
    rw [hpath, List.nil_append]
    exact ⟨hs, hdata⟩
  · rintro ⟨hs, hdata⟩
    exact exists_mem_listing h hs hdata

end Listing

end Outline
