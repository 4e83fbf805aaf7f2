import Mathlib.Data.List.Nodup

/-!
# Finite maps as lookup functions

A map is modelled by its lookup function.  `insert` overwrites, `emplace`
keeps what is there: the two insertion rules of an unordered associative
container.  Iteration order and capacity are absent, so two maps with the
same lookups are the same value.

What a caller needs is the content after a whole run of one of the two
operations.  `foldl_insert_apply` says that the last writer wins, and
`foldl_emplace_apply` says that the first one does.
-/

/-- The observable content of a map: the value stored under each key. -/
abbrev PartialMap (K V : Type) := K → Option V

namespace PartialMap

variable {K V : Type} [DecidableEq K]

/-- The map with no entry. -/
def empty : PartialMap K V := fun _ => none

/-- Store `value` under `key`, whatever was there. -/
def insert (m : PartialMap K V) (key : K) (value : V) : PartialMap K V :=
  fun key' => if key' = key then some value else m key'

/-- Store `value` under `key` unless the key already has an entry. -/
def emplace (m : PartialMap K V) (key : K) (value : V) : PartialMap K V :=
  if (m key).isSome then m else m.insert key value

omit [DecidableEq K] in
@[simp] theorem empty_apply (key : K) : (empty : PartialMap K V) key = none := rfl

@[simp] theorem insert_self (m : PartialMap K V) (key : K) (value : V) :
    m.insert key value key = some value := by
  simp [insert]

theorem insert_of_ne (m : PartialMap K V) {key key' : K} (value : V)
    (h : key' ≠ key) : m.insert key value key' = m key' := by
  simp [insert, h]

/-- Inserts under different keys commute. -/
theorem insert_comm (m : PartialMap K V) {k k' : K} (v v' : V) (h : k ≠ k') :
    (m.insert k v).insert k' v' = (m.insert k' v').insert k v := by
  funext key
  by_cases hk : key = k
  · have hk' : key ≠ k' := hk ▸ h
    rw [insert_of_ne _ _ hk', hk, insert_self, insert_self]
  · rw [insert_of_ne (m.insert k' v') v hk]
    by_cases hk' : key = k'
    · rw [hk', insert_self, insert_self]
    · rw [insert_of_ne _ _ hk', insert_of_ne _ _ hk', insert_of_ne _ _ hk]

/-- An emplace only ever fills a gap. -/
theorem emplace_apply (m : PartialMap K V) (key key' : K) (value : V) :
    m.emplace key value key' =
      (m key').or (if key' = key then some value else none) := by
  unfold emplace
  split
  · rename_i hsome
    obtain ⟨old, hold⟩ := Option.isSome_iff_exists.1 hsome
    by_cases hk : key' = key
    · simp [hk, hold]
    · simp [hk]
  · rename_i hnone
    rw [Bool.not_eq_true, Option.isSome_eq_false_iff, Option.isNone_iff_eq_none] at hnone
    by_cases hk : key' = key
    · simp [hk, hnone]
    · simp [insert, hk]

/-- After a run of inserts each key holds the value written last. -/
theorem foldl_insert_apply (es : List (K × V)) (m : PartialMap K V) (key : K) :
    es.foldl (fun acc e => acc.insert e.1 e.2) m key =
      ((es.findRev? (fun e => e.1 = key)).map Prod.snd).or (m key) := by
  induction es generalizing m with
  | nil => rfl
  | cons e es ih =>
    rw [List.foldl_cons, ih, List.findRev?]
    cases hfind : es.findRev? (fun e => e.1 = key) with
    | some later => simp
    | none =>
      by_cases hk : e.1 = key
      · simp [hk]
      · simp [hk, insert_of_ne m e.2 (Ne.symm hk)]

/-- Entries with different keys may be inserted in any order. -/
theorem foldl_insert_perm {es es' : List (K × V)} (hperm : es.Perm es')
    (hkeys : (es.map Prod.fst).Nodup) (m : PartialMap K V) :
    es.foldl (fun acc e => acc.insert e.1 e.2) m =
      es'.foldl (fun acc e => acc.insert e.1 e.2) m := by
  refine hperm.foldl_eq' (fun e he e' he' acc => ?_) m
  by_cases hk : e.1 = e'.1
  · rw [List.inj_on_of_nodup_map hkeys he he' hk]
  · exact insert_comm acc e.2 e'.2 hk

/-- After a run of emplaces each key holds the value written first. -/
theorem foldl_emplace_apply (es : List (K × V)) (m : PartialMap K V) (key : K) :
    es.foldl (fun acc e => acc.emplace e.1 e.2) m key =
      (m key).or ((es.find? (fun e => e.1 = key)).map Prod.snd) := by
  induction es generalizing m with
  | nil => simp
  | cons e es ih =>
    rw [List.foldl_cons, ih, emplace_apply, Option.or_assoc]
    by_cases hk : e.1 = key
    · simp [hk]
    · simp [hk, Ne.symm hk]

/-! ## Enumerations -/

/-- The map with the given entries. -/
def ofList (es : List (K × V)) : PartialMap K V :=
  es.foldl (fun m e => m.insert e.1 e.2) empty

/-- Of a list without repeated keys the map has exactly the entries. -/
theorem ofList_eq_some_iff {es : List (K × V)} (hkeys : (es.map Prod.fst).Nodup) (k : K)
    (v : V) : ofList es k = some v ↔ (k, v) ∈ es := by
  rw [ofList, foldl_insert_apply, empty_apply, Option.or_none, Option.map_eq_some_iff]
  constructor
  · rintro ⟨e, hfind, rfl⟩
    rw [List.findRev?_eq_find?_reverse] at hfind
    obtain rfl : e.1 = k := by simpa using List.find?_some hfind
    exact List.mem_reverse.1 (List.mem_of_find?_eq_some hfind)
  · intro hmem
    rw [List.findRev?_eq_find?_reverse]
    have hsome : (es.reverse.find? fun e => e.1 = k).isSome :=
      List.find?_isSome.2 ⟨(k, v), List.mem_reverse.2 hmem, by simp⟩
    obtain ⟨e, hfind⟩ := Option.isSome_iff_exists.1 hsome
    have hk : e.1 = k := by simpa using List.find?_some hfind
    have hemem := List.mem_reverse.1 (List.mem_of_find?_eq_some hfind)
    exact ⟨e, hfind, congrArg Prod.snd (List.inj_on_of_nodup_map hkeys hemem hmem hk)⟩

/-- Lists without repeated keys that give one map have the same entries. -/
theorem perm_of_ofList_eq {es es' : List (K × V)} (hkeys : (es.map Prod.fst).Nodup)
    (hkeys' : (es'.map Prod.fst).Nodup) (h : ofList es = ofList es') : es.Perm es' := by
  rw [List.perm_ext_iff_of_nodup hkeys.of_map hkeys'.of_map]
  rintro ⟨k, v⟩
  rw [← ofList_eq_some_iff hkeys, ← ofList_eq_some_iff hkeys', h]

/-- A way to list the entries of a map. -/
structure Enumeration (K V : Type) [DecidableEq K] where
  entries : PartialMap K V → List (K × V)
  perm : ∀ es : List (K × V), (es.map Prod.fst).Nodup → (entries (ofList es)).Perm es

open Classical in
instance : Nonempty (Enumeration K V) := by
  refine ⟨⟨fun m => if h : ∃ es : List (K × V), (es.map Prod.fst).Nodup ∧ ofList es = m
    then h.choose else [], fun es hkeys => ?_⟩⟩
  have h : ∃ es' : List (K × V), (es'.map Prod.fst).Nodup ∧ ofList es' = ofList es :=
    ⟨es, hkeys, rfl⟩
  rw [dif_pos h]
  exact perm_of_ofList_eq h.choose_spec.1 hkeys h.choose_spec.2

end PartialMap
