import Piconaut.Formats.Json.BuilderStatements
import Piconaut.Lib.MemberNames

/-!
# Programs that only add members

A handler that answers with a document writes each member once: members of the root, and
members of an object that it has just created.  Such a program builds the member list
that it spells, with every key and string read as a C string.  `exec_rootAppends` and
`exec_memberAppends` are the two kinds of block that it consists of.
-/

namespace Piconaut.Formats.Json

open Piconaut.CppStd Piconaut.Rapidjson ValueBuilder

/-- Keys with the actions under them. -/
abbrev Block := List (Str × Action)

/-- `json[k] = x` for each key. -/
def rootAppends (block : Block) : List Statement := block.map fun e => ⟨[], e.1, e.2⟩

/-- `json[parent][k] = x` for each key. -/
def memberAppends (parent : Str) (block : Block) : List Statement :=
  block.map fun e => ⟨[parent], e.1, e.2⟩

/-- The members that a block adds. -/
def members (block : Block) : List (Str × Rapidjson.Value) :=
  block.map fun e => (cStr e.1, e.2.stored)

variable {b : ValueBuilder} {ms : List (Str × Rapidjson.Value)}

/-- A statement that adds a member to the root. -/
theorem AtRest.exec_append (h : AtRest b) (hdoc : b.document = .object ms) (k : Str) (a : Action)
    (hk : cStr k ∉ ms.map Prod.fst) :
    ∃ b', Statement.exec b ⟨[], k, a⟩ = .ok b' ∧ AtRest b' ∧
      b'.document = .object (ms ++ [(cStr k, a.stored)]) := by
  obtain ⟨b', hexec, -, -, hdoc'⟩ := exec_spec h.inv h.nodes ⟨[], k, a⟩ rfl h.root
  refine ⟨b', hexec, h.exec hexec, ?_⟩
  have hnone := MemberList.lookup_eq_none_of_not_mem hk
  rw [hdoc', hdoc]
  simp only [locOf, List.map_nil, JsonTree.update_nil, refLeaf, JsonTree.child?_object, hnone]
  rfl

/-- A statement that adds a member to the object that is the last member. -/
theorem AtRest.exec_append_member (h : AtRest b) {parent : Str}
    {inner : List (Str × Rapidjson.Value)}
    (hdoc : b.document = .object (ms ++ [(cStr parent, .object inner)])) (k : Str) (a : Action)
    (hparent : cStr parent ∉ ms.map Prod.fst) (hk : cStr k ∉ inner.map Prod.fst) :
    ∃ b', Statement.exec b ⟨[parent], k, a⟩ = .ok b' ∧ AtRest b' ∧
      b'.document = .object (ms ++ [(cStr parent, .object (inner ++ [(cStr k, a.stored)]))]) := by
  have hms := MemberList.lookup_eq_none_of_not_mem hparent
  have hinner := MemberList.lookup_eq_none_of_not_mem hk
  have hchild : b.document.get? (locOf [parent]) = some (.object inner) := by
    rw [hdoc]
    simp [JsonTree.get?_singleton, MemberList.lookup_concat, hms]
  obtain ⟨b', hexec, -, -, hdoc'⟩ :=
    exec_spec h.inv h.nodes ⟨[parent], k, a⟩ hchild ⟨inner, rfl⟩
  refine ⟨b', hexec, h.exec hexec, ?_⟩
  rw [hdoc', hdoc]
  show JsonTree.mapMember (cStr parent) _ _ = _
  rw [JsonTree.mapMember, MemberList.modify_concat_self _ _ hms]
  simp only [List.map_nil, JsonTree.update_nil, refLeaf, JsonTree.child?_object, hinner]
  rfl

/-- A block of members for the root.  The induction is on the block. -/
theorem exec_rootAppends (h : AtRest b) (hdoc : b.document = .object ms) (block : Block)
    (hnodup : (ms.map Prod.fst ++ (members block).map Prod.fst).Nodup) :
    ∃ b', exec b (rootAppends block) = .ok b' ∧ AtRest b' ∧
      b'.document = .object (ms ++ members block) := by
  induction block generalizing b ms with
  | nil => exact ⟨b, rfl, h, by simpa [members] using hdoc⟩
  | cons e block ih =>
    have hk : cStr e.1 ∉ ms.map Prod.fst := by
      intro hmem
      exact (List.nodup_append.1 hnodup).2.2 _ hmem _ List.mem_cons_self rfl
    obtain ⟨b₁, hexec, hrest, hdoc₁⟩ := h.exec_append hdoc e.1 e.2 hk
    obtain ⟨b', hexec', hrest', hdoc'⟩ := ih hrest hdoc₁ (by simpa [members] using hnodup)
    refine ⟨b', ?_, hrest', by simpa [members] using hdoc'⟩
    rw [exec, rootAppends, List.map_cons, List.foldlM_cons, hexec]
    exact hexec'

/-- A block of members for the object that is the last member. -/
theorem exec_memberAppends (h : AtRest b) {parent : Str} {inner : List (Str × Rapidjson.Value)}
    (hdoc : b.document = .object (ms ++ [(cStr parent, .object inner)]))
    (hparent : cStr parent ∉ ms.map Prod.fst) (block : Block)
    (hnodup : (inner.map Prod.fst ++ (members block).map Prod.fst).Nodup) :
    ∃ b', exec b (memberAppends parent block) = .ok b' ∧ AtRest b' ∧
      b'.document = .object (ms ++ [(cStr parent, .object (inner ++ members block))]) := by
  induction block generalizing b inner with
  | nil => exact ⟨b, rfl, h, by simpa [members] using hdoc⟩
  | cons e block ih =>
    have hk : cStr e.1 ∉ inner.map Prod.fst := by
      intro hmem
      exact (List.nodup_append.1 hnodup).2.2 _ hmem _ List.mem_cons_self rfl
    obtain ⟨b₁, hexec, hrest, hdoc₁⟩ := h.exec_append_member hdoc e.1 e.2 hparent hk
    obtain ⟨b', hexec', hrest', hdoc'⟩ := ih hrest hdoc₁ (by simpa [members] using hnodup)
    refine ⟨b', ?_, hrest', by simpa [members] using hdoc'⟩
    rw [exec, memberAppends, List.map_cons, List.foldlM_cons, hexec]
    exact hexec'

/-- Two programs one after the other. -/
theorem exec_append {prog prog' : List Statement} {b' : ValueBuilder}
    (h : exec b prog = .ok b') : exec b (prog ++ prog') = exec b' prog' := by
  rw [exec, List.foldlM_append]
  rw [exec] at h
  rw [h]
  rfl

end Piconaut.Formats.Json
