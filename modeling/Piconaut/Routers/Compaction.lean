import Piconaut.Routers.RouterTrie

/-!
# Overwritten registrations leave no trace

The router after a sequence of `AddRoute` calls depends on few of them.  A node has its
type and its parameter from the last call through it, and its key and its handler from the
last call that ends there (`fieldsAt_runCalls`).  Both are calls that no later accepted
call of the same normalized pattern follows.  `compact` keeps only these, and
`runCalls_compact` says that the router they build is the same one.
-/

namespace Piconaut.Routers

open Piconaut.CppStd Piconaut.Utils

variable {Fn : Type}

/-- The accepted calls that no later accepted call for the same normalized pattern
follows. -/
def compact (calls : List (AddRouteCall Fn)) : List (AddRouteCall Fn) :=
  (calls.filter AddRouteCall.accepted).pwFilter fun c c' => c.norm ≠ c'.norm

/-! ## The calls that write a node -/

/-- The fields of the node at `s`, from the last call through it and the last call that
ends there. -/
def writtenFields (s : Loc) (through endpoint : Option (AddRouteCall Fn)) : NodeFields Fn :=
  let d : NodeFields Fn := match through with
    | none => {}
    | some c => passThrough (c.segments.getD (s.length - 1) []) {}
  match endpoint with
  | none => d
  | some c => { d with key := c.key, handler := c.handler }

/-- Key and handler pass through. -/
theorem passThrough_endpoint (part : Str) (d : NodeFields Fn) (key : SizeT)
    (handler : Option Fn) :
    passThrough part { d with key := key, handler := handler } =
      { passThrough part d with key := key, handler := handler } := by
  unfold passThrough
  split <;> rfl

/-- A part with the same key overwrites what an earlier one wrote. -/
theorem passThrough_passThrough {part part' : Str}
    (h : normalizePart part = normalizePart part') (d : NodeFields Fn) :
    passThrough part (passThrough part' d) = passThrough part d := by
  unfold passThrough
  rw [h]
  split <;> rfl

/-- One more call through a node, and perhaps to it. -/
theorem passThrough_writtenFields {s : Loc} {k : Str} {c : AddRouteCall Fn}
    {through endpoint : Option (AddRouteCall Fn)} (hc : s ++ [k] <+: c.norm)
    (hthrough : ∀ c' ∈ through, s ++ [k] <+: c'.norm) :
    passThrough (c.segments.getD s.length []) (writtenFields (s ++ [k]) through endpoint) =
      writtenFields (s ++ [k]) (some c) endpoint := by
  have hlen : (s ++ [k]).length - 1 = s.length := by simp
  have hlast : passThrough (c.segments.getD s.length [])
      (writtenFields (s ++ [k]) through none) = writtenFields (s ++ [k]) (some c) none := by
    cases through with
    | none => simp [writtenFields]
    | some c' =>
      have hpart := normalizePart_of_prefix hc
      have hpart' := normalizePart_of_prefix (hthrough c' rfl)
      simp only [writtenFields, hlen]
      exact passThrough_passThrough (hpart.trans hpart'.symm) _
  cases endpoint with
  | none => exact hlast
  | some e =>
    show passThrough _ { writtenFields (s ++ [k]) through none with
      key := e.key, handler := e.handler } = _
    rw [passThrough_endpoint, hlast]
    rfl

/-- The root is never written. -/
theorem fieldsAt_runCalls_nil (calls : List (AddRouteCall Fn)) :
    fieldsAt (runCalls calls).root [] = {} := by
  induction calls using List.reverseRecOn with
  | nil => rfl
  | append_singleton calls c ih =>
    rw [runCalls_concat]
    cases hacc : c.accepted with
    | false => rw [afterCall_of_not_accepted _ hacc, ih]
    | true => rw [fieldsAt_afterCall _ c hacc, if_neg (by simp), ih]

/-- A node below the root has what the last call through it and the last call that ends
there have written. -/
theorem fieldsAt_runCalls (calls : List (AddRouteCall Fn)) (s : Loc) (k : Str) :
    fieldsAt (runCalls calls).root (s ++ [k]) =
      writtenFields (s ++ [k]) (lastAccepted calls fun c => s ++ [k] <+: c.norm)
        (lastAccepted calls fun c => c.norm = s ++ [k]) := by
  induction calls using List.reverseRecOn with
  | nil => cases s <;> rfl
  | append_singleton calls c ih =>
    rw [runCalls_concat]
    cases hacc : c.accepted with
    | false => rw [afterCall_of_not_accepted _ hacc, ih, lastAccepted_concat,
        lastAccepted_concat, hacc]; rfl
    | true =>
      have hlen : (s ++ [k]).length - 1 = s.length := by simp
      have hthrough : ∀ c' ∈ lastAccepted calls (fun c => s ++ [k] <+: c.norm),
          s ++ [k] <+: c'.norm := fun c' hc' => by
        simpa using (lastAccepted_eq_some hc').2.2
      rw [fieldsAt_afterCall _ c hacc, ih, lastAccepted_concat, lastAccepted_concat, hacc,
        hlen]
      simp only [Bool.true_and, decide_eq_true_eq]
      by_cases hp : s ++ [k] <+: c.norm
      · rw [if_pos ⟨by simp, hp⟩, if_pos hp, passThrough_writtenFields hp hthrough]
        by_cases hs : s ++ [k] = c.norm
        · rw [if_pos hs, if_pos hs.symm]
          cases lastAccepted calls fun c => c.norm = s ++ [k] <;> rfl
        · rw [if_neg hs, if_neg (Ne.symm hs)]
      · have hs : ¬ c.norm = s ++ [k] := fun h => hp (h ▸ List.prefix_rfl)
        rw [if_neg (fun h => hp h.2), if_neg hp, if_neg hs]

/-- A node is there if some accepted call went through it. -/
theorem runCalls_isSome (calls : List (AddRouteCall Fn)) (s : Loc) (k : Str) :
    ((runCalls calls).root.data? (s ++ [k])).isSome =
      (lastAccepted calls fun c => s ++ [k] <+: c.norm).isSome := by
  rw [Bool.eq_iff_iff, runCalls_nodes]
  constructor
  · rintro (hnil | ⟨c, hc, hacc, hp⟩)
    · simp at hnil
    · obtain ⟨last, hlast⟩ := lastAccepted_isSome (p := fun c => s ++ [k] <+: c.norm) hc hacc
        (by simpa using hp)
      rw [hlast]
      rfl
  · intro h
    obtain ⟨c, hc⟩ := Option.isSome_iff_exists.1 h
    obtain ⟨hmem, hacc, hp⟩ := lastAccepted_eq_some hc
    exact Or.inr ⟨c, hmem, hacc, by simpa using hp⟩

/-- The data of a node are its fields. -/
theorem data?_eq_fieldsAt {t : RouterNode Fn} {s : Loc} (h : (t.data? s).isSome) :
    t.data? s = some (fieldsAt t s) := by
  obtain ⟨d, hd⟩ := Option.isSome_iff_exists.1 h
  rw [hd, fieldsAt_of_data? hd]

/-- The router is determined by the last calls through each node and to it. -/
theorem runCalls_eq_of_lastAccepted {calls calls' : List (AddRouteCall Fn)}
    (hthrough : ∀ s, lastAccepted calls (fun c => s <+: c.norm) =
      lastAccepted calls' fun c => s <+: c.norm)
    (hendpoint : ∀ s, lastAccepted calls (fun c => c.norm = s) =
      lastAccepted calls' fun c => c.norm = s) :
    runCalls calls = runCalls calls' := by
  suffices hdata : ∀ s, (runCalls calls).root.data? s = (runCalls calls').root.data? s by
    have hroot : (runCalls calls).root = (runCalls calls').root :=
      PrefixTrie.eq_of_data? _ _ hdata
    exact congrArg Router.mk hroot
  intro s
  cases s using List.reverseRecOn with
  | nil => rw [data?_eq_fieldsAt rfl, data?_eq_fieldsAt rfl, fieldsAt_runCalls_nil,
      fieldsAt_runCalls_nil]
  | append_singleton s k =>
    have hsome := runCalls_isSome calls s k
    rw [hthrough, ← runCalls_isSome] at hsome
    cases hnode : ((runCalls calls).root.data? (s ++ [k])).isSome with
    | true =>
      rw [data?_eq_fieldsAt hnode, data?_eq_fieldsAt (hsome ▸ hnode), fieldsAt_runCalls,
        fieldsAt_runCalls, hthrough, hendpoint]
    | false =>
      rw [hnode] at hsome
      rw [Option.isSome_eq_false_iff, Option.isNone_iff_eq_none] at hnode
      rw [hnode, eq_comm, ← Option.isNone_iff_eq_none, ← Option.isSome_eq_false_iff, ← hsome]

/-! ## Compaction -/

theorem accepted_of_mem_compact {calls : List (AddRouteCall Fn)} {c : AddRouteCall Fn}
    (h : c ∈ compact calls) : c ∈ calls ∧ c.accepted = true :=
  List.mem_filter.1 ((List.pwFilter_sublist _).subset h)

/-- A property of the normalized pattern has the same last accepted call. -/
theorem lastAccepted_compact (calls : List (AddRouteCall Fn)) (p : Loc → Bool) :
    lastAccepted (compact calls) (fun c => p c.norm) = lastAccepted calls fun c => p c.norm := by
  have hall : (compact calls).findRev? (fun c => c.accepted && p c.norm) =
      (compact calls).findRev? fun c => p c.norm := by
    refine LastMatch.findRev?_congr fun c hc => ?_
    rw [(accepted_of_mem_compact hc).2, Bool.true_and]
  rw [lastAccepted, hall, compact,
    LastMatch.findRev?_pwFilter AddRouteCall.norm _ fun c c' h => by rw [h],
    LastMatch.findRev?_filter]
  rfl

/-- The router after a sequence of calls is the one that the compacted sequence builds, in
which every pattern is registered once. -/
theorem runCalls_compact (calls : List (AddRouteCall Fn)) :
    runCalls (compact calls) = runCalls calls ∧
      (compact calls).Pairwise (fun c c' => c.norm ≠ c'.norm) ∧
      ∀ c ∈ compact calls, c ∈ calls ∧ c.accepted = true := by
  refine ⟨runCalls_eq_of_lastAccepted (fun s => ?_) fun s => ?_, List.pairwise_pwFilter _,
    fun c hc => accepted_of_mem_compact hc⟩
  · exact lastAccepted_compact calls fun l => s <+: l
  · exact lastAccepted_compact calls fun l => l = s

/-- Two spellings of a pattern and a path that is rejected. -/
example :
    compact ([⟨1, ⟨str "/\x7ba\x7d", by decide⟩, some 1⟩, ⟨2, ⟨str "a", by decide⟩, some 2⟩,
      ⟨3, ⟨str "/\x7bb\x7d", by decide⟩, some 3⟩] : List (AddRouteCall Nat)) =
      [⟨3, ⟨str "/\x7bb\x7d", by decide⟩, some 3⟩] := by
  rfl

end Piconaut.Routers
