import Mathlib.Data.List.Count
import Mathlib.Data.List.Range

/-!
# Chains of stages that call the next one

A chain of responsibility.  A stage is code that changes a shared state and may
call the rest of the chain, any number of times and at any point.  A `Behaviour`
is what a stage does once it is entered: a finite tree whose branches after a call
depend on the state that the call leaves.

`chain` runs a list of stages and records what happens, each event with the
position of its stage.  The results:

* `chain_runs`: a stage that is entered runs its code, with one whole run of the rest
  of the chain at each call, events and state included.
* `count_enters_chain`: a stage is entered as often as the one before it calls.
* `chain_infix_of_enter`: a stage that is entered runs as a chain of its own.
* `chain_ordered`: stages that call at most once are entered in order, each one
  exactly if all before it have called, and what a stage does after its call
  comes after everything that later stages do.
-/

namespace CallChain

variable {σ : Type}

/-- Finite code that changes the state and calls the next stage. -/
inductive Behaviour (σ : Type) where
  | finish
  | effect (f : σ → σ) (rest : Behaviour σ)
  | callNext (rest : σ → Behaviour σ)

/-- A stage: what it does in the state in which it is entered. -/
abbrev Stage (σ : Type) := σ → Behaviour σ

/-- What happens in a run, with the position of the stage.  An effect also has the
number of calls that the stage has made before it. -/
inductive ChainEvent (σ : Type) where
  | enter (level : Nat) (s : σ)
  | effect (level calls : Nat) (s : σ)
  | callNext (level : Nat) (s : σ)

namespace ChainEvent

/-- The position of the stage. -/
def level : ChainEvent σ → Nat
  | enter i _ | effect i _ _ | callNext i _ => i

/-- What may follow an event: after its first call a stage has effects only when
all later stages are done. -/
def Before : ChainEvent σ → ChainEvent σ → Prop
  | effect i calls _, e => 0 < calls → e.level ≤ i
  | _, _ => True

theorem before_of_le {e e' : ChainEvent σ} (h : e'.level ≤ e.level) : Before e e' := by
  cases e with
  | enter i s => trivial
  | callNext i s => trivial
  | effect i calls s => exact fun _ => h

end ChainEvent

/-- The stages that are entered, in order. -/
def enters (t : List (ChainEvent σ)) : List Nat :=
  t.filterMap fun e => match e with
    | .enter i _ => some i
    | _ => none

/-- The stages that call the next one, in order. -/
def calls (t : List (ChainEvent σ)) : List Nat :=
  t.filterMap fun e => match e with
    | .callNext i _ => some i
    | _ => none

section Events

variable (i n : Nat) (s : σ) (t t' : List (ChainEvent σ))

@[simp] theorem enters_nil : enters ([] : List (ChainEvent σ)) = [] := rfl
@[simp] theorem enters_enter : enters (.enter i s :: t) = i :: enters t := rfl
@[simp] theorem enters_effect : enters (.effect i n s :: t) = enters t := rfl
@[simp] theorem enters_callNext : enters (.callNext i s :: t) = enters t := rfl
@[simp] theorem enters_append : enters (t ++ t') = enters t ++ enters t' :=
  List.filterMap_append

@[simp] theorem calls_nil : calls ([] : List (ChainEvent σ)) = [] := rfl
@[simp] theorem calls_enter : calls (.enter i s :: t) = calls t := rfl
@[simp] theorem calls_effect : calls (.effect i n s :: t) = calls t := rfl
@[simp] theorem calls_callNext : calls (.callNext i s :: t) = i :: calls t := rfl
@[simp] theorem calls_append : calls (t ++ t') = calls t ++ calls t' :=
  List.filterMap_append

end Events

/-! ## Running a chain -/

namespace Behaviour

/-- Run the code of the stage at `level`, of which `calls` calls are behind, with
`next` for the rest of the chain. -/
def run (level : Nat) (next : σ → List (ChainEvent σ) × σ) :
    Behaviour σ → Nat → σ → List (ChainEvent σ) × σ
  | finish, _, s => ([], s)
  | effect f rest, calls, s =>
    let after := run level next rest calls (f s)
    (.effect level calls (f s) :: after.1, after.2)
  | callNext rest, calls, s =>
    let called := next s
    let after := run level next (rest called.2) (calls + 1) called.2
    (.callNext level s :: (called.1 ++ after.1), after.2)

/-- On no branch the code calls the next stage more than `n` times. -/
def CallsAtMost : Behaviour σ → Nat → Prop
  | finish, _ => True
  | effect _ rest, n => rest.CallsAtMost n
  | callNext _, 0 => False
  | callNext rest, n + 1 => ∀ s, (rest s).CallsAtMost n

end Behaviour

/-- Run the stages, the first of which is at position `level`. -/
def chain : List (Stage σ) → Nat → σ → List (ChainEvent σ) × σ
  | [], _, s => ([], s)
  | stage :: stages, level, s =>
    let body := (stage s).run level (chain stages (level + 1)) 0 s
    (.enter level s :: body.1, body.2)

/-! ## Nesting -/

/-- A declarative run of the code of the stage at `level`, of which `n` calls are behind:
from the state `s` the code does `t` and leaves `s'`.  Its effects are done in order, and
at each of its calls one whole run of `next` takes place, which leaves the state that the
code goes on with. -/
inductive Runs (next : σ → List (ChainEvent σ) × σ) (level : Nat) :
    Nat → Behaviour σ → σ → List (ChainEvent σ) → σ → Prop where
  | finish (n : Nat) (s : σ) : Runs next level n .finish s [] s
  | effect {n : Nat} {f : σ → σ} {rest : Behaviour σ} {s s' : σ} {t : List (ChainEvent σ)} :
      Runs next level n rest (f s) t s' →
      Runs next level n (.effect f rest) s (.effect level n (f s) :: t) s'
  | callNext {n : Nat} {rest : σ → Behaviour σ} {s s' : σ} {t : List (ChainEvent σ)} :
      Runs next level (n + 1) (rest (next s).2) (next s).2 t s' →
      Runs next level n (.callNext rest) s (.callNext level s :: ((next s).1 ++ t)) s'

theorem Behaviour.runs_run (level : Nat) (next : σ → List (ChainEvent σ) × σ)
    (b : Behaviour σ) (n : Nat) (s : σ) :
    Runs next level n b s (b.run level next n s).1 (b.run level next n s).2 := by
  induction b generalizing n s with
  | finish => exact .finish n s
  | effect f rest ih => exact .effect (ih n (f s))
  | callNext rest ih => exact .callNext (ih _ (n + 1) _)

/-- A stage is entered and runs its code, with the rest of the chain at each call. -/
theorem chain_runs (stage : Stage σ) (stages : List (Stage σ)) (level : Nat) (s : σ) :
    ∃ body s', chain (stage :: stages) level s = (.enter level s :: body, s') ∧
      Runs (chain stages (level + 1)) level 0 (stage s) s body s' :=
  ⟨_, _, rfl, (stage s).runs_run level _ 0 s⟩

namespace Runs

variable {next : σ → List (ChainEvent σ) × σ} {level n : Nat} {b : Behaviour σ} {s s' : σ}
  {t : List (ChainEvent σ)}

/-- An event is the stage's own, or it belongs to a run of the rest. -/
theorem of_mem (h : Runs next level n b s t s') {e : ChainEvent σ} (he : e ∈ t) :
    (e.level = level ∧ ∀ i u, e ≠ .enter i u) ∨
      ∃ u, e ∈ (next u).1 ∧ (next u).1 <:+: t := by
  induction h with
  | finish n s => cases he
  | effect _ ih =>
    rcases List.mem_cons.1 he with rfl | hmem
    · exact Or.inl ⟨rfl, fun _ _ => nofun⟩
    · refine (ih hmem).imp id fun ⟨u, hu, hpart⟩ => ⟨u, hu, ?_⟩
      exact hpart.trans (List.suffix_cons _ _).isInfix
  | @callNext n rest s s' t _ ih =>
    rcases List.mem_cons.1 he with rfl | hmem
    · exact Or.inl ⟨rfl, fun _ _ => nofun⟩
    · rcases List.mem_append.1 hmem with hsub | hrest
      · exact Or.inr ⟨s, hsub, ⟨[.callNext level s], t, rfl⟩⟩
      · refine (ih hrest).imp id fun ⟨u, hu, hpart⟩ => ⟨u, hu, ?_⟩
        exact hpart.trans ⟨.callNext level s :: (next s).1, [], by simp⟩

/-- If the rest of the chain is entered once for each call, stage `i + 1` is entered
as often as stage `i` calls. -/
theorem count_enters (h : Runs next level n b s t s') {i : Nat}
    (hnext : ∀ u, (enters (next u).1).count (i + 1) =
      (if i = level then 1 else 0) + (calls (next u).1).count i) :
    (enters t).count (i + 1) = (calls t).count i := by
  induction h with
  | finish n s => rfl
  | effect _ ih => exact ih
  | @callNext n rest s s' t _ ih =>
    rw [enters_callNext, calls_callNext, enters_append, calls_append, List.count_append,
      List.count_cons, List.count_append, hnext s, ih]
    by_cases hi : i = level
    · subst hi
      simp only [if_true, beq_self_eq_true]
      omega
    · have hne : (level == i) = false := beq_false_of_ne (Ne.symm hi)
      simp only [if_neg hi, hne]
      simp

end Runs

/-- The events of a chain are those of its stages. -/
theorem level_of_mem_chain {stages : List (Stage σ)} {level : Nat} {s : σ} {e : ChainEvent σ}
    (he : e ∈ (chain stages level s).1) :
    level ≤ e.level ∧ e.level < level + stages.length := by
  induction stages generalizing level s with
  | nil => cases he
  | cons stage stages ih =>
    obtain ⟨body, after, hbody, hruns⟩ := chain_runs stage stages level s
    rw [hbody, List.mem_cons] at he
    rw [List.length_cons]
    rcases he with rfl | hmem
    · show level ≤ level ∧ level < level + (stages.length + 1)
      omega
    · rcases hruns.of_mem hmem with ⟨hown, -⟩ | ⟨s', hs', -⟩
      · omega
      · have := ih hs'
        omega

theorem mem_enters {t : List (ChainEvent σ)} {i : Nat} :
    i ∈ enters t ↔ ∃ s, .enter i s ∈ t := by
  rw [enters, List.mem_filterMap]
  constructor
  · rintro ⟨e, he, hi⟩
    cases e with
    | enter j s =>
      obtain rfl := Option.some.inj hi
      exact ⟨s, he⟩
    | effect j n s => cases hi
    | callNext j s => cases hi
  · rintro ⟨s, hs⟩
    exact ⟨_, hs, rfl⟩

theorem mem_calls {t : List (ChainEvent σ)} {i : Nat} :
    i ∈ calls t ↔ ∃ s, .callNext i s ∈ t := by
  rw [calls, List.mem_filterMap]
  constructor
  · rintro ⟨e, he, hi⟩
    cases e with
    | callNext j s =>
      obtain rfl := Option.some.inj hi
      exact ⟨s, he⟩
    | effect j n s => cases hi
    | enter j s => cases hi
  · rintro ⟨s, hs⟩
    exact ⟨_, hs, rfl⟩

theorem drop_cons_sub (stage : Stage σ) (stages : List (Stage σ)) {level i : Nat}
    (h : level < i) : (stage :: stages).drop (i - level) = stages.drop (i - (level + 1)) := by
  rw [show i - level = i - (level + 1) + 1 by omega, List.drop_succ_cons]

/-- A stage that is entered runs as a chain of its own, wherever it is entered. -/
theorem chain_infix_of_enter {stages : List (Stage σ)} {level : Nat} {s : σ} {i : Nat} {s' : σ}
    (he : .enter i s' ∈ (chain stages level s).1) :
    (chain (stages.drop (i - level)) i s').1 <:+: (chain stages level s).1 := by
  induction stages generalizing level s with
  | nil => cases he
  | cons stage stages ih =>
    obtain ⟨body, after, hbody, hruns⟩ := chain_runs stage stages level s
    rw [hbody, List.mem_cons] at he
    rcases he with hhead | hmem
    · injection hhead with hi hs
      subst hi hs
      simp only [Nat.sub_self, List.drop_zero, List.infix_rfl]
    · rcases hruns.of_mem hmem with ⟨-, hno⟩ | ⟨s'', hs'', hpart⟩
      · exact absurd rfl (hno i s')
      · have hlevel : level + 1 ≤ i := (level_of_mem_chain hs'').1
        rw [drop_cons_sub stage stages hlevel, hbody]
        exact ((ih hs'').trans hpart).trans (List.suffix_cons _ _).isInfix

/-- What happens at or behind a stage happens while that stage runs. -/
theorem exists_enter_of_mem {stages : List (Stage σ)} {level : Nat} {s : σ} {i : Nat}
    {e : ChainEvent σ} (hlow : level ≤ i) (hi : i ≤ e.level)
    (he : e ∈ (chain stages level s).1) :
    ∃ s', .enter i s' ∈ (chain stages level s).1 ∧
      e ∈ (chain (stages.drop (i - level)) i s').1 := by
  induction stages generalizing level s with
  | nil => cases he
  | cons stage stages ih =>
    rcases Nat.eq_or_lt_of_le hlow with rfl | hlt
    · refine ⟨s, List.mem_cons_self, ?_⟩
      rw [Nat.sub_self, List.drop_zero]
      exact he
    · obtain ⟨body, after, hbody, hruns⟩ := chain_runs stage stages level s
      rw [hbody, List.mem_cons] at he
      rcases he with rfl | hmem
      · exact absurd hi (Nat.not_le.2 hlt)
      · rcases hruns.of_mem hmem with ⟨hown, -⟩ | ⟨s', hs', hpart⟩
        · omega
        · obtain ⟨s'', henter, hwithin⟩ := ih hlt hs'
          refine ⟨s'', ?_, ?_⟩
          · rw [hbody]
            exact List.mem_cons_of_mem _ (hpart.subset henter)
          · rw [drop_cons_sub stage stages hlt]
            exact hwithin

/-- The first stage of a chain is entered once. -/
theorem count_enters_self (stage : Stage σ) (stages : List (Stage σ)) (level : Nat) (s : σ) :
    (enters (chain (stage :: stages) level s).1).count level = 1 := by
  obtain ⟨body, after, hbody, hruns⟩ := chain_runs stage stages level s
  have hno : level ∉ enters body := by
    intro hmem
    obtain ⟨s', hs'⟩ := mem_enters.1 hmem
    rcases hruns.of_mem hs' with ⟨-, hown⟩ | ⟨s'', hs'', -⟩
    · exact hown level s' rfl
    · have hlevel : level + 1 ≤ level := (level_of_mem_chain hs'').1
      omega
  rw [hbody, enters_enter, List.count_cons_self, List.count_eq_zero_of_not_mem hno]

/-- A stage is entered as often as the one before it calls. -/
theorem count_enters_chain (stages : List (Stage σ)) (level : Nat) (s : σ) {i : Nat}
    (hlow : level ≤ i) (hhigh : i + 1 < level + stages.length) :
    (enters (chain stages level s).1).count (i + 1) =
      (calls (chain stages level s).1).count i := by
  induction stages generalizing level s with
  | nil =>
    rw [List.length_nil] at hhigh
    omega
  | cons stage stages ih =>
    obtain ⟨body, after, hbody, hruns⟩ := chain_runs stage stages level s
    rw [List.length_cons] at hhigh
    have hne : level ≠ i + 1 := by omega
    rw [hbody, enters_enter, calls_enter, List.count_cons_of_ne hne]
    refine hruns.count_enters fun s' => ?_
    by_cases hi : i = level
    · subst hi
      obtain ⟨first, rest, rfl⟩ := List.exists_cons_of_length_pos (l := stages) (by omega)
      have hno : i ∉ calls (chain (first :: rest) (i + 1) s').1 := by
        intro hmem
        obtain ⟨s'', hs''⟩ := mem_calls.1 hmem
        have hlevel : i + 1 ≤ i := (level_of_mem_chain hs'').1
        omega
      rw [if_pos rfl, count_enters_self, List.count_eq_zero_of_not_mem hno]
    · rw [if_neg hi, Nat.zero_add]
      exact ih (level + 1) s' (by omega) (by omega)

/-! ## Stages that call at most once -/

/-- Effects of the stage at `level` behind `n` calls. -/
def OwnEffects (level n : Nat) (t : List (ChainEvent σ)) : Prop :=
  ∀ e ∈ t, ∃ s, e = .effect level n s

theorem OwnEffects.cons {level n : Nat} {t : List (ChainEvent σ)} (h : OwnEffects level n t)
    (s : σ) : OwnEffects level n (.effect level n s :: t) := by
  intro e he
  rcases List.mem_cons.1 he with rfl | hmem
  · exact ⟨s, rfl⟩
  · exact h e hmem

theorem OwnEffects.enters_eq {level n : Nat} {t : List (ChainEvent σ)}
    (h : OwnEffects level n t) : enters t = [] := by
  refine List.filterMap_eq_nil_iff.2 fun e he => ?_
  obtain ⟨s, rfl⟩ := h e he
  rfl

theorem OwnEffects.calls_eq {level n : Nat} {t : List (ChainEvent σ)}
    (h : OwnEffects level n t) : calls t = [] := by
  refine List.filterMap_eq_nil_iff.2 fun e he => ?_
  obtain ⟨s, rfl⟩ := h e he
  rfl

theorem OwnEffects.pairwise {level n : Nat} {t : List (ChainEvent σ)}
    (h : OwnEffects level n t) : t.Pairwise ChainEvent.Before := by
  refine List.pairwise_iff_forall_sublist.2 fun {e e'} hsub => ?_
  obtain ⟨s, rfl⟩ := h e (hsub.subset (by simp))
  obtain ⟨s', rfl⟩ := h e' (hsub.subset (by simp))
  exact ChainEvent.before_of_le (Nat.le_refl level)

namespace Behaviour

variable {level : Nat} {next : σ → List (ChainEvent σ) × σ}

theorem run_of_callsAtMost_zero {b : Behaviour σ} (h : b.CallsAtMost 0) (n : Nat) (s : σ) :
    OwnEffects level n (b.run level next n s).1 := by
  induction b generalizing s with
  | finish => exact fun e he => by cases he
  | effect f rest ih => exact (ih h (f s)).cons (f s)
  | callNext rest ih => exact absurd h id

/-- Code that calls at most once has effects only, or effects around one run of the
rest of the chain. -/
theorem run_of_callsAtMost_one {b : Behaviour σ} (h : b.CallsAtMost 1) (n : Nat) (s : σ) :
    OwnEffects level n (b.run level next n s).1 ∨
      ∃ before s' after, (b.run level next n s).1 =
          before ++ .callNext level s' :: ((next s').1 ++ after) ∧
        OwnEffects level n before ∧ OwnEffects level (n + 1) after := by
  induction b generalizing s with
  | finish => exact Or.inl fun e he => by cases he
  | effect f rest ih =>
    rcases ih h (f s) with hown | ⟨before, s', after, hrun, hbefore, hafter⟩
    · exact Or.inl (hown.cons (f s))
    · refine Or.inr ⟨.effect level n (f s) :: before, s', after, ?_, hbefore.cons (f s), hafter⟩
      show _ :: _ = _
      rw [hrun]
      rfl
  | callNext rest ih =>
    have hnil : OwnEffects level n ([] : List (ChainEvent σ)) := by
      intro e he
      cases he
    exact Or.inr ⟨[], s, _, rfl, hnil, run_of_callsAtMost_zero (h _) (n + 1) _⟩

end Behaviour

/-- A run in which stages `level`, ..., `level + n - 1` take turns in order. -/
structure Ordered (level n : Nat) (t : List (ChainEvent σ)) : Prop where
  /-- The stages that are entered are the first ones, each once and in order. -/
  entered : ∃ k ≤ n, enters t = List.range' level k
  /-- The first stage is entered. -/
  first : 0 < n → level ∈ enters t
  /-- A stage is entered exactly if all before it have called. -/
  next_iff : ∀ i, level ≤ i → i + 1 < level + n →
    (i + 1 ∈ enters t ↔ ∀ j, level ≤ j → j ≤ i → j ∈ calls t)
  /-- Effects behind a call come after everything that later stages do. -/
  after : t.Pairwise ChainEvent.Before

theorem Ordered.of_ownEffects {level n : Nat} {t : List (ChainEvent σ)} (s : σ)
    (h : OwnEffects level 0 t) : Ordered level (n + 1) (.enter level s :: t) where
  entered := ⟨1, by omega, by rw [enters_enter, h.enters_eq]; rfl⟩
  first _ := by simp
  next_iff i hlow _ := by
    rw [enters_enter, h.enters_eq, calls_enter, h.calls_eq, List.mem_singleton]
    constructor
    · intro hi
      omega
    · intro hcalled
      cases hcalled level (Nat.le_refl level) hlow
  after := List.pairwise_cons.2 ⟨fun _ _ => trivial, h.pairwise⟩

/-- Effects around an ordered run of the later stages make an ordered run. -/
theorem Ordered.wrap {level n : Nat} {before sub after : List (ChainEvent σ)} (s s' : σ)
    (hbefore : OwnEffects level 0 before) (hafter : OwnEffects level 1 after)
    (hsub : Ordered (level + 1) n sub) (hlevel : ∀ e ∈ sub, level + 1 ≤ e.level) :
    Ordered level (n + 1)
      (.enter level s :: (before ++ .callNext level s' :: (sub ++ after))) where
  entered := by
    obtain ⟨k, hk, henters⟩ := hsub.entered
    refine ⟨k + 1, by omega, ?_⟩
    simp only [enters_enter, enters_append, enters_callNext, hbefore.enters_eq,
      hafter.enters_eq, henters, List.nil_append, List.append_nil]
    exact (List.range'_succ ..).symm
  first _ := by simp
  next_iff i hlow hhigh := by
    have hne : i + 1 ≠ level := by omega
    simp only [enters_enter, enters_append, enters_callNext, hbefore.enters_eq,
      hafter.enters_eq, calls_enter, calls_append, calls_callNext, hbefore.calls_eq,
      hafter.calls_eq, List.nil_append, List.append_nil, List.mem_cons, hne, false_or]
    have hcalled : (∀ j, level ≤ j → j ≤ i → j = level ∨ j ∈ calls sub) ↔
        ∀ j, level + 1 ≤ j → j ≤ i → j ∈ calls sub := by
      constructor
      · intro h j hj hji
        exact (h j (by omega) hji).resolve_left (by omega)
      · intro h j hj hji
        rcases Nat.eq_or_lt_of_le hj with heq | hlt
        · exact Or.inl heq.symm
        · exact Or.inr (h j hlt hji)
    rw [hcalled]
    rcases Nat.eq_or_lt_of_le hlow with rfl | hlt
    · have hfirst := hsub.first (by omega)
      exact ⟨fun _ j hj hji => absurd hj (by omega), fun _ => hfirst⟩
    · exact hsub.next_iff i hlt (by omega)
  after := by
    have hlast : ∀ e ∈ after, e.level = level := by
      intro e he
      obtain ⟨s'', rfl⟩ := hafter e he
      rfl
    refine List.pairwise_cons.2 ⟨fun _ _ => trivial, ?_⟩
    refine List.pairwise_append.2 ⟨hbefore.pairwise, List.pairwise_cons.2 ⟨fun _ _ => trivial,
      List.pairwise_append.2 ⟨hsub.after, hafter.pairwise, ?_⟩⟩, ?_⟩
    · intro e he e' he'
      refine ChainEvent.before_of_le ?_
      have := hlevel e he
      rw [hlast e' he']
      omega
    · intro e he e' _
      obtain ⟨s'', rfl⟩ := hbefore e he
      exact fun hpos => absurd hpos (Nat.lt_irrefl 0)

/-- A chain of stages that call at most once runs in order.  The induction is on the
stages that are left. -/
theorem chain_ordered {stages : List (Stage σ)}
    (h : ∀ stage ∈ stages, ∀ s, (stage s).CallsAtMost 1) (level : Nat) (s : σ) :
    Ordered level stages.length (chain stages level s).1 := by
  induction stages generalizing level s with
  | nil =>
    exact ⟨⟨0, Nat.le_refl 0, rfl⟩, fun hpos => absurd hpos (Nat.lt_irrefl 0),
      fun i hlow hhigh => absurd hhigh (by rw [List.length_nil]; omega), List.Pairwise.nil⟩
  | cons stage stages ih =>
    have hstage := h stage List.mem_cons_self s
    have hrest := ih fun stage' hmem => h stage' (List.mem_cons_of_mem _ hmem)
    show Ordered level (stages.length + 1)
      (.enter level s :: ((stage s).run level (chain stages (level + 1)) 0 s).1)
    rcases (stage s).run_of_callsAtMost_one hstage 0 s with
      hown | ⟨before, s', after, hrun, hbefore, hafter⟩
    · exact Ordered.of_ownEffects s hown
    · rw [hrun]
      exact Ordered.wrap s s' hbefore hafter (hrest (level + 1) s')
        fun e he => (level_of_mem_chain he).1

end CallChain
