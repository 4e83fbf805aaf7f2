import Piconaut.Lib.CallChain

/-!
# `piconaut::middleware::MiddlewareManager`

The manager runs its middlewares through one recursive closure: `execute(index)`
calls the middleware at `index` with a `next` that calls `execute(index + 1)`.  What
a middleware does is arbitrary, so it is a stage of a `CallChain`, and the type `σ`
of the state stands for the request and the response.

`execute` follows the source, with the index into `middlewares_`.  Besides the state
it returns the events of the run.  `execute_eq_chain` says that it runs the chain of
the middlewares from `index` on, and `handle_order` is the order of a run.
-/

namespace Piconaut.Middleware

open CallChain

variable {σ : Type}

/-- `class MiddlewareBase`: what `Handle(req, res, next)` does. -/
abbrev MiddlewareBase (σ : Type) := Stage σ

/-- `class MiddlewareManager`. -/
structure MiddlewareManager (σ : Type) where
  middlewares : List (MiddlewareBase σ)

namespace MiddlewareManager

/-- A manager without middlewares. -/
def init : MiddlewareManager σ := ⟨[]⟩

/-- `MiddlewareManager::Add`. -/
def add (manager : MiddlewareManager σ) (middleware : MiddlewareBase σ) :
    MiddlewareManager σ :=
  ⟨manager.middlewares ++ [middleware]⟩

/-- The closure `execute` of `MiddlewareManager::Handle`. -/
def execute (manager : MiddlewareManager σ) (index : Nat) (s : σ) :
    List (ChainEvent σ) × σ :=
  if h : index < manager.middlewares.length then
    let body := (manager.middlewares[index] s).run index
      (fun s => manager.execute (index + 1) s) 0 s
    (.enter index s :: body.1, body.2)
  else ([], s)
termination_by manager.middlewares.length - index

/-- `MiddlewareManager::Handle`. -/
def handle (manager : MiddlewareManager σ) (s : σ) : List (ChainEvent σ) × σ :=
  manager.execute 0 s

/-- A manager to which middlewares were added. -/
def ofAdded (added : List (MiddlewareBase σ)) : MiddlewareManager σ := added.foldl add init

/-- The manager keeps the middlewares in the order in which they were added. -/
theorem middlewares_ofAdded (added : List (MiddlewareBase σ)) :
    (ofAdded added).middlewares = added := by
  have hfold : ∀ manager : MiddlewareManager σ,
      (added.foldl add manager).middlewares = manager.middlewares ++ added := by
    induction added with
    | nil => simp
    | cons middleware added ih =>
      intro manager
      rw [List.foldl_cons, ih, add, List.append_assoc]
      rfl
  exact (hfold init).trans (List.nil_append _)

/-- The call of one middleware. -/
theorem execute_of_lt (manager : MiddlewareManager σ) {index : Nat}
    (h : index < manager.middlewares.length) (s : σ) :
    manager.execute index s =
      (.enter index s :: ((manager.middlewares[index] s).run index
          (manager.execute (index + 1)) 0 s).1,
        ((manager.middlewares[index] s).run index (manager.execute (index + 1)) 0 s).2) := by
  rw [execute, dif_pos h]

/-- `execute(index)` runs the chain of the middlewares from `index` on.  The induction
is on the number of middlewares that are left. -/
theorem execute_eq_chain (manager : MiddlewareManager σ) (index : Nat) (s : σ) :
    manager.execute index s = chain (manager.middlewares.drop index) index s := by
  induction hleft : manager.middlewares.length - index generalizing index s with
  | zero =>
    have hge : ¬ index < manager.middlewares.length := by omega
    have hdrop : manager.middlewares.drop index = [] := List.drop_eq_nil_of_le (by omega)
    rw [execute, dif_neg hge, hdrop]
    rfl
  | succ left ih =>
    have hlt : index < manager.middlewares.length := by omega
    have hnext : manager.execute (index + 1) =
        chain (manager.middlewares.drop (index + 1)) (index + 1) :=
      funext fun s' => ih (index + 1) s' (by omega)
    rw [manager.execute_of_lt hlt, hnext, List.drop_eq_getElem_cons hlt]
    rfl

theorem handle_eq_chain (manager : MiddlewareManager σ) (s : σ) :
    manager.handle s = chain manager.middlewares 0 s :=
  manager.execute_eq_chain 0 s

/-- Wherever a middleware is entered, the run contains the whole call of it. -/
theorem execute_infix_of_enter (manager : MiddlewareManager σ) {s s' : σ} {index : Nat}
    (h : .enter index s' ∈ (manager.handle s).1) :
    (manager.execute index s').1 <:+: (manager.handle s).1 := by
  rw [handle_eq_chain] at h ⊢
  rw [execute_eq_chain]
  exact chain_infix_of_enter h

/-- What happens at or behind a middleware happens while that middleware runs. -/
theorem exists_enter_of_mem (manager : MiddlewareManager σ) {s : σ} {index : Nat}
    {e : ChainEvent σ} (hindex : index ≤ e.level) (he : e ∈ (manager.handle s).1) :
    ∃ s', .enter index s' ∈ (manager.handle s).1 ∧ e ∈ (manager.execute index s').1 := by
  rw [handle_eq_chain] at he
  obtain ⟨s', henter, hwithin⟩ := CallChain.exists_enter_of_mem (Nat.zero_le index) hindex he
  exact ⟨s', by rw [handle_eq_chain]; exact henter,
    by rw [execute_eq_chain]; exact hwithin⟩

end MiddlewareManager

open MiddlewareManager

/-- What `Handle` does when the middlewares `added` call `next` any number of times. -/
structure RunsNested (added : List (MiddlewareBase σ)) (s : σ) : Prop where
  /-- The run is the one from the first middleware on. -/
  start : (ofAdded added).handle s = (ofAdded added).execute 0 s
  /-- The middleware at `index` is entered and runs its own code, on the state in which it
  is entered and with one whole run of the remaining middlewares at each of its calls. -/
  body : ∀ index (hindex : index < added.length) s', ∃ body after,
    (ofAdded added).execute index s' = (.enter index s' :: body, after) ∧
      Runs ((ofAdded added).execute (index + 1)) index 0 (added[index] s') s' body after
  /-- Behind the last middleware nothing happens. -/
  done : ∀ index s', added.length ≤ index → (ofAdded added).execute index s' = ([], s')
  /-- Wherever a middleware is entered, the run contains such a call of it. -/
  entered : ∀ index s', .enter index s' ∈ ((ofAdded added).handle s).1 →
    ((ofAdded added).execute index s').1 <:+: ((ofAdded added).handle s).1
  /-- A middleware is entered as often as the one before it calls `next`. -/
  count : ∀ index, index + 1 < added.length →
    (enters ((ofAdded added).handle s).1).count (index + 1) =
      (calls ((ofAdded added).handle s).1).count index

theorem runsNested (added : List (MiddlewareBase σ)) (s : σ) : RunsNested added s where
  start := rfl
  body index hindex s' := by
    rw [execute_eq_chain, middlewares_ofAdded, List.drop_eq_getElem_cons hindex]
    have hnext : (ofAdded added).execute (index + 1) =
        chain (added.drop (index + 1)) (index + 1) := by
      funext s''
      rw [execute_eq_chain, middlewares_ofAdded]
    rw [hnext]
    exact chain_runs added[index] _ index s'
  done index s' hindex := by
    rw [execute_eq_chain, middlewares_ofAdded, List.drop_eq_nil_of_le hindex]
    rfl
  entered _ _ h := (ofAdded added).execute_infix_of_enter h
  count index hindex := by
    rw [handle_eq_chain, middlewares_ofAdded]
    exact count_enters_chain added 0 s (Nat.zero_le index) (by omega)

/-- The order of a run.  `Handle` returns for all middlewares.  If each of them calls
`next` at most once, they take turns in the order in which they were added.  In any case
the events and the final state are those of the code of the middlewares, where a call of
`next` runs the rest of the chain each time. -/
theorem handle_order (added : List (MiddlewareBase σ)) (s : σ) :
    ((∀ middleware ∈ added, ∀ s', (middleware s').CallsAtMost 1) →
        Ordered 0 added.length ((ofAdded added).handle s).1) ∧
      RunsNested added s := by
  refine ⟨fun honce => ?_, runsNested added s⟩
  rw [handle_eq_chain, middlewares_ofAdded]
  exact chain_ordered honce 0 s

/-- A middleware with an effect on either side of its call, and one that stops the
chain. -/
def bracketThenStop : List (MiddlewareBase Nat) :=
  [fun _ => .effect (· + 1) (.callNext fun _ => .effect (· + 1) .finish),
    fun _ => .effect (· * 10) .finish, fun _ => .finish]

theorem bracketThenStop_ordered : Ordered 0 3 ((ofAdded bracketThenStop).handle 0).1 := by
  refine (handle_order bracketThenStop 0).1 ?_
  intro middleware hmem s
  simp only [bracketThenStop, List.mem_cons, List.not_mem_nil, or_false] at hmem
  rcases hmem with rfl | rfl | rfl
  · exact fun _ => trivial
  · trivial
  · trivial

end Piconaut.Middleware
