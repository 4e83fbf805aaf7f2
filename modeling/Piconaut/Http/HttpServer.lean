import Mathlib.Data.List.Nodup

/-!
# Starting a server

What `MultiThreadedH2OServer::Start` and its single-threaded sibling
`H2OServer::Start` leave behind: worker contexts with their event loops, listening
sockets with the accept context they were given, and the loops that are driven.  All
system calls and h2o constructors succeed.  Loops are numbered in the order in which
`h2o_evloop_create` returns them.

`Workers.Isolated` says that each worker has a loop of its own, that one thread drives
it, and that its socket knows its context before it reads.  The single-threaded server
has it (`H2OServer.start_isolated`).  `MultiThreadedH2OServer::Start` creates a loop for
each worker but initialises every context with the member `loop_`, and it gives no
socket an accept context, so no started server has it (`start_isolated_iff`).
-/

namespace Piconaut.Http

/-- A `h2o_loop_t*`, null if `none`. -/
abbrev Loop := Option Nat

/-- `h2o_context_t`. -/
structure H2oContext where
  loop : Loop := none
  deriving DecidableEq

/-- `h2o_accept_ctx_t`, with the number of the context that `ctx` points to. -/
structure H2oAcceptCtx where
  ctx : Nat
  deriving DecidableEq

/-- A listening `h2o_socket_t`.  `readWith` is what `data` was when reading started. -/
structure Listener where
  loop : Loop
  data : Option H2oAcceptCtx := none
  readWith : Option (Option H2oAcceptCtx) := none
  deriving DecidableEq

/-- `h2o_socket_read_start`. -/
def Listener.readStart (sock : Listener) : Listener := { sock with readWith := some sock.data }

/-- `AcceptConnection` for a connection that arrives without an error: the accept
context that `h2o_accept` is called with. -/
def Listener.acceptConnection (listener : Listener) : Option H2oAcceptCtx := listener.data

/-- The workers of a running server, and the loops that its threads run. -/
structure Workers where
  contexts : List H2oContext
  listeners : List Listener
  driven : List Loop
  deriving DecidableEq

/-- The workers share nothing: their loops are different, each loop is driven by one
thread, and each listening socket was given its own context before it read. -/
structure Workers.Isolated (w : Workers) : Prop where
  distinct : (w.contexts.map H2oContext.loop).Nodup
  driven : ∀ c ∈ w.contexts, w.driven.count c.loop = 1
  accept : ∀ i < w.contexts.length, (w.listeners[i]?).bind Listener.readWith = some (some ⟨i⟩)

/-! ## The single-threaded server -/

/-- `class H2OServer`. -/
structure H2OServer where
  createdLoops : Nat := 0
  loops : Loop := none
  contexts : H2oContext := {}
  acceptCtx : Option H2oAcceptCtx := none
  listeners : Option Listener := none

namespace H2OServer

/-- `H2OServer::Start`, up to the call of `RunEventLoop`. -/
def start (server : H2OServer) : H2OServer :=
  let loops := some server.createdLoops
  let sock : Listener := { loop := loops }
  let acceptCtx : H2oAcceptCtx := ⟨0⟩
  { createdLoops := server.createdLoops + 1
    loops := loops
    contexts := ⟨loops⟩
    acceptCtx := some acceptCtx
    listeners := some { sock with data := some acceptCtx }.readStart }

/-- The one worker, whose loop the calling thread runs. -/
def workers (server : H2OServer) : Workers :=
  ⟨[server.contexts], server.listeners.toList, [server.loops]⟩

theorem start_isolated (server : H2OServer) : server.start.workers.Isolated where
  distinct := List.nodup_singleton _
  driven := by simp [workers, start]
  accept := by
    intro i hi
    obtain rfl : i = 0 := Nat.lt_one_iff.1 hi
    rfl

end H2OServer

/-! ## The multi-threaded server -/

/-- `class MultiThreadedH2OServer`. -/
structure MultiThreadedH2OServer where
  numThreads : Nat
  createdLoops : Nat := 0
  loop_ : Loop := none
  contexts : List H2oContext := []
  listeners : List Listener := []
  /-- The argument of `RunEventLoop` in each thread. -/
  threads : List Nat := []

namespace MultiThreadedH2OServer

/-- One iteration of the first loop of `Start`.  The loop that it creates is a local
variable, and the context gets the member. -/
def initContext (server : MultiThreadedH2OServer) (i : Nat) : MultiThreadedH2OServer :=
  { server with
    createdLoops := server.createdLoops + 1
    contexts := server.contexts.set i ⟨server.loop_⟩ }

/-- The event loop of the context `i`. -/
def contextLoop (server : MultiThreadedH2OServer) (i : Nat) : Loop :=
  (server.contexts[i]?).bind H2oContext.loop

/-- One iteration of the second loop. -/
def createListener (server : MultiThreadedH2OServer) (i : Nat) : MultiThreadedH2OServer :=
  let sock : Listener := { loop := server.contextLoop i }
  { server with listeners := server.listeners ++ [sock.readStart] }

/-- One iteration of the third loop. -/
def startThread (server : MultiThreadedH2OServer) (i : Nat) : MultiThreadedH2OServer :=
  { server with threads := server.threads ++ [i] }

/-- `contexts_.resize(num_threads_)` and `loop_ = h2o_evloop_create()`. -/
def prepare (server : MultiThreadedH2OServer) : MultiThreadedH2OServer :=
  { server with
    contexts := server.contexts.take server.numThreads ++
      List.replicate (server.numThreads - server.contexts.length) {}
    loop_ := some server.createdLoops
    createdLoops := server.createdLoops + 1 }

/-- `MultiThreadedH2OServer::Start`. -/
def start (server : MultiThreadedH2OServer) : MultiThreadedH2OServer :=
  let indices := List.range server.numThreads
  let server := server.prepare
  let server := indices.foldl initContext server
  let server := indices.foldl createListener server
  indices.foldl startThread server

/-- The workers.  `RunEventLoop(i)` runs the loop of the context `i`. -/
def workers (server : MultiThreadedH2OServer) : Workers :=
  ⟨server.contexts, server.listeners, server.threads.map server.contextLoop⟩

/-! ### What the three loops do -/

variable {server : MultiThreadedH2OServer}

/-- The first loop gives the first contexts the loop `loop_`.  The induction is on the
number of iterations. -/
theorem foldl_initContext (server : MultiThreadedH2OServer) {n : Nat}
    (hn : n ≤ server.contexts.length) :
    (List.range n).foldl initContext server =
      { server with
        createdLoops := server.createdLoops + n
        contexts := List.replicate n ⟨server.loop_⟩ ++ server.contexts.drop n } := by
  induction n with
  | zero => simp
  | succ n ih =>
    have hdrop : server.contexts.drop n = server.contexts[n] :: server.contexts.drop (n + 1) :=
      (List.getElem_cons_drop hn).symm
    rw [List.range_succ, List.foldl_append, ih (Nat.le_of_succ_le hn), List.foldl_cons,
      List.foldl_nil, initContext]
    simp only [hdrop, List.set_append, List.length_replicate, Nat.lt_irrefl, if_false,
      Nat.sub_self, List.set_cons_zero, List.replicate_succ', List.append_assoc,
      List.singleton_append, Nat.add_assoc]

theorem foldl_createListener (server : MultiThreadedH2OServer) (is : List Nat) :
    is.foldl createListener server =
      { server with
        listeners := server.listeners ++
          is.map fun i => ({ loop := server.contextLoop i } : Listener).readStart } := by
  induction is generalizing server with
  | nil => simp
  | cons i is ih =>
    rw [List.foldl_cons, ih]
    simp [createListener, contextLoop]

theorem foldl_startThread (server : MultiThreadedH2OServer) (is : List Nat) :
    is.foldl startThread server = { server with threads := server.threads ++ is } := by
  induction is generalizing server with
  | nil => simp
  | cons i is ih =>
    rw [List.foldl_cons, ih]
    simp [startThread]

theorem map_range_eq_replicate {β : Type} {n : Nat} {f : Nat → β} {b : β}
    (h : ∀ i ∈ List.range n, f i = b) : (List.range n).map f = List.replicate n b := by
  have hmap := List.map_eq_replicate_iff.2 h
  rwa [List.length_range] at hmap

/-- A server that was just constructed. -/
def init (numThreads : Nat) : MultiThreadedH2OServer := { numThreads := numThreads }

/-- Every worker has the loop `loop_`, and no socket has an accept context. -/
theorem workers_start (n : Nat) :
    (init n).start.workers =
      ⟨List.replicate n ⟨some 0⟩, List.replicate n ⟨some 0, none, some none⟩,
        List.replicate n (some 0)⟩ := by
  have hcontexts : (List.range n).foldl initContext (init n).prepare =
      { (init n).prepare with
        createdLoops := 1 + n
        contexts := List.replicate n ⟨some 0⟩ } := by
    rw [foldl_initContext _ (by simp [prepare, init])]
    simp [prepare, init]
  have hloop : ∀ i ∈ List.range n,
      ((List.replicate n (⟨some 0⟩ : H2oContext))[i]?).bind H2oContext.loop = some 0 := by
    intro i hi
    rw [List.getElem?_replicate, if_pos (List.mem_range.1 hi)]
    rfl
  have hstart : (init n).start =
      (List.range n).foldl startThread ((List.range n).foldl createListener
        ((List.range n).foldl initContext (init n).prepare)) := rfl
  rw [hstart, hcontexts, foldl_createListener, foldl_startThread]
  simp only [workers, contextLoop, prepare, init, Listener.readStart, List.nil_append,
    Workers.mk.injEq, true_and]
  refine ⟨map_range_eq_replicate fun i hi => ?_, map_range_eq_replicate hloop⟩
  rw [hloop i hi]

/-! ### Isolation -/

/-- Two workers share their loop. -/
theorem distinct_iff (n : Nat) :
    ((init n).start.workers.contexts.map H2oContext.loop).Nodup ↔ n ≤ 1 := by
  rw [workers_start, List.map_replicate, List.nodup_replicate]

/-- All threads drive the one loop that the contexts have. -/
theorem driven_iff (n : Nat) :
    (∀ c ∈ (init n).start.workers.contexts, (init n).start.workers.driven.count c.loop = 1) ↔
      n ≤ 1 := by
  simp only [workers_start]
  constructor
  · intro h
    rcases Nat.eq_zero_or_pos n with rfl | hn
    · exact Nat.zero_le 1
    · have hcount := h ⟨some 0⟩ (List.mem_replicate.2 ⟨Nat.ne_of_gt hn, rfl⟩)
      rw [List.count_replicate_self] at hcount
      omega
  · intro hn c hc
    obtain ⟨hne, rfl⟩ := List.mem_replicate.1 hc
    rw [List.count_replicate_self]
    omega

/-- `AcceptConnection` passes a null accept context on, in every worker. -/
theorem acceptConnection_null (n : Nat) :
    ∀ listener ∈ (init n).start.workers.listeners, listener.acceptConnection = none := by
  rw [workers_start]
  intro listener hl
  obtain ⟨-, rfl⟩ := List.mem_replicate.1 hl
  rfl

/-- A started server has isolated workers only if it has none. -/
theorem start_isolated_iff (n : Nat) : (init n).start.workers.Isolated ↔ n = 0 := by
  constructor
  · intro h
    by_contra hne
    have haccept := h.accept 0
    rw [workers_start] at haccept
    simp only [List.length_replicate] at haccept
    have hget := haccept (Nat.pos_of_ne_zero hne)
    rw [List.getElem?_replicate, if_pos (Nat.pos_of_ne_zero hne)] at hget
    cases hget
  · rintro rfl
    refine ⟨(distinct_iff 0).2 (by decide), (driven_iff 0).2 (by decide), ?_⟩
    intro i hi
    cases hi

/-- With two threads both contexts have the loop that both threads run, and neither
socket has an accept context. -/
theorem two_threads_share :
    (init 2).start.workers =
        ⟨[⟨some 0⟩, ⟨some 0⟩], [⟨some 0, none, some none⟩, ⟨some 0, none, some none⟩],
          [some 0, some 0]⟩ ∧
      ¬ (init 2).start.workers.Isolated := by
  refine ⟨by decide, fun h => ?_⟩
  exact absurd h.distinct (by decide)

end MultiThreadedH2OServer

end Piconaut.Http
