import Piconaut.Http.ServerLifecycle
import Piconaut.Lib.ExceptRun
import Piconaut.Lib.LastMatch

/-!
# The life of a `MultiThreadedH2OServer`

`Start` opens a descriptor, initialises a context for each worker and starts its thread.
`Wait` joins the threads, and `Stop` disposes of the contexts.  The destructor calls `Stop`,
and then the threads are destroyed with the other members, which ends the program if one of
them was not joined.

The constructor sets neither `queues_` nor `listener_`, no method does, and `Stop` reads
both.  They are null only if the object has static storage, which is zeroed before the
constructor runs.

* `life_isOk_iff`: which programs get through the destructor.
* `life_clean_iff`: those that also leave no descriptor open are the ones in which no `Start`
  succeeded.
-/

namespace Piconaut.Http.Lifecycle

open Piconaut.CppStd LastMatch

/-- What `socket`, `bind` and `listen` return in one `Start`.  The constructors of h2o and
of the threads succeed. -/
structure SystemCalls where
  socket : Bool
  bind : Bool
  listen : Bool

/-- What an element of `contexts_` owns. -/
inductive Context where
  | zeroed
  | initialized
  | disposed
  deriving DecidableEq

/-- What ends a program. -/
inductive Abort where
  /-- A pointer is read that was never set. -/
  | uninitialized
  /-- `h2o_context_dispose` for a context that owns nothing. -/
  | badDispose
  /-- `std::terminate` in the destructor of a thread that can be joined. -/
  | terminate

/-- Whether memory is zeroed before an object is constructed in it. -/
inductive Storage where
  | static
  | other

/-- A pointer that the constructor does not set. -/
def Storage.pointer : Storage → Pointer
  | static => .null
  | other => .uninitialized

/-- `class MultiThreadedH2OServer`, with the descriptors that are open.  `threads` says of
each thread whether it can be joined. -/
structure MultiThreadedH2OServer where
  numThreads : Nat
  queues : Pointer
  listener : Pointer
  sockets : Nat := 0
  descriptors : List Nat := []
  contexts : List Context := []
  threads : List Bool := []

/-- `h2o_context_dispose`. -/
def Context.dispose : Context → Except Abort Context
  | initialized => .ok disposed
  | zeroed | disposed => .error .badDispose

/-- Read a pointer to see whether it is null. -/
def Pointer.read : Pointer → Except Abort Pointer
  | uninitialized => .error .uninitialized
  | p => .ok p

namespace MultiThreadedH2OServer

/-- The constructor. -/
def init (numThreads : Nat) (storage : Storage) : MultiThreadedH2OServer where
  numThreads := numThreads
  queues := storage.pointer
  listener := storage.pointer

/-- `close`. -/
def close (server : MultiThreadedH2OServer) (fd : Nat) : MultiThreadedH2OServer :=
  { server with descriptors := server.descriptors.erase fd }

/-- `socket`, when it succeeds. -/
def openSocket (server : MultiThreadedH2OServer) : MultiThreadedH2OServer :=
  { server with
    sockets := server.sockets + 1
    descriptors := server.sockets :: server.descriptors }

/-- `contexts_.resize(num_threads_)`. -/
def resizeContexts (server : MultiThreadedH2OServer) : List Context :=
  server.contexts.take server.numThreads ++
    List.replicate (server.numThreads - server.contexts.length) .zeroed

/-- `MultiThreadedH2OServer::Start`. -/
def start (server : MultiThreadedH2OServer) (r : SystemCalls) :
    Except StdException Unit × MultiThreadedH2OServer :=
  let fails (what : String) (server : MultiThreadedH2OServer) :=
    (.error (.runtimeError (str what)), server)
  if !r.socket then fails "Failed to create socket" server
  else
    let fd := server.sockets
    let server := server.openSocket
    if !r.bind then fails "Failed to bind to the specified host and port" (server.close fd)
    else if !r.listen then fails "Failed to listen on socket" (server.close fd)
    else
      (.ok (), { server with
        contexts := server.resizeContexts.map fun _ => .initialized
        threads := server.threads ++ List.replicate server.numThreads true })

/-- `MultiThreadedH2OServer::Wait`, when the event loops have ended. -/
def wait (server : MultiThreadedH2OServer) : MultiThreadedH2OServer :=
  { server with threads := server.threads.map fun _ => false }

/-- `MultiThreadedH2OServer::Stop`.  The descriptor of a listening socket is closed with it. -/
def stop (server : MultiThreadedH2OServer) : Except Abort MultiThreadedH2OServer := do
  let _ ← server.queues.read
  -- the loop copies each element, and the copy owns what the element owns
  let contexts ← server.contexts.mapM Context.dispose
  let server := { server with contexts := contexts }
  match ← server.listener.read with
  | .to fd => return server.close fd
  | _ => return server

/-- `MultiThreadedH2OServer::~MultiThreadedH2OServer`, and the destruction of `threads_`. -/
def destroy (server : MultiThreadedH2OServer) : Except Abort MultiThreadedH2OServer := do
  let server ← server.stop
  if true ∈ server.threads then .error .terminate else .ok server

end MultiThreadedH2OServer

/-- A call of a method. -/
inductive Call where
  | start (r : SystemCalls)
  | wait
  | stop

/-- A call of `Start` that succeeds. -/
def Call.Starts : Call → Prop
  | start r => r.socket = true ∧ r.bind = true ∧ r.listen = true
  | wait | stop => False

instance : DecidablePred Call.Starts
  | .start _ => inferInstanceAs (Decidable (_ ∧ _ ∧ _))
  | .wait | .stop => inferInstanceAs (Decidable False)

namespace MultiThreadedH2OServer

/-- A call.  The program handles the exceptions of `Start`. -/
def step (server : MultiThreadedH2OServer) : Call → Except Abort MultiThreadedH2OServer
  | .start r => .ok (server.start r).2
  | .wait => .ok server.wait
  | .stop => server.stop

/-- A server between its constructor and its destructor. -/
def run (numThreads : Nat) (storage : Storage) (calls : List Call) :
    Except Abort MultiThreadedH2OServer :=
  calls.foldlM step (init numThreads storage)

/-- The whole life of a server. -/
def life (numThreads : Nat) (storage : Storage) (calls : List Call) :
    Except Abort MultiThreadedH2OServer :=
  run numThreads storage calls >>= destroy

end MultiThreadedH2OServer

/-! ## What the calls have left -/

/-- A `Start` has succeeded, and `Stop` was not called since. -/
def HasContexts (calls : List Call) : Prop := Since Call.Starts (· = .stop) calls

/-- A `Start` has succeeded, and `Wait` was not called since. -/
def HasThreads (calls : List Call) : Prop := Since Call.Starts (· = .wait) calls

variable {n : Nat} {calls : List Call} {c : Call}

theorem not_starts_wait : ¬ Call.wait.Starts := id

theorem not_starts_stop : ¬ Call.stop.Starts := id

theorem hasContexts_concat :
    HasContexts (calls ++ [c]) ↔ c.Starts ∨ (c ≠ .stop ∧ HasContexts calls) :=
  since_concat

theorem hasThreads_concat :
    HasThreads (calls ++ [c]) ↔ c.Starts ∨ (c ≠ .wait ∧ HasThreads calls) :=
  since_concat

theorem hasThreads_concat_stop : HasThreads (calls ++ [.stop]) ↔ HasThreads calls := by
  have hwait : Call.stop ≠ .wait := by simp
  rw [hasThreads_concat, or_iff_right not_starts_stop, and_iff_right hwait]

theorem exists_starts_concat :
    (∃ c' ∈ calls ++ [c], c'.Starts) ↔ (∃ c' ∈ calls, c'.Starts) ∨ c.Starts := by
  simp [or_and_right, exists_or]

namespace MultiThreadedH2OServer

/-- The state of a server with static storage. -/
structure Holds (n : Nat) (calls : List Call) (server : MultiThreadedH2OServer) : Prop where
  numThreads : server.numThreads = n
  queues : server.queues = .null
  listener : server.listener = .null
  empty : (¬ ∃ c ∈ calls, c.Starts) → server.contexts = []
  initialized : HasContexts calls → server.contexts = List.replicate n .initialized
  disposed : (∃ c ∈ calls, c.Starts) → ¬ HasContexts calls →
    server.contexts = List.replicate n .disposed
  joinable : true ∈ server.threads ↔ 0 < n ∧ HasThreads calls
  descriptors : server.descriptors.length = calls.countP fun c => c.Starts

variable {server : MultiThreadedH2OServer}

/-- A call that starts nothing and is not `Stop` changes the threads at most, and the number
of sockets. -/
theorem Holds.concat_of_idle (h : Holds n calls server) (hstart : ¬ c.Starts) (hstop : c ≠ .stop)
    (sockets : Nat) {threads : List Bool}
    (hthreads : true ∈ threads ↔ 0 < n ∧ HasThreads (calls ++ [c])) :
    Holds n (calls ++ [c]) { server with sockets := sockets, threads := threads } where
  numThreads := h.numThreads
  queues := h.queues
  listener := h.listener
  empty := by
    rw [exists_starts_concat, or_iff_left hstart]
    exact h.empty
  initialized := by
    rw [hasContexts_concat, or_iff_right hstart, and_iff_right hstop]
    exact h.initialized
  disposed := by
    rw [exists_starts_concat, or_iff_left hstart, hasContexts_concat, or_iff_right hstart,
      and_iff_right hstop]
    exact h.disposed
  joinable := hthreads
  descriptors := by simpa [List.countP_append, hstart] using h.descriptors

/-! ### `Start` -/

theorem length_resizeContexts (server : MultiThreadedH2OServer) :
    server.resizeContexts.length = server.numThreads := by
  simp only [resizeContexts, List.length_append, List.length_take, List.length_replicate]
  omega

theorem start_of_starts (server : MultiThreadedH2OServer) {r : SystemCalls}
    (h : (Call.start r).Starts) :
    (server.start r).2 =
      { server.openSocket with
        contexts := List.replicate server.numThreads .initialized
        threads := server.threads ++ List.replicate server.numThreads true } := by
  obtain ⟨hsocket, hbind, hlisten⟩ := h
  have hcontexts : server.openSocket.resizeContexts.map (fun _ => Context.initialized) =
      List.replicate server.numThreads .initialized := by
    rw [List.map_const', length_resizeContexts]
    rfl
  simp only [start, hsocket, hbind, hlisten, hcontexts]
  rfl

/-- A call that fails leaves the descriptors as they were. -/
theorem start_of_not_starts (server : MultiThreadedH2OServer) {r : SystemCalls}
    (h : ¬ (Call.start r).Starts) :
    ∃ sockets, (server.start r).2 = { server with sockets := sockets } := by
  obtain ⟨socket, bind, listen⟩ := r
  have hclose : server.openSocket.close server.sockets =
      { server with sockets := server.sockets + 1 } := by
    simp [openSocket, close]
  cases socket with
  | false => exact ⟨server.sockets, rfl⟩
  | true =>
    cases bind with
    | false => exact ⟨_, hclose⟩
    | true =>
      cases listen with
      | false => exact ⟨_, hclose⟩
      | true => exact absurd ⟨rfl, rfl, rfl⟩ h

theorem queues_start (server : MultiThreadedH2OServer) (r : SystemCalls) :
    (server.start r).2.queues = server.queues := by
  by_cases hstarts : (Call.start r).Starts
  · rw [start_of_starts server hstarts]
    rfl
  · obtain ⟨sockets, hserver⟩ := start_of_not_starts server hstarts
    rw [hserver]

theorem Holds.start (h : Holds n calls server) (r : SystemCalls) :
    Holds n (calls ++ [.start r]) (server.start r).2 := by
  by_cases hstarts : (Call.start r).Starts
  · have hcontexts : HasContexts (calls ++ [.start r]) := hasContexts_concat.2 (Or.inl hstarts)
    have hthreads : HasThreads (calls ++ [.start r]) := hasThreads_concat.2 (Or.inl hstarts)
    rw [start_of_starts server hstarts, h.numThreads]
    refine ⟨h.numThreads, h.queues, h.listener, ?_, fun _ => rfl, ?_, ?_, ?_⟩
    · exact fun hno => absurd (exists_starts_concat.2 (Or.inr hstarts)) hno
    · exact fun _ hno => absurd hcontexts hno
    · have hall : true ∈ List.replicate n true ↔ 0 < n := by
        rw [List.mem_replicate, and_iff_left rfl, Nat.pos_iff_ne_zero]
      rw [List.mem_append, hall, and_iff_left hthreads, h.joinable]
      exact or_iff_right_of_imp And.left
    · simp [openSocket, List.countP_append, hstarts, h.descriptors]
  · obtain ⟨sockets, hserver⟩ := start_of_not_starts server hstarts
    rw [hserver]
    refine h.concat_of_idle hstarts (by simp) sockets ?_
    have hwait : Call.start r ≠ .wait := by simp
    rw [h.joinable, hasThreads_concat, or_iff_right hstarts, and_iff_right hwait]

/-! ### `Wait` and `Stop` -/

theorem Holds.wait (h : Holds n calls server) : Holds n (calls ++ [.wait]) server.wait := by
  refine h.concat_of_idle not_starts_wait (by simp) server.sockets ?_
  rw [hasThreads_concat, or_iff_right not_starts_wait]
  simp

theorem mapM_replicate_ok {ε α β : Type} {f : α → Except ε β} {a : α} {b : β} (h : f a = .ok b)
    (n : Nat) : (List.replicate n a).mapM f = .ok (List.replicate n b) := by
  induction n with
  | zero => rfl
  | succ n ih =>
    rw [List.replicate_succ, List.mapM_cons, h, ih]
    rfl

/-- `Stop` may be called next. -/
def Ready (n : Nat) (calls : List Call) : Prop :=
  n = 0 ∨ ((∃ c ∈ calls, c.Starts) → HasContexts calls)

theorem Holds.stop_eq (h : Holds n calls server) :
    server.stop = (server.contexts.mapM Context.dispose).map fun contexts =>
      { server with contexts := contexts } := by
  rw [stop, h.queues, h.listener]
  cases server.contexts.mapM Context.dispose <;> rfl

/-- Then every context is initialised, or there is none. -/
theorem Holds.mapM_dispose (h : Holds n calls server) (hready : Ready n calls) :
    ∃ contexts, server.contexts.mapM Context.dispose = .ok contexts ∧
      ((¬ ∃ c ∈ calls, c.Starts) → contexts = []) ∧
      ((∃ c ∈ calls, c.Starts) → contexts = List.replicate n .disposed) := by
  by_cases hstarts : ∃ c ∈ calls, c.Starts
  · refine ⟨List.replicate n .disposed, ?_, fun hno => absurd hstarts hno, fun _ => rfl⟩
    rcases hready with rfl | hlast
    · by_cases hlive : HasContexts calls
      · rw [h.initialized hlive]
        rfl
      · rw [h.disposed hstarts hlive]
        rfl
    · rw [h.initialized (hlast hstarts)]
      have hdispose : Context.initialized.dispose = .ok .disposed := rfl
      exact mapM_replicate_ok hdispose n
  · refine ⟨[], ?_, fun _ => rfl, fun hyes => absurd hyes hstarts⟩
    rw [h.empty hstarts]
    rfl

theorem Holds.stop_ok (h : Holds n calls server) (hready : Ready n calls) :
    ∃ server', server.stop = .ok server' ∧ Holds n (calls ++ [.stop]) server' := by
  obtain ⟨contexts, hdispose, hempty, hdisposed⟩ := h.mapM_dispose hready
  have hnone : ¬ HasContexts (calls ++ [.stop]) := by
    rw [hasContexts_concat, or_iff_right not_starts_stop]
    exact fun hc => hc.1 rfl
  refine ⟨{ server with contexts := contexts }, by rw [h.stop_eq, hdispose]; rfl, ?_⟩
  refine ⟨h.numThreads, h.queues, h.listener, ?_, fun hc => absurd hc hnone, ?_, ?_, ?_⟩
  · rw [exists_starts_concat, or_iff_left not_starts_stop]
    exact hempty
  · rw [exists_starts_concat, or_iff_left not_starts_stop]
    exact fun hstarts _ => hdisposed hstarts
  · rw [hasThreads_concat_stop]
    exact h.joinable
  · simpa [List.countP_append, not_starts_stop] using h.descriptors

/-- Otherwise a context would be disposed of again. -/
theorem Holds.stop_error (h : Holds n calls server) (hready : ¬ Ready n calls) :
    server.stop = .error .badDispose := by
  rw [Ready, not_or, Classical.not_imp] at hready
  obtain ⟨hn, hstarts, hlast⟩ := hready
  obtain ⟨k, rfl⟩ := Nat.exists_eq_succ_of_ne_zero hn
  rw [h.stop_eq, h.disposed hstarts hlast, List.replicate_succ, List.mapM_cons]
  rfl

/-! ## Runs -/

/-- Every `Stop` may be called where it is called. -/
def Safe (n : Nat) (calls : List Call) : Prop :=
  ∀ before after, calls = before ++ .stop :: after → Ready n before

theorem safe_concat : Safe n (calls ++ [c]) ↔ Safe n calls ∧ (c = .stop → Ready n calls) := by
  constructor
  · intro h
    refine ⟨fun before after hcalls => h before (after ++ [c]) (by simp [hcalls]), ?_⟩
    rintro rfl
    exact h calls [] rfl
  · rintro ⟨h, hlast⟩ before after hcalls
    rcases List.eq_nil_or_concat after with rfl | ⟨after, c', rfl⟩
    · obtain ⟨rfl, rfl⟩ := List.append_singleton_inj.1 hcalls
      exact hlast rfl
    · have hcalls' : calls ++ [c] = (before ++ .stop :: after) ++ [c'] := by simpa using hcalls
      obtain ⟨rfl, -⟩ := List.append_singleton_inj.1 hcalls'
      exact h before after rfl

theorem Holds.step (h : Holds n calls server) (hlast : c = .stop → Ready n calls) :
    ∃ server', server.step c = .ok server' ∧ Holds n (calls ++ [c]) server' := by
  cases c with
  | start r => exact ⟨_, rfl, h.start r⟩
  | wait => exact ⟨_, rfl, h.wait⟩
  | stop => exact h.stop_ok (hlast rfl)

theorem run_concat (n : Nat) (storage : Storage) (calls : List Call) (c : Call) :
    run n storage (calls ++ [c]) = run n storage calls >>= fun server => server.step c :=
  ExceptRun.foldlM_concat ..

theorem holds_init (n : Nat) : Holds n [] (init n .static) := by
  have hcontexts : ¬ HasContexts [] := fun h => by simpa using h.exists_mem
  have hthreads : ¬ HasThreads [] := fun h => by simpa using h.exists_mem
  exact ⟨rfl, rfl, rfl, fun _ => rfl, fun h => absurd h hcontexts,
    fun h => absurd h (by simp), iff_of_false (by simp [init]) fun h => hthreads h.2, rfl⟩

/-- A server with static storage gets through safe calls.  The induction is on the calls. -/
theorem holds_run (h : Safe n calls) :
    ∃ server, run n .static calls = .ok server ∧ Holds n calls server := by
  induction calls using List.reverseRecOn with
  | nil => exact ⟨_, rfl, holds_init n⟩
  | append_singleton calls c ih =>
    obtain ⟨hsafe, hlast⟩ := safe_concat.1 h
    obtain ⟨server, hrun, hholds⟩ := ih hsafe
    obtain ⟨server', hstep, hholds'⟩ := hholds.step hlast
    exact ⟨server', by rw [run_concat, hrun]; exact hstep, hholds'⟩

/-- It does not get through others. -/
theorem run_of_not_safe (h : ¬ Safe n calls) : run n .static calls = .error .badDispose := by
  induction calls using List.reverseRecOn with
  | nil => exact absurd (fun before after hcalls => by simp at hcalls) h
  | append_singleton calls c ih =>
    rw [run_concat]
    by_cases hsafe : Safe n calls
    · obtain ⟨server, hrun, hholds⟩ := holds_run hsafe
      have hlast : ¬ (c = .stop → Ready n calls) := fun hlast => h (safe_concat.2 ⟨hsafe, hlast⟩)
      rw [Classical.not_imp] at hlast
      obtain ⟨rfl, hready⟩ := hlast
      rw [hrun]
      exact hholds.stop_error hready
    · rw [ih hsafe]
      rfl

/-! ## The destructor -/

theorem life_eq (n : Nat) (storage : Storage) (calls : List Call) :
    life n storage calls = run n storage (calls ++ [.stop]) >>= fun server =>
      if true ∈ server.threads then .error .terminate else .ok server := by
  rw [run_concat, bind_assoc]
  rfl

/-- Without static storage `queues_` is never set, and the destructor reads it. -/
theorem life_other (n : Nat) (calls : List Call) (server : MultiThreadedH2OServer) :
    life n .other calls ≠ .ok server := by
  intro h
  obtain ⟨last, hrun, hdestroy⟩ := ExceptRun.bind_eq_ok_iff.1 h
  have hqueues : last.queues = .uninitialized := by
    refine ExceptRun.foldlM_invariant (I := fun s => s.queues = .uninitialized) ?_ rfl hrun
    intro s c s' hs hstep
    cases c with
    | start r =>
      obtain rfl := Except.ok.inj hstep
      exact (queues_start s r).trans hs
    | wait =>
      obtain rfl := Except.ok.inj hstep
      exact hs
    | stop =>
      rw [step, stop, hs] at hstep
      cases hstep
  rw [destroy, stop, hqueues] at hdestroy
  cases hdestroy

/-- With static storage it gets to its end if `Stop` is safe there, too, and no thread is
left. -/
theorem life_static (n : Nat) (calls : List Call) (server : MultiThreadedH2OServer)
    (h : life n .static calls = .ok server) :
    Safe n (calls ++ [.stop]) ∧ ¬ (0 < n ∧ HasThreads calls) ∧
      server.descriptors.length = calls.countP fun c => c.Starts := by
  rw [life_eq] at h
  obtain ⟨last, hrun, hthreads⟩ := ExceptRun.bind_eq_ok_iff.1 h
  have hsafe : Safe n (calls ++ [.stop]) := by
    by_contra hc
    rw [run_of_not_safe hc] at hrun
    cases hrun
  obtain ⟨last', hrun', hholds⟩ := holds_run hsafe
  obtain rfl : last' = last := Except.ok.inj (hrun'.symm.trans hrun)
  split at hthreads
  · cases hthreads
  · rename_i hnone
    obtain rfl := Except.ok.inj hthreads
    rw [hholds.joinable, hasThreads_concat_stop] at hnone
    exact ⟨hsafe, hnone, by simpa [List.countP_append, not_starts_stop] using hholds.descriptors⟩

theorem exists_life_static (hsafe : Safe n (calls ++ [.stop]))
    (hthreads : ¬ (0 < n ∧ HasThreads calls)) :
    ∃ server, life n .static calls = .ok server := by
  obtain ⟨server, hrun, hholds⟩ := holds_run hsafe
  have hnone : true ∉ server.threads := by
    rwa [hholds.joinable, hasThreads_concat_stop]
  exact ⟨server, by rw [life_eq, hrun, ExceptRun.ok_bind, if_neg hnone]⟩

/-- A server gets through its calls and its destructor exactly if it has static storage and,
unless it has no workers, every `Stop` that follows a successful `Start`, with that of the
destructor, has a successful `Start` since the `Stop` before it, and there was a `Wait` since
the last successful `Start`. -/
theorem life_isOk_iff (n : Nat) (storage : Storage) (calls : List Call) :
    (∃ server, life n storage calls = .ok server) ↔
      storage = .static ∧ (n = 0 ∨ (¬ HasThreads calls ∧
        ∀ before after, calls ++ [.stop] = before ++ .stop :: after →
          (∃ c ∈ before, c.Starts) → HasContexts before)) := by
  cases storage with
  | other =>
    refine iff_of_false ?_ fun h => by simp at h
    rintro ⟨server, h⟩
    exact life_other n calls server h
  | static =>
    rw [and_iff_right rfl]
    constructor
    · rintro ⟨server, h⟩
      obtain ⟨hsafe, hthreads, -⟩ := life_static n calls server h
      rcases Nat.eq_zero_or_pos n with hn | hn
      · exact Or.inl hn
      · refine Or.inr ⟨fun hc => hthreads ⟨hn, hc⟩, fun before after hcalls => ?_⟩
        exact (hsafe before after hcalls).resolve_left (Nat.ne_of_gt hn)
    · rintro (rfl | ⟨hthreads, hsafe⟩)
      · exact exists_life_static (fun _ _ _ => Or.inl rfl) fun h => absurd h.1 (by simp)
      · exact exists_life_static (fun before after hcalls => Or.inr (hsafe before after hcalls))
          fun h => hthreads h.2

/-- A program that starts the server and waits, and one that also stops it before its end. -/
example : (life 2 .static [.start ⟨true, true, true⟩, .wait]).toBool = true ∧
    (life 2 .static [.start ⟨true, true, true⟩, .wait, .stop]).toBool = false := by decide

/-- It also leaves no descriptor open exactly if no `Start` has succeeded. -/
theorem life_clean_iff (n : Nat) (storage : Storage) (calls : List Call) :
    (∃ server, life n storage calls = .ok server ∧ server.descriptors = []) ↔
      storage = .static ∧ ∀ c ∈ calls, ¬ c.Starts := by
  constructor
  · rintro ⟨server, h, hnone⟩
    obtain rfl : storage = .static := by
      cases storage with
      | static => rfl
      | other => exact absurd h (life_other n calls server)
    have hcount := (life_static n calls server h).2.2
    rw [hnone, List.length_nil] at hcount
    exact ⟨rfl, fun c hc => by simpa using List.countP_eq_zero.1 hcount.symm c hc⟩
  · rintro ⟨rfl, hstarts⟩
    have hthreads : ¬ HasThreads calls := by
      intro hc
      obtain ⟨c, hmem, hc⟩ := hc.exists_mem
      exact hstarts c hmem hc
    have hsafe : Safe n (calls ++ [.stop]) := by
      rintro before after hcalls
      refine Or.inr fun ⟨c, hmem, hc⟩ => ?_
      have hc' : c ∈ calls ++ [.stop] := by
        rw [hcalls]
        exact List.mem_append_left _ hmem
      rcases List.mem_append.1 hc' with hc' | hc'
      · exact absurd hc (hstarts c hc')
      · rw [List.mem_singleton.1 hc'] at hc
        exact absurd hc not_starts_stop
    obtain ⟨server, h⟩ := exists_life_static hsafe fun hc => hthreads hc.2
    refine ⟨server, h, List.length_eq_zero_iff.1 ?_⟩
    rw [(life_static n calls server h).2.2, List.countP_eq_zero]
    exact fun c hc => by simpa using hstarts c hc

end MultiThreadedH2OServer

end Piconaut.Http.Lifecycle
