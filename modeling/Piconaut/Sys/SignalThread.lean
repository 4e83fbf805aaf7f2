import Piconaut.Sys.SignalHandler

/-!
# The thread of `SignalHandler`

`Start` runs the event loop in a thread, `OnSignal` asks the loop to stop, and `Join` waits
for the thread.  A `Monitor` is a handler with the thread and the stop flag of the loop.

A run is any sequence of calls, of signals that the running loop delivers, of the loop's
return, and of `Join`s that return.  `uv_run` returns when it was asked to stop, or when no
handle is active.  A callback that joins its own thread is left out.

* `loopReturns_iff`: the loop of a started handler can return exactly if a signal has been
  delivered, or libuv refused every start.  `Stop` has no part in it.
* `destroysSafely_after_start`: a started handler is destroyed without ending the program
  only after a `Join`, hence only after a signal.
-/

namespace Piconaut.Sys

/-- The handles. -/
def Handle.all : List Handle :=
  [.sigint, .sigterm, .sighup, .sigquit, .sigusr1, .sigusr2, .sigabrt, .sigfpe, .sigill, .sigsegv]

theorem Handle.mem_all (handle : Handle) : handle ∈ Handle.all := by
  cases handle <;> decide

/-- `thread_`: not joinable, running, or joinable after `Run` has returned. -/
inductive ThreadState where
  | notStarted
  | running
  | returned
  | joined
  deriving DecidableEq

/-- A handler with its thread.  `stopRequested` is the flag that `uv_stop` sets. -/
structure Monitor where
  handler : SignalHandler
  thread : ThreadState := .notStarted
  stopRequested : Bool := false

/-- What happens to a monitor. -/
inductive Event where
  | call (c : Call)
  /-- The loop calls `OnSignal`, whose callback makes the calls. -/
  | deliver (handle : Handle) (calls : List Call)
  /-- `uv_run` returns, and `Run` with it. -/
  | loopReturns
  /-- `Join` returns. -/
  | join

/-- What the event does to the handler. -/
def Event.op : Event → Option Op
  | call c => some (.call c)
  | deliver handle calls => some (.deliver handle calls)
  | loopReturns | join => none

namespace Monitor

variable (results : Nat → Bool)

/-- `SignalHandler::SignalHandler()`. -/
def construct : Monitor := { handler := SignalHandler.construct results }

/-- A call.  The first `Start` creates the thread. -/
def call (m : Monitor) (c : Call) : Monitor where
  handler := m.handler.run results c
  thread := match c with
    | .start => if m.handler.isRun then m.thread else .running
    | _ => m.thread
  stopRequested := m.stopRequested

/-- The loop has nothing more to wait for, or was asked to stop. -/
def LoopDone (m : Monitor) : Prop :=
  m.stopRequested = true ∨ ∀ handle, active m.handler.log handle = false

instance (m : Monitor) : Decidable m.LoopDone :=
  @instDecidableOr _ _ inferInstance
    (decidable_of_iff (∀ handle ∈ Handle.all, active m.handler.log handle = false)
      ⟨fun h handle => h handle handle.mem_all, fun h handle _ => h handle⟩)

/-- One event. -/
def step (m : Monitor) : Event → Option Monitor
  | .call c => some (m.call results c)
  | .deliver handle calls =>
    if m.thread = .running ∧ active m.handler.log handle then
      some { m with
        handler := m.handler.onSignal results handle calls
        stopRequested := true }
    else none
  | .loopReturns =>
    if m.thread = .running ∧ m.LoopDone then
      -- `uv_run` clears the flag
      some { m with thread := .returned, stopRequested := false }
    else none
  | .join =>
    match m.thread with
    | .running => none
    | .returned => some { m with thread := .joined }
    | .notStarted | .joined => some m

/-- The destructor leaves the program running: it destroys no joinable thread. -/
def DestroysSafely (m : Monitor) : Prop := m.thread = .notStarted ∨ m.thread = .joined

/-! ## What a step does -/

variable {results} {m m' : Monitor}

theorem isRun_initializeSignal (s : SignalHandler) (signum : SignalType) :
    (s.initializeSignal results signum).isRun = s.isRun := by
  unfold SignalHandler.initializeSignal
  split
  · rfl
  · dsimp only [SignalHandler.uvSignalInit]
    split <;> rfl

theorem isRun_startSignal (s : SignalHandler) (signum : SignalType) :
    (s.startSignal results signum).isRun = s.isRun := by
  unfold SignalHandler.startSignal
  split <;> rfl

theorem isRun_setSignalCaptureMode (s : SignalHandler) (signals : List SignalType) :
    (s.setSignalCaptureMode results signals).isRun = s.isRun := by
  unfold SignalHandler.setSignalCaptureMode
  induction signals generalizing s with
  | nil => rfl
  | cons signum signals ih =>
    rw [List.foldl_cons, ih, isRun_startSignal, isRun_initializeSignal]

theorem isRun_stopAllSignals (s : SignalHandler) : s.stopAllSignals.isRun = s.isRun := by
  unfold SignalHandler.stopAllSignals
  induction s.signals generalizing s with
  | nil => rfl
  | cons entry signals ih =>
    rw [List.foldl_cons, ih]
    rfl

/-- Only `Start` sets the flag, and no call clears it. -/
theorem isRun_run (s : SignalHandler) (c : Call) :
    (s.run results c).isRun = match c with
      | .start => true
      | _ => s.isRun := by
  cases c with
  | setSignalCaptureMode signals => exact isRun_setSignalCaptureMode s signals
  | stop => exact isRun_stopAllSignals s
  | start =>
    show s.start.isRun = true
    unfold SignalHandler.start
    split
    · assumption
    · rfl
  | registerCallback null =>
    show (s.registerCallback null).isRun = s.isRun
    unfold SignalHandler.registerCallback
    split <;> rfl

theorem isRun_foldl_run {s : SignalHandler} (h : s.isRun = true) (calls : List Call) :
    (calls.foldl (SignalHandler.run results) s).isRun = true := by
  induction calls generalizing s with
  | nil => exact h
  | cons c calls ih =>
    refine ih ?_
    rw [isRun_run]
    split
    · rfl
    · exact h

theorem isRun_onSignal {s : SignalHandler} (h : s.isRun = true) (handle : Handle)
    (calls : List Call) : (s.onSignal results handle calls).isRun = true := by
  unfold SignalHandler.onSignal SignalHandler.uvSignalStop
  dsimp only
  split
  · exact isRun_foldl_run h calls
  · exact h

/-- `is_run_` says that the thread was created. -/
def Consistent (m : Monitor) : Prop := m.handler.isRun = true ↔ m.thread ≠ .notStarted

/-- What each event needs, and what it does to the thread and to the flag. -/
theorem step_cases {e : Event} (hm : m.Consistent) (h : step results m e = some m') :
    (∃ c, e = .call c ∧ m'.handler = m.handler.run results c ∧
        m'.stopRequested = m.stopRequested ∧
        ((m'.thread = m.thread ∧ (c = .start → m.thread ≠ .notStarted)) ∨
          (c = .start ∧ m.thread = .notStarted ∧ m'.thread = .running))) ∨
      (∃ handle calls, e = .deliver handle calls ∧ m.thread = .running ∧
        active m.handler.log handle = true ∧
        m' = { m with handler := m.handler.onSignal results handle calls, stopRequested := true }) ∨
      (e = .loopReturns ∧ m.thread = .running ∧ m.LoopDone ∧
        m' = { m with thread := .returned, stopRequested := false }) ∨
      (e = .join ∧ ((m.thread = .returned ∧ m' = { m with thread := .joined }) ∨
        (m.thread ≠ .running ∧ m.thread ≠ .returned ∧ m' = m))) := by
  cases e with
  | call c =>
    obtain rfl := Option.some.inj h
    refine Or.inl ⟨c, rfl, rfl, rfl, ?_⟩
    cases c with
    | start =>
      by_cases hrun : m.handler.isRun = true
      · exact Or.inl ⟨by simp [call, hrun], fun _ => hm.1 hrun⟩
      · have hthread : m.thread = .notStarted := by
          by_contra hne
          exact hrun (hm.2 hne)
        exact Or.inr ⟨rfl, hthread, by simp [call, hrun]⟩
    | setSignalCaptureMode signals => exact Or.inl ⟨rfl, by simp⟩
    | stop => exact Or.inl ⟨rfl, by simp⟩
    | registerCallback null => exact Or.inl ⟨rfl, by simp⟩
  | deliver handle calls =>
    rw [step] at h
    split at h
    · rename_i hcond
      exact Or.inr (Or.inl
        ⟨handle, calls, rfl, hcond.1, hcond.2, (Option.some.inj h).symm⟩)
    · cases h
  | loopReturns =>
    rw [step] at h
    split at h
    · rename_i hcond
      exact Or.inr (Or.inr (Or.inl ⟨rfl, hcond.1, hcond.2, (Option.some.inj h).symm⟩))
    · cases h
  | join =>
    refine Or.inr (Or.inr (Or.inr ⟨rfl, ?_⟩))
    rw [step] at h
    cases hthread : m.thread with
    | running =>
      rw [hthread] at h
      cases h
    | returned =>
      rw [hthread] at h
      exact Or.inl ⟨rfl, (Option.some.inj h).symm⟩
    | notStarted =>
      rw [hthread] at h
      exact Or.inr ⟨by simp, by simp, (Option.some.inj h).symm⟩
    | joined =>
      rw [hthread] at h
      exact Or.inr ⟨by simp, by simp, (Option.some.inj h).symm⟩

theorem keeps_consistent : StepRun.Keeps (step results) Consistent := by
  intro m e m' hm h
  have hiff : m.handler.isRun = true ↔ m.thread ≠ .notStarted := hm
  obtain ⟨c, rfl, hhandler, -, hthread⟩ | ⟨handle, calls, rfl, hrunning, -, rfl⟩ |
    ⟨rfl, hrunning, -, rfl⟩ | ⟨rfl, ⟨hreturned, rfl⟩ | ⟨-, -, rfl⟩⟩ := step_cases hm h
  · show m'.handler.isRun = true ↔ _
    rw [hhandler, isRun_run]
    rcases hthread with ⟨hsame, hstart⟩ | ⟨rfl, -, hnew⟩
    · rw [hsame]
      split
      · simp [hstart rfl]
      · exact hiff
    · simp [hnew]
  · have hrun : m.handler.isRun = true := hiff.2 (by simp [hrunning])
    simp [Consistent, isRun_onSignal hrun, hrunning]
  · have hrun : m.handler.isRun = true := hiff.2 (by simp [hrunning])
    simp [Consistent, hrun]
  · have hrun : m.handler.isRun = true := hiff.2 (by simp [hreturned])
    simp [Consistent, hrun]
  · exact hm

theorem consistent_construct : (construct results).Consistent := by
  have hrun : (SignalHandler.construct results).isRun = false := by
    unfold SignalHandler.construct SignalHandler.initializeDefaultSignals
    dsimp only
    rw [isRun_startSignal, isRun_startSignal, isRun_initializeSignal, isRun_initializeSignal]
  simp [Consistent, construct, hrun]

/-! ## Runs -/

section Run

variable {events : List Event}

/-- A run of the monitor is a run of its handler. -/
theorem run_handler (hm : m.Consistent) (h : StepRun.run (step results) m events = some m') :
    StepRun.run (SignalHandler.step results) m.handler (events.filterMap Event.op) =
      some m'.handler := by
  induction events generalizing m with
  | nil =>
    obtain rfl := Option.some.inj h
    rfl
  | cons e events ih =>
    rw [StepRun.run_cons, Option.bind_eq_some_iff] at h
    obtain ⟨m₁, hstep, hrest⟩ := h
    have hrun := ih (keeps_consistent m e m₁ hm hstep) hrest
    obtain ⟨c, rfl, hhandler, -, -⟩ | ⟨handle, calls, rfl, -, hactive, rfl⟩ | ⟨rfl, -, -, rfl⟩ |
      ⟨rfl, ⟨-, rfl⟩ | ⟨-, -, rfl⟩⟩ := step_cases hm hstep
    · have hop : Event.op (.call c) = some (.call c) := rfl
      rw [List.filterMap_cons_some hop, StepRun.run_cons, SignalHandler.step, ← hhandler]
      exact hrun
    · have hop : Event.op (.deliver handle calls) = some (.deliver handle calls) := rfl
      rw [List.filterMap_cons_some hop, StepRun.run_cons, SignalHandler.step, if_pos hactive]
      exact hrun
    · exact hrun
    · exact hrun
    · exact hrun

/-- The thread is there once `Start` was called. -/
theorem thread_run_notStarted (hm : m.Consistent)
    (h : StepRun.run (step results) m events = some m') :
    m'.thread = .notStarted ↔ m.thread = .notStarted ∧ Event.call .start ∉ events := by
  induction events generalizing m with
  | nil =>
    obtain rfl := Option.some.inj h
    simp
  | cons e events ih =>
    rw [StepRun.run_cons, Option.bind_eq_some_iff] at h
    obtain ⟨m₁, hstep, hrest⟩ := h
    rw [ih (keeps_consistent m e m₁ hm hstep) hrest]
    obtain ⟨c, rfl, -, -, ⟨hsame, hstart⟩ | ⟨rfl, hnot, hnew⟩⟩ |
      ⟨handle, calls, rfl, hrunning, -, rfl⟩ |
      ⟨rfl, hrunning, -, rfl⟩ | ⟨rfl, ⟨hreturned, rfl⟩ | ⟨-, -, rfl⟩⟩ := step_cases hm hstep
    · rw [hsame, List.mem_cons, not_or]
      refine and_congr_right fun hthread => (and_iff_right ?_).symm
      intro heq
      exact hstart (Event.call.inj heq).symm hthread
    · simp [hnew]
    · simp [hrunning]
    · simp [hrunning]
    · simp [hreturned]
    · simp

/-- The thread is joined by a `Join` after the loop has returned. -/
theorem thread_run_joined (hm : m.Consistent)
    (h : StepRun.run (step results) m events = some m') :
    m'.thread = .joined ↔ m.thread = .joined ∨ (m.thread = .returned ∧ Event.join ∈ events) ∨
      [Event.loopReturns, Event.join].Sublist events := by
  induction events generalizing m with
  | nil =>
    obtain rfl := Option.some.inj h
    simp
  | cons e events ih =>
    rw [StepRun.run_cons, Option.bind_eq_some_iff] at h
    obtain ⟨m₁, hstep, hrest⟩ := h
    rw [ih (keeps_consistent m e m₁ hm hstep) hrest, List.sublist_cons_iff, List.mem_cons]
    obtain ⟨c, rfl, -, -, ⟨hsame, -⟩ | ⟨rfl, hnot, hnew⟩⟩ | ⟨handle, calls, rfl, hrunning, -, rfl⟩ |
      ⟨rfl, hrunning, -, rfl⟩ | ⟨rfl, ⟨hreturned, rfl⟩ | ⟨hnrun, hnret, rfl⟩⟩ := step_cases hm hstep
    · simp [hsame]
    · simp [hnot, hnew]
    · simp [hrunning]
    · simp [hrunning, or_comm]
    · simp [hreturned]
    · simp [hnret]

/-! ### The stop flag -/

/-- The loop was asked to stop, or has returned. -/
def Stopping (m : Monitor) : Prop :=
  m.stopRequested = true ∨ m.thread = .returned ∨ m.thread = .joined

theorem keeps_stopping : StepRun.Keeps (step results) fun m => m.Consistent ∧ m.Stopping := by
  rintro m e m' ⟨hm, hstop⟩ h
  refine ⟨keeps_consistent m e m' hm h, ?_⟩
  obtain ⟨c, rfl, -, hflag, ⟨hsame, -⟩ | ⟨rfl, hnot, hnew⟩⟩ |
    ⟨handle, calls, rfl, hrunning, -, rfl⟩ |
    ⟨rfl, hrunning, -, rfl⟩ | ⟨rfl, ⟨hreturned, rfl⟩ | ⟨-, -, rfl⟩⟩ := step_cases hm h
  · rwa [Stopping, hflag, hsame]
  · exact Or.inl (by simpa [Stopping, hnot, hflag] using hstop)
  · exact Or.inl rfl
  · exact Or.inr (Or.inl rfl)
  · exact Or.inr (Or.inr rfl)
  · exact hstop

/-- Some signal was delivered. -/
def Delivered (events : List Event) : Prop := ∃ handle calls, Event.deliver handle calls ∈ events

theorem stopping_of_delivered (hm : m.Consistent)
    (h : StepRun.run (step results) m events = some m') (hdel : Delivered events) :
    m'.Stopping := by
  induction events generalizing m with
  | nil => obtain ⟨handle, calls, hmem⟩ := hdel; cases hmem
  | cons e events ih =>
    rw [StepRun.run_cons, Option.bind_eq_some_iff] at h
    obtain ⟨m₁, hstep, hrest⟩ := h
    have hm₁ := keeps_consistent m e m₁ hm hstep
    obtain ⟨handle, calls, hmem⟩ := hdel
    rcases List.mem_cons.1 hmem with rfl | hmem
    · have hstop : m₁.Stopping := by
        obtain ⟨c, hc, -⟩ | ⟨_, _, -, -, -, rfl⟩ | ⟨hc, -⟩ | ⟨hc, -⟩ := step_cases hm hstep
        · cases hc
        · exact Or.inl rfl
        · cases hc
        · cases hc
      exact (StepRun.run_invariant keeps_stopping ⟨hm₁, hstop⟩ hrest).2
    · exact ih hm₁ hrest ⟨handle, calls, hmem⟩

theorem not_delivered_cons {e : Event} (h : ¬ Delivered (e :: events)) :
    (∀ handle calls, e ≠ .deliver handle calls) ∧ ¬ Delivered events :=
  ⟨fun handle calls he => h ⟨handle, calls, he ▸ List.mem_cons_self⟩,
    fun ⟨handle, calls, hmem⟩ => h ⟨handle, calls, List.mem_cons_of_mem _ hmem⟩⟩

/-! ### Without a delivery -/

/-- Nothing asked the loop to stop, and nothing stopped a handle. -/
structure Undisturbed (m : Monitor) : Prop where
  consistent : m.Consistent
  unwatched : SignalHandler.Unwatched m.handler
  flag : m.stopRequested = false
  not_stopped : ∀ handle, UvCall.stop handle ∉ m.handler.log

theorem stop_not_mem_captureCalls (i : Nat) (handles : List Handle) (handle : Handle) :
    UvCall.stop handle ∉ SignalHandler.captureCalls results i handles := by
  induction handles generalizing i with
  | nil => simp [SignalHandler.captureCalls]
  | cons h handles ih => simp [SignalHandler.captureCalls, ih]

theorem undisturbed_construct : (construct results).Undisturbed where
  consistent := consistent_construct
  unwatched := SignalHandler.unwatched_construct
  flag := rfl
  not_stopped handle := by
    show UvCall.stop handle ∉ (SignalHandler.construct results).log
    rw [SignalHandler.log_construct]
    simp

theorem Undisturbed.run (hm : m.Undisturbed) (h : StepRun.run (step results) m events = some m')
    (hdel : ¬ Delivered events) : m'.Undisturbed := by
  induction events generalizing m with
  | nil =>
    obtain rfl := Option.some.inj h
    exact hm
  | cons e events ih =>
    rw [StepRun.run_cons, Option.bind_eq_some_iff] at h
    obtain ⟨m₁, hstep, hrest⟩ := h
    obtain ⟨hhead, htail⟩ := not_delivered_cons hdel
    have hm₁ := keeps_consistent m e m₁ hm.consistent hstep
    refine ih ?_ hrest htail
    obtain ⟨c, rfl, hhandler, hflag, -⟩ | ⟨handle, calls, he, -⟩ | ⟨-, -, -, rfl⟩ |
      ⟨-, ⟨-, rfl⟩ | ⟨-, -, rfl⟩⟩ := step_cases hm.consistent hstep
    · refine ⟨hm₁, ?_, hflag.trans hm.flag, fun handle => ?_⟩
      · rw [hhandler]
        exact hm.unwatched.run c
      · rw [hhandler, SignalHandler.log_run hm.unwatched, List.mem_append, not_or]
        exact ⟨hm.not_stopped handle, stop_not_mem_captureCalls _ _ handle⟩
    · exact absurd he (hhead handle calls)
    · exact ⟨hm₁, hm.unwatched, rfl, hm.not_stopped⟩
    · exact ⟨hm₁, hm.unwatched, hm.flag, hm.not_stopped⟩
    · exact hm

/-- A handle that was started and never stopped is active. -/
theorem active_of_start {log : List UvCall} {handle : Handle}
    (hstop : UvCall.stop handle ∉ log) (hclose : UvCall.close handle ∉ log)
    (hstart : UvCall.start handle true ∈ log) : active log handle = true := by
  have hkeep : ∀ after : List UvCall, UvCall.stop handle ∉ after → UvCall.close handle ∉ after →
      after.foldl (UvCall.effect handle) true = true := by
    intro after
    induction after with
    | nil => exact fun _ _ => rfl
    | cons c after ih =>
      intro hs hc
      rw [List.mem_cons, not_or] at hs hc
      have hc' : UvCall.effect handle true c = true := by
        cases c with
        | init h ok => rfl
        | start h ok => cases ok <;> simp [UvCall.effect]
        | stop h =>
          have hne : h ≠ handle := fun heq => hs.1 (by rw [heq])
          simp [UvCall.effect, hne]
        | close h =>
          have hne : h ≠ handle := fun heq => hc.1 (by rw [heq])
          simp [UvCall.effect, hne]
      rw [List.foldl_cons, hc']
      exact ih hs.2 hc.2
  obtain ⟨before, after, rfl⟩ := List.append_of_mem hstart
  rw [List.mem_append, not_or, List.mem_cons, not_or] at hstop hclose
  rw [active, List.foldl_append, List.foldl_cons]
  have hhead : UvCall.effect handle (before.foldl (UvCall.effect handle) false)
      (.start handle true) = true := by simp [UvCall.effect]
  rw [hhead]
  exact hkeep after hstop.2.2 hclose.2.2

/-- Without a delivery the handles that were started are the active ones. -/
theorem Undisturbed.inactive_iff (hm : m.Undisturbed) :
    (∀ handle, active m.handler.log handle = false) ↔
      ∀ handle, UvCall.start handle true ∉ m.handler.log := by
  refine forall_congr' fun handle => ⟨fun hinactive hmem => ?_, SignalHandler.active_eq_false⟩
  have hactive := active_of_start (hm.not_stopped handle) (hm.unwatched.not_closed handle) hmem
  rw [hinactive] at hactive
  cases hactive

/-! ### The loop and the destructor -/

/-- A run of a handler starts nothing exactly if libuv refused every start. -/
theorem not_started_iff {ops : List Op} {s : SignalHandler}
    (hrun : StepRun.run (SignalHandler.step results) (SignalHandler.construct results) ops =
      some s) :
    (∀ handle, UvCall.start handle true ∉ s.log) ↔ SignalHandler.RefusesStarts results ops := by
  have hlength : (SignalHandler.construct results).log.length = 4 := by
    rw [SignalHandler.log_construct]
    rfl
  have hextends : (SignalHandler.construct results).log <+: s.log :=
    (StepRun.run_invariant (SignalHandler.keeps_log _)
      ⟨SignalHandler.unwatched_construct, List.prefix_refl _⟩ hrun).2
  have hcaptured : (∀ handle, UvCall.start handle true ∉ (SignalHandler.construct results).log) →
      ((∀ handle, UvCall.start handle true ∉ s.log) ↔
        ∀ j < (ops.flatMap Op.handles).length, results (4 + 2 * j + 1) = false) := by
    intro hconstruct
    rw [SignalHandler.start_not_mem_run_iff SignalHandler.unwatched_construct hconstruct hrun,
      hlength, SignalHandler.start_not_mem_captureCalls_iff]
  constructor
  · intro hnone
    have hconstruct : ∀ handle,
        UvCall.start handle true ∉ (SignalHandler.construct results).log :=
      fun handle hmem => hnone handle (hextends.subset hmem)
    obtain ⟨hsigint, hsigterm⟩ := SignalHandler.start_not_mem_construct_iff.1 hconstruct
    exact ⟨hsigint, hsigterm, (hcaptured hconstruct).1 hnone⟩
  · intro hrefuses
    exact (hcaptured (SignalHandler.start_not_mem_construct_iff.2
      ⟨hrefuses.sigint, hrefuses.sigterm⟩)).2 hrefuses.captured

/-- The loop of a running thread is done exactly if a signal has been delivered, or libuv
refused every start. -/
theorem loopDone_iff (hrun : StepRun.run (step results) (construct results) events = some m)
    (hthread : m.thread = .running) :
    m.LoopDone ↔
      Delivered events ∨ SignalHandler.RefusesStarts results (events.filterMap Event.op) := by
  rw [← not_started_iff (run_handler consistent_construct hrun)]
  constructor
  · intro hloop
    by_cases hdel : Delivered events
    · exact Or.inl hdel
    · have hm := undisturbed_construct.run hrun hdel
      refine Or.inr (hm.inactive_iff.1 (hloop.resolve_left ?_))
      simp [hm.flag]
  · rintro (hdel | hnone)
    · have hstop := stopping_of_delivered consistent_construct hrun hdel
      have hflag : m.stopRequested = true := by simpa [Stopping, hthread] using hstop
      exact Or.inl hflag
    · exact Or.inr fun handle => SignalHandler.active_eq_false (hnone handle)

/-- `uv_run` of a started handler can return exactly if a signal has been delivered, or
libuv refused every start. -/
theorem loopReturns_iff (results : Nat → Bool) (events : List Event) (m : Monitor)
    (hrun : StepRun.run (step results) (construct results) events = some m)
    (hthread : m.thread = .running) :
    (∃ m', step results m .loopReturns = some m') ↔
      Delivered events ∨ SignalHandler.RefusesStarts results (events.filterMap Event.op) := by
  rw [← loopDone_iff hrun hthread, step]
  by_cases hloop : m.LoopDone
  · simp [hthread, hloop]
  · simp [hloop]

/-- `Start` and then `Stop`. -/
def startAndStop : List Event := [.call (.registerCallback false), .call .start, .call .stop]

/-- The loop goes on. -/
theorem startAndStop_runs_on :
    ∃ m, StepRun.run (step fun _ => true) (construct fun _ => true) startAndStop = some m ∧
      ¬ ∃ m', step (fun _ => true) m .loopReturns = some m' := by
  refine ⟨_, rfl, fun hreturns => ?_⟩
  rcases (loopReturns_iff (fun _ => true) startAndStop _ rfl rfl).1 hreturns with hdel | hrefuses
  · obtain ⟨_, _, hmem⟩ := hdel
    simp [startAndStop] at hmem
  · exact absurd hrefuses.sigint (by decide)

/-- The destructor leaves the program running exactly if the handler was never started, or
was joined after its loop had returned. -/
theorem destroysSafely_iff
    (hrun : StepRun.run (step results) (construct results) events = some m) :
    m.DestroysSafely ↔
      Event.call .start ∉ events ∨ [Event.loopReturns, Event.join].Sublist events := by
  rw [DestroysSafely, thread_run_notStarted consistent_construct hrun,
    thread_run_joined consistent_construct hrun]
  simp [construct]

/-- Where the loop returns, a signal was delivered before, or libuv refused both default
signals. -/
theorem delivered_of_loopReturns (hmem : Event.loopReturns ∈ events)
    (hrun : StepRun.run (step results) (construct results) events = some m) :
    Delivered events ∨ (results 2 = false ∧ results 3 = false) := by
  obtain ⟨before, after, rfl⟩ := List.append_of_mem hmem
  rw [StepRun.run_append, Option.bind_eq_some_iff] at hrun
  obtain ⟨m₁, hbefore, hrest⟩ := hrun
  rw [StepRun.run_cons, Option.bind_eq_some_iff] at hrest
  obtain ⟨m₂, hstep, -⟩ := hrest
  have hm₁ : m₁.Consistent := StepRun.run_invariant keeps_consistent consistent_construct hbefore
  obtain ⟨_, he, -⟩ | ⟨_, _, he, -⟩ | ⟨-, hrunning, hdone, -⟩ | ⟨he, -⟩ := step_cases hm₁ hstep
  · cases he
  · cases he
  · rcases (loopDone_iff hbefore hrunning).1 hdone with ⟨handle, calls, hdel⟩ | hrefuses
    · exact Or.inl ⟨handle, calls, List.mem_append_left _ hdel⟩
    · exact Or.inr ⟨hrefuses.sigint, hrefuses.sigterm⟩
  · cases he

/-- A handler that was started and is destroyed without ending the program was joined after
its loop had returned, and it has handled a signal, unless libuv refused both default
signals. -/
theorem destroysSafely_after_start (results : Nat → Bool) (events : List Event) (m : Monitor)
    (hrun : StepRun.run (step results) (construct results) events = some m)
    (hstart : Event.call .start ∈ events) (hsafe : m.DestroysSafely) :
    [Event.loopReturns, Event.join].Sublist events ∧
      (Delivered events ∨ (results 2 = false ∧ results 3 = false)) := by
  have hjoined := ((destroysSafely_iff hrun).1 hsafe).resolve_left fun hno => hno hstart
  exact ⟨hjoined, delivered_of_loopReturns (hjoined.subset List.mem_cons_self) hrun⟩

/-- A handler that is started, gets `SIGINT`, and is joined. -/
theorem interrupted_destroysSafely :
    let events : List Event := [.call (.registerCallback false), .call .start,
      .deliver .sigint [.stop], .loopReturns, .join]
    [Event.loopReturns, Event.join].Sublist events ∧
      (Delivered events ∨ ((fun _ : Nat => true) 2 = false ∧ (fun _ : Nat => true) 3 = false)) :=
  destroysSafely_after_start (fun _ => true) _ _ rfl
    (List.mem_cons_of_mem _ List.mem_cons_self) (Or.inr rfl)

end Run

end Monitor

end Piconaut.Sys
