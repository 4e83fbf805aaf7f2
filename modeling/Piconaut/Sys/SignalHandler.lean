import Piconaut.Lib.StepRun

/-!
# `piconaut::sys::SignalHandler`

The handler embeds ten `uv_signal_t` handles and drives them through libuv.  The model
records every libuv call in a log, with its result where the code looks at it.  Which
calls succeed is an argument, `results`.  A handle is active from a successful
`uv_signal_start` to a `uv_signal_stop` or a `uv_close`.

A run is any sequence of calls of the public members and of signals that libuv delivers
to active handles.  While `OnSignal` runs, the callback may make calls of its own; it
is known only by these.  The event loop, its thread and the messages are left out.

`StopsAll` is what a program relies on after `Stop` or destruction.  Both iterate over
`signals_`, which no member ever fills (`Unwatched`, kept by every step), so they make no
libuv call at all.  `stopsAll_iff`: all handles are stopped and closed exactly if libuv
refused every start of the run (`RefusesStarts`), so that there was nothing to stop.
-/

namespace Piconaut.Sys

/-! ## Signals and handles -/

/-- `enum class SignalType`, with the values that no enumerator names. -/
inductive SignalType where
  | sigint
  | sigterm
  | sighup
  | sigquit
  | sigusr1
  | sigusr2
  | sigabrt
  | sigfpe
  | sigill
  | sigsegv
  | other (signum : Int32)
  deriving DecidableEq

/-- The embedded `uv_signal_t`s. -/
inductive Handle where
  | sigint
  | sigterm
  | sighup
  | sigquit
  | sigusr1
  | sigusr2
  | sigabrt
  | sigfpe
  | sigill
  | sigsegv
  deriving DecidableEq

/-- `SignalHandler::GetSignalHandle`. -/
def getSignalHandle : SignalType → Option Handle
  | .sigint => some .sigint
  | .sigterm => some .sigterm
  | .sighup => some .sighup
  | .sigquit => some .sigquit
  | .sigusr1 => some .sigusr1
  | .sigusr2 => some .sigusr2
  | .sigabrt => some .sigabrt
  | .sigfpe => some .sigfpe
  | .sigill => some .sigill
  | .sigsegv => some .sigsegv
  | .other _ => none

/-- A call of libuv, with its result if the code looks at it. -/
inductive UvCall where
  | init (handle : Handle) (ok : Bool)
  | start (handle : Handle) (ok : Bool)
  | stop (handle : Handle)
  | close (handle : Handle)
  deriving DecidableEq

/-- The effect of a call on whether `handle` is active. -/
def UvCall.effect (handle : Handle) (active : Bool) : UvCall → Bool
  | .start h true => if h = handle then true else active
  | .stop h | .close h => if h = handle then false else active
  | .init _ _ | .start _ false => active

/-- The handle is active after the calls. -/
def active (log : List UvCall) (handle : Handle) : Bool :=
  log.foldl (UvCall.effect handle) false

/-! ## The handler -/

/-- `class SignalHandler`.  `callback` says that `callback_` is not null, `data` lists the
handles whose `data` is this object, and `log` has the libuv calls so far. -/
structure SignalHandler where
  callback : Bool := false
  signals : List (SignalType × Handle) := []
  isRun : Bool := false
  data : List Handle := []
  log : List UvCall := []

namespace SignalHandler

variable (results : Nat → Bool)

/-- `uv_signal_init(loop_, handle)`. -/
def uvSignalInit (s : SignalHandler) (handle : Handle) : Bool × SignalHandler :=
  let ok := results s.log.length
  (ok, { s with log := s.log ++ [.init handle ok] })

/-- `uv_signal_start(handle, OnSignal, signum)`. -/
def uvSignalStart (s : SignalHandler) (handle : Handle) : Bool × SignalHandler :=
  let ok := results s.log.length
  (ok, { s with log := s.log ++ [.start handle ok] })

/-- `uv_signal_stop(handle)`. -/
def uvSignalStop (s : SignalHandler) (handle : Handle) : SignalHandler :=
  { s with log := s.log ++ [.stop handle] }

/-- `uv_close(handle, nullptr)`. -/
def uvClose (s : SignalHandler) (handle : Handle) : SignalHandler :=
  { s with log := s.log ++ [.close handle] }

/-- `SignalHandler::InitializeSignal`. -/
def initializeSignal (s : SignalHandler) (signum : SignalType) : SignalHandler :=
  match getSignalHandle signum with
  | none => s
  | some handle =>
    let (ok, s) := s.uvSignalInit results handle
    if ok then { s with data := handle :: s.data } else s

/-- `SignalHandler::StartSignal`. -/
def startSignal (s : SignalHandler) (signum : SignalType) : SignalHandler :=
  match getSignalHandle signum with
  | none => s
  | some handle => (s.uvSignalStart results handle).2

/-- `SignalHandler::InitializeDefaultSignals`. -/
def initializeDefaultSignals (s : SignalHandler) : SignalHandler :=
  let s := s.initializeSignal results .sigint
  let s := s.initializeSignal results .sigterm
  let s := s.startSignal results .sigint
  s.startSignal results .sigterm

/-- `SignalHandler::SignalHandler()`. -/
def construct : SignalHandler := initializeDefaultSignals results {}

/-- `SignalHandler::SetSignalCaptureMode`. -/
def setSignalCaptureMode (s : SignalHandler) (signals : List SignalType) : SignalHandler :=
  signals.foldl (fun s signum => (s.initializeSignal results signum).startSignal results signum) s

/-- `SignalHandler::StopAllSignals`, which is also `Stop` and the destructor. -/
def stopAllSignals (s : SignalHandler) : SignalHandler :=
  s.signals.foldl (fun s entry => (s.uvSignalStop entry.2).uvClose entry.2) s

/-- `SignalHandler::Start`. -/
def start (s : SignalHandler) : SignalHandler :=
  if s.isRun then s else { s with isRun := true }

/-- `SignalHandler::RegisterCallback`, with a null callback or another one. -/
def registerCallback (s : SignalHandler) (null : Bool) : SignalHandler :=
  if null then s else { s with callback := true }

end SignalHandler

/-- A call of a public member. -/
inductive Call where
  | setSignalCaptureMode (signals : List SignalType)
  | start
  | stop
  | registerCallback (null : Bool)

/-- What happens to a handler: a call, or a signal on a handle, with the calls that the
callback makes if it runs. -/
inductive Op where
  | call (c : Call)
  | deliver (handle : Handle) (calls : List Call)

/-- The handles that a call asks libuv to watch. -/
def Call.handles : Call → List Handle
  | .setSignalCaptureMode signals => signals.filterMap getSignalHandle
  | .start | .stop | .registerCallback _ => []

/-- The handles that an operation asks libuv to watch, the callback apart. -/
def Op.handles : Op → List Handle
  | .call c => c.handles
  | .deliver _ _ => []

namespace SignalHandler

variable (results : Nat → Bool)

/-- What a call does. -/
def run (s : SignalHandler) : Call → SignalHandler
  | .setSignalCaptureMode signals => s.setSignalCaptureMode results signals
  | .start => s.start
  | .stop => s.stopAllSignals
  | .registerCallback null => s.registerCallback null

/-- `SignalHandler::OnSignal`. -/
def onSignal (s : SignalHandler) (handle : Handle) (calls : List Call) : SignalHandler :=
  let s := if handle ∈ s.data ∧ s.callback then calls.foldl (run results) s else s
  s.uvSignalStop handle

/-- One operation.  Only an active handle delivers a signal. -/
def step (s : SignalHandler) : Op → Option SignalHandler
  | .call c => some (s.run results c)
  | .deliver handle calls =>
    if active s.log handle then some (s.onSignal results handle calls) else none

/-- Every handle that was started is later stopped, and closed once; in the end none is
active; and no handle is initialized or started while it is active. -/
structure StopsAll (log : List UvCall) : Prop where
  closed : ∀ before handle after, log = before ++ .start handle true :: after →
    UvCall.stop handle ∈ after ∧ after.count (.close handle) = 1
  inactive : ∀ handle, active log handle = false
  fresh : ∀ before handle ok after,
    (log = before ++ .init handle ok :: after ∨ log = before ++ .start handle ok :: after) →
      active before handle = false

/-- libuv refuses every `uv_signal_start`.  The two of the constructor are its calls 2 and
3; a captured signal is one `uv_signal_init` and then one `uv_signal_start`, and before a
start has succeeded there are no other calls. -/
structure RefusesStarts (ops : List Op) : Prop where
  sigint : results 2 = false
  sigterm : results 3 = false
  captured : ∀ j < (ops.flatMap Op.handles).length, results (4 + 2 * j + 1) = false

/-! ## Nothing is watched -/

/-- The map `signals_` is empty, and nothing was closed. -/
structure Unwatched (s : SignalHandler) : Prop where
  signals : s.signals = []
  not_closed : ∀ handle, UvCall.close handle ∉ s.log

variable {results} {s : SignalHandler}

/-- A libuv call that closes nothing keeps it so. -/
theorem Unwatched.log_append (h : Unwatched s) {c : UvCall} (hc : ∀ handle, c ≠ .close handle) :
    Unwatched { s with log := s.log ++ [c] } where
  signals := h.signals
  not_closed handle hmem := by
    rcases List.mem_append.1 hmem with hmem | hmem
    · exact h.not_closed handle hmem
    · exact hc handle (List.mem_singleton.1 hmem).symm

theorem Unwatched.uvSignalStop (h : Unwatched s) (handle : Handle) :
    Unwatched (s.uvSignalStop handle) := h.log_append (by simp)

theorem Unwatched.initializeSignal (h : Unwatched s) (signum : SignalType) :
    Unwatched (s.initializeSignal results signum) := by
  unfold SignalHandler.initializeSignal
  cases getSignalHandle signum with
  | none => exact h
  | some handle =>
    have hinit : Unwatched (s.uvSignalInit results handle).2 := h.log_append (by simp)
    dsimp only
    split
    · exact ⟨hinit.signals, hinit.not_closed⟩
    · exact hinit

theorem Unwatched.startSignal (h : Unwatched s) (signum : SignalType) :
    Unwatched (s.startSignal results signum) := by
  unfold SignalHandler.startSignal
  cases getSignalHandle signum with
  | none => exact h
  | some handle => exact h.log_append (by simp)

theorem Unwatched.setSignalCaptureMode (h : Unwatched s) (signals : List SignalType) :
    Unwatched (s.setSignalCaptureMode results signals) := by
  unfold SignalHandler.setSignalCaptureMode
  induction signals generalizing s with
  | nil => exact h
  | cons signum signals ih => exact ih ((h.initializeSignal signum).startSignal signum)

/-- `StopAllSignals` does nothing. -/
theorem Unwatched.stopAllSignals_eq (h : Unwatched s) : s.stopAllSignals = s := by
  rw [SignalHandler.stopAllSignals, h.signals, List.foldl_nil]

theorem Unwatched.run (h : Unwatched s) (c : Call) : Unwatched (s.run results c) := by
  cases c with
  | setSignalCaptureMode signals => exact h.setSignalCaptureMode signals
  | start =>
    show Unwatched s.start
    unfold SignalHandler.start
    split
    · exact h
    · exact ⟨h.signals, h.not_closed⟩
  | stop =>
    show Unwatched s.stopAllSignals
    rw [h.stopAllSignals_eq]
    exact h
  | registerCallback null =>
    show Unwatched (s.registerCallback null)
    unfold SignalHandler.registerCallback
    split
    · exact h
    · exact ⟨h.signals, h.not_closed⟩

theorem Unwatched.foldl_run (h : Unwatched s) (calls : List Call) :
    Unwatched (calls.foldl (SignalHandler.run results) s) := by
  induction calls generalizing s with
  | nil => exact h
  | cons c calls ih => exact ih (h.run c)

theorem Unwatched.onSignal (h : Unwatched s) (handle : Handle) (calls : List Call) :
    Unwatched (s.onSignal results handle calls) := by
  unfold SignalHandler.onSignal
  dsimp only
  split
  · exact (h.foldl_run calls).uvSignalStop handle
  · exact h.uvSignalStop handle

/-- Every operation keeps the invariant. -/
theorem keeps_unwatched : StepRun.Keeps (step results) Unwatched := by
  intro s op s' h hstep
  cases op with
  | call c =>
    obtain rfl := Option.some.inj hstep
    exact h.run c
  | deliver handle calls =>
    rw [step] at hstep
    split at hstep
    · obtain rfl := Option.some.inj hstep
      exact h.onSignal handle calls
    · cases hstep

theorem unwatched_construct : Unwatched (construct results) :=
  have hempty : Unwatched {} := ⟨rfl, fun _ h => (by cases h)⟩
  (((hempty.initializeSignal .sigint).initializeSignal .sigterm).startSignal
    .sigint).startSignal .sigterm

/-! ## The calls of a run -/

/-- The calls that capture the handles, the first of them number `i` of the run. -/
def captureCalls (results : Nat → Bool) : Nat → List Handle → List UvCall
  | _, [] => []
  | i, handle :: handles =>
    .init handle (results i) :: .start handle (results (i + 1)) ::
      captureCalls results (i + 2) handles

theorem length_captureCalls (i : Nat) (handles : List Handle) :
    (captureCalls results i handles).length = 2 * handles.length := by
  induction handles generalizing i with
  | nil => rfl
  | cons handle handles ih =>
    simp only [captureCalls, List.length_cons, ih]
    omega

theorem captureCalls_append (i : Nat) (handles more : List Handle) :
    captureCalls results i (handles ++ more) =
      captureCalls results i handles ++
        captureCalls results (i + 2 * handles.length) more := by
  induction handles generalizing i with
  | nil => rfl
  | cons handle handles ih =>
    simp only [List.cons_append, captureCalls, ih, List.length_cons]
    rw [show i + 2 + 2 * handles.length = i + 2 * (handles.length + 1) by omega]

/-- No handle is started exactly if every second call is refused. -/
theorem start_not_mem_captureCalls_iff (i : Nat) (handles : List Handle) :
    (∀ handle, UvCall.start handle true ∉ captureCalls results i handles) ↔
      ∀ j < handles.length, results (i + 2 * j + 1) = false := by
  induction handles generalizing i with
  | nil => simp [captureCalls]
  | cons handle handles ih =>
    have hhead : (∀ h', UvCall.start h' true ∉ captureCalls results i (handle :: handles)) ↔
        results (i + 1) = false ∧
          ∀ h', UvCall.start h' true ∉ captureCalls results (i + 2) handles := by
      simp only [captureCalls, List.mem_cons, reduceCtorEq, false_or, not_or,
        UvCall.start.injEq]
      constructor
      · intro h
        exact ⟨by simpa using (h handle).1, fun h' => (h h').2⟩
      · intro h h'
        exact ⟨by simp [h.1], h.2 h'⟩
    rw [hhead, ih, List.length_cons, Nat.forall_lt_succ_left]
    simp only [Nat.mul_zero, Nat.add_zero]
    refine and_congr_right fun _ => forall₂_congr fun j _ => ?_
    rw [show i + 2 + 2 * j + 1 = i + 2 * (j + 1) + 1 by omega]

theorem log_initializeSignal {signum : SignalType} {handle : Handle}
    (h : getSignalHandle signum = some handle) :
    (s.initializeSignal results signum).log =
      s.log ++ [.init handle (results s.log.length)] := by
  unfold SignalHandler.initializeSignal
  rw [h]
  dsimp only [uvSignalInit]
  split <;> rfl

theorem log_startSignal {signum : SignalType} {handle : Handle}
    (h : getSignalHandle signum = some handle) :
    (s.startSignal results signum).log = s.log ++ [.start handle (results s.log.length)] := by
  unfold SignalHandler.startSignal
  rw [h]
  rfl

/-- `SetSignalCaptureMode` initializes and starts the handle of each signal that has one. -/
theorem log_setSignalCaptureMode (signals : List SignalType) :
    (s.setSignalCaptureMode results signals).log =
      s.log ++ captureCalls results s.log.length (signals.filterMap getSignalHandle) := by
  unfold SignalHandler.setSignalCaptureMode
  induction signals generalizing s with
  | nil => simp [captureCalls]
  | cons signum signals ih =>
    rw [List.foldl_cons, ih]
    cases hhandle : getSignalHandle signum with
    | none => simp [SignalHandler.initializeSignal, startSignal, hhandle]
    | some handle =>
      rw [log_startSignal hhandle, log_initializeSignal hhandle,
        List.filterMap_cons_some hhandle]
      simp [captureCalls]

theorem log_run (h : Unwatched s) (c : Call) :
    (s.run results c).log = s.log ++ captureCalls results s.log.length c.handles := by
  cases c with
  | setSignalCaptureMode signals => exact log_setSignalCaptureMode signals
  | start =>
    show s.start.log = s.log ++ []
    unfold SignalHandler.start
    split <;> simp
  | stop =>
    show s.stopAllSignals.log = s.log ++ []
    rw [h.stopAllSignals_eq, List.append_nil]
  | registerCallback null =>
    show (s.registerCallback null).log = s.log ++ []
    unfold SignalHandler.registerCallback
    split <;> simp

theorem log_foldl_run (h : Unwatched s) (calls : List Call) :
    s.log <+: (calls.foldl (SignalHandler.run results) s).log := by
  induction calls generalizing s with
  | nil => exact List.prefix_refl _
  | cons c calls ih =>
    have hfirst : s.log <+: (s.run results c).log := by
      rw [log_run h]
      exact List.prefix_append _ _
    exact hfirst.trans (ih (h.run c))

/-- An operation only adds calls to the log. -/
theorem keeps_log (log : List UvCall) :
    StepRun.Keeps (step results) fun s => Unwatched s ∧ log <+: s.log := by
  rintro s op s' ⟨h, hlog⟩ hstep
  refine ⟨keeps_unwatched s op s' h hstep, hlog.trans ?_⟩
  cases op with
  | call c =>
    obtain rfl := Option.some.inj hstep
    rw [log_run h]
    exact List.prefix_append _ _
  | deliver handle calls =>
    rw [step] at hstep
    split at hstep
    · obtain rfl := Option.some.inj hstep
      unfold SignalHandler.onSignal
      dsimp only
      split
      · exact (log_foldl_run h calls).trans (List.prefix_append _ _)
      · exact List.prefix_append _ _
    · cases hstep

/-! ## Stopping -/

/-- A handle that was never started is not active. -/
theorem active_eq_false {log : List UvCall} {handle : Handle}
    (h : UvCall.start handle true ∉ log) : active log handle = false := by
  have hfold : ∀ b, b = false → log.foldl (UvCall.effect handle) b = false := by
    induction log with
    | nil => exact fun b hb => hb
    | cons c log ih =>
      intro b hb
      rw [List.mem_cons, not_or] at h
      refine ih h.2 _ ?_
      subst hb
      cases c with
      | init h' ok => rfl
      | stop h' => simp [UvCall.effect]
      | close h' => simp [UvCall.effect]
      | start h' ok =>
        cases ok with
        | false => rfl
        | true =>
          have hne : h' ≠ handle := by
            rintro rfl
            exact h.1 rfl
          simp [UvCall.effect, hne]
  exact hfold false rfl

/-- After `Stop`, all handles are stopped and closed exactly if none was ever started. -/
theorem Unwatched.stopsAll_iff_not_started (h : Unwatched s) :
    StopsAll s.stopAllSignals.log ↔ ∀ handle, UvCall.start handle true ∉ s.log := by
  rw [h.stopAllSignals_eq]
  constructor
  · intro hstops handle hmem
    obtain ⟨before, after, hlog⟩ := List.append_of_mem hmem
    have hcount := (hstops.closed before handle after hlog).2
    have hzero : after.count (.close handle) = 0 := by
      rw [List.count_eq_zero]
      intro hclose
      refine h.not_closed handle ?_
      rw [hlog]
      exact List.mem_append_right _ (List.mem_cons_of_mem _ hclose)
    rw [hzero] at hcount
    cases hcount
  · intro hnone
    refine ⟨fun before handle after hlog => ?_, fun handle => active_eq_false (hnone handle),
      fun before handle ok after hlog => active_eq_false fun hmem => hnone handle ?_⟩
    · refine absurd ?_ (hnone handle)
      rw [hlog]
      exact List.mem_append_right _ List.mem_cons_self
    · rcases hlog with hlog | hlog
      · rw [hlog]
        exact List.mem_append_left _ hmem
      · rw [hlog]
        exact List.mem_append_left _ hmem

/-- A run starts no handle exactly if no capture of its calls does: as long as none is
active, no signal is delivered. -/
theorem start_not_mem_run_iff {ops : List Op} {s' : SignalHandler} (h : Unwatched s)
    (hnone : ∀ handle, UvCall.start handle true ∉ s.log)
    (hrun : StepRun.run (step results) s ops = some s') :
    (∀ handle, UvCall.start handle true ∉ s'.log) ↔
      ∀ handle, UvCall.start handle true ∉
        captureCalls results s.log.length (ops.flatMap Op.handles) := by
  induction ops generalizing s with
  | nil =>
    obtain rfl : s = s' := Option.some.inj hrun
    simp [captureCalls, hnone]
  | cons op ops ih =>
    rw [StepRun.run_cons, Option.bind_eq_some_iff] at hrun
    obtain ⟨t, ht, hrest⟩ := hrun
    cases op with
    | deliver handle calls =>
      rw [step, active_eq_false (hnone handle)] at ht
      cases ht
    | call c =>
      obtain rfl : s.run results c = t := Option.some.inj ht
      have hlog : (s.run results c).log =
          s.log ++ captureCalls results s.log.length c.handles := log_run h c
      have hextends : (s.run results c).log <+: s'.log :=
        (StepRun.run_invariant (keeps_log _) ⟨h.run c, List.prefix_refl _⟩ hrest).2
      rw [List.flatMap_cons, captureCalls_append]
      simp only [List.mem_append, not_or, forall_and]
      by_cases hfirst : ∀ handle, UvCall.start handle true ∉
          captureCalls results s.log.length c.handles
      · have hnone' : ∀ handle, UvCall.start handle true ∉ (s.run results c).log := by
          intro handle
          rw [hlog, List.mem_append, not_or]
          exact ⟨hnone handle, hfirst handle⟩
        have hlength : (s.run results c).log.length = s.log.length + 2 * c.handles.length := by
          rw [hlog, List.length_append, length_captureCalls]
        rw [ih (h.run c) hnone' hrest, hlength]
        exact (and_iff_right hfirst).symm
      · refine iff_of_false (fun hend => hfirst fun handle hmem => ?_) fun hboth =>
          hfirst hboth.1
        refine hend handle (hextends.subset ?_)
        rw [hlog]
        exact List.mem_append_right _ hmem

/-- The calls of the constructor. -/
theorem log_construct : (construct results).log =
    [.init .sigint (results 0), .init .sigterm (results 1), .start .sigint (results 2),
      .start .sigterm (results 3)] := by
  unfold construct initializeDefaultSignals
  dsimp only
  rw [log_startSignal rfl, log_startSignal rfl, log_initializeSignal rfl,
    log_initializeSignal rfl]
  rfl

/-- The constructor starts no handle exactly if libuv refuses both starts. -/
theorem start_not_mem_construct_iff :
    (∀ handle, UvCall.start handle true ∉ (construct results).log) ↔
      results 2 = false ∧ results 3 = false := by
  rw [log_construct]
  constructor
  · intro h
    exact ⟨by simpa using h .sigint, by simpa using h .sigterm⟩
  · rintro ⟨hsigint, hsigterm⟩ handle
    simp [hsigint, hsigterm]

/-- After any run of operations and `Stop`, all handles are stopped and closed exactly
if libuv refused to start any. -/
theorem stopsAll_iff (results : Nat → Bool) (ops : List Op) (s : SignalHandler)
    (hrun : StepRun.run (step results) (construct results) ops = some s) :
    StopsAll s.stopAllSignals.log ↔ RefusesStarts results ops := by
  have h : Unwatched s := StepRun.run_invariant keeps_unwatched unwatched_construct hrun
  have hlength : (construct results).log.length = 4 := by rw [log_construct]; rfl
  have hextends : (construct results).log <+: s.log :=
    (StepRun.run_invariant (keeps_log _) ⟨unwatched_construct, List.prefix_refl _⟩
      hrun).2
  rw [h.stopsAll_iff_not_started]
  constructor
  · intro hnone
    have hconstruct : ∀ handle, UvCall.start handle true ∉ (construct results).log :=
      fun handle hmem => hnone handle (hextends.subset hmem)
    obtain ⟨hsigint, hsigterm⟩ := start_not_mem_construct_iff.1 hconstruct
    have hcaptured := (start_not_mem_run_iff unwatched_construct hconstruct hrun).1 hnone
    rw [hlength, start_not_mem_captureCalls_iff] at hcaptured
    exact ⟨hsigint, hsigterm, hcaptured⟩
  · intro hrefuses
    have hconstruct := start_not_mem_construct_iff.2 ⟨hrefuses.sigint, hrefuses.sigterm⟩
    rw [start_not_mem_run_iff unwatched_construct hconstruct hrun, hlength,
      start_not_mem_captureCalls_iff]
    exact hrefuses.captured

/-- Where libuv refuses every call, there is nothing to stop. -/
theorem refused_stopsAll :
    StopsAll ((construct fun _ => false).setSignalCaptureMode (fun _ => false)
      [.sighup]).stopAllSignals.log :=
  (stopsAll_iff (fun _ => false) [.call (.setSignalCaptureMode [.sighup])] _ rfl).2
    ⟨rfl, rfl, fun _ _ => rfl⟩

/-- A handler that captures `SIGINT` once more: the active handle is initialized again,
and after `Stop` it is still active. -/
theorem stop_leaves_active :
    ∃ s, StepRun.run (step fun _ => true) (construct fun _ => true)
        [.call (.setSignalCaptureMode [.sigint])] = some s ∧
      s.stopAllSignals.log =
        [.init .sigint true, .init .sigterm true, .start .sigint true, .start .sigterm true,
          .init .sigint true, .start .sigint true] ∧
      active s.stopAllSignals.log .sigint = true ∧ ¬ StopsAll s.stopAllSignals.log := by
  refine ⟨_, rfl, by decide, by decide, fun h => ?_⟩
  exact absurd (h.inactive .sigint) (by decide)

end SignalHandler

end Piconaut.Sys
