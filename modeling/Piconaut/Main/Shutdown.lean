import Mathlib.Data.List.Induction
import Piconaut.Http.ServerLifecycle
import Piconaut.Sys.SignalThread

/-!
# How the program of `main.cc` ends

`main` starts the signal handler, constructs the server and runs its event loop.  The
handler has a thread of its own, in which `CaptureSignalDefault` calls `H2OServer::Stop`.

A run interleaves what the main thread does with the signals that are delivered and the
return of the handler's loop.  `main_returns_iff`: what the handler does for a signal never
makes `main` return; only a server that cannot be constructed or started does, or one whose
event loop fails, for whatever reason.  And when `main` has returned, the destructor of the global handler finds a thread
that can still be joined, which ends the program with `std::terminate`.
-/

namespace Piconaut.Main

open Piconaut.Sys Piconaut.Http.Lifecycle

/-- Where the main thread is. -/
inductive Phase where
  | constructing
  | starting
  /-- In the event loop of the server. -/
  | serving
  | returned (code : Nat)
  deriving DecidableEq

/-- The program: `g_signal_`, `g_server_` and the main thread. -/
structure Process where
  monitor : Monitor
  server : Option H2OServer
  phase : Phase

/-- What happens in the program. -/
inductive ProcessEvent where
  /-- `std::make_shared<http::H2OServer>`, which may throw. -/
  | constructServer (ok : Bool)
  /-- `g_server_->Start()`, up to the event loop. -/
  | startServer (r : Outcomes)
  /-- `h2o_evloop_run` fails, for whatever reason, and `Start` returns. -/
  | serverLoopEnds
  | signal (signum : SignalType)
  /-- The loop of the handler returns. -/
  | monitorReturns

/-- `CaptureSignalDefault`. -/
def captureSignalDefault (server : Option H2OServer) : SignalType → Option H2OServer
  | .sigint | .sigterm => server.map H2OServer.stop
  | _ => server

namespace Process

variable (results : Nat → Bool)

/-- The program after `g_signal_->Start()`. -/
def launch : Process where
  monitor := ((Monitor.construct results).call results (.registerCallback false)).call results .start
  server := none
  phase := .constructing

/-- One event.  An exception makes `main` return 1. -/
def step (p : Process) : ProcessEvent → Option Process
  | .constructServer ok =>
    if p.phase = .constructing then
      if ok then some { p with server := some {}, phase := .starting }
      else some { p with phase := .returned 1 }
    else none
  | .startServer r =>
    match p.phase, p.server with
    | .starting, some server =>
      match server.start r with
      | (.ok _, server) => some { p with server := some server, phase := .serving }
      | (.error _, server) => some { p with server := some server, phase := .returned 1 }
    | _, _ => none
  | .serverLoopEnds => if p.phase = .serving then some { p with phase := .returned 0 } else none
  | .signal signum => do
    let handle ← getSignalHandle signum
    let monitor ← p.monitor.step results (.deliver handle [])
    return { p with monitor := monitor, server := captureSignalDefault p.server signum }
  | .monitorReturns => do
    let monitor ← p.monitor.step results .loopReturns
    return { p with monitor := monitor }

end Process

/-! ## What a step does -/

/-- The server cannot be constructed, or not started. -/
def ProcessEvent.Fails : ProcessEvent → Prop
  | constructServer ok => ok = false
  | startServer r => r.runs = false
  | serverLoopEnds | signal _ | monitorReturns => False

/-- The thread of the handler was started and not joined. -/
def Unjoined (m : Monitor) : Prop := m.thread = .running ∨ m.thread = .returned

/-- The main thread, after a failure or not and the end of the server's loop or not. -/
def Phase.Fits (failed ended : Prop) : Phase → Prop
  | returned 0 => ¬ failed ∧ ended
  | returned 1 => failed ∧ ¬ ended
  | returned _ => False
  | constructing | starting | serving => ¬ failed ∧ ¬ ended

variable {results : Nat → Bool} {events : List ProcessEvent} {e : ProcessEvent} {p p' : Process}

theorem fst_start (server : H2OServer) (r : Outcomes) :
    (server.start r).1 = .ok () ↔ r.runs = true := by
  obtain ⟨socket, bind, listen, evloop, listener⟩ := r
  cases socket <;> cases bind <;> cases listen <;> cases evloop <;> cases listener <;>
    simp [H2OServer.start, H2OServer.fails, Outcomes.runs, Outcomes.entersContext]

/-- Either the main thread goes on, or something happens in the thread of the handler. -/
theorem Process.step_cases (h : p.step results e = some p') :
    (p'.monitor = p.monitor ∧
      ((∃ ok, e = .constructServer ok ∧ p.phase = .constructing ∧
          p'.phase = if ok then .starting else .returned 1) ∨
        (∃ r, e = .startServer r ∧ p.phase = .starting ∧
          p'.phase = if r.runs then .serving else .returned 1) ∨
        (e = .serverLoopEnds ∧ p.phase = .serving ∧ p'.phase = .returned 0))) ∨
      (p'.phase = p.phase ∧ ¬ e.Fails ∧ e ≠ .serverLoopEnds ∧
        (p'.monitor.thread = p.monitor.thread ∨ p'.monitor.thread = .returned)) := by
  cases e with
  | constructServer ok =>
    rw [step] at h
    split at h
    · rename_i hphase
      refine Or.inl ?_
      cases ok with
      | true =>
        obtain rfl := Option.some.inj h
        exact ⟨rfl, Or.inl ⟨true, rfl, hphase, rfl⟩⟩
      | false =>
        obtain rfl := Option.some.inj h
        exact ⟨rfl, Or.inl ⟨false, rfl, hphase, rfl⟩⟩
    · cases h
  | startServer r =>
    rw [step] at h
    split at h
    · rename_i server hphase hserver
      have hstart := fst_start server r
      split at h
      · rename_i server' heq
        rw [heq] at hstart
        obtain rfl := Option.some.inj h
        exact Or.inl ⟨rfl, Or.inr (Or.inl ⟨r, rfl, hphase, by rw [if_pos (hstart.1 rfl)]⟩)⟩
      · rename_i error server' heq
        rw [heq] at hstart
        obtain rfl := Option.some.inj h
        have hruns : ¬ r.runs = true := fun hc => by cases hstart.2 hc
        exact Or.inl ⟨rfl, Or.inr (Or.inl ⟨r, rfl, hphase, by rw [if_neg hruns]⟩)⟩
    · cases h
  | serverLoopEnds =>
    rw [step] at h
    split at h
    · rename_i hphase
      obtain rfl := Option.some.inj h
      exact Or.inl ⟨rfl, Or.inr (Or.inr ⟨rfl, hphase, rfl⟩)⟩
    · cases h
  | signal signum =>
    simp only [step, Option.bind_eq_bind, Option.bind_eq_some_iff] at h
    obtain ⟨handle, -, monitor, hmonitor, hp⟩ := h
    obtain rfl := Option.some.inj hp
    rw [Monitor.step] at hmonitor
    split at hmonitor
    · obtain rfl := Option.some.inj hmonitor
      exact Or.inr ⟨rfl, id, by simp, Or.inl rfl⟩
    · cases hmonitor
  | monitorReturns =>
    simp only [step, Option.bind_eq_bind, Option.bind_eq_some_iff] at h
    obtain ⟨monitor, hmonitor, hp⟩ := h
    obtain rfl := Option.some.inj hp
    rw [Monitor.step] at hmonitor
    split at hmonitor
    · obtain rfl := Option.some.inj hmonitor
      exact Or.inr ⟨rfl, id, by simp, Or.inr rfl⟩
    · cases hmonitor

/-! ## Runs -/

theorem exists_fails_concat :
    (∃ e' ∈ events ++ [e], e'.Fails) ↔ (∃ e' ∈ events, e'.Fails) ∨ e.Fails := by
  simp [or_and_right, exists_or]

theorem serverLoopEnds_mem_concat :
    .serverLoopEnds ∈ events ++ [e] ↔ .serverLoopEnds ∈ events ∨ e = .serverLoopEnds := by
  rw [List.mem_append, List.mem_singleton, eq_comm]

/-- The phase of the program fits the events. -/
def PhaseFits (events : List ProcessEvent) (p : Process) : Prop :=
  p.phase.Fits (∃ e ∈ events, e.Fails) (.serverLoopEnds ∈ events)

theorem PhaseFits.step (h : PhaseFits events p) (hstep : p.step results e = some p') :
    PhaseFits (events ++ [e]) p' := by
  rw [PhaseFits] at h
  rw [PhaseFits, exists_fails_concat, serverLoopEnds_mem_concat]
  obtain ⟨-, ⟨ok, rfl, hphase, hphase'⟩ | ⟨r, rfl, hphase, hphase'⟩ | ⟨rfl, hphase, hphase'⟩⟩ |
    ⟨hphase, hfails, hends, -⟩ := Process.step_cases hstep
  · rw [hphase] at h
    cases ok with
    | true => simpa [hphase', Phase.Fits, ProcessEvent.Fails] using h
    | false => simpa [hphase', Phase.Fits, ProcessEvent.Fails] using h.2
  · rw [hphase] at h
    cases hruns : r.runs with
    | true => simpa [hphase', Phase.Fits, ProcessEvent.Fails, hruns] using h
    | false => simpa [hphase', Phase.Fits, ProcessEvent.Fails, hruns] using h.2
  · rw [hphase] at h
    simpa [hphase', Phase.Fits, ProcessEvent.Fails] using h.1
  · rwa [hphase, or_iff_left hfails, or_iff_left hends]

theorem unjoined_launch (results : Nat → Bool) : Unjoined (Process.launch results).monitor := by
  have hcons : (Monitor.construct results).Consistent := Monitor.consistent_construct
  have hrun : (SignalHandler.construct results).isRun = false := by
    simpa [Monitor.Consistent, Monitor.construct] using hcons
  refine Or.inl ?_
  show (if (SignalHandler.construct results).isRun = true then _ else ThreadState.running) = _
  rw [hrun]
  rfl

/-- No event joins the thread. -/
theorem Unjoined.step (h : Unjoined p.monitor) (hstep : p.step results e = some p') :
    Unjoined p'.monitor := by
  obtain ⟨hmonitor, -⟩ | ⟨-, -, -, hthread | hthread⟩ := Process.step_cases hstep
  · rwa [hmonitor]
  · rwa [Unjoined, hthread]
  · exact Or.inr hthread

theorem Unjoined.not_destroysSafely {m : Monitor} (h : Unjoined m) : ¬ m.DestroysSafely := by
  rintro (hc | hc) <;> rcases h with h | h <;> rw [hc] at h <;> cases h

/-- The induction is on the events. -/
theorem fits_run
    (hrun : StepRun.run (Process.step results) (Process.launch results) events = some p) :
    PhaseFits events p ∧ Unjoined p.monitor := by
  induction events using List.reverseRecOn generalizing p with
  | nil =>
    obtain rfl := Option.some.inj hrun
    exact ⟨by simp [PhaseFits, Process.launch, Phase.Fits], unjoined_launch results⟩
  | append_singleton events e ih =>
    rw [StepRun.run_append, Option.bind_eq_some_iff] at hrun
    obtain ⟨q, hq, hstep⟩ := hrun
    have hstep' : q.step results e = some p := by simpa using hstep
    exact ⟨(ih hq).1.step hstep', (ih hq).2.step hstep'⟩

/-- No callback of a signal makes `main` return: it returns 1 after a failure of the server
and 0 after the end of its event loop, and only then.  At every time the destructor of the handler would
end the program. -/
theorem main_returns_iff (results : Nat → Bool) (events : List ProcessEvent) (p : Process)
    (hrun : StepRun.run (Process.step results) (Process.launch results) events = some p) :
    (∀ code, p.phase = .returned code ↔
        (code = 0 ∧ .serverLoopEnds ∈ events) ∨ (code = 1 ∧ ∃ e ∈ events, e.Fails)) ∧
      ¬ p.monitor.DestroysSafely := by
  obtain ⟨hphase, hunjoined⟩ := fits_run hrun
  refine ⟨fun code => ?_, hunjoined.not_destroysSafely⟩
  rw [PhaseFits] at hphase
  constructor
  · intro hcode
    rw [hcode] at hphase
    match code, hphase with
    | 0, hphase => exact Or.inl ⟨rfl, hphase.2⟩
    | 1, hphase => exact Or.inr ⟨rfl, hphase.1⟩
  · rintro (⟨rfl, hends⟩ | ⟨rfl, hfails⟩)
    · match p.phase, hphase with
      | .returned 0, _ => rfl
      | .returned 1, hphase => exact absurd hends hphase.2
      | .constructing, hphase | .starting, hphase | .serving, hphase =>
        exact absurd hends hphase.2
    · match p.phase, hphase with
      | .returned 1, _ => rfl
      | .returned 0, hphase => exact absurd hfails hphase.1
      | .constructing, hphase | .starting, hphase | .serving, hphase =>
        exact absurd hfails hphase.1

/-- The server runs, `SIGINT` comes, and the loop of the handler returns. -/
def interrupted : List ProcessEvent :=
  [.constructServer true, .startServer ⟨true, true, true, true, true⟩, .signal .sigint,
    .monitorReturns]

/-- `main` goes on. -/
theorem interrupted_serves :
    ∃ p, StepRun.run (Process.step fun _ => true) (Process.launch fun _ => true) interrupted =
        some p ∧
      (∀ code, p.phase ≠ .returned code) ∧ ¬ p.monitor.DestroysSafely := by
  have hrun : (StepRun.run (Process.step fun _ => true) (Process.launch fun _ => true)
      interrupted).isSome = true := by decide
  obtain ⟨p, hp⟩ := Option.isSome_iff_exists.1 hrun
  obtain ⟨hphase, hdestroys⟩ := main_returns_iff (fun _ => true) interrupted p hp
  refine ⟨p, hp, fun code hcode => ?_, hdestroys⟩
  have hno := (hphase code).1 hcode
  simp [interrupted, ProcessEvent.Fails, Outcomes.runs, Outcomes.entersContext] at hno

end Piconaut.Main
