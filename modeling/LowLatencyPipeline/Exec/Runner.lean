import LowLatencyPipeline.Exec.Strategy
import LowLatencyPipeline.Library.Machine

/-!
# The hot loop

`run_strategy` of `exec/runner.hpp` with the null router, as a machine. The strategy is a source
of calls: in each of its callbacks it may make any calls, one a step, before it returns. The
environment chooses the frames, the control flags, the shutdown, the clock and when a timer is
due.

`Phase` is where the loop stands. A phase of a callback is left by the step `resume`; `tick` is
split in two, so that `tickStart` is the moment before `on_tick` runs.
-/

namespace LowLatencyPipeline

namespace Exec

/-- What `poll_reports` was called for. -/
inductive AfterPoll
  /-- in the hot loop: the next thing is to pop a frame -/
  | feed
  /-- after a shutdown, with a frame in hand -/
  | frame (u : MarketUpdate)
  /-- after a shutdown, with the feed drained -/
  | stop

/-- Where the loop stands. -/
inductive Phase
  /-- in `on_start` -/
  | start
  /-- at the head of the hot loop -/
  | top
  /-- a shutdown was seen: at the head of the draining loop -/
  | drain
  /-- in `NullRouter::poll`, between two reports -/
  | poll (next : AfterPoll)
  /-- in `on_exec` -/
  | onExec (next : AfterPoll)
  /-- the reports are in, no frame was popped yet -/
  | feed
  /-- about to call `on_tick` -/
  | tickStart (draining : Bool)
  /-- in `on_tick` -/
  | tick (draining : Bool)
  /-- in `on_timer`, if the timer is due -/
  | timer
  /-- returned -/
  | done

/-- Exec in `run_strategy`. -/
structure Runner extends StrategyContext NullRouter where
  phase : Phase

/-- What happens next. -/
inductive RunStep
  | clock (tsc : UInt64) (wallNs : ℤ)
  | call (a : Call)
  /-- a callback returns -/
  | resume
  /-- the flags and the shutdown are read -/
  | control (flags : UInt32) (shutdown : Bool)
  /-- `try_pop` of the feed -/
  | pop (u : Option MarketUpdate)
  /-- one round of `poll` -/
  | report
  /-- `on_tick` is called -/
  | tick

/-- Whether the strategy has the control. -/
def Phase.InCallback : Phase → Prop
  | .start | .onExec _ | .tick _ | .timer => True
  | _ => False

instance (p : Phase) : Decidable p.InCallback := by
  cases p <;> unfold Phase.InCallback <;> infer_instance

/-- Where a callback returns to. -/
def Phase.resume : Phase → Option Phase
  | .start | .timer => some .top
  | .onExec next => some (.poll next)
  | .tick true => some .drain
  | .tick false => some .timer
  | _ => none

namespace Runner

variable (s : Runner)

/-- `handle_frame` up to `on_tick`. -/
def onFrame (u : MarketUpdate) (draining : Bool) : Runner :=
  { s with x := s.x.onFrame u, phase := .tickStart draining }

/-- The end of `poll`. -/
def afterPoll : AfterPoll → Runner
  | .feed => { s with phase := .feed }
  | .frame u => s.onFrame u true
  | .stop => { s with phase := .done }

/-- One step. -/
def step : RunStep → Option Runner
  | .clock tsc wallNs => some { s with x := { s.x with tsc, wallNs } }
  | .call a =>
    if s.phase.InCallback ∧ a.Typed then
      some { s with toStrategyContext := s.toStrategyContext.call a }
    else none
  | .resume => s.phase.resume.map fun phase => { s with phase }
  | .control flags shutdown =>
    match s.phase with
    | .top =>
      some { s with
        x := { s.x with controlFlags := flags }
        -- shutdown is looked at before SWAP
        phase :=
          if shutdown then .drain
          else if flags &&& SWAP ≠ 0 then .done
          else .poll .feed }
    | _ => none
  | .pop u =>
    match s.phase, u with
    | .feed, some u => some (s.onFrame u false)
    | .feed, none => some { s with phase := .timer }
    -- the frames left in the ring are still handled
    | .drain, some u => some { s with phase := .poll (.frame u) }
    | .drain, none => some { s with phase := .poll .stop }
    | _, _ => none
  | .report =>
    match s.phase with
    | .poll next =>
      match s.router.pop s.x.tsc with
      -- the poll ends with the queue empty
      | none => some (s.afterPoll next)
      | some (rep, router) =>
        some { s with x := s.x.applyReport rep, router, phase := .onExec next }
    | _ => none
  | .tick =>
    match s.phase with
    | .tickStart draining => some { s with phase := .tick draining }
    | _ => none

/-- **What one step does**, and when. -/
inductive StepEffect : RunStep → Runner → Prop
  | clock (tsc : UInt64) (wallNs : ℤ) :
    StepEffect (.clock tsc wallNs) { s with x := { s.x with tsc, wallNs } }
  | call (a : Call) : s.phase.InCallback → a.Typed →
    StepEffect (.call a) ⟨s.toStrategyContext.call a, s.phase⟩
  | resume (phase : Phase) : s.phase.resume = some phase → StepEffect .resume { s with phase }
  | control (flags : UInt32) (shutdown : Bool) (phase : Phase) : s.phase = .top →
    (phase = if shutdown then .drain else if flags &&& SWAP ≠ 0 then .done else .poll .feed) →
    StepEffect (.control flags shutdown)
      { s with x := { s.x with controlFlags := flags }, phase }
  | frame (u : MarketUpdate) : s.phase = .feed → StepEffect (.pop (some u)) (s.onFrame u false)
  | noFrame : s.phase = .feed → StepEffect (.pop none) { s with phase := .timer }
  | drained (u : Option MarketUpdate) : s.phase = .drain →
    StepEffect (.pop u) { s with phase := .poll (u.elim .stop .frame) }
  | polled (next : AfterPoll) : s.phase = .poll next → s.router.pop s.x.tsc = none →
    StepEffect .report (s.afterPoll next)
  | report (next : AfterPoll) (rep : ExecReport) (router : NullRouter) : s.phase = .poll next →
    s.router.pop s.x.tsc = some (rep, router) →
    StepEffect .report ⟨⟨s.x.applyReport rep, router⟩, .onExec next⟩
  | tick (draining : Bool) : s.phase = .tickStart draining →
    StepEffect .tick { s with phase := .tick draining }

variable {s} {t : Runner} {a : RunStep}

theorem step_effect (h : s.step a = some t) : StepEffect s a t := by
  cases a with
  | clock tsc wallNs =>
    obtain rfl := Option.some.inj h
    exact .clock tsc wallNs
  | call a =>
    obtain ⟨⟨hcallback, htyped⟩, h⟩ := Option.ite_none_right_eq_some.1 h
    obtain rfl := Option.some.inj h
    exact .call a hcallback htyped
  | resume =>
    obtain ⟨phase, hphase, rfl⟩ := Option.map_eq_some_iff.1 h
    exact .resume phase hphase
  | control flags shutdown =>
    rw [step] at h
    split at h
    · rename_i hphase
      obtain rfl := Option.some.inj h
      exact .control flags shutdown _ hphase rfl
    · cases h
  | pop u =>
    simp only [step] at h
    split at h
    · rename_i u' hphase
      obtain rfl := Option.some.inj h
      exact .frame u' hphase
    · rename_i hphase
      obtain rfl := Option.some.inj h
      exact .noFrame hphase
    · rename_i u' hphase
      obtain rfl := Option.some.inj h
      exact .drained (some u') hphase
    · rename_i hphase
      obtain rfl := Option.some.inj h
      exact .drained none hphase
    · cases h
  | report =>
    rw [step] at h
    split at h
    · rename_i next hphase
      split at h
      · rename_i hpop
        obtain rfl := Option.some.inj h
        exact .polled next hphase hpop
      · rename_i rep router hpop
        obtain rfl := Option.some.inj h
        exact .report next rep router hphase hpop
    · cases h
  | tick =>
    rw [step] at h
    split at h
    · rename_i draining hphase
      obtain rfl := Option.some.inj h
      exact .tick draining hphase
    · cases h

theorem step_call {a : Call} (hphase : s.phase.InCallback) (htyped : a.Typed) :
    s.step (.call a) = some ⟨s.toStrategyContext.call a, s.phase⟩ :=
  if_pos ⟨hphase, htyped⟩

end Runner

/-- `run_strategy` from the state `s₀`. -/
def runner (s₀ : Runner) : Machine Runner RunStep where
  Init := (· = s₀)
  step := Runner.step

end Exec

end LowLatencyPipeline
