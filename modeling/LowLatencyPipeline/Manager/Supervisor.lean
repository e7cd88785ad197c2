import LowLatencyPipeline.Library.Machine

/-!
# The manager and one swap request

`supervision` is the machine of the manager's loop, the exec processes it starts, the dashboard's
swap button and the operator's SIGUSR1. An exec may crash at any moment, and the manager starts it
again. The dashboard writes `swap_path` and then sets SWAP, once, for the strategy `S`.

The two halves of the request are consumed by different parties: exec clears the bit, and the
manager clears the path on the first respawn of any cause. A respawn that takes the path while the
bit is still set, or while a SIGUSR1 waits, hands `S` to an exec that is about to be replaced by
the config's strategy (`swap_lost`). `swap_honoured` says that the request is honoured otherwise,
and that there is never more than one exec.
-/

namespace LowLatencyPipeline

namespace Manager

/-- "exec asks to be respawned" -/
def EXIT_SWAP : ℕ := 75

/-- The status that `waitpid` reports. -/
inductive Status
  | exited (code : ℕ)
  | signaled
  deriving DecidableEq

/-- How far an exec has come. -/
inductive ExecPhase
  /-- between `fork` and `execv`, with the manager's signal handlers -/
  | forked
  /-- `main` before `sigaction` -/
  | starting
  /-- `ExecContext::setup` and `create` -/
  | setup
  /-- the head of the loop of `run_strategy` -/
  | top
  /-- the control flags are read, with this SWAP bit -/
  | loaded (swap : Bool)
  /-- out of the loop, `RunExit::Swap` or not -/
  | leaving (swap : Bool)
  /-- SWAP is cleared -/
  | cleared
  | exited (status : Status)
  deriving DecidableEq

/-- An exec process. -/
structure ExecProc where
  pid : ℕ
  /-- `--strategy=` -/
  strategy : String
  /-- the strategy was taken from `swap_path` -/
  fromSwapPath : Bool
  phase : ExecPhase := .forked
  /-- `shutdown_flag` -/
  shutdown : Bool := false
  /-- a SIGTERM that is not delivered yet -/
  sigterm : Bool := false
  deriving DecidableEq

/-- What an exec does next; only `setup` has a choice. -/
inductive ExecMove
  | advance
  | stop
  deriving DecidableEq

namespace ExecProc

variable (p : ExecProc)

/-- A step of an exec on the SWAP bit. `run_strategy` looks at the shutdown flag before SWAP, and
`main` clears SWAP between the loop and its exit. -/
def next (swap : Bool) (move : ExecMove) : Option (ExecProc × Bool) :=
  match move, p.phase with
  | .advance, .forked => some ({ p with phase := .starting }, swap)
  | .advance, .starting => some ({ p with phase := .setup }, swap)
  | .advance, .setup => some ({ p with phase := .top }, swap)
  | .stop, .setup =>
    if p.shutdown then some ({ p with phase := .exited (.exited 0) }, swap) else none
  | .advance, .top => some ({ p with phase := .loaded swap }, swap)
  | .advance, .loaded seen =>
    if p.shutdown then some ({ p with phase := .leaving false }, swap)
    else if seen then some ({ p with phase := .leaving true }, swap)
    else some ({ p with phase := .top }, swap)
  | .advance, .leaving false => some ({ p with phase := .exited (.exited 0) }, swap)
  | .advance, .leaving true => some ({ p with phase := .cleared }, false)
  | .advance, .cleared => some ({ p with phase := .exited (.exited EXIT_SWAP) }, swap)
  | _, _ => none

/-- SIGTERM arrives. Before `execv` the manager's handler sets the copy of a flag that `execv`
discards; before `sigaction` the signal kills. -/
def deliver : ExecProc :=
  match p.phase with
  | .forked => { p with sigterm := false }
  | .starting => { p with sigterm := false, phase := .exited .signaled }
  | _ => { p with sigterm := false, shutdown := true }

/-- The process is a zombie. -/
def dead : Bool :=
  match p.phase with
  | .exited _ => true
  | _ => false

/-- The process has left `run_strategy`, or died. -/
def ending : Bool :=
  match p.phase with
  | .leaving _ | .cleared | .exited _ => true
  | _ => false

end ExecProc

/-- How much of the swap request the dashboard has made. -/
inductive Request
  | none
  | pathWritten
  | made
  deriving DecidableEq

/-- Where the manager's loop stands. -/
inductive Point
  | signals
  | wait
  deriving DecidableEq

/-- What the manager found when it took `swap_path`: SWAP was set and cleared again, and no
SIGUSR1 was waiting. -/
structure Handover where
  cleared : Bool
  waiting : Bool
  deriving DecidableEq

/-- The shared control block, the manager, the exec processes and the dashboard. -/
structure Supervisor where
  /-- `Control.swap_path`, empty where none is set -/
  swapPath : String := ""
  /-- `ipc::SWAP` -/
  swap : Bool := false
  /-- `ipc::KILL` -/
  kill : Bool := false
  request : Request := .none
  /-- `restart_exec_req` -/
  restartExecReq : Bool := false
  /-- `exec_restart_pending` -/
  execRestartPending : Bool := false
  shuttingDown : Bool := false
  /-- `w[EXEC].pid`, `none` for -1 -/
  execPid : Option ℕ
  point : Point := .signals
  /-- the processes forked and not reaped -/
  procs : List ExecProc
  /-- when `swap_path` was taken -/
  handover : Option Handover := none
  deriving DecidableEq

/-- What happens next. -/
inductive Occurrence
  /-- the button: `swap_path` is written, and SWAP set -/
  | writePath
  | setSwap
  /-- the operator's SIGUSR1 reaches the manager -/
  | sigusr1
  /-- an exec dies -/
  | crash (pid : ℕ) (status : Status)
  /-- an exec receives its SIGTERM -/
  | deliver (pid : ℕ)
  | exec (pid : ℕ) (move : ExecMove)
  /-- the manager's loop looks at `restart_exec_req` -/
  | signals
  /-- `waitpid` returns no exec -/
  | waitNone
  /-- `waitpid` returns this exec; `config` is the config's strategy now, and `child` what `fork`
  returns -/
  | reap (pid : ℕ) (config : String) (child : Option ℕ)

namespace Supervisor

variable (autoRestart : Bool) (S : String) (s : Supervisor)

/-- The manager has started everybody; `config` is the config's strategy. -/
def start (config : String) (child : Option ℕ) : Supervisor where
  execPid := child
  procs := child.toList.map fun pid => { pid, strategy := config, fromSwapPath := false }

/-- The process `pid` takes a step, which may clear the SWAP bit. -/
def moveProc (pid : ℕ) (f : ExecProc → Option (ExecProc × Bool)) : Option Supervisor :=
  match s.procs.find? (·.pid = pid) with
  | none => none
  | some p =>
    match f p with
    | none => none
    | some (p', swap) => some { s with
        swap := swap
        procs := s.procs.map fun q => if q.pid = pid then p' else q }

/-- `next_strategy`, and whether it took `swap_path`. -/
def nextStrategy (config : String) : String × Bool :=
  if s.swapPath ≠ "" then (s.swapPath, true) else (config, false)

/-- `respawn_exec`. A new pid is none of a process that exists. -/
def respawnExec (config : String) (child : Option ℕ) : Supervisor :=
  { s with
    swapPath := ""
    execPid := child
    procs := s.procs ++ child.toList.map fun pid =>
      { pid, strategy := (s.nextStrategy config).1, fromSwapPath := (s.nextStrategy config).2 }
    handover :=
      if s.swapPath ≠ "" then
        some ⟨decide (s.request = .made) && !s.swap, s.restartExecReq⟩
      else s.handover }

/-- The manager handles the exit of the worker EXEC. -/
def handleExit (status : Status) (config : String) (child : Option ℕ) : Supervisor :=
  if s.shuttingDown then s
  else if s.execRestartPending then
    { s with execRestartPending := false }.respawnExec config child
  else if status = .exited EXIT_SWAP then s.respawnExec config child
  else if autoRestart then { s with kill := true }.respawnExec config child
  else { s with kill := true, shuttingDown := true }

/-- `waitpid` returned `p`. -/
def reaped (p : ExecProc) (status : Status) (config : String) (child : Option ℕ) : Supervisor :=
  let rest := { s with point := .signals, procs := s.procs.filter (·.pid ≠ p.pid) }
  if s.execPid = some p.pid then
    { rest with execPid := none }.handleExit autoRestart status config child
  else rest

/-- The loop looks at `restart_exec_req`. -/
def handleSignals : Supervisor :=
  if s.restartExecReq then
    match s.execPid with
    | some pid =>
      if ¬s.shuttingDown ∧ ¬s.execRestartPending then
        { s with
          restartExecReq := false
          execRestartPending := true
          point := .wait
          procs := s.procs.map fun q => if q.pid = pid then { q with sigterm := true } else q }
      else { s with restartExecReq := false, point := .wait }
    | none => { s with restartExecReq := false, point := .wait }
  else { s with point := .wait }

/-- One step. -/
def step : Occurrence → Option Supervisor
  | .writePath =>
    -- the operator writes swap_path, then SWAP
    if s.request = .none ∧ S ≠ "" then some { s with swapPath := S, request := .pathWritten }
    else none
  | .setSwap =>
    if s.request = .pathWritten then some { s with swap := true, request := .made } else none
  | .sigusr1 => some { s with restartExecReq := true }
  | .crash pid status => s.moveProc pid fun p =>
    -- a process that has died crashes no more
    if p.dead then none else some ({ p with phase := .exited status }, s.swap)
  | .deliver pid => s.moveProc pid fun p =>
    if p.sigterm ∧ ¬p.dead then some (p.deliver, s.swap) else none
  | .exec pid move => s.moveProc pid fun p => p.next s.swap move
  | .signals => if s.point = .signals then some s.handleSignals else none
  | .waitNone =>
    -- waitpid with WNOHANG finds nobody
    if s.point = .wait ∧ ∀ p ∈ s.procs, ¬p.dead then some { s with point := .signals } else none
  | .reap pid config child =>
    -- `child` is what fork returns if exec is started again
    if s.point = .wait ∧ ∀ q ∈ s.procs, q.pid ≠ pid → child ≠ some q.pid then
      match s.procs.find? (·.pid = pid) with
      | none => none
      | some p =>
        match p.phase with
        | .exited status => some (s.reaped autoRestart p status config child)
        | _ => none
    else none

end Supervisor

/-- The machine of all interleavings. -/
def supervision (autoRestart : Bool) (S : String) : Machine Supervisor Occurrence where
  Init s := ∃ config child, s = Supervisor.start config child
  step s a := s.step autoRestart S a

/-- Restarts and crashes happen before exec has cleared the SWAP bit. -/
def InTime (s : Supervisor) : Occurrence → Prop
  | .sigusr1 | .crash _ _ => s.request = .made → s.swap = true
  | _ => True

/-- When the manager takes `swap_path`, exec has cleared the SWAP bit that went with it, and no
SIGUSR1 is waiting. -/
def TakenWhole (s : Supervisor) : Occurrence → Prop
  | .reap _ _ _ =>
    s.swapPath ≠ "" → s.request = .made ∧ s.swap = false ∧ s.restartExecReq = false
  | _ => True

instance (s : Supervisor) (a : Occurrence) : Decidable (InTime s a) := by
  cases a <;> unfold InTime <;> infer_instance

instance (s : Supervisor) (a : Occurrence) : Decidable (TakenWhole s a) := by
  cases a <;> unfold TakenWhole <;> infer_instance

/-- Nothing is under way: SWAP was set and cleared, no restart waits, and no exec has left its
loop. -/
def Supervisor.Quiet (s : Supervisor) : Prop :=
  s.request = .made ∧ s.swap = false ∧ s.restartExecReq = false ∧
    s.execRestartPending = false ∧ ∀ p ∈ s.procs, p.ending = false

instance (s : Supervisor) : Decidable s.Quiet := by
  unfold Supervisor.Quiet
  infer_instance

/-! ### What an exec does -/

namespace ExecProc

/-- The process neither has been told to stop nor has seen SWAP. -/
def calm (p : ExecProc) : Bool :=
  !p.shutdown && !p.sigterm &&
    match p.phase with
    | .forked | .starting | .setup | .top | .loaded false => true
    | _ => false

/-- What every step of an exec keeps: who it is, that it is ending, and the SWAP bit, which only
an exec on its way out clears. -/
structure Moved (p : ExecProc) (swap : Bool) (p' : ExecProc) (swap' : Bool) : Prop where
  pid : p'.pid = p.pid
  strategy : p'.strategy = p.strategy
  fromSwapPath : p'.fromSwapPath = p.fromSwapPath
  ending : p.ending → p'.ending
  swap : swap' = swap ∨ swap' = false ∧ p'.ending

variable {p p' : ExecProc} {swap swap' : Bool}

theorem moved_next {move : ExecMove} (h : p.next swap move = some (p', swap')) :
    Moved p swap p' swap' := by
  unfold next at h
  split at h <;> try split_ifs at h
  all_goals simp only [Option.some.injEq, Prod.mk.injEq, reduceCtorEq] at h
  all_goals
    obtain ⟨rfl, rfl⟩ := h
    exact ⟨rfl, rfl, rfl, by simp_all [ExecProc.ending], by simp [ExecProc.ending]⟩

theorem moved_deliver : Moved p swap p.deliver swap := by
  unfold deliver
  refine ⟨?_, ?_, ?_, ?_, .inl rfl⟩ <;> split <;> simp_all [ExecProc.ending]

theorem moved_crash {status : Status} : Moved p swap { p with phase := .exited status } swap :=
  ⟨rfl, rfl, rfl, fun _ => rfl, .inl rfl⟩

/-- A calm exec stays calm as long as SWAP is clear. -/
theorem calm_next {move : ExecMove} (hp : p.calm) (h : p.next false move = some (p', swap')) :
    p'.calm ∧ swap' = false := by
  unfold next at h
  split at h <;> try split_ifs at h
  all_goals simp only [Option.some.injEq, Prod.mk.injEq, reduceCtorEq] at h
  all_goals
    obtain ⟨rfl, rfl⟩ := h
    simp_all [calm]

end ExecProc

/-! ### The invariant -/

/-- At most one process, which the manager knows. -/
def Alone (s : Supervisor) : Prop :=
  s.procs = [] ∧ s.execPid = none ∨
    ∃ p, s.procs = [p] ∧ s.execPid = some p.pid ∧ s.shuttingDown = false

/-- Until `swap_path` is taken: whoever cleared SWAP is on its way out. -/
structure Untaken (S : String) (s : Supervisor) : Prop where
  handover : s.handover = none
  path : s.swapPath = if s.request = .none then "" else S
  named : s.request ≠ .none → S ≠ ""
  config : ∀ p ∈ s.procs, p.fromSwapPath = false
  clearing : s.request = .made → s.swap = false → ∀ p ∈ s.procs, p.ending

/-- `swap_path` was taken after SWAP was cleared: nothing happens to the exec that got it. -/
structure TakenLate (S : String) (s : Supervisor) : Prop where
  handover : s.handover = some ⟨true, false⟩
  path : s.swapPath = ""
  made : s.request = .made
  swap : s.swap = false
  signal : s.restartExecReq = false
  pending : s.execRestartPending = false
  strategy : ∀ p ∈ s.procs, p.fromSwapPath ∧ p.strategy = S ∧ p.calm

/-- Something that ends the exec is under way. -/
def Trouble (s : Supervisor) (p : ExecProc) : Prop :=
  s.request ≠ .made ∨ s.swap ∨ s.restartExecReq ∨ s.execRestartPending ∨ p.ending

/-- `swap_path` was taken too early: the exec that got it does not stay. -/
structure TakenEarly (s : Supervisor) : Prop where
  handover : ∃ h, s.handover = some h ∧ h ≠ ⟨true, false⟩
  path : s.swapPath = ""
  request : s.request ≠ .none
  trouble : ∀ p ∈ s.procs, p.fromSwapPath → Trouble s p

structure Inv (S : String) (s : Supervisor) : Prop where
  alone : Alone s
  swap : s.swap → s.request = .made
  story : Untaken S s ∨ TakenLate S s ∨ TakenEarly s

variable {autoRestart : Bool} {S : String} {s t : Supervisor}

theorem inv_start (config : String) (child : Option ℕ) : Inv S (Supervisor.start config child) := by
  refine ⟨?_, by simp [Supervisor.start], .inl ⟨rfl, rfl, fun h => absurd rfl h, ?_,
    fun h => by cases h⟩⟩
  · cases child with
    | none => exact .inl ⟨rfl, rfl⟩
    | some pid => exact .inr ⟨_, rfl, rfl, rfl⟩
  · cases child <;> simp [Supervisor.start]

/-- A step of a process, in a state with one process. -/
theorem moveProc_cases (halone : Alone s) {pid : ℕ} {f : ExecProc → Option (ExecProc × Bool)}
    (h : s.moveProc pid f = some t) :
    ∃ p p' swap', s.procs = [p] ∧ s.execPid = some p.pid ∧ s.shuttingDown = false ∧
      f p = some (p', swap') ∧ t = { s with swap := swap', procs := [p'] } := by
  rcases halone with ⟨hnil, -⟩ | ⟨p, hp, hexec, hdown⟩
  · simp [Supervisor.moveProc, hnil] at h
  · unfold Supervisor.moveProc at h
    rw [hp] at h
    by_cases hpid : p.pid = pid
    · simp only [List.find?_cons, hpid, decide_true, List.map_cons, if_true, List.map_nil] at h
      cases hf : f p with
      | none => simp [hf] at h
      | some r =>
        rw [hf] at h
        exact ⟨p, r.1, r.2, hp, hexec, hdown, hf, (Option.some.inj h).symm⟩
    · simp [hpid] at h

/-- A step of the exec keeps the invariant, given that a calm exec after `TakenLate` stays calm. -/
theorem Inv.moved (hinv : Inv S s) {p p' : ExecProc} {swap' : Bool} (hp : s.procs = [p])
    (hexec : s.execPid = some p.pid) (hdown : s.shuttingDown = false)
    (hmoved : p.Moved s.swap p' swap')
    (hcalm : TakenLate S s → p.calm → p'.calm ∧ swap' = false) :
    Inv S { s with swap := swap', procs := [p'] } := by
  refine ⟨.inr ⟨p', rfl, ?_, hdown⟩, fun hs => ?_, ?_⟩
  · exact hmoved.pid ▸ hexec
  · rcases hmoved.swap with heq | ⟨heq, -⟩
    · exact hinv.swap (heq ▸ hs)
    · exact absurd hs (by simp [heq])
  · rcases hinv.story with hu | hl | he
    · -- the path is not taken: the process runs what the configuration says
      refine .inl ⟨hu.handover, hu.path, hu.named, ?_, fun hmade hswap => ?_⟩
      · simp only [List.mem_singleton, forall_eq]
        exact hmoved.fromSwapPath.trans (hu.config p (by simp [hp]))
      · simp only [List.mem_singleton, forall_eq]
        rcases hmoved.swap with heq | ⟨-, hending⟩
        · exact hmoved.ending (hu.clearing hmade (heq ▸ hswap) p (by simp [hp]))
        · exact hending
    · -- the path was taken after SWAP: the new process must stay calm
      obtain ⟨hfrom, hS, hpcalm⟩ := hl.strategy p (by simp [hp])
      obtain ⟨hcalm', hswap'⟩ := hcalm hl hpcalm
      refine .inr (.inl ⟨hl.handover, hl.path, hl.made, hswap', hl.signal, hl.pending, ?_⟩)
      simp only [List.mem_singleton, forall_eq]
      exact ⟨hmoved.fromSwapPath.trans hfrom, hmoved.strategy.trans hS, hcalm'⟩
    · -- the path was taken early: the trouble stays
      refine .inr (.inr ⟨he.handover, he.path, he.request, ?_⟩)
      simp only [List.mem_singleton, forall_eq]
      intro hfrom
      have htrouble := he.trouble p (by simp [hp]) (hmoved.fromSwapPath ▸ hfrom)
      rcases htrouble with h | h | h | h | h
      · exact .inl h
      · rcases hmoved.swap with heq | ⟨-, hending⟩
        · exact .inr (.inl (heq.trans h))
        · exact .inr (.inr (.inr (.inr hending)))
      · exact .inr (.inr (.inl h))
      · exact .inr (.inr (.inr (.inl h)))
      · exact .inr (.inr (.inr (.inr (hmoved.ending h))))

/-- **A respawn**, of an exec that is reaped. -/
theorem inv_respawnExec {r : Supervisor} (hprocs : r.procs = []) (hdown : r.shuttingDown = false)
    (hpending : r.execRestartPending = false) (hswap : r.swap → r.request = .made)
    (hstory : Untaken S r ∨ TakenEarly r) (config : String) (child : Option ℕ) :
    Inv S (r.respawnExec config child) := by
  refine ⟨?_, hswap, ?_⟩
  · cases child with
    | none => exact .inl ⟨by simp [Supervisor.respawnExec, hprocs], rfl⟩
    | some pid =>
      refine .inr ⟨⟨pid, (r.nextStrategy config).1, (r.nextStrategy config).2, .forked, false,
        false⟩, ?_, rfl, hdown⟩
      simp [Supervisor.respawnExec, hprocs]
  · rcases hstory with hu | he
    · -- an empty path has not been written: the configuration's strategy is started
      by_cases hpath : r.swapPath = ""
      · have hnone : r.request = .none := by
          by_contra hreq
          have h := hu.path
          rw [if_neg hreq] at h
          exact hu.named hreq (h.symm.trans hpath)
        refine .inl ⟨?_, ?_, fun h => absurd hnone h, ?_, fun hmade => ?_⟩
        · simpa [Supervisor.respawnExec, hpath] using hu.handover
        · simp [Supervisor.respawnExec, hnone]
        · simp [Supervisor.respawnExec, hprocs, Supervisor.nextStrategy, hpath]
        · exact absurd (hnone.symm.trans hmade) (by decide)
      · have hreq : r.request ≠ .none := by
          intro hreq
          exact hpath (hu.path.trans (if_pos hreq))
        have hS : r.swapPath = S := hu.path.trans (if_neg hreq)
        -- the path is taken whole, or while one of its conditions fails
        by_cases hwhole : r.request = .made ∧ r.swap = false ∧ r.restartExecReq = false
        · obtain ⟨hmade, hclear, hsignal⟩ := hwhole
          refine .inr (.inl ⟨?_, rfl, hmade, hclear, hsignal, hpending, ?_⟩)
          · simp [Supervisor.respawnExec, hpath, hmade, hclear, hsignal]
          · simp [Supervisor.respawnExec, hprocs, Supervisor.nextStrategy, hS, hu.named hreq,
              ExecProc.calm]
        · refine .inr (.inr ⟨⟨_, if_pos hpath, ?_⟩, rfl, hreq, fun p _ _ => ?_⟩)
          · intro heq
            simp only [Handover.mk.injEq, Bool.and_eq_true, decide_eq_true_eq,
              Bool.not_eq_true'] at heq
            exact hwhole ⟨heq.1.1, heq.1.2, heq.2⟩
          · by_cases hmade : r.request = .made
            · by_cases hclear : r.swap = false
              · refine .inr (.inr (.inl ?_))
                have hsignal := fun h => hwhole ⟨hmade, hclear, h⟩
                exact (Bool.not_eq_false _).mp hsignal
              · exact .inr (.inl ((Bool.not_eq_false _).mp hclear))
            · exact .inl hmade
    · refine .inr (.inr ⟨?_, rfl, he.request, ?_⟩)
      · simpa [Supervisor.respawnExec, he.path] using he.handover
      · simp [Supervisor.respawnExec, hprocs, Supervisor.nextStrategy, he.path]

/-- **A reaped exec.** -/
theorem Inv.reaped (hinv : Inv S s) {p : ExecProc} {status : Status} (hp : s.procs = [p])
    (hexec : s.execPid = some p.pid) (hdown : s.shuttingDown = false)
    (hphase : p.phase = .exited status) (config : String) (child : Option ℕ) :
    Inv S (s.reaped autoRestart p status config child) := by
  -- a calm exec is no zombie
  have hstory : Untaken S s ∨ TakenEarly s := by
    rcases hinv.story with hu | hl | he
    · exact .inl hu
    · have hcalm := (hl.strategy p (by simp [hp])).2.2
      simp [ExecProc.calm, hphase] at hcalm
    · exact .inr he
  have hgone : ∀ r : Supervisor, r.procs = [] → r.handover = s.handover →
      r.swapPath = s.swapPath → r.request = s.request → Untaken S r ∨ TakenEarly r := by
    intro r hprocs hhand hpath hreq
    rcases hstory with hu | he
    · refine .inl ⟨hhand.trans hu.handover, ?_, ?_, by simp [hprocs], by simp [hprocs]⟩
      · rw [hpath, hreq]
        exact hu.path
      · rw [hreq]
        exact hu.named
    · refine .inr ⟨?_, hpath.trans he.path, ?_, by simp [hprocs]⟩
      · rw [hhand]
        exact he.handover
      · rw [hreq]
        exact he.request
  have hrespawn : ∀ r : Supervisor, r.procs = [] → r.shuttingDown = false →
      r.execRestartPending = false → r.swap = s.swap → r.handover = s.handover →
        r.swapPath = s.swapPath → r.request = s.request → Inv S (r.respawnExec config child) := by
    intro r hprocs hdown hpending hswap hhand hpath hreq
    refine inv_respawnExec hprocs hdown hpending (fun hs => ?_) (hgone r hprocs hhand hpath hreq)
      config child
    rw [hreq]
    exact hinv.swap (hswap ▸ hs)
  unfold Supervisor.reaped
  simp only [hexec, if_true, hp, List.filter_cons, ne_eq, not_true_eq_false, decide_false,
    Bool.false_eq_true, if_false, List.filter_nil]
  unfold Supervisor.handleExit
  simp only [hdown, Bool.false_eq_true, if_false]
  split_ifs with hpending hstatus hauto
  · exact hrespawn _ rfl rfl rfl rfl rfl rfl rfl
  · exact hrespawn _ rfl rfl (Bool.eq_false_iff.mpr hpending) rfl rfl rfl rfl
  · exact hrespawn _ rfl rfl (Bool.eq_false_iff.mpr hpending) rfl rfl rfl rfl
  · refine ⟨.inl ⟨rfl, rfl⟩, hinv.swap, ?_⟩
    rcases hgone { s with
        kill := true, shuttingDown := true, point := .signals, procs := [], execPid := none }
      rfl rfl rfl rfl with h | h
    · exact .inl h
    · exact .inr (.inr h)

/-- Where the manager's loop stands is of no concern. -/
theorem Inv.of_point (hinv : Inv S s) (point : Point) : Inv S { s with point } := by
  refine ⟨hinv.alone, hinv.swap, ?_⟩
  rcases hinv.story with hu | hl | he
  · exact .inl ⟨hu.handover, hu.path, hu.named, hu.config, hu.clearing⟩
  · exact .inr (.inl ⟨hl.handover, hl.path, hl.made, hl.swap, hl.signal, hl.pending,
      hl.strategy⟩)
  · exact .inr (.inr ⟨he.handover, he.path, he.request, he.trouble⟩)

/-- The manager looks at its signals. -/
theorem Inv.handleSignals (hinv : Inv S s) : Inv S s.handleSignals := by
  unfold Supervisor.handleSignals
  by_cases hsignal : s.restartExecReq
  · rw [if_pos hsignal]
    rcases hinv.alone with ⟨hnil, hexec⟩ | ⟨p, hp, hexec, hdown⟩
    · simp only [hexec]
      refine ⟨.inl ⟨hnil, rfl⟩, hinv.swap, ?_⟩
      rcases hinv.story with hu | hl | he
      · exact .inl ⟨hu.handover, hu.path, hu.named, hu.config, hu.clearing⟩
      · exact absurd (hl.signal.symm.trans hsignal) (by decide)
      · exact .inr (.inr ⟨he.handover, he.path, he.request, by simp [hnil]⟩)
    · simp only [hexec, hdown, Bool.false_eq_true, not_false_eq_true, true_and]
      -- the exec that is told to stop, or was told before, is in trouble
      split_ifs with hpending
      · refine ⟨.inr ⟨p, hp, rfl, rfl⟩, hinv.swap, ?_⟩
        rcases hinv.story with hu | hl | he
        · exact .inl ⟨hu.handover, hu.path, hu.named, hu.config, hu.clearing⟩
        · exact absurd (hl.signal.symm.trans hsignal) (by decide)
        · exact .inr (.inr ⟨he.handover, he.path, he.request, fun _ _ _ =>
            .inr (.inr (.inr (.inl hpending)))⟩)
      · simp only [hp, List.map_cons, if_true, List.map_nil]
        refine ⟨.inr ⟨_, rfl, rfl, rfl⟩, hinv.swap, ?_⟩
        rcases hinv.story with hu | hl | he
        · refine .inl ⟨hu.handover, hu.path, hu.named, ?_, fun hmade hclear => ?_⟩
          · simpa [hp] using hu.config
          · have hending := hu.clearing hmade hclear p (by simp [hp])
            simpa [ExecProc.ending] using hending
        · exact absurd (hl.signal.symm.trans hsignal) (by decide)
        · exact .inr (.inr ⟨he.handover, he.path, he.request, fun _ _ _ =>
            .inr (.inr (.inr (.inl rfl)))⟩)
  · rw [if_neg hsignal]
    exact hinv.of_point .wait

/-- **The invariant is kept**, as long as restarts and crashes come in time. -/
theorem Inv.step (hinv : Inv S s) {a : Occurrence} (htime : InTime s a)
    (h : s.step autoRestart S a = some t) : Inv S t := by
  cases a with
  | writePath =>
    simp only [Supervisor.step, Option.ite_none_right_eq_some, Option.some.injEq] at h
    obtain ⟨⟨hnone, hS⟩, rfl⟩ := h
    -- SWAP has not been set yet
    have hclear : s.swap = false :=
      Bool.eq_false_iff.mpr fun hs => absurd (hnone.symm.trans (hinv.swap hs)) (by decide)
    refine ⟨hinv.alone, fun hs => absurd (hclear.symm.trans hs) (by decide), ?_⟩
    rcases hinv.story with hu | hl | he
    · exact .inl ⟨hu.handover, rfl, fun _ => hS, hu.config, fun h => by cases h⟩
    · exact absurd (hnone.symm.trans hl.made) (by decide)
    · exact absurd hnone he.request
  | setSwap =>
    simp only [Supervisor.step, Option.ite_none_right_eq_some, Option.some.injEq] at h
    obtain ⟨hwritten, rfl⟩ := h
    refine ⟨hinv.alone, fun _ => rfl, ?_⟩
    rcases hinv.story with hu | hl | he
    · have hreq : s.request ≠ .none := by simp [hwritten]
      refine .inl ⟨hu.handover, ?_, fun _ => hu.named hreq, hu.config, fun _ h => by cases h⟩
      have hpath := hu.path
      rw [if_neg hreq] at hpath
      exact hpath
    · exact absurd (hwritten.symm.trans hl.made) (by decide)
    · exact .inr (.inr ⟨he.handover, he.path, by simp, fun _ _ _ => .inr (.inl rfl)⟩)
  | sigusr1 =>
    cases h
    refine ⟨hinv.alone, hinv.swap, ?_⟩
    rcases hinv.story with hu | hl | he
    · exact .inl ⟨hu.handover, hu.path, hu.named, hu.config, hu.clearing⟩
    · -- SWAP is cleared by now, and SIGUSR1 comes before that
      exact absurd (hl.swap.symm.trans (htime hl.made)) (by decide)
    · exact .inr (.inr ⟨he.handover, he.path, he.request, fun _ _ _ => .inr (.inr (.inl rfl))⟩)
  | crash pid status =>
    obtain ⟨p, p', swap', hp, hexec, hdown, hf, rfl⟩ := moveProc_cases hinv.alone h
    simp only [Option.ite_none_left_eq_some, Option.some.injEq, Prod.mk.injEq] at hf
    obtain ⟨-, rfl, rfl⟩ := hf
    refine hinv.moved hp hexec hdown ExecProc.moved_crash fun hl => ?_
    exact absurd (hl.swap.symm.trans (htime hl.made)) (by decide)
  | deliver pid =>
    obtain ⟨p, p', swap', hp, hexec, hdown, hf, rfl⟩ := moveProc_cases hinv.alone h
    simp only [Option.ite_none_right_eq_some, Option.some.injEq, Prod.mk.injEq] at hf
    obtain ⟨⟨hterm, -⟩, rfl, rfl⟩ := hf
    refine hinv.moved hp hexec hdown ExecProc.moved_deliver fun _ hcalm => ?_
    simp [ExecProc.calm, hterm] at hcalm
  | exec pid move =>
    obtain ⟨p, p', swap', hp, hexec, hdown, hf, rfl⟩ := moveProc_cases hinv.alone h
    refine hinv.moved hp hexec hdown (ExecProc.moved_next hf) fun hl hcalm => ?_
    rw [hl.swap] at hf
    exact ExecProc.calm_next hcalm hf
  | signals =>
    simp only [Supervisor.step, Option.ite_none_right_eq_some, Option.some.injEq] at h
    obtain ⟨-, rfl⟩ := h
    exact hinv.handleSignals
  | waitNone =>
    simp only [Supervisor.step, Option.ite_none_right_eq_some, Option.some.injEq] at h
    obtain ⟨-, rfl⟩ := h
    exact hinv.of_point .signals
  | reap pid config child =>
    simp only [Supervisor.step, Option.ite_none_right_eq_some] at h
    obtain ⟨-, h⟩ := h
    rcases hinv.alone with ⟨hnil, -⟩ | ⟨p, hp, hexec, hdown⟩
    · simp [hnil] at h
    · rw [hp] at h
      by_cases hpid : p.pid = pid
      · simp only [List.find?_cons, hpid, decide_true] at h
        split at h
        · next status hphase => exact Option.some.inj h ▸ hinv.reaped hp hexec hdown hphase _ _
        · cases h
      · simp [hpid] at h

theorem init_start (config : String) (child : Option ℕ) :
    (supervision autoRestart S).Init (.start config child) := ⟨config, child, rfl⟩

theorem inv_reachable {cond : Supervisor → Occurrence → Prop}
    (hcond : ∀ s a, cond s a → InTime s a)
    (hs : (supervision autoRestart S).ReachableWhen cond s) : Inv S s :=
  hs.invariant (fun _ ⟨config, child, h⟩ => h ▸ inv_start config child)
    fun _ _ _ _ hc h hinv => hinv.step (hcond _ _ hc) h

/-! ### The request is honoured -/

/-- **At most one exec** exists, alive or not. -/
theorem one_exec {cond : Supervisor → Occurrence → Prop} (hcond : ∀ s a, cond s a → InTime s a)
    (hs : (supervision autoRestart S).ReachableWhen cond s) : s.procs.length ≤ 1 := by
  rcases (inv_reachable hcond hs).alone with ⟨hnil, -⟩ | ⟨p, hp, -⟩
  · simp [hnil]
  · simp [hp]

/-- **Who runs in the end.** When everything is quiet, the exec was started from `swap_path`
exactly if the path was taken after SWAP was cleared and while no SIGUSR1 was waiting. -/
theorem fromSwapPath_iff (hs : (supervision autoRestart S).ReachableWhen InTime s)
    (hquiet : s.Quiet) {p : ExecProc} (hp : p ∈ s.procs) :
    p.fromSwapPath ↔ s.handover = some ⟨true, false⟩ := by
  obtain ⟨hmade, hclear, hsignal, hpending, hstays⟩ := hquiet
  rcases (inv_reachable (fun _ _ h => h) hs).story with hu | hl | he
  · have hending := hu.clearing hmade hclear p hp
    exact absurd ((hstays p hp).symm.trans hending) (by decide)
  · exact iff_of_true (hl.strategy p hp).1 hl.handover
  · obtain ⟨h, hhand, hne⟩ := he.handover
    refine iff_of_false (fun hfrom => ?_) (by simpa [hhand] using hne)
    rcases he.trouble p hp hfrom with h | h | h | h | h
    · exact h hmade
    · exact absurd (hclear.symm.trans h) (by decide)
    · exact absurd (hsignal.symm.trans h) (by decide)
    · exact absurd (hpending.symm.trans h) (by decide)
    · exact absurd ((hstays p hp).symm.trans h) (by decide)

/-- `swap_path` is taken by a respawn only. -/
theorem handover_step {a : Occurrence} (h : s.step autoRestart S a = some t) :
    t.handover = s.handover ∨ ∃ pid config child, a = .reap pid config child ∧ s.swapPath ≠ "" ∧
      t.handover = some ⟨decide (s.request = .made) && !s.swap, s.restartExecReq⟩ := by
  have hmove : ∀ {pid f}, s.moveProc pid f = some t → t.handover = s.handover := by
    intro pid f h
    unfold Supervisor.moveProc at h
    split at h
    · cases h
    · split at h
      · cases h
      · exact Option.some.inj h ▸ rfl
  cases a with
  | writePath | setSwap | waitNone =>
    simp only [Supervisor.step, Option.ite_none_right_eq_some, Option.some.injEq] at h
    exact .inl (h.2 ▸ rfl)
  | sigusr1 => exact .inl (Option.some.inj h ▸ rfl)
  | crash pid status => exact .inl (hmove h)
  | deliver pid => exact .inl (hmove h)
  | exec pid move => exact .inl (hmove h)
  | signals =>
    simp only [Supervisor.step, Option.ite_none_right_eq_some, Option.some.injEq] at h
    obtain ⟨-, rfl⟩ := h
    left
    unfold Supervisor.handleSignals
    split
    · split
      · split <;> rfl
      · rfl
    · rfl
  | reap pid config child =>
    simp only [Supervisor.step, Option.ite_none_right_eq_some] at h
    obtain ⟨-, h⟩ := h
    -- the path is read where exec is started, and nowhere else
    have hrespawn : ∀ r : Supervisor, r.swapPath = s.swapPath → r.handover = s.handover →
        r.request = s.request → r.swap = s.swap → r.restartExecReq = s.restartExecReq →
        (r.respawnExec config child).handover = s.handover ∨
          s.swapPath ≠ "" ∧ (r.respawnExec config child).handover =
            some ⟨decide (s.request = .made) && !s.swap, s.restartExecReq⟩ := by
      intro r hpath hhand hreq hswap hsignal
      simp only [Supervisor.respawnExec, hpath, hhand, hreq, hswap, hsignal]
      split_ifs with hset
      · exact .inr ⟨hset, rfl⟩
      · exact .inl rfl
    have hreaped : ∀ p status, (s.reaped autoRestart p status config child).handover = s.handover ∨
        s.swapPath ≠ "" ∧ (s.reaped autoRestart p status config child).handover =
          some ⟨decide (s.request = .made) && !s.swap, s.restartExecReq⟩ := by
      intro p status
      unfold Supervisor.reaped Supervisor.handleExit
      dsimp only
      split_ifs
      · exact .inl rfl
      · apply hrespawn <;> rfl
      · apply hrespawn <;> rfl
      · apply hrespawn <;> rfl
      · exact .inl rfl
      · exact .inl rfl
    split at h
    · cases h
    · split at h
      · rcases hreaped _ _ with hkeep | ⟨hset, hhand⟩
        · exact .inl (Option.some.inj h ▸ hkeep)
        · exact .inr ⟨pid, config, child, rfl, hset, Option.some.inj h ▸ hhand⟩
      · cases h

/-- In a run in which `swap_path` is only taken whole, the record says so. -/
theorem handover_whole
    (hs : (supervision autoRestart S).ReachableWhen (fun s a => InTime s a ∧ TakenWhole s a) s) :
    ∀ h, s.handover = some h → h = ⟨true, false⟩ := by
  refine hs.invariant (P := fun s => ∀ h, s.handover = some h → h = ⟨true, false⟩) ?_ ?_
  · rintro _ ⟨config, child, rfl⟩ h hh
    cases hh
  · intro s a t _ hc hstep hwhole h hh
    rcases handover_step hstep with hkeep | ⟨pid, config, child, rfl, hset, hhand⟩
    · exact hwhole h (hkeep ▸ hh)
    · obtain ⟨hmade, hclear, hsignal⟩ := hc.2 hset
      rw [hhand] at hh
      simpa [hmade, hclear, hsignal] using hh.symm

/-- **A requested swap is honoured**, where `swap_path` is taken whole. -/
theorem swap_honoured
    (hs : (supervision autoRestart S).ReachableWhen (fun s a => InTime s a ∧ TakenWhole s a) s) :
    (s.procs.filter fun p => !p.dead).length ≤ 1 ∧
      (s.Quiet → ∀ p ∈ s.procs, p.strategy = S) := by
  refine ⟨?_, fun hquiet p hp => ?_⟩
  · exact Nat.le_trans (List.length_filter_le _ _) (one_exec (fun _ _ h => h.1) hs)
  · obtain ⟨hmade, hclear, -, -, hstays⟩ := hquiet
    rcases (inv_reachable (fun _ _ h => h.1) hs).story with hu | hl | he
    · have hending := hu.clearing hmade hclear p hp
      exact absurd ((hstays p hp).symm.trans hending) (by decide)
    · exact (hl.strategy p hp).2.1
    · obtain ⟨h, hhand, hne⟩ := he.handover
      exact absurd (handover_whole hs h hhand) hne

/-- A swap that nothing disturbs. -/
theorem swap_honoured_plain :
    ∃ s : Supervisor, s.Quiet ∧ s.procs.length = 1 ∧
      ∀ p ∈ s.procs, p.strategy = "./strategy.so" := by
  have hrun : ((((supervision true "./strategy.so").execWhen
      (fun s a => InTime s a ∧ TakenWhole s a) (.start "builtin:logging" (some 1))
      [.exec 1 .advance, .exec 1 .advance, .exec 1 .advance, .writePath, .setSwap,
        .exec 1 .advance, .exec 1 .advance, .exec 1 .advance, .exec 1 .advance, .signals,
        .reap 1 "builtin:logging" (some 2)]).map fun s =>
      (decide s.Quiet, s.procs.length)) = some (true, 1)) := by
    decide +kernel
  obtain ⟨s, hs, hvalues⟩ := Option.map_eq_some_iff.1 hrun
  obtain ⟨hquiet, hlength⟩ := Prod.mk.inj hvalues
  have hquiet := of_decide_eq_true hquiet
  exact ⟨s, hquiet, hlength, (swap_honoured (.execWhen (.init (init_start _ _)) _ hs)).2 hquiet⟩

/-- SIGUSR1 stops the exec before it has seen SWAP. The exec of the requested strategy finds SWAP
still set, leaves, and the config's strategy follows. -/
theorem swap_lost :
    ∃ s : Supervisor, (supervision true "./strategy.so").ReachableWhen InTime s ∧ s.Quiet ∧
      ∃ p ∈ s.procs, p.strategy ≠ "./strategy.so" := by
  have hrun : ((((supervision true "./strategy.so").execWhen InTime
      (.start "builtin:logging" (some 1))
      [.exec 1 .advance, .exec 1 .advance, .exec 1 .advance, .writePath, .setSwap, .sigusr1,
        .signals, .deliver 1, .exec 1 .advance, .exec 1 .advance, .exec 1 .advance,
        .reap 1 "builtin:logging" (some 2), .exec 2 .advance, .exec 2 .advance, .exec 2 .advance,
        .exec 2 .advance, .exec 2 .advance, .exec 2 .advance, .exec 2 .advance, .signals,
        .reap 2 "builtin:logging" (some 3)]).map fun s =>
      (decide s.Quiet, s.procs.map (·.strategy))) = some (true, ["builtin:logging"])) := by
    decide +kernel
  obtain ⟨s, hs, hvalues⟩ := Option.map_eq_some_iff.1 hrun
  obtain ⟨hquiet, hstrategy⟩ := Prod.mk.inj hvalues
  refine ⟨s, .execWhen (.init (init_start _ _)) _ hs, of_decide_eq_true hquiet, ?_⟩
  obtain ⟨p, hp, hpstrategy⟩ : ∃ p ∈ s.procs, p.strategy = "builtin:logging" :=
    List.mem_map.1 (hstrategy ▸ List.mem_singleton.2 rfl)
  exact ⟨p, hp, hpstrategy ▸ by decide⟩

end Manager

end LowLatencyPipeline
