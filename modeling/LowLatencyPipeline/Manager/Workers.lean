import LowLatencyPipeline.Manager.Supervisor
import Mathlib.Data.List.Nodup

/-!
# The manager and all its workers

`managing` is the main loop of `manager.cpp` with the processes of all four roles, the operator's
signals and whatever else happens to the control flags. A process may exit at any moment and in
any way. What a worker is started with is left out here; the restart of exec with its strategy is
the subject of `Manager.Supervisor`.

`workers_known` is the bookkeeping of the loop: its table of pids is exact at any time, so no role
runs twice and no signal goes to a process that is gone, and nothing is started during a shutdown.
`exit_code` says what the loop returns and when it sets KILL and PAUSE, in terms of the exits it
has handled.
-/

namespace LowLatencyPipeline

namespace Manager

/-- `Role`. -/
inductive Role
  | exchange
  | core
  | exec
  | dashboard
  deriving DecidableEq

/-- A process that was forked and not reaped. -/
structure Child where
  pid : ℕ
  role : Role
  /-- the manager has sent it a SIGTERM -/
  sigterm : Bool := false
  /-- how it ended, once it has -/
  status : Option Status := none
  deriving DecidableEq

/-- Where the manager's loop stands. -/
inductive LoopPoint
  /-- at its head -/
  | signals
  /-- about to look at `restart_exec_req` -/
  | restart
  /-- about to call `waitpid` -/
  | wait
  /-- a feed producer died: in the second before the shutdown -/
  | dying
  | done
  deriving DecidableEq

/-- An exit that the loop handled outside of a shutdown. -/
structure Exit where
  role : Role
  status : Status
  /-- `exec_restart_pending` by then -/
  pending : Bool
  deriving DecidableEq

/-- The manager's variables, the control flags and the processes. -/
structure Loop where
  /-- `ipc::KILL` -/
  kill : Bool := false
  /-- `ipc::PAUSE` -/
  pause : Bool := false
  /-- `w[role].pid`, `none` for -1 -/
  pid : Role → Option ℕ
  children : List Child
  shutdownReq : Bool := false
  restartExecReq : Bool := false
  exitCode : ℕ := 0
  shuttingDown : Bool := false
  execRestartPending : Bool := false
  point : LoopPoint := .signals
  /-- the exits handled so far, the newest first; no code looks at it -/
  exits : List Exit := []

/-- What happens next. -/
inductive LoopStep
  /-- a process ends -/
  | exit (pid : ℕ) (status : Status)
  /-- SIGINT or SIGTERM reaches the manager -/
  | sigterm
  /-- SIGUSR1 reaches the manager -/
  | sigusr1
  /-- someone else writes the control flags -/
  | control (kill pause : Bool)
  /-- the loop looks at `shutdown_req` -/
  | shutdown
  /-- the loop looks at `restart_exec_req` -/
  | restart
  /-- `waitpid` returns 0, or is interrupted -/
  | waitNone
  /-- `waitpid` returns this process; `child` is what `fork` returns if exec is started again -/
  | reap (pid : ℕ) (child : Option ℕ)
  /-- `waitpid` finds no process -/
  | noChild
  /-- the second is over -/
  | slept

namespace Loop

variable (autoRestart : Bool) (s : Loop)

/-- The processes after the forks of the start. -/
def started (pid : Role → Option ℕ) : List Child :=
  [Role.exchange, .core, .exec, .dashboard].filterMap fun role =>
    (pid role).map fun pid => { pid, role }

/-- `begin_shutdown`. The signal goes to the process group, the manager included. -/
def beginShutdown (code : ℕ) : Loop :=
  if s.shuttingDown then s
  else
    { s with
      shuttingDown := true
      exitCode := code
      shutdownReq := true
      children := s.children.map fun c => { c with sigterm := true } }

/-- `respawn_exec`. -/
def respawnExec (child : Option ℕ) : Loop :=
  { s with
    pid := Function.update s.pid .exec child
    children := s.children ++ child.toList.map fun pid => { pid, role := .exec } }

/-- The loop handles the exit of a worker outside of a shutdown. -/
def handleExit (role : Role) (status : Status) (child : Option ℕ) : Loop :=
  match role with
  | .exchange | .core =>
    if status = .exited 0 then s.beginShutdown 0
    else { s with kill := true, pause := true, point := .dying }
  | .exec =>
    if s.execRestartPending then { s with execRestartPending := false }.respawnExec child
    else if status = .exited EXIT_SWAP then s.respawnExec child
    else if autoRestart then { s with kill := true }.respawnExec child
    else { s with kill := true }.beginShutdown 1
  | .dashboard => s

/-- The role that the table has a pid for; the loop goes on to the last one. -/
def roleOf (pid : ℕ) : Option Role :=
  [Role.dashboard, .exec, .core, .exchange].find? fun role => s.pid role = some pid

/-- `waitpid` has returned a process. -/
def reaped (pid : ℕ) (status : Status) (child : Option ℕ) : Loop :=
  let s := { s with point := .signals, children := s.children.filter (·.pid ≠ pid) }
  match s.roleOf pid with
  | none => s
  | some role =>
    let s := { s with pid := Function.update s.pid role none }
    if s.shuttingDown then s
    else
      { s with exits := ⟨role, status, s.execRestartPending⟩ :: s.exits }.handleExit autoRestart
        role status child

/-- One step. -/
def step : LoopStep → Option Loop
  | .exit pid status =>
    some { s with
      children := s.children.map fun c =>
        if c.pid = pid ∧ c.status = none then { c with status := some status } else c }
  | .sigterm => some { s with shutdownReq := true }
  | .sigusr1 => some { s with restartExecReq := true }
  | .control kill pause => some { s with kill, pause }
  | .shutdown =>
    if s.point = .signals then
      some { (if s.shutdownReq ∧ !s.shuttingDown then s.beginShutdown 0 else s) with
        point := .restart }
    else none
  | .restart =>
    if s.point = .restart then
      if s.restartExecReq then
        let s := { s with restartExecReq := false, point := .wait }
        if !s.shuttingDown ∧ (s.pid .exec).isSome ∧ !s.execRestartPending then
          some { s with
            execRestartPending := true
            children := s.children.map fun c =>
              if some c.pid = s.pid .exec then { c with sigterm := true } else c }
        else some s
      else some { s with point := .wait }
    else none
  | .waitNone =>
    if s.point = .wait ∧ s.children ≠ [] then some { s with point := .signals } else none
  | .reap pid child =>
    -- a new process has the pid of no other one
    if s.point = .wait ∧ ∀ c ∈ s.children, c.pid ≠ pid → child ≠ some c.pid then
      match s.children.find? (·.pid = pid) with
      | none => none
      | some c => c.status.map fun status => s.reaped autoRestart pid status child
    else none
  | .noChild =>
    if s.point = .wait ∧ s.children = [] then some { s with point := .done } else none
  | .slept =>
    if s.point = .dying then some { s.beginShutdown 1 with point := .signals } else none

end Loop

/-- The manager's loop in all interleavings, after the forks with these results. -/
def managing (autoRestart : Bool) (pid : Role → Option ℕ) : Machine Loop LoopStep where
  Init s := ((Loop.started pid).map Child.pid).Nodup ∧
    ∃ kill pause shutdownReq restartExecReq,
      s = { kill, pause, pid, children := Loop.started pid, shutdownReq, restartExecReq }
  step s a := s.step autoRestart a

/-! ### The table of pids -/

/-- **The table is exact**: every process is the worker of its role, and every pid of the table
is one of a process. -/
structure Known (pid : Role → Option ℕ) (children : List Child) : Prop where
  nodup : (children.map Child.pid).Nodup
  worker : ∀ c ∈ children, pid c.role = some c.pid
  child : ∀ role n, pid role = some n → ∃ c ∈ children, c.pid = n ∧ c.role = role

namespace Known

variable {pid : Role → Option ℕ} {children : List Child}

theorem eq_of_pid_eq (h : Known pid children) {c c' : Child} (hc : c ∈ children)
    (hc' : c' ∈ children) (hpid : c.pid = c'.pid) : c = c' :=
  List.inj_on_of_nodup_map h.nodup hc hc' hpid

/-- A role runs at most once. -/
theorem eq_of_role_eq (h : Known pid children) {c c' : Child} (hc : c ∈ children)
    (hc' : c' ∈ children) (hrole : c.role = c'.role) : c = c' :=
  h.eq_of_pid_eq hc hc' (Option.some.inj (by rw [← h.worker c hc, hrole, h.worker c' hc']))

/-- Processes change, but none of them its pid or its role. -/
theorem map (h : Known pid children) {f : Child → Child}
    (hf : ∀ c, (f c).pid = c.pid ∧ (f c).role = c.role) : Known pid (children.map f) where
  nodup := by
    rw [List.map_map, show Child.pid ∘ f = Child.pid from funext fun c => (hf c).1]
    exact h.nodup
  worker c' hc' := by
    obtain ⟨c, hc, rfl⟩ := List.mem_map.1 hc'
    rw [(hf c).1, (hf c).2, h.worker c hc]
  child role n hn := by
    obtain ⟨c, hc, hpid, hrole⟩ := h.child role n hn
    exact ⟨f c, List.mem_map_of_mem hc, (hf c).1.trans hpid, (hf c).2.trans hrole⟩

/-- A process is reaped. -/
theorem reap (h : Known pid children) {c : Child} (hc : c ∈ children) :
    Known (Function.update pid c.role none) (children.filter (·.pid ≠ c.pid)) where
  nodup := h.nodup.sublist (List.filter_sublist.map Child.pid)
  worker c' hc' := by
    obtain ⟨hmem, hne⟩ := List.mem_filter.1 hc'
    rw [decide_eq_true_iff] at hne
    have hrole : c'.role ≠ c.role := fun hrole => hne (h.eq_of_role_eq hmem hc hrole ▸ rfl)
    rw [Function.update_of_ne hrole, h.worker c' hmem]
  child role n hn := by
    have hrole : role ≠ c.role := by
      rintro rfl
      rw [Function.update_self] at hn
      exact absurd hn (by simp)
    rw [Function.update_of_ne hrole] at hn
    obtain ⟨c', hc', hpid, hrole'⟩ := h.child role n hn
    refine ⟨c', List.mem_filter.2 ⟨hc', decide_eq_true fun heq => hrole ?_⟩, hpid, hrole'⟩
    rw [← hrole', h.eq_of_pid_eq hc' hc heq]

/-- Exec is started again, with a pid that no process has. -/
theorem respawn (h : Known pid children) (hexec : pid .exec = none) {child : Option ℕ}
    (hfresh : ∀ c ∈ children, child ≠ some c.pid) :
    Known (Function.update pid .exec child)
      (children ++ child.toList.map fun n => { pid := n, role := .exec }) := by
  have hnone (c : Child) (hc : c ∈ children) : c.role ≠ .exec := fun hrole => by
    have hworker := h.worker c hc
    rw [hrole, hexec] at hworker
    exact absurd hworker (by simp)
  cases child with
  | none =>
    rw [show Function.update pid .exec none = pid from hexec ▸ Function.update_eq_self _ pid]
    simpa using h
  | some n =>
    refine ⟨?_, fun c hc => ?_, fun role m hm => ?_⟩
    · rw [List.map_append, List.nodup_append]
      refine ⟨h.nodup, List.nodup_singleton n, fun a ha b hb => ?_⟩
      obtain ⟨c, hc, rfl⟩ := List.mem_map.1 ha
      obtain rfl : b = n := by simpa using hb
      exact fun heq => hfresh c hc (heq ▸ rfl)
    · rcases List.mem_append.1 hc with hc | hc
      · rw [Function.update_of_ne (hnone c hc), h.worker c hc]
      · obtain rfl : c = ⟨n, .exec, false, none⟩ := by simpa using hc
        exact Function.update_self ..
    · by_cases hrole : role = .exec
      · subst hrole
        rw [Function.update_self, Option.some.injEq] at hm
        exact ⟨⟨n, .exec, false, none⟩, by simp, hm, rfl⟩
      · rw [Function.update_of_ne hrole] at hm
        obtain ⟨c, hc, hc'⟩ := h.child role m hm
        exact ⟨c, List.mem_append_left _ hc, hc'⟩

end Known

theorem known_started {pid : Role → Option ℕ}
    (hnodup : ((Loop.started pid).map Child.pid).Nodup) : Known pid (Loop.started pid) := by
  have hmem (c : Child) : c ∈ Loop.started pid ↔
      ∃ n, pid c.role = some n ∧ c = { pid := n, role := c.role } := by
    rw [Loop.started, List.mem_filterMap]
    constructor
    · rintro ⟨role, -, hc⟩
      obtain ⟨n, hn, rfl⟩ := Option.map_eq_some_iff.1 hc
      exact ⟨n, hn, rfl⟩
    · rintro ⟨n, hn, hc⟩
      refine ⟨c.role, by cases c.role <;> simp, ?_⟩
      rw [hn, Option.map_some, ← hc]
  refine ⟨hnodup, fun c hc => ?_, fun role n hn => ?_⟩
  · obtain ⟨n, hn, hc⟩ := (hmem c).1 hc
    rw [hn, hc]
  · exact ⟨{ pid := n, role }, (hmem _).2 ⟨n, hn, rfl⟩, rfl, rfl⟩

/-- The table finds the role of a process. -/
theorem Known.roleOf {s : Loop} (h : Known s.pid s.children) {c : Child} (hc : c ∈ s.children)
    {children : List Child} : Loop.roleOf { s with point := .signals, children } c.pid =
      some c.role := by
  have hfound : (Loop.roleOf s c.pid).isSome := by
    rw [Loop.roleOf, List.find?_isSome]
    exact ⟨c.role, by cases c.role <;> simp, decide_eq_true (h.worker c hc)⟩
  obtain ⟨role, hrole⟩ := Option.isSome_iff_exists.1 hfound
  have hpid : s.pid role = some c.pid := by
    have hsome := List.find?_some hrole
    exact of_decide_eq_true hsome
  obtain ⟨c', hc', hpid', hrole'⟩ := h.child role c.pid hpid
  change Loop.roleOf s c.pid = some c.role
  rw [hrole, ← h.eq_of_pid_eq hc' hc hpid', hrole']

/-! ### The invariant -/

/-- The exit makes the manager return 1. -/
def Exit.fatal (autoRestart : Bool) (e : Exit) : Bool :=
  match e.role with
  | .exchange | .core => e.status ≠ .exited 0
  | .exec => !e.pending && e.status ≠ .exited EXIT_SWAP && !autoRestart
  | .dashboard => false

/-- A feed producer died. -/
def Exit.starves (e : Exit) : Bool :=
  match e.role with
  | .exchange | .core => e.status ≠ .exited 0
  | .exec | .dashboard => false

/-- A feed producer died, or exec did without having been asked to stop. -/
def Exit.unexpected (e : Exit) : Bool :=
  match e.role with
  | .exchange | .core => e.status ≠ .exited 0
  | .exec => !e.pending && e.status ≠ .exited EXIT_SWAP
  | .dashboard => false

/-- **The invariant** of the loop's variables. -/
structure Supervised (autoRestart : Bool) (start : Role → Option ℕ) (s : Loop) : Prop where
  known : Known s.pid s.children
  sigterm : s.shuttingDown = true → ∀ c ∈ s.children, c.sigterm = true
  pending : s.execRestartPending = true →
    s.shuttingDown = true ∨ ∃ c ∈ s.children, c.role = .exec ∧ c.sigterm = true
  dying : s.point = .dying → s.shuttingDown = false ∧ s.exits.any (Exit.fatal autoRestart) = true
  done : s.point = .done → s.children = []
  producer : ∀ role, role = .exchange ∨ role = .core → start role ≠ none →
    s.pid role ≠ none ∨ s.shuttingDown = true ∨ s.point = .dying
  failed : s.exits.any (Exit.fatal autoRestart) = true →
    s.shuttingDown = true ∨ s.point = .dying
  code : s.exitCode =
    if s.exits.any (Exit.fatal autoRestart) = true ∧ s.point ≠ .dying then 1 else 0

section Steps

variable {autoRestart : Bool} {start : Role → Option ℕ} {s t : Loop}

theorem beginShutdown_of_not (h : s.shuttingDown = false) (code : ℕ) : s.beginShutdown code =
    { s with
      shuttingDown := true
      exitCode := code
      shutdownReq := true
      children := s.children.map fun c => { c with sigterm := true } } := by
  rw [Loop.beginShutdown, h]
  rfl

/-- The signal of a shutdown reaches every process. -/
theorem sigterm_map (children : List Child) :
    ∀ c ∈ children.map (fun c : Child => { c with sigterm := true }), c.sigterm = true := by
  intro c hc
  obtain ⟨c', -, rfl⟩ := List.mem_map.1 hc
  rfl

/-- **A shutdown begins**, whose code is that of the exits so far. -/
theorem Supervised.beginShutdown (hknown : Known s.pid s.children)
    (hdown : s.shuttingDown = false) {point : LoopPoint}
    (hpoint : point = .signals ∨ point = .restart) {code : ℕ}
    (hcode : code = if s.exits.any (Exit.fatal autoRestart) = true then 1 else 0) :
    Supervised autoRestart start { s.beginShutdown code with point } := by
  have hdying : point ≠ .dying := by rcases hpoint with rfl | rfl <;> simp
  have hdone : point ≠ .done := by rcases hpoint with rfl | rfl <;> simp
  rw [beginShutdown_of_not hdown]
  exact
    { known := hknown.map fun _ => ⟨rfl, rfl⟩
      sigterm := fun _ => sigterm_map s.children
      pending := fun _ => .inl rfl
      dying := fun h => absurd h hdying
      done := fun h => absurd h hdone
      producer := fun _ _ _ => .inr (.inl rfl)
      failed := fun _ => .inl rfl
      code := by
        change code = if _ ∧ point ≠ .dying then 1 else 0
        rw [hcode]
        simp [hdying] }

/-- **Exec is started again.** -/
theorem Supervised.respawnExec (hknown : Known s.pid s.children) (hexec : s.pid .exec = none)
    {child : Option ℕ} (hfresh : ∀ c ∈ s.children, child ≠ some c.pid)
    (hdown : s.shuttingDown = false) (hpending : s.execRestartPending = false)
    (hpoint : s.point = .signals) (hcode : s.exitCode = 0)
    (hexits : s.exits.any (Exit.fatal autoRestart) = false)
    (hproducer : ∀ role, role = .exchange ∨ role = .core → start role ≠ none →
      s.pid role ≠ none) : Supervised autoRestart start (s.respawnExec child) where
  known := hknown.respawn hexec hfresh
  sigterm h := absurd (hdown.symm.trans h) (by simp)
  pending h := absurd (hpending.symm.trans h) (by simp)
  dying h := absurd (hpoint.symm.trans h) (by simp)
  done h := absurd (hpoint.symm.trans h) (by simp)
  producer role hrole hstart := by
    refine .inl ?_
    change Function.update s.pid .exec child role ≠ none
    rw [Function.update_of_ne (by rcases hrole with rfl | rfl <;> simp)]
    exact hproducer role hrole hstart
  failed h := absurd (hexits.symm.trans h) (by simp)
  code := by
    change s.exitCode =
      if s.exits.any (Exit.fatal autoRestart) = true ∧ s.point ≠ .dying then 1 else 0
    rw [hexits, hcode]
    simp

/-- **The loop handles an exit**, in the state in which the process is gone already. -/
theorem Supervised.handleExit {c : Child} {r : Loop} {status : Status} {child : Option ℕ}
    (hknown : Known r.pid r.children) (hgone : r.pid c.role = none)
    (hfresh : ∀ c' ∈ r.children, child ≠ some c'.pid) (hdown : r.shuttingDown = false)
    (hpending : r.execRestartPending = true → c.role ≠ .exec →
      ∃ c' ∈ r.children, c'.role = .exec ∧ c'.sigterm = true)
    (hpoint : r.point = .signals) (hcode : r.exitCode = 0)
    {exits : List Exit} (hexits : r.exits = ⟨c.role, status, r.execRestartPending⟩ :: exits)
    (hbefore : exits.any (Exit.fatal autoRestart) = false)
    (hproducer : ∀ role, role = .exchange ∨ role = .core → start role ≠ none → role ≠ c.role →
      r.pid role ≠ none) :
    Supervised autoRestart start (r.handleExit autoRestart c.role status child) := by
  have hfatal : r.exits.any (Exit.fatal autoRestart) =
      Exit.fatal autoRestart ⟨c.role, status, r.execRestartPending⟩ := by
    rw [hexits, List.any_cons, hbefore, Bool.or_false]
  have hproducers (hrole : c.role = .exchange ∨ c.role = .core) :
      Supervised autoRestart start
        (if status = .exited 0 then r.beginShutdown 0
          else { r with kill := true, pause := true, point := .dying }) := by
    have hne : c.role ≠ .exec := by rcases hrole with h | h <;> rw [h] <;> simp
    have hfatal' : r.exits.any (Exit.fatal autoRestart) = decide (status ≠ .exited 0) := by
      rw [hfatal, Exit.fatal]
      rcases hrole with h | h <;> rw [h]
    split_ifs with hclean
    · have hshutdown : Supervised autoRestart start { r.beginShutdown 0 with point := .signals } :=
        .beginShutdown hknown hdown (.inl rfl) (by rw [hfatal']; simp [hclean])
      rw [beginShutdown_of_not hdown] at hshutdown ⊢
      rwa [hpoint]
    · exact
        { known := hknown
          sigterm := fun h => absurd (hdown.symm.trans h) (by simp)
          pending := fun h => .inr (hpending h hne)
          dying := fun _ => ⟨hdown, hfatal'.trans (by simp [hclean])⟩
          done := fun h => absurd h (by simp)
          producer := fun _ _ _ => .inr (.inr rfl)
          failed := fun _ => .inr rfl
          code := by
            change r.exitCode = if _ ∧ LoopPoint.dying ≠ .dying then 1 else 0
            rw [hcode]
            simp }
  cases hrole : c.role with
  | exchange => exact hproducers (.inl hrole)
  | core => exact hproducers (.inr hrole)
  | exec =>
    rw [hrole] at hgone
    have hstill (role : Role) (hr : role = .exchange ∨ role = .core) (hstart : start role ≠ none) :
        r.pid role ≠ none :=
      hproducer role hr hstart (by rw [hrole]; rcases hr with rfl | rfl <;> simp)
    have hexec : r.exits.any (Exit.fatal autoRestart) =
        (!r.execRestartPending && decide (status ≠ .exited EXIT_SWAP) && !autoRestart) := by
      rw [hfatal, Exit.fatal, hrole]
    unfold Loop.handleExit
    dsimp only
    split_ifs with hasked hswap hauto
    · exact .respawnExec (s := { r with execRestartPending := false }) hknown hgone hfresh hdown
        rfl hpoint hcode (hexec.trans (by simp [hasked])) hstill
    · exact .respawnExec hknown hgone hfresh hdown (by simpa using hasked) hpoint hcode
        (hexec.trans (by simp [hswap])) hstill
    · exact .respawnExec (s := { r with kill := true }) hknown hgone hfresh hdown
        (by simpa using hasked) hpoint hcode (hexec.trans (by simp [hauto])) hstill
    · have hshutdown : Supervised autoRestart start
          { ({ r with kill := true } : Loop).beginShutdown 1 with point := .signals } :=
        .beginShutdown (s := { r with kill := true }) hknown hdown (.inl rfl)
          (by change 1 = if r.exits.any _ = true then 1 else 0; rw [hexec]; simp [hasked, hswap,
            hauto])
      rw [beginShutdown_of_not (s := { r with kill := true }) hdown] at hshutdown ⊢
      rwa [hpoint]
  | dashboard =>
    have hquiet : r.exits.any (Exit.fatal autoRestart) = false := by
      rw [hfatal, Exit.fatal, hrole]
    exact
      { known := hknown
        sigterm := fun h => absurd (hdown.symm.trans h) (by simp)
        pending := fun h => .inr (hpending h (by rw [hrole]; simp))
        dying := fun h => absurd (hpoint.symm.trans h) (by simp)
        done := fun h => absurd (hpoint.symm.trans h) (by simp)
        producer := fun role hr hstart =>
          .inl (hproducer role hr hstart (by rw [hrole]; rcases hr with rfl | rfl <;> simp))
        failed := fun h => absurd (hquiet.symm.trans h) (by simp)
        code := by
          change r.exitCode =
            if r.exits.any (Exit.fatal autoRestart) = true ∧ r.point ≠ .dying then 1 else 0
          rw [hquiet, hcode]
          simp }

/-- Processes end, or are sent a signal; the loop moves on between its points. -/
theorem Supervised.of_map (h : Supervised autoRestart start s) {f : Child → Child}
    (hf : ∀ c, (f c).pid = c.pid ∧ (f c).role = c.role ∧ (c.sigterm = true → (f c).sigterm = true))
    (hpid : t.pid = s.pid) (hchildren : t.children = s.children.map f)
    (hdown : t.shuttingDown = s.shuttingDown)
    (hpending : t.execRestartPending = true → s.execRestartPending = true)
    (hexits : t.exits = s.exits) (hcode : t.exitCode = s.exitCode)
    (hpoint : t.point = s.point ∨ (s.point = .signals ∨ s.point = .restart ∨ s.point = .wait) ∧
      (t.point = .signals ∨ t.point = .restart ∨ t.point = .wait)) :
    Supervised autoRestart start t := by
  have hdying : t.point = .dying ↔ s.point = .dying := by
    rcases hpoint with heq | ⟨hs, ht⟩
    · rw [heq]
    · rcases hs with hs | hs | hs <;> rcases ht with ht | ht | ht <;> rw [hs, ht] <;> simp
  have hdone : t.point = .done → s.point = .done := by
    rcases hpoint with heq | ⟨-, ht⟩
    · exact fun hd => heq ▸ hd
    · rcases ht with ht | ht | ht <;> rw [ht] <;> simp
  refine
    { known := ?_
      sigterm := fun hd c hc => ?_
      pending := fun hp => ?_
      dying := fun hd => ?_
      done := fun hd => ?_
      producer := fun role hrole hstart => ?_
      failed := fun hfail => ?_
      code := ?_ }
  · rw [hpid, hchildren]
    exact h.known.map fun c => ⟨(hf c).1, (hf c).2.1⟩
  · rw [hchildren] at hc
    obtain ⟨c', hc', rfl⟩ := List.mem_map.1 hc
    exact (hf c').2.2 (h.sigterm (hdown.symm.trans hd) c' hc')
  · rw [hdown]
    refine (h.pending (hpending hp)).imp id fun ⟨c, hc, hrole, hterm⟩ => ?_
    exact ⟨f c, hchildren ▸ List.mem_map_of_mem hc, (hf c).2.1.trans hrole, (hf c).2.2 hterm⟩
  · rw [hdown, hexits]
    exact h.dying (hdying.1 hd)
  · rw [hchildren, h.done (hdone hd), List.map_nil]
  · rw [hpid, hdown, hdying]
    exact h.producer role hrole hstart
  · rw [hdown, hdying]
    exact h.failed (hexits ▸ hfail)
  · simp only [hcode, h.code, hexits, ne_eq, hdying]

/-- A restart of exec is asked for. -/
theorem Supervised.restart (h : Supervised autoRestart start s) (hpoint : s.point = .restart)
    (hexec : (s.pid .exec).isSome = true) : Supervised autoRestart start { s with
      restartExecReq := false
      point := .wait
      execRestartPending := true
      children := s.children.map fun c =>
        if some c.pid = s.pid .exec then { c with sigterm := true } else c } := by
  have hmap : Supervised autoRestart start { s with
      restartExecReq := false
      point := .wait
      children := s.children.map fun c =>
        if some c.pid = s.pid .exec then { c with sigterm := true } else c } :=
    h.of_map (f := fun c => if some c.pid = s.pid .exec then { c with sigterm := true } else c)
      (fun c => by split_ifs <;> simp) rfl rfl rfl (fun hp => hp) rfl rfl
      (.inr ⟨by simp [hpoint], by simp⟩)
  refine { hmap with pending := fun _ => .inr ?_ }
  obtain ⟨n, hn⟩ := Option.isSome_iff_exists.1 hexec
  obtain ⟨c, hc, hpid, hrole⟩ := h.known.child .exec n hn
  refine ⟨_, List.mem_map_of_mem hc, ?_⟩
  rw [if_pos (by rw [hpid, hn])]
  exact ⟨hrole, rfl⟩

/-- **A process is reaped.** -/
theorem Supervised.reaped (h : Supervised autoRestart start s) (hpoint : s.point = .wait)
    {c : Child} (hc : c ∈ s.children) {child : Option ℕ}
    (hfresh : ∀ c' ∈ s.children, c'.pid ≠ c.pid → child ≠ some c'.pid) (status : Status) :
    Supervised autoRestart start (s.reaped autoRestart c.pid status child) := by
  have hknown := h.known.reap hc
  unfold Loop.reaped
  dsimp only
  rw [h.known.roleOf hc]
  dsimp only
  split_ifs with hdown
  · exact
      { known := hknown
        sigterm := fun _ c' hc' => h.sigterm hdown c' (List.mem_of_mem_filter hc')
        pending := fun _ => .inl hdown
        dying := fun hd => absurd hd (by simp)
        done := fun hd => absurd hd (by simp)
        producer := fun _ _ _ => .inr (.inl hdown)
        failed := fun _ => .inl hdown
        code := by
          rw [h.code, hpoint]
          simp }
  · rw [Bool.not_eq_true] at hdown
    have hfailed : s.exits.any (Exit.fatal autoRestart) = false := by
      refine Bool.eq_false_iff.2 fun hfail => ?_
      rcases h.failed hfail with hd | hd
      · exact absurd (hdown.symm.trans hd) (by simp)
      · exact absurd (hpoint.symm.trans hd) (by simp)
    refine .handleExit (c := c) hknown (Function.update_self ..) (fun c' hc' => ?_) hdown
      (fun hp hne => ?_) rfl ?_ rfl hfailed fun role hrole hstart hne => ?_
    · obtain ⟨hmem, hpid⟩ := List.mem_filter.1 hc'
      exact hfresh c' hmem (of_decide_eq_true hpid)
    · rcases h.pending hp with hd | ⟨c', hc', hrole', hterm⟩
      · exact absurd (hdown.symm.trans hd) (by simp)
      · refine ⟨c', List.mem_filter.2 ⟨hc', decide_eq_true fun hpid => hne ?_⟩, hrole', hterm⟩
        rw [← h.known.eq_of_pid_eq hc' hc hpid, hrole']
    · change s.exitCode = 0
      rw [h.code, hfailed]
      simp
    · change Function.update s.pid c.role none role ≠ none
      rw [Function.update_of_ne hne]
      rcases h.producer role hrole hstart with hpid | hd | hd
      · exact hpid
      · exact absurd (hdown.symm.trans hd) (by simp)
      · exact absurd (hpoint.symm.trans hd) (by simp)

/-- **The step lemma.** -/
theorem Supervised.step (h : Supervised autoRestart start s) {a : LoopStep}
    (ht : s.step autoRestart a = some t) : Supervised autoRestart start t := by
  have hsame (c : Child) : (id c).pid = c.pid ∧ (id c).role = c.role ∧
      (c.sigterm = true → (id c).sigterm = true) := ⟨rfl, rfl, id⟩
  cases a with
  | sigterm | sigusr1 | control =>
    obtain rfl := Option.some.inj ht
    exact h.of_map hsame rfl (List.map_id _).symm rfl id rfl rfl (.inl rfl)
  | exit pid status =>
    obtain rfl := Option.some.inj ht
    exact h.of_map (fun c => by split_ifs <;> simp) rfl rfl rfl id rfl rfl (.inl rfl)
  | shutdown =>
    obtain ⟨hpoint, ht⟩ := Option.ite_none_right_eq_some.1 ht
    obtain rfl := Option.some.inj ht
    split_ifs with hreq
    · have hdown : s.shuttingDown = false := by simpa using hreq.2
      refine .beginShutdown h.known hdown (.inr rfl) ?_
      have hfailed : s.exits.any (Exit.fatal autoRestart) ≠ true := fun hfail => by
        rcases h.failed hfail with hd | hd
        · exact absurd (hdown.symm.trans hd) (by simp)
        · exact absurd (hpoint.symm.trans hd) (by simp)
      rw [if_neg hfailed]
    · exact h.of_map hsame rfl (List.map_id _).symm rfl id rfl rfl
        (.inr ⟨.inl hpoint, .inr (.inl rfl)⟩)
  | restart =>
    obtain ⟨hpoint, ht⟩ := Option.ite_none_right_eq_some.1 ht
    dsimp only at ht
    split_ifs at ht with hreq hexec
    · obtain rfl := Option.some.inj ht
      exact h.restart hpoint hexec.2.1
    all_goals
      obtain rfl := Option.some.inj ht
      exact h.of_map hsame rfl (List.map_id _).symm rfl id rfl rfl
        (.inr ⟨.inr (.inl hpoint), .inr (.inr rfl)⟩)
  | waitNone =>
    obtain ⟨⟨hpoint, -⟩, ht⟩ := Option.ite_none_right_eq_some.1 ht
    obtain rfl := Option.some.inj ht
    exact h.of_map hsame rfl (List.map_id _).symm rfl id rfl rfl
      (.inr ⟨.inr (.inr hpoint), .inl rfl⟩)
  | reap pid child =>
    obtain ⟨⟨hpoint, hfresh⟩, ht⟩ := Option.ite_none_right_eq_some.1 ht
    cases hfind : s.children.find? (·.pid = pid) with
    | none =>
      rw [hfind] at ht
      exact absurd ht (by simp)
    | some c =>
      rw [hfind] at ht
      obtain ⟨status, -, rfl⟩ := Option.map_eq_some_iff.1 ht
      have hpid : c.pid = pid := by
        have hsome := List.find?_some hfind
        exact of_decide_eq_true hsome
      subst hpid
      exact h.reaped hpoint (List.mem_of_find?_eq_some hfind) hfresh status
  | noChild =>
    obtain ⟨⟨hpoint, hnil⟩, ht⟩ := Option.ite_none_right_eq_some.1 ht
    obtain rfl := Option.some.inj ht
    have hdying : s.point ≠ .dying := by simp [hpoint]
    refine { h with
      dying := fun hd => absurd hd (by simp)
      done := fun _ => hnil
      producer := fun role hrole hstart => ?_
      failed := fun hfail => .inl ((h.failed hfail).resolve_right hdying)
      code := ?_ }
    · exact (h.producer role hrole hstart).imp id (.imp id fun hd => absurd hd hdying)
    · rw [h.code, hpoint]
      simp
  | slept =>
    obtain ⟨hpoint, ht⟩ := Option.ite_none_right_eq_some.1 ht
    obtain rfl := Option.some.inj ht
    obtain ⟨hdown, hfail⟩ := h.dying hpoint
    exact .beginShutdown h.known hdown (.inl rfl) (if_pos hfail).symm

/-! ### The control flags and the exits -/

theorem handleExit_flags (r : Loop) (role : Role) (status : Status) (child : Option ℕ) :
    (r.handleExit autoRestart role status child).exits = r.exits ∧
      (r.handleExit autoRestart role status child).kill =
        (r.kill || Exit.unexpected ⟨role, status, r.execRestartPending⟩) ∧
      (r.handleExit autoRestart role status child).pause =
        (r.pause || Exit.starves ⟨role, status, r.execRestartPending⟩) := by
  have hshutdown (q : Loop) (code : ℕ) : (q.beginShutdown code).exits = q.exits ∧
      (q.beginShutdown code).kill = q.kill ∧ (q.beginShutdown code).pause = q.pause := by
    unfold Loop.beginShutdown
    split_ifs <;> exact ⟨rfl, rfl, rfl⟩
  cases role with
  | exchange | core =>
    unfold Loop.handleExit
    dsimp only
    split_ifs with hclean
    · obtain ⟨hexits, hkill, hpause⟩ := hshutdown r 0
      exact ⟨hexits, hkill.trans (by simp [Exit.unexpected, hclean]),
        hpause.trans (by simp [Exit.starves, hclean])⟩
    · exact ⟨rfl, by simp [Exit.unexpected, hclean], by simp [Exit.starves, hclean]⟩
  | exec =>
    unfold Loop.handleExit
    dsimp only
    split_ifs with hasked hswap hauto
    · exact ⟨rfl, by simp [Loop.respawnExec, Exit.unexpected, hasked],
        by simp [Loop.respawnExec, Exit.starves]⟩
    · exact ⟨rfl, by simp [Loop.respawnExec, Exit.unexpected, hswap],
        by simp [Loop.respawnExec, Exit.starves]⟩
    · exact ⟨rfl, by simp [Loop.respawnExec, Exit.unexpected, hasked, hswap],
        by simp [Loop.respawnExec, Exit.starves]⟩
    · obtain ⟨hexits, hkill, hpause⟩ := hshutdown { r with kill := true } 1
      exact ⟨hexits, hkill.trans (by simp [Exit.unexpected, hasked, hswap]),
        hpause.trans (by simp [Exit.starves])⟩
  | dashboard => exact ⟨rfl, by simp [Loop.handleExit, Exit.unexpected],
      by simp [Loop.handleExit, Exit.starves]⟩

/-- **A step of anyone but a writer of the flags** handles no exit and leaves them alone, or it
handles one and sets what the exit calls for. -/
theorem flags_step {a : LoopStep} (ht : s.step autoRestart a = some t)
    (ha : ∀ kill pause, a ≠ .control kill pause) :
    (t.exits = s.exits ∧ t.kill = s.kill ∧ t.pause = s.pause) ∨
      ∃ e, t.exits = e :: s.exits ∧ t.kill = (s.kill || e.unexpected) ∧
        t.pause = (s.pause || e.starves) := by
  have hshutdown (q : Loop) (code : ℕ) : (q.beginShutdown code).exits = q.exits ∧
      (q.beginShutdown code).kill = q.kill ∧ (q.beginShutdown code).pause = q.pause := by
    unfold Loop.beginShutdown
    split_ifs <;> exact ⟨rfl, rfl, rfl⟩
  cases a with
  | control kill pause => exact absurd rfl (ha kill pause)
  | sigterm | sigusr1 | exit =>
    obtain rfl := Option.some.inj ht
    exact .inl ⟨rfl, rfl, rfl⟩
  | shutdown =>
    obtain ⟨-, ht⟩ := Option.ite_none_right_eq_some.1 ht
    obtain rfl := Option.some.inj ht
    split_ifs
    · exact .inl (hshutdown s 0)
    · exact .inl ⟨rfl, rfl, rfl⟩
  | restart =>
    obtain ⟨-, ht⟩ := Option.ite_none_right_eq_some.1 ht
    dsimp only at ht
    split_ifs at ht
    all_goals
      obtain rfl := Option.some.inj ht
      exact .inl ⟨rfl, rfl, rfl⟩
  | waitNone | noChild =>
    obtain ⟨-, ht⟩ := Option.ite_none_right_eq_some.1 ht
    obtain rfl := Option.some.inj ht
    exact .inl ⟨rfl, rfl, rfl⟩
  | slept =>
    obtain ⟨-, ht⟩ := Option.ite_none_right_eq_some.1 ht
    obtain rfl := Option.some.inj ht
    exact .inl (hshutdown s 1)
  | reap pid child =>
    obtain ⟨-, ht⟩ := Option.ite_none_right_eq_some.1 ht
    cases hfind : s.children.find? (·.pid = pid) with
    | none =>
      rw [hfind] at ht
      exact absurd ht (by simp)
    | some c =>
      rw [hfind] at ht
      obtain ⟨status, -, rfl⟩ := Option.map_eq_some_iff.1 ht
      unfold Loop.reaped
      dsimp only
      cases Loop.roleOf { s with
        point := .signals, children := s.children.filter (·.pid ≠ pid) } pid with
      | none => exact .inl ⟨rfl, rfl, rfl⟩
      | some role =>
        dsimp only
        split_ifs
        · exact .inl ⟨rfl, rfl, rfl⟩
        · exact .inr ⟨_, handleExit_flags _ role status child⟩

/-- **Nothing is started during a shutdown**, which nothing calls off. -/
theorem shutdown_step {a : LoopStep} (hdown : s.shuttingDown = true)
    (ht : s.step autoRestart a = some t) :
    t.shuttingDown = true ∧ t.exitCode = s.exitCode ∧
      List.Sublist (t.children.map Child.pid) (s.children.map Child.pid) := by
  have hbegin (code : ℕ) : s.beginShutdown code = s := by rw [Loop.beginShutdown, hdown]; rfl
  cases a with
  | control | sigterm | sigusr1 =>
    obtain rfl := Option.some.inj ht
    exact ⟨hdown, rfl, .refl _⟩
  | exit pid status =>
    obtain rfl := Option.some.inj ht
    have hpids : (s.children.map fun c => if c.pid = pid ∧ c.status = none then
        { c with status := some status } else c).map Child.pid = s.children.map Child.pid := by
      rw [List.map_map]
      refine List.map_congr_left fun c _ => ?_
      rw [Function.comp]
      split_ifs <;> rfl
    exact ⟨hdown, rfl, hpids.symm ▸ .refl _⟩
  | shutdown =>
    obtain ⟨-, ht⟩ := Option.ite_none_right_eq_some.1 ht
    obtain rfl := Option.some.inj ht
    rw [hbegin, ite_self]
    exact ⟨hdown, rfl, .refl _⟩
  | restart =>
    obtain ⟨-, ht⟩ := Option.ite_none_right_eq_some.1 ht
    dsimp only at ht
    split_ifs at ht with hreq hexec
    · exact absurd hexec.1 (by simp [hdown])
    all_goals
      obtain rfl := Option.some.inj ht
      exact ⟨hdown, rfl, .refl _⟩
  | waitNone | noChild =>
    obtain ⟨-, ht⟩ := Option.ite_none_right_eq_some.1 ht
    obtain rfl := Option.some.inj ht
    exact ⟨hdown, rfl, .refl _⟩
  | slept =>
    obtain ⟨-, ht⟩ := Option.ite_none_right_eq_some.1 ht
    obtain rfl := Option.some.inj ht
    rw [hbegin]
    exact ⟨hdown, rfl, .refl _⟩
  | reap pid child =>
    obtain ⟨-, ht⟩ := Option.ite_none_right_eq_some.1 ht
    cases hfind : s.children.find? (·.pid = pid) with
    | none =>
      rw [hfind] at ht
      exact absurd ht (by simp)
    | some c =>
      rw [hfind] at ht
      obtain ⟨status, -, rfl⟩ := Option.map_eq_some_iff.1 ht
      have hsub : List.Sublist ((s.children.filter (·.pid ≠ pid)).map Child.pid)
          (s.children.map Child.pid) := List.filter_sublist.map _
      unfold Loop.reaped
      dsimp only
      cases Loop.roleOf { s with
        point := .signals, children := s.children.filter (·.pid ≠ pid) } pid with
      | none => exact ⟨hdown, rfl, hsub⟩
      | some role =>
        dsimp only
        rw [if_pos hdown]
        exact ⟨hdown, rfl, hsub⟩

end Steps

/-! ### Runs -/

section Runs

variable {autoRestart : Bool} {start : Role → Option ℕ} {s : Loop}

/-- **The run lemma.** -/
theorem supervised_of_reachable (hs : (managing autoRestart start).Reachable s) :
    Supervised autoRestart start s := by
  refine hs.invariant (P := Supervised autoRestart start) (fun s hinit => ?_)
    fun s a t _ _ ht h => h.step ht
  obtain ⟨hnodup, kill, pause, shutdownReq, restartExecReq, rfl⟩ := hinit
  exact
    { known := known_started hnodup
      sigterm := fun hd => absurd hd (by simp)
      pending := fun hp => absurd hp (by simp)
      dying := fun hd => absurd hd (by simp)
      done := fun hd => absurd hd (by simp)
      producer := fun _ _ hstart => .inl hstart
      failed := fun hfail => absurd hfail (by simp)
      code := by simp }

/-- **The manager knows its workers.** At any time the table of pids is exact, so no role runs
twice and no signal goes to a process that is gone; a restart that is pending is one of an exec
that was told to stop. From the start of a shutdown on every process has been told to stop, and
nothing is started and the exit code is not changed any more. The loop ends when no process is
left, and then a shutdown was begun or no feed producer was ever started. -/
theorem workers_known (hs : (managing autoRestart start).Reachable s) :
    (∀ c ∈ s.children, ∀ c' ∈ s.children, c.role = c'.role → c = c') ∧
      (∀ role n, s.pid role = some n ↔ ∃ c ∈ s.children, c.role = role ∧ c.pid = n) ∧
      (s.execRestartPending = true → s.shuttingDown = true ∨
        ∃ c ∈ s.children, c.role = .exec ∧ c.sigterm = true) ∧
      (s.shuttingDown = true → (∀ c ∈ s.children, c.sigterm = true) ∧
        ∀ a t, s.step autoRestart a = some t → t.shuttingDown = true ∧
          t.exitCode = s.exitCode ∧
          List.Sublist (t.children.map Child.pid) (s.children.map Child.pid)) ∧
      (s.point = .done → s.children = [] ∧
        (s.shuttingDown = true ∨ start .exchange = none ∧ start .core = none)) := by
  have h := supervised_of_reachable hs
  refine ⟨fun c hc c' hc' => h.known.eq_of_role_eq hc hc', fun role n => ⟨fun hn => ?_, ?_⟩,
    h.pending, fun hdown => ⟨h.sigterm hdown, fun a t ht => shutdown_step hdown ht⟩,
    fun hdone => ⟨h.done hdone, ?_⟩⟩
  · obtain ⟨c, hc, hpid, hrole⟩ := h.known.child role n hn
    exact ⟨c, hc, hrole, hpid⟩
  · rintro ⟨c, hc, rfl, rfl⟩
    exact h.known.worker c hc
  · refine or_iff_not_imp_left.2 fun hdown => ?_
    -- a feed producer that was started would still be there
    have hnone (role : Role) (hrole : role = .exchange ∨ role = .core) : start role = none := by
      by_contra hstart
      rcases h.producer role hrole hstart with hpid | hd | hd
      · obtain ⟨n, hn⟩ := Option.ne_none_iff_exists'.1 hpid
        obtain ⟨c, hc, -⟩ := h.known.child role n hn
        exact absurd (h.done hdone ▸ hc) List.not_mem_nil
      · exact hdown hd
      · exact absurd (hdone.symm.trans hd) (by simp)
    exact ⟨hnone _ (.inl rfl), hnone _ (.inr rfl)⟩

/-- Nobody else clears the flags. -/
def KeepsFlags (s : Loop) : LoopStep → Prop
  | .control kill pause => (s.kill = true → kill = true) ∧ (s.pause = true → pause = true)
  | _ => True

instance (s : Loop) (a : LoopStep) : Decidable (KeepsFlags s a) := by
  cases a <;> unfold KeepsFlags <;> infer_instance

end Runs

/-- Both feed processes and an exec are started, without a dashboard. -/
def withoutDashboard : Role → Option ℕ
  | .exchange => some 1
  | .core => some 2
  | .exec => some 3
  | .dashboard => none

/-- The variables at the start. -/
def atStart : Loop := { pid := withoutDashboard, children := Loop.started withoutDashboard }

theorem init_atStart (autoRestart : Bool) : (managing autoRestart withoutDashboard).Init atStart :=
  ⟨by decide, false, false, false, false, rfl⟩

/-- Exec is restarted by SIGUSR1, then it crashes, and the others stop. -/
def crashRun : List LoopStep :=
  [.sigusr1, .shutdown, .restart, .exit 3 (.exited 0), .reap 3 (some 4), .exit 4 .signaled,
    .shutdown, .restart, .reap 4 none, .exit 1 .signaled, .exit 2 (.exited 0), .shutdown, .restart,
    .reap 1 none, .shutdown, .restart, .reap 2 none, .shutdown, .restart, .noChild]

theorem workers_known_crash : ∃ s : Loop,
    (managing false withoutDashboard).exec atStart crashRun = some s ∧ s.point = .done ∧
      (s.point = .done → s.children = [] ∧ (s.shuttingDown = true ∨
        withoutDashboard .exchange = none ∧ withoutDashboard .core = none)) := by
  have hrun : ((managing false withoutDashboard).exec atStart crashRun).map Loop.point =
      some .done := by
    decide +kernel
  obtain ⟨s, hs, hdone⟩ := Option.map_eq_some_iff.mp hrun
  have hreach := Machine.Reachable.exec (.init (init_atStart false)) crashRun hs
  exact ⟨s, hs, hdone, (workers_known hreach).2.2.2.2⟩

end Manager

end LowLatencyPipeline
