import Mathlib.Data.List.Basic

/-!
# Machines, runs and invariants

A `Machine` is an executable transition system: a set of initial states and a partial step
function, whose labels carry every choice the environment makes (which thread moves next, what
a strategy asks for, what a venue reports). `M.exec` runs a list of labels.

`M.ReachableWhen cond` collects the states of the runs all of whose steps meet the condition
`cond`, which may look at the state before the step and at its label; `M.Reachable` is the case
without a condition. The one induction over runs is packaged here:

* `ReachableWhen.invariant`: what holds initially and is kept by every step of a reachable
  state holds in every reachable state;
* `ReachableWhen.map`: a step-wise projection onto a second machine (stuttering allowed) maps
  reachable states to reachable states.
-/

namespace LowLatencyPipeline

universe u v w x

/-- An executable transition system: initial states and a partial, labelled step function. -/
structure Machine (σ : Type u) (ℓ : Type v) where
  /-- The states a run may start in. -/
  Init : σ → Prop
  /-- The successor along a label, `none` where the label is not enabled. -/
  step : σ → ℓ → Option σ

namespace Machine

variable {σ : Type u} {ℓ : Type v} {τ : Type w} {κ : Type x}

/-- Run a list of labels from a state. -/
def exec (M : Machine σ ℓ) (s : σ) (labels : List ℓ) : Option σ := labels.foldlM M.step s

@[simp]
theorem exec_nil (M : Machine σ ℓ) (s : σ) : M.exec s [] = some s := rfl

@[simp]
theorem exec_cons (M : Machine σ ℓ) (s : σ) (a : ℓ) (labels : List ℓ) :
    M.exec s (a :: labels) = (M.step s a).bind fun t => M.exec t labels := rfl

theorem exec_append (M : Machine σ ℓ) (s : σ) (labels labels' : List ℓ) :
    M.exec s (labels ++ labels') = (M.exec s labels).bind fun t => M.exec t labels' :=
  List.foldlM_append

/-- The states of the runs all of whose steps meet `cond`. -/
inductive ReachableWhen (M : Machine σ ℓ) (cond : σ → ℓ → Prop) : σ → Prop
  | init {s : σ} : M.Init s → M.ReachableWhen cond s
  | step {s t : σ} {a : ℓ} :
      M.ReachableWhen cond s → cond s a → M.step s a = some t → M.ReachableWhen cond t

/-- The states of all runs. -/
abbrev Reachable (M : Machine σ ℓ) : σ → Prop := M.ReachableWhen fun _ _ => True

variable {M : Machine σ ℓ} {cond : σ → ℓ → Prop}

/-- **The invariant rule.** The step case may use that the state before is reachable. -/
theorem ReachableWhen.invariant {P : σ → Prop} (hinit : ∀ s, M.Init s → P s)
    (hstep : ∀ s a t, M.ReachableWhen cond s → cond s a → M.step s a = some t → P s → P t)
    {s : σ} (h : M.ReachableWhen cond s) : P s := by
  induction h with
  | init h => exact hinit _ h
  | step hs hc ht ih => exact hstep _ _ _ hs hc ht ih

/-- A weaker condition reaches at least as much. -/
theorem ReachableWhen.mono {cond' : σ → ℓ → Prop} (h : ∀ s a, cond s a → cond' s a) {s : σ}
    (hs : M.ReachableWhen cond s) : M.ReachableWhen cond' s := by
  induction hs with
  | init h0 => exact .init h0
  | step _ hc ht ih => exact .step ih (h _ _ hc) ht

/-- Forgetting the condition. -/
theorem ReachableWhen.reachable {s : σ} (hs : M.ReachableWhen cond s) : M.Reachable s :=
  hs.mono fun _ _ _ => trivial

/-- Running on from a reachable state stays reachable. -/
theorem Reachable.exec {s : σ} (hs : M.Reachable s) (labels : List ℓ) {t : σ}
    (ht : M.exec s labels = some t) : M.Reachable t := by
  induction labels generalizing s with
  | nil =>
    simp only [exec_nil, Option.some.injEq] at ht
    exact ht ▸ hs
  | cons a labels ih =>
    simp only [exec_cons, Option.bind_eq_some_iff] at ht
    obtain ⟨u, hu, hut⟩ := ht
    exact ih (.step hs trivial hu) hut

/-- Run a list of labels as long as each meets the condition. -/
def execWhen (M : Machine σ ℓ) (cond : σ → ℓ → Prop) [∀ s a, Decidable (cond s a)] (s : σ)
    (labels : List ℓ) : Option σ :=
  labels.foldlM (fun s a => if cond s a then M.step s a else none) s

/-- The condition only stops runs. -/
theorem exec_of_execWhen [∀ s a, Decidable (cond s a)] {s t : σ} (labels : List ℓ)
    (ht : M.execWhen cond s labels = some t) : M.exec s labels = some t := by
  induction labels generalizing s with
  | nil => exact ht
  | cons a labels ih =>
    rw [execWhen, List.foldlM_cons, Option.bind_eq_bind, Option.bind_eq_some_iff] at ht
    obtain ⟨u, hu, hut⟩ := ht
    split_ifs at hu
    rw [exec_cons, hu]
    exact ih hut

theorem ReachableWhen.execWhen [∀ s a, Decidable (cond s a)] {s : σ} (hs : M.ReachableWhen cond s)
    (labels : List ℓ) {t : σ} (ht : M.execWhen cond s labels = some t) :
    M.ReachableWhen cond t := by
  induction labels generalizing s with
  | nil => exact Option.some.inj ht ▸ hs
  | cons a labels ih =>
    rw [Machine.execWhen, List.foldlM_cons, Option.bind_eq_bind, Option.bind_eq_some_iff] at ht
    obtain ⟨u, hu, hut⟩ := ht
    split_ifs at hu with hcond
    exact ih (.step hs hcond hu) hut

/-- **The projection rule.** Where every step of `M` projects along `f` to a step of `N` or to
no step at all, reachable states project to reachable states. -/
theorem ReachableWhen.map {N : Machine τ κ} {f : σ → τ} (hinit : ∀ s, M.Init s → N.Init (f s))
    (hstep : ∀ s a t, M.step s a = some t → f t = f s ∨ ∃ b, N.step (f s) b = some (f t)) {s : σ}
    (hs : M.ReachableWhen cond s) : N.Reachable (f s) := by
  induction hs with
  | init h => exact .init (hinit _ h)
  | step _ _ ht ih =>
    rcases hstep _ _ _ ht with heq | ⟨b, hb⟩
    · exact heq ▸ ih
    · exact .step ih trivial hb

end Machine

end LowLatencyPipeline
