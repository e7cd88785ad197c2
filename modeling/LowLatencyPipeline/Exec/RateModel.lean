import Mathlib.Algebra.Order.Field.Basic
import Mathlib.Algebra.Order.Ring.Rat
import Mathlib.Tactic.Linarith
import Mathlib.Tactic.Positivity
import Mathlib.Tactic.Ring
import LowLatencyPipeline.Common.Messages

/-!
# The per-pair rate counter

`RateModel` of `exec/rate_model.hpp`: every add, amend and cancel adds a cost to its
instrument's counter, which decays continuously. The `double` arithmetic is read over the
rationals.

A `RateRequest` is an add, amend or cancel with the age and the clock reading it is made with;
`request` lets it through `would_allow`, cancels apart, and charges it.

* **One charge** (`add_cost_le_count_charge`): what was counted before a charge and its cost are
  counted after it, up to the decay since.
* **Every window** (`cost_le_of_run`): between a charged request and a later accepted add or amend
  no more was charged than the headroom and the decay of the window.
* **Any clock** (`count_le_of_run`): an accepted add or amend leaves the counter within the
  headroom, whatever the clock readings were.
-/

namespace LowLatencyPipeline

namespace Exec

/-- `RateOp`. -/
inductive RateOp
  | add
  | amend
  | cancel
  deriving DecidableEq

/-- `KrakenRateParams`. -/
structure KrakenRateParams where
  max : ℚ := 60
  decayPerS : ℚ := 1
  maxOpen : ℕ := 60
  margin : ℚ := 5

def SEC_NS : ℤ := 1000000000

/-- `kraken_rate_cost`. -/
def krakenRateCost (op : RateOp) (ageNs : ℤ) : ℕ :=
  match op with
  | .add => 1
  | .amend =>
    1 + if ageNs < 5 * SEC_NS then 3
      else if ageNs < 10 * SEC_NS then 2
      else if ageNs < 15 * SEC_NS then 1
      else 0
  | .cancel =>
    if ageNs < 5 * SEC_NS then 8
    else if ageNs < 10 * SEC_NS then 6
    else if ageNs < 15 * SEC_NS then 5
    else if ageNs < 45 * SEC_NS then 4
    else if ageNs < 90 * SEC_NS then 2
    else if ageNs < 300 * SEC_NS then 1
    else 0

/-- `RateModel::Counter`. -/
structure Counter where
  count : ℚ := 0
  lastNs : ℤ := 0

/-- `RateModel`. -/
structure RateModel where
  enabled : Bool := false
  params : KrakenRateParams := {}
  counter : UInt16 → Counter := fun _ => {}

namespace RateModel

variable (m : RateModel)

/-- `count`: the counter at a time, decayed. -/
def count (inst : UInt16) (nowNs : ℤ) : ℚ :=
  let c := m.counter inst
  if nowNs ≤ c.lastNs then c.count
  else
    let v := c.count - m.params.decayPerS * (nowNs - c.lastNs : ℤ) / 1000000000
    if 0 < v then v else 0

/-- `budget`: the headroom left under max - margin. -/
def budget (inst : UInt16) (nowNs : ℤ) : ℚ :=
  if m.enabled then m.params.max - m.params.margin - m.count inst nowNs else 10 ^ 18

/-- `would_allow`. -/
def wouldAllow (inst : UInt16) (op : RateOp) (ageNs nowNs : ℤ) : Bool :=
  !m.enabled ||
    m.count inst nowNs + krakenRateCost op ageNs ≤ m.params.max - m.params.margin

/-- `charge`. -/
def charge (inst : UInt16) (op : RateOp) (ageNs nowNs : ℤ) : RateModel :=
  if !m.enabled then m
  else
    let c := m.counter inst
    let count := m.count inst nowNs + krakenRateCost op ageNs
    let lastNs := if c.lastNs < nowNs then nowNs else c.lastNs
    { m with counter := Function.update m.counter inst { count, lastNs } }

/-- `configure`. -/
def configure (enabled : Bool) (p : KrakenRateParams) : RateModel :=
  { m with enabled, params := p }

end RateModel

/-! ### Requests -/

/-- A request of an instrument, with the order's age and the clock reading. -/
structure RateRequest where
  inst : UInt16
  op : RateOp
  ageNs : ℤ
  nowNs : ℤ

namespace RateModel

section Requests

variable (m : RateModel)

/-- A request that is let through is charged; cancels are not gated. -/
def request (r : RateRequest) : Option RateModel :=
  if r.op = .cancel ∨ m.wouldAllow r.inst r.op r.ageNs r.nowNs then
    some (m.charge r.inst r.op r.ageNs r.nowNs)
  else none

/-- Requests in order, all of them let through. -/
def run (rs : List RateRequest) : Option RateModel := rs.foldlM request m

/-- What a request adds to its counter. -/
def cost (r : RateRequest) : ℚ := if m.enabled then krakenRateCost r.op r.ageNs else 0

/-- What requests add to an instrument's counter. -/
def totalCost (inst : UInt16) (rs : List RateRequest) : ℚ :=
  ((rs.filter fun r => r.inst = inst).map m.cost).sum

/-- What a counter loses over a time. -/
def decay (ns : ℤ) : ℚ := m.params.decayPerS * ns / 1000000000

/-- The counter's limit for adds and amends. -/
def headroom : ℚ := m.params.max - m.params.margin

end Requests

variable {m m' : RateModel} {inst : UInt16} {r : RateRequest} {rs : List RateRequest} {t : ℤ}

theorem request_eq_some (h : m.request r = some m') :
    m' = m.charge r.inst r.op r.ageNs r.nowNs ∧
      (r.op ≠ .cancel → m.wouldAllow r.inst r.op r.ageNs r.nowNs = true) := by
  rw [request] at h
  split_ifs at h with hgate
  exact ⟨(Option.some.inj h).symm, hgate.resolve_left⟩

theorem request_of_wouldAllow (h : m.wouldAllow r.inst r.op r.ageNs r.nowNs = true) :
    m.request r = some (m.charge r.inst r.op r.ageNs r.nowNs) := if_pos (.inr h)

theorem request_of_cancel (h : r.op = .cancel) :
    m.request r = some (m.charge r.inst r.op r.ageNs r.nowNs) := if_pos (.inl h)

theorem run_append (rs rs' : List RateRequest) :
    m.run (rs ++ rs') = (m.run rs).bind fun m' => m'.run rs' := List.foldlM_append

theorem run_concat_eq_some (h : m.run (rs ++ [r]) = some m') :
    ∃ m₁, m.run rs = some m₁ ∧ m₁.request r = some m' := by
  rw [run_append, Option.bind_eq_some_iff] at h
  obtain ⟨m₁, hrun, hreq⟩ := h
  refine ⟨m₁, hrun, ?_⟩
  simpa [run] using hreq

@[simp]
theorem charge_params (op : RateOp) (ageNs nowNs : ℤ) :
    (m.charge inst op ageNs nowNs).params = m.params := by
  rw [charge]
  split_ifs <;> rfl

@[simp]
theorem charge_enabled (op : RateOp) (ageNs nowNs : ℤ) :
    (m.charge inst op ageNs nowNs).enabled = m.enabled := by
  rw [charge]
  split_ifs <;> rfl

/-- What the requests of a run leave as it was. -/
theorem run_config (h : m.run rs = some m') : m'.params = m.params ∧ m'.enabled = m.enabled := by
  induction rs using List.reverseRecOn generalizing m' with
  | nil => exact Option.some.inj h ▸ ⟨rfl, rfl⟩
  | append_singleton rs r ih =>
    obtain ⟨m₁, hrun, hreq⟩ := run_concat_eq_some h
    obtain ⟨rfl, -⟩ := request_eq_some hreq
    simpa using ih hrun

/-! ### One charge -/

theorem charge_of_disabled (hoff : m.enabled = false) (op : RateOp) (ageNs nowNs : ℤ) :
    m.charge inst op ageNs nowNs = m := by simp [charge, hoff]

theorem counter_charge_self (hon : m.enabled = true) (op : RateOp) (ageNs nowNs : ℤ) :
    (m.charge inst op ageNs nowNs).counter inst =
      ⟨m.count inst nowNs + krakenRateCost op ageNs,
        if (m.counter inst).lastNs < nowNs then nowNs else (m.counter inst).lastNs⟩ := by
  simp [charge, hon]

theorem counter_charge_of_ne {inst' : UInt16} (hne : inst' ≠ inst) (op : RateOp)
    (ageNs nowNs : ℤ) : (m.charge inst op ageNs nowNs).counter inst' = m.counter inst' := by
  rw [charge]
  split_ifs
  · rfl
  · exact Function.update_of_ne hne _ _

/-- Another instrument's counter reads as before. -/
theorem count_charge_of_ne {inst' : UInt16} (hne : inst' ≠ inst) (op : RateOp)
    (ageNs nowNs : ℤ) : (m.charge inst op ageNs nowNs).count inst' t = m.count inst' t := by
  rw [count, count, charge_params, counter_charge_of_ne hne]

/-- The counter read at the time of a charge is what it was and the cost. -/
theorem count_charge_self (r : RateRequest) :
    (m.charge r.inst r.op r.ageNs r.nowNs).count r.inst r.nowNs =
      m.count r.inst r.nowNs + m.cost r := by
  cases hon : m.enabled with
  | false => simp [charge_of_disabled hon, cost, hon]
  | true =>
    rw [count, counter_charge_self hon, cost, if_pos hon]
    dsimp only
    rw [if_pos (by split_ifs <;> omega)]

theorem count_nonneg (h : 0 ≤ (m.counter inst).count) : 0 ≤ m.count inst t := by
  rw [count]
  dsimp only
  split_ifs with hlast hpos
  · exact h
  · exact hpos.le
  · exact le_rfl

/-- No charge makes a counter negative. -/
theorem charge_counter_nonneg (h : ∀ i, 0 ≤ (m.counter i).count) (op : RateOp)
    (ageNs nowNs : ℤ) (i : UInt16) : 0 ≤ ((m.charge inst op ageNs nowNs).counter i).count := by
  cases hon : m.enabled with
  | false => exact (charge_of_disabled hon op ageNs nowNs).symm ▸ h i
  | true =>
    rcases eq_or_ne i inst with rfl | hne
    · rw [counter_charge_self hon]
      exact add_nonneg (count_nonneg (h i)) (Nat.cast_nonneg _)
    · rw [counter_charge_of_ne hne]
      exact h i

theorem run_counter_nonneg (h : m.run rs = some m') (hm : ∀ i, 0 ≤ (m.counter i).count)
    (i : UInt16) : 0 ≤ (m'.counter i).count := by
  induction rs using List.reverseRecOn generalizing m' i with
  | nil => exact Option.some.inj h ▸ hm i
  | append_singleton rs r ih =>
    obtain ⟨m₁, hrun, hreq⟩ := run_concat_eq_some h
    obtain ⟨rfl, -⟩ := request_eq_some hreq
    exact charge_counter_nonneg (ih hrun) _ _ _ i

/-! ### Decay -/

theorem decay_add (a b : ℤ) : m.decay (a + b) = m.decay a + m.decay b := by
  simp only [decay, Int.cast_add]
  ring

theorem decay_nonneg (hdecay : 0 ≤ m.params.decayPerS) {ns : ℤ} (hns : 0 ≤ ns) :
    0 ≤ m.decay ns := by
  have : (0 : ℚ) ≤ ns := by exact_mod_cast hns
  rw [decay]
  positivity

theorem decay_le (hdecay : 0 ≤ m.params.decayPerS) {a b : ℤ} (hab : a ≤ b) :
    m.decay a ≤ m.decay b := by
  have hrest := decay_nonneg hdecay (sub_nonneg.2 hab)
  have hsplit := decay_add (m := m) a (b - a)
  rw [add_sub_cancel] at hsplit
  linarith

/-- A counter past its last charge, before the floor at 0. -/
theorem le_count_of_lt (ht : (m.counter inst).lastNs < t) :
    (m.counter inst).count - m.decay (t - (m.counter inst).lastNs) ≤ m.count inst t := by
  rw [count]
  dsimp only
  rw [if_neg (not_le.2 ht)]
  split_ifs with hpos
  · exact le_rfl
  · exact not_lt.1 hpos

/-- A counter loses at most the decay of the time between two readings. -/
theorem count_le_count_add_decay (hdecay : 0 ≤ m.params.decayPerS)
    (hnonneg : 0 ≤ (m.counter inst).count) {s : ℤ} (hst : s ≤ t) :
    m.count inst s ≤ m.count inst t + m.decay (t - s) := by
  have hloss := decay_nonneg hdecay (sub_nonneg.2 hst)
  by_cases ht : t ≤ (m.counter inst).lastNs
  · -- neither reading is past the last charge
    rw [count, if_pos (hst.trans ht), count, if_pos ht]
    linarith
  have hlate := le_count_of_lt (not_le.1 ht)
  by_cases hs : s ≤ (m.counter inst).lastNs
  · rw [count, if_pos hs]
    have := decay_le hdecay (sub_le_sub_left hs t)
    linarith
  · have hsplit := decay_add (m := m) (t - s) (s - (m.counter inst).lastNs)
    rw [sub_add_sub_cancel] at hsplit
    have hread := count_nonneg (t := t) hnonneg
    rw [count.eq_1 m inst s]
    dsimp only
    rw [if_neg hs]
    split_ifs with hpos
    · change (m.counter inst).count - m.decay (s - (m.counter inst).lastNs) ≤ _
      linarith
    · linarith

/-! ### Windows -/

theorem totalCost_concat (inst : UInt16) (rs : List RateRequest) (r : RateRequest) :
    m.totalCost inst (rs ++ [r]) =
      m.totalCost inst rs + if r.inst = inst then m.cost r else 0 := by
  rw [totalCost, totalCost, List.filter_append, List.map_append, List.sum_append]
  split_ifs with hr <;> simp [hr]

/-- **The counter keeps up**: what was charged since a time is still counted, up to the decay. -/
theorem totalCost_le_count (hdecay : 0 ≤ m.params.decayPerS)
    (hnonneg : ∀ i, 0 ≤ (m.counter i).count) {s : ℤ}
    (hsorted : rs.Pairwise fun a b => a.nowNs ≤ b.nowNs) (h : m.run rs = some m')
    (ht : ∀ r ∈ rs, r.nowNs ≤ t) (hs : ∀ r ∈ rs, s ≤ r.nowNs) (hst : s ≤ t) :
    m.totalCost inst rs ≤ m'.count inst t + m.decay (t - s) := by
  induction rs using List.reverseRecOn generalizing m' t with
  | nil =>
    rw [← Option.some.inj h]
    exact add_nonneg (count_nonneg (hnonneg inst)) (decay_nonneg hdecay (sub_nonneg.2 hst))
  | append_singleton rs r ih =>
    obtain ⟨m₁, hrun, hreq⟩ := run_concat_eq_some h
    obtain ⟨rfl, -⟩ := request_eq_some hreq
    obtain ⟨hparams, henabled⟩ := run_config hrun
    obtain ⟨hbefore, -, hlast⟩ := List.pairwise_append.1 hsorted
    have hsr : s ≤ r.nowNs := hs r (by simp)
    have hrt : r.nowNs ≤ t := ht r (by simp)
    have hsince : ∀ q ∈ rs, s ≤ q.nowNs := fun q hq => hs q (List.mem_append_left _ hq)
    have hearlier : ∀ q ∈ rs, q.nowNs ≤ r.nowNs := fun q hq => hlast q hq r (by simp)
    rw [totalCost_concat]
    split_ifs with hr
    · subst hr
      -- up to the reading of this charge, then to the reading at `t`
      have hcharged := ih hbefore hrun hearlier hsince hsr
      have hread := count_charge_self (m := m₁) r
      have hloss : (m₁.charge r.inst r.op r.ageNs r.nowNs).count r.inst r.nowNs ≤ _ :=
        count_le_count_add_decay (by rwa [charge_params, hparams])
          (charge_counter_nonneg (run_counter_nonneg hrun hnonneg) _ _ _ _) hrt
      have hsplit := decay_add (m := m) (t - r.nowNs) (r.nowNs - s)
      rw [sub_add_sub_cancel] at hsplit
      rw [decay, charge_params, hparams, ← decay] at hloss
      rw [cost, henabled, ← cost] at hread
      linarith
    · rw [count_charge_of_ne (Ne.symm hr), add_zero]
      exact ih hbefore hrun (fun q hq => (hearlier q hq).trans hrt) hsince hst

/-- An accepted add or amend leaves its counter within the headroom. -/
theorem count_le_of_request (hroom : 0 ≤ m.headroom) (hoff : m.enabled = false →
    m.count r.inst r.nowNs = 0) (h : m.request r = some m') (hop : r.op ≠ .cancel) :
    m'.count r.inst r.nowNs ≤ m.headroom := by
  obtain ⟨rfl, hallow⟩ := request_eq_some h
  have hgate := hallow hop
  rw [count_charge_self, cost]
  cases hon : m.enabled with
  | false =>
    rw [hoff hon]
    simpa using hroom
  | true =>
    rw [wouldAllow, hon] at hgate
    simpa [headroom] using hgate

/-- The model as `exec` configures it, before any request. -/
def fresh (enabled : Bool) (p : KrakenRateParams) : RateModel :=
  ({} : RateModel).configure enabled p

theorem run_of_disabled (hoff : m.enabled = false) (h : m.run rs = some m') : m' = m := by
  induction rs using List.reverseRecOn generalizing m' with
  | nil => exact (Option.some.inj h).symm
  | append_singleton rs r ih =>
    obtain ⟨m₁, hrun, hreq⟩ := run_concat_eq_some h
    obtain ⟨rfl, -⟩ := request_eq_some hreq
    rw [ih hrun, charge_of_disabled hoff]

theorem count_fresh {enabled : Bool} {p : KrakenRateParams} (hdecay : 0 ≤ p.decayPerS) :
    (fresh enabled p).count inst t = 0 := by
  refine le_antisymm ?_ (count_nonneg le_rfl)
  rw [count]
  dsimp only
  split_ifs with hlast hpos
  · exact le_rfl
  · have hlate : (0 : ℤ) ≤ t - ((fresh enabled p).counter inst).lastNs := by omega
    have hloss := decay_nonneg (m := fresh enabled p) hdecay hlate
    rw [decay] at hloss
    change 0 - _ ≤ _
    linarith
  · exact le_rfl

/-- The last request of a run, an add or an amend, leaves its counter within the headroom. -/
theorem count_le_of_run {enabled : Bool} {p : KrakenRateParams} (hdecay : 0 ≤ p.decayPerS)
    (hmax : p.margin ≤ p.max) (h : (fresh enabled p).run (rs ++ [r]) = some m)
    (hop : r.op ≠ .cancel) : m.count r.inst r.nowNs ≤ p.max - p.margin := by
  obtain ⟨m₁, hrun, hreq⟩ := run_concat_eq_some h
  obtain ⟨hparams, henabled⟩ := run_config hrun
  have hroom : m₁.headroom = p.max - p.margin := by rw [headroom, hparams]; rfl
  rw [← hroom]
  refine count_le_of_request (by rw [hroom]; exact sub_nonneg.2 hmax) (fun hoff => ?_) hreq hop
  rw [run_of_disabled (henabled ▸ hoff) hrun]
  exact count_fresh hdecay

/-- **The rate model is a leaky bucket.** Over readings of a clock that does not go back, what is
charged to an instrument after some request, up to an accepted add or amend, is within the headroom
and the decay of the time between the two. Whatever the readings, the counter read at an accepted
add or amend is within the headroom. -/
theorem leaky_bucket {p : KrakenRateParams} (enabled : Bool) (hdecay : 0 ≤ p.decayPerS)
    (hmax : p.margin ≤ p.max) :
    (∀ before first between last m,
      (fresh enabled p).run (before ++ first :: (between ++ [last])) = some m →
      (before ++ first :: (between ++ [last])).Pairwise (fun a b => a.nowNs ≤ b.nowNs) →
      last.op ≠ .cancel →
      (fresh enabled p).totalCost last.inst (between ++ [last]) ≤
        p.max - p.margin + p.decayPerS * (last.nowNs - first.nowNs) / 1000000000) ∧
    ∀ rs last m, (fresh enabled p).run (rs ++ [last]) = some m → last.op ≠ .cancel →
      m.count last.inst last.nowNs ≤ p.max - p.margin := by
  refine ⟨fun before first between last m h hsorted hop => ?_,
    fun rs last m h hop => count_le_of_run hdecay hmax h hop⟩
  have hroom := count_le_of_run hdecay hmax
    (show (fresh enabled p).run ((before ++ first :: between) ++ [last]) = some m by simpa using h)
    hop
  rw [run_append, Option.bind_eq_some_iff] at h
  obtain ⟨m₀, hbefore, h⟩ := h
  rw [run, List.foldlM_cons, Option.bind_eq_bind, Option.bind_eq_some_iff] at h
  obtain ⟨m₁, hfirst, hafter⟩ := h
  obtain ⟨rfl, -⟩ := request_eq_some hfirst
  obtain ⟨hparams, henabled⟩ := run_config hbefore
  obtain ⟨hs, hrest⟩ := List.pairwise_cons.1 (List.pairwise_append.1 hsorted).2.1
  have hupto : ∀ r ∈ between ++ [last], r.nowNs ≤ last.nowNs := by
    intro r hr
    rcases List.mem_append.1 hr with hr | hr
    · exact (List.pairwise_append.1 hrest).2.2 r hr last (by simp)
    · rw [List.mem_singleton.1 hr]
  have hwindow : (m₀.charge first.inst first.op first.ageNs first.nowNs).totalCost last.inst
      (between ++ [last]) ≤ _ :=
    totalCost_le_count (by rwa [charge_params, hparams])
      (charge_counter_nonneg (run_counter_nonneg hbefore fun _ => le_rfl) _ _ _) hrest hafter hupto
      hs (hs last (by simp))
  rw [decay, charge_params, hparams] at hwindow
  have hcost : (fresh enabled p).totalCost last.inst (between ++ [last]) =
      (m₀.charge first.inst first.op first.ageNs first.nowNs).totalCost last.inst
        (between ++ [last]) := by
    unfold totalCost cost
    rw [charge_enabled, henabled]
  rw [hcost]
  push_cast at hwindow
  exact hwindow.trans (by simpa [fresh, configure] using hroom)

/-- Two adds and a cancel between them, with the default parameters. -/
theorem leaky_bucket_default :
    (fresh true {}).totalCost 3 ([⟨3, .cancel, 0, 2⟩] ++ [⟨3, .add, 0, 4⟩]) ≤
      60 - 5 + 1 * ((4 : ℤ) - (1 : ℤ)) / 1000000000 :=
  (leaky_bucket (p := {}) true (by decide) (by decide)).1 [] ⟨3, .add, 0, 1⟩ [⟨3, .cancel, 0, 2⟩]
    ⟨3, .add, 0, 4⟩ _ (Option.eq_some_of_isSome (by decide +kernel)) (by decide) (by decide)

end RateModel

end Exec

end LowLatencyPipeline
