import LowLatencyPipeline.Exec.Hosted

/-!
# The built-in taker

`ImbalanceTaker` of `exec/strategies/imbalance_taker.hpp`, over the rationals. It takes one lot
from the thin side when the visible depth is strongly one-sided.

* **Its pace** (`taker_paced`): any two entries of a run are a cooldown apart, and between two
  entries of one side the imbalance was seen back inside the reset band.
* **Its position** (`taker_capped`): the cap holds as long as the venue has answered an entry
  before the next one of its side. The strategy does not look at its open orders.

For the first result `watch` keeps the record of the two-sided frames; no code looks at it.
-/

namespace LowLatencyPipeline

namespace Exec

universe u

/-- `ImbalanceTaker`. -/
structure ImbalanceTaker where
  buyArmed : Bool := true
  sellArmed : Bool := true
  lastNs : ℤ := -2 ^ 62

namespace ImbalanceTaker

def ENTER : ℚ := 3 / 5

def RESET : ℚ := 1 / 5

def LOT : ℤ := 100

def POS_CAP : ℤ := 500

def COOLDOWN_NS : ℤ := 1000000000

def MIN_BUDGET : ℚ := 10

/-- A side re-arms once the imbalance is back inside. -/
def rearm (q : ImbalanceTaker) (imb : ℚ) : ImbalanceTaker :=
  { q with
    buyArmed := if imb < RESET then true else q.buyArmed
    sellArmed := if -RESET < imb then true else q.sellArmed }

/-- The side that a two-sided frame enters, if any. -/
def entry (q : ImbalanceTaker) (x : ExecContext) : Option Side :=
  let imb := x.view.imbalance
  let now := x.nowNs
  if wrap 64 (now - q.lastNs) < COOLDOWN_NS ∨ x.rate.budget x.view.instrument now < MIN_BUDGET then
    none
  else
    let inv := (x.account.position x.view.instrument).qty
    if ENTER < imb ∧ q.buyArmed ∧ wrap 64 (inv + LOT) ≤ POS_CAP then some .buy
    else if imb < -ENTER ∧ q.sellArmed ∧ -POS_CAP ≤ wrap 64 (inv - LOT) then some .sell
    else none

/-- `on_tick`. -/
def onTick {ρ : Type u} [Router ρ] (q : ImbalanceTaker) (c : StrategyContext ρ) :
    StrategyContext ρ × ImbalanceTaker :=
  let m := c.x.view
  if !m.twoSided then (c, q)
  else
    let q := q.rearm m.imbalance
    match q.entry c.x with
    | none => (c, q)
    | some .buy =>
      ((c.submit .buy m.bestAsk LOT .ioc .limit).1,
        { q with buyArmed := false, lastNs := c.x.nowNs })
    | some .sell =>
      ((c.submit .sell m.bestBid LOT .ioc .limit).1,
        { q with sellArmed := false, lastNs := c.x.nowNs })

/-! ### The record of a run -/

/-- A two-sided frame as the taker saw it. -/
structure Tick where
  imb : ℚ
  nowNs : ℤ
  entry : Option Side

/-- The taker with its frames, the newest first. -/
structure Watched where
  taker : ImbalanceTaker := {}
  ticks : List Tick := []

/-- `on_tick` with the record kept. -/
def watch {ρ : Type u} [Router ρ] (w : Watched) (c : StrategyContext ρ) :
    StrategyContext ρ × Watched :=
  let imb := c.x.view.imbalance
  ((w.taker.onTick c).1,
    { taker := (w.taker.onTick c).2
      ticks :=
        if c.x.view.twoSided then ⟨imb, c.x.nowNs, (w.taker.rearm imb).entry c.x⟩ :: w.ticks
        else w.ticks })

/-- Whether a side may enter. -/
def armed (q : ImbalanceTaker) : Side → Bool
  | .buy => q.buyArmed
  | .sell => q.sellArmed

/-- The imbalance as the side sees it: positive when the depth is on its side of the book. -/
def seen (side : Side) (imb : ℚ) : ℚ :=
  match side with
  | .buy => imb
  | .sell => -imb

theorem armed_rearm (q : ImbalanceTaker) (imb : ℚ) (side : Side) :
    (q.rearm imb).armed side = if seen side imb < RESET then true else q.armed side := by
  cases side with
  | buy => rfl
  | sell =>
    change (if -RESET < imb then true else q.sellArmed) = if -imb < RESET then _ else q.sellArmed
    simp only [neg_lt]

/-- **What an entry says**: the cooldown is over, the side was armed and the imbalance strong, and
the lot fits under the cap. -/
theorem entry_eq_some {q : ImbalanceTaker} {x : ExecContext} {side : Side}
    (h : q.entry x = some side) :
    COOLDOWN_NS ≤ wrap 64 (x.nowNs - q.lastNs) ∧ q.armed side = true ∧
      ENTER < seen side x.view.imbalance ∧
      (|(x.account.position x.view.instrument).qty| < 2 ^ 62 →
        x.held side x.view.instrument + LOT ≤ POS_CAP) := by
  have hlot : LOT = 100 := rfl
  unfold entry at h
  dsimp only at h
  split_ifs at h with hwait hbuy hsell
  all_goals
    obtain rfl := Option.some_injective _ h
    refine ⟨not_lt.1 fun hlt => hwait (.inl hlt), ?_⟩
  · refine ⟨hbuy.2.1, hbuy.1, fun hpos => ?_⟩
    obtain ⟨hlow, hhigh⟩ := abs_lt.1 hpos
    have hle := hbuy.2.2
    rwa [wrap_eq_self (by decide) ⟨by omega, by omega⟩] at hle
  · refine ⟨hsell.2.1, lt_neg.1 hsell.1, fun hpos => ?_⟩
    obtain ⟨hlow, hhigh⟩ := abs_lt.1 hpos
    have hle := hsell.2.2
    rw [wrap_eq_self (by decide) ⟨by omega, by omega⟩] at hle
    change -(x.account.position x.view.instrument).qty + LOT ≤ POS_CAP
    omega

/-- The state after an entry or a frame without one. -/
theorem onTick_snd {ρ : Type u} [Router ρ] (q : ImbalanceTaker) {c : StrategyContext ρ}
    (hsides : c.x.view.twoSided = true) :
    (∀ side, (q.onTick c).2.armed side =
      ((q.rearm c.x.view.imbalance).armed side &&
        decide ((q.rearm c.x.view.imbalance).entry c.x ≠ some side))) ∧
      (q.onTick c).2.lastNs =
        if (q.rearm c.x.view.imbalance).entry c.x = none then q.lastNs else c.x.nowNs := by
  unfold onTick
  dsimp only
  rw [hsides]
  cases hentry : (q.rearm c.x.view.imbalance).entry c.x with
  | none => exact ⟨fun side => by simp, rfl⟩
  | some side =>
    cases side
    all_goals
      refine ⟨fun side => ?_, rfl⟩
      cases side <;> simp [armed]

/-! ### The pace -/

/-- The imbalance was seen back inside after every entry of the side. -/
def Reset (side : Side) (ticks : List Tick) : Prop :=
  ∀ l₂ a l₁, ticks = l₂ ++ a :: l₁ → a.entry = some side → ∃ t ∈ l₂, seen side t.imb < RESET

/-- **The invariant** of the record. -/
structure Paced (w : Watched) : Prop where
  last : -2 ^ 62 ≤ w.taker.lastNs ∧ w.taker.lastNs < 2 ^ 62
  le_last : ∀ a ∈ w.ticks, a.entry ≠ none → a.nowNs ≤ w.taker.lastNs
  reset : ∀ side, w.taker.armed side = true → Reset side w.ticks
  entered : ∀ t ∈ w.ticks, ∀ side, t.entry = some side → ENTER < seen side t.imb
  spaced : ∀ l₃ b l₂ a l₁, w.ticks = l₃ ++ b :: l₂ ++ a :: l₁ → a.entry ≠ none →
    b.entry ≠ none → a.nowNs + COOLDOWN_NS ≤ b.nowNs
  apart : ∀ l₃ b l₁, w.ticks = l₃ ++ b :: l₁ → ∀ side, b.entry = some side → Reset side l₁

theorem Reset.cons {side : Side} {ticks : List Tick} (h : Reset side ticks) {t : Tick}
    (ht : t.entry ≠ some side) : Reset side (t :: ticks) := by
  intro l₂ a l₁ hsplit ha
  cases l₂ with
  | nil =>
    obtain ⟨rfl, -⟩ := List.cons.inj hsplit
    exact absurd ha ht
  | cons b l₂ =>
    obtain ⟨rfl, htail⟩ := List.cons.inj hsplit
    obtain ⟨t', ht', hseen⟩ := h l₂ a l₁ htail ha
    exact ⟨t', List.mem_cons_of_mem _ ht', hseen⟩

/-- A frame inside of the band resets the side, unless it enters itself. -/
theorem Reset.of_seen {side : Side} {ticks : List Tick} {t : Tick} (ht : t.entry ≠ some side)
    (hseen : seen side t.imb < RESET) : Reset side (t :: ticks) := by
  intro l₂ a l₁ hsplit ha
  cases l₂ with
  | nil =>
    obtain ⟨rfl, -⟩ := List.cons.inj hsplit
    exact absurd ha ht
  | cons b l₂ =>
    obtain ⟨rfl, -⟩ := List.cons.inj hsplit
    exact ⟨t, List.mem_cons_self, hseen⟩

section Runs

variable {ρ : Type u} [Router ρ]

/-- **A tick keeps the record paced.** -/
theorem Paced.watch {w : Watched} (h : Paced w) {c : StrategyContext ρ}
    (hnow : |c.x.nowNs| < 2 ^ 62) : Paced (watch w c).2 := by
  obtain ⟨hlow, hhigh⟩ := abs_lt.1 hnow
  by_cases hsides : c.x.view.twoSided = true
  swap
  · have hsame : (w.taker.onTick c).2 = w.taker := by
      rw [onTick]
      simp [hsides]
    have hticks : (ImbalanceTaker.watch w c).2 = w := by
      rw [ImbalanceTaker.watch]
      simp [hsides, hsame]
    rwa [hticks]
  obtain ⟨harmed, hlast⟩ := onTick_snd w.taker hsides
  have hticks : (ImbalanceTaker.watch w c).2.ticks = ⟨c.x.view.imbalance, c.x.nowNs,
      (w.taker.rearm c.x.view.imbalance).entry c.x⟩ :: w.ticks := if_pos hsides
  have htaker : (ImbalanceTaker.watch w c).2.taker = (w.taker.onTick c).2 := rfl
  have hentry (side : Side) (he : (w.taker.rearm c.x.view.imbalance).entry c.x = some side) :=
    entry_eq_some he
  -- an entry comes a cooldown after the last one
  have hgap (hne : (w.taker.rearm c.x.view.imbalance).entry c.x ≠ none) :
      w.taker.lastNs + COOLDOWN_NS ≤ c.x.nowNs := by
    obtain ⟨side, he⟩ := Option.ne_none_iff_exists'.1 hne
    have hwait : COOLDOWN_NS ≤ wrap 64 (c.x.nowNs - w.taker.lastNs) := (hentry side he).1
    obtain ⟨hlast0, hlast1⟩ := h.last
    rw [wrap_eq_self (by decide) ⟨by omega, by omega⟩] at hwait
    omega
  have hcool : 0 < COOLDOWN_NS := by decide
  generalize hnew : (⟨c.x.view.imbalance, c.x.nowNs,
    (w.taker.rearm c.x.view.imbalance).entry c.x⟩ : Tick) = t at hticks
  have hte : t.entry = (w.taker.rearm c.x.view.imbalance).entry c.x := hnew ▸ rfl
  have htn : t.nowNs = c.x.nowNs := hnew ▸ rfl
  have hti : t.imb = c.x.view.imbalance := hnew ▸ rfl
  rw [← hte] at hlast hgap
  -- a side that may enter has been reset, by this frame or before
  have hreset (side : Side) (ha : (w.taker.rearm c.x.view.imbalance).armed side = true)
      (hnot : RESET ≤ seen side t.imb) : Reset side w.ticks := by
    rw [armed_rearm, ← hti, if_neg (not_lt.2 hnot)] at ha
    exact h.reset side ha
  refine ⟨?_, fun a ha hae => ?_, fun side hside => ?_, fun a ha side hae => ?_,
    fun l₃ b l₂ a l₁ hsplit ha hb => ?_, fun l₃ b l₁ hsplit side hb => ?_⟩
  · rw [htaker, hlast]
    split_ifs
    · exact h.last
    · exact ⟨by omega, hhigh⟩
  · rw [hticks] at ha
    rw [htaker, hlast]
    rcases List.mem_cons.1 ha with rfl | ha
    · rw [if_neg hae, htn]
    · have hle := h.le_last a ha hae
      split_ifs with hnone
      · exact hle
      · have hgap := hgap hnone
        omega
  · rw [htaker, harmed, ← hte, Bool.and_eq_true, decide_eq_true_iff] at hside
    rw [hticks]
    by_cases hseen : seen side t.imb < RESET
    · exact .of_seen hside.2 hseen
    · exact (hreset side hside.1 (not_lt.1 hseen)).cons hside.2
  · rw [hticks] at ha
    rcases List.mem_cons.1 ha with rfl | ha
    · rw [hti]
      exact (hentry side (hte ▸ hae)).2.2.1
    · exact h.entered a ha side hae
  · rw [hticks] at hsplit
    cases l₃ with
    | nil =>
      obtain ⟨rfl, htail⟩ := List.cons.inj hsplit
      have hle := h.le_last a (htail ▸ List.mem_append_right l₂ List.mem_cons_self) ha
      have hgap := hgap hb
      omega
    | cons d l₃ => exact h.spaced l₃ b l₂ a l₁ (List.cons.inj hsplit).2 ha hb
  · rw [hticks] at hsplit
    cases l₃ with
    | nil =>
      obtain ⟨rfl, rfl⟩ := List.cons.inj hsplit
      have he := hentry side (hte ▸ hb)
      have hreach : RESET ≤ seen side t.imb := by
        rw [hti]
        exact (show RESET ≤ ENTER by norm_num [RESET, ENTER]).trans he.2.2.1.le
      exact hreset side he.2.1 hreach
    | cons d l₃ => exact h.apart l₃ b l₁ (List.cons.inj hsplit).2 side hb

/-- **The condition on a step**: a frame leaves exec's clock within 146 years of its zero. -/
def ClockInRange {S : Type} (s : Hosted ρ S) : HostedStep ρ → Prop
  | .frame u => |(s.x.onFrame u).nowNs| < 2 ^ 62
  | _ => True

/-- **The taker is paced**: of any two entries of a run the later one comes a cooldown after the
earlier one, and if they are of one side, the imbalance was seen inside the reset band between
them. No frame is entered that is not strongly one-sided. -/
theorem taker_paced {s : Hosted ρ Watched}
    (hs : (hosted watch (Hosted.Flat {})).ReachableWhen ClockInRange s) :
    (∀ l₃ b l₂ a l₁, s.strategy.ticks = l₃ ++ b :: l₂ ++ a :: l₁ → a.entry ≠ none →
      b.entry ≠ none → a.nowNs + COOLDOWN_NS ≤ b.nowNs ∧
        ∀ side, a.entry = some side → b.entry = some side → ∃ t ∈ l₂, seen side t.imb < RESET) ∧
      ∀ t ∈ s.strategy.ticks, ∀ side, t.entry = some side → ENTER < seen side t.imb := by
  have h : Paced s.strategy := by
    refine hs.invariant (P := fun s => Paced s.strategy) (fun s hflat => ?_)
      fun s a t _ ha ht h => ?_
    · rw [hflat.strategy]
      refine ⟨⟨le_rfl, by decide⟩, fun a ha => absurd ha List.not_mem_nil,
        fun side _ l₂ a l₁ hsplit => ?_, fun a ha => absurd ha List.not_mem_nil,
        fun l₃ b l₂ a l₁ hsplit => ?_, fun l₃ b l₁ hsplit => ?_⟩
      all_goals exact absurd hsplit (by simp)
    · cases a with
      | clock | control | venue =>
        obtain rfl := Option.some_injective _ ht
        exact h
      | frame u =>
        obtain rfl := Option.some_injective _ ht
        exact Paced.watch (c := { s.toStrategyContext with x := s.x.onFrame u }) h ha
      | report rep =>
        simp only [hosted, Hosted.step, Option.ite_none_right_eq_some, Option.some.injEq] at ht
        obtain ⟨-, rfl⟩ := ht
        exact h
  refine ⟨fun l₃ b l₂ a l₁ hsplit ha hb => ⟨h.spaced l₃ b l₂ a l₁ hsplit ha hb,
    fun side hae hbe => ?_⟩, h.entered⟩
  rw [List.append_assoc] at hsplit
  exact h.apart l₃ b (l₂ ++ a :: l₁) hsplit side hbe l₂ a l₁ rfl hae

/-! ### The position -/

/-- The venue has answered the earlier entries of the side that a frame enters. -/
def Answered (s : Hosted ρ ImbalanceTaker) : HostedStep ρ → Prop
  | .frame u =>
    let x := s.x.onFrame u
    x.view.twoSided = true → ∀ r ∈ x.orders.rows,
      (s.strategy.rearm x.view.imbalance).entry x ≠ some r.side
  | _ => True

/-- An entry leaves room for its lot under the cap. -/
theorem capped_onTick {c : StrategyContext ρ} {q : ImbalanceTaker}
    (h : Capped LOT (POS_CAP - LOT + 1) c.x)
    (hnone : c.x.view.twoSided = true → ∀ r ∈ c.x.orders.rows,
      (q.rearm c.x.view.imbalance).entry c.x ≠ some r.side) :
    Capped LOT (POS_CAP - LOT + 1) (q.onTick c).1.x := by
  have hbounds : POS_CAP - LOT + 1 + LOT < 2 ^ 62 := by decide
  unfold onTick
  dsimp only
  split_ifs with hsides
  · exact h
  · simp only [Bool.not_eq_true', Bool.not_eq_false] at hsides
    have hroom (side : Side) (hentry : (q.rearm c.x.view.imbalance).entry c.x = some side)
        (px : ℤ) : Capped LOT (POS_CAP - LOT + 1) (c.submit side px LOT .ioc .limit).1.x := by
      have hheld := (entry_eq_some hentry).2.2.2 ((h.abs_position _).trans hbounds)
      exact h.submit (fun r hr hside => hnone hsides r hr (hside ▸ hentry)) (by omega) px _ _
    cases hentry : (q.rearm c.x.view.imbalance).entry c.x with
    | none => exact h
    | some side =>
      cases side with
      | buy => exact hroom .buy hentry c.x.view.bestAsk
      | sell => exact hroom .sell hentry c.x.view.bestBid

/-- **The taker's cap holds**, for the position of every instrument and for what it would be if
the open orders filled, as long as every entry is answered before the next one of its side. -/
theorem taker_capped {s : Hosted ρ ImbalanceTaker}
    (hs : (hosted onTick (Hosted.Flat {})).ReachableWhen Answered s) :
    (∀ side, s.x.orders.rows.countP (fun r => r.side = side) ≤ 1) ∧
      (∀ j, |(s.x.account.position j).qty| ≤ POS_CAP) ∧
      ∀ r ∈ s.x.orders.rows, s.x.held r.side r.instrument + r.leaves ≤ POS_CAP := by
  have h : Capped LOT (POS_CAP - LOT + 1) s.x := by
    refine hs.invariant (P := fun s => Capped LOT (POS_CAP - LOT + 1) s.x)
      (fun s hflat => ?_) fun s a t _ ha ht h => ?_
    · exact .of_flat (by decide) hflat.rows hflat.position
    cases a with
    | clock | control | venue =>
      obtain rfl := Option.some_injective _ ht
      exact h.of_subset (fun _ _ => rfl) fun _ hr => hr
    | frame u =>
      obtain rfl := Option.some_injective _ ht
      exact capped_onTick (c := { s.toStrategyContext with x := s.x.onFrame u })
        (h.of_subset (held_onFrame s.x u) fun _ hr => hr) ha
    | report rep =>
      simp only [hosted, Hosted.step, Option.ite_none_right_eq_some, Option.some.injEq] at ht
      obtain ⟨hopen, rfl⟩ := ht
      exact h.report hopen
  refine ⟨h.countP_side_le, fun j => ?_, fun r hr => ?_⟩
  · have hlt := h.abs_position j
    omega
  · have hlt := h.held_add_leaves_lt hr
    omega

end Runs

/-! ### Runs -/

/-- A frame at one of these times whose visible depth is that of the two sides. -/
def depthFrame (time : UInt64) (bidQty askQty : ℤ) : MarketUpdate :=
  { MarketUpdate.zero with
    eventTime := time
    nb := 1
    na := 1
    bestBid := 100
    bestAsk := 101
    bids := fun _ => ⟨100, bidQty, 1⟩
    asks := fun _ => ⟨101, askQty, 1⟩ }

/-- Two buys with a balanced frame between them; the first one is filled. -/
def takenRun : List (HostedStep NullRouter) :=
  [.frame (depthFrame 0 90 10),
    .report { clOrdId := 1, execType := .fill, lastPx := 101, lastQty := 100 },
    .frame (depthFrame 500 50 50), .frame (depthFrame 1000000000 90 10)]

instance (s : Hosted NullRouter Watched) (a : HostedStep NullRouter) :
    Decidable (ClockInRange s a) := by
  cases a <;> unfold ClockInRange <;> infer_instance

theorem taker_paced_taken : ∃ s : Hosted NullRouter Watched,
    (hosted watch (Hosted.Flat {})).execWhen ClockInRange
        ⟨(demoEngine { spotOnly := false }).toStrategyContext, {}⟩ takenRun = some s ∧
      s.strategy.ticks.map Tick.entry = [some .buy, none, some .buy] ∧
      ∀ t ∈ s.strategy.ticks, ∀ side, t.entry = some side → ENTER < seen side t.imb := by
  have hrun : ((hosted watch (Hosted.Flat {})).execWhen ClockInRange
      ⟨(demoEngine { spotOnly := false }).toStrategyContext, {}⟩ takenRun).map
        (fun s => s.strategy.ticks.map Tick.entry) = some [some .buy, none, some .buy] := by
    decide +kernel
  obtain ⟨s, hs, hticks⟩ := Option.map_eq_some_iff.mp hrun
  have hreach := Machine.ReachableWhen.execWhen (.init (M := hosted watch (Hosted.Flat {}))
    ⟨rfl, fun _ => rfl, rfl⟩) takenRun hs
  exact ⟨s, hs, hticks, (taker_paced hreach).2⟩

instance (s : Hosted NullRouter ImbalanceTaker) (a : HostedStep NullRouter) :
    Decidable (Answered s a) := by
  cases a <;> unfold Answered <;> infer_instance

theorem taker_capped_taken : ∃ s : Hosted NullRouter ImbalanceTaker,
    (hosted onTick (Hosted.Flat {})).execWhen Answered
        ⟨(demoEngine { spotOnly := false }).toStrategyContext, {}⟩ takenRun = some s ∧
      s.x.orders.size = 1 ∧ |(s.x.account.position 0).qty| ≤ POS_CAP := by
  have hrun : ((hosted onTick (Hosted.Flat {})).execWhen Answered
      ⟨(demoEngine { spotOnly := false }).toStrategyContext, {}⟩ takenRun).map
        (fun s => s.x.orders.size) = some 1 := by
    decide +kernel
  obtain ⟨s, hs, hsize⟩ := Option.map_eq_some_iff.mp hrun
  have hreach := Machine.ReachableWhen.execWhen (.init (M := hosted onTick (Hosted.Flat {}))
    ⟨rfl, fun _ => rfl, rfl⟩) takenRun hs
  exact ⟨s, hs, hsize, (taker_capped hreach).2.1 0⟩

end ImbalanceTaker

end Exec

end LowLatencyPipeline
