import LowLatencyPipeline.Exec.Assets
import LowLatencyPipeline.Library.Drawdown

/-!
# Peak equity and drawdown

`peak_equity` and `max_drawdown` of an `Account` over any calls of its operations. `Tracked` is an
account with the equities after its fills and marks; only these change the equity
(`equity_untracked`), and `track_equity` takes each into account (`onFill_eq_trackEquity`,
`mark_eq_trackEquity`).

* **Drawdown** (`drawdown_exact`): the peak is the greatest equity, and the drawdown is the
  greatest drop exactly as long as every drop is a `Money`.
-/

namespace LowLatencyPipeline

namespace Exec

open Drawdown

/-! ### One update -/

section Equity

variable {a b : Account} {inst : UInt16}

/-- What an instrument adds to the equity. -/
def Inst.worth (i : Inst) : ℤ :=
  i.tlToMoney i.pos.realized +
    (if i.pos.mark2 = 0 ∨ i.pos.qty = 0 then 0
      else i.tlToMoney ((wrap 128 (i.pos.qty * i.pos.mark2 - 2 * i.pos.cost)).tdiv 2)) -
    i.pos.fees

theorem equity_eq (a : Account) : a.equity = wrap 64 (a.ids.map fun j => (a.inst j).worth).sum :=
  rfl

/-- A new row is worth nothing. -/
theorem worth_ofRow (row : Instrument) (base quote : ℕ) :
    (Inst.ofRow row base quote).worth = 0 := by
  have hzero : ∀ i : Inst, i.tlToMoney 0 = 0 := fun i => by
    rw [Inst.tlToMoney, zero_mul, wrap_zero, Int.zero_tdiv, zero_mul, wrap_zero, wrap_zero,
      ite_self]
  rw [Inst.worth, if_pos (.inl rfl), show (Inst.ofRow row base quote).pos.realized = 0 from rfl,
    hzero]
  rfl

/-- The equity depends on the instruments alone. -/
theorem equity_congr (hids : b.ids = a.ids) (hinst : b.inst = a.inst) : b.equity = a.equity := by
  rw [equity_eq, equity_eq, hids, hinst]

/-- An instrument without fills and marks adds nothing. -/
theorem equity_insertRow {c : NamedAccount} (hnew : inst ∉ c.ids) (row : Instrument)
    (base quote : ℕ) : (c.insertRow inst row base quote).equity = c.equity := by
  have hold : ∀ j ∈ c.ids, (Function.update c.inst inst (Inst.ofRow row base quote) j).worth =
      (c.inst j).worth := fun j hj => by
    rw [Function.update_of_ne (fun heq : j = inst => hnew (heq ▸ hj))]
  rw [equity_eq, equity_eq]
  change wrap 64 ((c.ids ++ [inst]).map fun j =>
    (Function.update c.inst inst (Inst.ofRow row base quote) j).worth).sum = _
  rw [List.map_append, List.sum_append, List.map_congr_left hold, List.map_singleton,
    List.sum_singleton, Function.update_self, worth_ofRow, add_zero]

theorem peak_trackEquity : a.trackEquity.peak = max a.peak a.equity := by
  rw [Account.trackEquity]
  dsimp only
  split_ifs with h
  · exact (max_eq_right h.le).symm
  · exact (max_eq_left (Int.not_lt.1 h)).symm

theorem maxDd_trackEquity :
    a.trackEquity.maxDd = max a.maxDd (wrap 64 (max a.peak a.equity - a.equity)) := by
  rw [← peak_trackEquity, Account.trackEquity]
  dsimp only
  split_ifs with h h' h'
  all_goals
    first
    | exact (max_eq_right h'.le).symm
    | exact (max_eq_left (Int.not_lt.1 h')).symm

/-- `on_fill` tracks the equity. -/
theorem onFill_eq_trackEquity (a : Account) (inst : UInt16) (side : Side)
    (px qty orderPx fee : ℤ) (feeInBase : Bool) :
    ∃ b : Account, b.peak = a.peak ∧ b.maxDd = a.maxDd ∧
      a.onFill inst side px qty orderPx fee feeInBase = b.trackEquity := by
  refine ⟨_, ?_, ?_, rfl⟩
  all_goals
    cases side
    all_goals
      cases feeInBase <;> rfl

/-- `mark` does nothing or tracks the equity. -/
theorem mark_eq_trackEquity (a : Account) (inst : UInt16) (bid ask : ℤ) :
    a.mark inst bid ask = a ∨
      ∃ b : Account, b.peak = a.peak ∧ b.maxDd = a.maxDd ∧ a.mark inst bid ask = b.trackEquity := by
  rw [Account.mark]
  split_ifs
  · exact .inl rfl
  · refine .inr ⟨a.setPos inst fun p => { p with mark2 := wrap 64 (bid + ask) }, ?_⟩
    exact ⟨rfl, rfl, rfl⟩

end Equity

/-! ### Runs -/

/-- An account with the equities after its fills and marks, which no code looks at. -/
structure Tracked extends NamedAccount where
  equities : List ℤ

/-- The operations of an `Account`. -/
inductive AccountCall
  | addInstrument (inst : UInt16) (row : Instrument) (symbol : List Char)
  | setBalance (name : List Char) (total : ℤ)
  | asset (name : List Char)
  | reserve (inst : UInt16) (side : Side) (px qty : ℤ)
  | release (inst : UInt16) (side : Side) (px qty : ℤ)
  | onFill (inst : UInt16) (side : Side) (px qty orderPx fee : ℤ) (feeInBase : Bool)
  | mark (inst : UInt16) (bid ask : ℤ)

/-- The calls after which the equity is taken. -/
def AccountCall.tracks : AccountCall → Bool
  | .onFill .. | .mark .. => true
  | _ => false

namespace Tracked

/-- The equity after a fill or a mark joins the others. -/
def record (s : Tracked) (a : Account) : Tracked :=
  { s with toAccount := a, equities := s.equities ++ [a.equity] }

/-- One call. Only an instrument that is traded has a row to reserve, release or fill. -/
def step (s : Tracked) : AccountCall → Option Tracked
  | .addInstrument inst row symbol =>
    some { s with toNamedAccount := (s.addInstrument inst row symbol).1 }
  | .setBalance name total => some { s with toNamedAccount := s.setBalance name total }
  | .asset name => some { s with toNamedAccount := (s.asset name).1 }
  | .reserve inst side px qty =>
    if s.trades inst then some { s with toAccount := s.toAccount.reserve inst side px qty }
    else none
  | .release inst side px qty =>
    if s.trades inst then some { s with toAccount := s.toAccount.release inst side px qty }
    else none
  | .onFill inst side px qty orderPx fee feeInBase =>
    if s.trades inst then
      some (s.record (s.toAccount.onFill inst side px qty orderPx fee feeInBase))
    else none
  | .mark inst bid ask => some (s.record (s.toAccount.mark inst bid ask))

/-- A new account, with its equity. -/
def new : Tracked := ⟨.new, [0]⟩

end Tracked

/-- The calls on a new account, in any order. -/
def tracked : Machine Tracked AccountCall where
  Init s := s = .new
  step := Tracked.step

namespace Tracked

open NamedAccount

variable {s t : Tracked} {a : Account} {c : AccountCall}

/-- The statistics describe the equities. -/
structure Exact (s : Tracked) : Prop where
  last : s.equities.getLast? = some s.equity
  peak : IsGreatest {e | e ∈ s.equities} s.peak
  money : s.maxDd < 2 ^ 63
  drawdown : (∀ d ∈ drops s.equities, d < 2 ^ 63) → IsGreatest (drops s.equities) s.maxDd

theorem exact_new : new.Exact where
  last := rfl
  peak := by
    refine ⟨List.mem_singleton.2 rfl, fun e he => ?_⟩
    exact (List.mem_singleton.1 he).le
  money := by decide
  drawdown _ := by
    refine ⟨⟨0, 0, 0, 0, le_rfl, rfl, rfl, rfl⟩, ?_⟩
    rintro d ⟨i, j, x, y, -, hx, hy, rfl⟩
    rw [List.mem_singleton.1 (List.mem_of_getElem? hx),
      List.mem_singleton.1 (List.mem_of_getElem? hy)]
    exact (sub_self (0 : ℤ)).le

/-- What no call of `track_equity` touches. -/
theorem Exact.congr (hs : s.Exact) (hequities : t.equities = s.equities)
    (hequity : t.equity = s.equity) (hpeak : t.peak = s.peak) (hdd : t.maxDd = s.maxDd) :
    t.Exact where
  last := by rw [hequities, hequity, hs.last]
  peak := by rw [hequities, hpeak]; exact hs.peak
  money := hdd ▸ hs.money
  drawdown := by rw [hequities, hdd]; exact hs.drawdown

/-- **`track_equity`** takes the new equity into account. -/
theorem Exact.track (hs : s.Exact) (hpeak : a.peak = s.peak) (hdd : a.maxDd = s.maxDd) :
    (s.record a.trackEquity).Exact where
  last := List.getLast?_concat ..
  peak := by
    change IsGreatest {e | e ∈ s.equities ++ [a.equity]} a.trackEquity.peak
    rw [peak_trackEquity, hpeak]
    exact isGreatest_mem_concat hs.peak
  money := by
    change a.trackEquity.maxDd < 2 ^ 63
    rw [maxDd_trackEquity, hdd]
    exact max_lt hs.money (fits_wrap (by omega) _).2
  drawdown hfits := by
    change IsGreatest (drops (s.equities ++ [a.equity])) a.trackEquity.maxDd
    have hgreatest := hs.drawdown fun d hd => hfits d (drops_subset_concat hd)
    -- the drop from the peak is one of the drops that fit
    have hdrop : max s.peak a.equity - a.equity < 2 ^ 63 :=
      hfits _ (mem_drops_concat.2 (.inr ⟨_, (isGreatest_mem_concat hs.peak).1, rfl⟩))
    have hle : a.equity ≤ max s.peak a.equity := le_max_right _ _
    rw [maxDd_trackEquity, hpeak, hdd, wrap_eq_self (by omega) ⟨by omega, hdrop⟩]
    exact isGreatest_drops_concat hs.peak hgreatest

/-- A mark that is ignored takes the same equity again. -/
theorem Exact.ignored (hs : s.Exact) : (s.record s.toAccount).Exact where
  last := List.getLast?_concat ..
  peak := by
    change IsGreatest {e | e ∈ s.equities ++ [s.equity]} s.peak
    rw [mem_repeat hs.last]
    exact hs.peak
  money := hs.money
  drawdown := by
    change (∀ d ∈ drops (s.equities ++ [s.equity]), d < 2 ^ 63) →
      IsGreatest (drops (s.equities ++ [s.equity])) s.maxDd
    rw [drops_repeat hs.last]
    exact hs.drawdown

/-- **Only fills and marks** change the equity and its statistics. -/
theorem untracked (h : s.step c = some t) (hc : c.tracks = false) :
    t.equities = s.equities ∧ t.equity = s.equity ∧ t.peak = s.peak ∧ t.maxDd = s.maxDd := by
  have hkept : Kept s.toNamedAccount t.toNamedAccount → t.equity = s.equity ∧ t.peak = s.peak ∧
      t.maxDd = s.maxDd := fun h => ⟨equity_congr h.ids h.inst, h.peak, h.maxDd⟩
  cases c with
  | addInstrument inst row symbol =>
    obtain rfl := Option.some.inj h
    refine ⟨rfl, ?_⟩
    rcases addInstrument_cases s.toNamedAccount inst row symbol with
      ⟨h, -⟩ | ⟨b, base, quote, h, hnew, -, hadd⟩
    · exact hkept h
    · rw [← h.ids] at hnew
      dsimp only
      rw [hadd, equity_insertRow hnew]
      exact ⟨equity_congr h.ids h.inst, h.peak, h.maxDd⟩
  | setBalance name total =>
    obtain rfl := Option.some.inj h
    exact ⟨rfl, hkept (kept_setBalance _ name total)⟩
  | asset name =>
    obtain rfl := Option.some.inj h
    exact ⟨rfl, hkept (kept_asset _ name)⟩
  | reserve inst side px qty =>
    rw [step] at h
    split_ifs at h
    obtain rfl := Option.some.inj h
    exact ⟨rfl, rfl, rfl, rfl⟩
  | release inst side px qty =>
    rw [step] at h
    split_ifs at h
    obtain rfl := Option.some.inj h
    exact ⟨rfl, rfl, rfl, rfl⟩
  | onFill => exact absurd hc (by simp [AccountCall.tracks])
  | mark => exact absurd hc (by simp [AccountCall.tracks])

/-- **One call** keeps the statistics exact. -/
theorem Exact.step (hs : s.Exact) (h : s.step c = some t) : t.Exact := by
  by_cases hc : c.tracks = false
  · obtain ⟨hequities, hequity, hpeak, hdd⟩ := untracked h hc
    exact hs.congr hequities hequity hpeak hdd
  cases c with
  | onFill inst side px qty orderPx fee feeInBase =>
    rw [Tracked.step] at h
    split_ifs at h
    obtain rfl := Option.some.inj h
    obtain ⟨b, hpeak, hdd, heq⟩ :=
      onFill_eq_trackEquity s.toAccount inst side px qty orderPx fee feeInBase
    rw [heq]
    exact hs.track hpeak hdd
  | mark inst bid ask =>
    obtain rfl := Option.some.inj h
    rcases mark_eq_trackEquity s.toAccount inst bid ask with heq | ⟨b, hpeak, hdd, heq⟩
    · rw [heq]
      exact hs.ignored
    · rw [heq]
      exact hs.track hpeak hdd
  | addInstrument | setBalance | asset | reserve | release => exact absurd rfl hc

theorem exact_of_reachable (hs : tracked.Reachable s) : s.Exact :=
  hs.invariant (P := Exact) (fun s (hinit : s = .new) => hinit ▸ exact_new)
    fun _ _ _ _ _ h hP => hP.step h

end Tracked

/-- **Drawdown.** In every state that calls on a new account reach, with the equities after its
fills and marks: the peak is the greatest of them; the drawdown is the greatest drop exactly if
every drop is a `Money`; and every other call leaves the equity as it is. -/
theorem drawdown_exact {s : Tracked} (hs : tracked.Reachable s) :
    IsGreatest {e | e ∈ s.equities} s.peak ∧
      (IsGreatest (drops s.equities) s.maxDd ↔ ∀ d ∈ drops s.equities, d < 2 ^ 63) ∧
      ∀ c t, tracked.step s c = some t → c.tracks = false → t.equity = s.equity := by
  have hexact := Tracked.exact_of_reachable hs
  refine ⟨hexact.peak, ⟨fun hgreatest d hd => ?_, hexact.drawdown⟩, fun c t h hc =>
    (Tracked.untracked h hc).2.1⟩
  exact (hgreatest.2 hd).trans_lt hexact.money

/-- A rebate of 2^62 and then fees of 2^63 - 1 and 1: the equity falls by 2^63, which is no
`Money`. -/
theorem drawdown_overflows :
    ¬∀ s, tracked.Reachable s → IsGreatest (drops s.equities) s.maxDd := by
  intro h
  obtain ⟨s, hrun, hequities, hdd⟩ : ∃ s, tracked.exec .new [
      .addInstrument 0 unitRow "BTC/USD".toList, .onFill 0 .buy 0 0 0 (-2 ^ 62) false,
      .onFill 0 .buy 0 0 0 (2 ^ 63 - 1) false, .onFill 0 .buy 0 0 0 1 false] = some s ∧
        s.equities = [0, 2 ^ 62, -2 ^ 62 + 1, -2 ^ 62] ∧ s.maxDd = 2 ^ 63 - 1 := by
    refine ⟨_, rfl, ?_⟩
    decide +kernel
  have hgreatest := h s (Machine.Reachable.exec (M := tracked) (.init rfl) _ hrun)
  rw [hequities, hdd] at hgreatest
  exact absurd (hgreatest.2 ⟨1, 3, 2 ^ 62, -2 ^ 62, by decide, rfl, rfl, rfl⟩) (by decide)

/-- Buy 2 lots at 100, marked at 110, at 90 and from one side only, and sold at 95. -/
theorem drawdown_exact_marks :
    ∃ s, tracked.exec .new [.addInstrument 0 unitRow "BTC/USD".toList,
        .onFill 0 .buy 100 2 100 0 false, .mark 0 109 111, .mark 0 89 91, .mark 0 EMPTY_BID 91,
        .onFill 0 .sell 95 2 95 0 false] = some s ∧
      s.equities = [0, 0, 20, -20, -20, -10] ∧ IsGreatest {e | e ∈ s.equities} 20 ∧
        IsGreatest (drops s.equities) 40 := by
  obtain ⟨s, hrun, hequities, hpeak, hdd⟩ :
      ∃ s, tracked.exec .new [.addInstrument 0 unitRow "BTC/USD".toList,
          .onFill 0 .buy 100 2 100 0 false, .mark 0 109 111, .mark 0 89 91, .mark 0 EMPTY_BID 91,
          .onFill 0 .sell 95 2 95 0 false] = some s ∧
        s.equities = [0, 0, 20, -20, -20, -10] ∧ s.peak = 20 ∧ s.maxDd = 40 := by
    refine ⟨_, rfl, ?_⟩
    decide +kernel
  obtain ⟨hgreatest, hdrawdown, -⟩ :=
    drawdown_exact (Machine.Reachable.exec (M := tracked) (.init rfl) _ hrun)
  rw [hpeak] at hgreatest
  rw [hdd] at hdrawdown
  have hrange : ∀ e ∈ s.equities, -20 ≤ e ∧ e ≤ 20 := by
    rw [hequities]
    decide
  refine ⟨s, hrun, hequities, hgreatest, hdrawdown.2 ?_⟩
  rintro d ⟨i, j, x, y, -, hx, hy, rfl⟩
  have hx' := hrange x (List.mem_of_getElem? hx)
  have hy' := hrange y (List.mem_of_getElem? hy)
  omega

end Exec

end LowLatencyPipeline
