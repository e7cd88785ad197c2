import LowLatencyPipeline.Exec.Engine
import LowLatencyPipeline.Exec.Funds
import Mathlib.Data.Finset.Lattice.Fold
import Mathlib.Order.Lattice.Nat

/-!
# The funds of spot-only trading

The gate lets a request through when the funds it locks are available now. An amend locks its
funds only when it is confirmed, so an amend in flight is overlooked by later requests, and the
gate's figure for the amend itself is the one without further fills at the old price:
`overdraft` is such a run. `reserved_le_total` says that this is the only way: as long as no
admitted request relies on funds that an amend in flight may still take (`FundsCount`), no
product or balance overflows and no amend is confirmed below what was filled already, every
asset's reserved funds are there.

The invariant `Funded` charges every amend in flight with the most it can add to the
reservation, over all the fills that may come first. A fill releases at least what it costs, and
a confirmation adds at most the charge.
-/

namespace LowLatencyPipeline

namespace Exec

universe u

variable {ρ : Type u}

/-- The terms of all the instruments. -/
abbrev Terms := UInt16 → Inst

/-- The row locks funds of asset `k`. -/
abbrev Locks (terms : Terms) (k : ℕ) (r : OrderRow) : Prop :=
  (terms r.instrument).asset r.side = k

/-- The funds of a row's open lots. -/
def rowFunds (terms : Terms) (r : OrderRow) : ℤ :=
  (terms r.instrument).funds r.side r.px r.leaves

/-- What the confirmation of an amend adds to the reservation when `q` more lots are filled
before it. -/
def amendFundsAfter (terms : Terms) (r : OrderRow) (q : ℕ) : ℤ :=
  (terms r.instrument).funds r.side r.newPx (r.newQty - r.cum - q) -
    (terms r.instrument).funds r.side r.px (r.leaves - q)

/-- The most that the confirmation of an amend can add to the reservation. -/
def amendFunds (terms : Terms) (r : OrderRow) : ℤ :=
  ((Finset.range (min r.leaves (r.newQty - r.cum) + 1).toNat).sup
    fun q => (amendFundsAfter terms r q).toNat : ℕ)

/-- The funds an amend in flight may still take. -/
def pendingFunds (terms : Terms) (inFlight : List UInt64) (r : OrderRow) : ℤ :=
  if r.id ∈ inFlight then amendFunds terms r else 0

namespace Engine

variable (s : Engine ρ)

def total (k : ℕ) : ℤ := (s.x.account.bal k).total

def reserved (k : ℕ) : ℤ := (s.x.account.bal k).reserved

/-- The funds of an asset that the amends in flight of the other orders may still take. -/
def otherPending (id : UInt64) (k : ℕ) : ℤ :=
  sumIf (Locks s.x.account.terms k)
    (fun r => if r.id = id then 0 else pendingFunds s.x.account.terms s.inFlight r) s.x.orders.rows

/-- The gate sees all there is to see: the need is no more than the figure it checks, or is
available too. -/
def CountsFunds (k : ℕ) (figure need : ℤ) : Prop :=
  need ≤ max 0 figure ∨ need ≤ s.total k - s.reserved k

/-- A report for a row confirms no amend below what was filled, and overflows nothing. -/
def ReportCounts (rep : ExecReport) (row : OrderRow) : Prop :=
  (rep.execType = .replaced → row.cum ≤ row.newQty) ∧
  (rep.IsFill → (s.x.account.terms row.instrument).Exact (rep.lastPx * rep.lastQty) ∧
    Fits 64 (rep.lastQty * (s.x.account.terms row.instrument).basePerLot) ∧
    ∀ k ∈ [(s.x.account.terms row.instrument).base, (s.x.account.terms row.instrument).quote],
      s.total k + (s.x.account.terms row.instrument).proceeds row.side rep.lastPx rep.lastQty k <
        2 ^ 63)

instance (rep : ExecReport) (row : OrderRow) : Decidable (s.ReportCounts rep row) :=
  inferInstanceAs (Decidable (_ ∧ _))

/-- **The condition on a step**: the gate does not overlook the funds an amend in flight may take
in a request that it admits; no amend is confirmed below the quantity filled already; and no
product or balance overflows. -/
def FundsCount (s : Engine ρ) : EngineStep ρ → Prop
  | .call (.submit side px qty tif type) =>
    s.x.admits (s.x.orderCheck side px qty tif type) = .ok () →
      let i := s.x.account.terms s.x.view.instrument
      i.Covers side px qty ∧ s.CountsFunds (i.asset side) (i.funds side px qty)
        (i.funds side px qty + s.otherPending 0 (i.asset side))
  | .call (.replace id px qty) =>
    ∀ row, s.x.orders.find id = some row → s.x.admitsReplace row px qty = .ok () →
      let i := s.x.account.terms row.instrument
      i.Covers row.side px (qty - row.cum) ∧ s.CountsFunds (i.asset row.side)
        (i.funds row.side px (qty - row.cum) - i.funds row.side row.px row.leaves)
        (amendFunds s.x.account.terms ((setPendingReplace px qty).run row) +
          s.otherPending id (i.asset row.side))
  | .report rep _ => ∀ row, s.x.orders.find rep.clOrdId = some row → s.ReportCounts rep row
  | _ => True

/-- Limit orders, zero fees, and fills at the order's limit or better. -/
def SpotTrading (s : Engine ρ) : EngineStep ρ → Prop
  | .call (.submit _ _ _ _ type) => type = .limit
  | .report rep _ => rep.IsFill → rep.fee = 0 ∧
      ∀ row, s.x.orders.find rep.clOrdId = some row → AtLimitOrBetter row.side row.px rep.lastPx
  | _ => True

end Engine

/-! ### The funds of an amend -/

section Amend

variable {terms : Terms} {inFlight : List UInt64} {r r' : OrderRow}

theorem amendFunds_nonneg (terms : Terms) (r : OrderRow) : 0 ≤ amendFunds terms r :=
  Int.natCast_nonneg _

theorem pendingFunds_nonneg (terms : Terms) (inFlight : List UInt64) (r : OrderRow) :
    0 ≤ pendingFunds terms inFlight r := by
  unfold pendingFunds
  split_ifs
  · exact amendFunds_nonneg terms r
  · exact le_rfl

theorem pendingFunds_mono {l l' : List UInt64} (h : l' ⊆ l) (r : OrderRow) :
    pendingFunds terms l' r ≤ pendingFunds terms l r := by
  unfold pendingFunds
  split_ifs with h₁ h₂
  · exact le_rfl
  · exact absurd (h h₁) h₂
  · exact amendFunds_nonneg terms r
  · exact le_rfl

theorem amendFundsAfter_le {q : ℕ} (hq : (q : ℤ) ≤ min r.leaves (r.newQty - r.cum)) :
    amendFundsAfter terms r q ≤ amendFunds terms r := by
  have hmem : q ∈ Finset.range (min r.leaves (r.newQty - r.cum) + 1).toNat :=
    Finset.mem_range.mpr (by omega)
  have hle := Finset.le_sup (f := fun q => (amendFundsAfter terms r q).toNat) hmem
  exact (Int.self_le_toNat _).trans (Int.ofNat_le.mpr hle)

theorem amendFunds_le {b : ℤ} (hb : 0 ≤ b)
    (h : ∀ q : ℕ, (q : ℤ) ≤ min r.leaves (r.newQty - r.cum) → amendFundsAfter terms r q ≤ b) :
    amendFunds terms r ≤ b := by
  have hle : (Finset.range (min r.leaves (r.newQty - r.cum) + 1).toNat).sup
      (fun q => (amendFundsAfter terms r q).toNat) ≤ b.toNat := by
    refine Finset.sup_le fun q hq => ?_
    have hrange := Finset.mem_range.mp hq
    have hafter := h q (by omega)
    omega
  unfold amendFunds
  omega

/-- **A fill lowers what an amend may take**: its lots are among those the charge foresees. -/
theorem amendFunds_le_of_fill {n : ℤ} (hn : 0 ≤ n) (hinst : r'.instrument = r.instrument)
    (hside : r'.side = r.side) (hpx : r'.px = r.px) (hnewPx : r'.newPx = r.newPx)
    (hnewQty : r'.newQty = r.newQty) (hcum : r'.cum = r.cum + n)
    (hleaves : r'.leaves = r.leaves - n) : amendFunds terms r' ≤ amendFunds terms r := by
  refine amendFunds_le (amendFunds_nonneg terms r) fun q hq => ?_
  have hafter : amendFundsAfter terms r' q = amendFundsAfter terms r (q + n.toNat) := by
    simp only [amendFundsAfter, hinst, hside, hpx, hnewPx, hnewQty, hcum, hleaves]
    congr 2 <;> push_cast [Int.toNat_of_nonneg hn] <;> omega
  rw [hafter]
  refine amendFundsAfter_le ?_
  rw [hcum, hleaves, hnewQty] at hq
  omega

/-- A confirmed amend takes nothing more. -/
theorem amendFunds_eq_zero (hpx : r.newPx = r.px) (hqty : r.newQty - r.cum = r.leaves) :
    amendFunds terms r = 0 := by
  refine le_antisymm (amendFunds_le le_rfl fun q _ => ?_) (amendFunds_nonneg terms r)
  rw [amendFundsAfter, hpx, hqty, sub_self]

/-- A row without an amend has none to confirm. -/
theorem amendFunds_of_unamended (hcum : r.cum = 0) (hnewPx : r.newPx = 0) (hnewQty : r.newQty = 0)
    (hfunds : 0 ≤ rowFunds terms r) : amendFunds terms r = 0 := by
  refine le_antisymm (amendFunds_le le_rfl fun q hq => ?_) (amendFunds_nonneg terms r)
  have hq0 : q = 0 := by omega
  have hnone : (terms r.instrument).funds r.side r.newPx (r.newQty - r.cum) = 0 := by
    rw [hnewPx, hnewQty, hcum]
    exact Inst.funds_zero _ _ _
  rw [hq0, amendFundsAfter, Nat.cast_zero, sub_zero, sub_zero, hnone]
  exact sub_nonpos.mpr hfunds

end Amend

/-! ### The invariant -/

/-- What holds of every row: no count or price is negative, and no product overflows. -/
structure RowFunded (terms : Terms) (r : OrderRow) : Prop where
  px : 0 ≤ r.px
  leaves : 0 ≤ r.leaves
  cum : 0 ≤ r.cum
  total : r.cum + r.leaves < 2 ^ 63
  covers : (terms r.instrument).Covers r.side r.px r.leaves
  newPx : 0 ≤ r.newPx
  newQty : r.newQty < 2 ^ 63
  newCovers : r.cum ≤ r.newQty → (terms r.instrument).Covers r.side r.newPx (r.newQty - r.cum)

/-- **The invariant**: the funds of the open lots are reserved, and the reserved funds with those
the amends in flight may take are there. -/
structure Funded (terms : Terms) (s : Engine ρ) : Prop where
  spot : s.x.risk.lim.spotOnly = true
  terms_eq : s.x.account.terms = terms
  scaled : ∀ i, (terms i).Scaled
  row_ok : ∀ r ∈ s.x.orders.rows, RowFunded terms r
  total_lt : ∀ k, s.total k < 2 ^ 63
  funds_le : ∀ k, sumIf (Locks terms k) (rowFunds terms) s.x.orders.rows ≤ s.reserved k
  pledged_le : ∀ k, s.reserved k +
    sumIf (Locks terms k) (pendingFunds terms s.inFlight) s.x.orders.rows ≤ s.total k

section Invariant

variable {terms : Terms} {s t : Engine ρ}

theorem RowFunded.funds_nonneg {r : OrderRow} (h : RowFunded terms r)
    (hi : (terms r.instrument).Scaled) : 0 ≤ rowFunds terms r :=
  hi.funds_nonneg h.px h.leaves

/-- A row as it is inserted. -/
theorem rowFunded_of_unamended {r : OrderRow} (hpx : 0 ≤ r.px) (hleaves : 0 ≤ r.leaves)
    (hlt : r.leaves < 2 ^ 63) (hcum : r.cum = 0) (hnewPx : r.newPx = 0) (hnewQty : r.newQty = 0)
    (hcovers : (terms r.instrument).Covers r.side r.px r.leaves) : RowFunded terms r := by
  refine ⟨hpx, hleaves, hcum.ge, by omega, hcovers, hnewPx.ge, by omega, fun _ => ?_⟩
  rw [hnewQty, hcum, sub_zero]
  exact Inst.covers_zero _ _ _

/-- A row after a fill. -/
theorem RowFunded.filledRow {r : OrderRow} {rep : ExecReport} (h : RowFunded terms r)
    (hi : (terms r.instrument).Scaled) (hq : 0 ≤ rep.lastQty) (hle : rep.lastQty ≤ r.leaves) :
    RowFunded terms (ExecContext.filledRow r rep) := by
  have hcum0 := h.cum
  have htotal0 := h.total
  have hleaves : (ExecContext.filledRow r rep).leaves = r.leaves - rep.lastQty :=
    filledRow_leaves hq hle (by omega)
  have hcum : (ExecContext.filledRow r rep).cum = r.cum + rep.lastQty :=
    filledRow_cum hq hcum0 (by omega)
  refine ⟨h.px, by omega, by omega, by omega, ?_, h.newPx, h.newQty, fun hnew => ?_⟩
  · rw [hleaves]
    exact h.covers.part hi h.px (by omega) (by omega)
  · have hold : r.cum ≤ r.newQty := by
      change (ExecContext.filledRow r rep).cum ≤ r.newQty at hnew
      omega
    rw [hcum] at hnew ⊢
    change r.cum + rep.lastQty ≤ r.newQty at hnew
    exact (h.newCovers hold).part hi h.newPx (sub_nonneg.mpr hnew)
      (show r.newQty - _ ≤ _ by omega)

theorem Funded.reserved_nonneg (h : Funded terms s) (k : ℕ) : 0 ≤ s.reserved k :=
  (sumIf_nonneg fun r hr => (h.row_ok r hr).funds_nonneg (h.scaled _)).trans (h.funds_le k)

theorem Funded.pending_nonneg (terms : Terms) (s : Engine ρ) (k : ℕ) :
    0 ≤ sumIf (Locks terms k) (pendingFunds terms s.inFlight) s.x.orders.rows :=
  sumIf_nonneg fun r _ => pendingFunds_nonneg terms s.inFlight r

theorem Funded.reserved_le (h : Funded terms s) (k : ℕ) : s.reserved k ≤ s.total k := by
  have hpledged := h.pledged_le k
  have hpending := Funded.pending_nonneg terms s k
  omega

theorem Funded.reserved_lt (h : Funded terms s) (k : ℕ) : s.reserved k < 2 ^ 63 :=
  (h.reserved_le k).trans_lt (h.total_lt k)

/-- The funds of each row are reserved. -/
theorem Funded.rowFunds_le (h : Funded terms s) {r : OrderRow} (hr : r ∈ s.x.orders.rows) :
    rowFunds terms r ≤ s.reserved ((terms r.instrument).asset r.side) := by
  have hle : rowFunds terms r ≤
      sumIf (Locks terms ((terms r.instrument).asset r.side)) (rowFunds terms) s.x.orders.rows :=
    le_sumIf_of_mem hr rfl fun r hr => (h.row_ok r hr).funds_nonneg (h.scaled _)
  exact hle.trans (h.funds_le _)

/-- What the gate sees as available is. -/
theorem Funded.available (h : Funded terms s) (k : ℕ) :
    (s.x.account.bal k).available = s.total k - s.reserved k := by
  have hle := h.reserved_le k
  have hlt := h.total_lt k
  have hpos := h.reserved_nonneg k
  exact wrap_eq_self (by omega) ⟨by rw [← Engine.total, ← Engine.reserved]; omega,
    by rw [← Engine.total, ← Engine.reserved]; omega⟩

/-- **The exchange rule**: some rows are taken out, others put in, and the balances follow. -/
theorem Funded.exchange (h : Funded terms s) {old new rest : Multiset OrderRow}
    (hrows : s.x.orders.rows = old + rest) (hrows' : t.x.orders.rows = new + rest)
    (hrisk : t.x.risk = s.x.risk) (hterms : t.x.account.terms = s.x.account.terms)
    (hrest : ∀ r ∈ rest, pendingFunds terms t.inFlight r ≤ pendingFunds terms s.inFlight r)
    (hnew : ∀ r ∈ new, RowFunded terms r) (htotal : ∀ k, t.total k < 2 ^ 63)
    (hfunds : ∀ k, sumIf (Locks terms k) (rowFunds terms) new + s.reserved k ≤
      t.reserved k + sumIf (Locks terms k) (rowFunds terms) old)
    (hpledged : ∀ k,
      s.reserved k + sumIf (Locks terms k) (pendingFunds terms s.inFlight) old +
          sumIf (Locks terms k) (pendingFunds terms s.inFlight) rest ≤ s.total k →
        t.reserved k + sumIf (Locks terms k) (pendingFunds terms t.inFlight) new +
          sumIf (Locks terms k) (pendingFunds terms s.inFlight) rest ≤ t.total k) :
    Funded terms t := by
  refine ⟨hrisk ▸ h.spot, hterms.trans h.terms_eq, h.scaled, fun r hr => ?_, htotal, fun k => ?_,
    fun k => ?_⟩
  · rw [hrows', Multiset.mem_add] at hr
    rcases hr with hr | hr
    · exact hnew r hr
    · exact h.row_ok r (hrows ▸ Multiset.mem_add.mpr (.inr hr))
  · have hle := h.funds_le k
    have hexchange := hfunds k
    rw [hrows, sumIf_union] at hle
    rw [hrows', sumIf_union]
    omega
  · have hle := h.pledged_le k
    have hmono : sumIf (Locks terms k) (pendingFunds terms t.inFlight) rest ≤
        sumIf (Locks terms k) (pendingFunds terms s.inFlight) rest := sumIf_mono hrest
    rw [hrows, sumIf_union] at hle
    have hexchange := hpledged k (by omega)
    rw [hrows', sumIf_union]
    omega

/-- Some rows go, and the balances stay. -/
theorem Funded.drop (h : Funded terms s) (hle : t.x.orders.rows ≤ s.x.orders.rows)
    (hrisk : t.x.risk = s.x.risk) (hterms : t.x.account.terms = s.x.account.terms)
    (hbal : t.x.account.bal = s.x.account.bal) (hin : t.inFlight ⊆ s.inFlight) :
    Funded terms t := by
  obtain ⟨old, hrows⟩ := Multiset.le_iff_exists_add.mp hle
  have hold : ∀ r ∈ old, 0 ≤ rowFunds terms r := fun r hr =>
    (h.row_ok r (hrows ▸ Multiset.mem_add.mpr (.inr hr))).funds_nonneg (h.scaled _)
  have htotal : ∀ k, t.total k = s.total k := fun k => by rw [Engine.total, hbal, Engine.total]
  have hreserved : ∀ k, t.reserved k = s.reserved k := fun k => by
    rw [Engine.reserved, hbal, Engine.reserved]
  refine h.exchange (by rw [hrows, add_comm]) (show _ = 0 + _ from (zero_add _).symm) hrisk hterms
    (fun r _ => pendingFunds_mono hin r) (fun r hr => absurd hr (Multiset.notMem_zero r))
    (fun k => htotal k ▸ h.total_lt k) (fun k => ?_) fun k hk => ?_
  · have hpos : 0 ≤ sumIf (Locks terms k) (rowFunds terms) old := sumIf_nonneg hold
    rw [hreserved, sumIf_zero]
    omega
  · have hpos : 0 ≤ sumIf (Locks terms k) (pendingFunds terms s.inFlight) old :=
      sumIf_nonneg fun r _ => pendingFunds_nonneg terms s.inFlight r
    rw [hreserved, htotal, sumIf_zero]
    omega

/-- What the gate admits is available, with the amends in flight counted. -/
theorem Funded.admitted (h : Funded terms s) {k : ℕ} {figure need : ℤ}
    (hcounts : s.CountsFunds k figure need) (hgate : figure ≤ (s.x.account.bal k).available) :
    need ≤ s.total k - s.reserved k := by
  have hle := h.reserved_le k
  rw [h.available] at hgate
  rcases hcounts with hneed | hneed <;> omega

/-! ### The calls -/

variable [Router ρ]

/-- A new order. -/
theorem Funded.submit (h : Funded terms s) {side : Side} {px qty : ℤ} {tif : Tif}
    (hcond : s.FundsCount (.call (.submit side px qty tif .limit)))
    (htyped : Fits 64 px ∧ Fits 64 qty) :
    Funded terms (s.makeCall (.submit side px qty tif .limit)) := by
  have hcall : (s.makeCall (.submit side px qty tif .limit)).x =
      (s.toStrategyContext.submit side px qty tif .limit).1.x := rfl
  have hin : (s.makeCall (.submit side px qty tif .limit)).inFlight = s.inFlight := rfl
  rcases s.toStrategyContext.submit_cases side px qty tif .limit with
    ⟨orders, lastReject, st, heq, hle⟩ |
    ⟨o, row, ho, hadmits, hrow, orders, rate, st, heq, hrows⟩
  · rw [heq] at hcall
    exact h.drop (by rw [hcall]; exact hle) (by rw [hcall]) (by rw [hcall]) (by rw [hcall])
      fun _ => id
  · rw [heq] at hcall
    obtain ⟨hok, -⟩ := admits_ok hadmits
    obtain ⟨hcovers, hcounts⟩ := hcond (ho ▸ hadmits)
    obtain rfl := h.terms_eq
    subst ho
    have hpx : 0 < px := hok.px_pos rfl
    have hqty : 0 < qty := hok.qty_pos
    have hrowpx : row.px = px := by
      rw [hrow]
      exact if_pos hpx
    have hrowleaves : row.leaves = qty := by rw [hrow]; rfl
    have hrowside : row.side = side := by rw [hrow]; rfl
    have hrowinst : row.instrument = s.x.view.instrument := by rw [hrow]; rfl
    have hi := h.scaled s.x.view.instrument
    have hfunds : 0 ≤ (s.x.account.terms s.x.view.instrument).funds side px qty :=
      hi.funds_nonneg hpx.le hqty.le
    have hgate := hok.funds h.spot
    rw [if_pos (show 0 < (s.x.orderCheck side px qty tif .limit).px from hpx)] at hgate
    change s.x.account.reservation s.x.view.instrument side px qty ≤ _ at hgate
    rw [reservation_eq hi hcovers, Account.sideBalance, sideAsset_eq] at hgate
    have hneed := h.admitted hcounts hgate
    have hpending : s.otherPending 0 ((s.x.account.terms s.x.view.instrument).asset side) =
        sumIf (Locks s.x.account.terms ((s.x.account.terms s.x.view.instrument).asset side))
          (pendingFunds s.x.account.terms s.inFlight) s.x.orders.rows :=
      sumIf_congr fun r hr => if_neg (OrderTable.id_ne_zero hr)
    have hpending0 := Funded.pending_nonneg s.x.account.terms s
      ((s.x.account.terms s.x.view.instrument).asset side)
    have hlt := h.total_lt ((s.x.account.terms s.x.view.instrument).asset side)
    have hreserved0 := h.reserved_nonneg ((s.x.account.terms s.x.view.instrument).asset side)
    rw [hpending] at hneed
    have htotal : ∀ k, (s.makeCall (.submit side px qty tif .limit)).total k = s.total k := by
      intro k
      rw [Engine.total, hcall]
      exact total_reserve
    have hreserved : ∀ k, (s.makeCall (.submit side px qty tif .limit)).reserved k = s.reserved k +
        if (s.x.account.terms s.x.view.instrument).asset side = k
          then (s.x.account.terms s.x.view.instrument).funds side px qty else 0 := fun k => by
      rw [Engine.reserved, hcall]
      dsimp only
      rw [hrowpx, hrowleaves, hrowside, hrowinst]
      exact reserved_reserve_eq hi hcovers ⟨by rw [← Engine.reserved]; omega,
        by rw [← Engine.reserved]; omega⟩ k
    have hcum : row.cum = 0 := by rw [hrow]; rfl
    have hnewPx : row.newPx = 0 := by rw [hrow]; rfl
    have hnewQty : row.newQty = 0 := by rw [hrow]; rfl
    have hrowok : RowFunded s.x.account.terms row := by
      refine rowFunded_of_unamended (by omega) (by omega) (hrowleaves ▸ htyped.2.2) hcum hnewPx
        hnewQty ?_
      rwa [hrowpx, hrowleaves, hrowside, hrowinst]
    have hrowfunds0 := hrowok.funds_nonneg (h.scaled _)
    have hrownone : pendingFunds s.x.account.terms s.inFlight row = 0 := by
      rw [pendingFunds, amendFunds_of_unamended hcum hnewPx hnewQty hrowfunds0, ite_self]
    have hrowfunds : rowFunds s.x.account.terms row =
        (s.x.account.terms s.x.view.instrument).funds side px qty := by
      rw [rowFunds, hrowpx, hrowleaves, hrowside, hrowinst]
    have hlocks : ∀ k, Locks s.x.account.terms k row ↔
        (s.x.account.terms s.x.view.instrument).asset side = k := fun k => by
      rw [Locks, hrowside, hrowinst]
    have hrisk : (s.makeCall (.submit side px qty tif .limit)).x.risk = s.x.risk := by rw [hcall]
    have hterms : (s.makeCall (.submit side px qty tif .limit)).x.account.terms =
        s.x.account.terms := by rw [hcall]; rfl
    have hlt' : ∀ k, (s.makeCall (.submit side px qty tif .limit)).total k < 2 ^ 63 :=
      fun k => htotal k ▸ h.total_lt k
    -- the table keeps the row, or a router that refuses takes it out again
    obtain ⟨new, hnew, hrows⟩ : ∃ new, (new = 0 ∨ new = {row}) ∧
        (s.makeCall (.submit side px qty tif .limit)).x.orders.rows =
          new + s.x.orders.rows := by
      rw [hcall]
      rcases hrows with hrows | hrows
      · exact ⟨{row}, .inr rfl, hrows⟩
      · exact ⟨0, .inl rfl, hrows.trans (zero_add _).symm⟩
    have hrowmem : ∀ r ∈ new, RowFunded s.x.account.terms r := by
      intro r hr
      rcases hnew with rfl | rfl
      · exact absurd hr (Multiset.notMem_zero r)
      · exact Multiset.mem_singleton.mp hr ▸ hrowok
    refine h.exchange (show _ = 0 + _ from (zero_add _).symm) hrows hrisk hterms
      (fun _ _ => le_rfl) hrowmem hlt' (fun k => ?_) fun k hk => ?_
    · have hsum := sumIf_le_of_eq_singleton (p := Locks s.x.account.terms k) hnew hrowfunds0
      rw [sumIf_zero, hreserved]
      simp only [hlocks, hrowfunds] at hsum
      omega
    · have hsum := sumIf_le_of_eq_singleton (p := Locks s.x.account.terms k) hnew hrownone.ge
      rw [hrownone, ite_self] at hsum
      rw [hreserved, htotal, hin]
      rw [sumIf_zero] at hk
      split_ifs with hasset
      · subst hasset
        omega
      · omega

omit [Router ρ] in
/-- Two lists of amends that differ in one order's charge the others the same. -/
theorem pendingFunds_congr {l l' : List UInt64} {row : OrderRow} {rest : Multiset OrderRow}
    (hrows : s.x.orders.rows = row ::ₘ rest) (hmem : ∀ i, i ≠ row.id → (i ∈ l' ↔ i ∈ l)) :
    ∀ r ∈ rest, pendingFunds terms l' r ≤ pendingFunds terms l r := fun r hr => by
  simp only [pendingFunds, hmem r.id (OrderTable.id_ne_of_cons hrows hr), le_refl]

omit [Router ρ] in
/-- The balances and the other rows stay, and the row keeps its terms. -/
theorem Funded.touch (h : Funded terms s) {row row' : OrderRow} {rest : Multiset OrderRow}
    (hrows : s.x.orders.rows = row ::ₘ rest) (hrows' : t.x.orders.rows = row' ::ₘ rest)
    (hrisk : t.x.risk = s.x.risk) (hterms : t.x.account.terms = s.x.account.terms)
    (hbal : t.x.account.bal = s.x.account.bal)
    (hmem : ∀ i, i ≠ row.id → (i ∈ t.inFlight ↔ i ∈ s.inFlight)) (hside : row'.side = row.side)
    (hinst : row'.instrument = row.instrument) (hok : RowFunded terms row')
    (hfunds : rowFunds terms row' = rowFunds terms row)
    (hpending : ∀ k, (terms row.instrument).asset row.side = k →
      s.reserved k + pendingFunds terms s.inFlight row +
          sumIf (Locks terms k) (pendingFunds terms s.inFlight) rest ≤ s.total k →
        s.reserved k + pendingFunds terms t.inFlight row' +
          sumIf (Locks terms k) (pendingFunds terms s.inFlight) rest ≤ s.total k) :
    Funded terms t := by
  have htotal : ∀ k, t.total k = s.total k := fun k => by rw [Engine.total, hbal, Engine.total]
  have hreserved : ∀ k, t.reserved k = s.reserved k := fun k => by
    rw [Engine.reserved, hbal, Engine.reserved]
  have hlocks : ∀ k, Locks terms k row' ↔ Locks terms k row := fun k => by
    rw [Locks, Locks, hside, hinst]
  refine h.exchange (show _ = {row} + rest from hrows) (show _ = {row'} + rest from hrows') hrisk
    hterms (pendingFunds_congr hrows hmem) (fun r hr => Multiset.mem_singleton.mp hr ▸ hok)
    (fun k => htotal k ▸ h.total_lt k) (fun k => ?_) fun k hk => ?_
  · rw [sumIf_singleton, sumIf_singleton, hreserved, hfunds]
    simp only [hlocks]
    omega
  · rw [sumIf_singleton] at hk
    rw [sumIf_singleton, hreserved, htotal]
    simp only [hlocks]
    split_ifs at hk ⊢ with hasset
    · exact hpending k hasset hk
    · exact hk

/-- An amend. -/
theorem Funded.replace (h : Funded terms s) {id : UInt64} {px qty : ℤ}
    (hcond : s.FundsCount (.call (.replace id px qty))) (htyped : Fits 64 px ∧ Fits 64 qty) :
    Funded terms (s.makeCall (.replace id px qty)) := by
  have hcall : (s.makeCall (.replace id px qty)).x = (s.toStrategyContext.replace id px qty).1.x :=
    rfl
  rcases s.toStrategyContext.replace_cases id px qty with
    ⟨hfalse, lastReject, st, heq⟩ |
    ⟨htrue, row, rest, rfl, hrows, -, -, hadmits, orders, rate, st, heq, hrows'⟩
  · rw [heq] at hcall
    exact h.drop (by rw [hcall]) (by rw [hcall]) (by rw [hcall]) (by rw [hcall])
      (by simp [Engine.makeCall, hfalse])
  · rw [heq] at hcall
    have hin : (s.makeCall (.replace row.id px qty)).inFlight = row.id :: s.inFlight := by
      simp [Engine.makeCall, htrue]
    have hmem := OrderTable.mem_rows_of_cons hrows
    obtain ⟨hcum, hpx, -, hgate⟩ := admitsReplace_ok hadmits
    obtain ⟨hcovers, hcounts⟩ := hcond row (OrderTable.find_eq_some.mpr ⟨hmem, rfl⟩) hadmits
    obtain rfl := h.terms_eq
    have hrow := h.row_ok row hmem
    have hcum0 := hrow.cum
    have hi := h.scaled row.instrument
    -- the confirmed leaves, which the gate prices
    have hnewLeaves : wrap 64 (qty - row.cum) = qty - row.cum :=
      wrap_eq_self (by omega) ⟨by omega, by have := htyped.2.2; omega⟩
    have hfunds := hrow.funds_nonneg hi
    have hfundslt := hrow.covers.lt
    have hneed0 : 0 ≤ (s.x.account.terms row.instrument).funds row.side px (qty - row.cum) :=
      hi.funds_nonneg hpx.le (by omega)
    have hneedlt := hcovers.lt
    have hgate := hgate h.spot
    rw [hnewLeaves, reservation_eq hi hcovers, reservation_eq hi hrow.covers, Account.sideBalance,
      sideAsset_eq] at hgate
    rw [rowFunds] at hfunds
    rw [wrap_eq_self (by omega) ⟨by omega, by omega⟩] at hgate
    have hneed := h.admitted hcounts hgate
    -- the gate charges the amends in flight of the other rows
    have hother : s.otherPending row.id ((s.x.account.terms row.instrument).asset row.side) =
        sumIf (Locks s.x.account.terms ((s.x.account.terms row.instrument).asset row.side))
          (pendingFunds s.x.account.terms s.inFlight) rest := by
      rw [Engine.otherPending, hrows, sumIf_cons, if_pos rfl, if_pos rfl, zero_add]
      exact sumIf_congr fun r hr => if_neg (OrderTable.id_ne_of_cons hrows hr)
    rw [hother] at hneed
    have hmodified : (s.makeCall (.replace row.id px qty)).x.orders.rows =
        (setPendingReplace px qty).run row ::ₘ rest := by
      rw [hcall]
      exact hrows'
    refine h.touch hrows hmodified (by rw [hcall]) (by rw [hcall]) (by rw [hcall])
      (fun i hi => by simp [hin, hi]) rfl rfl
      ⟨hrow.px, hrow.leaves, hrow.cum, hrow.total, hrow.covers, hpx.le, htyped.2.2,
        fun _ => hcovers⟩ rfl fun k hk _ => ?_
    subst hk
    have hpending : pendingFunds s.x.account.terms (s.makeCall (.replace row.id px qty)).inFlight
        ((setPendingReplace px qty).run row) =
          amendFunds s.x.account.terms ((setPendingReplace px qty).run row) :=
      if_pos (by rw [hin]; exact List.mem_cons_self)
    rw [hpending]
    omega

/-- A cancel. -/
theorem Funded.cancel (h : Funded terms s) (id : UInt64) {c : StrategyContext ρ}
    (hc : c = (s.toStrategyContext.cancel id).1) :
    Funded terms { s with toStrategyContext := c } := by
  rcases s.toStrategyContext.cancel_cases id with
    ⟨lastReject, st, heq⟩ | ⟨row, rest, rfl, hrows, orders, rate, st, heq, hrows'⟩
  · rw [← hc] at heq
    exact h.drop (by rw [heq]) (by rw [heq]) (by rw [heq]) (by rw [heq]) (List.Subset.refl _)
  · rw [← hc] at heq
    have hrow := h.row_ok row (OrderTable.mem_rows_of_cons hrows)
    exact h.touch hrows (show _ = setPendingCancel.run row ::ₘ rest by rw [heq]; exact hrows')
      (by rw [heq]) (by rw [heq]) (by rw [heq]) (fun _ _ => Iff.rfl) rfl rfl
      ⟨hrow.px, hrow.leaves, hrow.cum, hrow.total, hrow.covers, hrow.newPx, hrow.newQty,
        hrow.newCovers⟩ rfl fun _ _ hle => hle

/-! ### The reports -/

section Fill

variable {rep : ExecReport} {row : OrderRow} {rest : Multiset OrderRow}

omit [Router ρ] in
/-- The balances after a fill: the lots are settled, and nothing is left to release. -/
theorem Funded.bal_fill (h : Funded s.x.account.terms s) (hmem : row ∈ s.x.orders.rows)
    (hq : 0 ≤ rep.lastQty) (hle : rep.lastQty ≤ row.leaves) (k : ℕ) :
    (s.x.applyFill row rep).account.bal k = (s.x.account.onFill row.instrument row.side rep.lastPx
      rep.lastQty row.px rep.fee rep.feeInBase).bal k ∧
    ((s.x.applyFill row rep).account.bal k).reserved = s.reserved k -
      if Locks s.x.account.terms k row then
        (s.x.account.terms row.instrument).funds row.side row.px rep.lastQty else 0 := by
  have hrow := h.row_ok row hmem
  have hi := h.scaled row.instrument
  have hpart := hrow.covers.part hi hrow.px hq hle
  have hpart0 : 0 ≤ (s.x.account.terms row.instrument).funds row.side row.px rep.lastQty :=
    hi.funds_nonneg hrow.px hq
  have hpartle : (s.x.account.terms row.instrument).funds row.side row.px rep.lastQty ≤
      rowFunds s.x.account.terms row := hi.funds_le hrow.px hq hle
  have hheld := h.rowFunds_le hmem
  have hlt := h.reserved_lt ((s.x.account.terms row.instrument).asset row.side)
  have honFill := reserved_onFill_eq hi hpart
    ⟨by rw [← Engine.reserved]; omega, by rw [← Engine.reserved]; omega⟩ rep.lastPx rep.fee
    rep.feeInBase
  have hbal : (s.x.applyFill row rep).account.bal k = (s.x.account.onFill row.instrument row.side
      rep.lastPx rep.lastQty row.px rep.fee rep.feeInBase).bal k := by
    rw [account_applyFill]
    · -- a row that is filled whole has nothing left to release
      refine (reservation_eq ?_ (Inst.covers_zero _ _ _)).trans (Inst.funds_zero _ _ _)
      rwa [terms_onFill]
    · have hlow := h.reserved_nonneg k
      have hhigh := h.reserved_lt k
      rw [honFill, ← Engine.reserved]
      split_ifs with hk
      · subst hk
        exact ⟨by omega, by omega⟩
      · exact ⟨by omega, by omega⟩
  exact ⟨hbal, by rw [hbal, honFill, Engine.reserved]⟩

omit [Router ρ] in
/-- The balances after a fill at the limit or better. -/
theorem Funded.total_fill (h : Funded s.x.account.terms s) (hmem : row ∈ s.x.orders.rows)
    (hq : 0 ≤ rep.lastQty) (hle : rep.lastQty ≤ row.leaves) (hfee : rep.fee = 0)
    (hbetter : AtLimitOrBetter row.side row.px rep.lastPx)
    (hexact : (s.x.account.terms row.instrument).Exact (rep.lastPx * rep.lastQty))
    (hbase : Fits 64 (rep.lastQty * (s.x.account.terms row.instrument).basePerLot)) {k : ℕ}
    (hroom : s.total k +
      (s.x.account.terms row.instrument).proceeds row.side rep.lastPx rep.lastQty k < 2 ^ 63) :
    ((s.x.applyFill row rep).account.bal k).total = s.total k +
      (s.x.account.terms row.instrument).proceeds row.side rep.lastPx rep.lastQty k := by
  have hrow := h.row_ok row hmem
  have hi := h.scaled row.instrument
  have hcost := hi.proceeds_ge hrow.px hq hbetter k
  have hlow := h.reserved_nonneg k
  have hpledge := h.reserved_le k
  have hpartle : (s.x.account.terms row.instrument).funds row.side row.px rep.lastQty ≤
      rowFunds s.x.account.terms row := hi.funds_le hrow.px hq hle
  have hheld := h.rowFunds_le hmem
  -- a buyer pays no more than the lots had reserved
  have hcover : (if k = (s.x.account.terms row.instrument).asset row.side then
      (s.x.account.terms row.instrument).funds row.side row.px rep.lastQty else 0) ≤
        s.reserved k := by
    split_ifs with hk
    · subst hk
      omega
    · exact hlow
  rw [(h.bal_fill hmem hq hle k).1, hfee,
    total_onFill ⟨by rw [← Engine.total]; omega, h.total_lt k⟩, proceeds_eq hi hexact hbase,
    ← Engine.total]
  exact wrap_eq_self (by omega) ⟨by omega, hroom⟩

omit [Router ρ] in
/-- A fill. -/
theorem Funded.fill (h : Funded terms s) {answersReplace : Bool}
    (hrows : s.x.orders.rows = row ::ₘ rest)
    (hx : (s.deliver rep answersReplace).x = s.x.applyFill row rep) (hq : 0 ≤ rep.lastQty)
    (hle : rep.lastQty ≤ row.leaves) (hfee : rep.fee = 0)
    (hbetter : AtLimitOrBetter row.side row.px rep.lastPx)
    (hexact : (terms row.instrument).Exact (rep.lastPx * rep.lastQty))
    (hbase : Fits 64 (rep.lastQty * (terms row.instrument).basePerLot))
    (hroom : ∀ k, s.total k +
      (terms row.instrument).proceeds row.side rep.lastPx rep.lastQty k < 2 ^ 63) :
    Funded terms (s.deliver rep answersReplace) := by
  obtain rfl := h.terms_eq
  have hmem := OrderTable.mem_rows_of_cons hrows
  have hrow := h.row_ok row hmem
  have hcum0 := hrow.cum
  have htotal0 := hrow.total
  have hi := h.scaled row.instrument
  have hleaves : (ExecContext.filledRow row rep).leaves = row.leaves - rep.lastQty :=
    filledRow_leaves hq hle (by omega)
  have hcum : (ExecContext.filledRow row rep).cum = row.cum + rep.lastQty :=
    filledRow_cum hq hcum0 (by omega)
  have hfilled := hrow.filledRow hi hq hle
  have hrest0 : 0 ≤ rowFunds s.x.account.terms (ExecContext.filledRow row rep) :=
    hfilled.funds_nonneg hi
  have hsum : rowFunds s.x.account.terms (ExecContext.filledRow row rep) +
      (s.x.account.terms row.instrument).funds row.side row.px rep.lastQty ≤
        rowFunds s.x.account.terms row := by
    rw [rowFunds, rowFunds, hleaves, add_comm]
    exact hi.funds_add_le hrow.px hq hle
  have hreserved : ∀ k, (s.deliver rep answersReplace).reserved k = s.reserved k -
      if Locks s.x.account.terms k row then
        (s.x.account.terms row.instrument).funds row.side row.px rep.lastQty else 0 := by
    intro k
    rw [Engine.reserved, hx]
    exact (h.bal_fill hmem hq hle k).2
  have htotal : ∀ k, (s.deliver rep answersReplace).total k = s.total k +
      (s.x.account.terms row.instrument).proceeds row.side rep.lastPx rep.lastQty k := by
    intro k
    rw [Engine.total, hx]
    exact h.total_fill hmem hq hle hfee hbetter hexact hbase (hroom k)
  have hpending : pendingFunds s.x.account.terms (s.deliver rep answersReplace).inFlight
      (ExecContext.filledRow row rep) ≤ pendingFunds s.x.account.terms s.inFlight row := by
    refine (pendingFunds_mono (s.deliver_inFlight_subset rep answersReplace) _).trans ?_
    have hless : amendFunds s.x.account.terms (ExecContext.filledRow row rep) ≤
        amendFunds s.x.account.terms row :=
      amendFunds_le_of_fill hq rfl rfl rfl rfl rfl hcum hleaves
    rw [pendingFunds, pendingFunds]
    change (if row.id ∈ s.inFlight then _ else _) ≤ _
    split_ifs <;> omega
  have hpending0 := pendingFunds_nonneg s.x.account.terms
    (s.deliver rep answersReplace).inFlight (ExecContext.filledRow row rep)
  -- the row stays with the lots left, or goes
  obtain ⟨new, hnew, hrows'⟩ : ∃ new, (new = 0 ∨ new = {ExecContext.filledRow row rep}) ∧
      (s.deliver rep answersReplace).x.orders.rows = new + rest := by
    rw [hx, rows_applyFill hrows rep]
    split_ifs
    · exact ⟨0, .inl rfl, (zero_add _).symm⟩
    · exact ⟨_, .inr rfl, rfl⟩
  have hnewmem : ∀ r ∈ new, RowFunded s.x.account.terms r := by
    intro r hr
    rcases hnew with rfl | rfl
    · exact absurd hr (Multiset.notMem_zero r)
    · exact Multiset.mem_singleton.mp hr ▸ hfilled
  refine h.exchange (show _ = {row} + rest from hrows) hrows' (by rw [hx, risk_applyFill])
    (by rw [hx, terms_applyFill])
    (fun r _ => pendingFunds_mono (s.deliver_inFlight_subset rep answersReplace) r)
    hnewmem (fun k => htotal k ▸ hroom k) (fun k => ?_) fun k hk => ?_
  · have hsums := sumIf_le_of_eq_singleton (p := Locks s.x.account.terms k) hnew hrest0
    change _ ≤ if Locks s.x.account.terms k row then _ else _ at hsums
    rw [sumIf_singleton, hreserved]
    split_ifs at hsums ⊢ <;> omega
  · have hsums := sumIf_le_of_eq_singleton (p := Locks s.x.account.terms k) hnew hpending0
    change _ ≤ if Locks s.x.account.terms k row then _ else _ at hsums
    have hcost := hi.proceeds_ge hrow.px hq hbetter k
    rw [sumIf_singleton] at hk
    rw [hreserved, htotal]
    simp only [eq_comm (a := k)] at hcost
    split_ifs at hsums hcost hk ⊢ <;> omega

end Fill

omit [Router ρ] in
/-- The confirmation of an amend. -/
theorem Funded.replaced (h : Funded terms s) {rep : ExecReport} {answersReplace : Bool}
    {row : OrderRow} {rest : Multiset OrderRow} (hid : row.id = rep.clOrdId)
    (hrows : s.x.orders.rows = row ::ₘ rest)
    (hx : (s.deliver rep answersReplace).x = s.x.applyReplaced row)
    (hin : rep.clOrdId ∈ s.inFlight) (hcum : row.cum ≤ row.newQty) :
    Funded terms (s.deliver rep answersReplace) := by
  obtain rfl := h.terms_eq
  have hmem := OrderTable.mem_rows_of_cons hrows
  have hrow := h.row_ok row hmem
  have hcum0 := hrow.cum
  have hleaves0 := hrow.leaves
  have hi := h.scaled row.instrument
  have hleaves : (ExecContext.replacedRow row).leaves = row.newQty - row.cum :=
    replacedRow_leaves hrow.cum hcum hrow.newQty
  have hcovers := hrow.newCovers hcum
  have hfunds := hrow.funds_nonneg hi
  have hnew : rowFunds s.x.account.terms (ExecContext.replacedRow row) =
      (s.x.account.terms row.instrument).funds row.side row.newPx (row.newQty - row.cum) := by
    rw [rowFunds, hleaves]
    rfl
  have hnew0 : 0 ≤ rowFunds s.x.account.terms (ExecContext.replacedRow row) :=
    hnew ▸ hi.funds_nonneg hrow.newPx (by omega)
  -- the charge foresees the case of no further fill
  have hstep : rowFunds s.x.account.terms (ExecContext.replacedRow row) -
      rowFunds s.x.account.terms row ≤ pendingFunds s.x.account.terms s.inFlight row := by
    have hafter : amendFundsAfter s.x.account.terms row 0 ≤ _ :=
      amendFundsAfter_le (show ((0 : ℕ) : ℤ) ≤ _ by omega)
    rw [amendFundsAfter, Nat.cast_zero, sub_zero, sub_zero] at hafter
    rw [hnew, pendingFunds, if_pos (hid ▸ hin)]
    exact hafter
  have hle := h.rowFunds_le hmem
  have hpledged : s.reserved ((s.x.account.terms row.instrument).asset row.side) +
      pendingFunds s.x.account.terms s.inFlight row ≤
        s.total ((s.x.account.terms row.instrument).asset row.side) := by
    have hone : pendingFunds s.x.account.terms s.inFlight row ≤
        sumIf (Locks s.x.account.terms ((s.x.account.terms row.instrument).asset row.side))
          (pendingFunds s.x.account.terms s.inFlight) s.x.orders.rows :=
      le_sumIf_of_mem hmem rfl fun r _ => pendingFunds_nonneg _ _ r
    have hall := h.pledged_le ((s.x.account.terms row.instrument).asset row.side)
    omega
  have hlt := h.total_lt ((s.x.account.terms row.instrument).asset row.side)
  have hreserved : ∀ k, (s.deliver rep answersReplace).reserved k = s.reserved k +
      if Locks s.x.account.terms k row then
        rowFunds s.x.account.terms (ExecContext.replacedRow row) - rowFunds s.x.account.terms row
      else 0 := fun k => by
    rw [Engine.reserved, hx]
    change (((s.x.account.release row.instrument row.side row.px row.leaves).reserve row.instrument
      row.side row.newPx (ExecContext.replacedRow row).leaves).bal k).reserved = _
    rw [hnew] at hstep hnew0 ⊢
    rw [hleaves]
    rw [rowFunds] at *
    exact reserved_release_reserve_eq hi hrow.covers hcovers
      ⟨by rw [← Engine.reserved]; omega, by rw [← Engine.reserved]; omega⟩ k
  have htotal : ∀ k, (s.deliver rep answersReplace).total k = s.total k := fun k => by
    rw [Engine.total, hx]
    exact total_reserve.trans total_release
  have hnone : pendingFunds s.x.account.terms (s.deliver rep answersReplace).inFlight
      (ExecContext.replacedRow row) = 0 := by
    rw [pendingFunds, amendFunds_eq_zero rfl hleaves.symm, ite_self]
  refine h.exchange (show _ = {row} + rest from hrows)
    (show _ = {ExecContext.replacedRow row} + rest by rw [hx]; exact rows_applyReplaced hrows)
    (by rw [hx]; rfl) (by rw [hx]; rfl)
    (fun r _ => pendingFunds_mono (s.deliver_inFlight_subset rep answersReplace) r)
    (fun r hr => ?_) (fun k => htotal k ▸ h.total_lt k) (fun k => ?_) fun k hk => ?_
  · obtain rfl := Multiset.mem_singleton.mp hr
    refine ⟨hrow.newPx, by omega, hrow.cum, ?_, ?_, hrow.newPx, hrow.newQty, hrow.newCovers⟩
    · change row.cum + (ExecContext.replacedRow row).leaves < 2 ^ 63
      have := hrow.newQty
      omega
    · rw [hleaves]
      exact hcovers
  · rw [sumIf_singleton, sumIf_singleton, hreserved]
    change (if Locks s.x.account.terms k row then _ else _) + _ ≤ _
    split_ifs <;> omega
  · rw [sumIf_singleton] at hk
    rw [sumIf_singleton, hnone, ite_self, hreserved, htotal]
    split_ifs at hk ⊢ <;> omega

omit [Router ρ] in
/-- A report that drops the order. -/
theorem Funded.finish (h : Funded terms s) {rep : ExecReport} {answersReplace : Bool}
    {row : OrderRow} {rest : Multiset OrderRow} {orders : OrderTable} {st : ExecStats}
    (hrows : s.x.orders.rows = row ::ₘ rest) (hrows' : orders.rows = rest)
    (hx : (s.deliver rep answersReplace).x = { s.x with
      orders, st, account := s.x.account.release row.instrument row.side row.px row.leaves }) :
    Funded terms (s.deliver rep answersReplace) := by
  obtain rfl := h.terms_eq
  have hmem := OrderTable.mem_rows_of_cons hrows
  have hrow := h.row_ok row hmem
  have hi := h.scaled row.instrument
  have hfunds := hrow.funds_nonneg hi
  have hreserved : ∀ k, (s.deliver rep answersReplace).reserved k = s.reserved k -
      if Locks s.x.account.terms k row then rowFunds s.x.account.terms row else 0 := fun k => by
    have hle := h.rowFunds_le hmem
    have hlt := h.reserved_lt ((s.x.account.terms row.instrument).asset row.side)
    rw [Engine.reserved, hx]
    exact reserved_release_eq hi hrow.covers
      ⟨by rw [← Engine.reserved, ← rowFunds]; omega, by rw [← Engine.reserved, ← rowFunds]; omega⟩ k
  have htotal : ∀ k, (s.deliver rep answersReplace).total k = s.total k := fun k => by
    rw [Engine.total, hx]
    exact total_release
  refine h.exchange (show _ = {row} + rest from hrows)
    (show _ = 0 + rest by rw [hx, zero_add]; exact hrows') (by rw [hx]) (by rw [hx]; rfl)
    (fun r _ => pendingFunds_mono (s.deliver_inFlight_subset rep answersReplace) r)
    (fun r hr => absurd hr (Multiset.notMem_zero r)) (fun k => htotal k ▸ h.total_lt k)
    (fun k => ?_) fun k hk => ?_
  · rw [sumIf_zero, sumIf_singleton, hreserved]
    omega
  · have hpending := pendingFunds_nonneg s.x.account.terms s.inFlight row
    rw [sumIf_singleton] at hk
    rw [sumIf_zero, hreserved, htotal]
    split_ifs at hk ⊢ <;> omega

omit [Router ρ] in
/-- A report. -/
theorem Funded.report (h : Funded terms s) {rep : ExecReport} {answersReplace : Bool}
    (hrep : s.Reports rep) (hspot : s.SpotTrading (.report rep answersReplace))
    (hcond : s.FundsCount (.report rep answersReplace)) :
    Funded terms (s.deliver rep answersReplace) := by
  have heffect : ReportEffect s.x rep (s.deliver rep answersReplace).x :=
    applyReport_effect s.x rep
  have hsub := s.deliver_inFlight_subset rep answersReplace
  generalize hx : (s.deliver rep answersReplace).x = x at heffect
  cases heffect with
  | unknown st hfind =>
    exact h.drop (by rw [hx]) (by rw [hx]) (by rw [hx]) (by rw [hx]) hsub
  | kept row row' rest orders st hfind hid hrows hrows' hsame =>
    have hrow := h.row_ok row (OrderTable.mem_rows_of_cons hrows)
    -- nothing the funds depend on has changed
    have hpending : pendingFunds terms s.inFlight row' = pendingFunds terms s.inFlight row := by
      simp only [pendingFunds, amendFunds, amendFundsAfter, hsame.id, hsame.instrument, hsame.side,
        hsame.leaves, hsame.px, hsame.cum, hsame.newPx, hsame.newQty]
    have hmono : pendingFunds terms _ row' ≤ _ := pendingFunds_mono hsub row'
    refine h.touch hrows (by rw [hx]; exact hrows') (by rw [hx]) (by rw [hx]) (by rw [hx])
      (fun i hi => Engine.mem_deliver_inFlight s rep answersReplace (hid ▸ hi)) hsame.side
      hsame.instrument ⟨hsame.px ▸ hrow.px, hsame.leaves ▸ hrow.leaves, hsame.cum ▸ hrow.cum,
        hsame.cum ▸ hsame.leaves ▸ hrow.total, ?_, hsame.newPx ▸ hrow.newPx,
        hsame.newQty ▸ hrow.newQty, ?_⟩ ?_ fun k _ hle => by omega
    · rw [hsame.instrument, hsame.side, hsame.px, hsame.leaves]
      exact hrow.covers
    · rw [hsame.instrument, hsame.side, hsame.newPx, hsame.newQty, hsame.cum]
      exact hrow.newCovers
    · rw [rowFunds, rowFunds, hsame.instrument, hsame.side, hsame.px, hsame.leaves]
  | filled row rest hfind hid hrows hfill =>
    obtain ⟨hfee, hbetter⟩ := hspot hfill
    obtain ⟨hexact, hbase, hroom⟩ := (hcond row hfind).2 hfill
    rw [h.terms_eq] at hexact hbase hroom
    refine h.fill hrows hx (hrep.fill hfill).1 (hrep.lastQty_le hfind hfill) hfee
      (hbetter row hfind) hexact hbase fun k => ?_
    by_cases hk : k ∈ [(terms row.instrument).base, (terms row.instrument).quote]
    · exact hroom k hk
    · -- a fill pays into its two assets only
      simp only [List.mem_cons, List.not_mem_nil, or_false, not_or] at hk
      rw [Inst.proceeds_eq_zero hk.1 hk.2, add_zero]
      exact h.total_lt k
  | replaced row rest hfind hid hrows htype =>
    exact h.replaced hid hrows hx (hrep.replaced htype) ((hcond row hfind).1 htype)
  | dropped row rest orders st hfind hid hrows hrows' =>
    exact h.finish hrows hrows' hx

/-! ### Runs -/

omit [Router ρ] in
/-- A step that leaves orders, amends, limits, terms and balances alone. -/
theorem Funded.still (h : Funded terms s) (horders : t.x.orders = s.x.orders)
    (hrisk : t.x.risk = s.x.risk) (hterms : t.x.account.terms = s.x.account.terms)
    (hbal : t.x.account.bal = s.x.account.bal) (hin : t.inFlight = s.inFlight) : Funded terms t :=
  h.drop (by rw [horders]) hrisk hterms hbal (by rw [hin]; exact List.Subset.refl _)

/-- **The step lemma.** -/
theorem Funded.step (h : Funded terms s) {a : EngineStep ρ} (hspot : s.SpotTrading a)
    (hcond : s.FundsCount a) (hstep : s.step a = some t) : Funded terms t := by
  cases a with
  | clock tsc wallNs =>
    obtain rfl := Option.some_injective _ hstep
    exact h.still rfl rfl rfl rfl rfl
  | control flags =>
    obtain rfl := Option.some_injective _ hstep
    exact h.still rfl rfl rfl rfl rfl
  | venue router =>
    obtain rfl := Option.some_injective _ hstep
    exact h.still rfl rfl rfl rfl rfl
  | frame u =>
    obtain rfl := Option.some_injective _ hstep
    exact h.still rfl rfl (terms_mark _ _) (bal_mark _ _) rfl
  | report rep answersReplace =>
    simp only [Engine.step, Option.ite_none_right_eq_some, Option.some.injEq] at hstep
    obtain ⟨hrep, rfl⟩ := hstep
    exact h.report hrep hspot hcond
  | call a =>
    simp only [Engine.step, Option.ite_none_right_eq_some, Option.some.injEq] at hstep
    obtain ⟨htyped, rfl⟩ := hstep
    cases a with
    | submit side px qty tif type =>
      obtain rfl : type = .limit := hspot
      exact h.submit hcond htyped
    | replace id px qty => exact h.replace hcond htyped
    | cancel id => exact h.cancel id rfl
    | cancelAll =>
      exact StrategyContext.cancelAll_induction (P := fun c => Funded terms ⟨c, s.inFlight⟩)
        (fun c id hc => hc.cancel id rfl) h

end Invariant

/-- Exec starts without orders, in spot-only mode, and no balance is negative. -/
structure Engine.Solvent (s : Engine ρ) : Prop extends s.Fresh where
  spot : s.x.risk.lim.spotOnly = true
  scaled : ∀ i, (s.x.account.terms i).Scaled
  total : ∀ k, 0 ≤ s.total k ∧ s.total k < 2 ^ 63
  reserved : ∀ k, s.reserved k = 0

theorem Engine.Solvent.funded {s : Engine ρ} (hs : s.Solvent) : Funded s.x.account.terms s := by
  refine ⟨hs.spot, rfl, hs.scaled, fun r hr => ?_, fun k => (hs.total k).2, fun k => ?_,
    fun k => ?_⟩
  · rw [hs.rows] at hr
    exact absurd hr (Multiset.notMem_zero r)
  · rw [hs.rows, sumIf_zero, hs.reserved]
  · rw [hs.rows, sumIf_zero, hs.reserved, add_zero]
    exact (hs.total k).1

/-- **No overdraft** in every run in which the gate overlooks no funds that an amend may take. -/
theorem reserved_le_total [Router ρ] {s : Engine ρ}
    (hs : (engine Engine.Solvent).ReachableWhen (fun s a => s.SpotTrading a ∧ s.FundsCount a) s)
    (k : ℕ) : (s.x.account.bal k).reserved ≤ (s.x.account.bal k).total ∧
      0 ≤ (s.x.account.bal k).available := by
  obtain ⟨terms, h⟩ := hs.invariant (P := fun s => ∃ terms, Funded terms s)
    (fun s (hs : s.Solvent) => ⟨_, hs.funded⟩) fun s a t _ hcond hstep ⟨terms, h⟩ =>
      ⟨terms, h.step hcond.1 hcond.2 hstep⟩
  have hle := h.reserved_le k
  exact ⟨hle, by rw [h.available]; omega⟩

theorem solvent_demoEngine : (demoEngine {}).Solvent :=
  ⟨⟨rfl, rfl⟩, rfl,
    fun _ => show Inst.Scaled ⟨0, 1, 0, 1, 1, {}⟩ from ⟨by decide, by decide, by decide⟩,
    fun _ => show (0 : ℤ) ≤ 1000 ∧ (1000 : ℤ) < 2 ^ 63 by decide, fun _ => rfl⟩

/-- A buy of 10 lots at 100. -/
def spotOrder : Call := .submit .buy 100 10 .gtc .limit

/-- An amend of it to 20 lots at 50. -/
def spotAmend : Call := .replace 1 50 20

/-- A fill of 9 of its lots at 100. -/
def spotFill : ExecReport where
  clOrdId := 1
  execType := .partialFill
  lastPx := 100
  lastQty := 9

/-- The confirmation of the amend. -/
def spotReplaced : ExecReport where
  clOrdId := 1
  execType := .replaced

/-- A fill of an order that takes all of the quote balance. -/
theorem reserved_le_total_filled :
    ∃ s : Engine NullRouter, (engine Engine.Solvent).ReachableWhen
        (fun s a => s.SpotTrading a ∧ s.FundsCount a) s ∧
      s.x.account.bal 1 = ⟨100, 100⟩ ∧
      (s.x.account.bal 1).reserved ≤ (s.x.account.bal 1).total ∧
        0 ≤ (s.x.account.bal 1).available := by
  have hinit := solvent_demoEngine
  have hbought : (engine Engine.Solvent).ReachableWhen
      (fun s a => s.SpotTrading a ∧ s.FundsCount a) ((demoEngine {}).makeCall spotOrder) := by
    refine .step (.init hinit) (a := .call spotOrder) ⟨rfl, fun _ => ⟨by decide, .inl ?_⟩⟩
      (Engine.step_call (a := spotOrder) (by decide))
    rw [Engine.otherPending, hinit.rows, sumIf_zero]
    decide
  have hreports : ((demoEngine {}).makeCall spotOrder).Reports spotFill := by decide +kernel
  have hprice : ∀ row ∈ ((demoEngine {}).makeCall spotOrder).x.orders.find 1,
      AtLimitOrBetter row.side row.px 100 := by
    decide +kernel
  have hspot : ((demoEngine {}).makeCall spotOrder).SpotTrading (.report spotFill false) :=
    fun _ => ⟨rfl, hprice⟩
  have hcounts : ∀ row ∈ ((demoEngine {}).makeCall spotOrder).x.orders.find 1,
      ((demoEngine {}).makeCall spotOrder).ReportCounts spotFill row := by
    decide +kernel
  have hcond : ((demoEngine {}).makeCall spotOrder).FundsCount (.report spotFill false) := hcounts
  have hreach := hbought.step ⟨hspot, hcond⟩ (Engine.step_report hreports false)
  exact ⟨_, hreach, by decide +kernel, reserved_le_total hreach 1⟩

/-- **An overdraft**: the amend to a lower price was admitted because it locks no more than the
order, but a fill at the old price comes first. -/
theorem overdraft :
    ¬ ∀ s : Engine NullRouter, (engine Engine.Solvent).ReachableWhen Engine.SpotTrading s →
      ∀ k, (s.x.account.bal k).reserved ≤ (s.x.account.bal k).total := by
  intro hclaim
  have hamended : (engine Engine.Solvent).ReachableWhen Engine.SpotTrading
      (((demoEngine {}).makeCall spotOrder).makeCall spotAmend) :=
    .step (a := .call spotAmend) (.step (a := .call spotOrder) (.init solvent_demoEngine) rfl
      (Engine.step_call (a := spotOrder) (by decide))) trivial
      (Engine.step_call (a := spotAmend) (by decide))
  have hfill : (((demoEngine {}).makeCall spotOrder).makeCall spotAmend).Reports spotFill := by
    decide +kernel
  have hprice : ∀ row ∈ (((demoEngine {}).makeCall spotOrder).makeCall spotAmend).x.orders.find 1,
      AtLimitOrBetter row.side row.px 100 := by
    decide +kernel
  have hspot : (((demoEngine {}).makeCall spotOrder).makeCall spotAmend).SpotTrading
      (.report spotFill false) := fun _ => ⟨rfl, hprice⟩
  have hreplaced : ((((demoEngine {}).makeCall spotOrder).makeCall spotAmend).deliver spotFill
      false).Reports spotReplaced := by
    decide +kernel
  have hspot' : ((((demoEngine {}).makeCall spotOrder).makeCall spotAmend).deliver spotFill
      false).SpotTrading (.report spotReplaced false) := fun h => absurd h (by decide)
  have hreach := (hamended.step hspot (Engine.step_report hfill false)).step hspot'
    (Engine.step_report hreplaced false)
  have hle := hclaim _ hreach 1
  -- 100 are left of 1000, and 11 lots at 50 are reserved
  exact absurd hle (by decide +kernel)

end Exec

end LowLatencyPipeline
