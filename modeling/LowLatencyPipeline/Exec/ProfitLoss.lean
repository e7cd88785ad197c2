import LowLatencyPipeline.Exec.Account
import Mathlib.Algebra.Order.BigOperators.Group.List
import Mathlib.Tactic.Linarith
import Mathlib.Tactic.Ring

/-!
# Profit and loss over a history of fills

What `on_fill` keeps on an instrument, over any sequence of fills. A reduction at average cost
takes a truncated part of the cost away and books the difference to the price as realized; however
it truncates, what it takes from the cost it takes from the realized sum too.

* **One reduction** (`reduce_opposite`): the part taken away is between 0 and the cost, and what is
  left is still at most the highest price times the lots left.
* **One fill** (`trade_spec`): cost less realized moves by price times signed quantity.
* **A history** (`pnl_conserved`): the position is what was bought less what was sold, cost less
  realized is the signed value of all fills, and the base balance has moved by the position.
-/

namespace LowLatencyPipeline

namespace Exec

/-! ### Average cost -/

/-- The cost of a position has its sign, and is at most `M` a lot. -/
structure Position.Averaged (M : ℤ) (p : Position) : Prop where
  long : 0 ≤ p.qty → 0 ≤ p.cost ∧ p.cost ≤ M * p.qty
  short : p.qty ≤ 0 → p.cost ≤ 0 ∧ M * p.qty ≤ p.cost

/-- The lots of the position that an execution of the other sign closes. -/
def Position.closed (p : Position) (d : ℤ) : ℤ :=
  if p.qty ≠ 0 ∧ ¬ (0 < p.qty ↔ 0 < d) then min |p.qty| |d| else 0

section AverageCost

variable {M c r o px d : ℤ} {p : Position}

theorem Position.Averaged.flat (h : p.Averaged M) (hq : p.qty = 0) : p.cost = 0 :=
  le_antisymm (h.short hq.le).1 (h.long hq.ge).1

/-- The truncated part of a cost. -/
theorem removed_bounds (hc : 0 ≤ c) (hle : c ≤ M * o) (hr : 0 ≤ r) (hro : r ≤ o) (ho : 0 < o) :
    0 ≤ (c * r).tdiv o ∧ (c * r).tdiv o ≤ c ∧ c - (c * r).tdiv o ≤ M * (o - r) := by
  have hcr : 0 ≤ c * r := mul_nonneg hc hr
  rw [Int.tdiv_eq_ediv_of_nonneg hcr]
  refine ⟨Int.ediv_nonneg hcr ho.le, ?_, ?_⟩
  · exact Int.ediv_le_of_le_mul ho (mul_le_mul_of_nonneg_left hro hc)
  · have hrest : c * (o - r) ≤ M * o * (o - r) := mul_le_mul_of_nonneg_right hle (by omega)
    have hpart : c - M * (o - r) ≤ c * r / o := by
      rw [Int.le_ediv_iff_mul_le ho]
      linarith [hrest]
    omega

theorem mul_lt_two_pow_126 (hM : 0 ≤ M ∧ M < 2 ^ 63) (hr : 0 ≤ r ∧ r < 2 ^ 63) :
    M * r < 2 ^ 126 := by
  have hle : M * r ≤ (2 ^ 63 - 1) * (2 ^ 63 - 1) :=
    mul_le_mul (by omega) (by omega) hr.1 (by omega)
  omega

theorem Position.Averaged.congr {p p' : Position} (h : p.Averaged M) (hq : p'.qty = p.qty)
    (hc : p'.cost = p.cost) : p'.Averaged M := by
  refine ⟨?_, ?_⟩
  · rw [hq, hc]
    exact h.long
  · rw [hq, hc]
    exact h.short

theorem Position.Averaged.of_long {p : Position} (hq : 0 ≤ p.qty) (hc : 0 ≤ p.cost)
    (hM : p.cost ≤ M * p.qty) : p.Averaged M := by
  refine ⟨fun _ => ⟨hc, hM⟩, fun hq' => ?_⟩
  have hzero : p.qty = 0 := le_antisymm hq' hq
  rw [hzero, mul_zero] at hM ⊢
  exact ⟨hM, hc⟩

theorem Position.Averaged.of_short {p : Position} (hq : p.qty ≤ 0) (hc : p.cost ≤ 0)
    (hM : M * p.qty ≤ p.cost) : p.Averaged M := by
  refine ⟨fun hq' => ?_, fun _ => ⟨hc, hM⟩⟩
  have hzero : p.qty = 0 := le_antisymm hq hq'
  rw [hzero, mul_zero] at hM ⊢
  exact ⟨hM, hc⟩

/-- The position after `c` of its signed lots are closed, which cost `m`. -/
def Position.settled (p : Position) (px c m : ℤ) : Position :=
  { p with realized := p.realized - (px * c + m), cost := p.cost - m, qty := p.qty + c }

/-- Reducing a long position. -/
theorem Position.reduce_long (h : p.Averaged M) (hM : 0 ≤ M ∧ M < 2 ^ 63)
    (hp : 0 < p.qty ∧ p.qty < 2 ^ 63) (hd : -2 ^ 63 < d ∧ d < 0)
    (hprod : Fits 128 (p.cost * p.closed d))
    (hval : ∀ x, d ≤ x → x ≤ 0 → |p.cost - p.realized + px * x| ≤ 2 ^ 126) :
    ∃ c m, (c = d ∨ p.qty + c = 0) ∧ (p.settled px c m).Averaged M ∧
      p.reduce px d = (p.settled px c m, d - c) := by
  have hopp : p.qty ≠ 0 ∧ ¬ (0 < p.qty ↔ 0 < d) := ⟨hp.1.ne', by omega⟩
  have hneg : wrap 64 (-d) = -d := wrap_eq_self (by omega) ⟨by omega, by omega⟩
  obtain ⟨hcost, hcostM⟩ := h.long hp.1.le
  rw [Position.closed, if_pos hopp, abs_of_pos hp.1, abs_of_neg hd.2] at hprod
  have hr : (if -d < p.qty then -d else p.qty) = min p.qty (-d) := by
    split_ifs <;> omega
  obtain ⟨hm0, hmc, hmM⟩ := removed_bounds (r := min p.qty (-d)) hcost hcostM (by omega) (by omega)
    hp.1
  have hall : min p.qty (-d) = p.qty → (p.cost * min p.qty (-d)).tdiv p.qty = p.cost := by
    intro heq
    rw [heq, Int.mul_tdiv_cancel _ hp.1.ne']
  have hbound := mul_lt_two_pow_126 hM (r := p.qty) ⟨hp.1.le, hp.2⟩
  have hv := abs_le.1 (hval (-min p.qty (-d)) (by omega) (by omega))
  refine ⟨-min p.qty (-d), (p.cost * min p.qty (-d)).tdiv p.qty, by omega,
    .of_long (by dsimp only [Position.settled]; omega) (by dsimp only [Position.settled]; omega)
      hmM, ?_⟩
  generalize hmdef : (p.cost * min p.qty (-d)).tdiv p.qty = m at *
  generalize hrdef : min p.qty (-d) = r at *
  have hqty : wrap 64 (p.qty - r) = p.qty - r := wrap_eq_self (by omega) ⟨by omega, by omega⟩
  have hrest : wrap 64 (d + r) = d + r := wrap_eq_self (by omega) ⟨by omega, by omega⟩
  have hcost' : wrap 128 (p.cost - m) = p.cost - m :=
    wrap_eq_self (by omega) ⟨by omega, by omega⟩
  rw [mul_neg] at hv
  have hreal : wrap 128 (p.realized + (px * r - m)) = p.realized - (px * -r + m) := by
    rw [wrap_eq_self (by omega) ⟨by omega, by omega⟩]
    ring
  have hzero : (if p.qty - r = 0 then 0 else p.cost - m) = p.cost - m := by
    split_ifs with hz
    · rw [hall (by omega), sub_self]
    · rfl
  rw [Position.reduce, if_pos hopp, Position.settled]
  simp only [if_pos hp.1, if_neg (not_lt.2 hd.2.le), hneg, hr, wrap_eq_self (by omega) hprod,
    hmdef, one_mul, hqty, hrest, hreal, hcost', hzero, sub_neg_eq_add, ← sub_eq_add_neg]

/-- Reducing a short position. -/
theorem Position.reduce_short (h : p.Averaged M) (hM : 0 ≤ M ∧ M < 2 ^ 63)
    (hp : -2 ^ 63 < p.qty ∧ p.qty < 0) (hd : 0 < d ∧ d < 2 ^ 63)
    (hprod : Fits 128 (p.cost * p.closed d))
    (hval : ∀ x, 0 ≤ x → x ≤ d → |p.cost - p.realized + px * x| ≤ 2 ^ 126) :
    ∃ c m, (c = d ∨ p.qty + c = 0) ∧ (p.settled px c m).Averaged M ∧
      p.reduce px d = (p.settled px c m, d - c) := by
  have hopp : p.qty ≠ 0 ∧ ¬ (0 < p.qty ↔ 0 < d) := ⟨hp.2.ne, by omega⟩
  have hneg : wrap 64 (-p.qty) = -p.qty := wrap_eq_self (by omega) ⟨by omega, by omega⟩
  obtain ⟨hcost, hcostM⟩ := h.short hp.2.le
  rw [Position.closed, if_pos hopp, abs_of_neg hp.2, abs_of_pos hd.1] at hprod
  have hr : (if d < -p.qty then d else -p.qty) = min (-p.qty) d := by
    split_ifs <;> omega
  obtain ⟨hm0, hmc, hmM⟩ := removed_bounds (c := -p.cost) (r := min (-p.qty) d) (o := -p.qty)
    (M := M) (by omega) (by rw [mul_neg]; omega) (by omega) (by omega) (by omega)
  have hmirror : (p.cost * min (-p.qty) d).tdiv (-p.qty) =
      -(-p.cost * min (-p.qty) d).tdiv (-p.qty) := by
    rw [neg_mul, Int.neg_tdiv, neg_neg]
  have hall : min (-p.qty) d = -p.qty → (-p.cost * min (-p.qty) d).tdiv (-p.qty) = -p.cost := by
    intro heq
    rw [heq, Int.mul_tdiv_cancel _ (by omega)]
  have hbound := mul_lt_two_pow_126 hM (r := -p.qty) ⟨by omega, by omega⟩
  rw [mul_neg] at hbound
  have hv := abs_le.1 (hval (min (-p.qty) d) (by omega) (by omega))
  have hflip : M * (p.qty + min (-p.qty) d) = -(M * (-p.qty - min (-p.qty) d)) := by ring
  refine ⟨min (-p.qty) d, -(-p.cost * min (-p.qty) d).tdiv (-p.qty), by omega,
    .of_short (by dsimp only [Position.settled]; omega) (by dsimp only [Position.settled]; omega)
      (by dsimp only [Position.settled]; omega), ?_⟩
  generalize hmdef : (-p.cost * min (-p.qty) d).tdiv (-p.qty) = m at *
  generalize hrdef : min (-p.qty) d = r at *
  have hqty : wrap 64 (p.qty + r) = p.qty + r := wrap_eq_self (by omega) ⟨by omega, by omega⟩
  have hrest : wrap 64 (d - r) = d - r := wrap_eq_self (by omega) ⟨by omega, by omega⟩
  have hcost' : wrap 128 (p.cost - -m) = p.cost - -m :=
    wrap_eq_self (by omega) ⟨by omega, by omega⟩
  have hreal : wrap 128 (p.realized + (-px * r - -m)) = p.realized - (px * r + -m) := by
    rw [neg_mul, wrap_eq_self (by omega) ⟨by omega, by omega⟩]
    ring
  have hzero : (if p.qty + r = 0 then 0 else p.cost - -m) = p.cost - -m := by
    split_ifs with hz
    · rw [hall (by omega), neg_neg, sub_self]
    · rfl
  rw [Position.reduce, if_pos hopp, Position.settled]
  simp only [if_neg (not_lt.2 hp.2.le), if_pos hd.1, hneg, hr, wrap_eq_self (by omega) hprod,
    hmirror, neg_one_mul, hqty, hrest, hreal, hcost', hzero]

/-- **One reduction**: an execution against the position closes some of its lots at most, and all
of them before any rest of it is left. -/
theorem Position.reduce_opposite (h : p.Averaged M) (hM : 0 ≤ M ∧ M < 2 ^ 63)
    (hp : -2 ^ 63 < p.qty ∧ p.qty < 2 ^ 63) (hd : -2 ^ 63 < d ∧ d < 2 ^ 63) (hd0 : d ≠ 0)
    (hopp : ¬ (p.qty = 0 ∨ (0 < p.qty ↔ 0 < d))) (hprod : Fits 128 (p.cost * p.closed d))
    (hval : ∀ x, min d 0 ≤ x → x ≤ max d 0 → |p.cost - p.realized + px * x| ≤ 2 ^ 126) :
    ∃ c m, (c = d ∨ p.qty + c = 0) ∧ (p.settled px c m).Averaged M ∧
      p.reduce px d = (p.settled px c m, d - c) := by
  rcases lt_or_ge 0 p.qty with hlong | hshort
  · exact Position.reduce_long h hM ⟨hlong, hp.2⟩ ⟨hd.1, by omega⟩ hprod fun x hx hx' =>
      hval x (by omega) (by omega)
  · exact Position.reduce_short h hM ⟨hp.1, by omega⟩ ⟨by omega, hd.2⟩ hprod fun x hx hx' =>
      hval x (by omega) (by omega)

/-- An execution with the position, or on none, reduces nothing. -/
theorem Position.reduce_open (hsame : p.qty = 0 ∨ (0 < p.qty ↔ 0 < d)) :
    p.reduce px d = (p, d) := by
  rw [Position.reduce, if_neg]
  rintro ⟨hne, hopp⟩
  exact hopp (hsame.resolve_left hne)

/-- What an execution does to quantity and cost. -/
structure Position.Traded (p : Position) (M px d : ℤ) (p' : Position) : Prop where
  qty : p'.qty = p.qty + d
  value : p'.cost - p'.realized = p.cost - p.realized + px * d
  averaged : p'.Averaged M
  bought : p'.bought = p.bought
  sold : p'.sold = p.sold

/-- Opening lots: on no position, or with one of the execution's sign. -/
theorem Position.opened (h : p.Averaged M) (hM : M < 2 ^ 63) (hpx : 0 < px ∧ px ≤ M) (hd : d ≠ 0)
    (hsame : p.qty = 0 ∨ (0 < p.qty ↔ 0 < d)) (hsum : -2 ^ 63 < p.qty + d ∧ p.qty + d < 2 ^ 63) :
    p.Traded M px d { p with
      cost := wrap 128 (p.cost + px * d), qty := wrap 64 (p.qty + d) } := by
  have hqty : wrap 64 (p.qty + d) = p.qty + d := wrap_eq_self (by omega) ⟨by omega, by omega⟩
  rw [hqty]
  rcases lt_or_gt_of_ne hd with hneg | hpos
  · obtain ⟨hcost, hcostM⟩ := h.short (by omega)
    have hvalue : px * d ≤ 0 := mul_nonpos_of_nonneg_of_nonpos hpx.1.le hneg.le
    have hvalueM : M * d ≤ px * d := mul_le_mul_of_nonpos_right hpx.2 hneg.le
    have hbound := mul_lt_two_pow_126 (M := M) (r := -(p.qty + d)) ⟨by omega, hM⟩
      ⟨by omega, by omega⟩
    rw [mul_neg, mul_add] at hbound
    have hfit : wrap 128 (p.cost + px * d) = p.cost + px * d :=
      wrap_eq_self (by omega) ⟨by omega, by omega⟩
    rw [hfit]
    refine ⟨rfl, by dsimp only; ring, .of_short (by dsimp only; omega) (by dsimp only; omega) ?_,
      rfl, rfl⟩
    rw [mul_add]
    dsimp only
    omega
  · obtain ⟨hcost, hcostM⟩ := h.long (by omega)
    have hvalue : 0 ≤ px * d := mul_nonneg hpx.1.le hpos.le
    have hvalueM : px * d ≤ M * d := mul_le_mul_of_nonneg_right hpx.2 hpos.le
    have hbound := mul_lt_two_pow_126 (M := M) (r := p.qty + d) ⟨by omega, hM⟩ ⟨by omega, by omega⟩
    rw [mul_add] at hbound
    have hfit : wrap 128 (p.cost + px * d) = p.cost + px * d :=
      wrap_eq_self (by omega) ⟨by omega, by omega⟩
    rw [hfit]
    refine ⟨rfl, by dsimp only; ring, .of_long (by dsimp only; omega) (by dsimp only; omega) ?_,
      rfl, rfl⟩
    rw [mul_add]
    dsimp only
    omega

/-- **One fill**: an execution moves the quantity by its signed lots, and cost less realized by
their value. -/
theorem Position.trade_spec (h : p.Averaged M) (hM : 0 ≤ M ∧ M < 2 ^ 63) (hpx : 0 < px ∧ px ≤ M)
    (hp : -2 ^ 63 < p.qty ∧ p.qty < 2 ^ 63) (hd : -2 ^ 63 < d ∧ d < 2 ^ 63) (hd0 : d ≠ 0)
    (hsum : -2 ^ 63 < p.qty + d ∧ p.qty + d < 2 ^ 63) (hprod : Fits 128 (p.cost * p.closed d))
    (hval : ∀ x, min d 0 ≤ x → x ≤ max d 0 → |p.cost - p.realized + px * x| ≤ 2 ^ 126) :
    p.Traded M px d (p.trade px d) := by
  by_cases hsame : p.qty = 0 ∨ (0 < p.qty ↔ 0 < d)
  · rw [Position.trade, Position.reduce_open hsame]
    dsimp only
    rw [if_pos hd0]
    exact Position.opened h hM.2 hpx hd0 hsame hsum
  · obtain ⟨c, m, hall, havg, hreduce⟩ := Position.reduce_opposite h hM hp hd hd0 hsame hprod hval
    have hvalue : (p.settled px c m).cost - (p.settled px c m).realized =
        p.cost - p.realized + px * c := by
      dsimp only [Position.settled]
      ring
    have hqty : (p.settled px c m).qty = p.qty + c := rfl
    rw [Position.trade, hreduce]
    dsimp only
    split_ifs with hrest
    · -- the position was closed: the rest opens one on the other side
      obtain ⟨hqty', hvalue', havg', hbought, hsold⟩ := Position.opened havg hM.2 hpx hrest
        (.inl (by omega)) (by omega)
      refine ⟨by rw [hqty', hqty]; omega, ?_, havg', hbought, hsold⟩
      rw [hvalue', hvalue]
      ring
    · obtain rfl : c = d := by omega
      exact ⟨hqty, hvalue, havg, rfl, rfl⟩

end AverageCost

/-! ### Histories -/

/-- The arguments of an `on_fill`. -/
structure Fill where
  side : Side
  px : ℤ
  qty : ℤ
  orderPx : ℤ
  fee : ℤ := 0
  feeInBase : Bool := false

/-- The lots a fill adds to the position. -/
def Fill.signed (f : Fill) : ℤ :=
  match f.side with
  | .buy => f.qty
  | .sell => -f.qty

/-- The signed lots of a history. -/
def netLots (fs : List Fill) : ℤ := (fs.map Fill.signed).sum

/-- The signed value of a history. -/
def netValue (fs : List Fill) : ℤ := (fs.map fun f => f.px * f.signed).sum

/-- The lots of a history on one side. -/
def lotsOn (side : Side) (fs : List Fill) : ℤ := ((fs.filter (·.side = side)).map Fill.qty).sum

/-- The volume of a position on one side. -/
def Position.volume (p : Position) : Side → ℤ
  | .buy => p.bought
  | .sell => p.sold

/-- A fill with positive price and quantity, whose volume stays within 64 bits and whose reduced
cost stays within 128. -/
structure Fill.InRange (f : Fill) (p : Position) : Prop where
  px : 0 < f.px ∧ f.px < 2 ^ 63
  qty : 0 < f.qty ∧ f.qty < 2 ^ 63
  volume : Fits 64 (p.volume f.side + f.qty)
  product : Fits 128 (p.cost * p.closed f.signed)

instance (f : Fill) (p : Position) : Decidable (f.InRange p) :=
  decidable_of_iff ((0 < f.px ∧ f.px < 2 ^ 63) ∧ (0 < f.qty ∧ f.qty < 2 ^ 63) ∧
      Fits 64 (p.volume f.side + f.qty) ∧ Fits 128 (p.cost * p.closed f.signed))
    ⟨fun h => ⟨h.1, h.2.1, h.2.2.1, h.2.2.2⟩, fun h => ⟨h.px, h.qty, h.volume, h.product⟩⟩

namespace Account

/-- One fill. -/
def fill (a : Account) (inst : UInt16) (f : Fill) : Account :=
  a.onFill inst f.side f.px f.qty f.orderPx f.fee f.feeInBase

/-- Fills in order. -/
def fills (a : Account) (inst : UInt16) (fs : List Fill) : Account :=
  fs.foldl (fun a f => a.fill inst f) a

/-- Every fill is in range when it is applied. -/
def FillsInRange (a : Account) (inst : UInt16) : List Fill → Prop
  | [] => True
  | f :: fs => f.InRange (a.position inst) ∧ (a.fill inst f).FillsInRange inst fs

theorem fills_concat (a : Account) (inst : UInt16) (fs : List Fill) (f : Fill) :
    a.fills inst (fs ++ [f]) = (a.fills inst fs).fill inst f := by
  rw [fills, List.foldl_append]
  rfl

instance FillsInRange.decidable (inst : UInt16) :
    ∀ (a : Account) (fs : List Fill), Decidable (a.FillsInRange inst fs)
  | _, [] => inferInstanceAs (Decidable True)
  | a, f :: fs =>
    have := FillsInRange.decidable inst (a.fill inst f) fs
    inferInstanceAs (Decidable (_ ∧ _))

theorem FillsInRange.of_concat {a : Account} {inst : UInt16} {fs : List Fill} {f : Fill}
    (h : a.FillsInRange inst (fs ++ [f])) :
    a.FillsInRange inst fs ∧ f.InRange ((a.fills inst fs).position inst) := by
  induction fs generalizing a with
  | nil => exact ⟨trivial, h.1⟩
  | cons g fs ih =>
    obtain ⟨hg, hrest⟩ := h
    obtain ⟨hfs, hf⟩ := ih hrest
    exact ⟨⟨hg, hfs⟩, hf⟩

end Account

/-- The books of a position over a history. -/
structure Position.Conserved (p : Position) (fs : List Fill) : Prop where
  qty_volume : p.qty = p.bought - p.sold
  bought : p.bought = lotsOn .buy fs
  sold : p.sold = lotsOn .sell fs
  qty_net : p.qty = netLots fs
  value : p.cost - p.realized = netValue fs
  flat : p.qty = 0 → p.cost = 0 ∧ p.realized = -netValue fs
  long : 0 < p.qty → 0 ≤ p.cost
  short : p.qty < 0 → p.cost ≤ 0

section Books

variable {p : Position} {fs : List Fill} {f : Fill} {a : Account} {inst : UInt16}

/-- The highest price. -/
def maxPx : ℤ := 2 ^ 63 - 1

/-- The invariant of a history: the books, and bounds that keep every sum within 128 bits. -/
structure Position.Books (p : Position) (fs : List Fill) : Prop where
  averaged : p.Averaged maxPx
  qty_volume : p.qty = p.bought - p.sold
  bought : p.bought = lotsOn .buy fs
  sold : p.sold = lotsOn .sell fs
  bought_fits : 0 ≤ p.bought ∧ p.bought < 2 ^ 63
  sold_fits : 0 ≤ p.sold ∧ p.sold < 2 ^ 63
  qty_net : p.qty = netLots fs
  value : p.cost - p.realized = netValue fs
  value_ge : -(maxPx * p.sold) ≤ netValue fs
  value_le : netValue fs ≤ maxPx * p.bought

theorem Position.Books.conserved (h : p.Books fs) : p.Conserved fs where
  qty_volume := h.qty_volume
  bought := h.bought
  sold := h.sold
  qty_net := h.qty_net
  value := h.value
  flat hq := by
    have hcost := h.averaged.flat hq
    have hvalue := h.value
    exact ⟨hcost, by omega⟩
  long hq := (h.averaged.long hq.le).1
  short hq := (h.averaged.short hq.le).1

theorem netLots_concat (fs : List Fill) (f : Fill) :
    netLots (fs ++ [f]) = netLots fs + f.signed := by
  simp [netLots]

theorem netValue_concat (fs : List Fill) (f : Fill) :
    netValue (fs ++ [f]) = netValue fs + f.px * f.signed := by
  simp [netValue]

theorem lotsOn_concat (side : Side) (fs : List Fill) (f : Fill) :
    lotsOn side (fs ++ [f]) = lotsOn side fs + if f.side = side then f.qty else 0 := by
  rw [lotsOn, lotsOn, List.filter_append, List.map_append, List.sum_append]
  split_ifs with h <;> simp [h]

theorem Fill.signedQty_eq (hq : 0 < f.qty ∧ f.qty < 2 ^ 63) :
    signedQty f.side f.qty = f.signed := by
  rw [Exec.signedQty_eq ⟨hq.1.le, hq.2⟩]
  rfl

theorem Fill.bought_lots (hq : 0 < f.qty) :
    (if f.side = .buy then f.qty else 0) = max f.signed 0 := by
  rw [Fill.signed]
  cases f.side <;> simp <;> omega

theorem Fill.sold_lots (hq : 0 < f.qty) :
    (if f.side = .sell then f.qty else 0) = -min f.signed 0 := by
  rw [Fill.signed]
  cases f.side <;> simp <;> omega

/-- The volumes after a fill. -/
theorem Fill.InRange.count (hf : f.InRange p) :
    (p.count f.side f.qty).bought = p.bought + max f.signed 0 ∧
      (p.count f.side f.qty).sold = p.sold - min f.signed 0 := by
  have hq := hf.qty
  have hvol := hf.volume
  rw [Fill.signed]
  cases hside : f.side with
  | buy =>
    rw [hside] at hvol
    dsimp only
    refine ⟨?_, ?_⟩
    · rw [max_eq_left hq.1.le]
      exact wrap_eq_self (by omega) hvol
    · rw [min_eq_right hq.1.le, sub_zero]
      rfl
  | sell =>
    rw [hside] at hvol
    dsimp only
    refine ⟨?_, ?_⟩
    · rw [max_eq_right (by omega), add_zero]
      rfl
    · rw [min_eq_left (by omega), sub_neg_eq_add]
      exact wrap_eq_self (by omega) hvol

/-- The volumes after a fill are within 64 bits. -/
theorem Fill.InRange.count_lt (hf : f.InRange p) (hb : p.bought < 2 ^ 63)
    (hs : p.sold < 2 ^ 63) :
    p.bought + max f.signed 0 < 2 ^ 63 ∧ p.sold - min f.signed 0 < 2 ^ 63 := by
  have hq := hf.qty
  have hvol := hf.volume.2
  rw [Fill.signed]
  cases hside : f.side with
  | buy =>
    rw [hside] at hvol
    rw [max_eq_left hq.1.le, min_eq_right hq.1.le, sub_zero]
    exact ⟨hvol, hs⟩
  | sell =>
    rw [hside] at hvol
    dsimp only
    rw [max_eq_right (by omega), min_eq_left (by omega), sub_neg_eq_add, add_zero]
    exact ⟨hb, hvol⟩

theorem Fill.signed_ne_zero (hq : 0 < f.qty) : f.signed ≠ 0 := by
  rw [Fill.signed]
  cases f.side <;> simp <;> omega

/-- The value of some lots of a fill, of its sign. -/
theorem value_bounds {px x d : ℤ} (hpx : 0 < px ∧ px ≤ maxPx) (hx : min d 0 ≤ x)
    (hx' : x ≤ max d 0) : maxPx * min d 0 ≤ px * x ∧ px * x ≤ maxPx * max d 0 := by
  have hM : (0 : ℤ) ≤ maxPx := by decide
  rcases le_total 0 x with hpos | hneg
  · have hlow : maxPx * min d 0 ≤ 0 := mul_nonpos_of_nonneg_of_nonpos hM (min_le_right _ _)
    exact ⟨hlow.trans (mul_nonneg hpx.1.le hpos), mul_le_mul hpx.2 hx' hpos hM⟩
  · have hhigh : 0 ≤ maxPx * max d 0 := mul_nonneg hM (le_max_right _ _)
    refine ⟨?_, (mul_nonpos_of_nonneg_of_nonpos hpx.1.le hneg).trans hhigh⟩
    exact (mul_le_mul_of_nonneg_left hx hM).trans (mul_le_mul_of_nonpos_right hpx.2 hneg)

/-- Every part of a fill keeps the value within the bounds of the volumes after it. -/
theorem Position.Books.part_bounds (h : p.Books fs) {px d x : ℤ} (hpx : 0 < px ∧ px ≤ maxPx)
    (hx : min d 0 ≤ x) (hx' : x ≤ max d 0) :
    -(maxPx * p.sold) + maxPx * min d 0 ≤ netValue fs + px * x ∧
      netValue fs + px * x ≤ maxPx * p.bought + maxPx * max d 0 := by
  have hge := h.value_ge
  have hle := h.value_le
  obtain ⟨hlow, hhigh⟩ := value_bounds hpx hx hx'
  exact ⟨by omega, by omega⟩

/-- **The step of a history.** -/
theorem Position.Books.step (h : p.Books fs) (hf : f.InRange p) (fee : ℤ) :
    (((p.count f.side f.qty).addFee fee).trade f.px (signedQty f.side f.qty)).Books
      (fs ++ [f]) := by
  have hpx : 0 < f.px ∧ f.px ≤ maxPx := ⟨hf.px.1, Int.le_sub_one_of_lt hf.px.2⟩
  obtain ⟨hcb, hcs⟩ := hf.count
  obtain ⟨hb, hs⟩ := hf.count_lt h.bought_fits.2 h.sold_fits.2
  have hb0 := h.bought_fits.1
  have hs0 := h.sold_fits.1
  have hnet := h.qty_volume
  have hvalue := h.value
  have hmaxB := mul_lt_two_pow_126 (M := maxPx) (by decide)
    ⟨show 0 ≤ p.bought + max f.signed 0 by omega, hb⟩
  have hmaxS := mul_lt_two_pow_126 (M := maxPx) (by decide)
    ⟨show 0 ≤ p.sold - min f.signed 0 by omega, hs⟩
  rw [mul_add] at hmaxB
  rw [mul_sub] at hmaxS
  have hqty : ((p.count f.side f.qty).addFee fee).qty = p.qty := Position.count_qty p f.side f.qty
  have hcost : ((p.count f.side f.qty).addFee fee).cost = p.cost := by cases f.side <;> rfl
  have hreal : ((p.count f.side f.qty).addFee fee).realized = p.realized := by
    cases f.side <;> rfl
  have hcb' : ((p.count f.side f.qty).addFee fee).bought = p.bought + max f.signed 0 := hcb
  have hcs' : ((p.count f.side f.qty).addFee fee).sold = p.sold - min f.signed 0 := hcs
  generalize (p.count f.side f.qty).addFee fee = p₁ at *
  have hprod : Fits 128 (p₁.cost * p₁.closed f.signed) := by
    rw [hcost, Position.closed, hqty, ← Position.closed]
    exact hf.product
  have hfits : ∀ x, min f.signed 0 ≤ x → x ≤ max f.signed 0 →
      |p₁.cost - p₁.realized + f.px * x| ≤ 2 ^ 126 := by
    intro x hx hx'
    rw [hcost, hreal, hvalue, abs_le]
    have := h.part_bounds hpx hx hx'
    omega
  obtain ⟨hqty', hval', havg', hbought', hsold'⟩ := Position.trade_spec
    (h.averaged.congr hqty hcost) (by decide) hpx (by rw [hqty]; omega) (by omega)
    (Fill.signed_ne_zero hf.qty.1) (by rw [hqty]; omega) hprod hfits
  obtain ⟨hlow, hhigh⟩ := h.part_bounds hpx (min_le_left f.signed 0) (le_max_left f.signed 0)
  rw [Fill.signedQty_eq hf.qty]
  refine ⟨havg', ?_, ?_, ?_, ?_, ?_, ?_, ?_, ?_, ?_⟩
  · rw [hqty', hbought', hsold', hqty, hcb', hcs']
    omega
  · rw [hbought', hcb', lotsOn_concat, Fill.bought_lots hf.qty.1, h.bought]
  · rw [hsold', hcs', lotsOn_concat, Fill.sold_lots hf.qty.1, h.sold]
    omega
  · rw [hbought', hcb']
    exact ⟨by omega, hb⟩
  · rw [hsold', hcs']
    exact ⟨by omega, hs⟩
  · rw [hqty', hqty, netLots_concat, h.qty_net]
  · rw [hval', hcost, hreal, hvalue, netValue_concat]
  · rw [netValue_concat, hsold', hcs', mul_sub]
    omega
  · rw [netValue_concat, hbought', hcb', mul_add]
    omega

/-! ### The account over a history -/

/-- What a fill does to the position of its instrument. -/
theorem position_fill (a : Account) (inst : UInt16) (f : Fill) :
    ∃ fee, (a.fill inst f).position inst =
      (((a.position inst).count f.side f.qty).addFee fee).trade f.px (signedQty f.side f.qty) := by
  have hcharge : ∀ (b : Account) (k : ℕ) (amount fee : ℤ),
      ((b.credit k amount).setPos inst fun p => p.addFee fee).position inst =
        (b.position inst).addFee fee := fun b k amount fee => by
    rw [position_setPos, if_pos rfl]
    rfl
  have hcount : ((a.settle inst f.side f.px f.qty f.orderPx).setPos inst
      fun p => p.count f.side f.qty).position inst = (a.position inst).count f.side f.qty := by
    rw [position_setPos, if_pos rfl, position_settle]
  unfold Account.fill Account.onFill
  dsimp only
  rw [position_trackEquity, position_setPos, if_pos rfl]
  cases f.feeInBase with
  | false => exact ⟨_, by rw [Account.chargeFee, if_neg (by decide), hcharge, hcount]⟩
  | true => exact ⟨_, by rw [Account.chargeFee, if_pos rfl, hcharge, hcount]⟩

theorem terms_fills (a : Account) (inst : UInt16) (fs : List Fill) :
    (a.fills inst fs).terms = a.terms := by
  induction fs using List.reverseRecOn with
  | nil => rfl
  | append_singleton fs f ih =>
    rw [Account.fills_concat]
    exact (terms_onFill _ _).trans ih

/-- The base asset's balance. -/
def Account.baseTotal (a : Account) (inst : UInt16) : ℤ := (a.bal (a.terms inst).base).total

/-- What a fill moves the base asset by, where this is not the quote. -/
theorem proceeds_base (hdistinct : (a.terms inst).base ≠ (a.terms inst).quote) :
    wrap 64 (a.baseTotal inst + a.proceeds inst f.side f.px f.qty (a.terms inst).base) =
      wrap 64 (a.baseTotal inst + f.signed * (a.terms inst).basePerLot) := by
  have hbase : (a.terms inst).base = (a.inst inst).base := rfl
  have hquote : (a.terms inst).base ≠ (a.inst inst).quote := hdistinct
  rw [Fill.signed]
  cases f.side with
  | buy =>
    dsimp only
    rw [Account.proceeds, if_pos hbase, if_neg hquote, add_zero, Account.baseUnits, wrap_add_wrap]
    rfl
  | sell =>
    dsimp only
    rw [Account.proceeds, if_pos hbase, if_neg hquote, add_zero, Account.baseUnits,
      ← sub_eq_add_neg, wrap_sub_wrap, neg_mul, ← sub_eq_add_neg]
    rfl

/-- A fill without a fee in base moves the base balance by its signed lots. -/
theorem baseTotal_fill (hdistinct : (a.terms inst).base ≠ (a.terms inst).quote)
    (hfee : f.feeInBase = true → f.fee = 0) (hfit : Fits 64 (a.baseTotal inst)) :
    (a.fill inst f).baseTotal inst =
      wrap 64 (a.baseTotal inst + f.signed * (a.terms inst).basePerLot) := by
  have hterms : (a.fill inst f).terms = a.terms := terms_onFill _ _
  have hsettle : ((a.settle inst f.side f.px f.qty f.orderPx).bal (a.terms inst).base).total = _ :=
    total_settle hfit
  have hfit' :
      Fits 64 ((a.settle inst f.side f.px f.qty f.orderPx).bal (a.terms inst).base).total := by
    rw [hsettle]
    exact fits_wrap (by omega) _
  rw [← proceeds_base hdistinct, Account.baseTotal, hterms]
  refine Eq.trans ?_ hsettle
  -- the fee goes to another balance, or is nothing
  have hcredit : ∀ (j : ℕ) (amount : ℤ), (j = (a.terms inst).base → amount = 0) →
      (((a.settle inst f.side f.px f.qty f.orderPx).credit j amount).bal
          (a.terms inst).base).total =
        ((a.settle inst f.side f.px f.qty f.orderPx).bal (a.terms inst).base).total := by
    intro j amount hamount
    rw [total_credit hfit']
    split_ifs with hj
    · rw [hamount hj.symm, add_zero, wrap_eq_self (by omega) hfit']
    · rw [add_zero, wrap_eq_self (by omega) hfit']
  have hafter : ((a.settle inst f.side f.px f.qty f.orderPx).setPos inst
      fun p => p.count f.side f.qty).terms = a.terms := by
    rw [terms_setPos, terms_settle]
  unfold Account.fill Account.onFill
  cases hwhere : f.feeInBase with
  | false =>
    refine hcredit _ _ fun heq => absurd heq.symm ?_
    change (a.terms inst).base ≠ (Account.terms (Account.setPos _ inst _) inst).quote
    rw [hafter]
    exact hdistinct
  | true =>
    refine hcredit _ _ fun _ => ?_
    rw [hfee hwhere, neg_zero]

/-- **The run of a history**, from an instrument without a fill. -/
theorem books_fills {m : ℤ} (hfresh : a.position inst = { mark2 := m })
    (hrange : a.FillsInRange inst fs) : ((a.fills inst fs).position inst).Books fs := by
  induction fs using List.reverseRecOn with
  | nil =>
    change (a.position inst).Books []
    rw [hfresh]
    exact ⟨.of_long le_rfl le_rfl (by simp), rfl, rfl, rfl, by simp, by simp, rfl, rfl,
      by simp [netValue], by simp [netValue]⟩
  | append_singleton fs f ih =>
    obtain ⟨hfs, hf⟩ := hrange.of_concat
    obtain ⟨fee, hposition⟩ := position_fill (a.fills inst fs) inst f
    rw [Account.fills_concat, hposition]
    exact (ih hfs).step hf fee

theorem baseTotal_fills (hdistinct : (a.terms inst).base ≠ (a.terms inst).quote)
    (hfee : ∀ f ∈ fs, f.feeInBase = true → f.fee = 0)
    (hfits : ∀ k ≤ fs.length,
      Fits 64 (a.baseTotal inst + netLots (fs.take k) * (a.terms inst).basePerLot)) :
    (a.fills inst fs).baseTotal inst =
      a.baseTotal inst + netLots fs * (a.terms inst).basePerLot := by
  induction fs using List.reverseRecOn with
  | nil => simp [Account.fills, netLots]
  | append_singleton fs f ih =>
    have hbefore : ∀ k ≤ fs.length,
        Fits 64 (a.baseTotal inst + netLots (fs.take k) * (a.terms inst).basePerLot) := by
      intro k hk
      have hfit := hfits k (by rw [List.length_append]; omega)
      rwa [List.take_append_of_le_length hk] at hfit
    have hprev := ih (fun g hg => hfee g (List.mem_append_left _ hg)) hbefore
    have hterms := terms_fills a inst fs
    have hnow := hfits (fs ++ [f]).length le_rfl
    rw [List.take_length, netLots_concat, add_mul, ← add_assoc, ← hprev] at hnow
    have hfit : Fits 64 ((a.fills inst fs).baseTotal inst) := by
      have hlast := hbefore fs.length le_rfl
      rwa [List.take_length, ← hprev] at hlast
    rw [Account.fills_concat, baseTotal_fill (hterms ▸ hdistinct) (hfee f (by simp)) hfit, hterms,
      wrap_eq_self (by omega) hnow, netLots_concat, add_mul, ← add_assoc, hprev]

/-- **Profit and loss is conserved exactly.** Over any history of fills from a new instrument, with
positive prices and quantities, volumes within 64 bits and reduced costs within 128: the position
is what was bought less what was sold, cost less realized is the signed value of all fills, a flat
position has no cost, and the cost has the position's sign. Between distinct assets, with no fee in
base, the base balance has moved by the position. -/
theorem pnl_conserved {m : ℤ} (hfresh : a.position inst = { mark2 := m })
    (hrange : a.FillsInRange inst fs) :
    ((a.fills inst fs).position inst).Conserved fs ∧
      ((a.terms inst).base ≠ (a.terms inst).quote →
        (∀ f ∈ fs, f.feeInBase = true → f.fee = 0) →
        (∀ k ≤ fs.length,
          Fits 64 (a.baseTotal inst + netLots (fs.take k) * (a.terms inst).basePerLot)) →
        (a.fills inst fs).baseTotal inst = a.baseTotal inst +
          ((a.fills inst fs).position inst).qty * (a.terms inst).basePerLot) := by
  have hbooks := books_fills hfresh hrange
  refine ⟨hbooks.conserved, fun hdistinct hfee hfits => ?_⟩
  rw [hbooks.qty_net]
  exact baseTotal_fills hdistinct hfee hfits

/-- An account that trades one instrument, with a lot of one base unit. -/
def oneInstrument : Account where
  ids := [7]
  inst _ := ⟨0, 1, 0, 1, 1, {}⟩
  bal _ := {}
  peak := 0
  maxDd := 0

/-- A position opened in two parts, flipped, and closed. -/
def flipFills : List Fill :=
  [⟨.buy, 100, 3, 100, 0, false⟩, ⟨.buy, 103, 4, 103, 1, false⟩, ⟨.sell, 101, 9, 100, 0, false⟩,
    ⟨.buy, 98, 2, 99, 0, false⟩]

theorem pnl_conserved_flip : ((oneInstrument.fills 7 flipFills).position 7).Conserved flipFills :=
  (pnl_conserved (m := 0) rfl (by decide +kernel)).1

end Books

end Exec

end LowLatencyPipeline
