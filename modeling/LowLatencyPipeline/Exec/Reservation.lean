import LowLatencyPipeline.Exec.Funds
import LowLatencyPipeline.Exec.ProfitLoss
import LowLatencyPipeline.Library.SplitDiv
import Mathlib.Algebra.BigOperators.Ring.List

/-!
# The reservation of an order as it runs off

An order reserves funds for all of its lots at once and gives them back piece by piece: a fill
releases the reservation of the lots it executes, and the end of the order that of the lots left.
For a sell, and for a buy whose tick-lots are whole units of money, the pieces add up. Otherwise
each piece of a buy is truncated by itself, and the pieces add up to the whole exactly when their
remainders come to less than one unit of money (`Splits`).

* **In full** (`released_iff`): everything reserved is released, and after every fill the
  reservation of the remaining lots is held, exactly when the remainders are small.
* **A unit left over** (`released_leftover`): a crypto instrument on which two fills of one lot each
  leave a unit reserved.
-/

namespace LowLatencyPipeline

namespace Exec

open SplitDiv

/-- A unit of money in the scale of an instrument whose tick-lots are fractions of it. -/
def Inst.unit (i : Inst) : ℤ := 10 ^ (-i.tlExp).toNat

/-- The size of the funds of some lots. -/
def Inst.fundsSize (i : Inst) (side : Side) (px qty : ℤ) : ℤ :=
  match side with
  | .buy =>
    if 0 ≤ i.tlExp then px * qty * |i.tlMul| * 10 ^ i.tlExp.toNat
    else px * qty * |i.tlMul| / i.unit
  | .sell => qty * |i.basePerLot|

/-- The sign of the funds: that of the mantissas. -/
def Inst.fundsSign (i : Inst) (side : Side) : ℤ :=
  match side with
  | .buy => i.tlMul.sign
  | .sell => i.basePerLot.sign

/-- The remainders of the pieces of an order come to less than one unit of money. -/
def Inst.Splits (i : Inst) (side : Side) (px : ℤ) (qs : List ℤ) : Prop :=
  match side with
  | .buy => 0 ≤ i.tlExp ∨ remainders i.unit (qs.map fun q => px * q * |i.tlMul|) < i.unit
  | .sell => True

section Pieces

variable {i : Inst} {side : Side} {px qty q : ℤ} {qs : List ℤ}

theorem Inst.unit_pos (i : Inst) : 0 < i.unit := pow_pos (by omega) _

theorem Inst.funds_eq (hpx : 0 ≤ px) (hq : 0 ≤ q) :
    i.funds side px q = i.fundsSign side * i.fundsSize side px q := by
  have hticks := mul_nonneg hpx hq
  cases side with
  | sell =>
    change q * i.basePerLot = i.basePerLot.sign * (q * |i.basePerLot|)
    rw [mul_left_comm, Int.sign_mul_abs]
  | buy =>
    change i.money (px * q) = i.tlMul.sign * _
    unfold Inst.money Inst.fundsSize
    split_ifs with hexp
    · conv_lhs => rw [← Int.sign_mul_abs i.tlMul]
      ring
    · have hsize := mul_nonneg hticks (abs_nonneg i.tlMul)
      change (px * q * i.tlMul).tdiv i.unit = i.tlMul.sign * (px * q * |i.tlMul| / i.unit)
      rw [← Int.tdiv_eq_ediv_of_nonneg hsize]
      rcases lt_trichotomy i.tlMul 0 with hneg | hzero | hpos
      · rw [Int.sign_eq_neg_one_of_neg hneg, abs_of_neg hneg, mul_neg, Int.neg_tdiv, neg_one_mul,
          neg_neg]
      · simp [hzero]
      · rw [Int.sign_eq_one_of_pos hpos, abs_of_pos hpos, one_mul]

theorem Inst.fundsSize_nonneg (hpx : 0 ≤ px) (hq : 0 ≤ q) : 0 ≤ i.fundsSize side px q := by
  have hticks := mul_nonneg hpx hq
  cases side with
  | sell => exact mul_nonneg hq (abs_nonneg _)
  | buy =>
    have hsize := mul_nonneg hticks (abs_nonneg i.tlMul)
    unfold Inst.fundsSize
    split_ifs
    · exact mul_nonneg hsize (pow_nonneg (by omega) _)
    · exact Int.ediv_nonneg hsize i.unit_pos.le

/-- The pieces of an order and the whole. -/
theorem Inst.fundsSize_sum (i : Inst) (side : Side) (px : ℤ) (qs : List ℤ) :
    (qs.map (i.fundsSize side px)).sum ≤ i.fundsSize side px qs.sum ∧
      ((qs.map (i.fundsSize side px)).sum = i.fundsSize side px qs.sum ↔
        i.Splits side px qs) := by
  have hticks : ∀ c, (qs.map fun q => px * q * c).sum = px * qs.sum * c := by
    intro c
    rw [List.sum_map_mul_right, List.sum_map_mul_left, List.map_id']
  cases side with
  | sell =>
    have hsum : (qs.map (i.fundsSize .sell px)).sum = i.fundsSize .sell px qs.sum := by
      change (qs.map fun q => q * |i.basePerLot|).sum = qs.sum * |i.basePerLot|
      rw [List.sum_map_mul_right, List.map_id']
    exact ⟨hsum.le, iff_of_true hsum trivial⟩
  | buy =>
    by_cases hexp : 0 ≤ i.tlExp
    · have hsize : i.fundsSize .buy px = fun q => px * q * (|i.tlMul| * 10 ^ i.tlExp.toNat) := by
        funext q
        rw [Inst.fundsSize, if_pos hexp, ← mul_assoc]
      have hsum : (qs.map (i.fundsSize .buy px)).sum = i.fundsSize .buy px qs.sum := by
        rw [hsize]
        exact hticks _
      exact ⟨hsum.le, iff_of_true hsum (.inl hexp)⟩
    · have hsize : i.fundsSize .buy px = fun q => px * q * |i.tlMul| / i.unit := by
        funext q
        rw [Inst.fundsSize, if_neg hexp]
      have hparts : (qs.map (i.fundsSize .buy px)).sum =
          quotients i.unit (qs.map fun q => px * q * |i.tlMul|) := by
        rw [hsize, quotients, List.map_map]
        rfl
      rw [hparts, hsize]
      dsimp only
      rw [← hticks, Inst.Splits, or_iff_right hexp]
      exact ⟨quotients_le i.unit_pos _, sum_ediv_eq_iff i.unit_pos _⟩

/-- Some of the pieces may be taken together. -/
theorem Inst.Splits.together {xs ys : List ℤ} (h : i.Splits side px (xs ++ ys)) :
    i.Splits side px (xs ++ [ys.sum]) := by
  cases side with
  | sell => trivial
  | buy =>
    refine h.imp_right fun hlt => lt_of_le_of_lt ?_ hlt
    have hsum : px * ys.sum * |i.tlMul| = (ys.map fun q => px * q * |i.tlMul|).sum := by
      rw [List.sum_map_mul_right, List.sum_map_mul_left, List.map_id']
    have hle := remainders_append_le i.unit_pos (xs.map fun q => px * q * |i.tlMul|)
      (ys.map fun q => px * q * |i.tlMul|)
    rw [← hsum, ← List.map_append] at hle
    rwa [List.map_append, List.map_singleton]

/-! ### Values between 0 and a whole -/

/-- `x` lies between 0 and `y`. -/
def PartOf (x y : ℤ) : Prop := (0 ≤ x ∧ x ≤ y) ∨ (y ≤ x ∧ x ≤ 0)

theorem PartOf.fits {x y : ℤ} {w : ℕ} (h : PartOf x y) (hy : Fits w y) : Fits w x := by
  have hpow : (0 : ℤ) < 2 ^ (w - 1) := pow_pos (by omega) _
  obtain ⟨hlow, hhigh⟩ := hy
  rcases h with h | h
  · exact ⟨by omega, by omega⟩
  · exact ⟨by omega, by omega⟩

theorem PartOf.fits_add {r x y : ℤ} {w : ℕ} (h : PartOf x y) (hr : Fits w r)
    (hy : Fits w (r + y)) : Fits w (r + x) := by
  obtain ⟨hlow, hhigh⟩ := hr
  obtain ⟨hlow', hhigh'⟩ := hy
  rcases h with h | h
  · exact ⟨by omega, by omega⟩
  · exact ⟨by omega, by omega⟩

theorem PartOf.sign_mul {x y : ℤ} (m : ℤ) (hx : 0 ≤ x) (hxy : x ≤ y) :
    PartOf (m.sign * x) (m.sign * y) := by
  rcases lt_trichotomy m 0 with hneg | hzero | hpos
  · rw [Int.sign_eq_neg_one_of_neg hneg]
    exact .inr ⟨by omega, by omega⟩
  · rw [hzero]
    exact .inl (by simp)
  · rw [Int.sign_eq_one_of_pos hpos]
    exact .inl ⟨by omega, by omega⟩

theorem PartOf.mul_right {x y : ℤ} (m : ℤ) (hx : 0 ≤ x) (hxy : x ≤ y) :
    PartOf (x * m) (y * m) := by
  have hsign := PartOf.sign_mul m (mul_nonneg hx (abs_nonneg m))
    (mul_le_mul_of_nonneg_right hxy (abs_nonneg m))
  rwa [mul_left_comm, Int.sign_mul_abs, mul_left_comm, Int.sign_mul_abs] at hsign

theorem Inst.fundsSize_mono (i : Inst) (side : Side) (hpx : 0 ≤ px) (hq : q ≤ qty) :
    i.fundsSize side px q ≤ i.fundsSize side px qty := by
  have hle := (i.fundsSize_sum side px [q, qty - q]).1
  have hrest : 0 ≤ i.fundsSize side px (qty - q) := Inst.fundsSize_nonneg hpx (by omega)
  simp only [List.map_cons, List.map_nil, List.sum_cons, List.sum_nil, add_zero,
    add_sub_cancel] at hle
  omega

/-- The funds of a part lie between 0 and those of the whole. -/
theorem Inst.funds_partOf (hpx : 0 ≤ px) (hq : 0 ≤ q) (hle : q ≤ qty) :
    PartOf (i.funds side px q) (i.funds side px qty) := by
  rw [Inst.funds_eq hpx hq, Inst.funds_eq hpx (hq.trans hle)]
  have hmono := i.fundsSize_mono side hpx hle
  have hsize : 0 ≤ i.fundsSize side px q := Inst.fundsSize_nonneg hpx hq
  cases side with
  | buy => exact .sign_mul _ hsize hmono
  | sell => exact .sign_mul _ hsize hmono

/-- What the pieces lose lies between 0 and the whole. -/
theorem Inst.lost_partOf (hpx : 0 ≤ px) (hqs : ∀ q ∈ qs, 0 ≤ q) :
    PartOf (i.funds side px qs.sum - (qs.map (i.funds side px)).sum) (i.funds side px qs.sum) := by
  have hsum : (qs.map (i.funds side px)).sum =
      i.fundsSign side * (qs.map (i.fundsSize side px)).sum := by
    rw [← List.sum_map_mul_left]
    exact congrArg List.sum (List.map_congr_left fun q hq => Inst.funds_eq hpx (hqs q hq))
  have hpieces : 0 ≤ (qs.map (i.fundsSize side px)).sum := by
    refine List.sum_nonneg fun x hx => ?_
    obtain ⟨q, hq, rfl⟩ := List.mem_map.1 hx
    exact Inst.fundsSize_nonneg hpx (hqs q hq)
  have hle := (i.fundsSize_sum side px qs).1
  rw [hsum, Inst.funds_eq hpx (List.sum_nonneg hqs), ← mul_sub]
  cases side with
  | buy => exact .sign_mul _ (by omega) (by omega)
  | sell => exact .sign_mul _ (by omega) (by omega)

/-- **The pieces add up** exactly when their remainders are small. -/
theorem Inst.funds_sum_iff (hpx : 0 ≤ px) (hqs : ∀ q ∈ qs, 0 ≤ q) :
    (qs.map (i.funds side px)).sum = i.funds side px qs.sum ↔ i.Splits side px qs := by
  have hsum : (qs.map (i.funds side px)).sum =
      i.fundsSign side * (qs.map (i.fundsSize side px)).sum := by
    rw [← List.sum_map_mul_left]
    exact congrArg List.sum (List.map_congr_left fun q hq => Inst.funds_eq hpx (hqs q hq))
  have hsize := (i.fundsSize_sum side px qs).2
  rw [hsum, Inst.funds_eq hpx (List.sum_nonneg hqs)]
  cases side with
  | sell =>
    refine iff_of_true ?_ trivial
    rw [hsize.2 trivial]
  | buy =>
    rcases eq_or_ne i.tlMul 0 with hzero | hne
    · -- nothing is reserved at all
      have hnone : i.fundsSize .buy px = fun _ => 0 :=
        funext fun q => by simp [Inst.fundsSize, hzero]
      refine iff_of_true ?_ (hsize.1 ?_)
      · simp [Inst.fundsSign, hzero]
      · simp [hnone]
    · rw [← hsize]
      exact mul_right_inj' (Int.sign_eq_zero_iff_zero.not.2 hne)

/-- Nothing overflows in the reservation of a part. -/
theorem Inst.Covers.piece (h : i.Covers side px qty) (hpx : 0 ≤ px) (hq : 0 ≤ q) (hle : q ≤ qty) :
    i.Covers side px q := by
  cases side with
  | sell => exact (PartOf.mul_right i.basePerLot hq hle).fits h
  | buy =>
    have hticks : px * q ≤ px * qty := mul_le_mul_of_nonneg_left hle hpx
    obtain ⟨hprod, hscaled, hmoney⟩ := h
    exact ⟨PartOf.fits (.inl ⟨mul_nonneg hpx hq, hticks⟩) hprod,
      (PartOf.mul_right i.tlMul (mul_nonneg hpx hq) hticks).fits hscaled,
      (show PartOf (i.funds .buy px q) _ from Inst.funds_partOf hpx hq hle).fits hmoney⟩

end Pieces

/-! ### The run of an order -/

/-- The lots of fills. -/
def lots (fs : List Fill) : ℤ := (fs.map Fill.qty).sum

namespace Account

/-- What is reserved of the asset an order on an instrument locks. -/
def held (a : Account) (inst : UInt16) (side : Side) : ℤ :=
  (a.bal ((a.terms inst).asset side)).reserved

/-- An order for `qty` lots at `px`, run off by fills and the end of what is left. -/
structure ReleasedInFull (a : Account) (inst : UInt16) (side : Side) (px qty : ℤ)
    (fs : List Fill) : Prop where
  after : ∀ k ≤ fs.length, ((a.reserve inst side px qty).fills inst (fs.take k)).held inst side =
    a.held inst side + a.reservation inst side px (qty - lots (fs.take k))
  last : (((a.reserve inst side px qty).fills inst fs).release inst side px
    (qty - lots fs)).held inst side = a.held inst side

end Account

section Run

variable {a : Account} {inst : UInt16} {side : Side} {px qty : ℤ} {fs : List Fill} {f : Fill}

theorem held_reserve : (a.reserve inst side px qty).held inst side =
    wrap 64 (a.held inst side + a.reservation inst side px qty) := by
  change ((a.reserve inst side px qty).bal ((a.terms inst).asset side)).reserved = _
  rw [reserved_reserve, sideAsset_eq, if_pos rfl]
  rfl

theorem held_release : (a.release inst side px qty).held inst side =
    wrap 64 (a.held inst side - a.reservation inst side px qty) := by
  change ((a.release inst side px qty).bal ((a.terms inst).asset side)).reserved = _
  rw [reserved_release, sideAsset_eq, if_pos rfl]
  rfl

theorem held_fill (hside : f.side = side) : (a.fill inst f).held inst side =
    wrap 64 (a.held inst side - a.reservation inst side f.orderPx f.qty) := by
  have hterms : (a.fill inst f).terms = a.terms := terms_onFill _ _
  subst hside
  rw [Account.held, hterms]
  change ((a.onFill inst f.side f.px f.qty f.orderPx f.fee f.feeInBase).bal _).reserved = _
  rw [reserved_onFill, sideAsset_eq, if_pos rfl]
  rfl

/-- What fills of an order release. -/
theorem held_fills (hpx : 0 ≤ px) (hexp : side = .buy → -38 ≤ (a.terms inst).tlExp)
    (hcover : (a.terms inst).Covers side px qty)
    (hfs : ∀ f ∈ fs, f.side = side ∧ f.orderPx = px ∧ 0 ≤ f.qty) (hlots : lots fs ≤ qty)
    (hfit : Fits 64 (a.held inst side)) :
    (a.fills inst fs).held inst side = wrap 64 (a.held inst side -
      ((fs.map Fill.qty).map ((a.terms inst).funds side px)).sum) := by
  induction fs using List.reverseRecOn with
  | nil =>
    change a.held inst side = _
    simp [wrap_eq_self (by omega) hfit]
  | append_singleton fs f ih =>
    obtain ⟨hside, horder, hq⟩ := hfs f (by simp)
    have hbefore : ∀ g ∈ fs, g.side = side ∧ g.orderPx = px ∧ 0 ≤ g.qty :=
      fun g hg => hfs g (List.mem_append_left _ hg)
    have hsum : lots (fs ++ [f]) = lots fs + f.qty := by simp [lots]
    have hnonneg : 0 ≤ lots fs := by
      refine List.sum_nonneg fun q hq => ?_
      obtain ⟨g, hg, rfl⟩ := List.mem_map.1 hq
      exact (hbefore g hg).2.2
    have hterms := terms_fills a inst fs
    have hpiece : (a.terms inst).Covers side px f.qty := hcover.piece hpx hq (by omega)
    rw [Account.fills_concat, held_fill hside, ih hbefore (by omega), horder,
      reservation_eq_funds (hterms ▸ hexp) (hterms ▸ hpiece), hterms, wrap_wrap_sub,
      List.map_append, List.map_append, List.sum_append, ← sub_sub]
    simp

theorem lots_nonneg (hfs : ∀ f ∈ fs, 0 ≤ f.qty) : 0 ≤ lots fs := by
  refine List.sum_nonneg fun q hq => ?_
  obtain ⟨f, hf, rfl⟩ := List.mem_map.1 hq
  exact hfs f hf

theorem lots_take_add_drop (fs : List Fill) (k : ℕ) :
    lots (fs.take k) + lots (fs.drop k) = lots fs := by
  rw [lots, lots, ← List.sum_append, ← List.map_append, List.take_append_drop, lots]

/-- The pieces of an order: its fills and what is left at the end. -/
def pieces (qty : ℤ) (fs : List Fill) : List ℤ := fs.map Fill.qty ++ [qty - lots fs]

theorem sum_pieces (qty : ℤ) (fs : List Fill) : (pieces qty fs).sum = qty := by
  rw [pieces, List.sum_append, List.sum_singleton, ← lots]
  omega

/-- Fills of an order at `px` for `qty` lots. -/
structure RunsOff (side : Side) (px qty : ℤ) (fs : List Fill) : Prop where
  px_pos : 0 < px
  fills : ∀ f ∈ fs, f.side = side ∧ f.orderPx = px ∧ 0 < f.qty
  lots_le : lots fs ≤ qty

theorem RunsOff.take (h : RunsOff side px qty fs) (k : ℕ) : RunsOff side px qty (fs.take k) where
  px_pos := h.px_pos
  fills f hf := h.fills f (List.mem_of_mem_take hf)
  lots_le := by
    have hdrop : 0 ≤ lots (fs.drop k) := Exec.lots_nonneg fun f hf =>
      (h.fills f (List.mem_of_mem_drop hf)).2.2.le
    have hsplit := lots_take_add_drop fs k
    have hle := h.lots_le
    omega

theorem RunsOff.lots_nonneg (h : RunsOff side px qty fs) : 0 ≤ lots fs :=
  Exec.lots_nonneg fun f hf => (h.fills f hf).2.2.le

theorem RunsOff.pieces_nonneg (h : RunsOff side px qty fs) : ∀ q ∈ pieces qty fs, 0 ≤ q := by
  intro q hq
  rcases List.mem_append.1 hq with hq | hq
  · obtain ⟨f, hf, rfl⟩ := List.mem_map.1 hq
    exact (h.fills f hf).2.2.le
  · have hle := h.lots_le
    rw [List.mem_singleton.1 hq]
    omega

/-- Pieces that add up do so with the later ones taken together. -/
theorem splits_pieces_take {i : Inst} (h : i.Splits side px (pieces qty fs)) (k : ℕ) :
    i.Splits side px (pieces qty (fs.take k)) := by
  have hsplit := lots_take_add_drop fs k
  have hpieces : pieces qty fs =
      (fs.take k).map Fill.qty ++ ((fs.drop k).map Fill.qty ++ [qty - lots fs]) := by
    rw [pieces, ← List.append_assoc, ← List.map_append, List.take_append_drop]
  have hsum : ((fs.drop k).map Fill.qty ++ [qty - lots fs]).sum = qty - lots (fs.take k) := by
    rw [List.sum_append, List.sum_singleton, ← lots]
    omega
  rw [hpieces] at h
  have htogether := h.together
  rwa [hsum] at htogether

/-- What an order holds after its fills: what it reserved less what each fill released. -/
theorem held_reserve_fills (h : RunsOff side px qty fs)
    (hexp : side = .buy → -38 ≤ (a.terms inst).tlExp) (hcover : (a.terms inst).Covers side px qty)
    (hfit : Fits 64 (a.held inst side + a.reservation inst side px qty)) :
    ((a.reserve inst side px qty).fills inst fs).held inst side =
      wrap 64 (a.held inst side + ((a.terms inst).funds side px qty -
        ((fs.map Fill.qty).map ((a.terms inst).funds side px)).sum)) := by
  have hheld : (a.reserve inst side px qty).held inst side =
      a.held inst side + (a.terms inst).funds side px qty := by
    rw [held_reserve, wrap_eq_self (by omega) hfit, reservation_eq_funds hexp hcover]
  have hrun : ((a.reserve inst side px qty).fills inst fs).held inst side = _ :=
    held_fills h.px_pos.le hexp hcover
      (fun f hf => by
        obtain ⟨hside, horder, hpos⟩ := h.fills f hf
        exact ⟨hside, horder, hpos.le⟩)
      h.lots_le (by rw [held_reserve]; exact fits_wrap (by omega) _)
  rw [hrun, hheld, add_sub_assoc]
  rfl

/-- What an order holds when it has run off: what its pieces lose. -/
theorem held_last (h : RunsOff side px qty fs)
    (hexp : side = .buy → -38 ≤ (a.terms inst).tlExp) (hcover : (a.terms inst).Covers side px qty)
    (hfit : Fits 64 (a.held inst side + a.reservation inst side px qty)) :
    (((a.reserve inst side px qty).fills inst fs).release inst side px
        (qty - lots fs)).held inst side =
      wrap 64 (a.held inst side + ((a.terms inst).funds side px (pieces qty fs).sum -
        ((pieces qty fs).map ((a.terms inst).funds side px)).sum)) := by
  have hterms : ((a.reserve inst side px qty).fills inst fs).terms = a.terms := terms_fills _ _ _
  have hle := h.lots_le
  have hrest : (a.terms inst).Covers side px (qty - lots fs) :=
    hcover.piece h.px_pos.le (by omega) (by have := h.lots_nonneg; omega)
  rw [held_release, held_reserve_fills h hexp hcover hfit,
    reservation_eq_funds (hterms ▸ hexp) (hterms ▸ hrest), hterms, wrap_wrap_sub, sum_pieces,
    pieces, List.map_append, List.sum_append, List.map_singleton, List.sum_singleton,
    add_sub_assoc, sub_sub]

/-- **Reservations are released in full**, after every fill and at the end, exactly when the
remainders of the pieces come to less than one unit of money. -/
theorem released_iff (h : RunsOff side px qty fs)
    (hexp : side = .buy → -38 ≤ (a.terms inst).tlExp) (hcover : (a.terms inst).Covers side px qty)
    (hfit : Fits 64 (a.held inst side))
    (hfit' : Fits 64 (a.held inst side + a.reservation inst side px qty)) :
    a.ReleasedInFull inst side px qty fs ↔
      (a.terms inst).Splits side px (fs.map Fill.qty ++ [qty - lots fs]) := by
  have hreserve := reservation_eq_funds hexp hcover
  constructor
  · intro hfull
    have hlast := hfull.last
    have hlost : PartOf _ ((a.terms inst).funds side px (pieces qty fs).sum) :=
      Inst.lost_partOf h.px_pos.le h.pieces_nonneg
    have hexact : Fits 64 (a.held inst side + ((a.terms inst).funds side px (pieces qty fs).sum -
        ((pieces qty fs).map ((a.terms inst).funds side px)).sum)) := by
      refine hlost.fits_add hfit ?_
      rwa [sum_pieces, ← hreserve]
    rw [held_last h hexp hcover hfit', wrap_eq_self (by omega) hexact] at hlast
    exact (Inst.funds_sum_iff h.px_pos.le h.pieces_nonneg).1 (by omega)
  · intro hsplits
    refine ⟨fun k _ => ?_, ?_⟩
    · have hk := h.take k
      have hlots := hk.lots_le
      have hnonneg := hk.lots_nonneg
      have hsum := (Inst.funds_sum_iff h.px_pos.le hk.pieces_nonneg).2
        (splits_pieces_take hsplits k)
      rw [sum_pieces, pieces, List.map_append, List.sum_append, List.map_singleton,
        List.sum_singleton] at hsum
      have hpart : PartOf ((a.terms inst).funds side px (qty - lots (fs.take k))) _ :=
        Inst.funds_partOf h.px_pos.le (by omega) (show _ ≤ qty by omega)
      have hrest := hcover.piece h.px_pos.le (show 0 ≤ qty - lots (fs.take k) by omega)
        (show _ ≤ qty by omega)
      rw [held_reserve_fills hk hexp hcover hfit', ← hsum, add_sub_cancel_left,
        reservation_eq_funds hexp hrest]
      exact wrap_eq_self (by omega) (hpart.fits_add hfit (hreserve ▸ hfit'))
    · rw [held_last h hexp hcover hfit',
        (Inst.funds_sum_iff h.px_pos.le h.pieces_nonneg).2 hsplits, sub_self, add_zero,
        wrap_eq_self (by omega) hfit]

/-- A crypto pair with a tick of a cent and a lot of 1e-8: a tick-lot is a hundredth of a unit of
money. -/
def cryptoRow : Instrument where
  tickMant := 1
  lotMant := 1
  minQtyLots := 0
  minNotional := 0
  tickExp := -2
  lotExp := -8
  status := .online

/-- An account that has registered the pair. -/
def cryptoAccount : Account :=
  (Account.addInstrument
    { ids := [], inst := fun _ => ⟨0, 0, 0, 0, 0, {}⟩, bal := fun _ => {}, peak := 0, maxDd := 0 }
    7 cryptoRow 0 1).1

/-- Fills of two lots are whole units. -/
theorem released_even : cryptoAccount.ReleasedInFull 7 .buy 150 4 [⟨.buy, 149, 2, 150, 0, false⟩] :=
  (released_iff ⟨by decide, by decide, by decide⟩ (by decide) (by decide) (by decide)
    (by decide)).2 (.inr (by decide))

/-- **A unit left over**: an order of two lots at 1.50 that fills one and is canceled leaves a unit
of money reserved. -/
theorem released_leftover :
    ¬ ∀ fs, RunsOff .buy 150 2 fs → cryptoAccount.ReleasedInFull 7 .buy 150 2 fs := by
  intro hall
  have hfull := hall [⟨.buy, 150, 1, 150, 0, false⟩] ⟨by decide, by decide, by decide⟩
  exact absurd hfull.last (by decide)

end Run

end Exec

end LowLatencyPipeline
