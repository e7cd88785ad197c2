import LowLatencyPipeline.Core.TopOfBook
import LowLatencyPipeline.Library.SortedWalk

/-!
# Depth

Where all prices are whole cents, every level has one price, the best price is the price of an
order (`PennyInv`), and no call leaves a phantom (`topSeen_of_penny`). Then `top_bids` and
`top_asks` are the ladder of the side: the distinct prices of its orders, best first, each with its
shares and its number of orders (`walk_eq_ladder`).
-/

namespace LowLatencyPipeline

namespace Core

open PriceLevelArray BookSide

/-- A price of whole cents. -/
def Penny (p : UInt32) : Prop := p.toNat % 100 = 0

instance (p : UInt32) : Decidable (Penny p) := inferInstanceAs (Decidable (_ = _))

/-- The prices of a call are whole cents. -/
def BookOp.InPennies : BookOp → Prop
  | .add _ _ price _ | .replace _ _ price _ => Penny price
  | _ => True

instance : (op : BookOp) → Decidable op.InPennies
  | .add .. | .replace .. => inferInstanceAs (Decidable (Penny _))
  | .execute .. | .executeWithPrice .. | .cancel .. | .delete .. => instDecidableTrue

/-- The base, the orders and the best price are whole cents. -/
structure PennyInv (b : OrderBook) : Prop where
  base : ∀ side, Penny (b.sides side).levels.basePrice
  quotes : ∀ side p, Quotes b.entries side p → Penny p
  best : ∀ side, (b.sides side).best = emptyBest side ∨ Penny (b.sides side).best

/-! ### Levels of whole cents -/

section Levels

variable {n : ℕ} {a : PriceLevelArray n} {p q : UInt32}

/-- A level has one price. -/
theorem eq_of_indexOf_eq (hbase : Penny a.basePrice) (hp : Penny p) (hq : Penny q)
    (hple : a.basePrice.toNat ≤ p.toNat) (hqle : a.basePrice.toNat ≤ q.toNat)
    (h : a.indexOf p = a.indexOf q) : p = q := by
  rw [indexOf_eq hple, indexOf_eq hqle] at h
  simp only [Penny] at hbase hp hq
  refine UInt32.toNat_inj.1 ?_
  omega

theorem priceOf_indexOf (hn : n ≤ 2 ^ 20) (hbase : Penny a.basePrice)
    (hmax : a.basePrice.toNat ≤ FEED_PRICE_MAX) (hp : Penny p)
    (hple : a.basePrice.toNat ≤ p.toNat) (hrange : a.InRange p) : a.priceOf (a.indexOf p) = p := by
  refine UInt32.toNat_inj.1 ?_
  rw [toNat_priceOf hn hmax hrange, indexOf_eq hple]
  simp only [Penny] at hbase hp
  omega

theorem penny_priceOf (hn : n ≤ 2 ^ 20) (hbase : Penny a.basePrice)
    (hmax : a.basePrice.toNat ≤ FEED_PRICE_MAX) {i : ℕ} (hi : i < n) : Penny (a.priceOf i) := by
  rw [Penny, toNat_priceOf hn hmax hi]
  simp only [Penny] at hbase
  omega

/-- Prices of whole cents are ordered as their levels are. -/
theorem better_iff_indexOf {side : Side} (hbase : Penny a.basePrice) (hp : Penny p) (hq : Penny q)
    (hple : a.basePrice.toNat ≤ p.toNat) (hqle : a.basePrice.toNat ≤ q.toNat) :
    better side (a.indexOf p) (a.indexOf q) ↔ better side p q := by
  refine ⟨better_of_better_indexOf hple hqle, fun h => ?_⟩
  rw [indexOf_eq hple, indexOf_eq hqle]
  simp only [Penny] at hbase hp hq
  cases side <;> simp only [better, UInt32.lt_iff_toNat_lt] at h ⊢ <;> omega

end Levels

/-! ### Runs in whole cents -/

section Steps

variable {b b' : OrderBook} {op : BookOp}

/-- In whole cents no call leaves a phantom. -/
theorem topSeen_of_penny (hb : BookInv b) (h : TopInv b) (hpenny : PennyInv b)
    (hpriced : op.Priced) (hpennies : op.InPennies) : op.TopSeen b := by
  intro e rest left hentries hleaves hall
  have hwindow := h.window e.2.side
  have hrest : ∀ p, Quotes rest e.2.side p → Quotes left e.2.side p := by
    intro p hp
    cases hleaves with
    | removed | lost => exact hp
    | replaced => exact (quotes_cons rfl).2 (.inl hp)
  have hQ : ∀ p, Quotes b.entries e.2.side p ↔ Quotes rest e.2.side p ∨ p = e.2.price :=
    fun p => hentries ▸ quotes_cons rfl
  have he : Quotes b.entries e.2.side e.2.price := (hQ _).2 (.inr rfl)
  refine ⟨?_, fun ⟨p, hp⟩ => ⟨p, hp, ?_⟩⟩
  · cases h.top e.2.side with
    | none hnone => exact absurd he (hnone _)
    | @some p hp hindex hle hne hno =>
      -- the level of the best price is the one that `e` leaves
      have hpe : p = e.2.price := by
        rcases (hQ p).1 hp with hp | heq
        · exact absurd (hall p (hrest p hp)) (hno _ he)
        · exact heq
      subst hpe
      have hbest := (hpenny.best e.2.side).resolve_left hne
      exact (eq_of_indexOf_eq (hpenny.base _) hbest (hpenny.quotes _ _ he) hle
        (hwindow.le_price _ he) hindex).symm
  · -- every price left is one of the window, at its own level
    have hleft : (b.sides e.2.side).levels.InRange p ∧ 0 < p.toNat ∧ p.toNat ≤ FEED_PRICE_MAX ∧
        Penny p := by
      have hstored : Quotes rest e.2.side p → (b.sides e.2.side).levels.InRange p ∧
          0 < p.toNat ∧ p.toNat ≤ FEED_PRICE_MAX ∧ Penny p := by
        intro hp
        have hpb := (hQ p).2 (.inl hp)
        obtain ⟨d, hd, hside, rfl⟩ := hpb
        have hpb : Quotes b.entries e.2.side d.2.price := ⟨d, hd, hside, rfl⟩
        exact ⟨(hb.sides _).inRange d hd hside, hwindow.pos _ hpb, hwindow.price_le _ hpb,
          hpenny.quotes _ _ hpb⟩
      cases hleaves with
      | removed | lost => exact hstored hp
      | replaced hrange =>
        rcases (quotes_cons rfl).1 hp with hp | rfl
        · exact hstored hp
        · exact ⟨hrange, hpriced.1, hpriced.2, hpennies⟩
    obtain ⟨hrange, hpos, hmax, hpp⟩ := hleft
    rw [priceOf_indexOf levelCount_le (hpenny.base _) hwindow.base_le hpp
      (hrange.base_le levelCount_le hwindow.base_le hmax) hrange]
    exact Top.ne_emptyBest hpos hmax

/-- Where the best price can go when a handler ends. -/
theorem best_settle {side : Side} {s : BookSide} {price : UInt32}
    (hvalid : s.levels.occupied.Valid) (hbase : s.levels.basePrice.toNat ≤ FEED_PRICE_MAX)
    (hrange : s.levels.InRange price) :
    (s.settle side price).best = s.best ∨ (s.settle side price).best = emptyBest side ∨
      ∃ i < LEVEL_COUNT, (s.settle side price).best = s.levels.priceOf i := by
  rw [settle, onLevelEmptied]
  split_ifs
  · right
    have hspec := beyond_spec (b := { s with levels := s.levels.markEmpty price }) side
      hvalid.clear hbase hrange
    dsimp only
    generalize beyond side { s with levels := s.levels.markEmpty price } price = best at hspec
    cases hspec with
    | none => exact .inl rfl
    | found _ hi => exact .inr ⟨_, hi, rfl⟩
  · exact .inl rfl
  · exact .inl rfl

/-- A change of the map and of one side. -/
theorem PennyInv.setSide (h : PennyInv b) {side : Side} {s : BookSide} {m : OrderMap}
    {entries : Multiset (UInt64 × OrderEntry)} {drops : ℕ} (hm : Stores m entries)
    (hbase : s.levels.basePrice = (b.sides side).levels.basePrice)
    (hquotes : ∀ other p, Quotes entries other p → Quotes b.entries other p ∨ Penny p)
    (hbest : s.best = emptyBest side ∨ Penny s.best) :
    PennyInv { b.setSide side s with orders := m, drops := drops } := by
  obtain ⟨-, rfl⟩ := hm
  refine ⟨fun other => ?_, fun other p hp => ?_, fun other => ?_⟩
  · rw [OrderBook.basePrice_setSide hbase]
    exact h.base other
  · rcases hquotes other p hp with hp | hp
    · exact h.quotes other p hp
    · exact hp
  · rw [OrderBook.sides_setSide]
    split_ifs with heq
    · exact heq ▸ hbest
    · exact h.best other

/-- A side that ends a handler. -/
theorem PennyInv.best_settle (h : PennyInv b) (htop : TopInv b) {side : Side} {s : BookSide}
    {price : UInt32} (hvalid : s.levels.occupied.Valid)
    (hbase : s.levels.basePrice = (b.sides side).levels.basePrice)
    (hrange : s.levels.InRange price) (hbest : s.best = emptyBest side ∨ Penny s.best) :
    (s.settle side price).best = emptyBest side ∨ Penny (s.settle side price).best := by
  have hmax : s.levels.basePrice.toNat ≤ FEED_PRICE_MAX := hbase ▸ (htop.window side).base_le
  rcases Core.best_settle hvalid hmax hrange with heq | heq | ⟨i, hi, heq⟩
  · rwa [heq]
  · exact .inl heq
  · rw [heq]
    exact .inr (penny_priceOf levelCount_le (hbase ▸ h.base side) hmax hi)

/-- **The step lemma.** -/
theorem Effect.pennyInv (he : Effect b op b') (hb : BookInv b) (h : TopInv b)
    (hpenny : PennyInv b) (hpennies : op.InPennies) : PennyInv b' := by
  -- joining shows the old best price or the new order's
  have hjoin : ∀ {side : Side} {s : BookSide} {price shares : UInt32}, Penny price →
      (s.best = emptyBest side ∨ Penny s.best) →
        ((s.join side price shares).best = emptyBest side ∨
          Penny (s.join side price shares).best) := by
    intro side s price shares hprice hs
    change (if better side price s.best then price else s.best) = _ ∨ Penny (ite _ _ _)
    split_ifs
    · exact .inr hprice
    · exact hs
  -- the order that left had a level, and the others stay
  have hstored : ∀ {e : UInt64 × OrderEntry} {rest : Multiset (UInt64 × OrderEntry)},
      b.entries = e ::ₘ rest → (b.sides e.2.side).levels.InRange e.2.price ∧
        ∀ other p, Quotes rest other p → Quotes b.entries other p := by
    intro e rest hentries
    refine ⟨(hb.sides _).inRange e (hentries ▸ Multiset.mem_cons_self e rest) rfl, ?_⟩
    rintro other p ⟨d, hd, hside, hprice⟩
    exact ⟨d, hentries ▸ Multiset.mem_cons_of_mem hd, hside, hprice⟩
  cases he with
  | dropped => exact ⟨hpenny.base, hpenny.quotes, hpenny.best⟩
  | unknown => exact hpenny
  | @added ref side price shares m hrange hm =>
    refine hpenny.setSide hm basePrice_join (fun other p hp => ?_) (hjoin hpennies (hpenny.best _))
    obtain ⟨d, hd, hside, rfl⟩ := hp
    rcases Multiset.mem_cons.1 hd with rfl | hd
    · exact .inr hpennies
    · exact .inl ⟨d, hd, hside, rfl⟩
  | @reduced _ e rest shares m _ _ hentries hm =>
    refine hpenny.setSide hm rfl (fun other p hp => .inl ?_) (hpenny.best _)
    rw [hentries]
    refine (quotes_exchange ?_ ?_).1 hp <;> rfl
  | @removed _ e rest m _ hentries hm | @lost _ _ _ e rest m _ hentries hm =>
    obtain ⟨hrange, hrest⟩ := hstored hentries
    exact hpenny.setSide hm basePrice_settle (fun other p hp => .inl (hrest other p hp))
      (hpenny.best_settle h (s := (b.sides e.2.side).without e.2) (hb.sides _).valid rfl hrange
        (hpenny.best _))
  | @replaced newRef newPrice newShares e rest m hrange hentries hm =>
    obtain ⟨hold, hrest⟩ := hstored hentries
    have hbase : (((b.sides e.2.side).without e.2).join e.2.side newPrice
        newShares).levels.basePrice = (b.sides e.2.side).levels.basePrice := basePrice_join
    have hvalid : (((b.sides e.2.side).without e.2).join e.2.side newPrice
        newShares).levels.occupied.Valid := by
      rw [join_occupied]
      split_ifs
      · exact (hb.sides e.2.side).valid.set hrange
      · exact (hb.sides e.2.side).valid
    refine hpenny.setSide hm (basePrice_settle.trans hbase) (fun other p hp => ?_)
      (hpenny.best_settle h hvalid hbase ?_ (hjoin hpennies (hpenny.best _)))
    · obtain ⟨d, hd, hside, rfl⟩ := hp
      rcases Multiset.mem_cons.1 hd with rfl | hd
      · exact .inr hpennies
      · exact .inl (hrest other _ ⟨d, hd, hside, rfl⟩)
    · rw [PriceLevelArray.InRange, indexOf_join]
      exact hold

end Steps

/-! ### The ladder -/

/-- `p` is not a worse price than `q`. -/
def noWorse (side : Side) (p q : UInt32) : Prop := ¬better side q p

instance (side : Side) : DecidableRel (noWorse side) := fun p q =>
  inferInstanceAs (Decidable (¬better side q p))

instance (side : Side) : IsTrans UInt32 (noWorse side) where
  trans p q r hpq hqr := by
    cases side <;> simp only [noWorse, better, UInt32.lt_iff_toNat_lt] at * <;> omega

instance (side : Side) : Std.Antisymm (noWorse side) where
  antisymm p q hpq hqp := by
    refine UInt32.toNat_inj.1 ?_
    cases side <;> simp only [noWorse, better, UInt32.lt_iff_toNat_lt] at hpq hqp <;> omega

instance (side : Side) : Std.Total (noWorse side) where
  total p q := by
    cases side <;> simp only [noWorse, better, UInt32.lt_iff_toNat_lt] <;> omega

/-- The distinct prices of a side's orders. -/
def prices (entries : Multiset (UInt64 × OrderEntry)) (side : Side) : Finset UInt32 :=
  ((entries.filter fun e => e.2.side = side).map fun e => e.2.price).toFinset

theorem mem_prices {entries : Multiset (UInt64 × OrderEntry)} {side : Side} {p : UInt32} :
    p ∈ prices entries side ↔ Quotes entries side p := by
  simp only [prices, Multiset.mem_toFinset, Multiset.mem_map, Multiset.mem_filter, Quotes,
    and_assoc]

/-- The orders of a side at one price. -/
def ordersAt (entries : Multiset (UInt64 × OrderEntry)) (side : Side) (p : UInt32) :
    Multiset (UInt64 × OrderEntry) :=
  entries.filter fun e => e.2.side = side ∧ e.2.price = p

/-- **The true depth of a side**: its distinct prices, best first, each with the sum of its orders'
shares mod 2^32 and the number of its orders. -/
def ladder (entries : Multiset (UInt64 × OrderEntry)) (side : Side) : List (UInt32 × ℕ × ℕ) :=
  ((prices entries side).sort (noWorse side)).map fun p =>
    (p, ((ordersAt entries side p).map fun e => e.2.shares.toNat).sum % 2 ^ 32,
      (ordersAt entries side p).card)

/-- What a published level says. -/
def OrderBook.Level.shown (l : OrderBook.Level) : UInt32 × ℕ × ℕ :=
  (l.price, l.shares.toNat, l.orderCount.toNat)

section Ladder

variable {b : OrderBook}

/-- A price as the walks see it: the sentinel ends them. -/
def unlessEmpty (side : Side) (p : UInt32) : Option UInt32 :=
  if p = emptyBest side then none else some p

/-- The walk over the levels is the walk over their prices. -/
theorem walk_eq (side : Side) (maxOut : ℕ) (p : UInt32) :
    b.walk side maxOut p =
      (SortedWalk.walk (fun p => unlessEmpty side ((b.sides side).beyond side p)) maxOut
        (unlessEmpty side p)).map fun p =>
          ⟨p, ((b.sides side).levels.level p).totalShares,
            ((b.sides side).levels.level p).orderCount⟩ := by
  induction maxOut generalizing p with
  | zero => rfl
  | succ maxOut ih =>
    rw [OrderBook.walk, unlessEmpty]
    split_ifs
    · rfl
    · rw [SortedWalk.walk, List.map_cons, ih]

/-- A level of whole cents holds the orders at its price. -/
theorem held_eq_ordersAt (h : TopInv b) (hpenny : PennyInv b) {side : Side} {p : UInt32}
    (hp : Quotes b.entries side p) :
    (b.sides side).levels.held b.entries side ((b.sides side).levels.indexOf p) =
      ordersAt b.entries side p := by
  refine Multiset.filter_congr fun d hd => and_congr_right fun hside => ?_
  have hdq : Quotes b.entries side d.2.price := ⟨d, hd, hside, rfl⟩
  constructor
  · exact eq_of_indexOf_eq (hpenny.base side) (hpenny.quotes side _ hdq) (hpenny.quotes side _ hp)
      ((h.window side).le_price _ hdq) ((h.window side).le_price _ hp)
  · rintro rfl
    rfl

/-- The best price, if the side has one, is the first of the side's prices. -/
theorem best_isFirst (h : TopInv b) (hpenny : PennyInv b) (side : Side) :
    SortedWalk.IsFirst (noWorse side) (prices b.entries side)
      (unlessEmpty side (b.sides side).best) := by
  cases h.top side with
  | none hnone heq =>
    rw [unlessEmpty, if_pos heq]
    refine .none ?_
    exact Finset.eq_empty_of_forall_notMem fun p hp => hnone p (mem_prices.1 hp)
  | @some p hp hindex hle hne hno =>
    have hbest : (b.sides side).best = p :=
      eq_of_indexOf_eq (hpenny.base side) ((hpenny.best side).resolve_left hne)
        (hpenny.quotes side p hp) hle ((h.window side).le_price p hp) hindex
    rw [unlessEmpty, if_neg hne, hbest]
    refine .some (mem_prices.2 hp) fun d hd => ?_
    · have hdq := mem_prices.1 hd
      exact fun hbetter => hno d hdq ((better_iff_indexOf (hpenny.base side)
        (hpenny.quotes side d hdq) (hpenny.quotes side p hp) ((h.window side).le_price d hdq)
        ((h.window side).le_price p hp)).2 hbetter)

/-- `beyond` finds the first of the prices beyond one of the side. -/
theorem beyond_isFirst (hb : BookInv b) (h : TopInv b) (hpenny : PennyInv b) {side : Side}
    {p : UInt32} (hp : p ∈ prices b.entries side) :
    SortedWalk.IsFirst (noWorse side)
      (SortedWalk.beyond (noWorse side) (prices b.entries side) p)
      (unlessEmpty side ((b.sides side).beyond side p)) := by
  have hpq := mem_prices.1 hp
  have hwindow := h.window side
  have hrange : ∀ q, Quotes b.entries side q → (b.sides side).levels.InRange q := by
    rintro q ⟨d, hd, hside, rfl⟩
    exact (hb.sides side).inRange d hd hside
  have hiff : ∀ q d, Quotes b.entries side q → Quotes b.entries side d →
      (better side ((b.sides side).levels.indexOf q) ((b.sides side).levels.indexOf d) ↔
        better side q d) := fun q d hq hd =>
    better_iff_indexOf (hpenny.base side) (hpenny.quotes side q hq) (hpenny.quotes side d hd)
      (hwindow.le_price q hq) (hwindow.le_price d hd)
  have hbit : ∀ i, (b.sides side).levels.occupied.test i = true ↔
      ∃ q, Quotes b.entries side q ∧ (b.sides side).levels.indexOf q = i := by
    intro i
    rw [(hb.sides side).marked, ← held_ne_zero_iff]
    simp
  -- what lies beyond `p` is what is worse
  have hworse : ∀ q, q ∈ SortedWalk.beyond (noWorse side) (prices b.entries side) p ↔
      Quotes b.entries side q ∧ better side p q := by
    intro q
    rw [SortedWalk.mem_beyond, mem_prices]
    refine and_congr_right fun _ => ?_
    rw [noWorse, ne_eq, ← UInt32.toNat_inj]
    cases side <;> simp only [better, UInt32.lt_iff_toNat_lt] <;> omega
  have hspec := beyond_spec side (hb.sides side).valid hwindow.base_le (hrange p hpq)
  generalize (b.sides side).beyond side p = best at hspec
  cases hspec with
  | none hnone =>
    rw [unlessEmpty, if_pos rfl]
    refine .none ?_
    refine Finset.eq_empty_of_forall_notMem fun q hq => ?_
    obtain ⟨hq, hbetter⟩ := (hworse q).1 hq
    exact hnone _ ((hbit _).2 ⟨q, hq, rfl⟩) ((hiff p q hpq hq).2 hbetter)
  | @found i hset hi hlt hfirst =>
    obtain ⟨q, hq, rfl⟩ := (hbit i).1 hset
    have hprice : (b.sides side).levels.priceOf ((b.sides side).levels.indexOf q) = q :=
      priceOf_indexOf levelCount_le (hpenny.base side) hwindow.base_le (hpenny.quotes side q hq)
        (hwindow.le_price q hq) (hrange q hq)
    have hne : q ≠ emptyBest side := Top.ne_emptyBest (hwindow.pos q hq) (hwindow.price_le q hq)
    rw [hprice, unlessEmpty, if_neg hne]
    refine .some ((hworse q).2 ⟨hq, (hiff p q hpq hq).1 hlt⟩) fun r hr => ?_
    · obtain ⟨hr, hbetter⟩ := (hworse r).1 hr
      exact fun hrq => hfirst _ ((hbit _).2 ⟨r, hr, rfl⟩) ((hiff p r hpq hr).2 hbetter)
        ((hiff r q hr hq).2 hrq)

/-- **The walks show the ladder.** -/
theorem walk_eq_ladder (hb : BookInv b) (h : TopInv b) (hpenny : PennyInv b) (side : Side)
    (maxOut : ℕ) : (b.walk side maxOut (b.sides side).best).map OrderBook.Level.shown =
      (ladder b.entries side).take maxOut := by
  rw [walk_eq, SortedWalk.walk_eq_take maxOut (best_isFirst h hpenny side) fun p hp =>
    beyond_isFirst hb h hpenny hp, ladder, ← List.map_take, List.map_map]
  refine List.map_congr_left fun p hp => ?_
  have hp := mem_prices.1 ((Finset.mem_sort _).1 (List.mem_of_mem_take hp))
  have hlevel : (b.sides side).levels.level p = tally (ordersAt b.entries side p) := by
    rw [PriceLevelArray.level, (hb.sides side).tallied, held_eq_ordersAt h hpenny hp]
  have hcard : (ordersAt b.entries side p).card < 2 ^ 32 :=
    (Multiset.card_le_card (Multiset.filter_le _ _)).trans_lt
      (hb.card_lt.trans (UInt32.toNat_lt _))
  simp only [Function.comp_apply, OrderBook.Level.shown, hlevel, tally, UInt32.toNat_ofNat',
    Nat.mod_eq_of_lt hcard]

end Ladder

end Core

end LowLatencyPipeline
