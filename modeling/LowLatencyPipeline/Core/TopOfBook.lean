import LowLatencyPipeline.Core.BookInvariant

/-!
# The top of the book

`best_bid` and `best_ask` are exact prices, and the levels behind them are one cent wide. `Top`
says that the best price of a side lies in the best level with an order, or is the empty sentinel;
it is kept by every call that does not leave a phantom.

Two things go wrong for prices below one cent's resolution. `on_level_emptied` compares the price of
the order that left with the best price, so that an order of the top level at another price leaves
the best price standing over an empty level; and the level of price 0 looks like an empty bid side.
`TopSeen` is the condition on a call that neither happens, `shows_top` says that it is enough in
every run, and `phantom_bid` is a run without it.
-/

namespace LowLatencyPipeline

namespace Core

/-- The highest price of the feed. -/
def FEED_PRICE_MAX : ℕ := 2000000000

/-! ### Prices and levels -/

section Better

variable {side : Side} {i j k : ℕ}

theorem better_irrefl : ¬better side i i := by
  cases side with
  | buy => exact Nat.lt_irrefl i
  | sell => exact Nat.lt_irrefl i

theorem better_or_eq_or_better (side : Side) (i j : ℕ) :
    better side i j ∨ i = j ∨ better side j i := by
  cases side <;> simp only [better] <;> omega

theorem not_better_trans (hij : ¬better side i j) (hjk : ¬better side j k) :
    ¬better side i k := by
  cases side <;> simp only [better] at * <;> omega

end Better

namespace PriceLevelArray

variable {n : ℕ} {a : PriceLevelArray n} {p q : UInt32}

theorem indexOf_eq (hp : a.basePrice.toNat ≤ p.toNat) :
    a.indexOf p = (p.toNat - a.basePrice.toNat) / 100 := by
  have hle : a.basePrice ≤ p := UInt32.le_iff_toNat_le.2 hp
  rw [indexOf, UInt32.toNat_div, UInt32.toNat_sub_of_le _ _ hle]
  rfl

/-- A feed price that is in range is not below the base. -/
theorem InRange.base_le (h : a.InRange p) (hn : n ≤ 2 ^ 20)
    (hbase : a.basePrice.toNat ≤ FEED_PRICE_MAX) (hp : p.toNat ≤ FEED_PRICE_MAX) :
    a.basePrice.toNat ≤ p.toNat := by
  by_contra hlt
  have hindex : a.indexOf p < n := h
  rw [indexOf, UInt32.toNat_div, UInt32.toNat_sub, show PRICE_TICK.toNat = 100 from rfl] at hindex
  simp only [FEED_PRICE_MAX] at hbase hp
  omega

/-- A better level has better prices. -/
theorem better_of_better_indexOf {side : Side} (hp : a.basePrice.toNat ≤ p.toNat)
    (hq : a.basePrice.toNat ≤ q.toNat) (h : better side (a.indexOf p) (a.indexOf q)) :
    better side p q := by
  rw [indexOf_eq hp, indexOf_eq hq] at h
  cases side <;> simp only [better, UInt32.lt_iff_toNat_lt] at * <;> omega

theorem not_better_indexOf {side : Side} (hp : a.basePrice.toNat ≤ p.toNat)
    (hq : a.basePrice.toNat ≤ q.toNat) (h : ¬better side p q) :
    ¬better side (a.indexOf p) (a.indexOf q) :=
  fun hindex => h (better_of_better_indexOf hp hq hindex)

variable {i : ℕ}

/-- The price of a level, in an array whose window does not wrap. -/
theorem toNat_priceOf (hn : n ≤ 2 ^ 20) (hbase : a.basePrice.toNat ≤ FEED_PRICE_MAX)
    (hi : i < n) : (a.priceOf i).toNat = a.basePrice.toNat + 100 * i := by
  simp only [FEED_PRICE_MAX] at hbase
  rw [priceOf, UInt32.toNat_add, UInt32.toNat_mul, UInt32.toNat_ofNat',
    show PRICE_TICK.toNat = 100 from rfl]
  omega

theorem base_le_priceOf (hn : n ≤ 2 ^ 20) (hbase : a.basePrice.toNat ≤ FEED_PRICE_MAX)
    (hi : i < n) : a.basePrice.toNat ≤ (a.priceOf i).toNat := by
  rw [toNat_priceOf hn hbase hi]
  exact Nat.le_add_right _ _

theorem indexOf_priceOf (hn : n ≤ 2 ^ 20) (hbase : a.basePrice.toNat ≤ FEED_PRICE_MAX)
    (hi : i < n) : a.indexOf (a.priceOf i) = i := by
  rw [indexOf_eq (base_le_priceOf hn hbase hi), toNat_priceOf hn hbase hi]
  omega

end PriceLevelArray

theorem levelCount_le : LEVEL_COUNT ≤ 2 ^ 20 := by
  unfold LEVEL_COUNT
  decide

open PriceLevelArray

namespace PriceLevelArray

variable {n : ℕ} {a : PriceLevelArray n} {price : UInt32}

/-- `prev_occupied_below` finds the highest occupied level below. -/
theorem prevOccupiedBelow_spec (hn : n ≤ NPOS) (hvalid : a.occupied.Valid)
    (hrange : a.InRange price) :
    (a.prevOccupiedBelow price = 0 ∧ ∀ i, a.occupied.test i = true → a.indexOf price ≤ i) ∨
      ∃ i < n, a.prevOccupiedBelow price = a.priceOf i ∧ a.occupied.test i = true ∧
        i < a.indexOf price ∧
        ∀ j, a.occupied.test j = true → j < a.indexOf price → j ≤ i := by
  rw [prevOccupiedBelow]
  dsimp only
  split_ifs with hzero hnone
  · exact .inl ⟨rfl, fun i _ => hzero ▸ Nat.zero_le i⟩
  all_goals
    have hprev := OccupancyBitmap.prevSet_isPrev (i := a.indexOf price - 1) hn hvalid
      ((Nat.sub_le _ _).trans_lt hrange)
  · rw [hnone] at hprev
    cases hprev with
    | none hlt => exact .inl ⟨rfl, fun i hi => by have := hlt i hi; omega⟩
    | found hset => exact absurd (hvalid.lt hset) (by omega)
  · generalize a.occupied.prevSet (a.indexOf price - 1) = r at hprev hnone
    cases hprev with
    | none => exact absurd rfl hnone
    | found hset hle hgreatest =>
      exact .inr ⟨r, hvalid.lt hset, rfl, hset, by omega, fun j hj hlt =>
        hgreatest j hj (by omega)⟩

/-- `next_occupied_above` finds the lowest occupied level above. -/
theorem nextOccupiedAbove_spec (price : UInt32) (hn : n ≤ NPOS) (hvalid : a.occupied.Valid) :
    (a.nextOccupiedAbove price = 0 ∧ ∀ i, a.occupied.test i = true → i ≤ a.indexOf price) ∨
      ∃ i < n, a.nextOccupiedAbove price = a.priceOf i ∧ a.occupied.test i = true ∧
        a.indexOf price < i ∧
        ∀ j, a.occupied.test j = true → a.indexOf price < j → i ≤ j := by
  have hnext := OccupancyBitmap.nextSet_isNext (i := a.indexOf price + 1) hn hvalid
  rw [nextOccupiedAbove]
  split_ifs with hnone
  · rw [hnone] at hnext
    cases hnext with
    | none hlt => exact .inl ⟨rfl, fun i hi => by have := hlt i hi; omega⟩
    | found hset => exact absurd (hvalid.lt hset) (by omega)
  · generalize a.occupied.nextSet (a.indexOf price + 1) = r at hnext hnone
    cases hnext with
    | none => exact absurd rfl hnone
    | found hset hle hleast =>
      exact .inr ⟨r, hvalid.lt hset, rfl, hset, by omega, fun j hj hlt =>
        hleast j hj (by omega)⟩

end PriceLevelArray

namespace BookSide

variable {side : Side} {b : BookSide} {price : UInt32}

/-- What `beyond` finds among the levels that `P` holds of: the best of those beyond `price`. -/
inductive Beyond (side : Side) (b : BookSide) (P : ℕ → Prop) (price : UInt32) : UInt32 → Prop
  | none : (∀ i, P i → ¬better side (b.levels.indexOf price) i) →
      Beyond side b P price (emptyBest side)
  | found {i : ℕ} : P i → i < LEVEL_COUNT → better side (b.levels.indexOf price) i →
      (∀ j, P j → better side (b.levels.indexOf price) j → ¬better side j i) →
      Beyond side b P price (b.levels.priceOf i)

/-- **The search for the next level.** -/
theorem beyond_spec (side : Side) (hvalid : b.levels.occupied.Valid)
    (hbase : b.levels.basePrice.toNat ≤ FEED_PRICE_MAX) (hrange : b.levels.InRange price) :
    Beyond side b (fun i => b.levels.occupied.test i = true) price (b.beyond side price) := by
  have hnpos : LEVEL_COUNT ≤ NPOS := levelCount_le.trans (by decide)
  cases side with
  | buy =>
    rw [beyond]
    rcases prevOccupiedBelow_spec hnpos hvalid hrange with
      ⟨heq, hnone⟩ | ⟨i, hi, heq, hset, hlt, hgreatest⟩
    · rw [heq]
      exact .none fun i hi => Nat.not_lt.2 (hnone i hi)
    · rw [heq]
      exact .found hset hi hlt fun j hj hjlt => Nat.not_lt.2 (hgreatest j hj hjlt)
  | sell =>
    rw [beyond]
    rcases nextOccupiedAbove_spec price hnpos hvalid with
      ⟨heq, hnone⟩ | ⟨i, hi, heq, hset, hlt, hleast⟩
    · rw [heq]
      exact .none fun i hi => Nat.not_lt.2 (hnone i hi)
    · -- a level above another one does not have price 0
      have hprice : b.levels.priceOf i ≠ 0 := by
        intro hzero
        have := toNat_priceOf levelCount_le hbase hi
        rw [hzero, UInt32.toNat_zero] at this
        omega
      rw [heq, if_pos hprice]
      exact .found hset hi hlt fun j hj hjlt => Nat.not_lt.2 (hleast j hj hjlt)

end BookSide

open BookSide

/-- Asks never look like an empty side; bids do only at price 0, and no higher. -/
theorem priceOf_ne_emptyBest {side : Side} {n i j : ℕ} {a : PriceLevelArray n} (hn : n ≤ 2 ^ 20)
    (hbase : a.basePrice.toNat ≤ FEED_PRICE_MAX) (hi : i < n) (hj : j < n)
    (hij : ¬better side j i) (h : a.priceOf j ≠ emptyBest side) :
    a.priceOf i ≠ emptyBest side := by
  have hpi := toNat_priceOf hn hbase hi
  have hpj := toNat_priceOf hn hbase hj
  rw [ne_eq, ← UInt32.toNat_inj] at h ⊢
  simp only [FEED_PRICE_MAX] at hbase
  cases side with
  | buy =>
    rw [show (emptyBest .buy).toNat = 0 from rfl] at h ⊢
    simp only [better] at hij
    omega
  | sell =>
    rw [show (emptyBest .sell).toNat = 4294967295 from rfl]
    omega

/-! ### The best price of a side -/

/-- A side has an order at this price. -/
def Quotes (entries : Multiset (UInt64 × OrderEntry)) (side : Side) (p : UInt32) : Prop :=
  ∃ e ∈ entries, e.2.side = side ∧ e.2.price = p

/-- The best price is the sentinel of an empty side, or lies in the best level of the prices `Q`. -/
inductive Top (side : Side) (Q : UInt32 → Prop) (b : BookSide) : Prop
  | none : (∀ p, ¬Q p) → b.best = emptyBest side → Top side Q b
  | some {p : UInt32} : Q p → b.levels.indexOf b.best = b.levels.indexOf p →
      b.levels.basePrice.toNat ≤ b.best.toNat → b.best ≠ emptyBest side →
      (∀ q, Q q → ¬better side (b.levels.indexOf q) (b.levels.indexOf p)) → Top side Q b

/-- Every order has a feed price from the base on. -/
structure Window (side : Side) (Q : UInt32 → Prop) (b : BookSide) : Prop where
  base_le : b.levels.basePrice.toNat ≤ FEED_PRICE_MAX
  le_price : ∀ p, Q p → b.levels.basePrice.toNat ≤ p.toNat
  pos : ∀ p, Q p → 0 < p.toNat
  price_le : ∀ p, Q p → p.toNat ≤ FEED_PRICE_MAX

/-- Orders may leave, and an order of the window may join. -/
theorem Window.mono {side : Side} {Q Q' : UInt32 → Prop} {b c : BookSide} (h : Window side Q b)
    (hbase : c.levels.basePrice = b.levels.basePrice)
    (hQ : ∀ p, Q' p → Q p ∨
      b.levels.basePrice.toNat ≤ p.toNat ∧ 0 < p.toNat ∧ p.toNat ≤ FEED_PRICE_MAX) :
    Window side Q' c := by
  refine ⟨hbase ▸ h.base_le, fun p hp => ?_, fun p hp => ?_, fun p hp => ?_⟩ <;>
    rcases hQ p hp with hq | ⟨hle, hpos, hmax⟩
  · exact hbase ▸ h.le_price p hq
  · exact hbase ▸ hle
  · exact h.pos p hq
  · exact hpos
  · exact h.price_le p hq
  · exact hmax

section Quotes

variable {entries : Multiset (UInt64 × OrderEntry)} {side : Side} {e : UInt64 × OrderEntry}
  {p : UInt32}

theorem quotes_zero : ¬Quotes 0 side p := fun ⟨e, he, _⟩ => Multiset.notMem_zero e he

theorem quotes_cons (hside : e.2.side = side) :
    Quotes (e ::ₘ entries) side p ↔ Quotes entries side p ∨ p = e.2.price := by
  simp only [Quotes, Multiset.mem_cons, or_and_right, exists_or, exists_eq_left, hside, true_and]
  rw [or_comm, eq_comm]

theorem quotes_cons_other (hside : e.2.side ≠ side) :
    Quotes (e ::ₘ entries) side p ↔ Quotes entries side p := by
  simp [Quotes, Multiset.mem_cons, or_and_right, exists_or, hside]

/-- Only side and price of an order matter. -/
theorem quotes_exchange {e' : UInt64 × OrderEntry} (hside : e'.2.side = e.2.side)
    (hprice : e'.2.price = e.2.price) :
    Quotes (e' ::ₘ entries) side p ↔ Quotes (e ::ₘ entries) side p := by
  by_cases h : e.2.side = side
  · rw [quotes_cons h, quotes_cons (hside.trans h), hprice]
  · rw [quotes_cons_other h, quotes_cons_other (hside ▸ h)]

/-- A level holds an order iff its index has a quote. -/
theorem held_ne_zero_iff {n : ℕ} {a : PriceLevelArray n} {i : ℕ} :
    a.held entries side i ≠ 0 ↔ ∃ q, Quotes entries side q ∧ a.indexOf q = i := by
  constructor
  · intro hne
    obtain ⟨e, he⟩ := Multiset.exists_mem_of_ne_zero hne
    obtain ⟨hmem, hside, hindex⟩ := mem_held.1 he
    exact ⟨e.2.price, ⟨e, hmem, hside, rfl⟩, hindex⟩
  · rintro ⟨q, ⟨e, he, hside, rfl⟩, hindex⟩ hzero
    exact Multiset.notMem_zero e (hzero ▸ mem_held.2 ⟨he, hside, hindex⟩)

end Quotes

namespace Top

variable {side : Side} {Q Q' : UInt32 → Prop} {b : BookSide} {price shares : UInt32}

theorem congr (h : Top side Q b) (hQ : ∀ p, Q p ↔ Q' p) : Top side Q' b := by
  have heq : Q = Q' := funext fun p => propext (hQ p)
  exact heq ▸ h

/-- The best price is better than the sentinel. -/
theorem better_emptyBest (side : Side) (hpos : 0 < price.toNat)
    (hle : price.toNat ≤ FEED_PRICE_MAX) :
    better side price (emptyBest side) := by
  simp only [FEED_PRICE_MAX] at hle
  cases side with
  | buy => exact UInt32.lt_iff_toNat_lt.2 hpos
  | sell =>
    refine UInt32.lt_iff_toNat_lt.2 ?_
    rw [emptyBest, show PRICE_MAX.toNat = 4294967295 from rfl]
    omega

theorem ne_emptyBest (hpos : 0 < price.toNat) (hle : price.toNat ≤ FEED_PRICE_MAX) :
    price ≠ emptyBest side := by
  intro heq
  have hbetter := better_emptyBest side hpos hle
  rw [heq] at hbetter
  cases side <;> exact absurd hbetter (by decide)

/-- An order joins a side. -/
theorem join (h : Top side Q b) (hbase : b.levels.basePrice.toNat ≤ price.toNat)
    (hwindow : Window side Q b) (hpos : 0 < price.toNat) (hle : price.toNat ≤ FEED_PRICE_MAX) :
    Top side (fun p => Q p ∨ p = price) (b.join side price shares) := by
  have hbest : (b.join side price shares).best =
      if better side price b.best then price else b.best := rfl
  -- where the new price becomes the best one, no level is better than its level
  have hnew : better side price b.best → (∀ q, Q q → ¬better side (b.levels.indexOf q)
      (b.levels.indexOf price)) →
        Top side (fun p => Q p ∨ p = price) (b.join side price shares) := by
    intro hbetter hno
    rw [if_pos hbetter] at hbest
    refine .some (p := price) (.inr rfl) (by rw [hbest]) ?_ ?_ ?_
    · rwa [hbest, basePrice_join]
    · rw [hbest]
      exact ne_emptyBest hpos hle
    · rintro q (hq | rfl) <;> rw [indexOf_join]
      · exact hno q hq
      · exact better_irrefl
  cases h with
  | none hnone heq =>
    exact hnew (heq ▸ better_emptyBest side hpos hle) fun q hq => absurd hq (hnone q)
  | @some p hp hindex hbest_le hne hno =>
    by_cases hbetter : better side price b.best
    · refine hnew hbetter fun q hq hq' => ?_
      refine not_better_trans (hno q hq) ?_ hq'
      rw [← hindex]
      refine not_better_indexOf hbest_le hbase fun hworse => ?_
      cases side <;> simp only [better, UInt32.lt_iff_toNat_lt] at hbetter hworse <;> omega
    · rw [if_neg hbetter] at hbest
      refine .some (p := p) (.inl hp) ?_ ?_ ?_ ?_
      · rw [hbest, indexOf_join]
        exact hindex
      · rwa [hbest, basePrice_join]
      · rwa [hbest]
      · rintro q (hq | rfl) <;> rw [indexOf_join]
        · exact hno q hq
        · rw [← hindex]
          exact not_better_indexOf hbase hbest_le hbetter

/-- **No phantom**: where all quotes left are beyond the level that is emptied, its price is the one
shown, and if quotes are left, one is at a level whose price does not look like an empty side. -/
def Seen (side : Side) (Q : UInt32 → Prop) (b : BookSide) (price : UInt32) : Prop :=
  (∀ q, Q q → better side (b.levels.indexOf price) (b.levels.indexOf q)) →
    price = b.best ∧ ((∃ q, Q q) → ∃ q, Q q ∧
      b.levels.priceOf (b.levels.indexOf q) ≠ emptyBest side)

/-- The best price moves on to the next level, where all quotes are beyond `price`. -/
theorem moveOn (hbase : b.levels.basePrice.toNat ≤ FEED_PRICE_MAX)
    (hvalid : b.levels.occupied.Valid) (hrange : b.levels.InRange price)
    (hmarked : ∀ i, b.levels.occupied.test i = true ↔ ∃ q, Q q ∧ b.levels.indexOf q = i)
    (hall : ∀ q, Q q → better side (b.levels.indexOf price) (b.levels.indexOf q))
    (hshown : (∃ q, Q q) → ∃ q, Q q ∧ b.levels.priceOf (b.levels.indexOf q) ≠ emptyBest side) :
    Top side Q { b with best := b.beyond side price } := by
  have hn := levelCount_le
  have hbit : ∀ q, Q q → b.levels.occupied.test (b.levels.indexOf q) = true :=
    fun q hq => (hmarked _).2 ⟨q, hq, rfl⟩
  have hspec := beyond_spec side hvalid hbase hrange
  generalize b.beyond side price = best at hspec
  cases hspec with
  | none hnone => exact .none (fun q hq => hnone _ (hbit q hq) (hall q hq)) rfl
  | @found i hset hi hlt hfirst =>
    obtain ⟨q, hq, rfl⟩ := (hmarked i).1 hset
    refine .some hq ?_ ?_ ?_ fun d hd => hfirst _ (hbit d hd) (hall d hd)
    · exact indexOf_priceOf hn hbase hi
    · exact base_le_priceOf hn hbase hi
    · -- a quote at a level with a price of its own bounds the level found
      obtain ⟨d, hd, hdne⟩ := hshown ⟨q, hq⟩
      exact priceOf_ne_emptyBest hn hbase hi (hvalid.lt (hbit d hd))
        (hfirst _ (hbit d hd) (hall d hd)) hdne

/-- The bit of a level that has no quote is cleared, and the best price moves on if it was there. -/
theorem onLevelEmptied (h : Top side (fun p => Q p ∨ p = price) b) (hwindow : Window side Q b)
    (hvalid : b.levels.occupied.Valid) (hrange : b.levels.InRange price)
    (hmarked : ∀ i, (b.levels.occupied.clear (b.levels.indexOf price)).test i = true ↔
      ∃ q, Q q ∧ b.levels.indexOf q = i)
    (hseen : Seen side Q b price) : Top side Q (b.onLevelEmptied side price) := by
  have hclear : b.onLevelEmptied side price = if price = b.best then
      { b with
        levels := b.levels.markEmpty price
        best := BookSide.beyond side { b with levels := b.levels.markEmpty price } price }
      else { b with levels := b.levels.markEmpty price } := rfl
  have hnotp : ∀ q, Q q → b.levels.indexOf q ≠ b.levels.indexOf price := by
    intro q hq heq
    have hset := (hmarked (b.levels.indexOf price)).2 ⟨q, hq, heq⟩
    exact absurd rfl (OccupancyBitmap.test_clear.1 hset).1
  rw [hclear]
  cases h with
  | none hnone => exact absurd (.inr rfl) (hnone price)
  | @some p hp hpindex hbest_le hne hno =>
    by_cases htop : b.levels.indexOf p = b.levels.indexOf price
    · -- where the best level was the one left, every other level is beyond it
      have hall : ∀ q, Q q → better side (b.levels.indexOf price) (b.levels.indexOf q) := by
        intro q hq
        rcases better_or_eq_or_better side (b.levels.indexOf price) (b.levels.indexOf q) with
          hlt | heq | hgt
        · exact hlt
        · exact absurd heq.symm (hnotp q hq)
        · exact absurd (htop ▸ hgt) (hno q (.inl hq))
      obtain ⟨heq, hshown⟩ := hseen hall
      rw [if_pos heq]
      exact moveOn (b := { b with levels := b.levels.markEmpty price }) hwindow.base_le
        hvalid.clear hrange hmarked hall hshown
    · have hpQ : Q p := hp.resolve_right fun heq => htop (by rw [heq])
      have hnebest : price ≠ b.best := fun heq => htop (by rw [heq, hpindex])
      rw [if_neg hnebest]
      exact .some (p := p) hpQ hpindex hbest_le hne fun q hq => hno q (.inl hq)

/-- The check at the end of a handler. -/
theorem settle {entries : Multiset (UInt64 × OrderEntry)}
    (hside : SideInv side entries b (Option.some (b.levels.indexOf price)))
    (hcard : entries.card < 2 ^ 32) (hrange : b.levels.InRange price)
    (hwindow : Window side (Quotes entries side) b)
    (h : Top side (fun p => Quotes entries side p ∨ p = price) b)
    (hseen : Seen side (Quotes entries side) b price) :
    Top side (Quotes entries side) (b.settle side price) := by
  rw [BookSide.settle]
  split_ifs with hzero
  · -- the level is empty now, and its bit goes
    have hempty := (hside.orderCount_eq_zero_iff hcard price).1 hzero
    refine onLevelEmptied h hwindow hside.valid hrange (fun i => ?_) hseen
    rw [OccupancyBitmap.test_clear, hside.marked, ← held_ne_zero_iff]
    rcases eq_or_ne i (b.levels.indexOf price) with rfl | hi
    · simp [hempty]
    · simp [hi, Ne.symm hi]
  · -- another order of the level stands for the one that left
    have hne : b.levels.held entries side (b.levels.indexOf price) ≠ 0 :=
      fun heq => hzero ((hside.orderCount_eq_zero_iff hcard price).2 heq)
    obtain ⟨d, hd, hdindex⟩ := held_ne_zero_iff.1 hne
    cases h with
    | none hnone => exact absurd (.inr rfl) (hnone price)
    | @some p hp hindex hbest_le hbest_ne hno =>
      rcases hp with hp | rfl
      · exact .some hp hindex hbest_le hbest_ne fun q hq => hno q (.inl hq)
      · exact .some hd (hindex.trans hdindex.symm) hbest_le hbest_ne fun q hq =>
          hdindex ▸ hno q (.inl hq)

/-- Only the best price and the base of a side matter. -/
theorem of_eq {c : BookSide} (h : Top side Q b) (hbest : c.best = b.best)
    (hbase : c.levels.basePrice = b.levels.basePrice) : Top side Q c := by
  have hindex : c.levels.indexOf = b.levels.indexOf := by
    funext p
    rw [indexOf, indexOf, hbase]
  cases h with
  | none hnone heq => exact .none hnone (hbest.trans heq)
  | some hp hpindex hle hne hno =>
    refine .some hp ?_ ?_ ?_ ?_
    · rw [hindex, hbest]
      exact hpindex
    · rw [hbase, hbest]
      exact hle
    · rw [hbest]
      exact hne
    · rw [hindex]
      exact hno

/-- A quote that joins beyond the level left is not the best one, so what is shown stays. -/
theorem Seen.join (h : Seen side Q b price) (hprice : b.levels.basePrice.toNat ≤ price.toNat)
    {new : UInt32} (hnew : b.levels.basePrice.toNat ≤ new.toNat) (hQ : Q new) :
    Seen side Q (b.join side new shares) price := by
  have hlevel : (b.join side new shares).levels.priceOf = b.levels.priceOf := by
    funext i
    rw [priceOf, priceOf, basePrice_join]
  intro hall
  rw [indexOf_join] at hall
  obtain ⟨heq, hshown⟩ := h hall
  have hworse := better_of_better_indexOf hprice hnew (hall new hQ)
  have hno : ¬better side new b.best := by
    rw [← heq]
    intro hbetter
    cases side <;> simp only [better, UInt32.lt_iff_toNat_lt] at hbetter hworse <;> omega
  refine ⟨heq.trans (if_neg hno).symm, ?_⟩
  rw [indexOf_join, hlevel]
  exact hshown

end Top

/-! ### Calls that leave no phantom -/

/-- What is left of the orders when a call takes `e` from a book that also stores `rest`. -/
inductive Leaves (b : OrderBook) (e : UInt64 × OrderEntry)
    (rest : Multiset (UInt64 × OrderEntry)) : BookOp → Multiset (UInt64 × OrderEntry) → Prop
  | removed {op : BookOp} : op.Removes e → Leaves b e rest op rest
  | replaced {newRef : UInt64} {newPrice newShares : UInt32} :
      (b.sides e.2.side).levels.InRange newPrice →
      Leaves b e rest (.replace e.1 newRef newPrice newShares)
        ((newRef, ⟨newPrice, newShares, e.2.side⟩) ::ₘ rest)
  | lost {newRef : UInt64} {newPrice newShares : UInt32} :
      ¬(b.sides e.2.side).levels.InRange newPrice →
      Leaves b e rest (.replace e.1 newRef newPrice newShares) rest

namespace BookOp

/-- The prices of a call are feed prices. -/
def Priced : BookOp → Prop
  | .add _ _ price _ | .replace _ _ price _ => 0 < price.toNat ∧ price.toNat ≤ FEED_PRICE_MAX
  | _ => True

instance : (op : BookOp) → Decidable op.Priced
  | .add .. | .replace .. => inferInstanceAs (Decidable (_ ∧ _))
  | .execute .. | .executeWithPrice .. | .cancel .. | .delete .. => instDecidableTrue

/-- **The condition on a call**: where it empties the top level of a side, the order that leaves has
exactly the price shown, and if orders of the side are left, one is at a level whose price does not
look like an empty side. -/
def TopSeen (b : OrderBook) (op : BookOp) : Prop :=
  ∀ e rest left, b.entries = e ::ₘ rest → Leaves b e rest op left →
    (∀ p, Quotes left e.2.side p → better e.2.side
      ((b.sides e.2.side).levels.indexOf e.2.price) ((b.sides e.2.side).levels.indexOf p)) →
    e.2.price = (b.sides e.2.side).best ∧
      ((∃ p, Quotes left e.2.side p) → ∃ p, Quotes left e.2.side p ∧
        (b.sides e.2.side).levels.priceOf ((b.sides e.2.side).levels.indexOf p) ≠
          emptyBest e.2.side)

end BookOp

/-- The best prices of a book are those of its orders. -/
structure TopInv (b : OrderBook) : Prop where
  window : ∀ side, Window side (Quotes b.entries side) (b.sides side)
  top : ∀ side, Top side (Quotes b.entries side) (b.sides side)

namespace TopInv

variable {b : OrderBook}

theorem init (stockId : UInt64) {basePrice : UInt32} (hbase : basePrice.toNat ≤ FEED_PRICE_MAX) :
    TopInv (.init stockId basePrice) := by
  have hentries : (OrderBook.init stockId basePrice).entries = 0 := OrderMap.entries_empty _
  refine ⟨fun side => ⟨?_, fun p hp => ?_, fun p hp => ?_, fun p hp => ?_⟩, fun side => ?_⟩
  · change (basePrice / PRICE_TICK * PRICE_TICK).toNat ≤ FEED_PRICE_MAX
    have hdiv := Nat.div_mul_le_self basePrice.toNat 100
    rw [UInt32.toNat_mul, UInt32.toNat_div, show PRICE_TICK.toNat = 100 from rfl]
    exact (Nat.mod_le _ _).trans (hdiv.trans hbase)
  all_goals rw [hentries] at *
  · exact absurd hp quotes_zero
  · exact absurd hp quotes_zero
  · exact absurd hp quotes_zero
  · exact .none (fun p => quotes_zero) rfl

/-- A change of the map and of one side. -/
theorem setSide (h : TopInv b) {side : Side} {s : BookSide} {m : OrderMap}
    {entries : Multiset (UInt64 × OrderEntry)} {drops : ℕ} (hm : Stores m entries)
    (hwindow : Window side (Quotes entries side) s) (htop : Top side (Quotes entries side) s)
    (hother : ∀ other ≠ side, ∀ p, Quotes entries other p ↔ Quotes b.entries other p) :
    TopInv { b.setSide side s with orders := m, drops := drops } := by
  obtain ⟨-, rfl⟩ := hm
  refine ⟨fun other => ?_, fun other => ?_⟩ <;> rw [OrderBook.sides_setSide]
  · split_ifs with heq
    · exact heq ▸ hwindow
    · have hsame := hother other heq
      have hb := h.window other
      exact ⟨hb.base_le, fun p hp => hb.le_price p ((hsame p).1 hp),
        fun p hp => hb.pos p ((hsame p).1 hp), fun p hp => hb.price_le p ((hsame p).1 hp)⟩
  · split_ifs with heq
    · exact heq ▸ htop
    · exact (h.top other).congr fun p => (hother other heq p).symm

end TopInv

section Removal

variable {b : OrderBook} {e : UInt64 × OrderEntry} {rest : Multiset (UInt64 × OrderEntry)}
  {m : OrderMap} {drops : ℕ}

/-- The quotes before an order left, those of the side it was on. -/
theorem quotes_taken (hentries : b.entries = e ::ₘ rest) (p : UInt32) :
    Quotes b.entries e.2.side p ↔ Quotes rest e.2.side p ∨ p = e.2.price :=
  hentries ▸ quotes_cons rfl

/-- A book without an order. -/
theorem Window.without (h : TopInv b) (hentries : b.entries = e ::ₘ rest) :
    Window e.2.side (Quotes rest e.2.side) ((b.sides e.2.side).without e.2) :=
  (h.window e.2.side).mono rfl fun p hp => .inl ((quotes_taken hentries p).2 (.inl hp))

/-- The best price is still that of the order that left. -/
theorem Top.without (h : TopInv b) (hentries : b.entries = e ::ₘ rest) :
    Top e.2.side (fun p => Quotes rest e.2.side p ∨ p = e.2.price)
      ((b.sides e.2.side).without e.2) :=
  ((h.top e.2.side).of_eq (c := (b.sides e.2.side).without e.2) rfl rfl).congr
    (quotes_taken hentries)

/-- An order leaves the book. -/
theorem topInv_removed (hb : BookInv b) (h : TopInv b) (hentries : b.entries = e ::ₘ rest)
    (hm : Stores m rest)
    (hleft : Top.Seen e.2.side (Quotes rest e.2.side) (b.sides e.2.side) e.2.price) :
    TopInv { b.setSide e.2.side
      (((b.sides e.2.side).without e.2).settle e.2.side e.2.price) with
        orders := m, drops := drops } := by
  have hside := hb.sides e.2.side
  have hrange : (b.sides e.2.side).levels.InRange e.2.price :=
    hside.inRange e (hentries ▸ Multiset.mem_cons_self e rest) rfl
  have hcard : rest.card < 2 ^ 32 := by
    refine lt_trans ?_ (hb.card_lt.trans (UInt32.toNat_lt _))
    rw [hentries, Multiset.card_cons]
    exact Nat.lt_succ_self _
  have hwindow := Window.without h hentries
  rw [hentries] at hside
  refine h.setSide hm ?_ ?_ fun other hne p => ?_
  · exact hwindow.mono basePrice_settle fun p hp => .inl hp
  · exact Top.settle (hside.without rfl) hcard hrange hwindow (Top.without h hentries) hleft
  · rw [hentries]
    exact (quotes_cons_other (Ne.symm hne)).symm

/-- An order is replaced by one in range. -/
theorem topInv_replaced {newRef : UInt64} {newPrice newShares : UInt32} (hb : BookInv b)
    (h : TopInv b) (hrange : (b.sides e.2.side).levels.InRange newPrice)
    (hpriced : 0 < newPrice.toNat ∧ newPrice.toNat ≤ FEED_PRICE_MAX)
    (hentries : b.entries = e ::ₘ rest)
    (hm : Stores m ((newRef, ⟨newPrice, newShares, e.2.side⟩) ::ₘ rest))
    (hleft : Top.Seen e.2.side (Quotes ((newRef, ⟨newPrice, newShares, e.2.side⟩) ::ₘ rest)
      e.2.side) (b.sides e.2.side) e.2.price) :
    TopInv { b.setSide e.2.side
      ((((b.sides e.2.side).without e.2).join e.2.side newPrice newShares).settle e.2.side
        e.2.price) with orders := m, drops := drops } := by
  obtain ⟨d, hd⟩ : ∃ d : UInt64 × OrderEntry, d = (newRef, ⟨newPrice, newShares, e.2.side⟩) :=
    ⟨_, rfl⟩
  rw [← hd] at hm hleft
  have hdside : d.2.side = e.2.side := by rw [hd]
  have hdprice : d.2.price = newPrice := by rw [hd]
  have hside := hb.sides e.2.side
  have hwindow := h.window e.2.side
  have hold : (b.sides e.2.side).levels.InRange e.2.price :=
    hside.inRange e (hentries ▸ Multiset.mem_cons_self e rest) rfl
  have hbound : rest.card + 1 < 2 ^ 32 := by
    rw [← Multiset.card_cons e, ← hentries]
    exact hb.card_lt.trans (UInt32.toNat_lt _)
  have hle := hrange.base_le levelCount_le hwindow.base_le hpriced.2
  have hQ := quotes_taken hentries
  have hQd : ∀ p, Quotes (d ::ₘ rest) e.2.side p ↔ Quotes rest e.2.side p ∨ p = newPrice :=
    fun p => hdprice ▸ quotes_cons hdside
  -- joining a level does not move the window, so indices stay
  have hindex : (((b.sides e.2.side).without e.2).join e.2.side newPrice
      newShares).levels.indexOf = (b.sides e.2.side).levels.indexOf := indexOf_join
  have hjoined : SideInv e.2.side (d ::ₘ rest)
      (((b.sides e.2.side).without e.2).join e.2.side newPrice newShares)
      (some ((((b.sides e.2.side).without e.2).join e.2.side newPrice newShares).levels.indexOf
        e.2.price)) := by
    rw [hentries] at hside
    have hjoined := (hside.without rfl).join (e := d) (Nat.lt_of_succ_lt hbound) hdside
      (hdprice ▸ hrange)
    rwa [hindex, ← show d.2.shares = newShares by rw [hd], ← hdprice]
  have htop : Top e.2.side (fun p => Quotes (d ::ₘ rest) e.2.side p ∨ p = e.2.price)
      (((b.sides e.2.side).without e.2).join e.2.side newPrice newShares) := by
    refine ((Top.without h hentries).join hle ?_ hpriced.1 hpriced.2).congr fun p => ?_
    · exact hwindow.mono rfl fun p hp => .inl ((hQ p).2 hp)
    · rw [hQd, or_right_comm]
  have hseen : Top.Seen e.2.side (Quotes (d ::ₘ rest) e.2.side)
      (((b.sides e.2.side).without e.2).join e.2.side newPrice newShares) e.2.price :=
    Top.Seen.join (b := (b.sides e.2.side).without e.2) hleft
      (hwindow.le_price _ ((hQ _).2 (.inr rfl))) hle ((hQd _).2 (.inr rfl))
  have hjwindow : Window e.2.side (Quotes (d ::ₘ rest) e.2.side)
      (((b.sides e.2.side).without e.2).join e.2.side newPrice newShares) := by
    refine hwindow.mono basePrice_join fun p hp => ?_
    rcases (hQd p).1 hp with hp | rfl
    · exact .inl ((hQ p).2 (.inl hp))
    · exact .inr ⟨hle, hpriced⟩
  refine h.setSide hm ?_ ?_ fun other hne p => ?_
  · exact hjwindow.mono basePrice_settle fun p hp => .inl hp
  · exact Top.settle hjoined (by rwa [Multiset.card_cons])
      (by rwa [PriceLevelArray.InRange, hindex]) hjwindow htop hseen
  · rw [hentries]
    exact (quotes_cons_other (hdside ▸ Ne.symm hne)).trans (quotes_cons_other (Ne.symm hne)).symm

end Removal

/-- **The step lemma**: a call with feed prices that leaves no phantom keeps the best prices. -/
theorem Effect.topInv {b b' : OrderBook} {op : BookOp} (he : Effect b op b') (hb : BookInv b)
    (h : TopInv b) (hpriced : op.Priced) (hseen : op.TopSeen b) : TopInv b' := by
  have hcapacity : b.entries.card < 2 ^ 32 := hb.card_lt.trans (UInt32.toNat_lt _)
  cases he with
  | dropped => exact ⟨h.window, h.top⟩
  | unknown => exact h
  | @added ref side price shares m hrange hm =>
    have hle := hrange.base_le levelCount_le (h.window side).base_le hpriced.2
    have hQ : ∀ p, Quotes ((ref, ⟨price, shares, side⟩) ::ₘ b.entries) side p ↔
        Quotes b.entries side p ∨ p = price := fun p => quotes_cons rfl
    refine h.setSide hm ?_ ?_ fun other hne p => ?_
    · refine (h.window side).mono basePrice_join fun p hp => ?_
      rcases (hQ p).1 hp with hp | rfl
      · exact .inl hp
      · exact .inr ⟨hle, hpriced⟩
    · exact ((h.top side).join hle (h.window side) hpriced.1 hpriced.2).congr fun p => (hQ p).symm
    · exact quotes_cons_other (Ne.symm hne)
  | @reduced _ e rest shares m _ _ hentries hm =>
    obtain ⟨e', he'⟩ : ∃ e' : UInt64 × OrderEntry,
        e' = (e.1, { e.2 with shares := e.2.shares - shares }) := ⟨_, rfl⟩
    -- a reduced order still quotes its price
    have hsame : ∀ other p, Quotes (e' ::ₘ rest) other p ↔ Quotes b.entries other p :=
      fun other p => hentries ▸ quotes_exchange (by rw [he']) (by rw [he'])
    rw [← he'] at hm
    refine h.setSide hm ?_ ?_ fun other _ p => hsame other p
    · exact (h.window e.2.side).mono rfl fun p hp => .inl ((hsame _ p).1 hp)
    · exact ((h.top e.2.side).of_eq (c := (b.sides e.2.side).reduce e.2.price shares) rfl
        rfl).congr fun p => (hsame _ p).symm
  | @removed _ e rest m hremoves hentries hm =>
    have hleft := hseen e rest rest hentries (.removed hremoves)
    exact topInv_removed hb h hentries hm hleft
  | @lost newRef newPrice newShares e rest m hrange hentries hm =>
    have hleft := hseen e rest rest hentries (.lost hrange)
    exact topInv_removed hb h hentries hm hleft
  | @replaced newRef newPrice newShares e rest m hrange hentries hm =>
    have hleft := hseen e rest _ hentries (.replaced hrange)
    exact topInv_replaced hb h hrange hpriced hentries hm hleft

/-! ### The shown top over all runs -/

/-- A book as `PrimaryFeed` seeds it: the base price is below a price of the feed. -/
def seededBook : Machine OrderBook BookOp where
  Init b := ∃ stockId basePrice, basePrice.toNat ≤ FEED_PRICE_MAX ∧ b = .init stockId basePrice
  step := BookOp.run

variable {b : OrderBook}

theorem seededBook_invariants {cond : OrderBook → BookOp → Prop}
    (hcond : ∀ b op, cond b op → op.Allowed b ∧ op.Priced ∧ op.TopSeen b)
    (hb : seededBook.ReachableWhen cond b) : BookInv b ∧ TopInv b := by
  refine hb.invariant (P := fun b => BookInv b ∧ TopInv b) (fun b hinit => ?_)
    fun b op b' _ hc hrun h => ?_
  · obtain ⟨stockId, basePrice, hbase, rfl⟩ := hinit
    exact ⟨BookInv.init stockId basePrice, TopInv.init stockId hbase⟩
  · obtain ⟨hinv, htop⟩ := h
    obtain ⟨hallowed, hpriced, hseen⟩ := hcond b op hc
    obtain ⟨b₁, hrun₁, heffect⟩ := hinv.run_effect hallowed
    obtain rfl : b₁ = b' := Option.some.inj (hrun₁.symm.trans hrun)
    exact ⟨heffect.bookInv hinv hallowed, heffect.topInv hinv htop hpriced hseen⟩

/-- What a side of the book shows as its best price: the sentinel iff the side is empty, and
otherwise a price in the best level with an order. -/
def ShowsTop (b : OrderBook) (side : Side) : Prop :=
  ((b.sides side).best = emptyBest side ↔ ∀ e ∈ b.entries, e.2.side ≠ side) ∧
    ((b.sides side).best ≠ emptyBest side →
      0 < ((b.sides side).levels.level (b.sides side).best).orderCount.toNat ∧
        ∀ i, 0 < ((b.sides side).levels.levels i).orderCount.toNat →
          ¬better side i ((b.sides side).levels.indexOf (b.sides side).best))

theorem TopInv.showsTop (hb : BookInv b) (h : TopInv b) (side : Side) : ShowsTop b side := by
  have hcount : ∀ i, 0 < ((b.sides side).levels.levels i).orderCount.toNat ↔
      ∃ q, Quotes b.entries side q ∧ (b.sides side).levels.indexOf q = i := by
    intro i
    rw [← held_ne_zero_iff, ← Nat.ne_zero_iff_zero_lt]
    refine not_congr (Iff.trans ?_ (tally_orderCount_eq_zero
      (card_held_le.trans_lt (hb.card_lt.trans (UInt32.toNat_lt _)))))
    rw [(hb.sides side).tallied, ← UInt32.toNat_inj, UInt32.toNat_zero]
  cases h.top side with
  | none hnone heq =>
    refine ⟨iff_of_true heq fun e he hside => hnone e.2.price ⟨e, he, hside, rfl⟩, fun hne => ?_⟩
    exact absurd heq hne
  | @some p hp hindex _ hne hno =>
    refine ⟨iff_of_false hne fun hempty => ?_, fun _ => ⟨?_, fun i hi => ?_⟩⟩
    · obtain ⟨e, he, hside, -⟩ := hp
      exact hempty e he hside
    · rw [PriceLevelArray.level, hindex]
      exact (hcount _).2 ⟨p, hp, rfl⟩
    · obtain ⟨q, hq, rfl⟩ := (hcount i).1 hi
      rw [hindex]
      exact hno q hq

/-- **The shown top of book is never a phantom** in the runs whose calls have feed prices and leave
none, sub-penny prices included. -/
theorem shows_top
    (hb : seededBook.ReachableWhen (fun b op => op.Allowed b ∧ op.Priced ∧ op.TopSeen b) b)
    (side : Side) : ShowsTop b side := by
  obtain ⟨hinv, htop⟩ := seededBook_invariants (fun _ _ h => h) hb
  exact htop.showsTop hinv side

namespace BookOp

/-- The prices of a call are in range. -/
def Ranged (b : OrderBook) : BookOp → Prop
  | .add _ _ price _ | .replace _ _ price _ =>
    (b.sides .buy).levels.InRange price ∧ (b.sides .sell).levels.InRange price
  | _ => True

instance (b : OrderBook) : (op : BookOp) → Decidable (op.Ranged b)
  | .add .. | .replace .. => inferInstanceAs (Decidable (_ ∧ _))
  | .execute .. | .executeWithPrice .. | .cancel .. | .delete .. => instDecidableTrue

/-- Executed and cancelled shares are at most the order's. -/
def Covered (b : OrderBook) (op : BookOp) : Prop :=
  ∀ e ∈ b.entries, ∀ shares, op.taking = some (e.1, shares) → shares.toNat ≤ e.2.shares.toNat

end BookOp

/-- An ask below one cent's resolution comes and goes. -/
theorem shows_top_deleted :
    ∃ b : OrderBook,
      seededBook.exec (.init 1 999900) [.add 1 .sell 1000050 100, .delete 1] = some b ∧
        ShowsTop b .sell := by
  have hread : ((OrderBook.init 1 999900).onAdd 1 .sell 1000050 100).map
      (fun b => ((b.sides .sell).best, (b.onDelete 1).isSome)) = some (1000050, true) := by
    decide +kernel
  have hrange : ((OrderBook.init 1 999900).sides .sell).levels.InRange 1000050 := by
    decide +kernel
  have hinv := BookInv.init 1 999900
  have hadd : (BookOp.add 1 .sell 1000050 100).Allowed (.init 1 999900) :=
    hinv.allowed_of_fresh (BookInv.room_init (by decide)) (by decide +kernel)
  obtain ⟨b₁, hrun, heffect⟩ := hinv.run_effect hadd
  have hbest : (b₁.sides .sell).best = 1000050 ∧ (b₁.onDelete 1).isSome = true := by
    rw [show (OrderBook.init 1 999900).onAdd 1 .sell 1000050 100 = some b₁ from hrun] at hread
    simpa using hread
  obtain ⟨b₂, hdelete⟩ := Option.isSome_iff_exists.1 hbest.2
  -- the book holds just the one order
  have hentries : b₁.entries = {(1, ⟨1000050, 100, .sell⟩)} := by
    cases heffect with
    | dropped hout => exact absurd hrange hout
    | added _ hm =>
      refine hm.entries_eq.trans ?_
      rw [show (OrderBook.init 1 999900).entries = 0 from OrderMap.entries_empty _]
      rfl
    | unknown htarget => cases htarget
    | reduced htaking => cases htaking
    | removed hremoves => rcases hremoves with h | h <;> cases h
  have hseen : (BookOp.delete 1).TopSeen b₁ := by
    intro e rest left hcons hleaves _
    rw [hentries, ← Multiset.cons_zero] at hcons
    obtain ⟨rfl, rfl⟩ : e = (1, ⟨1000050, 100, .sell⟩) ∧ rest = 0 := by
      have hcard := congrArg Multiset.card hcons
      rw [Multiset.card_cons, Multiset.card_cons, Multiset.card_zero] at hcard
      have hrest : rest = 0 := Multiset.card_eq_zero.1 (by omega)
      subst hrest
      exact ⟨((Multiset.cons_inj_left 0).1 hcons).symm, rfl⟩
    cases hleaves with
    | removed _ => exact ⟨hbest.1.symm, fun ⟨p, hp⟩ => absurd hp quotes_zero⟩
  have hfresh : seededBook.ReachableWhen (fun b op => op.Allowed b ∧ op.Priced ∧ op.TopSeen b)
      (.init 1 999900) := .init ⟨1, 999900, by decide, rfl⟩
  have hadded : seededBook.ReachableWhen (fun b op => op.Allowed b ∧ op.Priced ∧ op.TopSeen b)
      b₁ := by
    refine .step hfresh ⟨hadd, by decide, fun e rest left _ hleaves => ?_⟩ hrun
    cases hleaves with
    | removed hremoves => rcases hremoves with h | h <;> cases h
  refine ⟨b₂, ?_, shows_top (.step (a := .delete 1) hadded ⟨trivial, trivial, hseen⟩ hdelete) .sell⟩
  have hstep₁ : seededBook.step (.init 1 999900) (.add 1 .sell 1000050 100) = some b₁ := hrun
  have hstep₂ : seededBook.step b₁ (.delete 1) = some b₂ := hdelete
  rw [Machine.exec_cons, hstep₁, Option.bind_some, Machine.exec_cons, hstep₂]
  rfl

/-- Two bids in one level: the one at the shown price leaves first, then the other. The level is
empty and so is the side, and the price is still shown. -/
theorem phantom_bid :
    ∃ b : OrderBook, seededBook.ReachableWhen
        (fun b op => op.Allowed b ∧ op.Priced ∧ op.Ranged b ∧ op.Covered b) b ∧
      ¬ShowsTop b .buy := by
  have hread : ((seededBook.execWhen
      (fun b op => op.Fresh b ∧ op.Priced ∧ op.Ranged b ∧ op.taking = none) (.init 1 0)
      [.add 1 .buy 150 10, .add 2 .buy 120 10, .delete 1, .delete 2]).map fun b =>
        ((b.sides .buy).best, ((b.sides .buy).levels.level (b.sides .buy).best).orderCount)) =
      some (150, 0) := by
    decide +kernel
  obtain ⟨b, hrun, hshown⟩ := Option.map_eq_some_iff.1 hread
  obtain ⟨hbest, hcount⟩ := Prod.mk.inj hshown
  refine ⟨b, ?_, fun hshows => ?_⟩
  · refine reachable_of_execWhen rfl (fun b op hinv hroom hcheck => ?_) _ (BookInv.init 1 0)
      (.init ⟨1, 0, by decide, rfl⟩) (BookInv.room_init (by decide)) hrun
    obtain ⟨hfresh, hpriced, hranged, htaking⟩ := hcheck
    have hallowed := hinv.allowed_of_fresh hroom hfresh
    refine ⟨hallowed, hallowed, hpriced, hranged, fun e _ shares hsome => ?_⟩
    rw [htaking] at hsome
    cases hsome
  · have hpos := (hshows.2 (by rw [hbest]; decide)).1
    rw [hcount] at hpos
    exact absurd hpos (by decide)

end Core

end LowLatencyPipeline
