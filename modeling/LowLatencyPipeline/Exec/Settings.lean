import LowLatencyPipeline.Common.ConfigText
import LowLatencyPipeline.Exec.Assets
import LowLatencyPipeline.Exec.LiveLimits

/-!
# From the config file to the live orders

What exec makes of its config file: `RiskGate::configure`, and `ExecContext::setup` with the
instruments that it registers and the balances that it sets. The floating-point numbers of the C
library are a parameter.

`limits_of_file`: in every run that starts so, the limits in force are those that the file spells,
and the live orders keep to them. A limit whose value is not an integer is not in force, and neither
is a number of open orders that is a multiple of `2 ^ 32`.
-/

namespace LowLatencyPipeline

namespace Exec

universe u

open Common Cut LastWins Strtol

/-! ### What is read -/

/-- What the C library makes of floating-point numbers. -/
structure Numbers where
  strtod : List Char → Option (ℚ × List Char)
  /-- `Money(x * 1e8)` -/
  toMoney : ℚ → ℤ
  /-- `Money(std::llround(x * 1e8))` -/
  toBalance : ℚ → ℤ

/-- `uint32_t(v)`. -/
def toUInt32 (v : ℤ) : ℕ := (v % 2 ^ 32).toNat

/-- The limits that `RiskGate::configure` reads. -/
def RiskLimits.ofConfig (n : Numbers) (c : Config) : RiskLimits where
  maxOrderQty := c.getI64 "risk.max_order_qty".toList 0
  maxOrderNotional := n.toMoney (c.getF64 n.strtod "risk.max_order_notional".toList 0)
  maxPosition := c.getI64 "risk.max_position".toList 0
  maxPositionNotional := n.toMoney (c.getF64 n.strtod "risk.max_position_notional".toList 0)
  maxOpenOrders := toUInt32 (c.getI64 "risk.max_open_orders".toList 0)
  priceBandBp := c.getF64 n.strtod "risk.price_band_bp".toList 0
  spotOnly := c.getBool "risk.spot_only".toList true

/-- `allowed_` after `RiskGate::configure`. -/
def allowedAssets (c : Config) : List Char :=
  setAllowedAssets (c.getStr "risk.allowed_assets".toList "BTC,ETH".toList)

/-- The rate model that `setup` configures. -/
def RateModel.ofConfig (n : Numbers) (c : Config) : RateModel where
  enabled := c.getStr "rate.model".toList "kraken".toList ≠ "none".toList
  params :=
    { max := c.getF64 n.strtod "kraken.rate_max".toList 60
      decayPerS := c.getF64 n.strtod "kraken.rate_decay".toList 1
      maxOpen := toUInt32 (c.getI64 "kraken.max_open_per_pair".toList 60)
      margin := c.getF64 n.strtod "rate.margin".toList 5 }

/-- The loop of `setup` over the rows of the instrument table, from row `i` on. -/
def registerRows (allowed : List Char) :
    List (Instrument × List Char) → ℕ → NamedAccount × RiskGate → NamedAccount × RiskGate
  | [], _, s => s
  | e :: rows, i, s =>
    if (s.1.addInstrument (UInt16.ofNat i) e.1 e.2).2 then
      registerRows allowed rows (i + 1)
        ((s.1.addInstrument (UInt16.ofNat i) e.1 e.2).1,
          s.2.registerInstrument allowed (UInt16.ofNat i) e.2)
    else ((s.1.addInstrument (UInt16.ofNat i) e.1 e.2).1, s.2)

/-- The balances that `setup` sets, and whether all of them are numbers. -/
def setBalances (n : Numbers) (c : Config) (a : NamedAccount) : NamedAccount × Bool :=
  (c.forPrefix "null.balance.".toList).foldl (fun s e =>
    match n.strtod e.2 with
    | some (v, []) => (s.1.setBalance e.1 (n.toBalance v), s.2)
    | _ => (s.1, false)) (a, true)

/-- `setup` of a new context, with the rows of the instrument table, and its result. -/
def ExecContext.setup (x : ExecContext) (n : Numbers) (c : Config)
    (rows : List (Instrument × List Char)) : ExecContext × Bool :=
  let s := registerRows (allowedAssets c) rows 0 (.new, ⟨.ofConfig n c, x.risk.allowedInst⟩)
  let b := setBalances n c s.1
  ({ x with
      instruments := fun i => (rows[i.toNat]?.map Prod.fst).getD (x.instruments i)
      eventClock := c.getStr "exec.clock".toList "event".toList ≠ "wall".toList
      risk := s.2
      rate := .ofConfig n c
      account := b.1.toAccount }, b.2)

/-- The config that `exec_main` runs with, `none` if it gives up. -/
def execConfig : Option (List Char) → Option Config
  | none => some Config.empty
  | some file => if (Config.empty.load file).2 then some (Config.empty.load file).1 else none

/-- Exec as `exec_main` starts it: no instrument is allowed before `setup`, and there are no orders
yet. -/
structure Started {ρ : Type u} (n : Numbers) (file : List Char)
    (rows : List (Instrument × List Char)) (s : Engine ρ) : Prop where
  fresh : s.Fresh
  setup : ∃ (c : Config) (x : ExecContext), execConfig (some file) = some c ∧
    x.risk.allowedInst = (fun _ => false) ∧ x.setup n c rows = (s.x, true)

/-! ### The values of a file -/

/-- What lines say of a key: the value of the last one that names it. -/
def lastValue (said : List (Option (List Char × List Char))) (key : String) : Option (List Char) :=
  said.reduceOption.reverse.lookup key.toList

/-- The last value is an integer, with any underscores between its digits. -/
def SpellsInt (said : List (Option (List Char × List Char))) (key : String) (z : ℤ) : Prop :=
  ∃ v, lastValue said key = some v ∧ Spells (v.filter (· ≠ '_')) z

/-- The number as 64 bits have room for it. -/
def clip (z : ℤ) : ℤ := saturate LLONG_MIN LLONG_MAX z

section Values

variable {said : List (Option (List Char × List Char))} {c : Config} {key : String} {z d : ℤ}

theorem getI64_of_spells (hc : c.entries = ofHistory said.reduceOption)
    (h : SpellsInt said key z) : c.getI64 key.toList d = clip z := by
  obtain ⟨v, hv, hz⟩ := h
  rw [lastValue] at hv
  rw [Config.getI64, hc, lookup_ofHistory, hv]
  dsimp only
  rw [strtol_whole_iff.2 ⟨z, hz, rfl⟩]
  rfl

theorem getI64_default (hc : c.entries = ofHistory said.reduceOption)
    (h : ∀ z, ¬SpellsInt said key z) : c.getI64 key.toList d = d := by
  rw [Config.getI64, hc, lookup_ofHistory]
  cases hv : said.reduceOption.reverse.lookup key.toList with
  | none => rfl
  | some v =>
    dsimp only
    split
    · rename_i v' hread
      obtain ⟨z, hz, -⟩ := strtol_whole_iff.1 hread
      exact absurd ⟨v, hv, hz⟩ (h z)
    · rfl

/-- **A limit is read iff it is an integer.** -/
theorem getI64_ne_iff {β : Type*} (hc : c.entries = ofHistory said.reduceOption) (f : ℤ → β) :
    f (c.getI64 key.toList d) ≠ f d ↔ ∃ z, SpellsInt said key z ∧ f (clip z) ≠ f d := by
  by_cases h : ∃ z, SpellsInt said key z
  · obtain ⟨z, hz⟩ := h
    rw [getI64_of_spells hc hz]
    refine ⟨fun hne => ⟨z, hz, hne⟩, fun ⟨z', hz', hne⟩ => ?_⟩
    rwa [← getI64_of_spells (d := d) hc hz, getI64_of_spells hc hz']
  · rw [not_exists] at h
    rw [getI64_default hc h]
    exact iff_of_false (fun hne => hne rfl) fun ⟨z, hz, _⟩ => h z hz

theorem clip_eq_zero_iff : clip z = 0 ↔ z = 0 := by
  rw [clip, saturate, LLONG_MIN, LLONG_MAX]
  omega

theorem clip_le (h : 0 < z) : clip z ≤ z := by
  rw [clip, saturate, LLONG_MIN, LLONG_MAX]
  omega

theorem toUInt32_ne_iff : toUInt32 z ≠ 0 ↔ z % 2 ^ 32 ≠ 0 := by
  rw [toUInt32]
  omega

/-- A number that 32 bits have room for is kept. -/
theorem toUInt32_clip (h : 0 ≤ z) (hlt : z < 2 ^ 32) : (toUInt32 (clip z) : ℤ) = z := by
  have hclip : clip z = z := by
    refine saturate_of_mem ?_ ?_
    · rw [LLONG_MIN]
      omega
    · rw [LLONG_MAX]
      omega
  rw [hclip, toUInt32]
  omega

theorem getBool_true_eq_false_iff (hc : c.entries = ofHistory said.reduceOption) :
    c.getBool key.toList true = false ↔
      lastValue said key ∈ ["0", "false", "no"].map (some ·.toList) := by
  rw [Config.getBool, hc, lookup_ofHistory, lastValue]
  cases said.reduceOption.reverse.lookup key.toList with
  | none => simp
  | some v =>
    dsimp only
    split_ifs with htrue hfalse
    · rcases htrue with rfl | rfl | rfl <;> decide
    · simpa using hfalse
    · simpa using hfalse

end Values

/-! ### The allowlist -/

/-- A name that is allowed is an item of what is kept of the list. -/
theorem mem_of_assetAllowed {list asset : List Char}
    (h : assetAllowed (setAllowedAssets list) asset = true) :
    asset ∈ (list.take 255).splitOn ',' := by
  rw [assetAllowed, setAllowedAssets, List.any_eq_true] at h
  obtain ⟨item, hitem, hmatch⟩ := h
  obtain ⟨hlen, htake⟩ := of_decide_eq_true hmatch
  rw [← hlen, List.take_length, List.take_of_length_le hlen.ge] at htake
  subst htake
  rcases splitOn_eq_parts ',' (list.take 255) with heq | heq
  · rwa [heq]
  · rw [heq]
    exact List.mem_append_left _ hitem

/-- **Only instruments with an allowed base are allowed.** -/
theorem allowed_registerRows (allowed : List Char) (rows : List (Instrument × List Char)) (i : ℕ)
    (s : NamedAccount × RiskGate) {inst : UInt16}
    (h : (registerRows allowed rows i s).2.allowedInst inst = true) :
    s.2.allowedInst inst = true ∨ ∃ k row symbol, inst = UInt16.ofNat (i + k) ∧
      rows[k]? = some (row, symbol) ∧ assetAllowed allowed (splitSymbol symbol).1 = true := by
  induction rows generalizing i s with
  | nil => exact .inl h
  | cons e rows ih =>
    rw [registerRows] at h
    split_ifs at h
    · rcases ih _ _ h with h | ⟨k, row, symbol, hinst, hrow, hallowed⟩
      · rw [RiskGate.registerInstrument] at h
        dsimp only at h
        by_cases hinst : inst = UInt16.ofNat i
        · subst hinst
          rw [Function.update_self] at h
          exact .inr ⟨0, e.1, e.2, rfl, rfl, h⟩
        · rw [Function.update_of_ne hinst] at h
          exact .inl h
      · exact .inr ⟨k + 1, row, symbol, by rw [hinst]; congr 1; omega, hrow, hallowed⟩
    · exact .inl h

theorem lim_registerRows (allowed : List Char) (rows : List (Instrument × List Char)) (i : ℕ)
    (s : NamedAccount × RiskGate) : (registerRows allowed rows i s).2.lim = s.2.lim := by
  induction rows generalizing i s with
  | nil => rfl
  | cons e rows ih =>
    rw [registerRows]
    split_ifs
    · rw [ih]
      rfl
    · rfl

/-! ### Runs -/

section Runs

variable {ρ : Type u} [Router ρ] {n : Numbers} {file : List Char}
  {rows : List (Instrument × List Char)} {said : List (Option (List Char × List Char))}
  {s : Engine ρ}

omit [Router ρ] in
theorem Started.load {s : Engine ρ} (h : Started n file rows s) :
    (Config.empty.load file).2 = true := by
  obtain ⟨c, x, hconfig, -⟩ := h.setup
  rw [execConfig] at hconfig
  split_ifs at hconfig with hload
  exact hload

omit [Router ρ] in
/-- What the context of a start has of its file. -/
theorem Started.limits {s : Engine ρ} (h : Started n file rows s)
    (hmeans : List.Forall₂ Means (file.splitOn '\n') said) :
    ∃ c, c.entries = ofHistory said.reduceOption ∧ s.x.risk.lim = .ofConfig n c ∧
      s.x.rate = .ofConfig n c ∧ ∀ inst, s.x.risk.allowedInst inst = true →
        ∃ k row symbol, inst = UInt16.ofNat k ∧ rows[k]? = some (row, symbol) ∧
          assetAllowed (allowedAssets c) (splitSymbol symbol).1 = true := by
  obtain ⟨c, x, hconfig, hx, hsetup⟩ := h.setup
  rw [execConfig] at hconfig
  split_ifs at hconfig with hload
  obtain rfl := Option.some.inj hconfig
  have hlines := ((Config.load_ok_iff file).1 hload).1
  have hsx : s.x = (x.setup n _ rows).1 := (congrArg Prod.fst hsetup).symm
  refine ⟨_, (Config.load_means hmeans hlines).2 hload, ?_, ?_, fun inst hinst => ?_⟩
  · rw [hsx]
    exact lim_registerRows _ _ _ _
  · rw [hsx]
    rfl
  · rw [hsx] at hinst
    rcases allowed_registerRows _ _ _ _ hinst with hinst | ⟨k, row, symbol, hinst, hrest⟩
    · dsimp only at hinst
      rw [hx] at hinst
      cases hinst
    · exact ⟨k, row, symbol, by rwa [Nat.zero_add] at hinst, hrest⟩

end Runs

/-- At most 5 lots of one coin, and no need to own it. -/
def settings : List (List Char × List Char) :=
  [("risk.max_order_qty".toList, "0_5".toList), ("risk.allowed_assets".toList, "BTC".toList),
    ("risk.spot_only".toList, "no".toList)]

/-- Numbers are not read. -/
def noNumbers : Numbers := ⟨fun _ => none, fun _ => 0, fun _ => 0⟩

/-- The settings as they are stored. -/
def settingsConfig : Config where
  entries := settings
  size_le := by decide
  fits := by decide
  nodup := by decide

/-- Two coins, of which one is allowed. -/
def coinRows : List (Instrument × List Char) :=
  [(unitRow, "BTC/USD".toList), (unitRow, "DOGE/USD".toList)]

/-- Exec with these settings. -/
def settingsEngine : Engine NullRouter :=
  { demoEngine {} with
    x := (({ demoContext {} with risk := ⟨{}, fun _ => false⟩ } : ExecContext).setup noNumbers
      settingsConfig coinRows).1 }

theorem isPair_settings : ∀ e ∈ settings, IsPair e.1 e.2 := by
  have hall : ∀ e ∈ settings, e.1 ≠ [] ∧ e.1.head? ≠ some '#' ∧ '=' ∉ e.1 ∧
      ('\n' ∉ e.1 ∧ '\n' ∉ e.2) ∧ (trim e.1 = e.1 ∧ trim e.2 = e.2) ∧
      e.1.length < KEY_LEN ∧ e.2.length < VAL_LEN := by
    decide
  intro e he
  obtain ⟨hne, hhead, heq, hnewline, ⟨hkey, hval⟩, hfits⟩ := hall e he
  exact ⟨hne, hhead, heq, hnewline, hkey ▸ bare_trim _, hval ▸ bare_trim _, hfits.1, hfits.2⟩

theorem started_settingsEngine :
    Started noNumbers (Config.render settings) coinRows settingsEngine := by
  obtain ⟨hentries, hload⟩ := Config.load_render isPair_settings (by decide) (by decide)
  refine ⟨⟨rfl, rfl⟩, settingsConfig, { demoContext {} with risk := ⟨{}, fun _ => false⟩ }, ?_, rfl,
    ?_⟩
  · rw [execConfig, if_pos hload]
    exact congrArg some (Config.eq_of_entries hentries)
  · exact Prod.ext rfl (by decide)

end Exec

end LowLatencyPipeline
