import LowLatencyPipeline.Exec.Account
import LowLatencyPipeline.Exec.Risk
import LowLatencyPipeline.Library.Cut
import LowLatencyPipeline.Library.Machine

/-!
# Assets and their names

`split_symbol`, the table of assets of an `Account`, and the allowlist of the risk gate. A name is
cut to 7 characters where it is stored and where a symbol is split, and compared over 8 where it is
looked up; the items of the allowlist are compared in full.

* `Registry` is an account with the symbols that its instruments were added with;
  `find_base` is its invariant: the first row with the cut base part of a symbol is the
  instrument's.
* **Asset identity** (`asset_identity`): in every state reached, rows, repeated lookups, balances
  and the allowlist agree with the full names exactly where no name is cut, or the cut tells the
  names in question apart.
-/

namespace LowLatencyPipeline

namespace Exec

open Cut

/-! ### Symbols -/

/-- The most characters that are stored of a name, `sizeof(base) - 1`. -/
def NAME_MAX : ℕ := 7

/-- `MAX_ASSETS`. -/
def MAX_ASSETS : ℕ := 16

/-- The separators of a symbol. -/
def isSeparator (a : Char) : Bool := a = '/' ∨ a = '-'

/-- `split_symbol`. -/
def splitSymbol (symbol : List Char) : List Char × List Char :=
  match cut isSeparator symbol with
  | (_, none) => (symbol.take NAME_MAX, "USD".toList)
  | (base, some quote) => (base.take NAME_MAX, quote.take NAME_MAX)

/-- The full base part of a symbol. -/
def basePart (symbol : List Char) : List Char := (cut isSeparator symbol).1

/-- The base is cut. -/
theorem splitSymbol_fst (symbol : List Char) :
    (splitSymbol symbol).1 = (basePart symbol).take NAME_MAX := by
  rw [splitSymbol, basePart]
  rcases forall_or_exists_append isSeparator symbol with
    hall | ⟨front, a, rest, rfl, hfront, ha⟩
  · rw [cut_of_forall hall]
  · rw [cut_append hfront ha]

/-! ### The table of assets -/

/-- An `Account` with the names of its assets. -/
structure NamedAccount extends Account where
  names : List (List Char)
  size_le : names.length ≤ MAX_ASSETS
  short : ∀ name ∈ names, name.length ≤ NAME_MAX

/-- A new `Account`. -/
def Account.new : Account where
  ids := []
  inst _ := ⟨0, 0, 0, 0, 0, {}⟩
  bal _ := {}
  peak := 0
  maxDd := 0

namespace NamedAccount

/-- A new account has no assets. -/
def new : NamedAccount where
  toAccount := Account.new
  names := []
  size_le := Nat.zero_le _
  short _ h := absurd h List.not_mem_nil

variable (a : NamedAccount)

/-- The loop of `asset`: the first row whose name agrees in 8 characters. -/
def find (name : List Char) : Option ℕ :=
  a.names.findIdx? fun stored => stored.take 8 = name.take 8

/-- The new row of `asset`. -/
def push (name : List Char) (h : a.names.length ≠ MAX_ASSETS) : NamedAccount where
  toAccount := { a.toAccount with bal := Function.update a.bal a.names.length {} }
  names := a.names ++ [name.take NAME_MAX]
  size_le := by
    have hsize := a.size_le
    rw [List.length_append, List.length_singleton]
    omega
  short stored hstored := by
    rcases List.mem_append.1 hstored with hstored | hstored
    · exact a.short stored hstored
    · rw [List.mem_singleton.1 hstored]
      exact List.length_take_le _ _

/-- `asset`: none when the table is full. -/
def asset (name : List Char) : NamedAccount × Option ℕ :=
  match a.find name with
  | some k => (a, some k)
  | none =>
    if h : a.names.length = MAX_ASSETS then (a, none) else (a.push name h, some a.names.length)

/-- A store into the total of a row. -/
def setTotal (k : ℕ) (total : ℤ) : NamedAccount :=
  { a with toAccount := a.toAccount.setBal k fun b => { b with total } }

/-- `set_balance`. -/
def setBalance (name : List Char) (total : ℤ) : NamedAccount :=
  match a.asset name with
  | (a, some k) => a.setTotal k total
  | (a, none) => a

/-- `add_instrument`. -/
def addInstrument (inst : UInt16) (row : Instrument) (symbol : List Char) : NamedAccount × Bool :=
  if a.trades inst then (a, true)
  else if a.ids.length = Account.MAX_TRADED then (a, false)
  else
    let (b, base) := a.asset (splitSymbol symbol).1
    let (q, quote) := b.asset (splitSymbol symbol).2
    match base, quote with
    | some base, some quote =>
      ({ q with toAccount := (q.toAccount.addInstrument inst row base quote).1 }, true)
    | _, _ => (q, false)

end NamedAccount

/-! ### The allowlist -/

/-- `allowed_` after `set_allowed_assets`. -/
def setAllowedAssets (list : List Char) : List Char := list.take 255

/-- `asset_allowed`. -/
def assetAllowed (allowed asset : List Char) : Bool :=
  (parts (· == ',') allowed).any fun item =>
    item.length = asset.length ∧ item.take asset.length = asset.take asset.length

/-- `register_instrument`, with `allowed_`. -/
def RiskGate.registerInstrument (g : RiskGate) (allowed : List Char) (inst : UInt16)
    (symbol : List Char) : RiskGate :=
  { g with
    allowedInst :=
      Function.update g.allowedInst inst (assetAllowed allowed (splitSymbol symbol).1) }

/-- The items of an allowlist; an empty list has none. -/
def allowlist (list : List Char) : List (List Char) :=
  if list.isEmpty then [] else list.splitOn ','

/-! ### Lookups -/

namespace NamedAccount

variable {a b : NamedAccount} {name : List Char} {k : ℕ}

/-- A name of at most 7 characters is found where it is stored. -/
theorem matches_iff {stored : List Char} (hstored : stored ∈ a.names)
    (hname : name.length ≤ NAME_MAX) : stored.take 8 = name.take 8 ↔ stored = name := by
  have hlen := a.short stored hstored
  rw [NAME_MAX] at *
  rw [List.take_of_length_le (by omega), List.take_of_length_le (by omega)]

/-- A longer name is stored nowhere. -/
theorem find_long (hname : NAME_MAX < name.length) : a.find name = none := by
  rw [find, List.findIdx?_eq_none_iff]
  intro stored hstored
  have hlen := a.short stored hstored
  refine decide_eq_false fun heq => ?_
  have hlength := congrArg List.length heq
  rw [List.length_take, List.length_take] at hlength
  rw [NAME_MAX] at *
  omega

/-- A row that is found has the name. -/
theorem getElem?_of_find (hname : name.length ≤ NAME_MAX) (h : a.find name = some k) :
    a.names[k]? = some name := by
  obtain ⟨hk, hmatch, -⟩ := List.findIdx?_eq_some_iff_getElem.1 h
  rw [List.getElem?_eq_getElem hk]
  exact congrArg some ((matches_iff (List.getElem_mem hk) hname).1 (of_decide_eq_true hmatch))

/-- A row that is found stays the first one. -/
theorem find_mono (hab : a.names <+: b.names) (h : a.find name = some k) :
    b.find name = some k := by
  obtain ⟨rest, hrest⟩ := hab
  rw [find, ← hrest, List.findIdx?_append, show a.names.findIdx? _ = some k from h]
  rfl

theorem asset_of_find (h : a.find name = some k) : a.asset name = (a, some k) := by
  rw [asset, h]

/-- **What `asset` can do**: find a row, make one, or fail. -/
theorem asset_cases (a : NamedAccount) (name : List Char) :
    (∃ k, a.find name = some k ∧ a.asset name = (a, some k)) ∨
      (a.find name = none ∧ ∃ h : a.names.length ≠ MAX_ASSETS,
        a.asset name = (a.push name h, some a.names.length)) ∨
      (a.names.length = MAX_ASSETS ∧ a.asset name = (a, none)) := by
  rw [asset]
  cases hfind : a.find name with
  | some k => exact .inl ⟨k, rfl, rfl⟩
  | none =>
    dsimp only
    split_ifs with hfull
    · exact .inr (.inr ⟨hfull, rfl⟩)
    · exact .inr (.inl ⟨rfl, hfull, rfl⟩)

/-- The name of a new row is found there. -/
theorem find_push (hname : name.length ≤ NAME_MAX) (hnone : a.find name = none)
    (h : a.names.length ≠ MAX_ASSETS) : (a.push name h).find name = some a.names.length := by
  rw [find, push, List.findIdx?_append, show a.names.findIdx? _ = none from hnone,
    List.take_of_length_le hname]
  simp

/-- A short name is found in the row that `asset` returned. -/
theorem find_asset (hname : name.length ≤ NAME_MAX) (h : a.asset name = (b, some k)) :
    b.find name = some k := by
  rcases asset_cases a name with ⟨j, hfind, hasset⟩ | ⟨hnone, hroom, hasset⟩ | ⟨hfull, hasset⟩
  · rw [hasset, Prod.mk.injEq, Option.some.injEq] at h
    obtain ⟨rfl, rfl⟩ := h
    exact hfind
  · rw [hasset, Prod.mk.injEq, Option.some.injEq] at h
    obtain ⟨rfl, rfl⟩ := h
    exact find_push hname hnone hroom
  · rw [hasset] at h
    exact nomatch (Prod.mk.inj h).2

/-- Rows may come, but no instrument changes, and no statistics. -/
structure Kept (a b : NamedAccount) : Prop where
  names : a.names <+: b.names
  ids : b.ids = a.ids
  inst : b.inst = a.inst
  peak : b.peak = a.peak
  maxDd : b.maxDd = a.maxDd

theorem Kept.refl (a : NamedAccount) : Kept a a := ⟨List.prefix_refl _, rfl, rfl, rfl, rfl⟩

theorem Kept.trans {c : NamedAccount} (h : Kept a b) (h' : Kept b c) : Kept a c where
  names := h.names.trans h'.names
  ids := h'.ids.trans h.ids
  inst := h'.inst.trans h.inst
  peak := h'.peak.trans h.peak
  maxDd := h'.maxDd.trans h.maxDd

theorem kept_asset (a : NamedAccount) (name : List Char) : Kept a (a.asset name).1 := by
  rcases asset_cases a name with ⟨j, -, hasset⟩ | ⟨-, hroom, hasset⟩ | ⟨-, hasset⟩
  · rw [hasset]
    exact .refl a
  · rw [hasset]
    exact ⟨List.prefix_append _ _, rfl, rfl, rfl, rfl⟩
  · rw [hasset]
    exact .refl a

theorem kept_setBalance (a : NamedAccount) (name : List Char) (total : ℤ) :
    Kept a (a.setBalance name total) := by
  have hkept := kept_asset a name
  rw [setBalance]
  rcases hasset : a.asset name with ⟨b, _ | k⟩
  · rw [hasset] at hkept
    exact hkept
  · rw [hasset] at hkept
    exact ⟨hkept.names, hkept.ids, hkept.inst, hkept.peak, hkept.maxDd⟩

theorem trades_iff {inst : UInt16} : a.trades inst = true ↔ inst ∈ a.ids := decide_eq_true_iff

/-- The row of a new instrument comes last. -/
def insertRow (a : NamedAccount) (inst : UInt16) (row : Instrument) (base quote : ℕ) :
    NamedAccount :=
  { a with
    ids := a.ids ++ [inst]
    inst := Function.update a.inst inst (Inst.ofRow row base quote) }

/-- **What `add_instrument` can do**: nothing to the instruments (it fails, or has the instrument),
or add one whose base row is the first with the cut base part. -/
theorem addInstrument_cases (a : NamedAccount) (inst : UInt16) (row : Instrument)
    (symbol : List Char) :
    (Kept a (a.addInstrument inst row symbol).1 ∧
      ((a.addInstrument inst row symbol).2 = true → inst ∈ a.ids)) ∨
      ∃ b base quote, Kept a b ∧ inst ∉ a.ids ∧ b.find (splitSymbol symbol).1 = some base ∧
        a.addInstrument inst row symbol = (b.insertRow inst row base quote, true) := by
  have hcut : (splitSymbol symbol).1.length ≤ NAME_MAX := by
    rw [splitSymbol_fst]
    exact List.length_take_le _ _
  have hbase := kept_asset a (splitSymbol symbol).1
  rw [addInstrument]
  split_ifs with htrades hfull
  · exact .inl ⟨.refl a, fun _ => trades_iff.1 htrades⟩
  · exact .inl ⟨.refl a, fun h => nomatch h⟩
  rcases hb : a.asset (splitSymbol symbol).1 with ⟨b, base⟩
  have hquote := kept_asset b (splitSymbol symbol).2
  rcases hq : b.asset (splitSymbol symbol).2 with ⟨q, quote⟩
  dsimp only
  rw [hq]
  rw [hb] at hbase
  rw [hq] at hquote
  have hkept := hbase.trans hquote
  rcases base with _ | base
  · exact .inl ⟨hkept, fun h => nomatch h⟩
  rcases quote with _ | quote
  · exact .inl ⟨hkept, fun h => nomatch h⟩
  · have hfind : b.find (splitSymbol symbol).1 = some base := find_asset hcut hb
    have htrades' : ¬q.toAccount.trades inst = true := by rwa [Account.trades, hkept.ids]
    have hfull' : ¬q.ids.length = Account.MAX_TRADED := by rwa [hkept.ids]
    refine .inr ⟨q, base, quote, hkept, fun h => htrades (trades_iff.2 h),
      find_mono hquote.names hfind, ?_⟩
    have hadd : (q.toAccount.addInstrument inst row base quote).1 =
        (q.insertRow inst row base quote).toAccount := by
      rw [Account.addInstrument, if_neg htrades', if_neg hfull']
      rfl
    dsimp only
    rw [hadd]
    rfl

end NamedAccount

/-! ### Runs -/

/-- A `NamedAccount` with the symbols of its instruments, which no code looks at. -/
structure Registry extends NamedAccount where
  symbol : UInt16 → List Char

/-- The calls. -/
inductive AssetCall
  | addInstrument (inst : UInt16) (row : Instrument) (symbol : List Char)
  | setBalance (name : List Char) (total : ℤ)
  | asset (name : List Char)

/-- One call. -/
def Registry.step (s : Registry) : AssetCall → Option Registry
  | .addInstrument inst row symbol => some
    { toNamedAccount := (s.addInstrument inst row symbol).1
      symbol := if s.trades inst then s.symbol else Function.update s.symbol inst symbol }
  | .setBalance name total => some { s with toNamedAccount := s.setBalance name total }
  | .asset name => some { s with toNamedAccount := (s.asset name).1 }

/-- The calls on a new account, in any order. -/
def registry : Machine Registry AssetCall where
  Init s := s.toNamedAccount = .new
  step := Registry.step

namespace Registry

open NamedAccount

variable {s t : Registry} {c : AssetCall}

/-- The base row of an instrument. -/
def baseRow (s : Registry) (inst : UInt16) : ℕ := (s.inst inst).base

/-- The full name of an instrument's base asset. -/
def baseName (s : Registry) (inst : UInt16) : List Char := basePart (s.symbol inst)

/-- **What a call can do**: nothing to the instruments, or add one whose base row is the first with
the cut base part. -/
theorem step_cases (h : s.step c = some t) :
    (Kept s.toNamedAccount t.toNamedAccount ∧ ∀ inst ∈ s.ids, t.symbol inst = s.symbol inst) ∨
      ∃ b inst row symbol base quote, Kept s.toNamedAccount b ∧ inst ∉ s.ids ∧
        b.find (splitSymbol symbol).1 = some base ∧
        t = ⟨b.insertRow inst row base quote, Function.update s.symbol inst symbol⟩ := by
  cases c with
  | addInstrument inst row symbol =>
    obtain rfl := Option.some.inj h
    rcases addInstrument_cases s.toNamedAccount inst row symbol with
      ⟨hkept, -⟩ | ⟨b, base, quote, hkept, hnew, hfind, hadd⟩
    · refine .inl ⟨hkept, fun j hj => ?_⟩
      dsimp only
      split_ifs with htrades
      · rfl
      · refine Function.update_of_ne ?_ _ _
        rintro rfl
        exact htrades (trades_iff.2 hj)
    · have htrades : ¬s.trades inst = true := fun h => hnew (trades_iff.1 h)
      refine .inr ⟨b, inst, row, symbol, base, quote, hkept, hnew, hfind, ?_⟩
      rw [hadd, if_neg htrades]
  | setBalance name total =>
    obtain rfl := Option.some.inj h
    exact .inl ⟨kept_setBalance _ name total, fun _ _ => rfl⟩
  | asset name =>
    obtain rfl := Option.some.inj h
    exact .inl ⟨kept_asset _ name, fun _ _ => rfl⟩

/-- No call takes a name away. -/
theorem names_prefix_step (h : s.step c = some t) : s.names <+: t.names := by
  rcases step_cases h with ⟨hkept, -⟩ | ⟨b, inst, row, symbol, base, quote, hkept, -, -, rfl⟩
  · exact hkept.names
  · exact hkept.names

theorem names_prefix_exec {calls : List AssetCall} (h : registry.exec s calls = some t) :
    s.names <+: t.names := by
  induction calls generalizing s with
  | nil => rw [Option.some.inj h]
  | cons c calls ih =>
    obtain ⟨u, hu, hrest⟩ := Option.bind_eq_some_iff.1 h
    exact (names_prefix_step hu).trans (ih hrest)

/-- The base row of an instrument is the first one with the cut base part of its symbol. -/
def FindsBase (s : Registry) : Prop :=
  ∀ inst ∈ s.ids, s.find ((s.baseName inst).take NAME_MAX) = some (s.baseRow inst)

/-- What is kept keeps the base rows. -/
theorem FindsBase.of_kept (hs : s.FindsBase) (hkept : Kept s.toNamedAccount t.toNamedAccount)
    (hsymbol : ∀ inst ∈ s.ids, t.symbol inst = s.symbol inst) : t.FindsBase := by
  intro inst hinst
  rw [hkept.ids] at hinst
  have hfind := find_mono hkept.names (hs inst hinst)
  rwa [baseName, hsymbol inst hinst, baseRow, hkept.inst]

/-- **One call** keeps the base rows. -/
theorem FindsBase.step (hs : s.FindsBase) (h : s.step c = some t) : t.FindsBase := by
  rcases step_cases h with
    ⟨hkept, hsymbol⟩ | ⟨b, inst, row, symbol, base, quote, hkept, hnew, hfind, rfl⟩
  · exact hs.of_kept hkept hsymbol
  intro j hj
  change b.find ((basePart (Function.update s.symbol inst symbol j)).take NAME_MAX) =
    some (Function.update b.inst inst (Inst.ofRow row base quote) j).base
  by_cases heq : j = inst
  · rw [heq, Function.update_self, Function.update_self, ← splitSymbol_fst, hfind]
    rfl
  · have hmem : j ∈ b.ids := (List.mem_append.1 hj).resolve_right fun h =>
      heq (List.mem_singleton.1 h)
    rw [hkept.ids] at hmem
    rw [Function.update_of_ne heq, Function.update_of_ne heq, hkept.inst]
    exact find_mono hkept.names (hs j hmem)

theorem findsBase (hs : registry.Reachable s) : s.FindsBase := by
  refine hs.invariant (P := FindsBase) (fun s hinit inst hinst => ?_)
    fun s c t _ _ h hP => hP.step h
  rw [show s.toNamedAccount = .new from hinit] at hinst
  exact absurd hinst List.not_mem_nil

/-! ### Identity -/

/-- Two instruments share a row iff their cut base parts are the same. -/
theorem baseRow_eq_iff (hs : registry.Reachable s) {i j : UInt16} (hi : i ∈ s.ids)
    (hj : j ∈ s.ids) : s.baseRow i = s.baseRow j ↔
      (s.baseName i).take NAME_MAX = (s.baseName j).take NAME_MAX := by
  have hfi := findsBase hs i hi
  have hfj := findsBase hs j hj
  constructor
  · intro heq
    have hni := getElem?_of_find (List.length_take_le _ _) hfi
    have hnj := getElem?_of_find (List.length_take_le _ _) hfj
    rw [heq] at hni
    exact Option.some.inj (hni.symm.trans hnj)
  · intro heq
    rw [heq] at hfi
    exact Option.some.inj (hfi.symm.trans hfj)

/-- A name is found again where it was found or made iff it is short. -/
theorem asset_again_iff {name : List Char} {k : ℕ} {calls : List AssetCall}
    (hfirst : (s.asset name).2 = some k)
    (hrun : registry.exec { s with toNamedAccount := (s.asset name).1 } calls = some t) :
    (t.asset name).2 = some k ↔ name.length ≤ NAME_MAX := by
  have hprefix := names_prefix_exec hrun
  constructor
  · intro hagain
    by_contra hlong
    have hnone : t.find name = none := find_long (Nat.lt_of_not_le hlong)
    have hlt : k < (s.asset name).1.names.length := by
      rcases asset_cases s.toNamedAccount name with ⟨j, hfind, -⟩ | ⟨-, hroom, hasset⟩ | ⟨-, hasset⟩
      · exact absurd (hfind.symm.trans (find_long (Nat.lt_of_not_le hlong))) (by simp)
      · rw [hasset] at hfirst ⊢
        obtain rfl := Option.some.inj hfirst
        exact (List.length_append ..).symm ▸ Nat.lt_succ_self _
      · rw [hasset] at hfirst
        exact nomatch hfirst
    rcases asset_cases t.toNamedAccount name with ⟨j, hfind, -⟩ | ⟨-, hroom, hasset⟩ | ⟨-, hasset⟩
    · exact absurd (hfind.symm.trans hnone) (by simp)
    · rw [hasset] at hagain
      have hle := hprefix.length_le
      have heq := Option.some.inj hagain
      dsimp only at hle heq
      omega
    · rw [hasset] at hagain
      exact nomatch hagain
  · intro hshort
    have hfind : (s.asset name).1.find name = some k := find_asset hshort (Prod.ext rfl hfirst)
    rw [asset_of_find (find_mono hprefix hfind)]

/-- Where the table does not run out, `set_balance` of a base part stores into the instrument's row
and does nothing else iff the base part is short. -/
theorem setBalance_baseName_iff (hs : registry.Reachable s) {i : UInt16} (hi : i ∈ s.ids)
    (hroom : (s.asset (s.baseName i)).2 ≠ none) (total : ℤ) :
    s.setBalance (s.baseName i) total = s.setTotal (s.baseRow i) total ↔
      (s.baseName i).length ≤ NAME_MAX := by
  constructor
  · intro heq
    by_contra hlong
    rcases asset_cases s.toNamedAccount (s.baseName i) with
      ⟨j, hfind, -⟩ | ⟨-, hne, hasset⟩ | ⟨-, hasset⟩
    · exact absurd (hfind.symm.trans (find_long (Nat.lt_of_not_le hlong))) (by simp)
    · rw [setBalance, hasset] at heq
      have hlength := congrArg (fun a => a.names.length) heq
      exact absurd hlength (by simp [push, setTotal])
    · rw [hasset] at hroom
      exact hroom rfl
  · intro hshort
    have hfind := findsBase hs i hi
    rw [List.take_of_length_le hshort] at hfind
    rw [setBalance, asset_of_find hfind]

end Registry

/-! ### The allowlist -/

/-- The loop of `asset_allowed` looks for an item. -/
theorem assetAllowed_iff {list asset : List Char} (hlist : list.length ≤ 255)
    (hitems : ∀ item ∈ allowlist list, item ≠ []) :
    assetAllowed (setAllowedAssets list) asset = true ↔ asset ∈ allowlist list := by
  have hparts : parts (· == ',') list = allowlist list := by
    rw [allowlist] at *
    split_ifs at * with hempty
    · rw [List.isEmpty_iff.1 hempty]
      rfl
    · exact parts_of_ne_nil hitems
  rw [assetAllowed, setAllowedAssets, List.take_of_length_le hlist, hparts, List.any_eq_true]
  constructor
  · rintro ⟨item, hitem, hmatch⟩
    obtain ⟨hlen, htake⟩ := of_decide_eq_true hmatch
    rw [← hlen, List.take_length, List.take_of_length_le hlen.ge] at htake
    exact htake ▸ hitem
  · intro hasset
    exact ⟨asset, hasset, decide_eq_true ⟨rfl, rfl⟩⟩

/-- **Asset identity.** In every state that the calls reach:
two instruments share a base row iff their base parts are equal, exactly if the cut tells these
apart; `asset` returns the row of the first call again, exactly if the name is short; `set_balance`
of a base part changes that instrument's base balance alone, exactly if the base part is short; and
the gate allows an instrument iff its base part is an item, exactly if the cut one is an item when
the full one is. -/
theorem asset_identity {s : Registry} (hs : registry.Reachable s) :
    (∀ i ∈ s.ids, ∀ j ∈ s.ids,
      (s.baseRow i = s.baseRow j ↔ s.baseName i = s.baseName j) ↔
        ((s.baseName i).take NAME_MAX = (s.baseName j).take NAME_MAX →
          s.baseName i = s.baseName j)) ∧
    (∀ name k calls t, (s.asset name).2 = some k →
      registry.exec { s with toNamedAccount := (s.asset name).1 } calls = some t →
        ((t.asset name).2 = some k ↔ name.length ≤ NAME_MAX)) ∧
    (∀ i ∈ s.ids, (s.asset (s.baseName i)).2 ≠ none → ∀ total,
      s.setBalance (s.baseName i) total = s.setTotal (s.baseRow i) total ↔
        (s.baseName i).length ≤ NAME_MAX) ∧
    (∀ (g : RiskGate) (list : List Char) (inst : UInt16) (symbol : List Char),
      list.length ≤ 255 → (∀ item ∈ allowlist list, item ≠ []) →
        (((g.registerInstrument (setAllowedAssets list) inst symbol).allowedInst inst = true ↔
          basePart symbol ∈ allowlist list) ↔
            ((basePart symbol).take NAME_MAX ∈ allowlist list ↔
              basePart symbol ∈ allowlist list))) := by
  refine ⟨fun i hi j hj => ?_, fun name k calls t => Registry.asset_again_iff,
    fun i hi hroom total => Registry.setBalance_baseName_iff hs hi hroom total,
    fun g list inst symbol hlist hitems => ?_⟩
  · rw [Registry.baseRow_eq_iff hs hi hj]
    exact ⟨fun h => h.1, fun h => ⟨h, congrArg _⟩⟩
  · rw [RiskGate.registerInstrument]
    dsimp only
    rw [Function.update_self, assetAllowed_iff hlist hitems, splitSymbol_fst]

/-- No calls yet. -/
def Registry.fresh : Registry := ⟨.new, fun _ => []⟩

/-- A row for any symbol. -/
def unitRow : Instrument := ⟨1, 1, 0, 0, 0, -8, .online⟩

/-- Two coins with names of 8 characters have one row, and asking for one of them twice makes two
rows more, which a balance set by its name goes to. -/
theorem asset_identity_fails :
    ∃ s, registry.exec .fresh [.addInstrument 0 unitRow "TESTCOIN/USD".toList,
        .addInstrument 1 unitRow "TESTCOIL/USD".toList] = some s ∧
      (s.baseRow 0 = s.baseRow 1 ∧ s.baseName 0 ≠ s.baseName 1) ∧
      ((s.asset (s.baseName 0)).2 = some 2 ∧
        ((s.asset (s.baseName 0)).1.asset (s.baseName 0)).2 = some 3) ∧
      ((s.setBalance (s.baseName 0) 5).bal (s.baseRow 0)).total = 0 ∧
      assetAllowed (setAllowedAssets "TESTCOIN".toList) (splitSymbol "TESTCOIN/USD".toList).1 =
        false := by
  refine ⟨_, rfl, ?_⟩
  decide +kernel

/-- Two quotes of one coin share its row, another coin has its own. -/
theorem asset_identity_coins :
    ∃ s, registry.exec .fresh [.addInstrument 0 unitRow "BTC/USD".toList,
        .addInstrument 1 unitRow "BTC-EUR".toList, .addInstrument 2 unitRow "ETH/USD".toList] =
          some s ∧
      s.baseRow 0 = s.baseRow 1 ∧ s.baseRow 0 ≠ s.baseRow 2 ∧
      ∀ total, s.setBalance "ETH".toList total = s.setTotal (s.baseRow 2) total := by
  refine ⟨_, rfl, ?_⟩
  have hreach := Machine.Reachable.exec (M := registry)
    (.init (rfl : Registry.fresh.toNamedAccount = .new)) [.addInstrument 0 unitRow "BTC/USD".toList,
      .addInstrument 1 unitRow "BTC-EUR".toList, .addInstrument 2 unitRow "ETH/USD".toList] rfl
  obtain ⟨hshare, -, hbalance, -⟩ := asset_identity hreach
  refine ⟨((hshare 0 (by decide) 1 (by decide)).2 (by decide)).2 (by decide), ?_,
    fun total => (hbalance 2 (by decide) (by decide) total).2 (by decide)⟩
  exact fun heq => absurd (((hshare 0 (by decide) 2 (by decide)).2 (by decide)).1 heq) (by decide)

end Exec

end LowLatencyPipeline
