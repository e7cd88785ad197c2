import LowLatencyPipeline.Common.Event
import LowLatencyPipeline.Common.SpscRing
import LowLatencyPipeline.Library.Bytes

/-!
# The ITCH parser

`ItchParser` of `exchange/itch/itch_parser.cpp` over the file it has mapped. `next` reads a length
and a type, claims a slot of the ring to the core and fills the slot in place with the fields that
the message has; the packed structs of `itch_event_types.hpp` are read at their offsets.

`Message` is the format, and `decode_stream` says that the parser publishes what was encoded.
-/

namespace LowLatencyPipeline

namespace Exchange

open Bytes Common.SpscRing

/-- `CORE_RING_CAPACITY`. -/
def CORE_RING_CAPACITY : UInt32 := 8192

/-! ### Loads from a packed message -/

section Loads

variable (msg : List UInt8) (off : ℕ)

/-- `__builtin_bswap16` of a field. -/
def bswap16 : UInt16 := UInt16.ofNat (bswap 2 (ofLE (slice off 2 msg)))

/-- `__builtin_bswap32` of a field. -/
def bswap32 : UInt32 := UInt32.ofNat (bswap 4 (ofLE (slice off 4 msg)))

/-- `__builtin_bswap64` of a field. -/
def bswap64 : UInt64 := UInt64.ofNat (bswap 8 (ofLE (slice off 8 msg)))

/-- `be48tou64h`: six bytes are copied into a zeroed number. -/
def be48tou64h : UInt64 := UInt64.ofNat (bswap 8 (ofLE (slice off 6 msg))) >>> 16

/-- The ticker. -/
def stockAt : Symbol := Vector.ofFn fun i => (slice off 8 msg)[i.val]?.getD 0

/-- `buy_sell_indicator`. -/
def sideAt : Side := if slice off 1 msg = ['B'.toUInt8] then .buy else .sell

end Loads

/-! ### The parser -/

/-- The fields that all messages begin with. -/
def fillHeader (type : Char) (msg : List UInt8) (slot : Event) : Event :=
  { slot with
    messageType := type
    stockLocate := bswap16 msg 1
    trackingNumber := bswap16 msg 3
    timestamp := be48tou64h msg 5 }

/-- `AddOrder` and `AddOrderWithMPID`. -/
def fillAddOrder (type : Char) (msg : List UInt8) (slot : Event) : Event :=
  { fillHeader type msg slot with
    orderRefNumber := bswap64 msg 11
    side := sideAt msg 19
    shares := bswap32 msg 20
    stock := stockAt msg 24
    price := bswap32 msg 32 }

/-- `ExecOrder`. -/
def fillExecOrder (type : Char) (msg : List UInt8) (slot : Event) : Event :=
  { fillHeader type msg slot with
    orderRefNumber := bswap64 msg 11
    shares := bswap32 msg 19
    matchNumber := bswap64 msg 23 }

/-- `ExecOrderWithMessage`. -/
def fillExecOrderWithMessage (msg : List UInt8) (slot : Event) : Event :=
  { fillExecOrder 'C' msg slot with price := bswap32 msg 32 }

/-- `CancelOrder`. -/
def fillCancelOrder (msg : List UInt8) (slot : Event) : Event :=
  { fillHeader 'X' msg slot with
    orderRefNumber := bswap64 msg 11
    shares := bswap32 msg 19 }

/-- `DeleteOrder`. -/
def fillDeleteOrder (msg : List UInt8) (slot : Event) : Event :=
  { fillHeader 'D' msg slot with orderRefNumber := bswap64 msg 11 }

/-- `ReplaceOrder`. -/
def fillReplaceOrder (msg : List UInt8) (slot : Event) : Event :=
  { fillHeader 'U' msg slot with
    orderRefNumber := bswap64 msg 11
    newOrderRefNumber := bswap64 msg 19
    shares := bswap32 msg 27
    price := bswap32 msg 31 }

/-- `TradeMessageNonCross`. -/
def fillTradeMessageNonCross (msg : List UInt8) (slot : Event) : Event :=
  { fillAddOrder 'P' msg slot with matchNumber := bswap64 msg 36 }

/-- `TradeMessageCross`; its 64-bit shares are cut to 32 bits. -/
def fillTradeMessageCross (msg : List UInt8) (slot : Event) : Event :=
  { fillHeader 'Q' msg slot with
    shares := (bswap64 msg 11).toUInt32
    stock := stockAt msg 19
    price := bswap32 msg 27
    matchNumber := bswap64 msg 31 }

/-- The switch of `next`: the slot filled, `none` for the other types. -/
def fill (type : Char) (msg : List UInt8) (slot : Event) : Option Event :=
  match type with
  | 'A' => some (fillAddOrder 'A' msg slot)
  | 'F' => some (fillAddOrder 'F' msg slot)
  | 'E' => some (fillExecOrder 'E' msg slot)
  | 'C' => some (fillExecOrderWithMessage msg slot)
  | 'X' => some (fillCancelOrder msg slot)
  | 'D' => some (fillDeleteOrder msg slot)
  | 'U' => some (fillReplaceOrder msg slot)
  | 'P' => some (fillTradeMessageNonCross msg slot)
  | 'Q' => some (fillTradeMessageCross msg slot)
  | _ => none

/-- `ItchParser`: the mapped file, and the cursor as an offset. -/
structure ItchParser where
  data : List UInt8
  cursor : ℕ := 0

namespace ItchParser

variable (p : ItchParser)

/-- `done`. -/
def Done : Prop := p.data.length ≤ p.cursor

instance : Decidable p.Done := inferInstanceAs (Decidable (_ ≤ _))

/-- `next`, with the slot that `try_claim` returned in the end, or `none` where the shutdown flag
ended the wait, and the TSC. The event is what is published. -/
def next (claim : Option Event) (tsc : UInt64) : ItchParser × Option Event :=
  let frameLength := (bswap16 p.data p.cursor).toNat
  let type := (p.data[p.cursor + 2]?.getD 0).toChar
  let msg := p.data.drop (p.cursor + 2)
  match claim with
  | none => ({ p with cursor := p.cursor + 3 }, none)
  | some slot =>
    let p := { p with cursor := p.cursor + 3 + frameLength - 1 }
    match fill type msg slot with
    | none => (p, none)
    | some ev => (p, some { ev with tscIn := tsc })

end ItchParser

/-- The parser with the slots of its ring, and what it has published. The ring has always room: a
consumer drains it. -/
structure ParserLoop where
  parser : ItchParser
  slots : ℕ → Event
  tail : UInt32
  published : List Event := []

namespace ParserLoop

variable (tsc : ℕ → UInt64) (s : ParserLoop)

/-- One call of `next`; the `n`-th event published reads `tsc n`. -/
def next : ParserLoop :=
  let slot := slotOf CORE_RING_CAPACITY s.tail
  match s.parser.next (some (s.slots slot)) (tsc s.published.length) with
  | (parser, none) => { s with parser }
  | (parser, some ev) =>
    { parser
      slots := Function.update s.slots slot ev
      tail := s.tail + 1
      published := s.published ++ [ev] }

/-- `while (!done()) next()`, at most so many times. -/
def run : ℕ → ParserLoop → ParserLoop
  | 0, s => s
  | fuel + 1, s => if s.parser.Done then s else run fuel (s.next tsc)

end ParserLoop

/-! ### The format -/

/-- The fields that all messages begin with. -/
structure Header where
  stockLocate : UInt16
  trackingNumber : UInt16
  timestamp : BitVec 48

/-- The types of which the parser makes events. -/
def eventTypes : List Char := ['A', 'F', 'E', 'C', 'X', 'D', 'U', 'P', 'Q']

/-- An ITCH message. -/
inductive Message
  | addOrder (h : Header) (ref : UInt64) (side : Side) (shares : UInt32) (stock : Symbol)
    (price : UInt32)
  | addOrderWithMPID (h : Header) (ref : UInt64) (side : Side) (shares : UInt32) (stock : Symbol)
    (price : UInt32) (attribution : Vector UInt8 4)
  | execOrder (h : Header) (ref : UInt64) (shares : UInt32) (matchNumber : UInt64)
  | execOrderWithMessage (h : Header) (ref : UInt64) (shares : UInt32) (matchNumber : UInt64)
    (printable : UInt8) (price : UInt32)
  | cancelOrder (h : Header) (ref : UInt64) (shares : UInt32)
  | deleteOrder (h : Header) (ref : UInt64)
  | replaceOrder (h : Header) (ref newRef : UInt64) (shares price : UInt32)
  | tradeNonCross (h : Header) (ref : UInt64) (side : Side) (shares : UInt32) (stock : Symbol)
    (price : UInt32) (matchNumber : UInt64)
  | tradeCross (h : Header) (shares : UInt64) (stock : Symbol) (price : UInt32)
    (matchNumber : UInt64) (crossType : UInt8)
  /-- any other type, with a length that fits its two bytes -/
  | other (type : UInt8) (body : List UInt8) (unknown : type.toChar ∉ eventTypes)
    (short : body.length + 1 < 2 ^ 16)

/-- The byte of a side. -/
def indicator : Side → UInt8
  | .buy => 'B'.toUInt8
  | .sell => 'S'.toUInt8

/-- A packed header. -/
def Header.encode (h : Header) (type : Char) : List UInt8 :=
  type.toUInt8 :: (toBE 2 h.stockLocate.toNat ++ (toBE 2 h.trackingNumber.toNat ++
    toBE 6 h.timestamp.toNat))

/-- The fields that an add and a trade have in common. -/
def encodeOrder (ref : UInt64) (side : Side) (shares : UInt32) (stock : Symbol) (price : UInt32) :
    List UInt8 :=
  toBE 8 ref.toNat ++ ([indicator side] ++ (toBE 4 shares.toNat ++ (stock.toList ++
    toBE 4 price.toNat)))

/-- The packed message. -/
def Message.encode : Message → List UInt8
  | addOrder h ref side shares stock price =>
    h.encode 'A' ++ encodeOrder ref side shares stock price
  | addOrderWithMPID h ref side shares stock price attribution =>
    h.encode 'F' ++ (encodeOrder ref side shares stock price ++ attribution.toList)
  | execOrder h ref shares matchNumber =>
    h.encode 'E' ++ (toBE 8 ref.toNat ++ (toBE 4 shares.toNat ++ toBE 8 matchNumber.toNat))
  | execOrderWithMessage h ref shares matchNumber printable price =>
    h.encode 'C' ++ (toBE 8 ref.toNat ++ (toBE 4 shares.toNat ++ (toBE 8 matchNumber.toNat ++
      ([printable] ++ toBE 4 price.toNat))))
  | cancelOrder h ref shares => h.encode 'X' ++ (toBE 8 ref.toNat ++ toBE 4 shares.toNat)
  | deleteOrder h ref => h.encode 'D' ++ toBE 8 ref.toNat
  | replaceOrder h ref newRef shares price =>
    h.encode 'U' ++ (toBE 8 ref.toNat ++ (toBE 8 newRef.toNat ++ (toBE 4 shares.toNat ++
      toBE 4 price.toNat)))
  | tradeNonCross h ref side shares stock price matchNumber =>
    h.encode 'P' ++ (encodeOrder ref side shares stock price ++ toBE 8 matchNumber.toNat)
  | tradeCross h shares stock price matchNumber crossType =>
    h.encode 'Q' ++ (toBE 8 shares.toNat ++ (stock.toList ++ (toBE 4 price.toNat ++
      (toBE 8 matchNumber.toNat ++ [crossType]))))
  | other type body _ _ => type :: body

/-- A message behind its length. -/
def Message.frame (m : Message) : List UInt8 := toBE 2 m.encode.length ++ m.encode

/-- The parser makes an event of the message. -/
def Message.IsEvent : Message → Bool
  | other _ _ _ _ => false
  | _ => true

/-- The header of an event. -/
def CarriesHeader (type : Char) (h : Header) (ev : Event) : Prop :=
  ev.messageType = type ∧ ev.stockLocate = h.stockLocate ∧ ev.trackingNumber = h.trackingNumber ∧
    ev.timestamp.toNat = h.timestamp.toNat

/-- **The event says what the message says.** -/
def Carries : Message → Event → Prop
  | .addOrder h ref side shares stock price, ev =>
    CarriesHeader 'A' h ev ∧ ev.orderRefNumber = ref ∧ ev.side = side ∧ ev.shares = shares ∧
      ev.stock = stock ∧ ev.price = price
  | .addOrderWithMPID h ref side shares stock price _, ev =>
    CarriesHeader 'F' h ev ∧ ev.orderRefNumber = ref ∧ ev.side = side ∧ ev.shares = shares ∧
      ev.stock = stock ∧ ev.price = price
  | .execOrder h ref shares matchNumber, ev =>
    CarriesHeader 'E' h ev ∧ ev.orderRefNumber = ref ∧ ev.shares = shares ∧
      ev.matchNumber = matchNumber
  | .execOrderWithMessage h ref shares matchNumber _ price, ev =>
    CarriesHeader 'C' h ev ∧ ev.orderRefNumber = ref ∧ ev.shares = shares ∧
      ev.matchNumber = matchNumber ∧ ev.price = price
  | .cancelOrder h ref shares, ev =>
    CarriesHeader 'X' h ev ∧ ev.orderRefNumber = ref ∧ ev.shares = shares
  | .deleteOrder h ref, ev => CarriesHeader 'D' h ev ∧ ev.orderRefNumber = ref
  | .replaceOrder h ref newRef shares price, ev =>
    CarriesHeader 'U' h ev ∧ ev.orderRefNumber = ref ∧ ev.newOrderRefNumber = newRef ∧
      ev.shares = shares ∧ ev.price = price
  | .tradeNonCross h ref side shares stock price matchNumber, ev =>
    CarriesHeader 'P' h ev ∧ ev.orderRefNumber = ref ∧ ev.side = side ∧ ev.shares = shares ∧
      ev.stock = stock ∧ ev.price = price ∧ ev.matchNumber = matchNumber
  | .tradeCross h shares stock price matchNumber _, ev =>
    -- the event's shares are 32 bits wide
    CarriesHeader 'Q' h ev ∧ ev.shares.toNat = shares.toNat % 2 ^ 32 ∧ ev.stock = stock ∧
      ev.price = price ∧ ev.matchNumber = matchNumber
  | .other _ _ _ _, _ => False

/-! ### Reading what was written -/

/-- Swapping the load of a number written in `width` bytes. -/
theorem bswap_toBE {width n : ℕ} (h : n < 256 ^ width) : bswap width (ofLE (toBE width n)) = n := by
  have hload := bswap_ofLE (toBE width n)
  rw [length_toBE] at hload
  rw [hload, ofBE_toBE, Nat.mod_eq_of_lt h]

section Fields

variable (msg : List UInt8) (off : ℕ)

theorem bswap16_of_slice {n : UInt16} (h : slice off 2 msg = toBE 2 n.toNat) :
    bswap16 msg off = n := by
  rw [bswap16, h, bswap_toBE n.toNat_lt, UInt16.ofNat_toNat]

theorem bswap32_of_slice {n : UInt32} (h : slice off 4 msg = toBE 4 n.toNat) :
    bswap32 msg off = n := by
  rw [bswap32, h, bswap_toBE n.toNat_lt, UInt32.ofNat_toNat]

theorem bswap64_of_slice {n : UInt64} (h : slice off 8 msg = toBE 8 n.toNat) :
    bswap64 msg off = n := by
  rw [bswap64, h, bswap_toBE n.toNat_lt, UInt64.ofNat_toNat]

/-- The six bytes land in the top of the number, and the shift brings them down. -/
theorem be48tou64h_of_slice {n : BitVec 48} (h : slice off 6 msg = toBE 6 n.toNat) :
    (be48tou64h msg off).toNat = n.toNat := by
  have hload := bswap_ofLE_wide (toBE 6 n.toNat) 2
  have hlt : n.toNat < 256 ^ 6 := n.isLt
  rw [length_toBE, ofBE_toBE, Nat.mod_eq_of_lt hlt] at hload
  rw [be48tou64h, h, hload, UInt64.toNat_shiftRight, UInt64.toNat_ofNat',
    Nat.mod_eq_of_lt (by omega)]
  have hshift : UInt64.toNat 16 % 64 = 16 := rfl
  rw [hshift, Nat.shiftRight_eq_div_pow]
  omega

theorem stockAt_of_slice {stock : Symbol} (h : slice off 8 msg = stock.toList) :
    stockAt msg off = stock := by
  ext i hi
  simp [stockAt, h]

theorem sideAt_of_slice {side : Side} (h : slice off 1 msg = [indicator side]) :
    sideAt msg off = side := by
  rw [sideAt, h]
  cases side <;> rfl

end Fields

@[simp]
theorem Header.length_encode (h : Header) (type : Char) : (h.encode type).length = 11 := by
  simp [Header.encode]

/-- The header of the event is the header of the message. -/
theorem carriesHeader_fillHeader (h : Header) (type : Char) (rest : List UInt8) (slot : Event) :
    CarriesHeader type h (fillHeader type (h.encode type ++ rest) slot) := by
  have hcons : h.encode type = [type.toUInt8] ++ (toBE 2 h.stockLocate.toNat ++
    (toBE 2 h.trackingNumber.toNat ++ toBE 6 h.timestamp.toNat)) := rfl
  refine ⟨rfl, bswap16_of_slice _ _ ?_, bswap16_of_slice _ _ ?_, be48tou64h_of_slice _ _ ?_⟩ <;>
    simp (disch := simp) only [hcons, List.append_assoc, slice_skip, slice_front, length_toBE,
      List.length_singleton, Nat.reduceSub]

variable {m : Message} {rest : List UInt8}

/-- The type byte leads the message. -/
theorem Message.head_encode : ∃ tail, m.encode = m.encode.headD 0 :: tail := by
  cases m <;> exact ⟨_, rfl⟩

/-- Nothing is made of the other types. -/
theorem fill_other (hm : m.IsEvent = false) (slot : Event) :
    fill (m.encode.headD 0).toChar (m.encode ++ rest) slot = none := by
  cases m with
  | other type body unknown short =>
    change fill type.toChar _ slot = none
    rw [fill]
    all_goals
      intro h
      rw [h] at unknown
      exact unknown (by decide)
  | _ => cases hm

section Fill

-- From here on a load is what the lemmas above say of it.
attribute [local irreducible] bswap16 bswap32 bswap64 be48tou64h stockAt sideAt

variable (h : Header) (type : Char) (ref : UInt64) (shares : UInt32) (slot : Event)

theorem fillAddOrder_encode (side : Side) (stock : Symbol) (price : UInt32) :
    let ev := fillAddOrder type (h.encode type ++ (encodeOrder ref side shares stock price ++ rest))
      slot
    CarriesHeader type h ev ∧ ev.orderRefNumber = ref ∧ ev.side = side ∧ ev.shares = shares ∧
      ev.stock = stock ∧ ev.price = price := by
  refine ⟨carriesHeader_fillHeader h type _ slot, bswap64_of_slice _ _ ?_, sideAt_of_slice _ _ ?_,
    bswap32_of_slice _ _ ?_, stockAt_of_slice _ _ ?_, bswap32_of_slice _ _ ?_⟩ <;>
    simp (disch := simp) only [encodeOrder, List.append_assoc, slice_skip, slice_front,
      h.length_encode, length_toBE, Vector.length_toList, List.length_singleton, Nat.reduceSub]

theorem fillExecOrder_encode (matchNumber : UInt64) :
    let ev := fillExecOrder type (h.encode type ++ (toBE 8 ref.toNat ++ (toBE 4 shares.toNat ++
      (toBE 8 matchNumber.toNat ++ rest)))) slot
    CarriesHeader type h ev ∧ ev.orderRefNumber = ref ∧ ev.shares = shares ∧
      ev.matchNumber = matchNumber := by
  refine ⟨carriesHeader_fillHeader h type _ slot, bswap64_of_slice _ _ ?_, bswap32_of_slice _ _ ?_,
    bswap64_of_slice _ _ ?_⟩ <;>
    simp (disch := simp) only [slice_skip, slice_front, h.length_encode, length_toBE, Nat.reduceSub]

/-- **One message.** Whatever the slot held and whatever follows, the event carries the message. -/
theorem fill_encode (rest : List UInt8) (hm : m.IsEvent = true) :
    ∃ ev, fill (m.encode.headD 0).toChar (m.encode ++ rest) slot = some ev ∧
      ∀ tsc, Carries m { ev with tscIn := tsc } := by
  cases m with
  | addOrder h ref side shares stock price =>
    refine ⟨_, rfl, fun tsc => ?_⟩
    rw [Message.encode, List.append_assoc]
    exact fillAddOrder_encode h 'A' ref shares slot side stock price
  | addOrderWithMPID h ref side shares stock price attribution =>
    refine ⟨_, rfl, fun tsc => ?_⟩
    rw [Message.encode, List.append_assoc, List.append_assoc]
    exact fillAddOrder_encode h 'F' ref shares slot side stock price
  | execOrder h ref shares matchNumber =>
    refine ⟨_, rfl, fun tsc => ?_⟩
    simp only [Message.encode, List.append_assoc]
    exact fillExecOrder_encode h 'E' ref shares slot matchNumber
  | execOrderWithMessage h ref shares matchNumber printable price =>
    refine ⟨_, rfl, fun tsc => ?_⟩
    simp only [Message.encode, List.append_assoc]
    -- a C message is an E message with a price after its printable flag
    obtain ⟨hheader, href, hshares, hmatch⟩ :=
      fillExecOrder_encode h 'C' ref shares slot matchNumber
    refine ⟨hheader, href, hshares, hmatch, bswap32_of_slice _ _ ?_⟩
    simp (disch := simp) only [slice_skip, slice_front, h.length_encode, length_toBE,
      List.length_singleton, Nat.reduceSub]
  | cancelOrder h ref shares =>
    refine ⟨_, rfl, fun tsc => ?_⟩
    simp only [Message.encode, List.append_assoc]
    refine ⟨carriesHeader_fillHeader h 'X' _ slot, bswap64_of_slice _ _ ?_,
      bswap32_of_slice _ _ ?_⟩ <;>
      simp (disch := simp) only [slice_skip, slice_front, h.length_encode, length_toBE,
        Nat.reduceSub]
  | deleteOrder h ref =>
    refine ⟨_, rfl, fun tsc => ?_⟩
    simp only [Message.encode, List.append_assoc]
    refine ⟨carriesHeader_fillHeader h 'D' _ slot, bswap64_of_slice _ _ ?_⟩
    simp (disch := simp) only [slice_skip, slice_front, h.length_encode, Nat.reduceSub]
  | replaceOrder h ref newRef shares price =>
    refine ⟨_, rfl, fun tsc => ?_⟩
    simp only [Message.encode, List.append_assoc]
    refine ⟨carriesHeader_fillHeader h 'U' _ slot, bswap64_of_slice _ _ ?_,
      bswap64_of_slice _ _ ?_, bswap32_of_slice _ _ ?_, bswap32_of_slice _ _ ?_⟩ <;>
      simp (disch := simp) only [slice_skip, slice_front, h.length_encode, length_toBE,
        Nat.reduceSub]
  | tradeNonCross h ref side shares stock price matchNumber =>
    refine ⟨_, rfl, fun tsc => ?_⟩
    simp only [Message.encode, List.append_assoc]
    -- a P message is an A message with a match number after it
    obtain ⟨hheader, href, hside, hshares, hstock, hprice⟩ :=
      fillAddOrder_encode h 'P' ref shares slot side stock price
    refine ⟨hheader, href, hside, hshares, hstock, hprice, bswap64_of_slice _ _ ?_⟩
    simp (disch := simp) only [encodeOrder, List.append_assoc, slice_skip, slice_front,
      h.length_encode, length_toBE, Vector.length_toList, List.length_singleton, Nat.reduceSub]
  | tradeCross h shares stock price matchNumber crossType =>
    refine ⟨_, rfl, fun tsc => ?_⟩
    simp only [Message.encode, List.append_assoc]
    -- a cross trade's shares are 8 bytes, of which the event keeps 4
    have hshares : bswap64 (h.encode 'Q' ++ (toBE 8 shares.toNat ++ (stock.toList ++
        (toBE 4 price.toNat ++ (toBE 8 matchNumber.toNat ++ ([crossType] ++ rest)))))) 11 =
          shares := by
      refine bswap64_of_slice _ _ ?_
      simp (disch := simp) only [slice_skip, slice_front, h.length_encode, Nat.reduceSub]
    refine ⟨carriesHeader_fillHeader h 'Q' _ slot, ?_, stockAt_of_slice _ _ ?_,
      bswap32_of_slice _ _ ?_, bswap64_of_slice _ _ ?_⟩
    · exact (congrArg (fun n => n.toUInt32.toNat) hshares).trans (UInt64.toNat_toUInt32 _)
    all_goals
      simp (disch := simp) only [slice_skip, slice_front, h.length_encode, length_toBE,
        Vector.length_toList, Nat.reduceSub]
  | other type body unknown short => cases hm

end Fill

/-! ### The stream -/

theorem Message.length_encode_lt : m.encode.length < 256 ^ 2 := by
  cases m with
  | other type body unknown short =>
    rw [Message.encode, List.length_cons]
    omega
  | _ => simp [Message.encode, encodeOrder]

section Stream

variable {front : List UInt8} {p : ItchParser}

/-- At a frame, `next` reads the type of its message and its bytes, and leaves the cursor behind
it. -/
theorem ItchParser.next_frame (hdata : p.data = front ++ (m.frame ++ rest))
    (hcursor : p.cursor = front.length) (slot : Event) (tsc : UInt64) :
    p.next (some slot) tsc =
      ({ p with cursor := (front ++ m.frame).length },
        (fill (m.encode.headD 0).toChar (m.encode ++ rest) slot).map
          ({ · with tscIn := tsc })) := by
  obtain ⟨tail, hhead⟩ := m.head_encode
  have hdrop : p.data.drop (p.cursor + 2) = m.encode ++ rest := by
    rw [hdata, hcursor, Message.frame, List.append_assoc, ← List.append_assoc front]
    exact List.drop_left' (by simp)
  have htype : p.data[p.cursor + 2]?.getD 0 = m.encode.headD 0 := by
    rw [← List.head?_drop, hdrop, hhead]
    rfl
  have hlength : (bswap16 p.data p.cursor).toNat = m.encode.length := by
    have hlt := m.length_encode_lt
    have hof : (UInt16.ofNat m.encode.length).toNat = m.encode.length :=
      UInt16.toNat_ofNat_of_lt' hlt
    rw [bswap16_of_slice (n := UInt16.ofNat m.encode.length), hof]
    rw [hof, hdata, hcursor, slice_skip le_rfl, Nat.sub_self, Message.frame, List.append_assoc,
      slice_front length_toBE]
  -- the cursor passes the two length bytes and the message
  have hpast : p.cursor + 3 + m.encode.length - 1 = (front ++ m.frame).length := by
    rw [Message.frame, List.length_append, List.length_append, length_toBE, hcursor]
    omega
  rw [ItchParser.next, hdrop, htype, hlength, hpast]
  cases fill (m.encode.headD 0).toChar (m.encode ++ rest) slot <;> rfl

variable (tsc : ℕ → UInt64) {s : ParserLoop}

/-- **One frame.** The loop moves past it and publishes an event for it, if it is to have one. -/
theorem ParserLoop.next_frame (hdata : s.parser.data = front ++ (m.frame ++ rest))
    (hcursor : s.parser.cursor = front.length) :
    (s.next tsc).parser.data = s.parser.data ∧
      (s.next tsc).parser.cursor = (front ++ m.frame).length ∧
      ∃ evs, (s.next tsc).published = s.published ++ evs ∧
        List.Forall₂ Carries (if m.IsEvent then [m] else []) evs := by
  have hnext := ItchParser.next_frame hdata hcursor (s.slots (slotOf CORE_RING_CAPACITY s.tail))
    (tsc s.published.length)
  rw [ParserLoop.next, hnext]
  cases hm : m.IsEvent with
  | false =>
    rw [fill_other hm]
    exact ⟨rfl, rfl, [], (List.append_nil _).symm, .nil⟩
  | true =>
    obtain ⟨ev, hev, hcarries⟩ := fill_encode
      (s.slots (slotOf CORE_RING_CAPACITY s.tail)) rest hm
    rw [hev]
    exact ⟨rfl, rfl, [_], rfl, .cons (hcarries _) .nil⟩

/-- The loop over frames, by induction on them. -/
theorem ParserLoop.run_frames (ms : List Message) (extra : ℕ)
    (hdata : s.parser.data = front ++ ms.flatMap Message.frame)
    (hcursor : s.parser.cursor = front.length) :
    (run tsc (ms.length + extra) s).parser.data = s.parser.data ∧
      (run tsc (ms.length + extra) s).parser.cursor = s.parser.data.length ∧
      ∃ evs, (run tsc (ms.length + extra) s).published = s.published ++ evs ∧
        List.Forall₂ Carries (ms.filter Message.IsEvent) evs := by
  induction ms generalizing front s with
  | nil =>
    have hend : s.parser.cursor = s.parser.data.length := by
      rw [hcursor, hdata, List.flatMap_nil, List.append_nil]
    -- the loop is done, however often it is run
    have hstay : run tsc (0 + extra) s = s := by
      rw [zero_add]
      cases extra with
      | zero => rfl
      | succ extra => exact if_pos hend.ge
    rw [List.length_nil, hstay]
    exact ⟨rfl, hend, [], (List.append_nil _).symm, .nil⟩
  | cons m ms ih =>
    rw [List.flatMap_cons] at hdata
    have hmore : ¬ s.parser.Done := by
      rw [ItchParser.Done, hdata, hcursor, Message.frame]
      simp
    have hrun : run tsc ((m :: ms).length + extra) s =
        run tsc (ms.length + extra) (s.next tsc) := by
      rw [List.length_cons, Nat.add_right_comm]
      exact if_neg hmore
    obtain ⟨hdata', hcursor', evs, hevs, hcarries⟩ := ParserLoop.next_frame tsc hdata hcursor
    rw [hrun]
    have hrest : (s.next tsc).parser.data = (front ++ m.frame) ++ ms.flatMap Message.frame := by
      rw [hdata', hdata, List.append_assoc]
    obtain ⟨hdata'', hend, evs', hevs', hcarries'⟩ := ih hrest hcursor'
    refine ⟨hdata''.trans hdata', hend.trans (by rw [hdata']), evs ++ evs', ?_, ?_⟩
    · rw [hevs', hevs, List.append_assoc]
    · -- a message that is no event publishes none
      have hsplit : (m :: ms).filter Message.IsEvent =
          (if m.IsEvent then [m] else []) ++ ms.filter Message.IsEvent := by
        cases hm : m.IsEvent <;> simp [hm]
      rw [hsplit]
      exact List.rel_append hcarries hcarries'

/-- **Decoding is faithful.** Over any messages, whatever the slots of the ring held, the loop comes
to the end of the input, and has published an event for each message that is to have one, in their
order, and nothing else. -/
theorem decode_stream (ms : List Message) (slots : ℕ → Event) (tail : UInt32) (extra : ℕ) :
    let start : ParserLoop := { parser := { data := ms.flatMap Message.frame }, slots, tail }
    let stop := start.run tsc (ms.length + extra)
    stop.parser.Done ∧ stop.parser.cursor = (ms.flatMap Message.frame).length ∧
      List.Forall₂ Carries (ms.filter Message.IsEvent) stop.published := by
  intro start stop
  have hdata : start.parser.data = [] ++ ms.flatMap Message.frame := rfl
  obtain ⟨hsame, hcursor, evs, hevs, hcarries⟩ := ParserLoop.run_frames tsc ms extra hdata rfl
  refine ⟨?_, hcursor, ?_⟩
  · exact (congrArg List.length hsame).trans_le hcursor.ge
  · rw [hevs]
    exact hcarries

end Stream

end Exchange

end LowLatencyPipeline
