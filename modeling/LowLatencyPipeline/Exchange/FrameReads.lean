import LowLatencyPipeline.Exchange.ItchParser
import LowLatencyPipeline.Library.Reading

/-!
# What the parser reads

`next` copies the two bytes of the length, the byte of the type and the packed struct of a type that
it knows out of the file, and compares neither with the other, nor with the end of the file.
`nextReading` is `next` with the offsets that it reads.

* `ItchParser.mem_reads`: what is read are the length and the `needed` bytes behind it, whatever
  the length says; `next_of_agree`: the outcome depends on these bytes alone.
* `Framed` are the files that can be read frame by frame, and `framed_iff` takes one frame off.
* `contained_iff`: the loop reads every frame inside of it exactly on these files. On any file it
  comes to an end.
-/

namespace LowLatencyPipeline

namespace Exchange

open Bytes Common.SpscRing

/-! ### The copies of `next` -/

/-- `sizeof` of the struct that a message is copied to, for the types of the switch. -/
def structSize (type : Char) : Option ℕ :=
  match type with
  | 'A' => some 36
  | 'F' => some 40
  | 'E' => some 31
  | 'C' => some 36
  | 'X' => some 23
  | 'D' => some 19
  | 'U' => some 35
  | 'P' => some 44
  | 'Q' => some 40
  | _ => none

/-- The bytes behind the length that are read: the type at least. -/
def needed (type : Char) : ℕ := (structSize type).getD 1

theorem needed_pos (type : Char) : 1 ≤ needed type := by
  unfold needed structSize
  split <;> decide

/-- `next` with the cursor alone, copy by copy. -/
def nextReading (cursor : ℕ) (claim : Option Event) (tsc : UInt64) :
    Reading (ℕ × Option Event) := do
  let frameLength := (bswap16 (← .read cursor 2) 0).toNat
  let type := ((← .read (cursor + 2) 1)[0]?.getD 0).toChar
  let cursor := cursor + 3
  match claim with
  | none => return (cursor, none)
  | some slot =>
    match structSize type with
    | none => return (cursor + frameLength - 1, none)
    | some size =>
      let msg ← .read (cursor - 1) size
      return (cursor + frameLength - 1, (fill type msg slot).map ({ · with tscIn := tsc }))

/-- The fields of a message lie within its struct. -/
theorem fill_congr {type : Char} {size : ℕ} {msg msg' : List UInt8}
    (hsize : structSize type = some size)
    (h : ∀ off n, off + n ≤ size → slice off n msg = slice off n msg') (slot : Event) :
    fill type msg slot = fill type msg' slot := by
  unfold structSize at hsize
  split at hsize
  case h_10 => exact absurd hsize (by simp)
  all_goals
    obtain rfl := Option.some.inj hsize
    simp (disch := decide) only [fill, fillAddOrder, fillExecOrder, fillExecOrderWithMessage,
      fillCancelOrder, fillDeleteOrder, fillReplaceOrder, fillTradeMessageNonCross,
      fillTradeMessageCross, fillHeader, bswap16, bswap32, bswap64, be48tou64h, stockAt, sideAt, h]

theorem fill_eq_none {type : Char} (hsize : structSize type = none) (msg : List UInt8)
    (slot : Event) : fill type msg slot = none := by
  unfold structSize at hsize
  split at hsize
  case h_10 =>
    rw [fill]
    all_goals assumption
  all_goals exact absurd hsize (by simp)

namespace ItchParser

variable (p : ItchParser)

/-- The length that the code reads, in the two bytes at the cursor. -/
def frameLength : ℕ := (bswap16 p.data p.cursor).toNat

/-- The type that the code reads. -/
def type : Char := (p.data[p.cursor + 2]?.getD 0).toChar

/-- The offsets of the file that a call of `next` reads. -/
def reads (slot : Event) (tsc : UInt64) : List ℕ :=
  ((nextReading p.cursor (some slot) tsc).run p.data).2

/-- **The reading is `next`.** -/
theorem next_eq_run (claim : Option Event) (tsc : UInt64) :
    p.next claim tsc =
      ({ p with cursor := ((nextReading p.cursor claim tsc).run p.data).1.1 },
        ((nextReading p.cursor claim tsc).run p.data).1.2) := by
  have hlength : bswap16 (slice p.cursor 2 p.data) 0 = bswap16 p.data p.cursor := by
    rw [bswap16, slice_slice le_rfl, bswap16, slice, List.drop_zero, slice]
  have htype : (slice (p.cursor + 2) 1 p.data)[0]?.getD 0 = p.data[p.cursor + 2]?.getD 0 := by
    rw [slice, List.getElem?_take_of_lt Nat.zero_lt_one, List.getElem?_drop, add_zero]
  unfold next nextReading
  simp only [Reading.bind_run, Reading.read_run, hlength, htype]
  cases claim with
  | none => rfl
  | some slot =>
    dsimp only
    cases hsize : structSize (p.data[p.cursor + 2]?.getD 0).toChar with
    | none =>
      rw [fill_eq_none hsize]
      rfl
    | some size =>
      have hfill : fill (p.data[p.cursor + 2]?.getD 0).toChar (p.data.drop (p.cursor + 2)) slot =
          fill (p.data[p.cursor + 2]?.getD 0).toChar (slice (p.cursor + 2) size p.data) slot :=
        fill_congr hsize (fun off n hn => (slice_slice hn).symm) slot
      have hback : p.cursor + 3 - 1 = p.cursor + 2 := rfl
      simp only [hfill, Reading.bind_run, Reading.read_run, Reading.pure_run, hback]
      cases fill (p.data[p.cursor + 2]?.getD 0).toChar (slice (p.cursor + 2) size p.data) slot <;>
        rfl

/-- **What is read**: the length and the bytes needed for the type. -/
theorem mem_reads {slot : Event} {tsc : UInt64} {i : ℕ} :
    i ∈ p.reads slot tsc ↔ p.cursor ≤ i ∧ i < p.cursor + 2 + needed p.type := by
  have htype : (slice (p.cursor + 2) 1 p.data)[0]?.getD 0 = p.data[p.cursor + 2]?.getD 0 := by
    rw [slice, List.getElem?_take_of_lt Nat.zero_lt_one, List.getElem?_drop, add_zero]
  unfold reads nextReading needed type
  simp only [Reading.bind_run, Reading.read_run, htype]
  cases hsize : structSize (p.data[p.cursor + 2]?.getD 0).toChar with
  | none =>
    simp only [Reading.pure_run, List.append_nil, List.mem_append, List.mem_range'_1,
      Option.getD_none]
    omega
  | some size =>
    have hpos := needed_pos (p.data[p.cursor + 2]?.getD 0).toChar
    rw [needed, hsize, Option.getD_some] at hpos
    simp only [Reading.bind_run, Reading.read_run, Reading.pure_run, List.append_nil,
      List.mem_append, List.mem_range'_1, Option.getD_some]
    omega

/-- **Nothing else matters**: on a file with the same bytes there, `next` publishes the same event
and moves the cursor as far. -/
theorem next_of_agree {bs : List UInt8} {slot : Event} {tsc : UInt64}
    (h : ∀ i, p.cursor ≤ i → i < p.cursor + 2 + needed p.type → bs[i]? = p.data[i]?) :
    (ItchParser.next { p with data := bs } (some slot) tsc).2 = (p.next (some slot) tsc).2 ∧
      (ItchParser.next { p with data := bs } (some slot) tsc).1.cursor =
        (p.next (some slot) tsc).1.cursor := by
  have hrun : (nextReading p.cursor (some slot) tsc).run bs =
      (nextReading p.cursor (some slot) tsc).run p.data :=
    (nextReading p.cursor (some slot) tsc).use fun i hi => by
      obtain ⟨hlow, hhigh⟩ := p.mem_reads.1 hi
      exact h i hlow hhigh
  rw [next_eq_run, next_eq_run, hrun]
  exact ⟨rfl, rfl⟩

/-- A call of `next` stays inside the frame at the cursor: it reads bytes of the file that belong to
the frame, publishes no message that is larger than the frame, and moves the cursor on. -/
structure InFrame (slot : Event) (tsc : UInt64) : Prop where
  reads : ∀ i ∈ p.reads slot tsc, i < p.data.length ∧ p.cursor ≤ i ∧
    i < p.cursor + 2 + p.frameLength
  publishes : ∀ ev, (p.next (some slot) tsc).2 = some ev →
    ∃ size, structSize ev.messageType = some size ∧ size ≤ p.frameLength
  advances : p.cursor < (p.next (some slot) tsc).1.cursor

variable {p}

/-- A call moves the cursor by what the length says. -/
theorem next_past (slot : Event) (tsc : UInt64) :
    (p.next (some slot) tsc).1 = { p with cursor := p.cursor + 2 + p.frameLength } := by
  have hpast : p.cursor + 3 + p.frameLength - 1 = p.cursor + 2 + p.frameLength := by omega
  rw [← hpast]
  unfold next
  dsimp only
  cases fill (p.data[p.cursor + 2]?.getD 0).toChar (p.data.drop (p.cursor + 2)) slot <;> rfl

/-- The event has the type of its frame. -/
theorem structSize_of_fill {type : Char} {msg : List UInt8} {slot ev : Event}
    (h : fill type msg slot = some ev) : structSize ev.messageType = some (needed type) := by
  unfold fill at h
  split at h
  case h_10 => cases h
  all_goals
    obtain rfl := Option.some.inj h
    rfl

/-- **One call** stays inside its frame exactly when the file has the bytes needed for the type, and
the frame is long enough for them. -/
theorem inFrame_iff (slot : Event) (tsc : UInt64) : p.InFrame slot tsc ↔
    needed p.type ≤ p.frameLength ∧ p.cursor + 2 + needed p.type ≤ p.data.length := by
  have hpos := needed_pos p.type
  constructor
  · intro h
    -- the last byte that is read
    obtain ⟨hfile, -, hframe⟩ := h.reads (p.cursor + 1 + needed p.type)
      (p.mem_reads.2 ⟨by omega, by omega⟩)
    exact ⟨by omega, by omega⟩
  · rintro ⟨hframe, hfile⟩
    refine ⟨fun i hi => ?_, fun ev hev => ?_, ?_⟩
    · obtain ⟨hlow, hhigh⟩ := p.mem_reads.1 hi
      exact ⟨by omega, hlow, by omega⟩
    · unfold next at hev
      dsimp only at hev
      cases hfill :
        fill (p.data[p.cursor + 2]?.getD 0).toChar (p.data.drop (p.cursor + 2)) slot with
      | none =>
        rw [hfill] at hev
        cases hev
      | some filled =>
        rw [hfill] at hev
        obtain rfl := Option.some.inj hev
        have hsize := structSize_of_fill hfill
        exact ⟨_, hsize, hframe⟩
    · rw [next_past]
      exact Nat.lt_of_lt_of_le (Nat.lt_add_of_pos_right Nat.two_pos) (Nat.le_add_right _ _)

end ItchParser

/-! ### Files of frames -/

/-- The type of the message in a frame. -/
def typeOf (body : List UInt8) : Char := (body.headD 0).toChar

/-- **Files of frames**, each long enough for the message of its type. Only the last one may be cut
short by the end of the file, behind the bytes that are needed. -/
inductive Framed : List UInt8 → Prop
  | nil : Framed []
  | frame {body rest : List UInt8} (hlen : body.length < 256 ^ 2)
    (hfit : needed (typeOf body) ≤ body.length) (hrest : Framed rest) :
    Framed (toBE 2 body.length ++ (body ++ rest))
  | cut {n : ℕ} {body : List UInt8} (hlen : n < 256 ^ 2) (hcut : body.length < n)
    (hfit : needed (typeOf body) ≤ body.length) : Framed (toBE 2 n ++ body)

section Frames

variable {n : ℕ} {bs body : List UInt8}

/-- The parser at the beginning of a file. -/
def atStart (bs : List UInt8) : ItchParser := { data := bs }

theorem frameLength_atStart (hlen : n < 256 ^ 2) :
    (atStart (toBE 2 n ++ body)).frameLength = n := by
  have hof : (UInt16.ofNat n).toNat = n := UInt16.toNat_ofNat_of_lt' hlen
  have hread : bswap16 (toBE 2 n ++ body) 0 = UInt16.ofNat n :=
    bswap16_of_slice _ _ (by rw [slice_front length_toBE, hof])
  change (bswap16 (toBE 2 n ++ body) 0).toNat = n
  rw [hread, hof]

theorem type_atStart : (atStart (toBE 2 n ++ body)).type = typeOf body := by
  change ((toBE 2 n ++ body)[0 + 2]?.getD 0).toChar = _
  rw [List.getElem?_append_right (by rw [length_toBE]), length_toBE, typeOf]
  cases body <;> rfl

/-- Two bytes of a file are a length. -/
theorem exists_toBE (h : 2 ≤ bs.length) : ∃ n body, n < 256 ^ 2 ∧ bs = toBE 2 n ++ body := by
  have htake : (bs.take 2).length = 2 := List.length_take_of_le h
  have hlt := ofBE_lt (bs.take 2)
  have hback := toBE_ofBE (bs.take 2)
  rw [htake] at hlt hback
  exact ⟨ofBE (bs.take 2), bs.drop 2, hlt, by rw [hback, List.take_append_drop]⟩

theorem typeOf_append {rest : List UInt8} (h : 1 ≤ body.length) :
    typeOf (body ++ rest) = typeOf body := by
  cases body with
  | nil => exact absurd h (Nat.not_succ_le_zero 0)
  | cons b body => rfl

theorem drop_frame {rest : List UInt8} :
    (toBE 2 n ++ (body ++ rest)).drop (2 + body.length) = rest := by
  rw [← List.append_assoc]
  exact List.drop_left' (by rw [List.length_append, length_toBE])

/-- **One frame off.** -/
theorem framed_iff (hne : bs ≠ []) : Framed bs ↔
    needed (atStart bs).type ≤ (atStart bs).frameLength ∧
      2 + needed (atStart bs).type ≤ bs.length ∧
      Framed (bs.drop (2 + (atStart bs).frameLength)) := by
  constructor
  · intro h
    cases h with
    | nil => exact absurd rfl hne
    | @frame body rest hlen hfit hrest =>
      rw [type_atStart, frameLength_atStart hlen, typeOf_append ((needed_pos _).trans hfit),
        List.length_append, length_toBE, List.length_append, drop_frame]
      exact ⟨hfit, by omega, hrest⟩
    | @cut n body hlen hcut hfit =>
      rw [type_atStart, frameLength_atStart hlen, List.length_append, length_toBE,
        List.drop_eq_nil_of_le (by rw [List.length_append, length_toBE]; omega)]
      exact ⟨by omega, by omega, .nil⟩
  · rintro ⟨hfit, hlong, hrest⟩
    have hpos := needed_pos (atStart bs).type
    obtain ⟨n, body, hlen, rfl⟩ := exists_toBE (show 2 ≤ bs.length by omega)
    rw [type_atStart] at hfit hlong
    rw [frameLength_atStart hlen] at hfit hrest
    rw [List.length_append, length_toBE] at hlong
    rcases Nat.lt_or_ge body.length n with hcut | hwhole
    · exact .cut hlen hcut (by omega)
    · obtain ⟨front, rest, rfl, rfl⟩ : ∃ front rest, body = front ++ rest ∧ front.length = n :=
        ⟨body.take n, body.drop n, (List.take_append_drop n body).symm,
          List.length_take_of_le hwhole⟩
      rw [type_atStart] at hpos
      rw [typeOf_append (hpos.trans hfit)] at hfit
      rw [drop_frame] at hrest
      exact .frame hlen hfit hrest

/-- A frame of a file is one at the beginning of what is left of it. -/
theorem atStart_drop (p : ItchParser) :
    (atStart (p.data.drop p.cursor)).frameLength = p.frameLength ∧
      (atStart (p.data.drop p.cursor)).type = p.type := by
  constructor
  · change (bswap16 (p.data.drop p.cursor) 0).toNat = (bswap16 p.data p.cursor).toNat
    rw [bswap16, slice, List.drop_zero, bswap16, slice]
  · change ((p.data.drop p.cursor)[0 + 2]?.getD 0).toChar = _
    rw [List.getElem?_drop, zero_add]
    rfl

end Frames

/-! ### The loop -/

namespace ParserLoop

variable {tsc : ℕ → UInt64} {s : ParserLoop}

/-- The slot that the next call of `next` claims. -/
def claimed (s : ParserLoop) : Event := s.slots (slotOf CORE_RING_CAPACITY s.tail)

/-- **The feed loop stays inside of its frames**: every call that it makes does, and it ends. -/
structure Contained (tsc : ℕ → UInt64) (s : ParserLoop) : Prop where
  inFrame : ∀ n, ¬ (s.run tsc n).parser.Done →
    (s.run tsc n).parser.InFrame (s.run tsc n).claimed (tsc (s.run tsc n).published.length)
  ends : ∃ n, (s.run tsc n).parser.Done

theorem next_past : (s.next tsc).parser =
    { s.parser with cursor := s.parser.cursor + 2 + s.parser.frameLength } := by
  rw [← ItchParser.next_past s.claimed (tsc s.published.length)]
  unfold next claimed
  dsimp only
  rcases s.parser.next (some (s.slots (slotOf CORE_RING_CAPACITY s.tail)))
    (tsc s.published.length) with ⟨parser, ev | ev⟩ <;> rfl

theorem run_of_done (h : s.parser.Done) (n : ℕ) : s.run tsc n = s := by
  cases n with
  | zero => rfl
  | succ n => exact if_pos h

theorem run_succ (h : ¬ s.parser.Done) (n : ℕ) : s.run tsc (n + 1) = (s.next tsc).run tsc n :=
  if_neg h

/-- **The loop ends** on any file: each call moves the cursor on. -/
theorem run_ends (s : ParserLoop) : ∃ n, (s.run tsc n).parser.Done := by
  induction hleft : s.parser.data.length - s.parser.cursor using Nat.strong_induction_on
    generalizing s with
  | _ left ih =>
    by_cases hdone : s.parser.Done
    · exact ⟨0, hdone⟩
    · have hmore : s.parser.cursor < s.parser.data.length := Nat.lt_of_not_le hdone
      obtain ⟨n, hn⟩ := ih _ (by rw [next_past]; dsimp only; omega) (s.next tsc) rfl
      exact ⟨n + 1, by rwa [run_succ hdone]⟩

/-- One call, and then the rest of the loop. -/
theorem contained_step (h : ¬ s.parser.Done) : s.Contained tsc ↔
    s.parser.InFrame s.claimed (tsc s.published.length) ∧ (s.next tsc).Contained tsc := by
  constructor
  · intro hs
    refine ⟨hs.inFrame 0 h, fun n hn => ?_, run_ends _⟩
    rw [← run_succ h] at hn ⊢
    exact hs.inFrame (n + 1) hn
  · rintro ⟨hfirst, hrest⟩
    refine ⟨fun n hn => ?_, run_ends s⟩
    cases n with
    | zero => exact hfirst
    | succ n =>
      rw [run_succ h] at hn ⊢
      exact hrest.inFrame n hn

/-- By induction on what is left of the file. -/
theorem contained_iff_drop :
    s.Contained tsc ↔ Framed (s.parser.data.drop s.parser.cursor) := by
  induction hleft : s.parser.data.length - s.parser.cursor using Nat.strong_induction_on
    generalizing s with
  | _ left ih =>
    by_cases hdone : s.parser.Done
    · rw [List.drop_eq_nil_of_le hdone]
      refine iff_of_true ⟨fun n hn => ?_, 0, hdone⟩ .nil
      rw [run_of_done hdone] at hn
      exact absurd hdone hn
    · have hmore : s.parser.cursor < s.parser.data.length := Nat.lt_of_not_le hdone
      have hnext : (s.next tsc).parser = _ := next_past
      have hrest := ih _ (by rw [hnext]; dsimp only; omega) (s := s.next tsc) rfl
      have hne : s.parser.data.drop s.parser.cursor ≠ [] := by
        rw [Ne, List.drop_eq_nil_iff]
        omega
      obtain ⟨hlength, htype⟩ := atStart_drop s.parser
      rw [contained_step hdone, ItchParser.inFrame_iff, hrest, hnext, framed_iff hne, hlength,
        htype, List.length_drop, List.drop_drop, and_assoc, Nat.add_assoc]
      exact and_congr_right fun _ => and_congr (by omega) (by rw [Nat.add_assoc])

/-- **The exact files**: the loop stays inside of its frames exactly on a file of frames, each long
enough for its message. -/
theorem contained_iff (tsc : ℕ → UInt64) (bs : List UInt8) (slots : ℕ → Event) (tail : UInt32) :
    Contained tsc { parser := { data := bs }, slots, tail } ↔ Framed bs :=
  contained_iff_drop

/-- A delete of one byte, and a system event behind it. -/
def shortFrame : List UInt8 := [0, 1, 'D'.toUInt8, 0, 20, 'S'.toUInt8] ++ List.replicate 19 0

/-- **A short frame** is filled up from the next one: the first call reads 19 bytes where the frame
has one. -/
theorem reads_neighbour :
    ¬ ∀ (tsc : ℕ → UInt64) (bs : List UInt8) (slots : ℕ → Event) (tail : UInt32),
      Contained tsc { parser := { data := bs }, slots, tail } := by
  intro hall
  have hfirst := (hall (fun _ => 0) shortFrame (fun _ => .zero) 0).inFrame 0 (by decide)
  obtain ⟨-, -, hframe⟩ := hfirst.reads 20 (by decide)
  exact absurd hframe (by decide)

end ParserLoop

/-! ### Streams of messages -/

/-- A message is as long as its struct. -/
theorem Message.needed_le (m : Message) : needed (typeOf m.encode) ≤ m.encode.length := by
  cases m with
  | other type body unknown short =>
    have hother : structSize type.toChar = none := by
      unfold structSize
      split
      case h_10 => rfl
      all_goals
        rename_i htype
        rw [htype] at unknown
        exact absurd (by decide) unknown
    change (structSize type.toChar).getD 1 ≤ _
    rw [hother, Message.encode, List.length_cons]
    exact Nat.le_add_left 1 _
  | _ =>
    simp only [Message.encode, encodeOrder, List.length_append, Header.length_encode, length_toBE,
      Vector.length_toList, List.length_singleton]
    exact Nat.le_of_eq rfl

/-- **The streams that are decoded are files of frames.** -/
theorem framed_messages (ms : List Message) : Framed (ms.flatMap Message.frame) := by
  induction ms with
  | nil => exact .nil
  | cons m ms ih =>
    rw [List.flatMap_cons, Message.frame, List.append_assoc]
    exact .frame m.length_encode_lt m.needed_le ih

end Exchange

end LowLatencyPipeline
