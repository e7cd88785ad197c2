import LowLatencyPipeline.Common.ConfigFile
import LowLatencyPipeline.Library.Strtol

/-!
# What a config file says

The format of config files, without the loops that read it: `Means line said` is how a line may be
laid out that holds a pair, or nothing. `load` accepts a file exactly if every line is laid out so
and fits, and there is room for the keys (`load_iff`), and then it stores what the lines say.

The getters `get_i64`, `get_f64` and `get_bool` read a value as a whole; `strtod` is a parameter.

`load_render`: whatever was stored can be written to a file, and is loaded from it as it was.
-/

namespace LowLatencyPipeline

namespace Common

open Cut LastWins

/-! ### The getters -/

/-- `LLONG_MIN`. -/
def LLONG_MIN : ℤ := -9223372036854775808

/-- `LLONG_MAX`. -/
def LLONG_MAX : ℤ := 9223372036854775807

namespace Config

variable (c : Config)

/-- `get_i64`. -/
def getI64 (key : List Char) (d : ℤ) : ℤ :=
  match c.entries.lookup key with
  | none => d
  | some val =>
    match Strtol.strtol LLONG_MIN LLONG_MAX (val.filter (· ≠ '_')) with
    | some (v, []) => v
    | _ => d

/-- `get_f64`, by what `strtod` makes of a text: the number at its front and what follows it, or
`none`. -/
def getF64 {F : Type*} (strtod : List Char → Option (F × List Char)) (key : List Char) (d : F) :
    F :=
  match c.entries.lookup key with
  | none => d
  | some val =>
    match strtod val with
    | some (v, []) => v
    | _ => d

/-- `get_bool`. -/
def getBool (key : List Char) (d : Bool) : Bool :=
  match c.entries.lookup key with
  | none => d
  | some v =>
    if v = "1".toList ∨ v = "true".toList ∨ v = "yes".toList then true
    else if v = "0".toList ∨ v = "false".toList ∨ v = "no".toList then false
    else d

end Config

/-! ### The format -/

/-- A key and a value that an entry can hold. -/
structure IsPair (key val : List Char) : Prop where
  ne_nil : key ≠ []
  head : key.head? ≠ some '#'
  no_eq : '=' ∉ key
  no_newline : '\n' ∉ key ∧ '\n' ∉ val
  bare_key : Bare isBlank isSpace key
  bare_val : Bare isBlank isSpace val
  key_lt : key.length < KEY_LEN
  val_lt : val.length < VAL_LEN

/-- The line holds the pair, with blanks around the key and the value. -/
def LaidOut (line key val : List Char) : Prop :=
  ∃ a b c d, line = a ++ (key ++ (b ++ '=' :: (c ++ (val ++ d)))) ∧
    (∀ x ∈ a ++ c, isBlank x = true) ∧ ∀ x ∈ b ++ d, isSpace x = true

/-- What a line says: nothing, if it is empty or a comment, or a pair. -/
inductive Means (line : List Char) : Option (List Char × List Char) → Prop
  | empty (a b : List Char) (h : line = a ++ b) (ha : ∀ x ∈ a, isBlank x = true)
      (hb : ∀ x ∈ b, isSpace x = true) : Means line none
  | comment (a b : List Char) (h : line = a ++ '#' :: b) (ha : ∀ x ∈ a, isBlank x = true) :
      Means line none
  | pair (key val : List Char) (hpair : IsPair key val) (h : LaidOut line key val) :
      Means line (some (key, val))

/-! ### Trimming -/

theorem isSpace_of_isBlank {a : Char} (h : isBlank a = true) : isSpace a = true := by
  simp only [isBlank, isSpace, decide_eq_true_eq] at *
  tauto

variable {line key val s t front back : List Char}

theorem bare_trim (s : List Char) : Bare isBlank isSpace (trim s) := bare_strip _ _ s

theorem exists_trim (s : List Char) : ∃ front back, s = front ++ (trim s ++ back) ∧
    (∀ a ∈ front, isBlank a = true) ∧ ∀ a ∈ back, isSpace a = true :=
  exists_strip _ _ s

theorem mem_of_mem_trim {a : Char} (h : a ∈ trim s) : a ∈ s :=
  (List.rdropWhile_prefix _ _).sublist.trans (List.dropWhile_sublist _) |>.mem h

theorem trim_append (hfront : ∀ a ∈ front, isBlank a = true) (hback : ∀ a ∈ back, isSpace a = true)
    (hs : Bare isBlank isSpace s) : trim (front ++ (s ++ back)) = s :=
  strip_append hfront hback hs

/-- A line that holds a pair is cut at the sign between them. -/
theorem LaidOut.cut (h : LaidOut line key val) (hpair : IsPair key val) :
    ∃ front rest, trim line = front ++ '=' :: rest ∧ '=' ∉ front ∧ trim front = key ∧
      trim rest = val ∧ (front ++ '=' :: rest).head? ≠ some '#' := by
  obtain ⟨a, b, c, d, rfl, hblank, hspace⟩ := h
  obtain ⟨k, key', hkey⟩ := List.exists_cons_of_ne_nil hpair.ne_nil
  have ha : ∀ x ∈ a, isBlank x = true := fun x hx => hblank x (List.mem_append_left _ hx)
  have hb : ∀ x ∈ b, isSpace x = true := fun x hx => hspace x (List.mem_append_left _ hx)
  have hc : ∀ x ∈ c, isBlank x = true := fun x hx => hblank x (List.mem_append_right _ hx)
  have hd : ∀ x ∈ d, isSpace x = true := fun x hx => hspace x (List.mem_append_right _ hx)
  have hfront : '=' ∉ key ++ b := by
    rw [List.mem_append, not_or]
    exact ⟨hpair.no_eq, fun hmem => absurd (hb _ hmem) (by decide)⟩
  have hkeyb : trim ([] ++ (key ++ b)) = key :=
    trim_append (List.forall_mem_nil _) hb hpair.bare_key
  have hhead : ∀ rest, ((key ++ b) ++ '=' :: rest).head? = some k := by
    intro rest
    rw [hkey]
    rfl
  have hk : some k ≠ some '#' := by
    have h := hpair.head
    rwa [hkey] at h
  -- the blanks behind the sign go with those behind the value if there is no value
  by_cases hval : val = []
  · have hbare : Bare isBlank isSpace ((key ++ b) ++ ['=']) := by
      refine ⟨fun x hx => ?_, fun x hx => ?_⟩
      · rw [hhead] at hx
        exact hpair.bare_key.1 x (by rwa [hkey])
      · rw [List.getLast?_concat] at hx
        cases hx
        rfl
    have hcd : ∀ x ∈ c ++ d, isSpace x = true := fun x hx =>
      (List.mem_append.1 hx).elim (fun h => isSpace_of_isBlank (hc x h)) (hd x)
    refine ⟨key ++ b, [], ?_, hfront, hkeyb, hval.symm ▸ rfl, by rwa [hhead]⟩
    have htrim := trim_append ha hcd hbare
    simpa only [hval, List.append_assoc, List.nil_append, List.cons_append] using htrim
  · have hbare : Bare isBlank isSpace ((key ++ b) ++ '=' :: (c ++ val)) := by
      refine ⟨fun x hx => ?_, fun x hx => hpair.bare_val.2 x ?_⟩
      · rw [hhead] at hx
        exact hpair.bare_key.1 x (by rwa [hkey])
      · rwa [← List.cons_append, ← List.append_assoc, List.getLast?_append_of_ne_nil _ hval] at hx
    have hcval : trim (c ++ (val ++ [])) = val :=
      trim_append hc (List.forall_mem_nil _) hpair.bare_val
    rw [List.append_nil] at hcval
    refine ⟨key ++ b, c ++ val, ?_, hfront, hkeyb, hcval, by rwa [hhead]⟩
    have htrim := trim_append ha hd hbare
    simpa only [List.append_assoc, List.cons_append] using htrim

/-- A line that is cut at a sign holds the pair. -/
theorem laidOut_of_cut {rest : List Char} (hline : trim line = front ++ '=' :: rest)
    (hhead : (trim line).head? ≠ some '#') :
    LaidOut line (trim front) (trim rest) ∧ (trim front).head? ≠ some '#' := by
  obtain ⟨a, d, hsplit, ha, hd⟩ := exists_trim line
  obtain ⟨a', b, hfront, ha', hb⟩ := exists_trim front
  obtain ⟨c, d', hrest, hc, hd'⟩ := exists_trim rest
  -- nothing is in front of the key in the trimmed line
  have hnil : a' = [] := by
    cases a' with
    | nil => rfl
    | cons x a' =>
      have hbare := (bare_trim line).1 x (by rw [hline, hfront]; rfl)
      rw [ha' x List.mem_cons_self] at hbare
      cases hbare
  subst hnil
  rw [List.nil_append] at hfront
  refine ⟨⟨a, b, c, d' ++ d, ?_, ?_, ?_⟩, fun hkey => hhead ?_⟩
  · conv_lhs => rw [hsplit, hline, hfront, hrest]
    simp only [List.append_assoc, List.cons_append]
  · exact fun x hx => (List.mem_append.1 hx).elim (ha x) (hc x)
  · intro x hx
    rcases List.mem_append.1 hx with hx | hx
    · exact hb x hx
    · exact (List.mem_append.1 hx).elim (hd' x) (hd x)
  · rw [hline, hfront, List.append_assoc, List.head?_append, hkey]
    rfl

/-! ### What a line means -/

/-- The verdict on a line with this meaning. -/
def verdictOn (stored : List (List Char)) : Option (List Char × List Char) → Verdict
  | none => .skipped
  | some (key, val) => verdictOnPair stored key val

/-- **The rules read what is meant.** -/
theorem Means.verdict {said : Option (List Char × List Char)} (h : Means line said)
    (hlen : line.length < 384) (stored : List (List Char)) :
    verdict stored line = verdictOn stored said := by
  rw [Common.verdict, if_neg (by omega)]
  cases h with
  | empty a b hline ha hb =>
    have htrim : trim line = [] := by
      rw [hline]
      exact trim_append (s := []) ha hb bare_nil
    rw [if_pos (.inl htrim)]
    rfl
  | comment a b hline ha =>
    have htrim : (trim line).head? = some '#' := by
      rw [hline, trim, List.dropWhile_append_of_pos ha, List.dropWhile_cons_of_neg (by decide)]
      obtain ⟨back, hback⟩ := List.rdropWhile_prefix isSpace ('#' :: b)
      cases ht : ('#' :: b).rdropWhile isSpace with
      | nil => exact absurd (List.rdropWhile_eq_nil_iff.1 ht '#' List.mem_cons_self) (by decide)
      | cons x t =>
        rw [ht] at hback
        exact congrArg some (List.cons.inj hback).1
    rw [if_pos (.inr htrim)]
    rfl
  | pair key val hpair hlaid =>
    obtain ⟨front, rest, hline, hfront, hkey, hval, hhead⟩ := hlaid.cut hpair
    have htake : ∀ b ∈ front, decide (b ≠ '=') = true := fun b hb => by
      simpa using fun heq : b = '=' => hfront (heq ▸ hb)
    rw [hline, if_neg (by simpa using hhead), if_neg (by simp),
      List.takeWhile_append_of_pos htake, List.dropWhile_append_of_pos htake,
      List.takeWhile_cons_of_neg (by simp), List.dropWhile_cons_of_neg (by simp), List.append_nil,
      List.tail_cons, hkey, hval]
    rfl

/-- **What is not refused means something.** -/
theorem exists_means {stored : List (List Char)} (hline : '\n' ∉ line)
    (h : Common.verdict stored line ≠ .refused) : ∃ said, Means line said := by
  rw [Common.verdict] at h
  split_ifs at h with hlong hskip heq
  · exact absurd rfl h
  · rcases hskip with hnil | hhead
    · obtain ⟨a, b, hsplit, ha, hb⟩ := exists_trim line
      rw [hnil] at hsplit
      exact ⟨none, .empty a b hsplit ha hb⟩
    · obtain ⟨a, b, hsplit, ha, hb⟩ := exists_trim line
      obtain ⟨s, hs⟩ := List.head?_eq_some_iff.1 hhead
      rw [hs] at hsplit
      exact ⟨none, .comment a (s ++ b) hsplit ha⟩
  · rw [not_or] at hskip
    rcases forall_or_exists_append (· == '=') (trim line) with
      hall | ⟨front, a, rest, htrim, hfront, ha⟩
    · exact absurd (hall _ heq) (by simp)
    obtain rfl : a = '=' := by simpa using ha
    have htake : ∀ b ∈ front, decide (b ≠ '=') = true := fun b hb => by simpa using hfront b hb
    rw [htrim, List.takeWhile_append_of_pos htake, List.dropWhile_append_of_pos htake,
      List.takeWhile_cons_of_neg (by simp), List.dropWhile_cons_of_neg (by simp), List.append_nil,
      List.tail_cons, verdictOnPair] at h
    split_ifs at h with hpair
    · obtain ⟨hlaid, hhead⟩ := laidOut_of_cut htrim hskip.2
      have hmem : ∀ a, a ∈ trim front ∨ a ∈ trim rest → a ∈ line := by
        intro a ha
        refine mem_of_mem_trim (htrim ▸ ?_)
        rcases ha with ha | ha
        · exact List.mem_append_left _ (mem_of_mem_trim ha)
        · exact List.mem_append_right _ (List.mem_cons_of_mem _ (mem_of_mem_trim ha))
      refine ⟨_, .pair _ _ ⟨hpair.1, hhead, fun hmem => ?_, ⟨fun h => hline (hmem _ (.inl h)),
        fun h => hline (hmem _ (.inr h))⟩, bare_trim _, bare_trim _, hpair.2.1, hpair.2.2.1⟩ hlaid⟩
      exact absurd (hfront _ (mem_of_mem_trim hmem)) (by simp)
    · exact absurd rfl h
  · exact absurd rfl h

/-- An accepted pair is one. -/
theorem isPair_of_accepted {stored : List (List Char)} (hline : '\n' ∉ line)
    (h : Common.verdict stored line = .accepted key val) : IsPair key val := by
  obtain ⟨said, hmeans⟩ := exists_means hline (by rw [h]; simp)
  have hlen : line.length < 384 := by
    by_contra hlong
    rw [Common.verdict, if_pos (by omega)] at h
    cases h
  rw [hmeans.verdict hlen] at h
  cases hmeans with
  | empty | comment => cases h
  | pair key' val' hpair =>
    rw [verdictOn, verdictOnPair] at h
    split_ifs at h
    obtain ⟨rfl, rfl⟩ := Verdict.accepted.inj h
    exact hpair

/-! ### What a file means -/

namespace Config

/-- Put in what lines say, one after another. -/
def storeAll (m : List (List Char × List Char)) (said : List (Option (List Char × List Char))) :
    List (List Char × List Char) :=
  said.reduceOption.foldl (fun m e => upsert e.1 e.2 m) m

variable {m : List (List Char × List Char)} {lines : List (List Char)}
  {said : List (Option (List Char × List Char))} {text : List Char}

/-- **All lines are accepted iff there is room for the keys**, and then their pairs are stored. -/
theorem judge_means (hlines : List.Forall₂ Means lines said)
    (hlen : ∀ line ∈ lines, line.length < 384) (hm : m.length ≤ 256) :
    (.refused ∉ judge (m.map Prod.fst) lines ↔ (storeAll m said).length ≤ 256) ∧
      (.refused ∉ judge (m.map Prod.fst) lines →
        (judge (m.map Prod.fst) lines).filterMap Verdict.entry = said.reduceOption) := by
  induction hlines generalizing m with
  | nil => exact ⟨iff_of_true List.not_mem_nil hm, fun _ => rfl⟩
  | @cons line said lines saids hline hlines ih =>
    obtain ⟨hlen, hlens⟩ := List.forall_mem_cons.1 hlen
    rw [judge, hline.verdict hlen]
    rcases said with _ | ⟨key, val⟩
    · obtain ⟨hroom, hpairs⟩ := ih hlens hm
      simp only [verdictOn, Verdict.keys, List.mem_cons, reduceCtorEq, false_or]
      exact ⟨hroom, hpairs⟩
    · have hpair : IsPair key val := by
        cases hline with
        | pair key val hpair => exact hpair
      have hlength : (m.map Prod.fst).length = m.length := List.length_map _
      by_cases hkey : key ∈ m.map Prod.fst ∨ m.length < 256
      · have haccepted : verdictOnPair (m.map Prod.fst) key val = .accepted key val := by
          rw [← hlength] at hkey
          exact if_pos ⟨hpair.ne_nil, hpair.key_lt, hpair.val_lt, hkey⟩
        have hupsert : (upsert key val m).length ≤ 256 := by
          rw [length_upsert]
          split_ifs with hmem
          · exact hm
          · exact hkey.resolve_left hmem
        obtain ⟨hroom, hpairs⟩ := ih hlens hupsert
        rw [keys_upsert] at hroom hpairs
        simp only [verdictOn, haccepted, Verdict.keys, List.mem_cons, reduceCtorEq, false_or]
        exact ⟨hroom, fun h => congrArg ((key, val) :: ·) (hpairs h)⟩
      · have hrefused : verdictOnPair (m.map Prod.fst) key val = .refused := by
          rw [← hlength] at hkey
          exact if_neg fun h => hkey h.2.2.2
        rw [not_or, not_lt] at hkey
        have hlong : 256 < (storeAll m (some (key, val) :: saids)).length := by
          refine lt_of_lt_of_le ?_ (length_le_foldl_upsert (upsert key val m) saids.reduceOption)
          rw [length_upsert, if_neg hkey.1]
          omega
        simp only [verdictOn, hrefused, List.mem_cons, true_or, not_true_eq_false, false_iff,
          not_le, false_implies]
        exact ⟨hlong, trivial⟩

/-- A file is accepted iff its lines fit `fgets` and the rules refuse none of them. -/
theorem load_ok_iff (text : List Char) : (empty.load text).2 = true ↔
    (∀ line ∈ text.splitOn '\n', line.length < 383) ∧ .refused ∉ verdicts text := by
  have hparse : (∀ line ∈ text.splitOn '\n', line.length < 383) →
      empty.load text = empty.parse text := fun h => by
    rw [load, loadFrom_eq, parse_eq]
    exact foldl_loadStep fun line hline => (h line hline).ne
  constructor
  · intro hok
    have hlines : ∀ line ∈ text.splitOn '\n', line.length < 383 := by
      rw [load, loadFrom_eq] at hok
      exact (length_lt_of_foldl_loadStep _ _ hok).2
    exact ⟨hlines, (parse_history text).2.1 (hparse hlines ▸ hok)⟩
  · rintro ⟨hlines, hrefused⟩
    rw [hparse hlines]
    exact (parse_history text).2.2 hrefused

/-- **What is stored of a file whose lines mean something.** -/
theorem load_means (hmeans : List.Forall₂ Means (text.splitOn '\n') said)
    (hlines : ∀ line ∈ text.splitOn '\n', line.length < 383) :
    ((empty.load text).2 = true ↔ (ofHistory said.reduceOption).length ≤ 256) ∧
      ((empty.load text).2 = true → (empty.load text).1.entries = ofHistory said.reduceOption) := by
  obtain ⟨hroom, hpairs⟩ := judge_means (m := []) hmeans
    (fun line hline => (hlines line hline).trans (by decide)) (Nat.zero_le _)
  have hok := (load_ok_iff text).trans (and_iff_right hlines)
  refine ⟨hok.trans hroom, fun h => ?_⟩
  have hhistory : acceptedPairs text = said.reduceOption := hpairs (hok.1 h)
  rw [load, loadFrom_eq, foldl_loadStep fun line hline => (hlines line hline).ne, ← parse_eq,
    (parse_history text).1, hhistory]

/-- The lines of an accepted file mean something. -/
theorem exists_means_of_load (h : (empty.load text).2 = true) :
    ∃ said, List.Forall₂ Means (text.splitOn '\n') said := by
  have hrefused := ((load_ok_iff text).1 h).2
  have hline : ∀ line ∈ text.splitOn '\n', ∃ said, Means line said := by
    rw [verdicts] at hrefused
    have hnewline : ∀ line ∈ text.splitOn '\n', '\n' ∉ line := fun _ => not_mem_of_mem_splitOn
    generalize text.splitOn '\n' = lines at hrefused hnewline
    generalize [] = stored at hrefused
    induction lines generalizing stored with
    | nil => exact List.forall_mem_nil _
    | cons line lines ih =>
      rw [judge, List.mem_cons, not_or] at hrefused
      obtain ⟨hline, hlines⟩ := List.forall_mem_cons.1 hnewline
      exact List.forall_mem_cons.2
        ⟨exists_means hline (Ne.symm hrefused.1), ih hlines _ hrefused.2⟩
  choose! f hf using hline
  exact ⟨_, List.forall₂_map_right_iff.2 (List.forall₂_same.2 hf)⟩

/-- What is stored of any file are pairs. -/
theorem isPair_of_mem_load (text : List Char) :
    ∀ e ∈ (empty.load text).1.entries, IsPair e.1 e.2 := by
  have hall : ∀ (lines stored : List (List Char)), (∀ line ∈ lines, '\n' ∉ line) →
      ∀ e ∈ (judge stored lines).filterMap Verdict.entry, IsPair e.1 e.2 := by
    intro lines
    induction lines with
    | nil => exact fun _ _ => List.forall_mem_nil _
    | cons line lines ih =>
      intro stored hnewline e he
      obtain ⟨hline, hlines⟩ := List.forall_mem_cons.1 hnewline
      obtain ⟨v, hv, hentry⟩ := List.mem_filterMap.1 he
      rcases List.mem_cons.1 hv with rfl | hv
      · cases hverdict : Common.verdict stored line with
        | refused | skipped =>
          rw [hverdict] at hentry
          cases hentry
        | accepted key val =>
          rw [hverdict] at hentry
          cases hentry
          exact isPair_of_accepted hline hverdict
      · exact ih _ hlines e (List.mem_filterMap.2 ⟨v, hv, hentry⟩)
  intro e he
  rw [load, loadFrom_eq, entries_foldl_loadStep] at he
  have hmem : e ∈ ofHistory (otherPairs text) := by
    rwa [ofHistory, otherPairs, ← foldl_entriesAfter]
  exact hall _ _ (fun line hline => not_mem_of_mem_splitOn (List.mem_of_mem_filter hline)) e
    (mem_of_mem_ofHistory hmem)

/-! ### Writing files -/

/-- The line of a pair. -/
def renderLine (e : List Char × List Char) : List Char := e.1 ++ '=' :: e.2

/-- A file with the pairs given. -/
def render (entries : List (List Char × List Char)) : List Char :=
  entries.flatMap fun e => renderLine e ++ ['\n']

theorem splitOn_render {entries : List (List Char × List Char)}
    (h : ∀ e ∈ entries, IsPair e.1 e.2) :
    (render entries).splitOn '\n' = entries.map renderLine ++ [[]] := by
  induction entries with
  | nil => rfl
  | cons e entries ih =>
    obtain ⟨he, hentries⟩ := List.forall_mem_cons.1 h
    have hmem : '\n' ∉ renderLine e := by
      rw [renderLine, List.mem_append, List.mem_cons]
      simp [he.no_newline]
    rw [render, List.flatMap_cons, List.append_assoc, List.singleton_append,
      List.splitOn_append_cons_self_of_not_mem hmem, List.map_cons, List.cons_append]
    exact congrArg _ (ih hentries)

theorem means_renderLine {e : List Char × List Char} (h : IsPair e.1 e.2) :
    Means (renderLine e) (some e) := by
  refine .pair _ _ h ⟨[], [], [], [], ?_, List.forall_mem_nil _, List.forall_mem_nil _⟩
  simp [renderLine]

theorem means_render {entries : List (List Char × List Char)} (h : ∀ e ∈ entries, IsPair e.1 e.2) :
    List.Forall₂ Means ((render entries).splitOn '\n') (entries.map some ++ [none]) := by
  rw [splitOn_render h]
  refine List.rel_append ?_ (.cons (.empty [] [] rfl (by simp) (by simp)) .nil)
  rw [List.forall₂_map_left_iff, List.forall₂_map_right_iff, List.forall₂_same]
  exact fun e he => means_renderLine (h e he)

/-- **What can be stored can be written to a file, and is loaded from it.** -/
theorem load_render {entries : List (List Char × List Char)} (h : ∀ e ∈ entries, IsPair e.1 e.2)
    (hnodup : (entries.map Prod.fst).Nodup) (hsize : entries.length ≤ 256) :
    (empty.load (render entries)).1.entries = entries ∧ (empty.load (render entries)).2 = true := by
  have hlines : ∀ line ∈ (render entries).splitOn '\n', line.length < 383 := by
    rw [splitOn_render h]
    intro line hline
    rcases List.mem_append.1 hline with hline | hline
    · obtain ⟨e, he, rfl⟩ := List.mem_map.1 hline
      have hkey := (h e he).key_lt
      have hval := (h e he).val_lt
      rw [renderLine, List.length_append, List.length_cons]
      rw [KEY_LEN] at hkey
      rw [VAL_LEN] at hval
      omega
    · rw [List.mem_singleton.1 hline]
      decide
  have hsaid : (entries.map some ++ [none]).reduceOption = entries := by
    change (entries.map some ++ [none]).filterMap id = entries
    rw [List.filterMap_append]
    simp
  obtain ⟨hok, hentries⟩ := load_means (means_render h) hlines
  rw [hsaid, ofHistory_of_nodup hnodup] at hok hentries
  exact ⟨hentries (hok.2 hsize), hok.2 hsize⟩

/-- **The format of config files.** For every file:

* it is accepted iff each line is shorter than the buffer and is empty, a comment, or a key and a
  value that fit, with blanks around them, and there are at most 256 different keys;
* what is stored of an accepted file is what its lines say: the keys in the order in which they came
  first, each with its last value;
* what is stored, even of a file that is not accepted, can be written to a file, and comes back from
  that one. -/
theorem file_format (text : List Char) :
    ((empty.load text).2 = true ↔
      (∀ line ∈ text.splitOn '\n', line.length < 383) ∧
        ∃ said, List.Forall₂ Means (text.splitOn '\n') said ∧
          (said.reduceOption.map Prod.fst).eraseDups.length ≤ 256) ∧
    (∀ said, List.Forall₂ Means (text.splitOn '\n') said → (empty.load text).2 = true →
      (empty.load text).1.keys = (said.reduceOption.map Prod.fst).eraseDups ∧
        ∀ key d, (empty.load text).1.getStr key d =
          (said.reduceOption.reverse.lookup key).getD d) ∧
    empty.load (render (empty.load text).1.entries) = ((empty.load text).1, true) := by
  have hsize : ∀ said : List (Option (List Char × List Char)),
      (ofHistory said.reduceOption).length = (said.reduceOption.map Prod.fst).eraseDups.length :=
    fun said => by rw [← keys_ofHistory, List.length_map]
  refine ⟨⟨fun h => ?_, fun ⟨hlines, said, hmeans, hkeys⟩ => ?_⟩, fun said hmeans h => ?_, ?_⟩
  · have hlines := ((load_ok_iff text).1 h).1
    obtain ⟨said, hmeans⟩ := exists_means_of_load h
    exact ⟨hlines, said, hmeans, hsize said ▸ (load_means hmeans hlines).1.1 h⟩
  · exact (load_means hmeans hlines).1.2 (hsize said ▸ hkeys)
  · have hentries := (load_means hmeans ((load_ok_iff text).1 h).1).2 h
    refine ⟨?_, fun key d => ?_⟩
    · rw [keys, hentries, keys_ofHistory]
    · rw [getStr, hentries, lookup_ofHistory]
  · obtain ⟨hentries, hok⟩ := load_render (isPair_of_mem_load text) (empty.load text).1.nodup
      (empty.load text).1.size_le
    exact Prod.ext (eq_of_entries hentries) hok

end Config

end Common

end LowLatencyPipeline
