import LowLatencyPipeline.Library.Cut
import LowLatencyPipeline.Library.LastWins
import Mathlib.Data.List.DropRight

/-!
# Config files

`Config` of `common/config_file.hpp`, filled from a text (`parse`) or from a file (`load`), and its
getters `get_str` and `for_prefix`. What is printed about a refused line is the error of
`parseLine`; the file's name and the number of the line, which are printed with it, are left out.

* **A last-wins map** (`parse_lastWins`): what is stored after a text is described by the verdicts
  on its lines alone.
* **Files** (`load_eq_parse`): a file is read like its text, except that a line of exactly 383
  characters is refused, so the two agree iff there is none or losing it makes no difference
  (`load_ne_parse`).
-/

namespace LowLatencyPipeline

namespace Common

open Cut LastWins

/-! ### The store -/

/-- `Config::MAX_ENTRIES`. -/
def MAX_ENTRIES : ℕ := 256

/-- `Config::KEY_LEN`. -/
def KEY_LEN : ℕ := 64

/-- `Config::VAL_LEN`. -/
def VAL_LEN : ℕ := 256

/-- `sizeof(line)`. -/
def LINE_SIZE : ℕ := VAL_LEN + KEY_LEN + 64

/-- `Config`: the entries fit their buffers, and no key is stored twice. -/
structure Config where
  entries : List (List Char × List Char)
  size_le : entries.length ≤ MAX_ENTRIES
  fits : ∀ e ∈ entries, e.1.length < KEY_LEN ∧ e.2.length < VAL_LEN
  nodup : (entries.map Prod.fst).Nodup

namespace Config

/-- A new `Config`. -/
def empty : Config :=
  ⟨[], Nat.zero_le _, fun _ h => absurd h List.not_mem_nil, List.nodup_nil⟩

variable (c : Config)

/-- The keys stored. -/
def keys : List (List Char) := c.entries.map Prod.fst

theorem length_upsert_le {key val : List Char}
    (h : ¬(key ∉ c.keys ∧ c.entries.length = MAX_ENTRIES)) :
    (upsert key val c.entries).length ≤ MAX_ENTRIES := by
  have hsize := c.size_le
  rw [← List.length_map (f := Prod.fst), keys_upsert]
  split_ifs with hkey
  · rwa [List.length_map]
  · rw [List.length_append, List.length_map, List.length_singleton]
    have hne : c.entries.length ≠ MAX_ENTRIES := fun heq => h ⟨hkey, heq⟩
    omega

/-- The end of `parse_line`: the value goes to the key's entry, or to a new one. -/
def store (key val : List Char) (hkey : key.length < KEY_LEN) (hval : val.length < VAL_LEN) :
    Except String Config :=
  if h : key ∉ c.keys ∧ c.entries.length = MAX_ENTRIES then .error "too many entries"
  else .ok
    { entries := upsert key val c.entries
      size_le := c.length_upsert_le h
      fits := fun e he => (mem_upsert he).elim (fun heq => heq ▸ ⟨hkey, hval⟩) (c.fits e)
      nodup := nodup_upsert c.nodup }

/-- `get_str`. -/
def getStr (key d : List Char) : List Char := (c.entries.lookup key).getD d

/-- `for_prefix`, as the list of its calls. -/
def forPrefix (pre : List Char) : List (List Char × List Char) :=
  (c.entries.filter fun e => pre.isPrefixOf e.1).map fun e => (e.1.drop pre.length, e.2)

end Config

/-! ### Lines -/

/-- The characters that `trim` takes off the front. -/
def isBlank (a : Char) : Bool := a = ' ' ∨ a = '\t'

/-- The characters that `trim` takes off the end. -/
def isSpace (a : Char) : Bool := a = ' ' ∨ a = '\t' ∨ a = '\n' ∨ a = '\r'

/-- `trim`. -/
def trim (s : List Char) : List Char := (s.dropWhile isBlank).rdropWhile isSpace

namespace Config

variable (c : Config)

/-- `parse_line`. -/
def parseLine (line : List Char) : Except String Config :=
  let s := trim line
  if s.isEmpty ∨ s.head? = some '#' then .ok c
  else
    match cut (· == '=') s with
    | (_, none) => .error "expected key=value"
    | (front, some rest) =>
      let key := trim front
      let val := trim rest
      if key.isEmpty then .error "empty key"
      else if h : KEY_LEN ≤ key.length ∨ VAL_LEN ≤ val.length then .error "key or value too long"
      else c.store key val (by omega) (by omega)

/-- `ok &= parse_line(line, lineno)`. -/
def addLine (s : Config × Bool) (line : List Char) : Config × Bool :=
  match s.1.parseLine line with
  | .ok c => (c, s.2)
  | .error _ => (s.1, false)

/-- The body of the loop of `parse`. -/
def parseStep (s : Config × Bool) (line : List Char) : Config × Bool :=
  if LINE_SIZE ≤ line.length then (s.1, false) else addLine s line

/-- `parse`. -/
def parse (text : List Char) : Config × Bool :=
  (parts (· == '\n') text).foldl parseStep (c, true)

end Config

/-! ### The rules for lines -/

/-- What becomes of a line. -/
inductive Verdict
  | refused
  | skipped
  | accepted (key val : List Char)
  deriving DecidableEq

namespace Verdict

/-- The pair of an accepted line. -/
def entry : Verdict → Option (List Char × List Char)
  | accepted key val => some (key, val)
  | _ => none

/-- The keys stored after it. -/
def keys (stored : List (List Char)) : Verdict → List (List Char)
  | accepted key _ => if key ∈ stored then stored else stored ++ [key]
  | _ => stored

end Verdict

/-- A pair is accepted if it fits and there is room for its key. -/
def verdictOnPair (stored : List (List Char)) (key val : List Char) : Verdict :=
  if key ≠ [] ∧ key.length < 64 ∧ val.length < 256 ∧ (key ∈ stored ∨ stored.length < 256) then
    .accepted key val
  else .refused

/-- The rules for a line, with the keys stored before it. -/
def verdict (stored : List (List Char)) (line : List Char) : Verdict :=
  if 384 ≤ line.length then .refused
  else if trim line = [] ∨ (trim line).head? = some '#' then .skipped
  else if '=' ∉ trim line then .refused
  else verdictOnPair stored (trim ((trim line).takeWhile (· ≠ '=')))
    (trim ((trim line).dropWhile (· ≠ '=')).tail)

/-- The verdicts on lines, one after another. -/
def judge (stored : List (List Char)) : List (List Char) → List Verdict
  | [] => []
  | line :: lines =>
    verdict stored line :: judge ((verdict stored line).keys stored) lines

/-- The verdicts on the lines of a text. -/
def verdicts (text : List Char) : List Verdict := judge [] (text.splitOn '\n')

/-- The pairs of the accepted lines of a text, in their order. -/
def acceptedPairs (text : List Char) : List (List Char × List Char) :=
  (verdicts text).filterMap Verdict.entry

/-! ### What a line does -/

namespace Config

variable {c : Config} {s : Config × Bool} {line : List Char}

/-- The result of `parse_line` that a verdict asks for. -/
def Follows (c : Config) : Verdict → Except String Config → Prop
  | .refused, r => ∃ what, r = .error what
  | .skipped, r => r = .ok c
  | .accepted key val, r => ∃ c', r = .ok c' ∧ c'.entries = upsert key val c.entries

/-- The checks on a pair. -/
theorem follows_verdictOnPair (c : Config) (key val : List Char) :
    c.Follows (verdictOnPair c.keys key val)
      (if key.isEmpty then .error "empty key"
      else if h : KEY_LEN ≤ key.length ∨ VAL_LEN ≤ val.length then .error "key or value too long"
      else c.store key val (by omega) (by omega)) := by
  have hlength : c.keys.length = c.entries.length := List.length_map _
  have hsize := c.size_le
  rw [verdictOnPair]
  split_ifs with hpair hempty hlong hempty hlong
  · exact absurd (List.isEmpty_iff.1 hempty) hpair.1
  · rw [KEY_LEN, VAL_LEN] at hlong
    omega
  · have hroom : ¬(key ∉ c.keys ∧ c.entries.length = MAX_ENTRIES) := fun h => by
      rcases hpair.2.2.2 with hkey | hlt
      · exact h.1 hkey
      · rw [MAX_ENTRIES] at h
        omega
    rw [store, dif_neg hroom]
    exact ⟨_, rfl, rfl⟩
  · exact ⟨_, rfl⟩
  · exact ⟨_, rfl⟩
  · have hfull : key ∉ c.keys ∧ c.entries.length = MAX_ENTRIES := by
      by_contra hroom
      refine hpair ⟨fun h => hempty (List.isEmpty_iff.2 h), ?_, ?_, ?_⟩
      · rw [KEY_LEN] at hlong
        omega
      · rw [VAL_LEN] at hlong
        omega
      · by_cases hkey : key ∈ c.keys
        · exact .inl hkey
        · have hne : c.entries.length ≠ MAX_ENTRIES := fun h => hroom ⟨hkey, h⟩
          rw [MAX_ENTRIES] at *
          exact .inr (by omega)
    rw [store, dif_pos hfull]
    exact ⟨_, rfl⟩

/-- **`parse_line` follows the rules.** -/
theorem follows_verdict (hlen : line.length < 384) :
    c.Follows (verdict c.keys line) (c.parseLine line) := by
  rw [verdict, if_neg (by omega), parseLine]
  simp only [List.isEmpty_iff]
  by_cases hskip : trim line = [] ∨ (trim line).head? = some '#'
  · rw [if_pos hskip, if_pos hskip]
    rfl
  rw [if_neg hskip, if_neg hskip]
  rcases forall_or_exists_append (· == '=') (trim line) with
    hall | ⟨front, a, rest, hline, hfront, ha⟩
  · have hmem : '=' ∉ trim line := fun h => absurd (hall _ h) (by simp)
    rw [if_pos hmem, cut_of_forall hall]
    exact ⟨_, rfl⟩
  · obtain rfl : a = '=' := by simpa using ha
    have htake : ∀ b ∈ front, decide (b ≠ '=') = true := fun b hb => by simpa using hfront b hb
    rw [hline, if_neg (by simp), cut_append hfront ha, List.takeWhile_append_of_pos htake,
      List.dropWhile_append_of_pos htake, List.takeWhile_cons_of_neg (by simp),
      List.dropWhile_cons_of_neg (by simp), List.append_nil, List.tail_cons]
    have hpair := follows_verdictOnPair c (trim front) (trim rest)
    simpa only [List.isEmpty_iff] using hpair

/-- What a verdict leaves of the entries. -/
def entriesAfter (m : List (List Char × List Char)) (v : Verdict) : List (List Char × List Char) :=
  v.entry.elim m fun e => upsert e.1 e.2 m

/-- **One round of the loop**: the entries and the result follow the verdict. -/
theorem parseStep_verdict (s : Config × Bool) (line : List Char) :
    (parseStep s line).1.entries = entriesAfter s.1.entries (verdict s.1.keys line) ∧
      ((parseStep s line).2 = true ↔ s.2 = true ∧ verdict s.1.keys line ≠ .refused) := by
  rw [parseStep]
  split_ifs with hlong
  · rw [verdict, if_pos (by exact hlong)]
    exact ⟨rfl, by simp⟩
  · have hlt : line.length < 384 := Nat.lt_of_not_le hlong
    have hfollows := follows_verdict (c := s.1) hlt
    rw [addLine]
    cases hv : verdict s.1.keys line with
    | refused =>
      rw [hv] at hfollows
      obtain ⟨what, hr⟩ := hfollows
      rw [hr]
      exact ⟨rfl, by simp⟩
    | skipped =>
      rw [hv] at hfollows
      rw [show s.1.parseLine line = .ok s.1 from hfollows]
      exact ⟨rfl, by simp⟩
    | accepted key val =>
      rw [hv] at hfollows
      obtain ⟨c', hr, hentries⟩ := hfollows
      rw [hr]
      exact ⟨hentries, by simp⟩

theorem keys_entriesAfter (m : List (List Char × List Char)) (v : Verdict) :
    (entriesAfter m v).map Prod.fst = v.keys (m.map Prod.fst) := by
  cases v with
  | refused => rfl
  | skipped => rfl
  | accepted key val => exact keys_upsert key val m

/-- **The whole loop**, by the verdicts on its lines. -/
theorem foldl_parseStep (s : Config × Bool) (lines : List (List Char)) :
    (lines.foldl parseStep s).1.entries =
        (judge s.1.keys lines).foldl entriesAfter s.1.entries ∧
      ((lines.foldl parseStep s).2 = true ↔ s.2 = true ∧ .refused ∉ judge s.1.keys lines) := by
  induction lines generalizing s with
  | nil => exact ⟨rfl, by simp [judge]⟩
  | cons line lines ih =>
    obtain ⟨hentries, hok⟩ := parseStep_verdict s line
    have hkeys : (parseStep s line).1.keys = (verdict s.1.keys line).keys s.1.keys := by
      rw [keys, hentries, keys_entriesAfter]
      rfl
    obtain ⟨ihentries, ihok⟩ := ih (parseStep s line)
    rw [List.foldl_cons, judge, List.foldl_cons, ihentries, ihok, hentries, hok, hkeys,
      List.mem_cons, not_or, and_assoc]
    exact ⟨rfl, by rw [ne_comm]⟩

/-- Nothing but accepted lines has an effect. -/
theorem foldl_entriesAfter (m : List (List Char × List Char)) (verdicts : List Verdict) :
    verdicts.foldl entriesAfter m =
      (verdicts.filterMap Verdict.entry).foldl (fun m e => upsert e.1 e.2 m) m := by
  induction verdicts generalizing m with
  | nil => rfl
  | cons v verdicts ih =>
    rw [List.foldl_cons, ih, List.filterMap_cons, entriesAfter]
    cases v.entry with
    | none => rfl
    | some e => rfl

/-- The lines of a text are its parts between newlines. -/
theorem parse_eq (c : Config) (text : List Char) :
    c.parse text = (text.splitOn '\n').foldl parseStep (c, true) :=
  foldl_parts (fun _ => rfl) _ _ _

/-- A text leaves what the history of its accepted pairs leaves. -/
theorem parse_history (text : List Char) :
    (empty.parse text).1.entries = ofHistory (acceptedPairs text) ∧
      ((empty.parse text).2 = true ↔ .refused ∉ verdicts text) := by
  obtain ⟨hentries, hok⟩ := foldl_parseStep (empty, true) (text.splitOn '\n')
  rw [← parse_eq] at hentries hok
  exact ⟨hentries.trans (foldl_entriesAfter _ _), hok.trans ⟨And.right, fun h => ⟨rfl, h⟩⟩⟩

/-- **Config parsing is a last-wins map.** With the pairs that the rules accept line by line, in
their order, `get_str` gives the last value of a key, `for_prefix` the matching keys in the order in
which they came first, and the result is true iff no line was refused. -/
theorem parse_lastWins (text : List Char) :
    (∀ key d,
      (empty.parse text).1.getStr key d = ((acceptedPairs text).reverse.lookup key).getD d) ∧
      (∀ pre, (empty.parse text).1.forPrefix pre =
        (((acceptedPairs text).map Prod.fst).eraseDups.filter (pre.isPrefixOf ·)).map fun key =>
          (key.drop pre.length, ((acceptedPairs text).reverse.lookup key).getD [])) ∧
      ((empty.parse text).2 = true ↔ .refused ∉ verdicts text) := by
  obtain ⟨hhistory, hok⟩ := parse_history text
  refine ⟨fun key d => ?_, fun pre => ?_, hok⟩
  · rw [getStr, hhistory, lookup_ofHistory]
  · rw [forPrefix, hhistory, ← keys_ofHistory, List.filter_map, List.map_map]
    refine List.map_congr_left fun e he => ?_
    have hmem : e ∈ ofHistory (acceptedPairs text) := List.mem_of_mem_filter he
    have hlookup : (ofHistory (acceptedPairs text)).lookup e.1 = some e.2 :=
      lookup_of_mem (nodup_ofHistory (acceptedPairs text)) hmem
    rw [Function.comp_apply, ← lookup_ofHistory, hlookup]
    rfl

end Config

/-! ### Files -/

/-- What `fgets` takes off a file that is not at its end: at most `n` characters, up to a newline
and with it. -/
def takeLine : ℕ → List Char → List Char × List Char
  | 0, file => ([], file)
  | _ + 1, [] => ([], [])
  | n + 1, a :: file =>
    if a = '\n' then (['\n'], file) else (a :: (takeLine n file).1, (takeLine n file).2)

/-- The loop that reads on to the end of a line. -/
def skipLine : List Char → List Char
  | [] => []
  | a :: file => if a = '\n' then file else skipLine file

theorem length_takeLine_le (n : ℕ) (file : List Char) :
    (takeLine n file).2.length ≤ file.length := by
  induction n generalizing file with
  | zero => exact le_rfl
  | succ n ih =>
    cases file with
    | nil => exact le_rfl
    | cons a file =>
      rw [takeLine]
      split_ifs
      · exact Nat.le_succ _
      · exact (ih file).trans (Nat.le_succ _)

theorem length_takeLine_lt {n : ℕ} {file : List Char} (hfile : file ≠ []) :
    (takeLine (n + 1) file).2.length < file.length := by
  cases file with
  | nil => exact absurd rfl hfile
  | cons a file =>
    rw [takeLine]
    split_ifs
    · exact Nat.lt_succ_self _
    · exact Nat.lt_succ_of_le (length_takeLine_le n file)

theorem length_skipLine_le (file : List Char) : (skipLine file).length ≤ file.length := by
  induction file with
  | nil => exact le_rfl
  | cons a file ih =>
    rw [skipLine]
    split_ifs
    · exact Nat.le_succ _
    · exact ih.trans (Nat.le_succ _)

namespace Config

/-- The loop of `load`, on what is left of the file. -/
def loadFrom (s : Config × Bool) (file : List Char) : Config × Bool :=
  if hfile : file = [] then s
  else
    let line := (takeLine (LINE_SIZE - 1) file).1
    let rest := (takeLine (LINE_SIZE - 1) file).2
    if line.length = LINE_SIZE - 1 ∧ line.getLast? ≠ some '\n' then
      loadFrom (s.1, false) (skipLine rest)
    else loadFrom (addLine s line) rest
termination_by file.length
decreasing_by
  · exact (length_skipLine_le _).trans_lt (length_takeLine_lt hfile)
  · exact length_takeLine_lt hfile

/-- `load` of a file that can be opened. -/
def load (c : Config) (file : List Char) : Config × Bool := loadFrom (c, true) file

end Config

/-! ### What `fgets` reads -/

section Lines

variable {front rest : List Char} {n : ℕ}

/-- A line that fits comes with its newline. -/
theorem takeLine_of_lt (hfront : ∀ b ∈ front, b ≠ '\n') (hn : front.length < n) :
    takeLine n (front ++ '\n' :: rest) = (front ++ ['\n'], rest) := by
  induction front generalizing n with
  | nil =>
    obtain ⟨n, rfl⟩ : ∃ k, n = k + 1 := ⟨n - 1, by rw [List.length_nil] at hn; omega⟩
    rfl
  | cons b front ih =>
    obtain ⟨n, rfl⟩ : ∃ k, n = k + 1 := ⟨n - 1, by omega⟩
    obtain ⟨hb, hfront⟩ := List.forall_mem_cons.1 hfront
    rw [List.cons_append, takeLine, if_neg hb, ih hfront (Nat.lt_of_succ_lt_succ hn)]
    rfl

/-- The last line may have none. -/
theorem takeLine_last (hfront : ∀ b ∈ front, b ≠ '\n') (hn : front.length < n) :
    takeLine n front = (front, []) := by
  induction front generalizing n with
  | nil =>
    obtain ⟨n, rfl⟩ : ∃ k, n = k + 1 := ⟨n - 1, by rw [List.length_nil] at hn; omega⟩
    rfl
  | cons b front ih =>
    obtain ⟨n, rfl⟩ : ∃ k, n = k + 1 := ⟨n - 1, by omega⟩
    obtain ⟨hb, hfront⟩ := List.forall_mem_cons.1 hfront
    rw [takeLine, if_neg hb, ih hfront (Nat.lt_of_succ_lt_succ hn)]

/-- A longer line fills the buffer. -/
theorem takeLine_of_le (hfront : ∀ b ∈ front, b ≠ '\n') (hn : n ≤ front.length) :
    takeLine n (front ++ rest) = (front.take n, front.drop n ++ rest) := by
  induction n generalizing front with
  | zero => rfl
  | succ n ih =>
    cases front with
    | nil => exact absurd hn (Nat.not_succ_le_zero n)
    | cons b front =>
      obtain ⟨hb, hfront⟩ := List.forall_mem_cons.1 hfront
      rw [List.cons_append, takeLine, if_neg hb, ih hfront (Nat.le_of_succ_le_succ hn)]
      rfl

theorem skipLine_append (hfront : ∀ b ∈ front, b ≠ '\n') :
    skipLine (front ++ '\n' :: rest) = rest := by
  induction front with
  | nil => rfl
  | cons b front ih =>
    obtain ⟨hb, hfront⟩ := List.forall_mem_cons.1 hfront
    rw [List.cons_append, skipLine, if_neg hb, ih hfront]

theorem skipLine_last (hfront : ∀ b ∈ front, b ≠ '\n') : skipLine front = [] := by
  induction front with
  | nil => rfl
  | cons b front ih =>
    obtain ⟨hb, hfront⟩ := List.forall_mem_cons.1 hfront
    rw [skipLine, if_neg hb, ih hfront]

/-- A newline is trimmed. -/
theorem trim_newline (line : List Char) : trim (line ++ ['\n']) = trim line := by
  rw [trim, trim, List.dropWhile_append]
  split_ifs with hblank
  · rw [List.isEmpty_iff.1 hblank]
    rfl
  · exact List.rdropWhile_concat_pos _ _ _ rfl

end Lines

namespace Config

theorem addLine_newline (s : Config × Bool) (line : List Char) :
    addLine s (line ++ ['\n']) = addLine s line := by
  rw [addLine, addLine, parseLine, trim_newline, parseLine]

/-- What `load` does with a line. -/
def loadStep (s : Config × Bool) (line : List Char) : Config × Bool :=
  if LINE_SIZE - 1 ≤ line.length then (s.1, false) else addLine s line

/-- A line without a newline that fills the buffer does not end in one. -/
theorem overlong {front : List Char} (hfront : ∀ b ∈ front, b ≠ '\n')
    (hlong : LINE_SIZE - 1 ≤ front.length) :
    (front.take (LINE_SIZE - 1)).length = LINE_SIZE - 1 ∧
      (front.take (LINE_SIZE - 1)).getLast? ≠ some '\n' := by
  refine ⟨List.length_take_of_le hlong, fun hlast => ?_⟩
  exact hfront _ (List.mem_of_mem_take (List.mem_of_getLast? hlast)) rfl

/-- **A file is read line by line.** -/
theorem loadFrom_eq (s : Config × Bool) (file : List Char) :
    loadFrom s file = (file.splitOn '\n').foldl loadStep s := by
  induction hlen : file.length using Nat.strong_induction_on generalizing s file with
  | _ n ih =>
    rw [loadFrom]
    split_ifs with hnil
    · rw [hnil]
      rfl
    dsimp only
    rcases forall_or_exists_append (· == '\n') file with
      hall | ⟨front, a, rest, rfl, hfront, ha⟩
    · have hne : ∀ b ∈ file, b ≠ '\n' := fun b hb => by simpa using hall b hb
      have hmem : '\n' ∉ file := fun h => hne _ h rfl
      rw [List.splitOn_eq_singleton hmem, List.foldl_cons, List.foldl_nil, loadStep]
      by_cases hlong : LINE_SIZE - 1 ≤ file.length
      · have htake := @takeLine_of_le file [] (LINE_SIZE - 1) hne hlong
        rw [List.append_nil, List.append_nil] at htake
        rw [htake, if_pos (overlong hne hlong), if_pos hlong,
          skipLine_last fun b hb => hne b (List.mem_of_mem_drop hb), loadFrom, dif_pos rfl]
      · rw [takeLine_last hne (Nat.lt_of_not_le hlong), if_neg fun h => hlong h.1.ge, if_neg hlong,
          loadFrom, dif_pos rfl]
    · obtain rfl : a = '\n' := by simpa using ha
      have hne : ∀ b ∈ front, b ≠ '\n' := fun b hb => by simpa using hfront b hb
      have hmem : '\n' ∉ front := fun h => hne _ h rfl
      have hrest : rest.length < n := by
        rw [← hlen, List.length_append, List.length_cons]
        omega
      rw [List.splitOn_append_cons_self_of_not_mem hmem, List.foldl_cons, loadStep]
      by_cases hlong : LINE_SIZE - 1 ≤ front.length
      · rw [takeLine_of_le hne hlong, if_pos (overlong hne hlong), if_pos hlong,
          skipLine_append fun b hb => hne b (List.mem_of_mem_drop hb)]
        exact ih _ hrest _ _ rfl
      · have hshort : ¬((front ++ ['\n']).length = LINE_SIZE - 1 ∧
            (front ++ ['\n']).getLast? ≠ some '\n') := fun h => h.2 List.getLast?_concat
        rw [takeLine_of_lt hne (Nat.lt_of_not_le hlong), if_neg hshort, if_neg hlong,
          addLine_newline]
        exact ih _ hrest _ _ rfl

/-! ### Files and texts -/

theorem eq_of_entries {c d : Config} (h : c.entries = d.entries) : c = d := by
  cases c
  cases d
  cases h
  rfl

/-- The two loops differ in lines of 383 characters. -/
theorem loadStep_eq {s : Config × Bool} {line : List Char} (h : line.length ≠ 383) :
    loadStep s line = parseStep s line := by
  have hsize : LINE_SIZE = 384 := rfl
  rw [loadStep, parseStep]
  exact if_congr (by omega) rfl rfl

theorem foldl_loadStep {s : Config × Bool} {lines : List (List Char)}
    (h : ∀ line ∈ lines, line.length ≠ 383) : lines.foldl loadStep s = lines.foldl parseStep s := by
  induction lines generalizing s with
  | nil => rfl
  | cons line lines ih =>
    obtain ⟨hline, hlines⟩ := List.forall_mem_cons.1 h
    rw [List.foldl_cons, List.foldl_cons, loadStep_eq hline]
    exact ih hlines

/-- **The loop of `load`** stores what the verdicts say, without the lines of 383 characters. -/
theorem entries_foldl_loadStep (s : Config × Bool) (lines : List (List Char)) :
    (lines.foldl loadStep s).1.entries =
      (judge s.1.keys (lines.filter (·.length ≠ 383))).foldl entriesAfter s.1.entries := by
  induction lines generalizing s with
  | nil => rfl
  | cons line lines ih =>
    rw [List.foldl_cons]
    by_cases hline : line.length = 383
    · have hlong : LINE_SIZE - 1 ≤ line.length := hline.ge
      rw [List.filter_cons_of_neg (by simpa using hline), loadStep, if_pos hlong]
      exact ih (s.1, false)
    · have hentries := (parseStep_verdict s line).1
      have hkeys : (parseStep s line).1.keys = (verdict s.1.keys line).keys s.1.keys := by
        rw [keys, hentries, keys_entriesAfter]
        rfl
      rw [List.filter_cons_of_pos (by simpa using hline), loadStep_eq hline, ih, judge,
        List.foldl_cons, hentries, hkeys]

/-- A result of true means that every line fitted the buffer. -/
theorem length_lt_of_foldl_loadStep (s : Config × Bool) (lines : List (List Char))
    (h : (lines.foldl loadStep s).2 = true) : s.2 = true ∧ ∀ line ∈ lines, line.length < 383 := by
  induction lines generalizing s with
  | nil => exact ⟨h, fun _ hline => absurd hline List.not_mem_nil⟩
  | cons line lines ih =>
    obtain ⟨hs, hlines⟩ := ih _ h
    rw [loadStep] at hs
    split_ifs at hs with hlong
    refine ⟨?_, List.forall_mem_cons.2 ⟨Nat.lt_of_not_le hlong, hlines⟩⟩
    rw [addLine] at hs
    split at hs
    · exact hs
    · exact absurd hs Bool.false_ne_true

/-- The pairs that the rules accept when the lines of 383 characters are taken out. -/
def otherPairs (text : List Char) : List (List Char × List Char) :=
  (judge [] ((text.splitOn '\n').filter (·.length ≠ 383))).filterMap Verdict.entry

/-- **Files and texts.** A file is read like its text iff no line has 383 characters, or some line
is refused anyway and the lines of 383 characters make no difference to what is stored. -/
theorem load_eq_parse (text : List Char) :
    empty.load text = empty.parse text ↔
      (∀ line ∈ text.splitOn '\n', line.length ≠ 383) ∨
        (.refused ∈ verdicts text ∧
          ofHistory (otherPairs text) = ofHistory (acceptedPairs text)) := by
  obtain ⟨hparse, hok⟩ := parse_history text
  have hload : (empty.load text).1.entries = ofHistory (otherPairs text) := by
    rw [load, loadFrom_eq, entries_foldl_loadStep]
    exact foldl_entriesAfter _ _
  have hfitted : (empty.load text).2 = true →
      ∀ line ∈ text.splitOn '\n', line.length ≠ 383 := fun h line hline => by
    rw [load, loadFrom_eq] at h
    exact ((length_lt_of_foldl_loadStep _ _ h).2 line hline).ne
  have hagree : (∀ line ∈ text.splitOn '\n', line.length ≠ 383) →
      empty.load text = empty.parse text := fun h => by
    rw [load, loadFrom_eq, parse_eq]
    exact foldl_loadStep h
  constructor
  · intro heq
    by_cases hlines : ∀ line ∈ text.splitOn '\n', line.length ≠ 383
    · exact .inl hlines
    · refine .inr ⟨?_, by rw [← hload, ← hparse, heq]⟩
      by_contra hrefused
      exact hlines (hfitted (heq ▸ hok.2 hrefused))
  · rintro (hlines | ⟨hrefused, hsame⟩)
    · exact hagree hlines
    · have hfalse : (empty.parse text).2 = false :=
        Bool.eq_false_iff.2 fun h => hok.1 h hrefused
      have hfalse' : (empty.load text).2 = false :=
        Bool.eq_false_iff.2 fun h => hok.1 (hagree (hfitted h) ▸ h) hrefused
      refine Prod.ext (eq_of_entries ?_) (hfalse'.trans hfalse.symm)
      rw [hload, hparse, hsame]

/-- A limit, padded with blanks to 383 characters. -/
def paddedLine : List Char := "risk.max_position=10".toList ++ List.replicate 363 ' '

/-- The file loses the limit. -/
theorem load_ne_parse :
    ((empty.load paddedLine).1.entries, (empty.load paddedLine).2) = ([], false) ∧
      ((empty.parse paddedLine).1.entries, (empty.parse paddedLine).2) =
        ([("risk.max_position".toList, "10".toList)], true) ∧
      empty.load paddedLine ≠ empty.parse paddedLine := by
  have hload : ((empty.load paddedLine).1.entries, (empty.load paddedLine).2) = ([], false) := by
    rw [load, loadFrom_eq]
    decide +kernel
  have hparse : ((empty.parse paddedLine).1.entries, (empty.parse paddedLine).2) =
      ([("risk.max_position".toList, "10".toList)], true) := by
    decide +kernel
  refine ⟨hload, hparse, fun heq => ?_⟩
  rw [heq, hparse] at hload
  exact absurd (congrArg Prod.snd hload) (by decide)

end Config

end Common

end LowLatencyPipeline
