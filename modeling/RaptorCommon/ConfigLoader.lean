import RaptorCommon.ConfigStore
import RaptorCommon.LineText

/-!
# Loading a configuration file

The loader reads 511 characters at a time and tells a line that exactly fits
from an overlong one by the next character. Over a text without NUL bytes
this amounts to cutting at newlines and passing over the long pieces.
-/

set_option autoImplicit false

namespace RaptorCommon.ConfigLoader
open RaptorCommon.CText RaptorCommon.ConfigStore RaptorCommon.LineText

/-- Offset of the `#` of an inline comment: one after a space or a tab. -/
def findInlineComment : Bytes → Option ℕ
  | [] => none
  | a::s => match s with
    | [] => none
    | b::_ => if b = hashMark ∧ isBlank a then some 1 else (findInlineComment s).map (· + 1)

/-- Blanks in front of the comment go with it, but never the first character. -/
def stripInlineComment (s : Bytes) : Bytes :=
  match findInlineComment s with
  | none => s
  | some p => s.take 1 ++ ((s.take p).drop 1).rdropWhile isBlank

inductive Line where
  | ignored
  | header (name : Bytes)
  | binding (key value : Bytes)
  deriving DecidableEq

def loadedValue (rest : Bytes) : Bytes := rssTrim (stripInlineComment (rssTrim rest))

def parseLine (line : Bytes) : Line :=
  match rssTrim line with
  | [] => .ignored
  | c::s =>
    if c = hashMark ∨ c = semicolon then .ignored
    else if c = lbracket then
      match cutAt rbracket s with
      | none => .ignored
      | some (name, _) => .header (rssTrim name)
    else match cutAt equals (c::s) with
      | none => .ignored
      | some (key, rest) =>
        if rssTrim key = [] then .ignored else .binding (rssTrim key) (loadedValue rest)

structure LoadState where
  current : Field maxSecn
  cfg : Config

def loadParsed (st : LoadState) : Line → LoadState
  | .ignored => st
  | .header name => { st with current := rssStrlcpy maxSecn (CString.at name) }
  | .binding key value =>
    { st with
      cfg := findOrCreateSection st.current.str
        (addEntry (CString.at key) (CString.at value)) st.cfg }

/-- `fgets` with room for `n` characters: those stored and those left. -/
def fgets : ℕ → Bytes → Bytes × Bytes
  | 0, rest => ([], rest)
  | _+1, [] => ([], [])
  | n+1, c::rest => if c = newline then ([c], rest) else
      (c::(fgets n rest).1, (fgets n rest).2)

def skipLine : Bytes → Bytes
  | [] => []
  | c::rest => if c = newline then rest else skipLine rest

/-- One round of the reading loop: the string its body works on, none for an
overlong line, and the unread text. -/
def readLine (text : Bytes) : Option CString × Bytes :=
  let stored := fgets (maxLine-1) text
  let line := CString.at stored.1
  if line.chars.length = maxLine-1 ∧ line.chars.getLast? ≠ some newline then
    match stored.2 with
    | [] => (some line, [])
    | c::rest => if c = newline then (some line, rest) else (none, skipLine rest)
  else (some line, stored.2)

def loadLoop : ℕ → Bytes → LoadState → LoadState
  | 0, _, st => st
  | fuel+1, text, st =>
    if text = [] then st
    else match readLine text with
      | (none, rest) => loadLoop fuel rest st
      | (some line, rest) => loadLoop fuel rest (loadParsed st (parseLine line.chars))

def loadStart : LoadState := ⟨rssStrlcpy maxSecn (CString.at []), []⟩

/-- Every round reads at least one character, so the length bounds the rounds. -/
def rssConfigLoad (text : Bytes) : Config := (loadLoop text.length text loadStart).cfg

section Reading

theorem fgets_left (n : ℕ) (text : Bytes) : (fgets n text).2.length ≤ text.length := by
  induction n generalizing text with
  | zero => simp [fgets]
  | succ n ih =>
    cases text with
    | nil => simp [fgets]
    | cons c rest =>
      have := ih rest
      by_cases hc : c = newline <;> simp [fgets, hc]
      omega

theorem skip_left (text : Bytes) : (skipLine text).length ≤ text.length := by
  induction text with
  | nil => simp [skipLine]
  | cons c rest ih =>
    by_cases hc : c = newline <;> simp [skipLine, hc]
    omega

theorem read_left {text : Bytes} (h : text ≠ []) : (readLine text).2.length < text.length := by
  obtain ⟨c, rest, rfl⟩ := List.exists_cons_of_ne_nil h
  have hf : (fgets (maxLine-1) (c::rest)).2.length ≤ rest.length := by
    by_cases hc : c = newline
    · simp [fgets, hc]
    · show (fgets (510+1) (c::rest)).2.length ≤ rest.length
      rw [fgets, if_neg hc]
      exact fgets_left 510 rest
  unfold readLine
  dsimp only
  split
  next =>
    split
    next => simp
    next d left hl =>
      rw [hl, List.length_cons] at hf
      have := skip_left left
      split <;> simp only [List.length_cons] <;> omega
  next =>
    simp only [List.length_cons]
    omega

theorem fgets_line (n : ℕ) (l rest : Bytes) (hl : newline ∉ l) :
    fgets n (l ++ newline::rest) = if l.length < n then (l++[newline], rest)
      else (l.take n, l.drop n ++ newline::rest) := by
  induction n generalizing l with
  | zero => simp [fgets]
  | succ n ih =>
    cases l with
    | nil => simp [fgets]
    | cons c l =>
      have hc : c ≠ newline := fun h => hl (by simp [h])
      have ht : newline ∉ l := fun h => hl (by simp [h])
      rw [List.cons_append, fgets, if_neg hc, ih l ht]
      by_cases h : l.length < n <;> simp [h]

theorem fgets_last (n : ℕ) (l : Bytes) (hl : newline ∉ l) :
    fgets n l = (l.take n, l.drop n) := by
  induction n generalizing l with
  | zero => simp [fgets]
  | succ n ih =>
    cases l with
    | nil => simp [fgets]
    | cons c l =>
      have hc : c ≠ newline := fun h => hl (by simp [h])
      have ht : newline ∉ l := fun h => hl (by simp [h])
      simp [fgets, hc, ih l ht]

theorem skip_line (l rest : Bytes) (hl : newline ∉ l) : skipLine (l ++ newline::rest) = rest := by
  induction l with
  | nil => simp [skipLine]
  | cons c l ih =>
    have hc : c ≠ newline := fun h => hl (by simp [h])
    have ht : newline ∉ l := fun h => hl (by simp [h])
    simp [skipLine, hc, ih ht]

theorem skip_last (l : Bytes) (hl : newline ∉ l) : skipLine l = [] := by
  induction l with
  | nil => rfl
  | cons c l ih =>
    have hc : c ≠ newline := fun h => hl (by simp [h])
    have ht : newline ∉ l := fun h => hl (by simp [h])
    simp [skipLine, hc, ih ht]

theorem parse_newline (l : Bytes) : parseLine (l++[newline]) = parseLine l := by
  have h : rssTrim (l++[newline]) = rssTrim l := trim_trail (by decide) l
  rw [parseLine, parseLine, h]

def parsed (line : Option CString) : Line := (line.map (fun l => parseLine l.chars)).getD .ignored

/-- A piece of the text as the loader sees it: overlong pieces say nothing. -/
def pieceLine (l : Bytes) : Line := if l.length < maxLine then parseLine l else .ignored

theorem read_full {l tail : Bytes} (hz : 0 ∉ l) (hl : newline ∉ l) (hlong : maxLine-1 ≤ l.length)
    (htail : tail = [] ∨ ∃ rest, tail = newline::rest)
    (hf : fgets (maxLine-1) (l ++ tail) = (l.take (maxLine-1), l.drop (maxLine-1) ++ tail)) :
    parsed (readLine (l ++ tail)).1 = pieceLine l ∧ (readLine (l ++ tail)).2 = tail.tail := by
  have hM : maxLine = 512 := rfl
  have hz' : 0 ∉ l.take (maxLine-1) := fun h => hz (List.mem_of_mem_take h)
  have hc : (CString.at (l.take (maxLine-1))).chars = l.take (maxLine-1) := at_nul_free hz'
  have hn : (l.take (maxLine-1)).length = maxLine-1 := by simp; omega
  have hlast : (l.take (maxLine-1)).getLast? ≠ some newline := fun h =>
    hl (List.mem_of_mem_take (List.mem_of_getLast? h))
  cases hd : l.drop (maxLine-1) with
  | nil =>
    have hlen : l.length ≤ maxLine-1 := by simpa using hd
    have ht : l.take (maxLine-1) = l := List.take_of_length_le hlen
    rw [hd, List.nil_append, ht] at hf
    rw [ht] at hc hn hlast
    have hr : readLine (l ++ tail) = (some (CString.at l), tail.tail) := by
      simp only [readLine, hf, hc, hn]
      rw [if_pos ⟨trivial, hlast⟩]
      rcases htail with rfl | ⟨rest, rfl⟩ <;> rfl
    rw [hr]
    refine ⟨?_, rfl⟩
    simp only [parsed, Option.map_some, Option.getD_some, hc]
    rw [pieceLine, if_pos (by omega)]
  | cons c t =>
    have hlen : maxLine ≤ l.length := by
      have := congrArg List.length hd
      simp at this
      omega
    have hmem : ∀ d ∈ c::t, d ≠ newline := fun d hm h0 =>
      hl (List.mem_of_mem_drop (hd ▸ (h0 ▸ hm)))
    have ht : newline ∉ t := fun h => hmem newline (by simp [h]) rfl
    have hskip : skipLine (t ++ tail) = tail.tail := by
      rcases htail with rfl | ⟨rest, rfl⟩
      · rw [List.append_nil, skip_last t ht]
        rfl
      · rw [skip_line t rest ht]
        rfl
    have hr : readLine (l ++ tail) = (none, tail.tail) := by
      simp only [readLine, hf, hd, hc, hn, List.cons_append]
      rw [if_pos ⟨trivial, hlast⟩, if_neg (hmem c (by simp)), hskip]
    rw [hr]
    exact ⟨by rw [pieceLine, if_neg (by omega)]; rfl, rfl⟩

theorem read_line (l rest : Bytes) (hz : 0 ∉ l) (hl : newline ∉ l) :
    parsed (readLine (l ++ newline::rest)).1 = pieceLine l ∧
      (readLine (l ++ newline::rest)).2 = rest := by
  have hM : maxLine = 512 := rfl
  have hf := fgets_line (maxLine-1) l rest hl
  by_cases h : l.length < maxLine-1
  · rw [if_pos h] at hf
    have hc : (CString.at (l++[newline])).chars = l++[newline] := by
      refine at_nul_free fun h => ?_
      rcases List.mem_append.mp h with h | h
      · exact hz h
      · exact absurd h (by decide)
    have hlast : (CString.at (l++[newline])).chars.getLast? = some newline := by rw [hc]; simp
    have hr : readLine (l ++ newline::rest) = (some (CString.at (l++[newline])), rest) := by
      simp only [readLine, hf, hlast]
      simp
    rw [hr]
    refine ⟨?_, rfl⟩
    simp only [parsed, Option.map_some, Option.getD_some, hc, parse_newline]
    rw [pieceLine, if_pos (by omega)]
  · rw [if_neg h] at hf
    exact read_full hz hl (not_lt.mp h) (Or.inr ⟨rest, rfl⟩) hf

theorem read_last (l : Bytes) (hz : 0 ∉ l) (hl : newline ∉ l) :
    parsed (readLine l).1 = pieceLine l ∧ (readLine l).2 = [] := by
  have hM : maxLine = 512 := rfl
  have hf := fgets_last (maxLine-1) l hl
  by_cases h : l.length < maxLine-1
  · rw [List.take_of_length_le h.le, List.drop_of_length_le h.le] at hf
    have hc : (CString.at l).chars = l := at_nul_free hz
    have hr : readLine l = (some (CString.at l), []) := by
      simp only [readLine, hf, hc]
      rw [if_neg fun hfull => h.ne hfull.1]
    rw [hr]
    refine ⟨?_, rfl⟩
    simp only [parsed, Option.map_some, Option.getD_some, hc]
    rw [pieceLine, if_pos (by omega)]
  · have hfull := read_full hz hl (not_lt.mp h) (Or.inl rfl) (by rwa [List.append_nil, List.append_nil])
    rwa [List.append_nil] at hfull

theorem load_round {fuel : ℕ} {text : Bytes} (h : text ≠ []) (st : LoadState) :
    loadLoop (fuel+1) text st =
      loadLoop fuel (readLine text).2 (loadParsed st (parsed (readLine text).1)) := by
  rw [loadLoop, if_neg h]
  cases readLine text with
  | mk line rest => cases line <;> rfl

def linesRead : ℕ → Bytes → List Line
  | 0, _ => []
  | fuel+1, text => if text = [] then []
    else parsed (readLine text).1::linesRead fuel (readLine text).2

def fileLines (text : Bytes) : List Line := linesRead text.length text

theorem load_loop_lines (fuel : ℕ) (text : Bytes) (st : LoadState) :
    loadLoop fuel text st = (linesRead fuel text).foldl loadParsed st := by
  induction fuel generalizing text st with
  | zero => rfl
  | succ fuel ih =>
    by_cases h : text = []
    · simp [loadLoop, linesRead, h]
    · rw [load_round h, ih, linesRead, if_neg h, List.foldl_cons]

theorem load_file_lines (text : Bytes) :
    rssConfigLoad text = ((fileLines text).foldl loadParsed loadStart).cfg := by
  rw [rssConfigLoad, load_loop_lines, fileLines]

/-- A text without NUL bytes is read piece by piece. -/
theorem lines_read_pieces (fuel : ℕ) (text : Bytes) (hz : 0 ∉ text) (hf : text.length ≤ fuel) :
    linesRead fuel text = (pieces newline text).map pieceLine := by
  induction fuel generalizing text with
  | zero =>
    have h0 : text = [] := List.eq_nil_of_length_eq_zero (by omega)
    subst h0
    rfl
  | succ fuel ih =>
    by_cases h0 : text = []
    · subst h0
      rfl
    have hl := read_left h0
    rw [linesRead, if_neg h0]
    by_cases hn : newline ∈ text
    · obtain ⟨l, rest, rfl, hnl⟩ := List.eq_append_cons_of_mem hn
      have hzl : 0 ∉ l := fun h => hz (by simp [h])
      have hzr : 0 ∉ rest := fun h => hz (by simp [h])
      obtain ⟨hp, hr⟩ := read_line l rest hzl hnl
      rw [hr] at hl
      rw [hp, hr, pieces_front newline l rest hnl, ih rest hzr (by omega), List.map_cons]
    · obtain ⟨hp, hr⟩ := read_last text hz hn
      rw [hp, hr, pieces_single newline text hn h0, ih [] (by simp) (by simp)]
      rfl

theorem file_lines_pieces {text : Bytes} (hz : 0 ∉ text) :
    fileLines text = (pieces newline text).map pieceLine :=
  lines_read_pieces _ text hz (le_refl _)

theorem read_short (l rest : Bytes) (hl : newline ∉ l) (hs : l.length+1 < maxLine-1) :
    parsed (readLine (l ++ newline::rest)).1 = parseLine (CString.at l).chars ∧
      (readLine (l ++ newline::rest)).2 = rest := by
  have hM : maxLine = 512 := rfl
  have hf := fgets_line (maxLine-1) l rest hl
  rw [if_pos (by omega)] at hf
  have hlen : (CString.at (l++[newline])).chars.length ≤ l.length+1 := by
    have := (List.takeWhile_prefix (fun c : Byte => c ≠ 0) (l := l++[newline])).length_le
    rwa [List.length_append, List.length_singleton] at this
  have hr : readLine (l ++ newline::rest) = (some (CString.at (l++[newline])), rest) := by
    simp only [readLine, hf]
    rw [if_neg (fun hc => by omega)]
  rw [hr]
  refine ⟨?_, rfl⟩
  simp only [parsed, Option.map_some, Option.getD_some]
  by_cases hz : 0 ∈ l
  · obtain ⟨a, b, rfl, ha⟩ := List.eq_append_cons_of_mem hz
    rw [List.append_assoc, List.cons_append, at_cut ha, at_cut ha]
  · have hz' : 0 ∉ l++[newline] := by
      intro h0
      rcases List.mem_append.mp h0 with h0 | h0
      · exact hz h0
      · exact absurd h0 (by decide)
    rw [at_nul_free hz', at_nul_free hz, parse_newline]

theorem lines_read_joined (fuel : ℕ) (lines : List Bytes)
    (h : ∀ l ∈ lines, newline ∉ l ∧ l.length+1 < maxLine-1)
    (hf : (joined newline lines).length ≤ fuel) :
    linesRead fuel (joined newline lines) =
      lines.map (fun l => parseLine (CString.at l).chars) := by
  induction lines generalizing fuel with
  | nil => cases fuel <;> rfl
  | cons l lines ih =>
    obtain ⟨hl, hs⟩ := h l (by simp)
    obtain ⟨hp, hr⟩ := read_short l (joined newline lines) hl hs
    rw [joined, List.length_append, List.length_cons] at hf
    cases fuel with
    | zero => omega
    | succ fuel =>
      rw [joined, linesRead, if_neg (by simp), hp, hr,
        ih fuel (fun m hm => h m (by simp [hm])) (by omega), List.map_cons]

theorem file_lines_joined {lines : List Bytes}
    (h : ∀ l ∈ lines, newline ∉ l ∧ l.length+1 < maxLine-1) :
    fileLines (joined newline lines) = lines.map (fun l => parseLine (CString.at l).chars) :=
  lines_read_joined _ lines h (le_refl _)

end Reading

end RaptorCommon.ConfigLoader
