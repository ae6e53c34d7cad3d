import RaptorCommon.ConfigLineView

/-!
# The loader and the line editor on any text

The loader reads strings of at most 511 characters; the editor cuts the text
at its newlines. On a line that fits they read the same, whatever its bytes.
A line that does not fit is nothing to the editor. The loader passes over it
too, unless a NUL byte hides its length: then it goes on in the middle of the
line, and the two agree only where the pieces it reads there bind nothing and
move no key line into another section.
-/

set_option autoImplicit false

namespace RaptorCommon.ConfigLineSequence
open RaptorCommon.CText RaptorCommon.ConfigStore RaptorCommon.ConfigLoader
open RaptorCommon.ConfigEditor RaptorCommon.ConfigLineView RaptorCommon.LineText

/-- What a line says. Of a key line also whether a comment is cut off its value. -/
inductive Reading where
  | ignored
  | header (name : Field maxSecn)
  | binding (key value : CString) (stripped : Bool)
  deriving DecidableEq

def valueText (line : Bytes) : Bytes :=
  match cutAt equals (rssTrim line) with
  | some (_, rest) => rssTrim rest
  | none => []

def strips (line : Bytes) : Bool := stripInlineComment (valueText line) ≠ valueText line

def readingOf (line : Bytes) : Reading :=
  match parseLine line with
  | .ignored => .ignored
  | .header name => .header (rssStrlcpy maxSecn (CString.at name))
  | .binding key value => .binding (CString.at key) (CString.at value) (strips line)

def stringsRead : ℕ → Bytes → List CString
  | 0, _ => []
  | fuel+1, text => if text = [] then []
    else (readLine text).1.toList ++ stringsRead fuel (readLine text).2

def readings (fuel : ℕ) (text : Bytes) : List Reading :=
  (stringsRead fuel text).map (fun s => readingOf s.chars)

structure Binding where
  sec : Field maxSecn
  key : CString
  value : CString
  stripped : Bool
  deriving DecidableEq

def bindings : Field maxSecn → List Reading → List Binding
  | _, [] => []
  | cur, r::rest => match r with
    | .ignored => bindings cur rest
    | .header name => bindings name rest
    | .binding key value stripped => ⟨cur, key, value, stripped⟩::bindings cur rest

def loaderBindings (text : Bytes) : List Binding :=
  bindings loadStart.current (readings text.length text)

def bindIn (cfg : Config) (b : Binding) : Config :=
  findOrCreateSection b.sec.str (addEntry b.key b.value) cfg

theorem load_parsed_readings (line : Bytes) (st : LoadState) (rest : List Reading) :
    (bindings st.current (readingOf line::rest)).foldl bindIn st.cfg =
      (bindings (loadParsed st (parseLine line)).current rest).foldl bindIn
        (loadParsed st (parseLine line)).cfg := by
  unfold readingOf
  cases parseLine line <;> rfl

theorem load_bindings (text : Bytes) :
    rssConfigLoad text = (loaderBindings text).foldl bindIn [] := by
  have hloop : ∀ fuel text st, (loadLoop fuel text st).cfg =
      (bindings st.current (readings fuel text)).foldl bindIn st.cfg := by
    intro fuel
    induction fuel with
    | zero => exact fun text st => rfl
    | succ fuel ih =>
      intro text st
      unfold readings
      by_cases h : text = []
      · simp [loadLoop, stringsRead, h, bindings]
      · rw [load_round h, ih, stringsRead, if_neg h]
        cases (readLine text).1 with
        | none => rfl
        | some line =>
          rw [Option.toList_some, List.singleton_append, List.map_cons, load_parsed_readings]
          rfl
  exact hloop text.length text loadStart

/-- A binding as the editor can see it: the key cut to its field. -/
def Binding.cut (b : Binding) : Field maxSecn × Field maxKey × Bool :=
  (b.sec, rssStrlcpy maxKey b.key, b.stripped)

/-- Folding `classify_line` over the lines of a text. -/
def editorBindings : Field maxSecn → List Bytes → List (Field maxSecn × Field maxKey × Bool)
  | _, [] => []
  | cur, raw::rest => match (classifyLine raw).kind with
    | .inert => editorBindings cur rest
    | .header => editorBindings (classifyLine raw).sec rest
    | .key => (cur, (classifyLine raw).key, (classifyLine raw).comOff.isSome)::
        editorBindings cur rest

section Classification

theorem strip_changes (v : Bytes) :
    stripInlineComment v ≠ v ↔ (findInlineComment v).isSome = true := by
  unfold stripInlineComment
  cases hf : findInlineComment v with
  | none => simp
  | some p =>
    obtain ⟨a, b, c, hv, hp, -, -⟩ := ConfigGrammar.find_comment_some hf
    simp only [Option.isSome_some, iff_true]
    intro h
    have hlen := congrArg List.length h
    have hdrop := (List.rdropWhile_prefix isBlank ((v.take p).drop 1)).length_le
    rw [List.length_append, List.length_take] at hlen
    rw [List.length_drop, List.length_take] at hdrop
    have hvl := congrArg List.length hv
    simp only [List.length_append, List.length_cons] at hvl
    omega

theorem at_at (raw : Bytes) : CString.at (CString.at raw).chars = CString.at raw := by
  have h : (CString.at (CString.at raw).chars).chars = (CString.at raw).chars :=
    at_nul_free (CString.at raw).nul_free
  cases hr : CString.at raw with
  | mk chars nul_free =>
    rw [hr] at h
    cases hc : CString.at chars with
    | mk chars' nul_free' =>
      rw [hc] at h
      cases h
      rfl

theorem at_length (raw : Bytes) : (CString.at raw).chars.length ≤ raw.length :=
  (List.takeWhile_prefix _).length_le

theorem classify_at {raw : Bytes} (h : raw.length < maxLine) :
    classifyLine raw = { classifyLine (CString.at raw).chars with
      nonblank := raw.any (fun c => !isSpace c) } := by
  have hlen := at_length raw
  unfold classifyLine
  rw [if_neg (by omega), if_neg (by omega), at_at]
  dsimp only
  cases rssTrim (CString.at raw).chars with
  | nil => rfl
  | cons c s =>
    dsimp only
    split_ifs with h1 h2
    · rfl
    · cases cutAt rbracket s with
      | none => rfl
      | some r => rfl
    · cases cutAt equals (c::s) with
      | none => rfl
      | some r =>
        dsimp only
        split_ifs <;> rfl

theorem comment_strips {line : Bytes} (hz : 0 ∉ line) (hl : line.length < maxLine)
    (hk : (classifyLine line).kind = .key) : (classifyLine line).comOff.isSome = strips line := by
  have hc : (CString.at line).chars = line := at_nul_free hz
  unfold strips valueText
  rw [Bool.eq_iff_iff, decide_eq_true_eq, strip_changes]
  unfold classifyLine at hk ⊢
  rw [if_neg (by omega), hc] at hk ⊢
  dsimp only at hk ⊢
  cases ht : rssTrim line with
  | nil => rw [ht] at hk; cases hk
  | cons c s =>
    rw [ht] at hk
    dsimp only at hk ⊢
    by_cases h1 : c = hashMark ∨ c = semicolon
    · rw [if_pos h1] at hk; cases hk
    · rw [if_neg h1] at hk ⊢
      by_cases h2 : c = lbracket
      · rw [if_pos h2] at hk
        cases hb : cutAt rbracket s with
        | none => rw [hb] at hk; cases hk
        | some r => rw [hb] at hk; cases hk
      · rw [if_neg h2] at hk ⊢
        cases he : cutAt equals (c::s) with
        | none => rw [he] at hk; cases hk
        | some r =>
          rw [he] at hk
          dsimp only at hk ⊢
          by_cases h3 : rssTrim r.1 = []
          · rw [if_pos h3] at hk; cases hk
          · rw [if_neg h3]
            simp

end Classification

section Editor

def heard (raw : Bytes) : Reading :=
  if raw.length < maxLine then readingOf (CString.at raw).chars else .ignored

def isBinding : Reading → Bool
  | .binding _ _ _ => true
  | _ => false

theorem classify_heard (raw : Bytes) :
    (heard raw = .ignored → (classifyLine raw).kind = .inert) ∧
    (∀ name, heard raw = .header name →
      (classifyLine raw).kind = .header ∧ (classifyLine raw).sec = name) ∧
    ∀ key value stripped, heard raw = .binding key value stripped →
      (classifyLine raw).kind = .key ∧ (classifyLine raw).key = rssStrlcpy maxKey key ∧
        (classifyLine raw).comOff.isSome = stripped := by
  unfold heard
  by_cases h : raw.length < maxLine
  · have hz := (CString.at raw).nul_free
    have hl : (CString.at raw).chars.length < maxLine := lt_of_le_of_lt (at_length raw) h
    have hsame := same_reading hz hl
    have hcom := comment_strips hz hl
    rw [if_pos h, classify_at h]
    dsimp only
    unfold readingOf
    cases hp : parseLine (CString.at raw).chars with
    | ignored =>
      refine ⟨fun _ => hsame.inert hp, ?_, ?_⟩
      · intro _ h
        cases h
      · intro _ _ _ h
        cases h
    | header name =>
      refine ⟨?_, ?_, ?_⟩
      · intro h
        cases h
      · intro _ h
        cases h
        exact hsame.header name hp
      · intro _ _ _ h
        cases h
    | binding key value =>
      obtain ⟨hkind, hkey, -⟩ := hsame.key key value hp
      refine ⟨?_, ?_, ?_⟩
      · intro h
        cases h
      · intro _ h
        cases h
      · intro _ _ _ h
        cases h
        exact ⟨hkind, hkey, hcom hkind⟩
  · rw [if_neg h]
    refine ⟨fun _ => ?_, ?_, ?_⟩
    · unfold classifyLine
      rw [if_pos (not_lt.mp h)]
      rfl
    · intro _ h
      cases h
    · intro _ _ _ h
      cases h

theorem editor_bindings_heard (cur : Field maxSecn) (raws : List Bytes) :
    editorBindings cur raws = (bindings cur (raws.map heard)).map Binding.cut := by
  induction raws generalizing cur with
  | nil => rfl
  | cons raw raws ih =>
    obtain ⟨hi, hh, hk⟩ := classify_heard raw
    rw [editorBindings, List.map_cons]
    cases hr : heard raw with
    | ignored =>
      rw [hi hr]
      exact ih cur
    | header name =>
      rw [(hh name hr).1, (hh name hr).2]
      exact ih name
    | binding key value stripped =>
      obtain ⟨h1, h2, h3⟩ := hk key value stripped hr
      rw [h1, h2, h3]
      show _::editorBindings cur raws = _::_
      rw [ih cur]
      rfl

end Editor

section Reading

theorem reading_newline (l : Bytes) : readingOf (l++[newline]) = readingOf l := by
  have h : rssTrim (l++[newline]) = rssTrim l := trim_trail (by decide) l
  unfold readingOf strips valueText
  rw [parse_newline, h]

/-- What the loader reads from a line: its string where it fits, nothing where
it does not, and piece by piece where a NUL byte hides the overrun. -/
def chunkReadings (l : Bytes) : List Reading :=
  if _h : l.length < maxLine-1 then [readingOf (CString.at l).chars]
  else if 0 ∈ l.take (maxLine-1) then
    readingOf (CString.at (l.take (maxLine-1))).chars::chunkReadings (l.drop (maxLine-1))
  else if l.length = maxLine-1 then [readingOf (CString.at l).chars]
  else []
  termination_by l.length
  decreasing_by
    have hM : maxLine = 512 := rfl
    simp only [List.length_drop]
    omega

def spoken (rs : List Reading) : List Reading := rs.filter (fun r => r ≠ .ignored)

theorem spoken_append (rs ss : List Reading) : spoken (rs ++ ss) = spoken rs ++ spoken ss :=
  List.filter_append rs ss

theorem bindings_spoken (cur : Field maxSecn) (rs : List Reading) :
    bindings cur (spoken rs) = bindings cur rs := by
  induction rs generalizing cur with
  | nil => rfl
  | cons r rs ih => cases r <;> simp [spoken, bindings, ← ih]

theorem chunk_fits {l : Bytes} (h : l.length < maxLine) :
    spoken (chunkReadings l) = spoken [heard l] := by
  have hM : maxLine = 512 := rfl
  rw [heard, if_pos h, chunkReadings]
  by_cases h1 : l.length < maxLine-1
  · rw [dif_pos h1]
  · have hlen : l.length = maxLine-1 := by omega
    rw [dif_neg h1, ← hlen, List.take_length, List.drop_length, if_pos rfl]
    split_ifs
    · have hnil : chunkReadings [] = [.ignored] := by
        rw [chunkReadings]
        rfl
      rw [hnil]
      exact (spoken_append [_] [.ignored]).trans (List.append_nil _)
    · rfl

/-- The next string of a text whose line does not end in the buffer, the
overrun hidden by a NUL byte. -/
theorem read_hidden {text : Bytes} {l rest : Bytes} (hf : fgets (maxLine-1) text = (l, rest))
    (hlen : l.length = maxLine-1) (hz : 0 ∈ l) : readLine text = (some (CString.at l), rest) := by
  have hshort : (CString.at l).chars.length ≠ maxLine-1 := by
    obtain ⟨a, b, rfl, ha⟩ := List.eq_append_cons_of_mem hz
    rw [at_cut ha]
    rw [List.length_append, List.length_cons] at hlen
    omega
  unfold readLine
  simp only [hf]
  rw [if_neg fun h => hshort h.1]

def Followed (tail rest : Bytes) : Prop := tail = [] ∧ rest = [] ∨ tail = newline::rest

variable {l tail rest : Bytes}

theorem followed_pieces (hl : newline ∉ l) (ht : Followed tail rest) (hne : l ++ tail ≠ []) :
    pieces newline (l ++ tail) = l::pieces newline rest := by
  rcases ht with ⟨rfl, rfl⟩ | rfl
  · rw [List.append_nil] at hne ⊢
    exact pieces_single newline l hl hne
  · exact pieces_front newline l rest hl

theorem fgets_long (hl : newline ∉ l) {n : ℕ} (hn : n ≤ l.length) (tail : Bytes) :
    fgets n (l ++ tail) = (l.take n, l.drop n ++ tail) := by
  induction n generalizing l with
  | zero => rfl
  | succ n ih =>
    cases l with
    | nil => exact absurd hn (by simp)
    | cons c l =>
      have hc : c ≠ newline := fun h => hl (by simp [h])
      have ht : newline ∉ l := fun h => hl (by simp [h])
      rw [List.cons_append, fgets, if_neg hc, ih ht (by simpa using hn)]
      rfl

theorem skip_followed (hl : newline ∉ l) (ht : Followed tail rest) :
    skipLine (l ++ tail) = rest := by
  rcases ht with ⟨rfl, rfl⟩ | rfl
  · rw [List.append_nil]
    exact skip_last l hl
  · exact skip_line l rest hl

theorem read_room (hl : newline ∉ l) (ht : Followed tail rest) (hs : l.length < maxLine-1) :
    ∃ line, readLine (l ++ tail) = (some line, rest) ∧
      readingOf line.chars = readingOf (CString.at l).chars := by
  rcases ht with ⟨rfl, rfl⟩ | rfl
  · refine ⟨CString.at l, ?_, rfl⟩
    have hf := fgets_last (maxLine-1) l hl
    rw [List.take_of_length_le (le_of_lt hs), List.drop_of_length_le (le_of_lt hs)] at hf
    have hlen := at_length l
    rw [List.append_nil]
    unfold readLine
    simp only [hf]
    rw [if_neg fun h => by omega]
  · refine ⟨CString.at (l++[newline]), ?_, ?_⟩
    · have hf := fgets_line (maxLine-1) l rest hl
      rw [if_pos hs] at hf
      unfold readLine
      simp only [hf]
      rw [if_neg]
      rintro ⟨h1, h2⟩
      by_cases hz : 0 ∈ l
      · obtain ⟨a, b, rfl, ha⟩ := List.eq_append_cons_of_mem hz
        rw [List.append_assoc, List.cons_append, at_cut ha] at h1
        rw [List.length_append, List.length_cons] at hs
        omega
      · have hz' : 0 ∉ l++[newline] := by simpa using ⟨hz, by decide⟩
        rw [at_nul_free hz'] at h2
        exact h2 (by simp)
    · by_cases hz : 0 ∈ l
      · obtain ⟨a, b, rfl, ha⟩ := List.eq_append_cons_of_mem hz
        rw [List.append_assoc, List.cons_append, at_cut ha, at_cut ha]
      · have hz' : 0 ∉ l++[newline] := by simpa using ⟨hz, by decide⟩
        rw [at_nul_free hz', at_nul_free hz, reading_newline]

theorem read_plain (hl : newline ∉ l) (ht : Followed tail rest) (hs : maxLine-1 ≤ l.length)
    (hz : 0 ∉ l.take (maxLine-1)) :
    readLine (l ++ tail) =
      (if l.length = maxLine-1 then some (CString.at l) else none, rest) := by
  have hf := fgets_long hl hs tail
  have hc : (CString.at (l.take (maxLine-1))).chars = l.take (maxLine-1) := at_nul_free hz
  have hn : (l.take (maxLine-1)).length = maxLine-1 := by
    rw [List.length_take]
    omega
  have hlast : (l.take (maxLine-1)).getLast? ≠ some newline := fun h =>
    hl (List.mem_of_mem_take (List.mem_of_getLast? h))
  unfold readLine
  simp only [hf, hc, hn]
  rw [if_pos ⟨trivial, hlast⟩]
  by_cases hx : l.length = maxLine-1
  · rw [if_pos hx, ← hx, List.take_length, List.drop_length, List.nil_append]
    rcases ht with ⟨rfl, rfl⟩ | rfl
    · rfl
    · simp
  · rw [if_neg hx]
    cases hd : l.drop (maxLine-1) with
    | nil =>
      have := congrArg List.length hd
      rw [List.length_drop, List.length_nil] at this
      omega
    | cons c t =>
      have hmem : ∀ d ∈ c::t, d ≠ newline := fun d hm h0 =>
        hl (List.mem_of_mem_drop (hd ▸ (h0 ▸ hm)))
      rw [List.cons_append]
      dsimp only
      rw [if_neg (hmem c (by simp)), skip_followed (fun h => hmem newline (by simp [h]) rfl) ht]

theorem text_split (text : Bytes) :
    ∃ l tail rest, text = l ++ tail ∧ newline ∉ l ∧ Followed tail rest := by
  by_cases hn : newline ∈ text
  · obtain ⟨l, rest, rfl, hl⟩ := List.eq_append_cons_of_mem hn
    exact ⟨l, newline::rest, rest, rfl, hl, Or.inr rfl⟩
  · exact ⟨text, [], [], (List.append_nil text).symm, hn, Or.inl ⟨rfl, rfl⟩⟩

/-- The loop reads a text line by line, each as the chunks it makes of it.
The induction is on the rounds: a hidden overrun leaves the rest of its line. -/
theorem readings_chunks (fuel : ℕ) (text : Bytes) (hf : text.length ≤ fuel) :
    spoken (readings fuel text) = spoken ((pieces newline text).flatMap chunkReadings) := by
  induction fuel generalizing text with
  | zero =>
    have h0 : text = [] := List.eq_nil_of_length_eq_zero (by omega)
    subst h0
    rfl
  | succ fuel ih =>
    by_cases h0 : text = []
    · subst h0
      rfl
    obtain ⟨l, tail, rest, rfl, hl, ht⟩ := text_split text
    have hleft := read_left h0
    have hround : readings (fuel+1) (l ++ tail) =
        ((readLine (l ++ tail)).1.toList.map fun s => readingOf s.chars) ++
          readings fuel (readLine (l ++ tail)).2 := by
      unfold readings
      rw [stringsRead, if_neg h0, List.map_append]
    rw [hround, spoken_append, ih _ (by omega), followed_pieces hl ht h0, List.flatMap_cons,
      spoken_append]
    by_cases hs : l.length < maxLine-1
    · obtain ⟨line, hr, hread⟩ := read_room hl ht hs
      rw [hr, chunkReadings, dif_pos hs, ← hread]
      rfl
    by_cases hz : 0 ∈ l.take (maxLine-1)
    · have hlen : (l.take (maxLine-1)).length = maxLine-1 := by
        rw [List.length_take]
        omega
      have hr := read_hidden (fgets_long hl (not_lt.mp hs) tail) hlen hz
      have hdl : newline ∉ l.drop (maxLine-1) := fun h => hl (List.mem_of_mem_drop h)
      rw [hr, chunkReadings, dif_neg hs, if_pos hz]
      dsimp only
      by_cases hne : l.drop (maxLine-1) ++ tail = []
      · obtain ⟨hd, htail⟩ := List.append_eq_nil_iff.mp hne
        have hrest : rest = [] := by
          rcases ht with ⟨-, h⟩ | h
          · exact h
          · rw [htail] at h
            cases h
        have hnil : chunkReadings [] = [.ignored] := by
          rw [chunkReadings]
          rfl
        rw [hne, hd, hnil, hrest]
        exact congrArg (· ++ _) ((spoken_append [_] [.ignored]).trans (List.append_nil _)).symm
      · rw [followed_pieces hdl ht hne, List.flatMap_cons, spoken_append, ← List.append_assoc,
          ← spoken_append]
        rfl
    · rw [read_plain hl ht (not_lt.mp hs) hz, chunkReadings, dif_neg hs, if_neg hz]
      split_ifs <;> rfl

end Reading

section Agreement

def sectionAfter (cur : Field maxSecn) (rs : List Reading) : Field maxSecn :=
  rs.foldl (fun cur r => match r with
    | .header name => name
    | _ => cur) cur

theorem bindings_append (cur : Field maxSecn) (rs ss : List Reading) :
    bindings cur (rs ++ ss) = bindings cur rs ++ bindings (sectionAfter cur rs) ss := by
  induction rs generalizing cur with
  | nil => rfl
  | cons r rs ih => cases r <;> simp [bindings, ih, sectionAfter]

theorem bindings_length (cur : Field maxSecn) (rs : List Reading) :
    (bindings cur rs).length = rs.countP isBinding := by
  induction rs generalizing cur with
  | nil => rfl
  | cons r rs ih => cases r <;> simp [bindings, ih, isBinding, List.countP_cons]

theorem section_spoken (cur : Field maxSecn) (rs : List Reading) :
    sectionAfter cur (spoken rs) = sectionAfter cur rs := by
  induction rs generalizing cur with
  | nil => rfl
  | cons r rs ih =>
    cases r with
    | ignored => exact ih cur
    | header name => exact ih name
    | binding key value stripped => exact ih cur

theorem section_append (cur : Field maxSecn) (rs ss : List Reading) :
    sectionAfter cur (rs ++ ss) = sectionAfter (sectionAfter cur rs) ss :=
  List.foldl_append

theorem count_spoken (rs : List Reading) :
    (spoken rs).countP isBinding = rs.countP isBinding := by
  rw [← bindings_length loadStart.current, bindings_spoken, bindings_length]

/-- The chunks of an overlong line bind nothing, and wherever they leave the
loader in another section than the editor no key line follows before the two
are together again. -/
structure Contained (lines : List Bytes) : Prop where
  unbound : ∀ l ∈ lines, maxLine ≤ l.length → ∀ r ∈ chunkReadings l, isBinding r = false
  placed : ∀ before l after, lines = before ++ l::after → isBinding (heard l) = true →
    sectionAfter loadStart.current (before.flatMap chunkReadings) =
      sectionAfter loadStart.current (before.map heard)

def Together : Field maxSecn → Field maxSecn → List Bytes → Prop
  | _, _, [] => True
  | cl, ce, l::lines =>
    (maxLine ≤ l.length → ∀ r ∈ chunkReadings l, isBinding r = false) ∧
      (isBinding (heard l) = true → cl = ce) ∧
      Together (sectionAfter cl (chunkReadings l)) (sectionAfter ce [heard l]) lines

theorem together_iff (lines : List Bytes) : ∀ cl ce, Together cl ce lines ↔
    (∀ l ∈ lines, maxLine ≤ l.length → ∀ r ∈ chunkReadings l, isBinding r = false) ∧
      ∀ before l after, lines = before ++ l::after → isBinding (heard l) = true →
        sectionAfter cl (before.flatMap chunkReadings) = sectionAfter ce (before.map heard) := by
  induction lines with
  | nil => exact fun cl ce => ⟨fun _ => ⟨nofun, fun before l after h => by simp at h⟩, fun _ => trivial⟩
  | cons l lines ih =>
    intro cl ce
    rw [Together, ih]
    constructor
    · rintro ⟨hu, hp, hus, hps⟩
      refine ⟨?_, ?_⟩
      · intro m hm
        rcases List.mem_cons.mp hm with rfl | hm
        · exact hu
        · exact hus m hm
      · intro before m after h hb
        cases before with
        | nil =>
          cases (List.cons.inj h).1
          exact hp hb
        | cons x before =>
          obtain ⟨rfl, htail⟩ := List.cons.inj h
          rw [List.flatMap_cons, section_append]
          exact hps before m after htail hb
    · rintro ⟨hu, hp⟩
      refine ⟨hu l (by simp), fun hb => hp [] l lines rfl hb,
        fun m hm => hu m (List.mem_cons_of_mem l hm), fun before m after h hb => ?_⟩
      have := hp (l::before) m after (by rw [h]; rfl) hb
      rwa [List.flatMap_cons, section_append] at this

theorem long_heard {l : Bytes} (h : maxLine ≤ l.length) : heard l = .ignored := by
  rw [heard, if_neg (by omega)]

theorem count_heard (lines : List Bytes) :
    (lines.map heard).countP isBinding ≤ (lines.flatMap chunkReadings).countP isBinding := by
  induction lines with
  | nil => exact le_refl _
  | cons l lines ih =>
    rw [List.map_cons, List.countP_cons, List.flatMap_cons, List.countP_append]
    by_cases h : l.length < maxLine
    · have hc := congrArg (List.countP isBinding) (chunk_fits h)
      rw [count_spoken, count_spoken, List.countP_singleton] at hc
      omega
    · rw [long_heard (not_lt.mp h), if_neg (by decide)]
      omega

/-- Two sections and the lines from there on: the bindings agree when the
chunks of overlong lines bind nothing and key lines find the same section. -/
theorem bindings_agree (lines : List Bytes) : ∀ cl ce,
    (bindings cl (lines.flatMap chunkReadings)).map Binding.cut =
      (bindings ce (lines.map heard)).map Binding.cut ↔ Together cl ce lines := by
  induction lines with
  | nil => exact fun cl ce => ⟨fun _ => trivial, fun _ => rfl⟩
  | cons l lines ih =>
    intro cl ce
    have hcount := count_heard lines
    rw [List.flatMap_cons, List.map_cons, bindings_append, List.map_append, Together, ← ih]
    by_cases h : l.length < maxLine
    · have hsec : sectionAfter cl (chunkReadings l) = sectionAfter cl [heard l] := by
        rw [← section_spoken, chunk_fits h, section_spoken]
      have hbind : bindings cl (chunkReadings l) = bindings cl [heard l] := by
        rw [← bindings_spoken, chunk_fits h, bindings_spoken]
      rw [hsec, hbind]
      have hlong : maxLine ≤ l.length → ∀ r ∈ chunkReadings l, isBinding r = false :=
        fun hm => by omega
      cases hr : heard l with
      | ignored => exact ⟨fun heq => ⟨hlong, nofun, heq⟩, fun h => h.2.2⟩
      | header name => exact ⟨fun heq => ⟨hlong, nofun, heq⟩, fun h => h.2.2⟩
      | binding key value stripped =>
        constructor
        · intro heq
          obtain ⟨hhead, htail⟩ := List.cons.inj heq
          exact ⟨hlong, fun _ => congrArg Prod.fst hhead, htail⟩
        · rintro ⟨-, hsame, htail⟩
          cases hsame rfl
          exact congrArg (_::·) htail
    · rw [long_heard (not_lt.mp h)]
      have hcur : bindings ce (.ignored::lines.map heard) = bindings ce (lines.map heard) := rfl
      have hsec : sectionAfter ce [.ignored] = ce := rfl
      rw [hcur, hsec]
      constructor
      · intro heq
        -- the editor's sequence is no longer than what the lines after this one bind
        have hlen := congrArg List.length heq
        rw [List.length_append, List.length_map, List.length_map, List.length_map,
          bindings_length, bindings_length, bindings_length] at hlen
        have hzero : (chunkReadings l).countP isBinding = 0 := by omega
        have hnone := List.countP_eq_zero.mp hzero
        have hnil : bindings cl (chunkReadings l) = [] :=
          List.eq_nil_of_length_eq_zero ((bindings_length cl _).trans hzero)
        rw [hnil] at heq
        exact ⟨fun _ r hr => by simpa using hnone r hr, nofun, heq⟩
      · rintro ⟨hu, -, heq⟩
        have hzero : (chunkReadings l).countP isBinding = 0 :=
          List.countP_eq_zero.mpr fun r hr => by simp [hu (not_lt.mp h) r hr]
        have hnil : bindings cl (chunkReadings l) = [] :=
          List.eq_nil_of_length_eq_zero ((bindings_length cl _).trans hzero)
        rw [hnil]
        exact heq

/-- The loader binds what the editor's reading of the lines says, section,
key and comment, exactly when the chunks of overlong lines are contained. -/
theorem loader_editor_agree_iff (text : Bytes) :
    (loaderBindings text).map Binding.cut =
      editorBindings loadStart.current (pieces newline text) ↔
        Contained (pieces newline text) := by
  have hloader : loaderBindings text =
      bindings loadStart.current ((pieces newline text).flatMap chunkReadings) := by
    rw [loaderBindings, ← bindings_spoken, readings_chunks _ text (le_refl _), bindings_spoken]
  rw [hloader, editor_bindings_heard, bindings_agree, together_iff]
  exact ⟨fun h => ⟨h.1, h.2⟩, fun h => ⟨h.unbound, h.placed⟩⟩

def hiddenOverrun : Bytes := ascii "k = 1" ++ 0::List.replicate 600 120

theorem hidden_overrun_binds : (loaderBindings hiddenOverrun).map Binding.cut ≠
    editorBindings loadStart.current (pieces newline hiddenOverrun) := by
  decide +kernel

end Agreement

end RaptorCommon.ConfigLineSequence
