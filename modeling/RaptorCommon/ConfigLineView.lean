import RaptorCommon.ConfigEditor
import RaptorCommon.ConfigMap

/-!
# The editor's view of a line

The editor classifies a line by its own copy of the loader's rules. Both see
the same header or key on every line, and what the editor keeps of a line
around a new value is read back as that value.
-/

set_option autoImplicit false

namespace RaptorCommon.ConfigLineView
open RaptorCommon.LineText RaptorCommon.CText RaptorCommon.ConfigStore RaptorCommon.ConfigLoader
open RaptorCommon.ConfigWriter RaptorCommon.ConfigEditor RaptorCommon.ConfigGrammar
open RaptorCommon.ConfigMap RaptorCommon.IniSemantics

section Classification

theorem lead_space {a t : Bytes} {c : Byte} (ha : AllSpace a) (hc : isSpace c = false) :
    (a ++ c::t).takeWhile isSpace = a := by
  rw [List.takeWhile_append_of_pos ha, List.takeWhile_cons, hc]
  simp

theorem back_blanks (a t : Bytes) :
    ∃ w, (a++t).drop (backBlanks (a++t) a.length) = w ++ t ∧ ∀ c ∈ w, isBlank c = true := by
  induction a using List.reverseRecOn generalizing t with
  | nil => exact ⟨[], by simp [backBlanks], by simp⟩
  | append_singleton a x ih =>
    have hx : (a ++ [x] ++ t)[a.length]? = some x := by simp
    rw [List.length_append, List.length_singleton, backBlanks, hx]
    by_cases hb : isBlank x = true
    · obtain ⟨w, hw, hblank⟩ := ih (x::t)
      refine ⟨w++[x], ?_, ?_⟩
      · rw [Option.any_some, if_pos hb]
        simpa using hw
      · intro c hc
        rcases List.mem_append.mp hc with h | h
        · exact hblank c h
        · rw [List.mem_singleton.mp h]
          exact hb
    · refine ⟨[], ?_, by simp⟩
      rw [Option.any_some, if_neg hb, List.nil_append]
      exact List.drop_left' (by simp)

theorem back_marker (a t : Bytes) (b : Byte) (hb : isBlank b = true) :
    ∃ w, (a ++ b::t).drop (backBlanks (a ++ b::t) (a.length+1)) = w ++ t ∧
      (∀ c ∈ w, isBlank c = true) ∧ w ≠ [] := by
  obtain ⟨w, hw, hblank⟩ := back_blanks a (b::t)
  refine ⟨w++[b], ?_, ?_, by simp⟩
  · rw [backBlanks, if_pos (by simpa using hb), hw]
    simp
  · intro c hc
    rcases List.mem_append.mp hc with h | h
    · exact hblank c h
    · rw [List.mem_singleton.mp h]
      exact hb

/-- Where the editor cuts a key line: after the key, and in front of a comment. -/
structure KeyCut (raw key : Bytes) (li : LineInfo) : Prop where
  front : ∃ lead, AllSpace lead ∧ raw.take li.keyEnd = lead ++ key
  comment : ∀ off ∈ li.comOff, ∃ w c, raw.drop off = w ++ hashMark::c ∧
    (∀ d ∈ w, isBlank d = true) ∧ w ≠ []

structure SameReading (raw : Bytes) (line : Line) (li : LineInfo) : Prop where
  nonblank : li.nonblank = raw.any (fun c => !isSpace c)
  inert : line = .ignored → li.kind = .inert
  header : ∀ name, line = .header name →
    li.kind = .header ∧ li.sec = rssStrlcpy maxSecn (CString.at name)
  key : ∀ key value, line = .binding key value →
    li.kind = .key ∧ li.key = rssStrlcpy maxKey (CString.at key) ∧ KeyCut raw key li

theorem key_front {raw lead before rest trail : Bytes} {c : Byte} {s : Bytes}
    (hraw : raw = lead ++ (before ++ equals::rest) ++ trail) (hb : before = c::s)
    (hc : isSpace c = false) :
    raw.take (lead.length+(rssTrim before).length) = lead ++ rssTrim before := by
  obtain ⟨a, b, hs, ha, -⟩ := trim_parts before
  have ha0 : a = [] := by
    cases a with
    | nil => rfl
    | cons d a =>
      rw [hb] at hs
      obtain ⟨rfl, -⟩ := List.cons.inj hs
      have := ha c (by simp)
      rw [hc] at this
      cases this
  subst ha0
  have hsplit : raw = lead ++ rssTrim before ++ (b ++ equals::rest ++ trail) := by
    rw [hraw]
    conv_lhs => rw [hs]
    simp
  rw [hsplit]
  exact List.take_left' (by simp)

theorem comment_back {a rest b : Bytes} {p : ℕ}
    (hp : findInlineComment (rssTrim rest) = some p) :
    let raw := a ++ rest ++ b
    ∃ w c, raw.drop (backBlanks raw (a.length+(rest.takeWhile isSpace).length+p)) =
        w ++ hashMark::c ∧ (∀ d ∈ w, isBlank d = true) ∧ w ≠ [] := by
  intro raw
  obtain ⟨x, d, y, hval, rfl, hd, -⟩ := find_comment_some hp
  obtain ⟨sp, tl, hrest, hsp, -⟩ := trim_parts rest
  have hlead : rest.takeWhile isSpace = sp := by
    cases hv : rssTrim rest with
    | nil =>
      rw [hv] at hval
      simp at hval
    | cons c t =>
      rw [hrest, hv, List.append_assoc, List.cons_append]
      exact lead_space hsp (trim_head hv)
  have hraw : raw = (a ++ sp ++ x) ++ d::(hashMark::y ++ tl ++ b) := by
    show a ++ rest ++ b = _
    rw [hrest, hval]
    simp
  obtain ⟨w, hw, hblank, hne⟩ :=
    back_marker (a ++ sp ++ x) (hashMark::y ++ tl ++ b) d hd
  refine ⟨w, y ++ tl ++ b, ?_, hblank, hne⟩
  have hn : a.length+(rest.takeWhile isSpace).length+(x.length+1) =
      (a ++ sp ++ x).length+1 := by
    rw [hlead]
    simp [Nat.add_assoc]
  rw [hn, hraw, hw]
  simp

theorem same_reading {raw : Bytes} (hz : 0 ∉ raw) (hl : raw.length < maxLine) :
    SameReading raw (parseLine raw) (classifyLine raw) := by
  have hcopy : (CString.at raw).chars = raw := at_nul_free hz
  have hm : ¬maxLine ≤ raw.length := by omega
  obtain ⟨lead, trail, hraw, hlead, -⟩ := trim_parts raw
  have inert : SameReading raw .ignored (inertLine raw) :=
    ⟨rfl, fun _ => rfl, by simp, by simp⟩
  rw [parseLine, classifyLine, if_neg hm, hcopy]
  dsimp only
  cases ht : rssTrim raw with
  | nil => exact inert
  | cons c s =>
    have hc : isSpace c = false := trim_head ht
    have htake : raw.takeWhile isSpace = lead := by
      rw [hraw, ht, List.append_assoc, List.cons_append]
      exact lead_space hlead hc
    dsimp only
    split
    · exact inert
    split
    · cases hcut : cutAt rbracket s with
      | none => exact inert
      | some r =>
        refine ⟨rfl, by simp, fun name h => ?_, by simp⟩
        rw [← Line.header.inj h]
        exact ⟨rfl, rfl⟩
    · cases hcut : cutAt equals (c::s) with
      | none => exact inert
      | some r =>
        obtain ⟨before, rest⟩ := r
        obtain ⟨hs, -⟩ := cutAt_some hcut
        dsimp only
        split
        · exact inert
        next hk =>
          refine ⟨rfl, by simp, by simp, fun key value h => ?_⟩
          obtain ⟨rfl, -⟩ := Line.binding.inj h
          refine ⟨rfl, rfl, ⟨lead, hlead, ?_⟩, ?_⟩
          · cases before with
            | nil => exact absurd rfl hk
            | cons d t =>
              obtain ⟨rfl, -⟩ : c = d ∧ _ := List.cons.inj hs
              have hfull : raw = lead ++ (c::t ++ equals::rest) ++ trail := by
                rw [← hs, ← ht]
                exact hraw
              rw [htake]
              exact key_front hfull rfl hc
          · intro off hoff
            obtain ⟨p, hp, rfl⟩ := Option.map_eq_some_iff.mp hoff
            have hfull : raw = lead ++ before ++ [equals] ++ rest ++ trail := by
              rw [hraw, ht, hs]
              simp
            have := comment_back hp (a := lead ++ before ++ [equals]) (b := trail)
            rw [← hfull] at this
            rw [htake]
            simpa [Nat.add_assoc] using this

end Classification

section Items

def lineItem (raw : Bytes) : Item Bytes Bytes Bytes := itemOf (pieceLine raw)

structure PlainLine (raw : Bytes) : Prop where
  nul_free : 0 ∉ raw
  no_newline : newline ∉ raw
  names : ∀ name ∈ lineNames (pieceLine raw), name.length ≤ 63

variable {raw : Bytes}

theorem long_inert (h : maxLine ≤ raw.length) :
    lineItem raw = .inert ∧ (classifyLine raw).kind = .inert := by
  have hl : ¬raw.length < maxLine := by omega
  constructor
  · rw [lineItem, pieceLine, if_neg hl]
    rfl
  · rw [classifyLine, if_pos h]
    rfl

theorem visible_line {c : Byte} {t : Bytes} (h : rssTrim raw = c::t) :
    raw.any (fun c => !isSpace c) = true := by
  obtain ⟨a, b, hraw, -, -⟩ := trim_parts raw
  rw [List.any_eq_true]
  refine ⟨c, ?_, by simpa using trim_head h⟩
  rw [hraw, h]
  simp

theorem parsed_visible (h : parseLine raw ≠ .ignored) : raw.any (fun c => !isSpace c) = true := by
  cases ht : rssTrim raw with
  | nil => exact absurd (by rw [parseLine, ht]) h
  | cons c t => exact visible_line ht

theorem view_inert (h : PlainLine raw) (hi : lineItem raw = .inert) :
    (classifyLine raw).kind = .inert := by
  by_cases hl : raw.length < maxLine
  · refine (same_reading h.nul_free hl).inert ?_
    rw [lineItem, pieceLine, if_pos hl] at hi
    cases hp : parseLine raw <;> simp [hp, itemOf] at hi ⊢
  · exact (long_inert (by omega)).2

theorem line_short (hi : lineItem raw ≠ .inert) : raw.length < maxLine := by
  by_contra hl
  exact hi (long_inert (by omega)).1

theorem line_nonblank (h : PlainLine raw) (hi : lineItem raw ≠ .inert) :
    (classifyLine raw).nonblank = true := by
  have hl := line_short hi
  rw [(same_reading h.nul_free hl).nonblank]
  refine parsed_visible fun hp => hi ?_
  rw [lineItem, pieceLine, if_pos hl, hp, itemOf]

theorem view_header (h : PlainLine raw) {s : Bytes} (hi : lineItem raw = .header s) :
    (classifyLine raw).kind = .header ∧ foldCase (classifyLine raw).sec.chars = s := by
  have hl := line_short (by rw [hi]; nofun)
  have hp : pieceLine raw = parseLine raw := if_pos hl
  rw [lineItem, hp] at hi
  cases hr : parseLine raw with
  | ignored => rw [hr] at hi; cases hi
  | binding key value => rw [hr] at hi; cases hi
  | header name =>
    rw [hr] at hi
    have hf := h.names name (by rw [hp, hr]; simp [lineNames])
    have hz : 0 ∉ name := fun h0 =>
      h.nul_free (line_texts_mem (by rw [hr]; simp [lineTexts]) h0)
    obtain ⟨hk, hsec⟩ := (same_reading h.nul_free hl).header name hr
    refine ⟨hk, ?_⟩
    rw [hsec, strlcpy_of_fits, at_nul_free hz]
    · exact Item.header.inj hi
    · rw [at_nul_free hz]
      exact hf

theorem view_key (h : PlainLine raw) {k v : Bytes} (hi : lineItem raw = .binding k v) :
    (classifyLine raw).kind = .key ∧ foldCase (classifyLine raw).key.chars = k ∧
      ∃ key, foldCase key = k ∧ key ≠ [] ∧ key.length ≤ 63 ∧ Trimmed key ∧ equals ∉ key ∧
        KeyStart key ∧ KeyCut raw key (classifyLine raw) := by
  have hl := line_short (by rw [hi]; nofun)
  have hp : pieceLine raw = parseLine raw := if_pos hl
  rw [lineItem, hp] at hi
  cases hr : parseLine raw with
  | ignored => rw [hr] at hi; cases hi
  | header name => rw [hr] at hi; cases hi
  | binding key value =>
    rw [hr] at hi
    obtain ⟨-, -, -, -, -, -, hne, ht, he, hs, -⟩ := parse_binding_parts hr
    have hf := h.names key (by rw [hp, hr]; simp [lineNames])
    have hz : 0 ∉ key := fun h0 =>
      h.nul_free (line_texts_mem (by rw [hr]; simp [lineTexts]) h0)
    obtain ⟨hk, hkey, hcut⟩ := (same_reading h.nul_free hl).key key value hr
    have hfold := (Item.binding.inj hi).1
    refine ⟨hk, ?_, key, hfold, hne, hf, ht, he, hs, hcut⟩
    rw [hkey, strlcpy_of_fits, at_nul_free hz]
    · exact hfold
    · rw [at_nul_free hz]
      exact hf

end Items

section Emitted

def Speaks (k : Bytes) (x : Item Bytes Bytes Bytes) : Prop := x = .inert ∨ ∃ v, x = .binding k v

variable {lead key pad : Bytes}

theorem key_line_speaks (rest : Bytes) (hl : AllSpace lead) (hp : AllSpace pad) (ht : Trimmed key)
    (he : equals ∉ key) (hs : KeyStart key) :
    Speaks (foldCase key) (lineItem (keyShape lead key pad rest)) := by
  rw [lineItem, pieceLine]
  split
  · rw [parse_key_line rest hl hp ht he hs]
    split
    · exact Or.inl rfl
    · exact Or.inr ⟨_, rfl⟩
  · exact Or.inl rfl

theorem key_line_value (rest : Bytes) (hl : AllSpace lead) (hp : AllSpace pad) (ht : Trimmed key)
    (he : equals ∉ key) (hs : KeyStart key) (hne : key ≠ [])
    (hlen : (keyShape lead key pad rest).length < maxLine) :
    lineItem (keyShape lead key pad rest) =
      .binding (foldCase key) ((loadedValue rest).take (maxVal-1)) := by
  rw [lineItem, pieceLine, if_pos hlen, parse_key_line rest hl hp ht he hs, if_neg hne, itemOf]

theorem key_line_names (rest : Bytes) (hl : AllSpace lead) (hp : AllSpace pad) (ht : Trimmed key)
    (he : equals ∉ key) (hs : KeyStart key) (hf : key.length ≤ 63) :
    ∀ name ∈ lineNames (pieceLine (keyShape lead key pad rest)), name.length ≤ 63 := by
  rw [pieceLine]
  split
  · rw [parse_key_line rest hl hp ht he hs]
    split
    · simp [lineNames]
    · simpa [lineNames] using hf
  · simp [lineNames]

def entryLine (e : ConfigEntry) : Bytes := keyShape [] e.key.chars [space] (space::e.value.chars)

theorem entry_text (e : ConfigEntry) :
    entryText e.key.chars e.value.chars = entryLine e ++ [newline] := by
  simp [entryText, entryLine, keyShape]

theorem entry_line_length (e : ConfigEntry) : (entryLine e).length < maxLine := by
  have hM : maxLine = 512 := rfl
  have hk : e.key.chars.length ≤ 63 := e.key.fits
  have hv : e.value.chars.length ≤ 255 := e.value.fits
  simp only [entryLine, keyShape, List.length_append, List.length_cons, List.length_nil]
  omega

/-- The comment kept behind a value that leaves `front` characters in front
of it. -/
def keptComment (raw : Bytes) (front : ℕ) (off : Option ℕ) : Bytes :=
  if front+(match off with
    | some off => raw.length-off
    | none => 0) ≥ maxLine then []
  else match off with
    | some off => raw.drop off
    | none => []

theorem kept_comment {raw key : Bytes} {li : LineInfo} (hcut : KeyCut raw key li) (front : ℕ) :
    Tail (keptComment raw front li.comOff) ∧
      (front < maxLine → front+(keptComment raw front li.comOff).length < maxLine) ∧
      (maxLine ≤ front → keptComment raw front li.comOff = []) := by
  unfold keptComment
  cases hoff : li.comOff with
  | none => exact ⟨Or.inl (by simp), by simp, by simp⟩
  | some off =>
    dsimp only
    split
    next hlong => exact ⟨Or.inl rfl, by simp, fun _ => rfl⟩
    next hshort =>
      refine ⟨Or.inr ?_, fun _ => ?_, fun h => ?_⟩
      · obtain ⟨w, c, h⟩ := hcut.comment off hoff
        exact ⟨w, c, h⟩
      · rw [List.length_drop]
        omega
      · omega

theorem kept_comment_mem {raw : Bytes} {front : ℕ} {off : Option ℕ} {c : Byte}
    (h : c ∈ keptComment raw front off) : c ∈ raw := by
  unfold keptComment at h
  cases off with
  | none => simp at h
  | some off =>
    dsimp only at h
    split at h
    · simp at h
    · exact List.mem_of_mem_drop h

/-- The line put in place of a key line starts with the key as the file or
the entry spells it and ends with the comment that was there or none. -/
theorem replacement_shape {raw : Bytes} {d : DirtyRef} {e : ConfigEntry} {li : LineInfo}
    (hcut : KeyCut raw key li) (hne : key ≠ []) (hend : d.repKeyEnd = li.keyEnd)
    (hcom : d.repComOff = li.comOff) :
    ∃ lead k comment, replacementLine raw d e =
        keyShape lead k [space] (space::e.value.chars ++ comment) ∧
      AllSpace lead ∧ (k = key ∨ k = e.key.chars) ∧ Tail comment ∧
      (replacementLine raw d e).length < maxLine ∧
      lead ⊆ raw ∧ comment ⊆ raw ∧ key ⊆ raw ∧
      comment = keptComment raw (li.keyEnd+3+e.value.chars.length) li.comOff := by
  have hM : maxLine = 512 := rfl
  have hk : e.key.chars.length ≤ 63 := e.key.fits
  have hv : e.value.chars.length ≤ 255 := e.value.fits
  obtain ⟨lead, hl, hfront⟩ := hcut.front
  have hlen : (raw.take li.keyEnd).length = lead.length+key.length := by
    rw [hfront, List.length_append]
  have hpos : 0 < key.length := List.length_pos_of_ne_nil hne
  have hlead : lead ⊆ raw := fun c hm =>
    List.mem_of_mem_take (hfront ▸ List.mem_append_left key hm)
  have hkey : key ⊆ raw := fun c hm =>
    List.mem_of_mem_take (hfront ▸ List.mem_append_right lead hm)
  have htake : (raw.take li.keyEnd).length ≤ li.keyEnd := List.length_take_le ..
  obtain ⟨htail, hfit, hcut0⟩ := kept_comment hcut (li.keyEnd+3+e.value.chars.length)
  have hline : replacementLine raw d e =
      (if 0 < (if li.keyEnd+3+e.value.chars.length ≥ maxLine then 0 else li.keyEnd)
        then raw.take (if li.keyEnd+3+e.value.chars.length ≥ maxLine then 0 else li.keyEnd)
        else e.key.chars) ++ space::equals::space::e.value.chars ++
      keptComment raw (li.keyEnd+3+e.value.chars.length) li.comOff := by
    rw [replacementLine, hend, hcom]
    rfl
  by_cases hlong : li.keyEnd+3+e.value.chars.length ≥ maxLine
  · rw [if_pos hlong, if_neg (Nat.lt_irrefl 0), hcut0 hlong] at hline
    refine ⟨[], e.key.chars, [], ?_, by simp [AllSpace], Or.inr rfl, Or.inl rfl, ?_, by simp,
      by simp, hkey, (hcut0 hlong).symm⟩
    · rw [hline]
      simp [keyShape]
    · rw [hline]
      simp only [List.length_append, List.length_cons, List.length_nil]
      omega
  · rw [if_neg hlong, if_pos (by omega)] at hline
    refine ⟨lead, key, _, ?_, hl, Or.inl rfl, htail, ?_, hlead, fun c hm => kept_comment_mem hm,
      hkey, rfl⟩
    · rw [hline, hfront]
      simp [keyShape]
    · have := hfit (by omega)
      rw [hline]
      simp only [List.length_append, List.length_cons]
      omega

structure Readable (e : ConfigEntry) : Prop where
  key_nonempty : e.key.chars ≠ []
  value : PlainValue e.value.chars
  nonempty : e.value.chars ≠ []

variable {raw : Bytes} {e : ConfigEntry} {d : DirtyRef}

theorem value_take (e : ConfigEntry) : e.value.chars.take (maxVal-1) = e.value.chars :=
  List.take_of_length_le e.value.fits

theorem space_pad : AllSpace [space] := by decide

theorem no_lead : AllSpace [] := by decide

theorem tail_read {v comment : Bytes} (hv : PlainValue v) (hc : Tail comment)
    (h : v ≠ [] ∨ comment = []) : loadedValue (space::v ++ comment) = v := by
  rcases hc with rfl | ⟨w, c, rfl, hw, hne⟩
  · have hload := loaded_plain space_pad no_lead hv.trimmed hv.no_marker
    exact hload
  · have hvne : v ≠ [] := by
      rcases h with h | h
      · exact h
      · simp at h
    have hload := loaded_comment c space_pad hv.trimmed hvne hv.no_marker hw hne
    simpa using hload

def unitItems (u : Bytes) : List (Item Bytes Bytes Bytes) := (parts newline u).map lineItem

def PlainUnit (u : Bytes) : Prop := ∀ line ∈ parts newline u, PlainLine line

/-- It says one thing about one key at most. -/
def Mild (k : Bytes) (ys : List (Item Bytes Bytes Bytes)) : Prop :=
  ∃ y rest, ys = y::rest ∧ Speaks k y ∧ ∀ z ∈ rest, z = .inert

theorem unit_line {u : Bytes} (h : newline ∉ u) : unitItems u = [lineItem u] := by
  rw [unitItems, parts_single h]
  rfl

theorem plain_unit {u : Bytes} (h : PlainLine u) : PlainUnit u := by
  intro line hl
  rw [parts_single h.no_newline, List.mem_singleton] at hl
  rw [hl]
  exact h

theorem ignored_piece {line : Bytes} (h : parseLine line = .ignored) : pieceLine line = .ignored := by
  rw [pieceLine]
  split
  · exact h
  · rfl

section Pasted

variable {k v comment : Bytes} (hl : AllSpace lead) (hn : newline ∉ lead) (hk : KeyText k)
  (hv : Contained v) (hc : newline ∉ comment) (ht : Tail comment)
include hn hk hv hc ht

theorem pasted_parts : ∃ first rest,
    parts newline (keyShape lead k [space] (space::v ++ comment)) =
      keyShape lead k [space] (space::first)::rest ∧
    ∀ line ∈ rest, parseLine line = .ignored := by
  have hf : newline ∉ lead ++ k ++ [space, equals, space] := by
    simp only [List.mem_append, List.mem_cons, List.not_mem_nil, or_false]
    rintro ((h | h) | h | h | h)
    · exact hn h
    · exact hk.no_newline h
    all_goals exact absurd h (by decide)
  have hshape : ∀ rest, keyShape lead k [space] (space::rest) =
      lead ++ k ++ [space, equals, space] ++ rest := fun rest => by simp [keyShape]
  obtain ⟨first, rest, hp, hrest⟩ := contained_parts hv hf hc ht
  refine ⟨first, rest, ?_, hrest⟩
  rw [List.cons_append, hshape, hshape, hp]

include hl

theorem pasted_mild :
    Mild (foldCase k) (unitItems (keyShape lead k [space] (space::v ++ comment))) := by
  obtain ⟨first, rest, hp, hrest⟩ := pasted_parts hn hk hv hc ht
  refine ⟨_, rest.map lineItem, by rw [unitItems, hp, List.map_cons],
    key_line_speaks _ hl space_pad hk.trimmed hk.no_equals hk.start, fun z hz => ?_⟩
  obtain ⟨line, hline, rfl⟩ := List.mem_map.mp hz
  rw [lineItem, ignored_piece (hrest line hline), itemOf]

theorem pasted_plain (hfit : k.length ≤ 63)
    (hz : 0 ∉ keyShape lead k [space] (space::v ++ comment)) :
    PlainUnit (keyShape lead k [space] (space::v ++ comment)) := by
  intro line hline
  have hsub := parts_subset newline _ line hline
  refine ⟨fun h0 => ?_, parts_separator_free newline _ line hline, ?_⟩
  · rcases hsub 0 h0 with h0 | h0
    · exact hz h0
    · exact absurd h0 (by decide)
  · obtain ⟨first, rest, hp, hrest⟩ := pasted_parts hn hk hv hc ht
    rw [hp] at hline
    rcases List.mem_cons.mp hline with rfl | hline
    · exact key_line_names _ hl space_pad hk.trimmed hk.no_equals hk.start hfit
    · rw [ignored_piece (hrest line hline)]
      simp [lineNames]

end Pasted

theorem entry_line_pasted (e : ConfigEntry) :
    entryLine e = keyShape [] e.key.chars [space] (space::e.value.chars ++ []) := by
  rw [List.append_nil, entryLine]

theorem entry_line_speaks (hk : KeyText e.key.chars) (hv : Contained e.value.chars) :
    Mild (entryKey e) (unitItems (entryLine e)) := by
  rw [entry_line_pasted]
  exact pasted_mild no_lead (by simp) hk hv (by simp) (Or.inl rfl)

theorem entry_line_without {c : Byte} (hc : c ∉ [space, equals]) (hk : c ∉ e.key.chars)
    (hv : c ∉ e.value.chars) : c ∉ entryLine e := by
  simp only [List.mem_cons, List.not_mem_nil, or_false, not_or] at hc
  simp [entryLine, keyShape, hc, hk, hv]

theorem entry_line_nul_free (e : ConfigEntry) : 0 ∉ entryLine e :=
  entry_line_without (by decide) e.key.nul_free e.value.nul_free

theorem entry_plain_unit (hk : KeyText e.key.chars) (hv : Contained e.value.chars) :
    PlainUnit (entryLine e) := by
  have hz := entry_line_nul_free e
  rw [entry_line_pasted] at hz ⊢
  exact pasted_plain no_lead (by simp) hk hv (by simp) (Or.inl rfl) e.key.fits hz

theorem entry_line_value (hk : KeyText e.key.chars) (h : Readable e) :
    unitItems (entryLine e) = [.binding (entryKey e) e.value.chars] := by
  have hv := tail_read h.value (Or.inl rfl) (Or.inr rfl)
  have hline := entry_line_without (by decide) hk.no_newline h.value.no_newline
  rw [List.append_nil] at hv
  rw [unit_line hline, entryLine, key_line_value _ no_lead space_pad hk.trimmed hk.no_equals
    hk.start h.key_nonempty (entry_line_length e), hv, value_take]
  rfl

structure Replaced (raw : Bytes) (d : DirtyRef) (e : ConfigEntry) : Prop where
  speaks : Mild (entryKey e) (unitItems (replacementLine raw d e))
  value : Readable e → unitItems (replacementLine raw d e) = [.binding (entryKey e) e.value.chars]
  plain : PlainUnit (replacementLine raw d e)

theorem replacement_mem {c : Byte} (h : c ∈ replacementLine raw d e) :
    c ∈ raw ∨ c ∈ e.key.chars ∨ c ∈ e.value.chars ∨ c = space ∨ c = equals := by
  unfold replacementLine at h
  dsimp only at h
  rw [List.mem_append, List.mem_append, List.mem_cons, List.mem_cons, List.mem_cons] at h
  rcases h with (h | h | h | h | h) | h
  · by_cases hk : (if d.repKeyEnd+3+e.value.chars.length ≥ maxLine then 0 else d.repKeyEnd) > 0
    · rw [if_pos hk] at h
      exact Or.inl (List.mem_of_mem_take h)
    · rw [if_neg hk] at h
      exact Or.inr (Or.inl h)
  · simp [h]
  · simp [h]
  · simp [h]
  · simp [h]
  · exact Or.inl (kept_comment_mem h)

theorem replacement_without {c : Byte} (hc : c ∉ [space, equals]) (hraw : c ∉ raw)
    (hk : c ∉ e.key.chars) (hv : c ∉ e.value.chars) : c ∉ replacementLine raw d e := by
  simp only [List.mem_cons, List.not_mem_nil, or_false, not_or] at hc
  intro h
  rcases replacement_mem h with h | h | h | h | h
  · exact hraw h
  · exact hk h
  · exact hv h
  · exact hc.1 h
  · exact hc.2 h

theorem replaced (hraw : PlainLine raw) {v : Bytes} (hi : lineItem raw = .binding (entryKey e) v)
    (hend : d.repKeyEnd = (classifyLine raw).keyEnd)
    (hcom : d.repComOff = (classifyLine raw).comOff)
    (hk : KeyText e.key.chars) (hv : Contained e.value.chars) : Replaced raw d e := by
  obtain ⟨-, -, key, hfold, hne, hfit, ht, he, hs, hcut⟩ := view_key hraw hi
  obtain ⟨lead, k, comment, hline, hl, hspell, htail, hlen, hraw0⟩ :=
    replacement_shape (e := e) hcut hne hend hcom
  have hnl : newline ∉ lead ∧ newline ∉ comment ∧ newline ∉ key :=
    ⟨fun h => hraw.no_newline (hraw0.1 h), fun h => hraw.no_newline (hraw0.2.1 h),
      fun h => hraw.no_newline (hraw0.2.2.1 h)⟩
  have hkt : KeyText k ∧ k.length ≤ 63 ∧ foldCase k = entryKey e := by
    rcases hspell with rfl | rfl
    · exact ⟨⟨ht, he, hnl.2.2, hs⟩, hfit, hfold⟩
    · exact ⟨hk, e.key.fits, rfl⟩
  obtain ⟨hk', hfit', hfold'⟩ := hkt
  have hne' : k ≠ [] := by
    rintro rfl
    have h0 : foldCase key = [] := hfold.trans hfold'.symm
    exact hne (List.map_eq_nil_iff.mp h0)
  have hz : 0 ∉ replacementLine raw d e :=
    replacement_without (by decide) hraw.nul_free e.key.nul_free e.value.nul_free
  refine ⟨?_, fun hr => ?_, ?_⟩
  · rw [hline, ← hfold']
    exact pasted_mild hl hnl.1 hk' hv hnl.2.1 htail
  · have hn : newline ∉ replacementLine raw d e :=
      replacement_without (by decide) hraw.no_newline hk.no_newline hr.value.no_newline
    rw [unit_line hn]
    rw [hline] at hlen ⊢
    rw [key_line_value _ hl space_pad hk'.trimmed hk'.no_equals hk'.start hne' hlen,
      tail_read hr.value htail (Or.inl hr.nonempty), value_take, hfold']
  · rw [hline] at hz ⊢
    exact pasted_plain hl hnl.1 hk' hv hnl.2.1 htail hfit' hz

def headerLine (name : Bytes) : Bytes := lbracket::name ++ [rbracket]

theorem header_text (name : Bytes) : headerText name = headerLine name ++ [newline] := by
  simp [headerText, headerLine]

theorem header_line_parse {name : Bytes} (h : SectionName name) (hf : name.length ≤ 63) :
    pieceLine (headerLine name) = .header name := by
  have hlen : (headerLine name).length < maxLine := by
    have hM : maxLine = 512 := rfl
    simp only [headerLine, List.length_append, List.length_cons, List.length_nil]
    omega
  have hp := parse_header_line [] no_lead h.no_bracket
  rw [h.trimmed] at hp
  rw [pieceLine, if_pos hlen]
  simpa [headerShape, headerLine] using hp

theorem header_line_item {name : Bytes} (h : SectionName name) (hf : name.length ≤ 63) :
    lineItem (headerLine name) = .header (foldCase name) := by
  rw [lineItem, header_line_parse h hf, itemOf]

theorem header_plain_line {name : Bytes} (h : SectionName name) (hf : name.length ≤ 63)
    (hz : 0 ∉ name) : PlainLine (headerLine name) where
  nul_free hm := by
    simp only [headerLine, List.cons_append, List.mem_cons, List.mem_append, List.not_mem_nil,
      or_false] at hm
    rcases hm with hm | hm | hm
    · exact absurd hm (by decide)
    · exact hz hm
    · exact absurd hm (by decide)
  no_newline hm := by
    simp only [headerLine, List.cons_append, List.mem_cons, List.mem_append, List.not_mem_nil,
      or_false] at hm
    rcases hm with hm | hm | hm
    · exact absurd hm (by decide)
    · exact h.no_newline hm
    · exact absurd hm (by decide)
  names := by simpa [header_line_parse h hf, lineNames] using hf

end Emitted

end RaptorCommon.ConfigLineView
