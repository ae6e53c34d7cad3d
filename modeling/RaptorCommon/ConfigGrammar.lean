import RaptorCommon.ConfigLoader
import RaptorCommon.ConfigWriter
import RaptorCommon.IniSemantics

/-!
# The grammar of a configuration line

Both directions of parsing: what a line of a given shape is read as, and what
shape a line that was read as a header or a binding has. Names and values are
described by what a line can carry.
-/

set_option autoImplicit false

namespace RaptorCommon.ConfigGrammar
open RaptorCommon.CText RaptorCommon.ConfigStore RaptorCommon.ConfigLoader
open RaptorCommon.ConfigWriter RaptorCommon.IniSemantics RaptorCommon.LineText

structure SectionName (s : Bytes) : Prop where
  nonempty : s ≠ []
  trimmed : Trimmed s
  no_bracket : rbracket ∉ s
  no_newline : newline ∉ s

def KeyStart (k : Bytes) : Prop := ∀ c ∈ k.head?, c ≠ hashMark ∧ c ≠ semicolon ∧ c ≠ lbracket

instance (k : Bytes) : Decidable (KeyStart k) :=
  Option.decidableForallMem k.head?

/-- A key as it stands on a line; the empty one binds nothing. -/
structure KeyText (k : Bytes) : Prop where
  trimmed : Trimmed k
  no_equals : equals ∉ k
  no_newline : newline ∉ k
  start : KeyStart k

/-- No comment sign stands directly after a space or a tab. -/
def NoMarker (v : Bytes) : Prop := ∀ a b c, v = a ++ b::hashMark::c → isBlank b = false

structure PlainValue (v : Bytes) : Prop where
  trimmed : Trimmed v
  no_marker : NoMarker v
  no_newline : newline ∉ v

section Comments

theorem find_comment_cons (a b : Byte) (s : Bytes) :
    findInlineComment (a::b::s) =
      if b = hashMark ∧ isBlank a then some 1 else (findInlineComment (b::s)).map (· + 1) := rfl

theorem no_marker_cons {a b : Byte} {s : Bytes} :
    NoMarker (a::b::s) ↔ (b = hashMark → isBlank a = false) ∧ NoMarker (b::s) := by
  constructor
  · intro h
    refine ⟨fun hb => h [] a s (by simp [hb]), fun x y z hs => h (a::x) y z (by simp [hs])⟩
  · rintro ⟨hb, h⟩ x y z hs
    cases x with
    | nil =>
      simp only [List.nil_append, List.cons.injEq] at hs
      obtain ⟨rfl, rfl, rfl⟩ := hs
      exact hb rfl
    | cons d x =>
      simp only [List.cons_append, List.cons.injEq] at hs
      exact h x y z hs.2

theorem find_comment_none (v : Bytes) : findInlineComment v = none ↔ NoMarker v := by
  induction v with
  | nil => exact ⟨fun _ a b c h => by simp at h, fun _ => rfl⟩
  | cons a v ih =>
    cases v with
    | nil =>
      refine ⟨fun _ x y z h => ?_, fun _ => rfl⟩
      have := congrArg List.length h
      simp at this
      omega
    | cons b v =>
      rw [find_comment_cons, no_marker_cons, ← ih]
      by_cases hb : b = hashMark <;> by_cases ha : isBlank a = true <;> simp [hb, ha]

theorem find_comment_some {v : Bytes} {p : ℕ} (h : findInlineComment v = some p) :
    ∃ a b c, v = a ++ b::hashMark::c ∧ p = a.length+1 ∧ isBlank b = true ∧ NoMarker (a++[b]) := by
  induction v generalizing p with
  | nil => simp [findInlineComment] at h
  | cons a v ih =>
    cases v with
    | nil => simp [findInlineComment] at h
    | cons b v =>
      rw [find_comment_cons] at h
      by_cases hb : b = hashMark ∧ isBlank a = true
      · rw [if_pos hb, Option.some.injEq] at h
        exact ⟨[], a, v, by simp [hb.1], h.symm, hb.2, by
          rw [← find_comment_none]; rfl⟩
      · rw [if_neg hb, Option.map_eq_some_iff] at h
        obtain ⟨q, hq, rfl⟩ := h
        obtain ⟨x, y, z, hs, rfl, hy, hn⟩ := ih hq
        refine ⟨a::x, y, z, by simp [hs], by simp, hy, ?_⟩
        cases x with
        | nil =>
          simp only [List.nil_append, List.cons.injEq] at hs
          obtain ⟨rfl, rfl⟩ := hs
          rw [List.cons_append, List.nil_append, no_marker_cons]
          exact ⟨fun h0 => by simpa using fun h1 => hb ⟨h0, h1⟩, hn⟩
        | cons d x =>
          simp only [List.cons_append, List.cons.injEq] at hs
          obtain ⟨rfl, rfl⟩ := hs
          rw [List.cons_append, List.cons_append, no_marker_cons]
          exact ⟨fun h0 => by simpa using fun h1 => hb ⟨h0, h1⟩, hn⟩

theorem find_comment_append {a : Bytes} {b : Byte} (c : Bytes) (hb : isBlank b = true)
    (h : NoMarker (a++[b])) : findInlineComment (a ++ b::hashMark::c) = some (a.length+1) := by
  induction a with
  | nil => simp [find_comment_cons, hb]
  | cons d a ih =>
    cases a with
    | nil =>
      rw [List.cons_append, List.nil_append, no_marker_cons] at h
      have hn : ¬(b = hashMark ∧ isBlank d = true) := fun hd => by simp [h.1 hd.1] at hd
      rw [List.cons_append, List.nil_append, find_comment_cons, if_neg hn]
      simp [find_comment_cons, hb]
    | cons e a =>
      rw [List.cons_append, List.cons_append, no_marker_cons] at h
      have hn : ¬(e = hashMark ∧ isBlank d = true) := fun hd => by simp [h.1 hd.1] at hd
      rw [List.cons_append, List.cons_append, find_comment_cons, if_neg hn,
        ← List.cons_append, ih h.2]
      rfl

theorem no_marker_left {a b : Bytes} (h : NoMarker (a++b)) : NoMarker a :=
  fun x y z hs => h x y (z++b) (by simp [hs])

theorem no_marker_right {a b : Bytes} (h : NoMarker (a++b)) : NoMarker b :=
  fun x y z hs => h (a++x) y z (by simp [hs])

theorem no_marker_trim {v : Bytes} (h : NoMarker v) : NoMarker (rssTrim v) := by
  obtain ⟨a, b, hv, -, -⟩ := trim_parts v
  rw [hv] at h
  exact no_marker_right (no_marker_left h)

theorem blank_space : ∀ c : Byte, isBlank c = true → isSpace c = true :=
  forall_byte (by decide +kernel)

theorem no_marker_blanks {v w : Bytes} (hv : NoMarker v) (hw : ∀ c ∈ w, isBlank c = true) :
    NoMarker (v++w) := by
  intro a b c hs
  rcases List.append_eq_append_iff.mp hs with ⟨t, rfl, ht⟩ | ⟨t, rfl, ht⟩
  · exact absurd (hw hashMark (by simp [ht])) (by decide)
  · cases t with
    | nil =>
      rw [List.nil_append] at ht
      exact absurd (hw hashMark (by simp [← ht])) (by decide)
    | cons d t =>
      simp only [List.cons_append, List.cons.injEq] at ht
      obtain ⟨rfl, ht⟩ := ht
      cases t with
      | nil =>
        rw [List.nil_append] at ht
        exact absurd (hw hashMark (by simp [← ht])) (by decide)
      | cons e t =>
        simp only [List.cons_append, List.cons.injEq] at ht
        obtain ⟨rfl, ht⟩ := ht
        exact hv a b t (by simp)

theorem strip_plain {v : Bytes} (h : NoMarker v) : stripInlineComment v = v := by
  rw [stripInlineComment, (find_comment_none v).mpr h]

theorem strip_front (v : Bytes) :
    stripInlineComment v <+: v ∧ NoMarker (stripInlineComment v) := by
  cases h : findInlineComment v with
  | none =>
    have hn := (find_comment_none v).mp h
    rw [strip_plain hn]
    exact ⟨List.prefix_rfl, hn⟩
  | some p =>
    obtain ⟨a, b, c, hv, hp, hb, hn⟩ := find_comment_some h
    have ht : v.take p = a++[b] := by simp [hv, hp, List.take_append]
    have hs : stripInlineComment v = v.take 1 ++ ((v.take p).drop 1).rdropWhile isBlank := by
      rw [stripInlineComment, h]
    obtain ⟨r, hr⟩ := List.rdropWhile_prefix isBlank ((v.take p).drop 1)
    have h1 : v.take 1 = (a++[b]).take 1 := by rw [← ht, List.take_take]; congr 1; omega
    have hpre : stripInlineComment v ++ r = a++[b] := by
      rw [hs, List.append_assoc, hr, h1, ht, List.take_append_drop]
    refine ⟨⟨r ++ hashMark::c, ?_⟩, no_marker_left (hpre ▸ hn)⟩
    rw [← List.append_assoc, hpre, hv]
    simp

theorem strip_comment {v w : Bytes} (c : Bytes) (hv : Trimmed v) (hne : v ≠ []) (hn : NoMarker v)
    (hw : ∀ c ∈ w, isBlank c = true) (hwne : w ≠ []) :
    stripInlineComment (v ++ w ++ hashMark::c) = v := by
  obtain ⟨w', b, rfl⟩ : ∃ w' b, w = w'++[b] := ⟨_, _, (List.dropLast_append_getLast hwne).symm⟩
  have hb : isBlank b = true := hw b (by simp)
  have hf : findInlineComment (v ++ (w'++[b]) ++ hashMark::c) = some ((v++w').length+1) := by
    have := find_comment_append (a := v++w') c hb (by
      rw [List.append_assoc]
      exact no_marker_blanks hn hw)
    simpa using this
  obtain ⟨x, t, rfl⟩ := List.exists_cons_of_ne_nil hne
  have ht : (x::t ++ (w'++[b]) ++ hashMark::c).take ((x::t ++ w').length+1) = x::t ++ (w'++[b]) := by
    rw [List.take_append_of_le_length (by simp)]
    exact List.take_of_length_le (by simp [Nat.add_assoc])
  have hr : (t ++ (w'++[b])).rdropWhile isBlank = t := by
    rw [rdropWhile_all hw]
    rcases List.eq_nil_or_concat t with rfl | ⟨t, d, rfl⟩
    · rfl
    · have hd : isSpace d = false := trimmed_last (t := x::t) (by simpa using hv)
      have hd' : isBlank d = false := by
        by_contra hc
        simp [blank_space d (by simpa using hc)] at hd
      simpa using rdropWhile_solid isBlank t [] d hd'
  rw [stripInlineComment, hf]
  dsimp only
  rw [ht]
  show [x] ++ (t ++ (w'++[b])).rdropWhile isBlank = x::t
  rw [hr]
  rfl

end Comments

section Values

/-- What may follow a value on its line: nothing, or a comment after blanks. -/
def Tail (comment : Bytes) : Prop :=
  comment = [] ∨ ∃ w c, comment = w ++ hashMark::c ∧ (∀ d ∈ w, isBlank d = true) ∧ w ≠ []

theorem loaded_plain {v a b : Bytes} (ha : AllSpace a) (hb : AllSpace b) (hv : Trimmed v)
    (hn : NoMarker v) : loadedValue (a++v++b) = v := by
  rw [loadedValue, trim_trail hb, trim_lead ha, hv, strip_plain hn, hv]

theorem loaded_comment {v w a : Bytes} (c : Bytes) (ha : AllSpace a) (hv : Trimmed v)
    (hne : v ≠ []) (hn : NoMarker v) (hw : ∀ c ∈ w, isBlank c = true) (hwne : w ≠ []) :
    loadedValue (a ++ v ++ w ++ hashMark::c) = v := by
  obtain ⟨x, t, rfl⟩ := List.exists_cons_of_ne_nil hne
  have hx := trimmed_head hv
  have ht : rssTrim (a ++ x::t ++ w ++ hashMark::c) = x::t ++ w ++ hashMark::c.rdropWhile isSpace := by
    have := trim_solid (t++w) c hx (by decide : isSpace hashMark = false)
    rw [List.append_assoc, List.append_assoc, trim_lead ha]
    simpa using this
  rw [loadedValue, ht, strip_comment _ hv hne hn hw hwne, hv]

theorem loaded_no_marker (rest : Bytes) : NoMarker (loadedValue rest) :=
  no_marker_trim (strip_front _).2

theorem loaded_mem {rest : Bytes} {c : Byte} (h : c ∈ loadedValue rest) : c ∈ rest :=
  trim_mem ((strip_front _).1.subset (trim_mem h))

theorem loaded_trail {b : Bytes} (hb : AllSpace b) (rest : Bytes) :
    loadedValue (rest++b) = loadedValue rest := by
  rw [loadedValue, loadedValue, trim_trail hb]

theorem trim_rdrop (s : Bytes) : rssTrim (s.rdropWhile isSpace) = rssTrim s := by
  have hs : AllSpace (s.rtakeWhile isSpace) := fun c hc => List.mem_rtakeWhile_imp hc
  conv_rhs => rw [← List.rdropWhile_append_rtakeWhile (p := isSpace) (l := s)]
  rw [trim_trail hs]

theorem loaded_rdrop (rest : Bytes) : loadedValue (rest.rdropWhile isSpace) = loadedValue rest := by
  rw [loadedValue, loadedValue, trim_rdrop]

end Values

section Lines

def keyShape (lead key pad rest : Bytes) : Bytes := lead ++ key ++ pad ++ equals::rest

def headerShape (lead inner rest : Bytes) : Bytes := lead ++ lbracket::inner ++ rbracket::rest

theorem no_equals_space {s : Bytes} (h : AllSpace s) : equals ∉ s :=
  fun hm => absurd (h equals hm) (by decide)

theorem parse_key_line {lead key pad : Bytes} (rest : Bytes) (hl : AllSpace lead)
    (hp : AllSpace pad) (ht : Trimmed key) (he : equals ∉ key) (hs : KeyStart key) :
    parseLine (keyShape lead key pad rest) =
      if key = [] then .ignored else .binding key (loadedValue rest) := by
  have hsp := no_equals_space hp
  cases key with
  | nil =>
    have h : rssTrim (keyShape lead [] pad rest) = equals::rest.rdropWhile isSpace := by
      rw [keyShape, List.append_nil, List.append_assoc, trim_lead hl, trim_lead hp,
        trim_visible rest (by decide)]
    have hn : ¬(equals = hashMark ∨ equals = semicolon) := by decide
    have hb : equals ≠ lbracket := by decide
    have hc : cutAt equals (equals::rest.rdropWhile isSpace) =
        some ([], rest.rdropWhile isSpace) := cutAt_front equals [] _ (by simp)
    rw [parseLine, h]
    simp only [if_neg hn, if_neg hb, hc]
    rfl
  | cons c k =>
    have hc := trimmed_head ht
    obtain ⟨h1, h2, h3⟩ := hs c (by simp)
    have h : rssTrim (keyShape lead (c::k) pad rest) =
        c::(k++pad ++ equals::rest.rdropWhile isSpace) := by
      have := trim_solid (k++pad) rest hc (by decide : isSpace equals = false)
      rw [keyShape, List.append_assoc, List.append_assoc, trim_lead hl]
      simpa using this
    have hcut : cutAt equals (c::(k++pad ++ equals::rest.rdropWhile isSpace)) =
        some (c::k++pad, rest.rdropWhile isSpace) :=
      cutAt_front equals (c::k++pad) _ (by
        rw [List.mem_append]
        rintro (h | h)
        · exact he h
        · exact hsp h)
    have hk : rssTrim (c::k++pad) = c::k := by rw [trim_trail hp]; exact ht
    rw [parseLine, h]
    simp only [h1, h2, h3, or_self, if_false, hcut, hk, loaded_rdrop]

theorem parse_header_line {lead inner : Bytes} (rest : Bytes) (hl : AllSpace lead)
    (hi : rbracket ∉ inner) :
    parseLine (headerShape lead inner rest) = .header (rssTrim inner) := by
  have h : rssTrim (headerShape lead inner rest) =
      lbracket::(inner ++ rbracket::rest.rdropWhile isSpace) := by
    have := trim_solid inner rest (by decide : isSpace lbracket = false)
      (by decide : isSpace rbracket = false)
    rw [headerShape, List.append_assoc, trim_lead hl]
    simpa using this
  have hn : ¬(lbracket = hashMark ∨ lbracket = semicolon) := by decide
  rw [parseLine, h]
  simp only [if_neg hn, cutAt_front rbracket inner _ hi, if_true]

theorem parse_binding_parts {line k v : Bytes} (h : parseLine line = .binding k v) :
    ∃ lead pad rest, line = keyShape lead k pad rest ∧ AllSpace lead ∧ AllSpace pad ∧
      k ≠ [] ∧ Trimmed k ∧ equals ∉ k ∧ KeyStart k ∧ v = loadedValue rest := by
  obtain ⟨a, b, hline, ha, hb⟩ := trim_parts line
  rw [parseLine] at h
  cases ht : rssTrim line with
  | nil => simp [ht] at h
  | cons c s =>
    rw [ht] at h hline
    dsimp only at h
    split at h
    · cases h
    next hcom =>
      split at h
      · split at h <;> cases h
      next hbr =>
        split at h
        · cases h
        next before rest hcut =>
          obtain ⟨hs, hne⟩ := cutAt_some hcut
          by_cases hk : rssTrim before = []
          · rw [if_pos hk] at h
            cases h
          rw [if_neg hk] at h
          obtain ⟨rfl, rfl⟩ := Line.binding.inj h
          cases before with
          | nil => exact absurd rfl hk
          | cons d before =>
            obtain ⟨rfl, -⟩ : c = d ∧ _ := List.cons.inj hs
            have hc := trim_head ht
            have hkey : rssTrim (c::before) = c::before.rdropWhile isSpace := trim_visible before hc
            have hsplit : c::before =
                c::before.rdropWhile isSpace ++ before.rtakeWhile isSpace := by
              simp
            have hpad : AllSpace (before.rtakeWhile isSpace) := fun d hd =>
              List.mem_rtakeWhile_imp hd
            refine ⟨a, before.rtakeWhile isSpace, rest++b, ?_, ha, hpad, hk, trimmed_trim _,
              fun h => hne (trim_mem h), ?_, (loaded_trail hb rest).symm⟩
            · rw [hline, hs, keyShape, hkey]
              conv_lhs => rw [hsplit]
              simp
            · intro d hd
              rw [hkey, List.head?_cons, Option.mem_some_iff] at hd
              subst hd
              exact ⟨fun h => hcom (Or.inl h), fun h => hcom (Or.inr h), hbr⟩

theorem parse_header_parts {line name : Bytes} (h : parseLine line = .header name) :
    ∃ lead inner rest, line = headerShape lead inner rest ∧ AllSpace lead ∧
      rbracket ∉ inner ∧ name = rssTrim inner := by
  obtain ⟨a, b, hline, ha, hb⟩ := trim_parts line
  rw [parseLine] at h
  cases ht : rssTrim line with
  | nil => simp [ht] at h
  | cons c s =>
    rw [ht] at h hline
    dsimp only at h
    split at h
    · cases h
    · split at h
      next hbr =>
        split at h
        · cases h
        next inner rest hcut =>
          obtain ⟨rfl, hn⟩ := cutAt_some hcut
          refine ⟨a, inner, rest++b, ?_, ha, hn, (Line.header.inj h).symm⟩
          rw [hline, hbr, headerShape]
          simp
      · split at h
        · cases h
        · split at h <;> cases h

end Lines

section SeveralLines

/-- A line that says nothing, with any comment behind it too. -/
def Silent (line : Bytes) : Prop :=
  ∀ c ∈ (rssTrim line).head?, c = hashMark ∨ c = semicolon ∨ c = equals

instance (line : Bytes) : Decidable (Silent line) :=
  Option.decidableForallMem (rssTrim line).head?

def Harmless : List Bytes → Prop
  | [] => True
  | [line] => Silent line
  | line::next::rest => parseLine line = .ignored ∧ Harmless (next::rest)

/-- Whatever stands in front of the value and behind it on its line, the lines
after its first one say nothing. -/
def Contained (v : Bytes) : Prop := Harmless (parts newline v).tail

theorem contained_line {v : Bytes} (h : newline ∉ v) : Contained v := by
  rw [Contained, parts_single h]
  trivial

theorem silent_tail {line comment : Bytes} (h : Silent line) (ht : Tail comment) :
    parseLine (line++comment) = .ignored := by
  obtain ⟨a, b, hline, ha, hb⟩ := trim_parts line
  cases hs : rssTrim line with
  | nil =>
    rw [hs, List.append_nil] at hline
    have hall : AllSpace line := by
      rw [hline]
      exact fun c hc => (List.mem_append.mp hc).elim (ha c) (hb c)
    rcases ht with rfl | ⟨w, c, rfl, hw, -⟩
    · rw [parseLine, List.append_nil, hs]
    · have hwall : AllSpace w := fun d hd => blank_space d (hw d hd)
      rw [parseLine, trim_lead hall, trim_lead hwall, trim_visible c (by decide)]
      simp
  | cons c s =>
    have hc := trim_head hs
    have htrim : rssTrim (line++comment) = c::(s++b++comment).rdropWhile isSpace := by
      rw [hline, hs, List.append_assoc, List.append_assoc, trim_lead ha, List.cons_append,
        trim_visible _ hc, List.append_assoc]
    rw [parseLine, htrim]
    rcases h c (by rw [hs]; rfl) with rfl | rfl | rfl
    · simp
    · simp
    · have hn : ¬(equals = hashMark ∨ equals = semicolon) := by decide
      have hb : equals ≠ lbracket := by decide
      simp only [if_neg hn, if_neg hb, cutAt, if_true]
      rfl

theorem harmless_end {lines : List Bytes} (h : Harmless lines) {comment : Bytes}
    (ht : Tail comment) : ∀ line ∈ endWith lines comment, parseLine line = .ignored := by
  induction lines with
  | nil => simp [endWith]
  | cons line lines ih =>
    cases lines with
    | nil => simpa [endWith] using silent_tail h ht
    | cons next rest =>
      rw [endWith, List.forall_mem_cons]
      exact ⟨h.1, ih h.2⟩

/-- A contained value makes one line and ignored ones. -/
theorem contained_parts {v front comment : Bytes} (h : Contained v) (hf : newline ∉ front)
    (hc : newline ∉ comment) (ht : Tail comment) :
    ∃ first rest, parts newline (front++(v++comment)) = (front++first)::rest ∧
      ∀ line ∈ rest, parseLine line = .ignored := by
  have hend := parts_append v hc
  rw [Contained] at h
  cases hp : parts newline v with
  | nil => exact absurd hp (parts_nonempty newline v)
  | cons a rest =>
    rw [hp] at h hend
    cases rest with
    | nil => exact ⟨a++comment, [], parts_front hf hend, by simp⟩
    | cons b rest => exact ⟨a, _, parts_front hf hend, harmless_end h ht⟩

end SeveralLines

end RaptorCommon.ConfigGrammar
