import RaptorCommon.DecimalText
import RaptorCommon.JsonSpelling

/-!
# The texts of a value

A value is written in many ways: any white space between its parts, any
spelling of its strings, any text of its numbers that converts to them. The
parser reads all of them as that value, whatever stands behind.
-/

set_option autoImplicit false

namespace RaptorCommon.JsonGrammar
open RaptorCommon.CText RaptorCommon.ConfigStore RaptorCommon.GuardedRun RaptorCommon.Json
open RaptorCommon.JsonParser RaptorCommon.DecimalText RaptorCommon.JsonSpelling

section Blanks

/-- What the parser takes for white space: bytes up to the blank. -/
def Blank (ws : Bytes) : Prop := ∀ c ∈ ws, c ≤ 32

theorem blank_nil : Blank [] := fun _ h => absurd h List.not_mem_nil

variable {content : Bytes} {off : ℕ}

theorem accessible_head {c d : Byte} {t : Bytes} (h : content.drop off = c::t) :
    accessible content off d = decide (c = d) := by
  rw [accessible, at_head h]
  simp only [Option.some.injEq]

theorem starts_text {word rest : Bytes} (h : content.drop off = word ++ rest) :
    startsWith content off word = true := by
  rw [startsWith, h, List.take_left]
  exact decide_eq_true rfl

theorem starts_other {c w : Byte} {ws t : Bytes} (h : content.drop off = c::t) (hne : c ≠ w) :
    startsWith content off (w::ws) = false := by
  rw [startsWith, h, List.length_cons, List.take_succ_cons]
  exact decide_eq_false fun hc => hne (List.cons.inj hc).1

theorem spaces_blank {ws t : Bytes} {c : Byte} {n : ℕ} (h : content.drop off = ws ++ c::t)
    (hws : Blank ws) (hc : 32 < c) (hn : ws.length < n) :
    skipSpaces content n off = off+ws.length := by
  induction ws generalizing n off with
  | nil =>
    obtain ⟨n, rfl⟩ := Nat.exists_eq_add_one_of_ne_zero (Nat.ne_zero_of_lt hn)
    rw [skipSpaces, at_head h]
    exact if_neg (UInt8.not_le.mpr hc)
  | cons w ws ih =>
    obtain ⟨n, rfl⟩ := Nat.exists_eq_add_one_of_ne_zero (Nat.ne_zero_of_lt hn)
    obtain ⟨hw, hws⟩ := List.forall_mem_cons.mp hws
    rw [List.length_cons] at hn
    rw [skipSpaces, at_head h]
    simp only [if_pos hw]
    rw [ih (drop_one h) hws (by omega), List.length_cons]
    omega

theorem skip_blank {ws t : Bytes} {c : Byte} (h : content.drop off = ws ++ c::t) (hws : Blank ws)
    (hc : 32 < c) : skipWhitespace content off = off+ws.length := by
  have hroom := congrArg List.length h
  rw [List.length_drop, List.length_append, List.length_cons] at hroom
  unfold skipWhitespace
  rw [if_neg (by omega), spaces_blank h hws hc (by omega)]
  exact if_neg (by omega)

end Blanks

section Grammar

variable {D : Type} [Doubles D]

structure Numeral (d : D) (t : Bytes) : Prop where
  numeric : ∀ c ∈ t, isNumeric c = true
  first : ∃ c u, t = c::u ∧ (c = 45 ∨ 48 ≤ c ∧ c ≤ 57)
  reads : Doubles.strtod t = some (d, t.length)

inductive Quoted : CString → Bytes → Prop where
  | pieces {ps : List Piece} {bytes : Bytes} (hlex : ∀ q ∈ ps, q.Lexed)
      (h : meaning ps = some bytes) :
      Quoted (CString.at (bytes ++ [0])) (quote::texts ps ++ [quote])

mutual

inductive Written : Value D → Bytes → Prop where
  | null : Written .null (ascii "null")
  | no : Written (.bool false) (ascii "false")
  | yes : Written (.bool true) (ascii "true")
  | number {d : D} {t : Bytes} (h : Numeral d t) : Written (.number d) t
  | string {s : CString} {t : Bytes} (h : Quoted s t) : Written (.string s) t
  | emptyArray {a : Bytes} (ha : Blank a) : Written (.array .nil) (lbracket::a ++ [rbracket])
  | array {a t : Bytes} {items : Items D} (ha : Blank a) (h : ItemsWritten items t) :
      Written (.array items) (lbracket::a ++ t ++ [rbracket])
  | emptyObject {a : Bytes} (ha : Blank a) : Written (.object .nil) (lbrace::a ++ [rbrace])
  | object {a t : Bytes} {members : Members D} (ha : Blank a) (h : MembersWritten members t) :
      Written (.object members) (lbrace::a ++ t ++ [rbrace])

inductive ItemsWritten : Items D → Bytes → Prop where
  | last {v : Value D} {t b : Bytes} (h : Written v t) (hb : Blank b) :
      ItemsWritten (.cons v .nil) (t ++ b)
  | more {v : Value D} {items : Items D} {t b a u : Bytes} (h : Written v t) (hb : Blank b)
      (ha : Blank a) (hs : ItemsWritten items u) :
      ItemsWritten (.cons v items) (t ++ b ++ comma::(a ++ u))

inductive MembersWritten : Members D → Bytes → Prop where
  | last {s : CString} {v : Value D} {k b c t d : Bytes} (hk : Quoted s k) (hb : Blank b)
      (hc : Blank c) (h : Written v t) (hd : Blank d) :
      MembersWritten (.cons s v .nil) (k ++ b ++ colon::(c ++ t ++ d))
  | more {s : CString} {v : Value D} {members : Members D} {k b c t d a u : Bytes}
      (hk : Quoted s k) (hb : Blank b) (hc : Blank c) (h : Written v t) (hd : Blank d)
      (ha : Blank a) (hs : MembersWritten members u) :
      MembersWritten (.cons s v members) (k ++ b ++ colon::(c ++ t ++ d) ++ comma::(a ++ u))

end

theorem numeral_first {d : D} {t : Bytes} (h : Numeral d t) :
    ∃ c u, t = c::u ∧ 32 < c ∧ c ≠ rbracket ∧ c ≠ 0xEF := by
  obtain ⟨c, u, rfl, hc⟩ := h.first
  refine ⟨c, u, rfl, ?_⟩
  rcases hc with rfl | hc
  · decide
  · refine ⟨UInt8.lt_of_lt_of_le (show (32 : Byte) < 48 by decide) hc.1, ?_, ?_⟩
    · rintro rfl
      exact absurd hc.2 (by decide)
    · rintro rfl
      exact absurd hc.2 (by decide)

theorem null_text : ascii "null" = [110, 117, 108, 108] := by decide

theorem false_text : ascii "false" = [102, 97, 108, 115, 101] := by decide

theorem true_text : ascii "true" = [116, 114, 117, 101] := by decide

theorem written_first {v : Value D} {t : Bytes} (h : Written v t) :
    ∃ c u, t = c::u ∧ 32 < c ∧ c ≠ rbracket ∧ c ≠ 0xEF := by
  cases h with
  | null => exact ⟨110, _, null_text, by decide⟩
  | no => exact ⟨102, _, false_text, by decide⟩
  | yes => exact ⟨116, _, true_text, by decide⟩
  | number h => exact numeral_first h
  | string h =>
    cases h with
    | pieces => exact ⟨quote, _, rfl, by decide⟩
  | emptyArray => exact ⟨lbracket, _, rfl, by decide⟩
  | array => exact ⟨lbracket, _, rfl, by decide⟩
  | emptyObject => exact ⟨lbrace, _, rfl, by decide⟩
  | object => exact ⟨lbrace, _, rfl, by decide⟩

theorem items_first {items : Items D} {t : Bytes} (h : ItemsWritten items t) :
    ∃ c u, t = c::u ∧ 32 < c ∧ c ≠ rbracket := by
  cases h with
  | last h =>
    obtain ⟨c, u, rfl, hc, hne, _⟩ := written_first h
    exact ⟨c, _, rfl, hc, hne⟩
  | more h =>
    obtain ⟨c, u, rfl, hc, hne, _⟩ := written_first h
    exact ⟨c, _, rfl, hc, hne⟩

theorem members_first {members : Members D} {t : Bytes} (h : MembersWritten members t) :
    ∃ u, t = quote::u := by
  cases h with
  | last hk =>
    cases hk with
    | pieces => exact ⟨_, rfl⟩
  | more hk =>
    cases hk with
    | pieces => exact ⟨_, rfl⟩

end Grammar

section Reading

variable {D : Type} [Doubles D]

def Stops (rest : Bytes) : Prop := ∀ c ∈ rest.head?, isNumeric c = false

theorem stops_cons {c : Byte} {t : Bytes} (h : isNumeric c = false) : Stops (c::t) := by
  intro d hd
  rw [List.head?_cons, Option.mem_some_iff] at hd
  exact hd ▸ h

theorem blank_numeric {c : Byte} (h : c ≤ 32) : isNumeric c = false := by
  have hle := UInt8.le_iff_toNat_le.mp h
  have h32 : (32 : Byte).toNat = 32 := rfl
  refine decide_eq_false fun hc => ?_
  rcases hc with hc | rfl | rfl | rfl | rfl | rfl
  · have h48 := UInt8.le_iff_toNat_le.mp hc.1
    have : (48 : Byte).toNat = 48 := rfl
    omega
  all_goals exact absurd h (by decide)

theorem stops_blank {b : Bytes} {c : Byte} {t : Bytes} (hb : Blank b) (h : isNumeric c = false) :
    Stops (b ++ c::t) := by
  cases b with
  | nil => exact stops_cons h
  | cons w b => exact stops_cons (blank_numeric (hb w List.mem_cons_self))

theorem numeral_read {content t rest : Bytes} {off : ℕ} {d : D} (hd : Numeral d t)
    (h : content.drop off = t ++ rest) (hrest : Stops rest) :
    parseNumber content off = .ok (d, off+t.length) := by
  have htake : (content.drop off).takeWhile isNumeric = t := by
    rw [h, List.takeWhile_append_of_pos hd.numeric]
    cases rest with
    | nil => rw [List.takeWhile_nil, List.append_nil]
    | cons c rest =>
      rw [List.takeWhile_cons_of_neg (by simp [hrest c rfl]), List.append_nil]
  rw [parseNumber, htake, hd.reads]
  rfl

theorem quoted_read {content t rest : Bytes} {off : ℕ} {s : CString} (hs : Quoted s t)
    (h : content.drop off = t ++ rest) : parseString content off = .ok (s, off+t.length) := by
  cases hs with
  | @pieces ps bytes hlex hm =>
    rw [List.append_assoc] at h
    rw [string_pieces ps hlex h, hm, Option.map_some, answer, List.length_append, List.length_cons,
      List.length_singleton]
    rfl

/-- Past the three words a value is told by its first character. -/
theorem value_first {content : Bytes} {n depth off : ℕ} {c : Byte} {t : Bytes}
    (h : content.drop off = c::t) (hn : c ≠ 110) (hf : c ≠ 102) (ht : c ≠ 116) :
    (parseValue content (n+1) depth off : Attempt (Value D × ℕ)) =
      if c = quote then do
        let s ← parseString content off
        pure (.string s.1, s.2)
      else if c = 45 ∨ (48 ≤ c ∧ c ≤ 57) then do
        let d ← parseNumber content off
        pure (.number d.1, d.2)
      else if c = lbracket then parseArray content n depth off
      else if c = lbrace then parseObject content n depth off
      else refuse := by
  rw [parseValue, null_text, false_text, true_text, starts_other h hn, starts_other h hf,
    starts_other h ht, at_head h]
  rfl

theorem array_open {content a t : Bytes} {n depth off : ℕ} {c : Byte}
    (h : content.drop off = lbracket::(a ++ c::t)) (ha : Blank a) (hc : 32 < c)
    (hd : depth < nestingLimit) :
    (parseArray content (n+1) depth off : Attempt (Value D × ℕ)) =
      if c = rbracket then .ok (.array .nil, off+1+a.length+1)
      else parseItems content n (depth+1) (off+a.length) >>=
        fun items => pure (.array items.1, items.2) := by
  have hroom := congrArg List.length (drop_behind (drop_one h))
  rw [List.length_drop, List.length_cons] at hroom
  rw [parseArray, if_neg (by omega), cell_some (at_head h), ok_bind, if_neg (by decide)]
  simp only [skip_blank (drop_one h) ha hc, accessible_head (drop_behind (drop_one h)),
    decide_eq_true_eq]
  rw [if_neg (show ¬content.length ≤ off+1+a.length by omega),
    show off+1+a.length-1 = off+a.length by omega]
  rfl

theorem object_open {content a t : Bytes} {n depth off : ℕ} {c : Byte}
    (h : content.drop off = lbrace::(a ++ c::t)) (ha : Blank a) (hc : 32 < c)
    (hd : depth < nestingLimit) :
    (parseObject content (n+1) depth off : Attempt (Value D × ℕ)) =
      if c = rbrace then .ok (.object .nil, off+1+a.length+1)
      else parseMembers content n (depth+1) (off+a.length) >>=
        fun members => pure (.object members.1, members.2) := by
  have hroom := congrArg List.length (drop_behind (drop_one h))
  rw [List.length_drop, List.length_cons] at hroom
  rw [parseObject, if_neg (by omega), accessible_head h, if_pos (decide_eq_true rfl)]
  simp only [skip_blank (drop_one h) ha hc, accessible_head (drop_behind (drop_one h)),
    decide_eq_true_eq]
  rw [if_neg (show ¬content.length ≤ off+1+a.length by omega),
    show off+1+a.length-1 = off+a.length by omega]
  rfl

def ValueRead (v : Value D) (t : Bytes) : Prop := ∀ (n depth off : ℕ) (content rest : Bytes),
  depth+v.nesting ≤ nestingLimit → 3*t.length ≤ n → content.drop off = t ++ rest → Stops rest →
  parseValue content n depth off = .ok (v, off+t.length)

def ItemsRead (items : Items D) (t : Bytes) : Prop :=
  ∀ (n depth off : ℕ) (content a rest : Bytes), Blank a → depth+items.nesting ≤ nestingLimit →
  3*t.length+1 ≤ n → content.drop (off+1) = a ++ (t ++ rbracket::rest) →
  parseItems content n depth off = .ok (items, off+1+a.length+t.length+1)

def MembersRead (members : Members D) (t : Bytes) : Prop :=
  ∀ (n depth off : ℕ) (content a rest : Bytes), Blank a → depth+members.nesting ≤ nestingLimit →
  3*t.length+1 ≤ n → content.drop (off+1) = a ++ (t ++ rbrace::rest) →
  parseMembers content n depth off = .ok (members, off+1+a.length+t.length+1)

theorem null_reads : ValueRead (.null : Value D) (ascii "null") := by
  intro n depth off content rest _ hn h _
  obtain ⟨n, rfl⟩ : ∃ k, n = k+1 := ⟨n-1, by rw [null_text] at hn; simp at hn; omega⟩
  rw [parseValue, starts_text h]
  rfl

theorem false_reads : ValueRead (.bool false : Value D) (ascii "false") := by
  intro n depth off content rest _ hn h _
  obtain ⟨n, rfl⟩ : ∃ k, n = k+1 := ⟨n-1, by rw [false_text] at hn; simp at hn; omega⟩
  have hstart := starts_text h
  rw [false_text] at h
  rw [parseValue, null_text, starts_other h (by decide), hstart]
  rfl

theorem true_reads : ValueRead (.bool true : Value D) (ascii "true") := by
  intro n depth off content rest _ hn h _
  obtain ⟨n, rfl⟩ : ∃ k, n = k+1 := ⟨n-1, by rw [true_text] at hn; simp at hn; omega⟩
  have hstart := starts_text h
  rw [true_text] at h
  rw [parseValue, null_text, false_text, starts_other h (by decide), starts_other h (by decide),
    hstart]
  rfl

theorem number_reads {d : D} {t : Bytes} (hd : Numeral d t) : ValueRead (.number d) t := by
  intro n depth off content rest _ hn h hrest
  have hread := numeral_read hd h hrest
  obtain ⟨c, u, rfl, hc⟩ := hd.first
  rw [List.length_cons] at hn
  obtain ⟨n, rfl⟩ : ∃ k, n = k+1 := ⟨n-1, by omega⟩
  have hletter : ∀ l : Byte, 57 < l → c ≠ l := by
    rintro l hl rfl
    rcases hc with rfl | hc
    · exact absurd hl (by decide)
    · exact UInt8.not_lt.mpr hc.2 hl
  have hquote : c ≠ quote := by
    rintro rfl
    rcases hc with hc | hc
    · exact absurd hc (by decide)
    · exact absurd hc.1 (by decide)
  rw [value_first h (hletter 110 (by decide)) (hletter 102 (by decide))
    (hletter 116 (by decide)), if_neg hquote, if_pos hc, hread]
  rfl

theorem string_reads {s : CString} {t : Bytes} (hs : Quoted s t) :
    ValueRead (.string s : Value D) t := by
  intro n depth off content rest _ hn h _
  have hread := quoted_read hs h
  cases hs with
  | pieces =>
    rw [List.length_append, List.length_cons] at hn
    obtain ⟨n, rfl⟩ : ∃ k, n = k+1 := ⟨n-1, by omega⟩
    rw [value_first h (by decide) (by decide) (by decide), if_pos rfl, hread]
    rfl

theorem empty_array_reads {a : Bytes} (ha : Blank a) :
    ValueRead (.array .nil : Value D) (lbracket::a ++ [rbracket]) := by
  intro n depth off content rest hd hn h _
  rw [Value.nesting] at hd
  rw [List.length_append, List.length_cons, List.length_singleton] at hn ⊢
  obtain ⟨n, rfl⟩ : ∃ k, n = k+2 := ⟨n-2, by omega⟩
  rw [List.cons_append, List.cons_append, List.append_assoc, List.singleton_append] at h
  rw [value_first h (by decide) (by decide) (by decide), if_neg (by decide), if_neg (by decide),
    if_pos rfl, array_open h ha (by decide) (by omega), if_pos rfl]
  congr 2
  omega

theorem empty_object_reads {a : Bytes} (ha : Blank a) :
    ValueRead (.object .nil : Value D) (lbrace::a ++ [rbrace]) := by
  intro n depth off content rest hd hn h _
  rw [Value.nesting] at hd
  rw [List.length_append, List.length_cons, List.length_singleton] at hn ⊢
  obtain ⟨n, rfl⟩ : ∃ k, n = k+2 := ⟨n-2, by omega⟩
  rw [List.cons_append, List.cons_append, List.append_assoc, List.singleton_append] at h
  rw [value_first h (by decide) (by decide) (by decide), if_neg (by decide), if_neg (by decide),
    if_neg (by decide), if_pos rfl, object_open h ha (by decide) (by omega), if_pos rfl]
  congr 2
  omega

theorem array_reads {a t : Bytes} {items : Items D} (ha : Blank a) (h : ItemsWritten items t)
    (ih : ItemsRead items t) : ValueRead (.array items) (lbracket::a ++ t ++ [rbracket]) := by
  intro n depth off content rest hd hn hdrop _
  rw [Value.nesting] at hd
  rw [List.length_append, List.length_append, List.length_cons, List.length_singleton] at hn ⊢
  obtain ⟨n, rfl⟩ : ∃ k, n = k+2 := ⟨n-2, by omega⟩
  obtain ⟨c, u, rfl, hc, hne⟩ := items_first h
  have hopen : content.drop off = lbracket::(a ++ c::(u ++ rbracket::rest)) := by
    rw [hdrop]
    simp only [List.cons_append, List.append_assoc, List.nil_append]
  have hitems : content.drop (off+a.length+1) = [] ++ (c::u ++ rbracket::rest) := by
    rw [show off+a.length+1 = off+1+a.length by omega]
    exact drop_behind (drop_one hopen)
  rw [value_first hopen (by decide) (by decide) (by decide), if_neg (by decide),
    if_neg (by decide), if_pos rfl, array_open hopen ha hc (by omega), if_neg hne,
    ih n (depth+1) (off+a.length) content [] rest blank_nil (by omega) (by omega) hitems, ok_bind]
  show Except.ok _ = Except.ok _
  congr 2
  rw [List.length_nil]
  omega

theorem object_reads {a t : Bytes} {members : Members D} (ha : Blank a)
    (h : MembersWritten members t) (ih : MembersRead members t) :
    ValueRead (.object members) (lbrace::a ++ t ++ [rbrace]) := by
  intro n depth off content rest hd hn hdrop _
  rw [Value.nesting] at hd
  rw [List.length_append, List.length_append, List.length_cons, List.length_singleton] at hn ⊢
  obtain ⟨n, rfl⟩ : ∃ k, n = k+2 := ⟨n-2, by omega⟩
  obtain ⟨u, rfl⟩ := members_first h
  have hopen : content.drop off = lbrace::(a ++ quote::(u ++ rbrace::rest)) := by
    rw [hdrop]
    simp only [List.cons_append, List.append_assoc, List.nil_append]
  have hmembers : content.drop (off+a.length+1) = [] ++ (quote::u ++ rbrace::rest) := by
    rw [show off+a.length+1 = off+1+a.length by omega]
    exact drop_behind (drop_one hopen)
  rw [value_first hopen (by decide) (by decide) (by decide), if_neg (by decide),
    if_neg (by decide), if_neg (by decide), if_pos rfl,
    object_open hopen ha (by decide) (by omega), if_neg (by decide),
    ih n (depth+1) (off+a.length) content [] rest blank_nil (by omega) (by omega) hmembers, ok_bind]
  show Except.ok _ = Except.ok _
  congr 2
  rw [List.length_nil]
  omega

theorem item_read {v : Value D} {content a t b u : Bytes} {n depth off : ℕ} {e : Byte}
    (h : Written v t) (ih : ValueRead v t) (ha : Blank a) (hb : Blank b)
    (hd : depth+v.nesting ≤ nestingLimit) (hn : 3*t.length ≤ n)
    (hdrop : content.drop (off+1) = a ++ (t ++ (b ++ e::u))) (he : 32 < e)
    (hnum : isNumeric e = false) : parseItems content (n+1) depth off =
      if e = comma then do
        let rest ← parseItems content n depth (off+1+a.length+t.length+b.length)
        pure (.cons v rest.1, rest.2)
      else if e = rbracket then .ok (.cons v .nil, off+1+a.length+t.length+b.length+1)
      else refuse := by
  have hval := drop_behind hdrop
  have hread := ih n depth (off+1+a.length) content _ hd hn hval (stops_blank hb hnum)
  have hbehind := drop_behind hval
  obtain ⟨c, w, ht, hc, _⟩ := written_first h
  rw [ht, List.cons_append] at hdrop
  rw [parseItems, skip_blank hdrop ha hc, hread, ok_bind]
  simp only [skip_blank hbehind hb he, accessible_head (drop_behind hbehind), decide_eq_true_eq]
  rfl

theorem items_last {v : Value D} {t b : Bytes} (h : Written v t) (ih : ValueRead v t)
    (hb : Blank b) : ItemsRead (.cons v .nil) (t ++ b) := by
  intro n depth off content a rest ha hd hn hdrop
  rw [Items.nesting, Items.nesting, Nat.max_zero] at hd
  rw [List.length_append] at hn ⊢
  rw [List.append_assoc] at hdrop
  obtain ⟨n, rfl⟩ : ∃ k, n = k+1 := ⟨n-1, by omega⟩
  rw [item_read h ih ha hb hd (by omega) hdrop (by decide) rfl, if_neg (by decide), if_pos rfl]
  congr 2
  omega

theorem items_more {v : Value D} {items : Items D} {t b c u : Bytes} (h : Written v t)
    (ih : ValueRead v t) (hb : Blank b) (hc : Blank c) (ihs : ItemsRead items u) :
    ItemsRead (.cons v items) (t ++ b ++ comma::(c ++ u)) := by
  intro n depth off content a rest ha hd hn hdrop
  rw [Items.nesting] at hd
  simp only [List.length_append, List.length_cons] at hn ⊢
  simp only [List.append_assoc, List.cons_append] at hdrop
  obtain ⟨n, rfl⟩ : ∃ k, n = k+1 := ⟨n-1, by omega⟩
  have hcomma := drop_behind (drop_behind (drop_behind hdrop))
  rw [item_read h ih ha hb (by omega) (by omega) hdrop (by decide) rfl, if_pos rfl,
    ihs n depth _ content c rest hc (by omega) (by omega) (drop_one hcomma), ok_bind]
  show Except.ok _ = Except.ok _
  congr 2
  omega

theorem member_read {s : CString} {v : Value D} {content a k b c t d u : Bytes} {n depth off : ℕ}
    {e : Byte} (hk : Quoted s k) (h : Written v t) (ih : ValueRead v t) (ha : Blank a)
    (hb : Blank b) (hc : Blank c) (hd : Blank d) (hnest : depth+v.nesting ≤ nestingLimit)
    (hn : 3*t.length ≤ n)
    (hdrop : content.drop (off+1) = a ++ (k ++ (b ++ colon::(c ++ (t ++ (d ++ e::u))))))
    (he : 32 < e) (hnum : isNumeric e = false) : parseMembers content (n+1) depth off =
      if e = comma then do
        let rest ← parseMembers content n depth
          (off+1+a.length+k.length+b.length+1+c.length+t.length+d.length)
        pure (.cons s v rest.1, rest.2)
      else if e = rbrace then .ok (.cons s v .nil,
        off+1+a.length+k.length+b.length+1+c.length+t.length+d.length+1)
      else refuse := by
  have hkey := drop_behind hdrop
  have hcolon := drop_behind hkey
  have hspace := drop_one (drop_behind hcolon)
  have hval := drop_behind hspace
  have hbehind := drop_behind hval
  have hreadKey := quoted_read hk hkey
  have hread := ih n depth _ content _ hnest hn hval (stops_blank hd hnum)
  have hroom : off+1 < content.length := by
    have hlen := congrArg List.length hdrop
    simp only [List.length_drop, List.length_append, List.length_cons] at hlen
    omega
  obtain ⟨x, w, ht, hx, _⟩ := written_first h
  rw [ht, List.cons_append] at hspace
  obtain ⟨y, hy⟩ : ∃ y, k = quote::y := by
    cases hk with
    | pieces => exact ⟨_, rfl⟩
  rw [hy, List.cons_append] at hdrop
  rw [parseMembers, if_neg (by omega), skip_blank hdrop ha (by decide), hreadKey, ok_bind]
  simp only [skip_blank hcolon hb (by decide), accessible_head (drop_behind hcolon), decide_true,
    if_true]
  rw [skip_blank hspace hc hx, hread, ok_bind]
  simp only [skip_blank hbehind hd he, accessible_head (drop_behind hbehind), decide_eq_true_eq]
  rfl

theorem members_last {s : CString} {v : Value D} {k b c t d : Bytes} (hk : Quoted s k)
    (hb : Blank b) (hc : Blank c) (h : Written v t) (ih : ValueRead v t) (hd : Blank d) :
    MembersRead (.cons s v .nil) (k ++ b ++ colon::(c ++ t ++ d)) := by
  intro n depth off content a rest ha hnest hn hdrop
  rw [Members.nesting, Members.nesting, Nat.max_zero] at hnest
  simp only [List.length_append, List.length_cons] at hn ⊢
  simp only [List.append_assoc, List.cons_append] at hdrop
  obtain ⟨n, rfl⟩ : ∃ k, n = k+1 := ⟨n-1, by omega⟩
  rw [member_read hk h ih ha hb hc hd hnest (by omega) hdrop (by decide) rfl, if_neg (by decide),
    if_pos rfl]
  congr 2
  omega

theorem members_more {s : CString} {v : Value D} {members : Members D} {k b c t d f u : Bytes}
    (hk : Quoted s k) (hb : Blank b) (hc : Blank c) (h : Written v t) (ih : ValueRead v t)
    (hd : Blank d) (hf : Blank f) (ihs : MembersRead members u) :
    MembersRead (.cons s v members) (k ++ b ++ colon::(c ++ t ++ d) ++ comma::(f ++ u)) := by
  intro n depth off content a rest ha hnest hn hdrop
  rw [Members.nesting] at hnest
  simp only [List.length_append, List.length_cons] at hn ⊢
  simp only [List.append_assoc, List.cons_append] at hdrop
  obtain ⟨n, rfl⟩ : ∃ k, n = k+1 := ⟨n-1, by omega⟩
  have hcomma := drop_behind (drop_behind (drop_behind (drop_one (drop_behind (drop_behind
    (drop_behind hdrop))))))
  rw [member_read hk h ih ha hb hc hd (by omega) (by omega) hdrop (by decide) rfl, if_pos rfl,
    ihs n depth _ content f rest hf (by omega) (by omega) (drop_one hcomma), ok_bind]
  show Except.ok _ = Except.ok _
  congr 2
  omega

mutual

theorem written_read {v : Value D} {t : Bytes} : Written v t → ValueRead v t
  | .null => null_reads
  | .no => false_reads
  | .yes => true_reads
  | .number h => number_reads h
  | .string h => string_reads h
  | .emptyArray ha => empty_array_reads ha
  | .array ha h => array_reads ha h (items_written_read h)
  | .emptyObject ha => empty_object_reads ha
  | .object ha h => object_reads ha h (members_written_read h)

theorem items_written_read {items : Items D} {t : Bytes} : ItemsWritten items t → ItemsRead items t
  | .last h hb => items_last h (written_read h) hb
  | .more h hb ha hs => items_more h (written_read h) hb ha (items_written_read hs)

theorem members_written_read {members : Members D} {t : Bytes} :
    MembersWritten members t → MembersRead members t
  | .last hk hb hc h hd => members_last hk hb hc h (written_read h) hd
  | .more hk hb hc h hd ha hs =>
    members_more hk hb hc h (written_read h) hd ha (members_written_read hs)

end

end Reading

section Documents

variable {D : Type} [Doubles D]

theorem skip_no_bom {content : Bytes} {c : Byte} {t : Bytes} (h : content = c::t)
    (hc : c ≠ 0xEF) : skipBom content = 0 := by
  have hdrop : content.drop 0 = c::t := h
  rw [skipBom, starts_other hdrop hc]
  simp

theorem blank_no_bom {c : Byte} {ws : Bytes} (h : Blank (c::ws)) : c ≠ 0xEF := by
  rintro rfl
  exact absurd (h 0xEF List.mem_cons_self) (by decide)

theorem parse_written {v : Value D} {t lead rest : Bytes} (h : Written v t)
    (hd : v.nesting ≤ nestingLimit) (hlead : Blank lead) (hrest : Stops rest) :
    parseBuffer (lead ++ (t ++ rest)) = .ok v := by
  obtain ⟨c, u, ht, hc, _, hbom⟩ := written_first h
  have hstart : skipBom (lead ++ (t ++ rest)) = 0 := by
    cases lead with
    | nil =>
      rw [ht]
      exact skip_no_bom rfl hbom
    | cons w ws => exact skip_no_bom rfl (blank_no_bom hlead)
  have hdrop : (lead ++ (t ++ rest)).drop 0 = lead ++ (t ++ rest) := rfl
  have hskip : skipWhitespace (lead ++ (t ++ rest)) 0 = 0+lead.length := by
    rw [ht] at hdrop ⊢
    exact skip_blank hdrop hlead hc
  have hread := written_read h (rounds (lead ++ (t ++ rest))) 0 (0+lead.length)
    (lead ++ (t ++ rest)) rest (by omega) (by simp only [rounds, List.length_append]; omega)
    (drop_behind hdrop) hrest
  rw [parseBuffer, if_neg (by rw [ht]; simp), hstart, hskip, hread]
  rfl

def bom : Bytes := [0xEF, 0xBB, 0xBF]

theorem parse_marked {v : Value D} {t lead rest : Bytes} (h : Written v t)
    (hd : v.nesting ≤ nestingLimit) (hlead : Blank lead) (hne : rest ≠ []) (hrest : Stops rest) :
    parseBuffer (bom ++ (lead ++ (t ++ rest))) = .ok v := by
  obtain ⟨c, u, ht, hc, _⟩ := written_first h
  have hpos := List.length_pos_iff.mpr hne
  have hlen : (bom ++ (lead ++ (t ++ rest))).length = lead.length+t.length+rest.length+3 := by
    simp only [bom, List.length_append, List.length_cons, List.length_nil]
    omega
  have hstart : skipBom (bom ++ (lead ++ (t ++ rest))) = 3 := by
    have hword : (bom ++ (lead ++ (t ++ rest))).drop 0 = bom ++ (lead ++ (t ++ rest)) := rfl
    rw [skipBom, if_pos]
    refine ⟨?_, starts_text hword⟩
    rw [hlen, ht, List.length_cons]
    omega
  have hdrop : (bom ++ (lead ++ (t ++ rest))).drop 3 = lead ++ (t ++ rest) := rfl
  have hskip : skipWhitespace (bom ++ (lead ++ (t ++ rest))) 3 = 3+lead.length := by
    rw [ht] at hdrop ⊢
    exact skip_blank hdrop hlead hc
  have hread := written_read h (rounds (bom ++ (lead ++ (t ++ rest)))) 0 (3+lead.length)
    (bom ++ (lead ++ (t ++ rest))) rest (by omega) (by rw [rounds, hlen]; omega)
    (drop_behind hdrop) hrest
  rw [parseBuffer, if_neg (by simp [bom]), hstart, hskip, hread]
  rfl

/-- A C string that holds a text of a value, behind a byte order mark or white
space, is parsed as the value. -/
theorem text_parsed {v : Value D} {t : Bytes} (h : Written v t) (hd : v.nesting ≤ nestingLimit)
    (text : CString) {mark lead rest : Bytes} (hmark : mark = [] ∨ mark = bom)
    (hlead : Blank lead) (hrest : Stops rest) (htext : text.chars = mark ++ (lead ++ (t ++ rest))) :
    cjsonParse text = .ok v := by
  have hend : Stops (rest ++ [0]) := by
    cases rest with
    | nil => exact stops_cons rfl
    | cons c rest => exact stops_cons (hrest c rfl)
  rw [cjsonParse, htext]
  simp only [List.append_assoc]
  rcases hmark with rfl | rfl
  · rw [List.nil_append]
    exact parse_written h hd hlead hend
  · exact parse_marked h hd hlead (by simp) hend

/-- The answer to a text that starts with a string, whatever its pieces and
whatever stands behind it. -/
theorem string_document (ps : List Piece) (hlex : ∀ q ∈ ps, q.Lexed) (text : CString)
    {lead rest : Bytes} (hlead : Blank lead)
    (htext : text.chars = lead ++ (quote::texts ps ++ quote::rest)) :
    (cjsonParse text : Attempt (Value D)) =
      answer ((meaning ps).map fun bytes => .string (CString.at (bytes ++ [0]))) := by
  have hbuffer : text.chars ++ [0] = lead ++ quote::(texts ps ++ quote::(rest ++ [0])) := by
    rw [htext]
    simp only [List.append_assoc, List.cons_append]
  have hstart : skipBom (lead ++ quote::(texts ps ++ quote::(rest ++ [0]))) = 0 := by
    cases lead with
    | nil => exact skip_no_bom rfl (by decide)
    | cons w ws => exact skip_no_bom rfl (blank_no_bom hlead)
  have hdrop : (lead ++ quote::(texts ps ++ quote::(rest ++ [0]))).drop 0 =
      lead ++ quote::(texts ps ++ quote::(rest ++ [0])) := rfl
  have hread := string_pieces ps hlex (drop_behind hdrop)
  rw [cjsonParse, hbuffer, parseBuffer, if_neg (by simp), hstart,
    skip_blank hdrop hlead (by decide), rounds, value_first (drop_behind hdrop) (by decide)
      (by decide) (by decide), if_pos rfl, hread]
  cases meaning ps <;> rfl

def brokenPieces : List Piece := [.raw 97, .code 100 56 51 100, .raw 98]

theorem string_document_sample :
    (cjsonParse (CString.at (ascii " \"a\\ud83db\" 7")) : Attempt (Value WholeNumber)) = refuse := by
  have hlead : Blank [32] := List.forall_mem_singleton.mpr (by decide)
  have htext : (CString.at (ascii " \"a\\ud83db\" 7")).chars =
      [32] ++ (quote::texts brokenPieces ++ quote::[32, 55]) := by decide
  exact string_document brokenPieces (by decide) _ hlead htext

theorem spelled_quoted {cs : List Char} {ps : List Piece} (h : Spelling cs ps) :
    Quoted ⟨utf8 cs, spelling_nul_free h⟩ (quote::texts ps ++ [quote]) := by
  have hq := Quoted.pieces (spelling_lexed h) (spelling_meaning h)
  rwa [at_chars ⟨utf8 cs, spelling_nul_free h⟩ []] at hq

def sampleDocument : CString :=
  CString.at (ascii "\n[ \"\\u00E9\\ud83d\\uDE00\\/\" ,true] ")

theorem text_parsed_sample : cjsonParse sampleDocument = .ok (.array (.cons
    (.string ⟨utf8 ['é', '😀', '/'], spelling_nul_free sample_spelling⟩)
      (.cons (.bool true) .nil)) : Value WholeNumber) := by
  have hquoted := spelled_quoted sample_spelling
  have hblank : Blank [32] := List.forall_mem_singleton.mpr (by decide)
  have hitems := ItemsWritten.more (.string hquoted) hblank blank_nil
    (ItemsWritten.last (Written.yes (D := WholeNumber)) blank_nil)
  have hlead : Blank [10] := List.forall_mem_singleton.mpr (by decide)
  have htext : sampleDocument.chars = [] ++ ([10] ++ ((lbracket::[32] ++ (quote::texts samplePieces ++
      [quote] ++ [32] ++ comma::([] ++ (ascii "true" ++ []))) ++ [rbracket]) ++ [32])) := by
    decide
  exact text_parsed (.array hblank hitems) (by decide) sampleDocument (.inl rfl) hlead
    (stops_cons rfl) htext

end Documents

end RaptorCommon.JsonGrammar
