import RaptorCommon.DecimalText
import RaptorCommon.JsonGrammar

/-!
# Printed values read back

The text a value is printed as is one of its texts: every string, escapes and
control characters included, and every number whose own text converts back. So
the parser reads it as the value.
-/

set_option autoImplicit false

namespace RaptorCommon.JsonRoundTrip
open RaptorCommon.CText RaptorCommon.ConfigStore RaptorCommon.GuardedRun RaptorCommon.Json
open RaptorCommon.JsonParser RaptorCommon.DecimalText RaptorCommon.JsonSpelling
open RaptorCommon.JsonGrammar

section Strings

theorem hex_digit {d : ℕ} (h : d < 16) : isHex (hexDigit d) = some d := by
  interval_cases d <;> rfl

theorem control_code {c : Byte} (h : c.toNat < 32) :
    hexCode 48 48 (hexDigit (c.toNat/16)) (hexDigit (c.toNat%16)) = c.toNat := by
  rw [hexCode, hex_digit (by omega), hex_digit (by omega)]
  show ((0*16+0)*16+c.toNat/16)*16+c.toNat%16 = c.toNat
  omega

theorem escape_piece (c : Byte) : ∃ q : Piece, q.text = escapeByte c ∧ q.Lexed ∧
    ∀ rest, meaning (q::rest) = (meaning rest).map (c::·) := by
  unfold escapeByte
  split
  next h => exact ⟨.raw c, rfl, h.2, fun rest => rfl⟩
  next hplain =>
    split
    next h => exact ⟨.pair backslash, rfl, by decide, fun rest => by rw [h]; rfl⟩
    split
    next h => exact ⟨.pair quote, rfl, by decide, fun rest => by rw [h]; rfl⟩
    split
    next h => exact ⟨.pair 98, rfl, by decide, fun rest => by rw [h]; rfl⟩
    split
    next h => exact ⟨.pair 102, rfl, by decide, fun rest => by rw [h]; rfl⟩
    split
    next h => exact ⟨.pair 110, rfl, by decide, fun rest => by rw [h]; rfl⟩
    split
    next h => exact ⟨.pair 114, rfl, by decide, fun rest => by rw [h]; rfl⟩
    split
    next h => exact ⟨.pair 116, rfl, by decide, fun rest => by rw [h]; rfl⟩
    next hb hq _ _ _ _ _ =>
      have hle : c ≤ 31 := UInt8.not_lt.mp fun h => hplain ⟨h, hq, hb⟩
      have hlt : c.toNat < 32 := Nat.lt_succ_of_le (UInt8.le_iff_toNat_le.mp hle)
      have hcode := control_code hlt
      have h1 := hex_plain (hex_digit (show c.toNat/16 < 16 by omega))
      have h2 := hex_plain (hex_digit (show c.toNat%16 < 16 by omega))
      refine ⟨.code 48 48 (hexDigit (c.toNat/16)) (hexDigit (c.toNat%16)), rfl,
        ⟨by decide, by decide, h1, h2⟩, fun rest => ?_⟩
      rw [meaning_single rest (by rw [hcode]; omega) (by rw [hcode]; omega), hcode,
        character_ascii (UInt8.lt_iff_toNat_lt.mpr (Nat.lt_of_lt_of_le hlt (by decide)))]
      rfl

theorem escaped_pieces (s : Bytes) : ∃ ps : List Piece, texts ps = escaped s ∧
    (∀ q ∈ ps, q.Lexed) ∧ meaning ps = some s := by
  induction s with
  | nil => exact ⟨[], rfl, fun _ h => absurd h List.not_mem_nil, rfl⟩
  | cons c s ih =>
    obtain ⟨q, ht, hq, hm⟩ := escape_piece c
    obtain ⟨ps, hts, hps, hms⟩ := ih
    refine ⟨q::ps, ?_, List.forall_mem_cons.mpr ⟨hq, hps⟩, ?_⟩
    · rw [texts_cons, ht, hts]
      rfl
    · rw [hm, hms]
      rfl

theorem string_quoted (s : CString) : Quoted s (stringText s.chars) := by
  obtain ⟨ps, ht, hlex, hm⟩ := escaped_pieces s.chars
  have hq := Quoted.pieces hlex hm
  rwa [at_chars s [], ht] at hq

end Strings

section Numbers

variable {D : Type} [Doubles D]

/-- The text of a number looks like one and converts back. -/
structure Exact (d : D) : Prop where
  numeric : ∀ c ∈ numberText d, isNumeric c = true
  first : ∃ c t, numberText d = c::t ∧ (c = 45 ∨ 48 ≤ c ∧ c ≤ 57)
  reads : Doubles.strtod (numberText d) = some (d, (numberText d).length)

theorem int_text [LawfulDoubles D] {i : ℤ} (h : IsInt i) :
    numberText (Doubles.ofInt i : D) = decimalText i := by
  rw [numberText, LawfulDoubles.finite_int i h, LawfulDoubles.integral_int i h,
    LawfulDoubles.value_int i h]
  rfl

theorem digit_numeric {d : ℕ} (h : d < 10) : isNumeric (digitByte d) = true ∧
    48 ≤ digitByte d ∧ digitByte d ≤ 57 := by
  interval_cases d <;> decide

theorem int_exact [LawfulDoubles D] {i : ℤ} (h : IsInt i) : Exact (Doubles.ofInt i : D) := by
  have htext := int_text (D := D) h
  refine ⟨fun c hc => ?_, ?_, ?_⟩
  · rw [htext] at hc
    rcases decimal_chars i c hc with rfl | ⟨d, hd, rfl⟩
    · rfl
    · exact (digit_numeric hd).1
  · obtain ⟨d, hd, _, rest, hrest⟩ := digits_first i.natAbs
    rw [htext, decimal_text h, hrest]
    split
    · exact ⟨45, _, rfl, .inl rfl⟩
    · exact ⟨digitByte d, rest, rfl, .inr (digit_numeric hd).2⟩
  · rw [htext]
    exact LawfulDoubles.read_int i h

theorem exact_numeral {d : D} (h : Exact d) : Numeral d (numberText d) :=
  ⟨h.numeric, h.first, h.reads⟩

end Numbers

section Values

variable {D : Type} [Doubles D]

mutual

def Value.Readable : Value D → Prop
  | .number d => Exact d
  | .array items => Items.Readable items
  | .object members => Members.Readable members
  | _ => True

def Items.Readable : Items D → Prop
  | .nil => True
  | .cons v rest => Value.Readable v ∧ Items.Readable rest

def Members.Readable : Members D → Prop
  | .nil => True
  | .cons _ v rest => Value.Readable v ∧ Members.Readable rest

end

mutual

theorem text_written : ∀ v : Value D, Value.Readable v → Written v v.text
  | .null, _ => .null
  | .bool false, _ => .no
  | .bool true, _ => .yes
  | .number _, hv => .number (exact_numeral hv)
  | .string s, _ => .string (string_quoted s)
  | .array .nil, _ => .emptyArray blank_nil
  | .array (.cons v items), hv =>
    .array blank_nil (items_written (.cons v items) hv (fun h => by cases h))
  | .object .nil, _ => .emptyObject blank_nil
  | .object (.cons k v members), hv =>
    .object blank_nil (members_written (.cons k v members) hv (fun h => by cases h))

theorem items_written : ∀ items : Items D, Items.Readable items → items ≠ .nil →
    ItemsWritten items items.text
  | .nil, _, hne => absurd rfl hne
  | .cons v .nil, h, _ => by
    have hlast := ItemsWritten.last (text_written v h.1) blank_nil
    rwa [List.append_nil] at hlast
  | .cons v (.cons w items), h, _ => by
    have hmore := ItemsWritten.more (text_written v h.1) blank_nil blank_nil
      (items_written (.cons w items) h.2 (fun h => by cases h))
    rwa [List.append_nil] at hmore

theorem members_written : ∀ members : Members D, Members.Readable members → members ≠ .nil →
    MembersWritten members members.text
  | .nil, _, hne => absurd rfl hne
  | .cons k v .nil, h, _ => by
    have hlast := MembersWritten.last (string_quoted k) blank_nil blank_nil (text_written v h.1)
      blank_nil
    rwa [List.append_nil, List.append_nil] at hlast
  | .cons k v (.cons l w members), h, _ => by
    have hmore := MembersWritten.more (string_quoted k) blank_nil blank_nil (text_written v h.1)
      blank_nil blank_nil (members_written (.cons l w members) h.2 (fun h => by cases h))
    rwa [List.append_nil, List.append_nil] at hmore

end

theorem parse_terminated {v : Value D} (hv : Value.Readable v) (hd : v.nesting ≤ nestingLimit)
    (tail : Bytes) : parseBuffer (v.text ++ 0::tail) = .ok v :=
  parse_written (text_written v hv) hd blank_nil (stops_cons rfl)

end Values

section Terminators

variable {D : Type} [Doubles D]

theorem number_nul_free {d : D} (hd : Exact d) : 0 ∉ numberText d :=
  fun h => absurd (hd.numeric 0 h) (by decide)

mutual

theorem text_nul_free : ∀ v : Value D, Value.Readable v → 0 ∉ v.text
  | .null, _ => by rw [Value.text]; decide
  | .bool false, _ => by rw [Value.text]; decide
  | .bool true, _ => by rw [Value.text]; decide
  | .number _, hv => by
    rw [Value.text]
    exact number_nul_free hv
  | .string s, _ => by
    rw [Value.text]
    exact string_nul_free s
  | .array items, hv => by
    rw [Value.text]
    exact nul_append (nul_cons (by decide) (items_nul_free items hv)) (by decide)
  | .object members, hv => by
    rw [Value.text]
    exact nul_append (nul_cons (by decide) (members_nul_free members hv)) (by decide)

theorem items_nul_free : ∀ items : Items D, Items.Readable items → 0 ∉ items.text
  | .nil, _ => by
    rw [Items.text]
    exact List.not_mem_nil
  | .cons v .nil, h => by
    rw [Items.text]
    exact text_nul_free v h.1
  | .cons v (.cons w items), h => by
    rw [Items.text]
    exact nul_append (text_nul_free v h.1)
      (nul_cons (by decide) (items_nul_free (.cons w items) h.2))

theorem members_nul_free : ∀ members : Members D, Members.Readable members → 0 ∉ members.text
  | .nil, _ => by
    rw [Members.text]
    exact List.not_mem_nil
  | .cons k v .nil, h => by
    rw [Members.text]
    exact nul_append (string_nul_free k) (nul_cons (by decide) (text_nul_free v h.1))
  | .cons k v (.cons l w members), h => by
    rw [Members.text]
    exact nul_append (nul_append (string_nul_free k) (nul_cons (by decide) (text_nul_free v h.1)))
      (nul_cons (by decide) (members_nul_free (.cons l w members) h.2))

end

def printed (v : Value D) (hv : Value.Readable v) : CString := ⟨v.text, text_nul_free v hv⟩

theorem print_parse (v : Value D) (hv : Value.Readable v) (hd : v.nesting ≤ nestingLimit) :
    cjsonParse (printed v hv) = .ok v := parse_terminated hv hd []

def sampleValue : Value WholeNumber :=
  .array (.cons (.string (CString.at [97, 34, 10, 1, 255])) (.cons (.number (Doubles.ofInt (-7))) .nil))

theorem sample_readable : Value.Readable sampleValue :=
  ⟨trivial, int_exact ⟨by decide, by decide⟩, trivial⟩

theorem print_parse_sample : cjsonParse (printed sampleValue sample_readable) = .ok sampleValue :=
  print_parse sampleValue sample_readable (by decide)

end Terminators

end RaptorCommon.JsonRoundTrip
