import RaptorCommon.ConfigStore

/-!
# JSON values of the control socket

The items of cJSON as trees. Floating point stays outside: what the code uses
of `double` and of the C library's conversions is a parameter, of which the
laws ask only how `int` values convert. Strings are C strings.
-/

set_option autoImplicit false

namespace RaptorCommon.Json
open RaptorCommon.CText RaptorCommon.ConfigStore

abbrev quote : Byte := 34
abbrev backslash : Byte := 92
abbrev comma : Byte := 44
abbrev colon : Byte := 58
abbrev lbrace : Byte := 123
abbrev rbrace : Byte := 125

def nestingLimit : ℕ := 1000

abbrev IsInt (i : ℤ) : Prop := -2^31 ≤ i ∧ i < 2^31

/-- The `double` of the platform: the conversion of an `int`, `valueint`, the
cast to `int`, `isfinite`, `d == (double)valueint`, the text of any other
number, and `strtod` with the length it consumed. -/
class Doubles (D : Type) where
  ofInt : ℤ → D
  valueInt : D → ℤ
  castInt : D → ℤ
  finite : D → Bool
  integral : D → Bool
  otherText : D → Bytes
  strtod : Bytes → Option (D × ℕ)

class LawfulDoubles (D : Type) [Doubles D] : Prop where
  consumed : ∀ s (d : D) n, Doubles.strtod s = some (d, n) → 0 < n ∧ n ≤ s.length
  finite_int : ∀ i, IsInt i → Doubles.finite (Doubles.ofInt i : D) = true
  integral_int : ∀ i, IsInt i → Doubles.integral (Doubles.ofInt i : D) = true
  value_int : ∀ i, IsInt i → Doubles.valueInt (Doubles.ofInt i : D) = i
  cast_int : ∀ i, IsInt i → Doubles.castInt (Doubles.ofInt i : D) = i
  read_int : ∀ i, IsInt i →
    Doubles.strtod (decimalText i) = some ((Doubles.ofInt i : D), (decimalText i).length)

mutual

inductive Value (D : Type) where
  | null
  | bool (b : Bool)
  | number (d : D)
  | string (s : CString)
  | array (items : Items D)
  | object (members : Members D)

inductive Items (D : Type) where
  | nil
  | cons (v : Value D) (rest : Items D)

inductive Members (D : Type) where
  | nil
  | cons (key : CString) (v : Value D) (rest : Members D)

end

variable {D : Type}

def Items.ofList : List (Value D) → Items D
  | [] => .nil
  | v::vs => .cons v (ofList vs)

def Members.ofList : List (CString × Value D) → Members D
  | [] => .nil
  | (k, v)::rest => .cons k v (ofList rest)

def Members.toList : Members D → List (CString × Value D)
  | .nil => []
  | .cons k v rest => (k, v)::rest.toList

theorem members_list (ms : List (CString × Value D)) : (Members.ofList ms).toList = ms := by
  induction ms with
  | nil => rfl
  | cons m ms ih => rw [Members.ofList, Members.toList, ih]

section Nesting

mutual

def Value.nesting : Value D → ℕ
  | .array items => items.nesting+1
  | .object members => members.nesting+1
  | _ => 0

def Items.nesting : Items D → ℕ
  | .nil => 0
  | .cons v rest => max v.nesting rest.nesting

def Members.nesting : Members D → ℕ
  | .nil => 0
  | .cons _ v rest => max v.nesting rest.nesting

end

end Nesting

section Texts

def hexDigit (n : ℕ) : Byte := UInt8.ofNat (if n < 10 then 48+n else 87+n)

/-- What a character of a string is printed as. -/
def escapeByte (c : Byte) : Bytes :=
  if 31 < c ∧ c ≠ quote ∧ c ≠ backslash then [c]
  else if c = backslash then [backslash, backslash]
  else if c = quote then [backslash, quote]
  else if c = 8 then [backslash, 98]
  else if c = 12 then [backslash, 102]
  else if c = 10 then [backslash, 110]
  else if c = 13 then [backslash, 114]
  else if c = 9 then [backslash, 116]
  else [backslash, 117, 48, 48, hexDigit (c.toNat/16), hexDigit (c.toNat%16)]

def escaped (s : Bytes) : Bytes := s.flatMap escapeByte

def stringText (s : Bytes) : Bytes := quote::escaped s ++ [quote]

variable [Doubles D]

def numberText (d : D) : Bytes :=
  if Doubles.finite d = false then ascii "null"
  else if Doubles.integral d then decimalText (Doubles.valueInt d)
  else Doubles.otherText d

mutual

def Value.text : Value D → Bytes
  | .null => ascii "null"
  | .bool true => ascii "true"
  | .bool false => ascii "false"
  | .number d => numberText d
  | .string s => stringText s.chars
  | .array items => lbracket::items.text ++ [rbracket]
  | .object members => lbrace::members.text ++ [rbrace]

def Items.text : Items D → Bytes
  | .nil => []
  | .cons v .nil => v.text
  | .cons v (.cons w rest) => v.text ++ comma::(Items.cons w rest).text

def Members.text : Members D → Bytes
  | .nil => []
  | .cons k v .nil => stringText k.chars ++ colon::v.text
  | .cons k v (.cons l w rest) =>
    stringText k.chars ++ colon::v.text ++ comma::(Members.cons l w rest).text

end

end Texts

section Terminators

theorem nul_cons {c : Byte} {s : Bytes} (hc : c ≠ 0) (hs : 0 ∉ s) : 0 ∉ c::s :=
  fun h => (List.mem_cons.mp h).elim (fun h0 => hc h0.symm) hs

theorem nul_append {a b : Bytes} (ha : 0 ∉ a) (hb : 0 ∉ b) : 0 ∉ a ++ b :=
  fun h => (List.mem_append.mp h).elim ha hb

theorem escape_nul_free (c : Byte) : c ≠ 0 → 0 ∉ escapeByte c := by
  revert c
  exact forall_byte (by decide +kernel)

theorem string_nul_free (s : CString) : 0 ∉ stringText s.chars := by
  have hesc : 0 ∉ escaped s.chars := by
    rw [escaped, List.mem_flatMap]
    rintro ⟨c, hc, h0⟩
    exact escape_nul_free c (fun h => s.nul_free (h ▸ hc)) h0
  exact nul_append (nul_cons (by decide) hesc) (by decide)

end Terminators

end RaptorCommon.Json
