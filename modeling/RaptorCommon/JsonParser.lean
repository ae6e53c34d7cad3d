import RaptorCommon.GuardedRun
import RaptorCommon.Json

/-!
# The parser of cJSON

The parser reads a buffer at a moving offset. Its reads and the stores into
the memory of a string are checked, and its loops and its recursion get a
number of rounds. White space is everything up to the blank, the terminator
included: skipping to the end steps back onto the last byte.
-/

set_option autoImplicit false

namespace RaptorCommon.JsonParser
open RaptorCommon.CText RaptorCommon.ConfigStore RaptorCommon.GuardedRun RaptorCommon.Json

section Strings

def isHex (c : Byte) : Option ℕ :=
  if 48 ≤ c ∧ c ≤ 57 then some (c.toNat-48)
  else if 65 ≤ c ∧ c ≤ 70 then some (10+c.toNat-65)
  else if 97 ≤ c ∧ c ≤ 102 then some (10+c.toNat-97)
  else none

/-- The digits left to read and the number so far; another character makes
the number zero. -/
def hexFrom (content : Bytes) (at' : ℕ) : ℕ → ℕ → Attempt ℕ
  | 0, h => pure h
  | n+1, h => do
    let c ← cell content at'
    match isHex c with
    | none => pure 0
    | some d => hexFrom content (at'+1) n (if n = 0 then h+d else (h+d) <<< 4)

def parseHex4 (content : Bytes) (input : ℕ) : Attempt ℕ := hexFrom content input 4 0

/-- The bytes behind the first and what is left of the code point. -/
def tailBytes : ℕ → ℕ → Bytes × ℕ
  | 0, codepoint => ([], codepoint)
  | n+1, codepoint =>
    let front := tailBytes n (codepoint >>> 6)
    (front.1 ++ [UInt8.ofNat ((codepoint ||| 0x80) &&& 0xBF)], front.2)

def encodeUtf8 (length mark codepoint : ℕ) : Bytes :=
  let rest := tailBytes (length-1) codepoint
  UInt8.ofNat (if length > 1 then (rest.2 ||| mark) &&& 0xFF else rest.2 &&& 0x7F)::rest.1

/-- None past the last code point. -/
def utf8Bytes (codepoint : ℕ) : Option Bytes :=
  if codepoint < 0x80 then some (encodeUtf8 1 0 codepoint)
  else if codepoint < 0x800 then some (encodeUtf8 2 0xC0 codepoint)
  else if codepoint < 0x10000 then some (encodeUtf8 3 0xE0 codepoint)
  else if codepoint ≤ 0x10FFFF then some (encodeUtf8 4 0xF0 codepoint)
  else none

def utf16Literal (content : Bytes) (first stop : ℕ) : Attempt (Bytes × ℕ) := do
  if stop-first < 6 then refuse
  else
    let firstCode ← parseHex4 content (first+2)
    if 0xDC00 ≤ firstCode ∧ firstCode ≤ 0xDFFF then refuse
    else if 0xD800 ≤ firstCode ∧ firstCode ≤ 0xDBFF then
      let second := first+6
      if stop-second < 6 then refuse
      else
        let c ← cell content second
        let d ← cell content (second+1)
        if c ≠ backslash ∨ d ≠ 117 then refuse
        else
          let secondCode ← parseHex4 content (second+2)
          if secondCode < 0xDC00 ∨ 0xDFFF < secondCode then refuse
          else match utf8Bytes (0x10000+(((firstCode &&& 0x3FF) <<< 10) |||
              (secondCode &&& 0x3FF))) with
            | some bytes => pure (bytes, 12)
            | none => refuse
    else match utf8Bytes firstCode with
      | some bytes => pure (bytes, 6)
      | none => refuse

/-- The closing quote and the number of escapes in front of it. -/
def closingQuote (content : Bytes) : ℕ → ℕ → ℕ → Attempt (ℕ × ℕ)
  | 0, _, _ => .error .exhausted
  | n+1, stop, skipped =>
    if stop < content.length then do
      let c ← cell content stop
      if c = quote then pure (stop, skipped)
      else if c = backslash then
        if content.length ≤ stop+1 then refuse else closingQuote content n (stop+2) (skipped+1)
      else closingQuote content n (stop+1) skipped
    else refuse

/-- Store behind the output, within the memory allocated for it. -/
def store (size : ℕ) (out bytes : Bytes) : Attempt Bytes :=
  if out.length+bytes.length ≤ size then pure (out ++ bytes) else .error .overrun

def simpleEscape (c : Byte) : Option Byte :=
  if c = 98 then some 8
  else if c = 102 then some 12
  else if c = 110 then some 10
  else if c = 114 then some 13
  else if c = 116 then some 9
  else if c = quote ∨ c = backslash ∨ c = 47 then some c
  else none

def unescape (content : Bytes) (stop size : ℕ) : ℕ → ℕ → Bytes → Attempt Bytes
  | 0, _, _ => .error .exhausted
  | n+1, input, out =>
    if input < stop then do
      let c ← cell content input
      if c ≠ backslash then
        let out ← store size out [c]
        unescape content stop size n (input+1) out
      else
        let e ← cell content (input+1)
        match simpleEscape e with
        | some b =>
          let out ← store size out [b]
          unescape content stop size n (input+2) out
        | none =>
          if e = 117 then
            let literal ← utf16Literal content input stop
            let out ← store size out literal.1
            unescape content stop size n (input+literal.2) out
          else refuse
    else pure out

def parseString (content : Bytes) (off : ℕ) : Attempt (CString × ℕ) := do
  let c ← cell content off
  if c ≠ quote then refuse
  else
    let found ← closingQuote content (content.length+1) (off+1) 0
    let size := found.1-off-found.2+1
    let out ← unescape content found.1 size (content.length+1) (off+1) []
    let stored ← store size out [0]
    pure (CString.at stored, found.1+1)

end Strings

section Values

variable {D : Type} [Doubles D]

def isNumeric (c : Byte) : Bool :=
  (48 ≤ c ∧ c ≤ 57) ∨ c = 43 ∨ c = 45 ∨ c = 101 ∨ c = 69 ∨ c = 46

def parseNumber (content : Bytes) (off : ℕ) : Attempt (D × ℕ) :=
  match Doubles.strtod ((content.drop off).takeWhile isNumeric) with
  | some (d, n) => pure (d, off+n)
  | none => refuse

def skipSpaces (content : Bytes) : ℕ → ℕ → ℕ
  | 0, off => off
  | n+1, off => match content[off]? with
    | some c => if c ≤ 32 then skipSpaces content n (off+1) else off
    | none => off

def skipWhitespace (content : Bytes) (off : ℕ) : ℕ :=
  if content.length ≤ off then off
  else
    let next := skipSpaces content (content.length-off) off
    if next = content.length then next-1 else next

def startsWith (content : Bytes) (off : ℕ) (word : Bytes) : Bool :=
  (content.drop off).take word.length = word

def accessible (content : Bytes) (off : ℕ) (c : Byte) : Bool := content[off]? = some c

mutual

def parseValue (content : Bytes) : ℕ → ℕ → ℕ → Attempt (Value D × ℕ)
  | 0, _, _ => .error .exhausted
  | n+1, depth, off =>
    if startsWith content off (ascii "null") then pure (.null, off+4)
    else if startsWith content off (ascii "false") then pure (.bool false, off+5)
    else if startsWith content off (ascii "true") then pure (.bool true, off+4)
    else match content[off]? with
      | none => refuse
      | some c =>
        if c = quote then do
          let s ← parseString content off
          pure (.string s.1, s.2)
        else if c = 45 ∨ (48 ≤ c ∧ c ≤ 57) then do
          let d ← parseNumber content off
          pure (.number d.1, d.2)
        else if c = lbracket then parseArray content n depth off
        else if c = lbrace then parseObject content n depth off
        else refuse

def parseArray (content : Bytes) : ℕ → ℕ → ℕ → Attempt (Value D × ℕ)
  | 0, _, _ => .error .exhausted
  | n+1, depth, off =>
    if nestingLimit ≤ depth then refuse
    else do
      let c ← cell content off
      if c ≠ lbracket then refuse
      else
        let off := skipWhitespace content (off+1)
        if accessible content off rbracket then pure (.array .nil, off+1)
        else if content.length ≤ off then refuse
        else
          let items ← parseItems content n (depth+1) (off-1)
          pure (.array items.1, items.2)

/-- The elements behind the bracket or comma at an offset. -/
def parseItems (content : Bytes) : ℕ → ℕ → ℕ → Attempt (Items D × ℕ)
  | 0, _, _ => .error .exhausted
  | n+1, depth, off => do
    let v ← parseValue content n depth (skipWhitespace content (off+1))
    let off := skipWhitespace content v.2
    if accessible content off comma then
      let rest ← parseItems content n depth off
      pure (.cons v.1 rest.1, rest.2)
    else if accessible content off rbracket then pure (.cons v.1 .nil, off+1)
    else refuse

def parseObject (content : Bytes) : ℕ → ℕ → ℕ → Attempt (Value D × ℕ)
  | 0, _, _ => .error .exhausted
  | n+1, depth, off =>
    if nestingLimit ≤ depth then refuse
    else if accessible content off lbrace then
      let off := skipWhitespace content (off+1)
      if accessible content off rbrace then pure (.object .nil, off+1)
      else if content.length ≤ off then refuse
      else do
        let members ← parseMembers content n (depth+1) (off-1)
        pure (.object members.1, members.2)
    else refuse

def parseMembers (content : Bytes) : ℕ → ℕ → ℕ → Attempt (Members D × ℕ)
  | 0, _, _ => .error .exhausted
  | n+1, depth, off =>
    if content.length ≤ off+1 then refuse
    else do
      let key ← parseString content (skipWhitespace content (off+1))
      let off := skipWhitespace content key.2
      if accessible content off colon then
        let v ← parseValue content n depth (skipWhitespace content (off+1))
        let off := skipWhitespace content v.2
        if accessible content off comma then
          let rest ← parseMembers content n depth off
          pure (.cons key.1 v.1 rest.1, rest.2)
        else if accessible content off rbrace then pure (.cons key.1 v.1 .nil, off+1)
        else refuse
      else refuse

end

def skipBom (content : Bytes) : ℕ :=
  if 4 < content.length ∧ startsWith content 0 [0xEF, 0xBB, 0xBF] then 3 else 0

/-- The rounds a parse of the buffer never uses up. -/
def rounds (content : Bytes) : ℕ := 3*content.length+3

/-- `cJSON_ParseWithLengthOpts` without a terminator required: text behind the
value is not looked at. -/
def parseBuffer (content : Bytes) : Attempt (Value D) := do
  if content = [] then refuse
  else
    let v ← parseValue content (rounds content) 0 (skipWhitespace content (skipBom content))
    pure v.1

def cjsonParse (value : CString) : Attempt (Value D) := parseBuffer (value.chars ++ [0])

end Values

end RaptorCommon.JsonParser
