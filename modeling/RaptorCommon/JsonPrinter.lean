import RaptorCommon.BoundedOutput
import RaptorCommon.GuardedRun
import RaptorCommon.Json

/-!
# The printer of cJSON

The printer without white space writes into memory it was given. Before a
token it asks for room; the stores themselves are checked against the memory.
Most tokens leave the offset where they start and the caller moves it to the
terminator they wrote.
-/

set_option autoImplicit false

namespace RaptorCommon.JsonPrinter
open RaptorCommon.CText RaptorCommon.ConfigStore RaptorCommon.GuardedRun RaptorCommon.Json
open RaptorCommon.BoundedOutput

structure PrintBuffer where
  cells : Bytes
  offset : ℕ
  depth : ℕ

section Buffers

def intMax : ℕ := 2^31-1

def ensure (needed : ℕ) (p : PrintBuffer) : Attempt Unit :=
  if 0 < p.cells.length ∧ p.cells.length ≤ p.offset then refuse
  else if intMax < needed then refuse
  else if needed+p.offset+1 ≤ p.cells.length then pure () else refuse

def writeAt (start : ℕ) (bytes : Bytes) (p : PrintBuffer) : Attempt PrintBuffer :=
  if start+bytes.length ≤ p.cells.length then
    pure { p with cells := overwrite p.cells start bytes }
  else .error .overrun

def updateOffset (p : PrintBuffer) : Attempt PrintBuffer :=
  let text := (p.cells.drop p.offset).takeWhile (fun c => c ≠ 0)
  if p.offset+text.length < p.cells.length then
    pure { p with offset := p.offset+text.length }
  else .error .overrun

end Buffers

section Tokens

variable {D : Type} [Doubles D]

def printWord (word : Bytes) (p : PrintBuffer) : Attempt PrintBuffer := do
  ensure (word.length+1) p
  writeAt p.offset (word ++ [0]) p

def printNumber (d : D) (p : PrintBuffer) : Attempt PrintBuffer := do
  let text := numberText d
  if 25 < text.length then refuse
  else
    ensure (text.length+1) p
    let p ← writeAt p.offset (text ++ [0]) p
    pure { p with offset := p.offset+text.length }

def escapeCharacters (c : Byte) : ℕ :=
  if c = quote ∨ c = backslash ∨ c = 8 ∨ c = 12 ∨ c = 10 ∨ c = 13 ∨ c = 9 then 1
  else if c < 32 then 5 else 0

/-- What the copy of a character stores: a code point is printed with a
terminator behind it. -/
def escapeStored (c : Byte) : Bytes :=
  if escapeCharacters c = 5 then escapeByte c ++ [0] else escapeByte c

def copyEscaped : Bytes → ℕ → PrintBuffer → Attempt PrintBuffer
  | [], _, p => pure p
  | c::s, start, p => do
    let p ← writeAt start (escapeStored c) p
    copyEscaped s (start+(escapeByte c).length) p

def printStringPtr (input : CString) (p : PrintBuffer) : Attempt PrintBuffer := do
  let escapes := (input.chars.map escapeCharacters).sum
  let outputLength := input.chars.length+escapes
  let output := p.offset
  ensure (outputLength+3) p
  if escapes = 0 then writeAt output (quote::input.chars ++ [quote, 0]) p
  else
    let p ← writeAt output [quote] p
    let p ← copyEscaped input.chars (output+1) p
    writeAt (output+outputLength+1) [quote, 0] p

end Tokens

section Values

variable {D : Type} [Doubles D]

mutual

def printValue : Value D → PrintBuffer → Attempt PrintBuffer
  | .null, p => printWord (ascii "null") p
  | .bool false, p => printWord (ascii "false") p
  | .bool true, p => printWord (ascii "true") p
  | .number d, p => printNumber d p
  | .string s, p => printStringPtr s p
  | .array items, p =>
    if nestingLimit ≤ p.depth then refuse
    else do
      ensure 1 p
      let p ← writeAt p.offset [lbracket] p
      let p ← printItems items { p with offset := p.offset+1, depth := p.depth+1 }
      ensure 2 p
      let p ← writeAt p.offset [rbracket, 0] p
      pure { p with depth := p.depth-1 }
  | .object members, p =>
    if nestingLimit ≤ p.depth then refuse
    else do
      ensure 2 p
      let p ← writeAt p.offset [lbrace] p
      let p ← printMembers members { p with offset := p.offset+1, depth := p.depth+1 }
      ensure 2 p
      let p ← writeAt p.offset [rbrace, 0] p
      pure { p with depth := p.depth-1 }

def printItems : Items D → PrintBuffer → Attempt PrintBuffer
  | .nil, p => pure p
  | .cons v .nil, p => do
    let p ← printValue v p
    updateOffset p
  | .cons v (.cons w rest), p => do
    let p ← printValue v p
    let p ← updateOffset p
    ensure 2 p
    let p ← writeAt p.offset [comma, 0] p
    printItems (.cons w rest) { p with offset := p.offset+1 }

def printMembers : Members D → PrintBuffer → Attempt PrintBuffer
  | .nil, p => pure p
  | .cons k v .nil, p => do
    let p ← printStringPtr k p
    let p ← updateOffset p
    ensure 1 p
    let p ← writeAt p.offset [colon] p
    let p ← printValue v { p with offset := p.offset+1 }
    let p ← updateOffset p
    ensure 1 p
    writeAt p.offset [0] p
  | .cons k v (.cons l w rest), p => do
    let p ← printStringPtr k p
    let p ← updateOffset p
    ensure 1 p
    let p ← writeAt p.offset [colon] p
    let p ← printValue v { p with offset := p.offset+1 }
    let p ← updateOffset p
    ensure 2 p
    let p ← writeAt p.offset [comma, 0] p
    printMembers (.cons l w rest) { p with offset := p.offset+1 }

end

/-- The memory after a print without white space, refused where the code
returns false. -/
def printPreallocated (item : Value D) (buffer : Bytes) : Attempt Bytes := do
  let p ← printValue item ⟨buffer, 0, 0⟩
  pure p.cells

end Values

end RaptorCommon.JsonPrinter
