import RaptorCommon.CText

/-!
# Basic authentication of a request

The header search, the lenient decoding and the comparison of fixed length, on
the strings as the code holds them.
-/

set_option autoImplicit false

namespace RaptorCommon.HttpAuth
open RaptorCommon.CText

def b64Chars : Bytes := ascii "ABCDEFGHIJKLMNOPQRSTUVWXYZabcdefghijklmnopqrstuvwxyz0123456789+/"

/-- The decode table; 0xFF marks what is no symbol. -/
def b64Table (c : Byte) : UInt8 :=
  match b64Chars.idxOf? c with
  | some i => i.toUInt8
  | none => 0xFF

structure DecodeState where
  out : Bytes
  buf : UInt32
  bits : ℕ

/-- The loop of `rss_base64_decode`; none where the output is full. -/
def decodeLoop (outMax : ℕ) (s : DecodeState) : Bytes → Option DecodeState
  | [] => some s
  | c::rest =>
    if c = 61 then some s
    else
      let v := b64Table c
      if v = 0xFF then decodeLoop outMax s rest
      else
        let buf := s.buf <<< 6 ||| v.toUInt32
        let bits := s.bits+6
        if 8 ≤ bits then
          if outMax ≤ s.out.length then none
          else
            decodeLoop outMax
              ⟨s.out ++ [(buf >>> (UInt32.ofNat (bits-8))).toUInt8], buf, bits-8⟩ rest
        else decodeLoop outMax ⟨s.out, buf, bits⟩ rest

/-- `rss_base64_decode`: the bytes written, or none for -1. -/
def rssBase64Decode (input : Bytes) (outMax : ℕ) : Option Bytes :=
  (decodeLoop outMax ⟨[], 0, 0⟩ input).map DecodeState.out

def zeroPadded (s : Bytes) : Bytes := s ++ List.replicate (256-s.length) 0

def rssSecureCompare (a b : CString) : Bool :=
  if a.chars.length > 255 ∨ b.chars.length > 255 then false
  else
    ((zeroPadded a.chars).zip (zeroPadded b.chars)).foldl
      (fun diff c => diff ||| (c.1 ^^^ c.2)) 0 = 0

def needle : Bytes := ascii "Authorization: Basic "

def startsWithNeedle (s : Bytes) : Bool := foldCase (s.take needle.length) = foldCase needle

/-- The search for the header; `atStart` says that a line starts here. -/
def findAuth (atStart : Bool) : Bytes → Option Bytes
  | [] => none
  | c::rest =>
    if atStart && startsWithNeedle (c::rest) then some ((c::rest).drop needle.length)
    else findAuth (c = newline) rest

def inToken (c : Byte) : Bool := c ≠ 13 ∧ c ≠ newline ∧ c ≠ 32

def colon : Byte := 58

/-- The decoded credentials as two strings, cut where `strchr` finds the colon. -/
def splitCredentials (decoded : Bytes) : Option (CString × CString) :=
  let s := CString.at decoded
  if colon ∈ s.chars then
    some (⟨s.chars.takeWhile (· ≠ colon), fun h => s.nul_free (List.takeWhile_subset _ h)⟩,
      ⟨(s.chars.dropWhile (· ≠ colon)).tail, fun h =>
        s.nul_free (List.dropWhile_subset _ (List.mem_of_mem_tail h))⟩)
  else none

def rssHttpCheckBasicAuth (request user pass : CString) : Bool :=
  if user.chars = [] then true
  else
    match findAuth true request.chars with
    | none => false
    | some auth =>
      match rssBase64Decode (auth.takeWhile inToken) 255 with
      | none => false
      | some decoded =>
        if decoded = [] then false
        else
          match splitCredentials decoded with
          | none => false
          | some (name, secret) => rssSecureCompare name user && rssSecureCompare secret pass

end RaptorCommon.HttpAuth
