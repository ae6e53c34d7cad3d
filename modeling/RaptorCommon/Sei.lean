import RaptorCommon.CText

/-!
# The timestamp message of a SEI NAL

A user data message carries an identifier, a status byte and the microseconds
in four groups of two bytes, with a guard byte between the groups. The parser
walks the messages of a bare NAL until one has the type and the identifier.
-/

set_option autoImplicit false

namespace RaptorCommon.Sei
open RaptorCommon.CText

def enoent : ℤ := 2
def einval : ℤ := 22
def enospc : ℤ := 28
def ebadmsg : ℤ := 74

inductive Codec where
  | h264
  | h265
  deriving DecidableEq, Repr

def Codec.id : Codec → ℤ
  | .h264 => 0
  | .h265 => 1

def codecOf (codec : ℤ) : Option Codec :=
  if codec = 0 then some .h264 else if codec = 1 then some .h265 else none

def mispUuidH264 : Bytes := ascii "MISPmicrosectime"

def mispUuidH265 : Bytes :=
  [0xa8, 0x68, 0x7d, 0xd4, 0xd7, 0x59, 0x37, 0x58, 0xa5, 0xce, 0xf0, 0x33, 0x8b, 0x65, 0x45, 0xf1]

def uuid : Codec → Bytes
  | .h264 => mispUuidH264
  | .h265 => mispUuidH265

def nalHeader : Codec → Bytes
  | .h264 => [0x06]
  | .h265 => [0x4e, 0x01]

abbrev seiPayloadTypeUdu : ℕ := 5
abbrev seiPayloadSize : ℕ := 28

section Building

abbrev seiPrefixNone : ℤ := 0
abbrev seiPrefixAnnexb : ℤ := 1
abbrev seiPrefixAvcc : ℤ := 2

def prefixBytes (pfx : ℤ) (nalLen : ℕ) : Option Bytes :=
  if pfx = seiPrefixAnnexb then some [0, 0, 0, 1]
  else if pfx = seiPrefixAvcc then
    some [UInt8.ofNat (nalLen >>> 24), UInt8.ofNat (nalLen >>> 16), UInt8.ofNat (nalLen >>> 8),
      UInt8.ofNat nalLen]
  else if pfx = seiPrefixNone then some []
  else none

/-- The status with its reserved bits set, and the time with its guards. -/
def stampBytes (utcUs : UInt64) (status : Byte) : Bytes :=
  [status ||| 0x1f, (utcUs >>> 56).toUInt8, (utcUs >>> 48).toUInt8, 0xff,
    (utcUs >>> 40).toUInt8, (utcUs >>> 32).toUInt8, 0xff,
    (utcUs >>> 24).toUInt8, (utcUs >>> 16).toUInt8, 0xff,
    (utcUs >>> 8).toUInt8, utcUs.toUInt8]

def stampMessage (c : Codec) (utcUs : UInt64) (status : Byte) : Bytes :=
  [UInt8.ofNat seiPayloadTypeUdu, UInt8.ofNat seiPayloadSize] ++ uuid c ++ stampBytes utcUs status

def stampNal (c : Codec) (utcUs : UInt64) (status : Byte) : Bytes :=
  nalHeader c ++ stampMessage c utcUs status ++ [0x80]

/-- `rss_sei_build_timestamp`: the answer and the destination after it, none
for a NULL one. -/
def rssSeiBuildTimestamp (dst : Option Bytes) (cap : ℕ) (codec pfx : ℤ) (utcUs : UInt64)
    (status : Byte) : ℤ × Option Bytes :=
  match dst with
  | none => (-einval, none)
  | some dst => match codecOf codec with
    | none => (-einval, some dst)
    | some c =>
      let prefixLen := if pfx = seiPrefixNone then 0 else 4
      let nalLen := (nalHeader c).length+1+1+seiPayloadSize+1
      let total := prefixLen+nalLen
      if cap < total then (-enospc, some dst)
      else match prefixBytes pfx nalLen with
        | none => (-einval, some dst)
        | some lead =>
          let written := lead ++ stampNal c utcUs status
          ((total : ℤ), some (written ++ dst.drop written.length))

end Building

section Parsing

structure SeiOut where
  utcUs : Option UInt64
  status : Option Byte
  deriving DecidableEq, Repr

def trailing : Bytes → Bool
  | c::q => c = 0x80 && q.all (fun z => z = 0)
  | [] => false

/-- A type or a size: bytes of 255 and one below, summed in 32 bits. -/
def readCoded : UInt32 → Bytes → Option (UInt32 × Bytes)
  | _, [] => none
  | acc, c::p => if c = 0xff then readCoded (acc+0xff) p else some (acc+c.toUInt32, p)

/-- What the parser does with a message that has the identifier; `d` is what
follows the identifier. -/
def readStamp (d : Bytes) (out : SeiOut) : ℤ × SeiOut :=
  if d.getD 3 0 ≠ 0xff ∨ d.getD 6 0 ≠ 0xff ∨ d.getD 9 0 ≠ 0xff then (-ebadmsg, out)
  else (0,
    { status := out.status.map (fun _ => d.getD 0 0)
      utcUs := out.utcUs.map (fun _ =>
        (d.getD 1 0).toUInt64 <<< 56 ||| (d.getD 2 0).toUInt64 <<< 48 |||
        (d.getD 4 0).toUInt64 <<< 40 ||| (d.getD 5 0).toUInt64 <<< 32 |||
        (d.getD 7 0).toUInt64 <<< 24 ||| (d.getD 8 0).toUInt64 <<< 16 |||
        (d.getD 10 0).toUInt64 <<< 8 ||| (d.getD 11 0).toUInt64) })

/-- The walk over the messages. Each takes two bytes at least, so the length
is fuel enough. -/
def walkMessages (c : Codec) (out : SeiOut) : ℕ → Bytes → ℤ × SeiOut
  | 0, _ => (-enoent, out)
  | fuel+1, p =>
    if p = [] ∨ trailing p = true then (-enoent, out)
    else match readCoded 0 p with
      | none => (-enoent, out)
      | some (type, p) => match readCoded 0 p with
        | none => (-enoent, out)
        | some (size, p) =>
          if p.length < size.toNat then (-enoent, out)
          else if type = UInt32.ofNat seiPayloadTypeUdu ∧ seiPayloadSize ≤ size.toNat ∧
              p.take 16 = uuid c then readStamp (p.drop 16) out
          else walkMessages c out fuel (p.drop size.toNat)

def isSei : Codec → Bytes → Bool
  | .h264, b::_ => b &&& 0x1f = 6
  | .h265, b::_::_ => (b >>> 1) &&& 0x3f = 39
  | _, _ => false

/-- `rss_sei_parse_timestamp` of the bytes at a pointer, none for NULL. -/
def rssSeiParseTimestamp (nal : Option Bytes) (codec : ℤ) (out : SeiOut) : ℤ × SeiOut :=
  match nal, out.utcUs with
  | some nal, some _ => match codecOf codec with
    | none => (-einval, out)
    | some c =>
      if isSei c nal = true then
        let p := nal.drop (nalHeader c).length
        walkMessages c out p.length p
      else (-enoent, out)
  | _, _ => (-einval, out)

end Parsing

end RaptorCommon.Sei
