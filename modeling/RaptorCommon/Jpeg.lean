import Mathlib.Algebra.Group.Nat.Defs
import RaptorCommon.TimeText

/-!
# Signed snapshots

The signature segment goes between the image and its end marker, and is found
again from the tail. The signature scheme is a parameter.
-/

set_option autoImplicit false

namespace RaptorCommon.Jpeg
open RaptorCommon.CText RaptorCommon.TimeText

inductive Errno where
  | einval
  | enospc
  | enoent
  | ebadmsg
  deriving DecidableEq, Repr

/-- The library's Ed25519 and SHA-512. -/
structure Crypto where
  keyPair : Vector UInt8 32 → Vector UInt8 64 × Vector UInt8 32
  sign : Vector UInt8 64 → Bytes → Vector UInt8 64
  check : Vector UInt8 64 → Vector UInt8 32 → Bytes → Bool
  sha512 : Bytes → Vector UInt8 64

structure SignKey where
  secretKey : Vector UInt8 64
  publicKey : Vector UInt8 32
  fingerprint : Vector UInt8 8
  deriving DecidableEq

/-- The key `rss_sign_key_load` makes of a seed. -/
def keyOfSeed (crypto : Crypto) (seed : Vector UInt8 32) : SignKey :=
  let pair := crypto.keyPair seed
  { secretKey := pair.1
    publicKey := pair.2
    fingerprint := ((crypto.sha512 pair.2.toList).take 8).cast (by decide) }

def signUuid : Bytes :=
  [0xb0, 0x50, 0xbf, 0x07, 0x88, 0x56, 0x45, 0x98, 0x86, 0x9e, 0x44, 0xc4, 0xdc, 0x20, 0x8f, 0x26]

def sigSegment : ℕ := 93
def exifPayload : ℕ := 108

def soi : Bytes := [0xff, 0xd8]
def eoi : Bytes := [0xff, 0xd9]

/-- The `(int)` of a length. -/
def intOf (n : ℕ) : ℤ := (n : ℤ).bmod (2^32)

def writeAt (pos : ℕ) (bytes mem : Bytes) : Bytes :=
  mem.take pos ++ bytes ++ mem.drop (pos+bytes.length)

/-- The segment without the marker that ends the image. -/
def segment (fingerprint : Vector UInt8 8) (sig : Vector UInt8 64) : Bytes :=
  let seglen := sigSegment-2
  [0xff, 0xef, (seglen/256).toUInt8, seglen.toUInt8] ++ signUuid ++ [1] ++
    fingerprint.toList ++ sig.toList

/-- `rss_jpeg_sign` in a buffer that holds an image of `len` bytes. -/
def rssJpegSign (crypto : Crypto) (key : SignKey) (mem : Bytes) (len : ℕ) :
    Except Errno ℤ × Bytes :=
  if len < 4 ∨ mem.getD 0 0 ≠ 0xff ∨ mem.getD 1 0 ≠ 0xd8 then (.error .einval, mem)
  else if mem.getD (len-2) 0 ≠ 0xff ∨ mem.getD (len-1) 0 ≠ 0xd9 then (.error .einval, mem)
  else if mem.length < len+sigSegment then (.error .enospc, mem)
  else
    let pos := len-2
    let sig := crypto.sign key.secretKey (mem.take pos)
    (.ok (intOf (len+sigSegment)),
      writeAt pos (segment key.fingerprint sig) (writeAt (pos+sigSegment) eoi mem))

def bytesAt (pos count : ℕ) (buf : Bytes) : Bytes := (buf.drop pos).take count

def fieldAt (pos count : ℕ) (buf : Bytes) : Vector UInt8 count :=
  Vector.ofFn fun i => buf.getD (pos+i.val) 0

/-- `rss_jpeg_verify`: its return value and what it leaves in `fp_out`. -/
def rssJpegVerify (crypto : Crypto) (buf : Bytes) (pub : Option (Vector UInt8 32)) :
    Except Errno ℤ × Option (Vector UInt8 8) :=
  if buf.length < 4 then (.error .einval, none)
  else if buf.getD 0 0 ≠ 0xff ∨ buf.getD 1 0 ≠ 0xd8 ∨
      buf.getD (buf.length-2) 0 ≠ 0xff ∨ buf.getD (buf.length-1) 0 ≠ 0xd9 then
    (.error .einval, none)
  else if buf.length < sigSegment+4 then (.error .enoent, none)
  else
    let seg := buf.length-2-sigSegment
    if buf.getD seg 0 ≠ 0xff ∨ buf.getD (seg+1) 0 ≠ 0xef ∨
        bytesAt (seg+4) 16 buf ≠ signUuid then (.error .enoent, none)
    else if buf.getD (seg+20) 0 ≠ 1 then (.error .ebadmsg, none)
    else
      let fp := fieldAt (seg+21) 8 buf
      match pub with
      | none => (.ok 1, some fp)
      | some pub =>
        if crypto.check (fieldAt (seg+29) 64 buf) pub (buf.take seg) then (.ok 0, some fp)
        else (.error .ebadmsg, some fp)

def dateFormat : List Directive :=
  [.int 4, .char 58, .int 2, .char 58, .int 2, .space, .int 2, .char 58, .int 2, .char 58, .int 2]

def scanMicros (sub : Bytes) : UInt32 :=
  ((scanInt 6 (CString.at sub).chars).map fun r => UInt32.ofInt r.1).getD 0

/-- The time fields of the TIFF the writer lays out, as `uint64_t` microseconds. -/
def exifFields (tiff : Bytes) : Except Errno UInt64 :=
  match scan dateFormat (CString.at (bytesAt 68 20 tiff)).chars with
  | [year, mon, mday, hour, min, sec] =>
    let sec := timegm ⟨year-1900, mon-1, mday, hour, min, sec⟩
    if sec = -1 then .error .enoent
    else .ok (UInt64.ofInt sec*1000000+(scanMicros (bytesAt 95 7 tiff)).toUInt64)
  | _ => .error .enoent

def exifIdentifier : Bytes := ascii "Exif" ++ [0, 0]

/-- The loop of `rss_jpeg_get_exif_time`. -/
def walkSegments (buf : Bytes) (pos : ℕ) : Except Errno UInt64 :=
  if pos+4 ≤ buf.length then
    if buf.getD pos 0 ≠ 0xff then .error .enoent
    else
      let marker := buf.getD (pos+1) 0
      if marker = 0xda ∨ marker = 0xd9 then .error .enoent
      else
        let seglen := (buf.getD (pos+2) 0).toNat*256+(buf.getD (pos+3) 0).toNat
        if seglen < 2 ∨ pos+2+seglen > buf.length then .error .enoent
        else if marker = 0xe1 ∧ 2+exifPayload ≤ seglen ∧ bytesAt (pos+4) 6 buf = exifIdentifier then
          exifFields (buf.drop (pos+10))
        else walkSegments buf (pos+2+seglen)
  else .error .enoent
termination_by buf.length-pos

def rssJpegGetExifTime (buf : Bytes) : Except Errno UInt64 :=
  if buf.length < 4 ∨ buf.getD 0 0 ≠ 0xff ∨ buf.getD 1 0 ≠ 0xd8 then .error .einval
  else walkSegments buf 2

end RaptorCommon.Jpeg
