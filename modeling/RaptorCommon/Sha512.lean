import Mathlib.Data.List.Range
import RaptorCommon.CText

/-!
# The digest behind a key's fingerprint

`rss_sign_key_load` names a key by the first bytes of the SHA-512 of its public
half. The digest is fed piece by piece, and its schedule lives in the sixteen
words that held the block.
-/

set_option autoImplicit false

namespace RaptorCommon.Sha512
open RaptorCommon.CText

abbrev Word := BitVec 64

/-- `align`: what is missing to the next multiple of a power of two. -/
def align (x pow2 : ℕ) : ℕ :=
  ((~~~ BitVec.ofNat 64 x + 1) &&& (BitVec.ofNat 64 pow2 - 1)).toNat

def byteAt (s : Bytes) (i : ℕ) : Word := (s.getD i 0).toBitVec.setWidth 64

def load64Be (s : Bytes) : Word :=
  byteAt s 0 <<< 56 ||| byteAt s 1 <<< 48 ||| byteAt s 2 <<< 40 ||| byteAt s 3 <<< 32 |||
    byteAt s 4 <<< 24 ||| byteAt s 5 <<< 16 ||| byteAt s 6 <<< 8 ||| byteAt s 7

def store64Be (w : Word) : Bytes :=
  [56, 48, 40, 32, 24, 16, 8, 0].map (fun k => UInt8.ofBitVec ((w >>> k).setWidth 8))

/-- `load64_be_buf` into the words from index `from` on. -/
def load64BeBuf (dst : List Word) (first : ℕ) (src : Bytes) (size : ℕ) : List Word :=
  (List.range size).foldl (fun d i => d.set (first+i) (load64Be (src.drop (i*8)))) dst

def rot (x : Word) (c : ℕ) : Word := x >>> c ||| x <<< (64-c)
def ch (x y z : Word) : Word := (x &&& y) ^^^ (~~~x &&& z)
def maj (x y z : Word) : Word := (x &&& y) ^^^ (x &&& z) ^^^ (y &&& z)
def bigSigma0 (x : Word) : Word := rot x 28 ^^^ rot x 34 ^^^ rot x 39
def bigSigma1 (x : Word) : Word := rot x 14 ^^^ rot x 18 ^^^ rot x 41
def litSigma0 (x : Word) : Word := rot x 1 ^^^ rot x 8 ^^^ x >>> 7
def litSigma1 (x : Word) : Word := rot x 19 ^^^ rot x 61 ^^^ x >>> 6

def roundConstants : List Word :=
  [ 0x428a2f98d728ae22, 0x7137449123ef65cd, 0xb5c0fbcfec4d3b2f, 0xe9b5dba58189dbbc,
    0x3956c25bf348b538, 0x59f111f1b605d019, 0x923f82a4af194f9b, 0xab1c5ed5da6d8118,
    0xd807aa98a3030242, 0x12835b0145706fbe, 0x243185be4ee4b28c, 0x550c7dc3d5ffb4e2,
    0x72be5d74f27b896f, 0x80deb1fe3b1696b1, 0x9bdc06a725c71235, 0xc19bf174cf692694,
    0xe49b69c19ef14ad2, 0xefbe4786384f25e3, 0x0fc19dc68b8cd5b5, 0x240ca1cc77ac9c65,
    0x2de92c6f592b0275, 0x4a7484aa6ea6e483, 0x5cb0a9dcbd41fbd4, 0x76f988da831153b5,
    0x983e5152ee66dfab, 0xa831c66d2db43210, 0xb00327c898fb213f, 0xbf597fc7beef0ee4,
    0xc6e00bf33da88fc2, 0xd5a79147930aa725, 0x06ca6351e003826f, 0x142929670a0e6e70,
    0x27b70a8546d22ffc, 0x2e1b21385c26c926, 0x4d2c6dfc5ac42aed, 0x53380d139d95b3df,
    0x650a73548baf63de, 0x766a0abb3c77b2a8, 0x81c2c92e47edaee6, 0x92722c851482353b,
    0xa2bfe8a14cf10364, 0xa81a664bbc423001, 0xc24b8b70d0f89791, 0xc76c51a30654be30,
    0xd192e819d6ef5218, 0xd69906245565a910, 0xf40e35855771202a, 0x106aa07032bbd1b8,
    0x19a4c116b8d2d0c8, 0x1e376c085141ab53, 0x2748774cdf8eeb99, 0x34b0bcb5e19b48a8,
    0x391c0cb3c5c95a63, 0x4ed8aa4ae3418acb, 0x5b9cca4f7763e373, 0x682e6ff3d6b2b8a3,
    0x748f82ee5defb2fc, 0x78a5636f43172f60, 0x84c87814a1f0ab72, 0x8cc702081a6439ec,
    0x90befffa23631e28, 0xa4506cebde82bde9, 0xbef9a3f7b2c67915, 0xc67178f2e372532b,
    0xca273eceea26619c, 0xd186b8c721c0c207, 0xeada7dd6cde0eb1e, 0xf57d4f7fee6ed178,
    0x06f067aa72176fba, 0x0a637dc5a2c898a6, 0x113f9804bef90dae, 0x1b710b35131c471b,
    0x28db77f523047d84, 0x32caab7b40c72493, 0x3c9ebe0a15c9bebc, 0x431d67c49c100d4c,
    0x4cc5d4becb3e42b6, 0x597f299cfc657e2a, 0x5fcb6fab3ad6faec, 0x6c44198c4a475817 ]

def initialHash : List Word :=
  [ 0x6a09e667f3bcc908, 0xbb67ae8584caa73b, 0x3c6ef372fe94f82b, 0xa54ff53a5f1d36f1,
    0x510e527fade682d1, 0x9b05688c2b3e6c1f, 0x1f83d9abfb41bd6b, 0x5be0cd19137e2179 ]

structure Vars where
  a : Word
  b : Word
  c : Word
  d : Word
  e : Word
  f : Word
  g : Word
  h : Word
  deriving DecidableEq

def Vars.load (hash : List Word) : Vars :=
  ⟨hash.getD 0 0, hash.getD 1 0, hash.getD 2 0, hash.getD 3 0,
    hash.getD 4 0, hash.getD 5 0, hash.getD 6 0, hash.getD 7 0⟩

def round (v : Vars) (w : Word) : Vars :=
  let t1 := bigSigma1 v.e + ch v.e v.f v.g + v.h + w
  let t2 := bigSigma0 v.a + maj v.a v.b v.c
  ⟨t1 + t2, v.a, v.b, v.c, v.d + t1, v.e, v.f, v.g⟩

def addHash (hash : List Word) (v : Vars) : List Word :=
  [hash.getD 0 0 + v.a, hash.getD 1 0 + v.b, hash.getD 2 0 + v.c, hash.getD 3 0 + v.d,
    hash.getD 4 0 + v.e, hash.getD 5 0 + v.f, hash.getD 6 0 + v.g, hash.getD 7 0 + v.h]

structure Sha512Ctx where
  hash : List Word
  input : List Word
  inputSize : Word × Word
  inputIdx : ℕ
  deriving DecidableEq

/-- The index `(j - k) & 15`, whose difference is that of unsigned sizes. -/
def back (j k : ℕ) : ℕ := ((BitVec.ofNat 64 j - BitVec.ofNat 64 k) &&& 15).toNat

def extend (input : List Word) (j : ℕ) : List Word :=
  let input := input.set j (input.getD j 0 + litSigma1 (input.getD (back j 2) 0))
  let input := input.set j (input.getD j 0 + litSigma0 (input.getD (back j 15) 0))
  input.set j (input.getD j 0 + input.getD (back j 7) 0)

/-- One of the later rounds, `i16` rounds and `j` more into the block. -/
def laterRound (i16 : ℕ) (s : List Word × Vars) (j : ℕ) : List Word × Vars :=
  let input := extend s.1 j
  (input, Sha512.round s.2 (roundConstants.getD (i16+j) 0 + input.getD j 0))

def laterRounds (s : List Word × Vars) (i16 : ℕ) : List Word × Vars :=
  (List.range 16).foldl (laterRound i16) s

def firstRounds (input : List Word) (v : Vars) : Vars :=
  (List.range 16).foldl (fun v j => Sha512.round v (roundConstants.getD j 0 + input.getD j 0)) v

def sha512Compress (ctx : Sha512Ctx) : Sha512Ctx :=
  let v := firstRounds ctx.input (Vars.load ctx.hash)
  let (input, v) := [16, 32, 48, 64].foldl laterRounds (ctx.input, v)
  { ctx with input := input, hash := addHash ctx.hash v }

def sha512SetInput (ctx : Sha512Ctx) (input : Byte) : Sha512Ctx :=
  let word := ctx.inputIdx >>> 3
  let byte := ctx.inputIdx &&& 7
  { ctx with
    input := ctx.input.set word
      (ctx.input.getD word 0 ||| input.toBitVec.setWidth 64 <<< (8*(7-byte))) }

def sha512Incr (x : Word × Word) (y : Word) : Word × Word :=
  if x.2 + y < y then (x.1 + 1, x.2 + y) else (x.1, x.2 + y)

def zeroWords (n : ℕ) (input : List Word) : List Word := List.replicate n 0 ++ input.drop n

def cryptoSha512Init : Sha512Ctx := ⟨initialHash, List.replicate 16 0, (0, 0), 0⟩

/-- Bytes one by one, as at an end that is not a whole word. -/
def setBytes (ctx : Sha512Ctx) (message : Bytes) : Sha512Ctx :=
  message.foldl (fun c b =>
    let c := sha512SetInput c b
    { c with inputIdx := c.inputIdx + 1 }) ctx

def setWords (ctx : Sha512Ctx) (message : Bytes) (nbWords : ℕ) : Sha512Ctx :=
  { ctx with
    input := load64BeBuf ctx.input (ctx.inputIdx >>> 3) message nbWords
    inputIdx := ctx.inputIdx + nbWords <<< 3 }

/-- A full block is counted in bits and compressed, and its words are cleared. -/
def endBlock (ctx : Sha512Ctx) : Sha512Ctx :=
  let ctx := sha512Compress { ctx with inputSize := sha512Incr ctx.inputSize 1024 }
  { ctx with inputIdx := 0, input := zeroWords 16 ctx.input }

/-- To the next word, as far as the message goes. -/
def alignWord (ctx : Sha512Ctx) (message : Bytes) : Sha512Ctx × Bytes :=
  if ctx.inputIdx &&& 7 ≠ 0 then
    let nbBytes := min (align ctx.inputIdx 8) message.length
    (setBytes ctx (message.take nbBytes), message.drop nbBytes)
  else (ctx, message)

def alignBlock (ctx : Sha512Ctx) (message : Bytes) : Sha512Ctx × Bytes :=
  if ctx.inputIdx &&& 127 ≠ 0 then
    let nbWords := min (align ctx.inputIdx 128) message.length >>> 3
    (setWords ctx message nbWords, message.drop (nbWords <<< 3))
  else (ctx, message)

def compressFull (ctx : Sha512Ctx) : Sha512Ctx :=
  if ctx.inputIdx = 128 then endBlock ctx else ctx

def blockStep (s : Sha512Ctx × Bytes) : Sha512Ctx × Bytes :=
  (endBlock { s.1 with input := load64BeBuf s.1.input 0 s.2 16 }, s.2.drop 128)

def wholeBlocks (ctx : Sha512Ctx) (message : Bytes) : Sha512Ctx × Bytes :=
  (List.range (message.length >>> 7)).foldl (fun s _ => blockStep s) (ctx, message)

def remaining (ctx : Sha512Ctx) (message : Bytes) : Sha512Ctx :=
  if message.length ≠ 0 then
    let nbWords := message.length >>> 3
    setBytes
      { ctx with
        input := load64BeBuf ctx.input 0 message nbWords
        inputIdx := ctx.inputIdx + nbWords <<< 3 }
      (message.drop (nbWords <<< 3))
  else ctx

def cryptoSha512Update (ctx : Sha512Ctx) (message : Bytes) : Sha512Ctx :=
  if message.length = 0 then ctx else
    let (ctx, message) := alignWord ctx message
    let (ctx, message) := alignBlock ctx message
    let (ctx, message) := wholeBlocks (compressFull ctx) message
    remaining ctx message

/-- The last block, and the one before it where the size does not fit. -/
def lastBlocks (ctx : Sha512Ctx) : Sha512Ctx :=
  let ctx := if ctx.inputIdx > 111 then
      let ctx := sha512Compress ctx
      { ctx with input := zeroWords 14 ctx.input }
    else ctx
  sha512Compress
    { ctx with input := (ctx.input.set 14 ctx.inputSize.1).set 15 ctx.inputSize.2 }

def cryptoSha512Final (ctx : Sha512Ctx) : Bytes :=
  let ctx := if ctx.inputIdx = 0 then { ctx with input := zeroWords 16 ctx.input } else ctx
  let ctx := sha512SetInput ctx 128
  let ctx := { ctx with
    inputSize := sha512Incr ctx.inputSize (BitVec.ofNat 64 (ctx.inputIdx*8)) }
  (lastBlocks ctx).hash.flatMap store64Be

def cryptoSha512 (message : Bytes) : Bytes :=
  cryptoSha512Final (cryptoSha512Update cryptoSha512Init message)

/-- The fingerprint of `rss_sign_key_load`: the digest's first eight bytes. -/
def fingerprint (publicHalf : Bytes) : Bytes := (cryptoSha512 publicHalf).take 8

end RaptorCommon.Sha512
