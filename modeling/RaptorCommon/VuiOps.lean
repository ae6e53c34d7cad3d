import RaptorCommon.TracedReader
import RaptorCommon.VuiEdit

/-!
# The operations of the SPS walk

The walk once more with every operation on the way that the language leaves
open for some operands: the shift of a code, the two sums of a scaling delta,
the countdown of a read, and the indices of the two arrays.
-/

set_option autoImplicit false

namespace RaptorCommon.VuiOps
open RaptorCommon.CText RaptorCommon.BitString RaptorCommon.ExpGolomb RaptorCommon.StreamReader
open RaptorCommon.TracedReader RaptorCommon.VuiReader RaptorCommon.VuiWalk RaptorCommon.VuiEscape
open RaptorCommon.VuiEdit

/-- `shift b` is `1u << zeros` in a `vb_ue` called at `b`, `scale last b` is
`last + vb_se(b) + 256`, `count n` is the countdown from `n`, `byte` reads the
payload and `slot` the array of the picture counts. -/
inductive Op where
  | shift (b : VuiBits)
  | scale (last : ℤ) (b : VuiBits)
  | count (n : ℤ)
  | byte (index size : ℕ)
  | slot (index : ℕ)

abbrev FitsInt (z : ℤ) : Prop := -2^31 ≤ z ∧ z < 2^31

variable (shift32 : UInt32)

def deltaAt (b : VuiBits) : ℤ :=
  match vbSe shift32 b with
  | .ok r => r.1
  | .error _ => 0

/-- The operands are ones the language gives a meaning. A delta whose shift has
none has no value to add. -/
def InRange : Op → Prop
  | .shift b => (countZeros 32 0 b).1 < 32
  | .scale last b => (countZeros 32 0 b).1 < 32 →
      FitsInt (last+deltaAt shift32 b) ∧ FitsInt (last+deltaAt shift32 b+256)
  | .count n => FitsInt (n-1)
  | .byte index size => index < size
  | .slot index => index < 64

section Walk

abbrev Trace (α : Type) := Traced VuiBits Stop Op α

def bitsLog : ℕ → VuiBits → List Op
  | 0, _ => []
  | n+1, b =>
    if b.size*8%2^32 ≤ b.bit then []
    else
      let moved := { b with bit := b.bit+1 }
      .byte (b.bit/8) b.size::bitsLog n moved

def readLog (n : ℤ) (b : VuiBits) : List Op := .count n::bitsLog n.toNat b

def tracedRead (n : ℤ) : Trace UInt32 := ⟨vbRead n.toNat, readLog n⟩

def zerosLog : ℕ → VuiBits → List Op
  | left, b =>
    if b.overflow then []
    else
      let first := readFrom 1 0 b
      readLog 1 b ++ if first.1 ≠ 0 then []
        else match left with
          | 0 => []
          | left+1 => zerosLog left first.2

def tracedZeros : Trace ℕ := ⟨fun b => .ok (countZeros 32 0 b), zerosLog 32⟩

def tracedUe : Trace UInt32 := do
  note fun b => [.shift b]
  let count ← tracedZeros
  let tail ← tracedRead count
  return oneShifted shift32 count-1+tail

def tracedSe : Trace ℤ := do
  let v ← tracedUe shift32
  return if v &&& 1 ≠ 0 then (((v+1)/2).toNat : ℤ) else -((v/2).toNat : ℤ)

def tracedFlag : Trace Bool := (fun v => v ≠ 0) <$> tracedRead 1

def tracedSkip (n : ℤ) : Trace Unit := (fun _ => ()) <$> tracedRead n

def tracedSkipUe : Trace Unit := (fun _ => ()) <$> tracedUe shift32

def tracedSkipSe : Trace Unit := (fun _ => ()) <$> tracedSe shift32

def refused {α : Type} : Trace α := unnoted (throw .bad)

def tracedAspectRatio : Trace Unit := do
  let present ← tracedFlag
  tracedOptionally present do
    let idc ← tracedRead 8
    tracedOptionally (idc = 255) do
      tracedSkip 16
      tracedSkip 16

def tracedVui : Trace ℕ := do
  let vuiPresent ← tracedFlag
  if vuiPresent then do
    tracedAspectRatio
    let overscan ← tracedFlag
    tracedOptionally overscan (tracedSkip 1)
    let signal ← tracedFlag
    if signal then do
      tracedSkip 3
      unnoted hereUnlessOverflow
    else unnoted unsignalled
  else unnoted unsignalled

def tracedWindow : Trace Unit := do
  let present ← tracedFlag
  tracedOptionally present (tracedLoop (fun _ => tracedSkipUe shift32) 0 4)

def tracedEntries : ℕ → ℤ → ℤ → Trace Unit
  | 0, _, _ => pure ()
  | n+1, last, next => do
    let next ← if next ≠ 0 then do
        note fun b => [.scale last b]
        nextScale last <$> tracedSe shift32
      else pure next
    tracedEntries n (if next = 0 then last else next) next

def tracedHighProfile : Trace Unit := do
  let chromaFormatIdc ← tracedUe shift32
  tracedOptionally (chromaFormatIdc = 3) (tracedSkip 1)
  tracedSkipUe shift32
  tracedSkipUe shift32
  tracedSkip 1
  let matrixPresent ← tracedFlag
  tracedOptionally matrixPresent (tracedLoop (fun i => do
    let present ← tracedFlag
    tracedOptionally present (tracedEntries shift32 (if i < 6 then 16 else 64) 8 8))
      0 (if chromaFormatIdc = 3 then 12 else 8))

def tracedPicOrderCnt : Trace Unit := do
  let pocType ← tracedUe shift32
  if pocType = 0 then tracedSkipUe shift32
  else if pocType = 1 then do
    tracedSkip 1
    tracedSkipSe shift32
    tracedSkipSe shift32
    let n ← tracedUe shift32
    if 255 < n then refused
    else tracedLoop (fun _ => tracedSkipSe shift32) 0 n.toNat
  else pure ()

def tracedH264 : Trace ℕ := do
  let profileIdc ← tracedRead 8
  tracedSkip 8
  tracedSkip 8
  tracedSkipUe shift32
  tracedOptionally (profileIdc ∈ highProfiles) (tracedHighProfile shift32)
  tracedSkipUe shift32
  tracedPicOrderCnt shift32
  tracedSkipUe shift32
  tracedSkip 1
  tracedSkipUe shift32
  tracedSkipUe shift32
  let frameMbsOnly ← tracedFlag
  tracedOptionally (!frameMbsOnly) (tracedSkip 1)
  tracedSkip 1
  tracedWindow shift32
  tracedVui

def tracedLayerFlags : ℕ → Trace (List (Bool × Bool))
  | 0 => pure []
  | n+1 => do
    let profilePresent ← tracedFlag
    let levelPresent ← tracedFlag
    let rest ← tracedLayerFlags n
    return (profilePresent, levelPresent)::rest

def tracedLayers : List (Bool × Bool) → Trace Unit
  | [] => pure ()
  | (profilePresent, levelPresent)::rest => do
    tracedOptionally profilePresent do
      tracedSkip 8
      tracedSkip 32
      tracedSkip 32
      tracedSkip 16
    tracedOptionally levelPresent (tracedSkip 8)
    tracedLayers rest

def tracedTierLevel (maxSubLayersMinus1 : ℕ) : Trace Unit := do
  tracedSkip 8
  tracedSkip 32
  tracedSkip 32
  tracedSkip 16
  tracedSkip 8
  let flags ← tracedLayerFlags (min maxSubLayersMinus1 8)
  tracedOptionally (0 < maxSubLayersMinus1)
    (tracedLoop (fun _ => tracedSkip 2) maxSubLayersMinus1 (8-maxSubLayersMinus1))
  tracedLayers flags

def tracedMatrix (sizeId : ℕ) : Trace Unit := do
  let predMode ← tracedFlag
  if predMode then do
    tracedOptionally (1 < sizeId) (tracedSkipSe shift32)
    tracedLoop (fun _ => tracedSkipSe shift32) 0 (min 64 (1 <<< (4+sizeId*2)))
  else tracedSkipUe shift32

def tracedScalingData : Trace Unit :=
  tracedLoop (fun sizeId =>
    tracedLoop (fun _ => tracedMatrix shift32 sizeId) 0 (if sizeId = 3 then 2 else 6)) 0 4

def tracedCandidates : ℕ → ℕ → Trace ℕ
  | 0, kept => pure kept
  | n+1, kept => do
    let used ← tracedFlag
    let useDelta ← if used then pure true else tracedFlag
    tracedCandidates n (if used || useDelta then kept+1 else kept)

def tracedDeltaPoc : Trace Unit := do
  tracedSkipUe shift32
  tracedSkip 1

def tracedExplicitSet : Trace ℕ := do
  let neg ← tracedUe shift32
  let pos ← tracedUe shift32
  if 64 < neg ∨ 64 < pos then refused
  else do
    tracedLoop (fun _ => tracedDeltaPoc shift32) 0 neg.toNat
    tracedLoop (fun _ => tracedDeltaPoc shift32) 0 pos.toNat
    return (neg+pos).toNat

/-- `h265_st_ref_pic_set`: the set before is looked up, this one is noted. -/
def tracedRefPicSet (idx : ℕ) (numDeltaPocs : ℕ → ℕ) : Trace (ℕ → ℕ) := do
  let interPred ← if idx ≠ 0 then tracedFlag else pure false
  let count ← if interPred then do
      tracedSkip 1
      tracedSkipUe shift32
      note fun _ => [.slot (idx-1)]
      tracedCandidates (numDeltaPocs (idx-1)+1) 0
    else tracedExplicitSet shift32
  note fun _ => [.slot idx]
  unnoted fun b => if b.overflow then .error .bad else .ok (Function.update numDeltaPocs idx count, b)

def tracedSets : ℕ → ℕ → (ℕ → ℕ) → Trace Unit
  | _, 0, _ => pure ()
  | idx, n+1, numDeltaPocs => do
    let numDeltaPocs ← tracedRefPicSet shift32 idx numDeltaPocs
    tracedSets (idx+1) n numDeltaPocs

def refBits (log2MaxPocLsbMinus4 : UInt32) : ℤ := ((log2MaxPocLsbMinus4+4).toNat : ℤ).bmod (2^32)

def tracedLongTerm (log2MaxPocLsbMinus4 : UInt32) : Trace Unit := do
  let n ← tracedUe shift32
  if 32 < n then refused
  else tracedLoop (fun _ => do
    tracedSkip (refBits log2MaxPocLsbMinus4)
    tracedSkip 1) 0 n.toNat

def tracedPcm : Trace Unit := do
  tracedSkip 4
  tracedSkip 4
  tracedSkipUe shift32
  tracedSkipUe shift32
  tracedSkip 1

def tracedShortTerm : Trace Unit := do
  let numSets ← tracedUe shift32
  if 64 < numSets then refused
  else tracedSets shift32 0 numSets.toNat fun _ => 0

def tracedH265 : Trace ℕ := do
  tracedSkip 4
  let maxSubLayersMinus1 ← tracedRead 3
  tracedSkip 1
  tracedTierLevel maxSubLayersMinus1.toNat
  tracedSkipUe shift32
  let chromaFormatIdc ← tracedUe shift32
  tracedOptionally (chromaFormatIdc = 3) (tracedSkip 1)
  tracedSkipUe shift32
  tracedSkipUe shift32
  tracedWindow shift32
  tracedSkipUe shift32
  tracedSkipUe shift32
  let log2MaxPocLsbMinus4 ← tracedUe shift32
  let orderingPresent ← tracedFlag
  let first := if orderingPresent then 0 else maxSubLayersMinus1.toNat
  tracedLoop (fun _ => do
    tracedSkipUe shift32
    tracedSkipUe shift32
    tracedSkipUe shift32) first (maxSubLayersMinus1.toNat+1-first)
  tracedLoop (fun _ => tracedSkipUe shift32) 0 6
  let scalingListEnabled ← tracedFlag
  tracedOptionally scalingListEnabled do
    let dataPresent ← tracedFlag
    tracedOptionally dataPresent (tracedScalingData shift32)
  tracedSkip 1
  tracedSkip 1
  let pcmEnabled ← tracedFlag
  tracedOptionally pcmEnabled (tracedPcm shift32)
  tracedShortTerm shift32
  let longTermPresent ← tracedFlag
  tracedOptionally longTermPresent (tracedLongTerm shift32 log2MaxPocLsbMinus4)
  tracedSkip 1
  tracedSkip 1
  tracedVui

def tracedFullRange (isH265 : Bool) : Trace ℕ :=
  if isH265 then tracedH265 shift32 else tracedH264 shift32

def tracedDescribed : Trace ℕ := do
  tracedSkip 1
  let described ← tracedFlag
  if described then do
    tracedSkip 8
    tracedSkip 8
    unnoted hereUnlessOverflow
  else unnoted unsignalled

/-- The operations of an edit on the unescaped payload: those of the walk to the
flag and, with a matrix, of the walk to the coefficients and the read of them. -/
def rbspOps (isH265 : Bool) (matrix : Option Byte) (rbsp : Bytes) : List Op :=
  (tracedFullRange shift32 isH265).log (bitReader rbsp) ++
    match (tracedFullRange shift32 isH265).run (bitReader rbsp) with
    | .error _ => []
    | .ok (bit, b) =>
      if rbsp.length*8 ≤ bit then []
      else match matrix with
        | none => []
        | some _ =>
          let flag := { b with bit := bit, overflow := false }
          tracedDescribed.log flag ++ match tracedDescribed.run flag with
            | .error _ => []
            | .ok (mbit, b) =>
              if rbsp.length*8 < mbit+8 then []
              else
                let coefficients := { b with bit := mbit, overflow := false }
                readLog 8 coefficients

def nalOps (isH265 : Bool) (matrix : Option Byte) (nal : Option Bytes) (len : UInt32) : List Op :=
  match nal with
  | none => []
  | some bytes =>
    if len < 4 then []
    else
      let start := startCode bytes len.toNat
      let head := headEnd isH265 bytes len.toNat
      if len.toNat ≤ head ∨ vuiRbspMax < len.toNat-head then []
      else if ¬isSps isH265 (bytes.getD start 0) then []
      else rbspOps shift32 isH265 matrix (vuiUnescape (payload head len.toNat bytes) vuiRbspMax)

end Walk

end RaptorCommon.VuiOps
