import RaptorCommon.VuiReader

/-!
# The walks to the full-range flag

A walk takes the fields of an SPS one after the other up to
video_full_range_flag and answers with the flag's bit offset. The stretch from
vui_parameters_present on is the same in both codecs.
-/

set_option autoImplicit false

namespace RaptorCommon.VuiWalk
open RaptorCommon.CText RaptorCommon.StreamReader RaptorCommon.VuiReader

section Shared

def unsignalled : Walk ℕ := fun b => .error (if b.overflow then .bad else .absent)

def hereUnlessOverflow : Walk ℕ := fun b => if b.overflow then .error .bad else .ok (b.bit, b)

def aspectRatio : Walk Unit := do
  let present ← vbFlag
  optionally present do
    let idc ← vbRead 8
    optionally (idc = 255) do
      skipBits 16
      skipBits 16

def vuiFullRangeBit : Walk ℕ := do
  let vuiPresent ← vbFlag
  if vuiPresent then do
    aspectRatio
    let overscan ← vbFlag
    optionally overscan (skipBits 1)
    let signal ← vbFlag
    if signal then do
      skipBits 3
      hereUnlessOverflow
    else unsignalled
  else unsignalled

variable (shift32 : UInt32)

def window : Walk Unit := do
  let present ← vbFlag
  optionally present (loop (fun _ => skipUe shift32) 0 4)

end Shared

section H264

variable (shift32 : UInt32)

/-- The sum is an `int`; it can only wrap for a delta out of its range. -/
def nextScale (last delta : ℤ) : ℤ := ((last+delta+256).bmod (2^32)).tmod 256

def scalingEntries : ℕ → ℤ → ℤ → Walk Unit
  | 0, _, _ => pure ()
  | n+1, last, next => do
    let next ← if next ≠ 0 then nextScale last <$> vbSe shift32 else pure next
    scalingEntries n (if next = 0 then last else next) next

def h264ScalingList (size : ℕ) : Walk Unit := scalingEntries shift32 size 8 8

def highProfiles : List UInt32 := [100, 110, 122, 244, 44, 83, 86, 118, 128, 138, 139, 134, 135]

def h264HighProfile : Walk Unit := do
  let chromaFormatIdc ← vbUe shift32
  optionally (chromaFormatIdc = 3) (skipBits 1)
  skipUe shift32
  skipUe shift32
  skipBits 1
  let matrixPresent ← vbFlag
  optionally matrixPresent (loop (fun i => do
    let present ← vbFlag
    optionally present (h264ScalingList shift32 (if i < 6 then 16 else 64)))
      0 (if chromaFormatIdc = 3 then 12 else 8))

def h264PicOrderCnt : Walk Unit := do
  let pocType ← vbUe shift32
  if pocType = 0 then skipUe shift32
  else if pocType = 1 then do
    skipBits 1
    skipSe shift32
    skipSe shift32
    let n ← vbUe shift32
    if 255 < n then throw .bad
    else loop (fun _ => skipSe shift32) 0 n.toNat
  else pure ()

def h264FullRangeBit : Walk ℕ := do
  let profileIdc ← vbRead 8
  skipBits 8
  skipBits 8
  skipUe shift32
  optionally (profileIdc ∈ highProfiles) (h264HighProfile shift32)
  skipUe shift32
  h264PicOrderCnt shift32
  skipUe shift32
  skipBits 1
  skipUe shift32
  skipUe shift32
  let frameMbsOnly ← vbFlag
  optionally (!frameMbsOnly) (skipBits 1)
  skipBits 1
  window shift32
  vuiFullRangeBit

end H264

section H265

def subLayerFlags : ℕ → Walk (List (Bool × Bool))
  | 0 => pure []
  | n+1 => do
    let profilePresent ← vbFlag
    let levelPresent ← vbFlag
    let rest ← subLayerFlags n
    return (profilePresent, levelPresent)::rest

def subLayers : List (Bool × Bool) → Walk Unit
  | [] => pure ()
  | (profilePresent, levelPresent)::rest => do
    optionally profilePresent do
      skipBits 8
      skipBits 32
      skipBits 32
      skipBits 16
    optionally levelPresent (skipBits 8)
    subLayers rest

def h265ProfileTierLevel (maxSubLayersMinus1 : ℕ) : Walk Unit := do
  skipBits 8
  skipBits 32
  skipBits 32
  skipBits 16
  skipBits 8
  let flags ← subLayerFlags (min maxSubLayersMinus1 8)
  optionally (0 < maxSubLayersMinus1)
    (loop (fun _ => skipBits 2) maxSubLayersMinus1 (8-maxSubLayersMinus1))
  subLayers flags

variable (shift32 : UInt32)

def scalingMatrix (sizeId : ℕ) : Walk Unit := do
  let predMode ← vbFlag
  if predMode then do
    optionally (1 < sizeId) (skipSe shift32)
    loop (fun _ => skipSe shift32) 0 (min 64 (1 <<< (4+sizeId*2)))
  else skipUe shift32

def h265ScalingListData : Walk Unit :=
  loop (fun sizeId => loop (fun _ => scalingMatrix shift32 sizeId) 0 (if sizeId = 3 then 2 else 6))
    0 4

/-- The candidates of an inter-predicted set; how many are kept. -/
def keptCandidates : ℕ → ℕ → Walk ℕ
  | 0, kept => pure kept
  | n+1, kept => do
    let used ← vbFlag
    let useDelta ← if used then pure true else vbFlag
    keptCandidates n (if used || useDelta then kept+1 else kept)

def deltaPoc : Walk Unit := do
  skipUe shift32
  skipBits 1

def explicitSet : Walk ℕ := do
  let neg ← vbUe shift32
  let pos ← vbUe shift32
  if 64 < neg ∨ 64 < pos then throw .bad
  else do
    loop (fun _ => deltaPoc shift32) 0 neg.toNat
    loop (fun _ => deltaPoc shift32) 0 pos.toNat
    return (neg+pos).toNat

/-- `numDeltaPocs` is the array of the counts of the sets before. -/
def h265StRefPicSet (idx : ℕ) (numDeltaPocs : ℕ → ℕ) : Walk (ℕ → ℕ) := do
  let interPred ← if idx ≠ 0 then vbFlag else pure false
  let count ← if interPred then do
      skipBits 1
      skipUe shift32
      keptCandidates (numDeltaPocs (idx-1)+1) 0
    else explicitSet shift32
  fun b => if b.overflow then .error .bad else .ok (Function.update numDeltaPocs idx count, b)

def stRefPicSets : ℕ → ℕ → (ℕ → ℕ) → Walk Unit
  | _, 0, _ => pure ()
  | idx, n+1, numDeltaPocs => do
    let numDeltaPocs ← h265StRefPicSet shift32 idx numDeltaPocs
    stRefPicSets (idx+1) n numDeltaPocs

/-- The bits `vb_read` takes for the `(int)` of a count: none if it is negative. -/
def intCount (v : UInt32) : ℕ := if v.toNat < 2^31 then v.toNat else 0

def longTermRefs (log2MaxPocLsbMinus4 : UInt32) : Walk Unit := do
  let n ← vbUe shift32
  if 32 < n then throw .bad
  else loop (fun _ => do
    skipBits (intCount (log2MaxPocLsbMinus4+4))
    skipBits 1) 0 n.toNat

def pcm : Walk Unit := do
  skipBits 4
  skipBits 4
  skipUe shift32
  skipUe shift32
  skipBits 1

def shortTermSets : Walk Unit := do
  let numSets ← vbUe shift32
  if 64 < numSets then throw .bad
  else stRefPicSets shift32 0 numSets.toNat fun _ => 0

def h265FullRangeBit : Walk ℕ := do
  skipBits 4
  let maxSubLayersMinus1 ← vbRead 3
  skipBits 1
  h265ProfileTierLevel maxSubLayersMinus1.toNat
  skipUe shift32
  let chromaFormatIdc ← vbUe shift32
  optionally (chromaFormatIdc = 3) (skipBits 1)
  skipUe shift32
  skipUe shift32
  window shift32
  skipUe shift32
  skipUe shift32
  let log2MaxPocLsbMinus4 ← vbUe shift32
  let orderingPresent ← vbFlag
  let first := if orderingPresent then 0 else maxSubLayersMinus1.toNat
  loop (fun _ => do
    skipUe shift32
    skipUe shift32
    skipUe shift32) first (maxSubLayersMinus1.toNat+1-first)
  loop (fun _ => skipUe shift32) 0 6
  let scalingListEnabled ← vbFlag
  optionally scalingListEnabled do
    let dataPresent ← vbFlag
    optionally dataPresent (h265ScalingListData shift32)
  skipBits 1
  skipBits 1
  let pcmEnabled ← vbFlag
  optionally pcmEnabled (pcm shift32)
  shortTermSets shift32
  let longTermPresent ← vbFlag
  optionally longTermPresent (longTermRefs shift32 log2MaxPocLsbMinus4)
  skipBits 1
  skipBits 1
  vuiFullRangeBit

end H265

section Parts

theorem walks_unsignalled : Walks unsignalled :=
  .step (.look fun overflow _ => .error (if overflow then .bad else .absent))

theorem walks_checked {α : Type} (g : ℕ → α) :
    Walks fun b => if b.overflow then .error .bad else .ok (g b.bit, b) := by
  have hlook : ∀ b : VuiBits, (if b.overflow then .error Stop.bad else .ok (g b.bit, b)) =
      (if b.overflow then Except.error Stop.bad else .ok (g b.bit)).map fun a => (a, b) := by
    intro b
    split <;> rfl
  rw [funext hlook]
  exact .step (.look fun overflow bit => if overflow then .error .bad else .ok (g bit))

theorem walks_here : Walks hereUnlessOverflow := walks_checked fun bit => bit

theorem walks_aspect : Walks aspectRatio := by
  apply Built.bind walks_flag
  intro present
  apply built_optionally
  apply Built.bind (walks_read 8)
  intro idc
  apply built_optionally
  exact built_then (walks_skip 16) (walks_skip 16)

theorem walks_vui : Walks vuiFullRangeBit := by
  apply Built.bind walks_flag
  intro vuiPresent
  apply built_ite _ walks_unsignalled
  apply built_then walks_aspect
  apply Built.bind walks_flag
  intro overscan
  apply built_then (built_optionally (walks_skip 1))
  apply Built.bind walks_flag
  intro signal
  apply built_ite _ walks_unsignalled
  exact built_then (walks_skip 3) walks_here

variable (shift32 : UInt32)

theorem walks_window : Walks (window shift32) := by
  apply Built.bind walks_flag
  intro present
  exact built_optionally (built_loop (fun _ => walks_skip_ue shift32) 0 4)

theorem walks_entries (n : ℕ) (last value : ℤ) :
    Walks (scalingEntries shift32 n last value) := by
  induction n generalizing last value with
  | zero => exact Built.pure ()
  | succ n ih =>
    rw [scalingEntries]
    apply built_ite
    · exact Built.bind (built_map (walks_se shift32)) fun _ => ih _ _
    · exact Built.bind (Built.pure value) fun _ => ih _ _

theorem walks_high : Walks (h264HighProfile shift32) := by
  apply Built.bind (walks_ue shift32)
  intro chromaFormatIdc
  apply built_then (built_optionally (walks_skip 1))
  apply built_then (walks_skip_ue shift32)
  apply built_then (walks_skip_ue shift32)
  apply built_then (walks_skip 1)
  apply Built.bind walks_flag
  intro matrixPresent
  apply built_optionally
  apply built_loop
  intro i
  apply Built.bind walks_flag
  intro present
  exact built_optionally (walks_entries shift32 _ 8 8)

theorem walks_poc : Walks (h264PicOrderCnt shift32) := by
  apply Built.bind (walks_ue shift32)
  intro pocType
  apply built_ite (walks_skip_ue shift32)
  refine built_ite ?_ (Built.pure ())
  apply built_then (walks_skip 1)
  apply built_then (walks_skip_se shift32)
  apply built_then (walks_skip_se shift32)
  apply Built.bind (walks_ue shift32)
  intro n
  apply walks_unless
  exact built_loop (fun _ => walks_skip_se shift32) 0 n.toNat

theorem walks_h264 : Walks (h264FullRangeBit shift32) := by
  apply Built.bind (walks_read 8)
  intro profileIdc
  apply built_then (walks_skip 8)
  apply built_then (walks_skip 8)
  apply built_then (walks_skip_ue shift32)
  apply built_then (built_optionally (walks_high shift32))
  apply built_then (walks_skip_ue shift32)
  apply built_then (walks_poc shift32)
  apply built_then (walks_skip_ue shift32)
  apply built_then (walks_skip 1)
  apply built_then (walks_skip_ue shift32)
  apply built_then (walks_skip_ue shift32)
  apply Built.bind walks_flag
  intro frameMbsOnly
  apply built_then (built_optionally (walks_skip 1))
  apply built_then (walks_skip 1)
  exact built_then (walks_window shift32) walks_vui

theorem walks_layer_flags (n : ℕ) : Walks (subLayerFlags n) := by
  induction n with
  | zero => exact Built.pure []
  | succ n ih =>
    apply Built.bind walks_flag
    intro profilePresent
    apply Built.bind walks_flag
    intro levelPresent
    exact Built.bind ih fun _ => Built.pure _

theorem walks_layers (flags : List (Bool × Bool)) : Walks (subLayers flags) := by
  induction flags with
  | nil => exact Built.pure ()
  | cons flag flags ih =>
    have hprofile : Walks (do skipBits 8; skipBits 32; skipBits 32; skipBits 16) :=
      built_then (walks_skip 8) (built_then (walks_skip 32)
        (built_then (walks_skip 32) (walks_skip 16)))
    apply built_then (built_optionally hprofile)
    exact built_then (built_optionally (walks_skip 8)) ih

theorem walks_tier_level (layers : ℕ) :
    Walks (h265ProfileTierLevel layers) := by
  apply built_then (walks_skip 8)
  apply built_then (walks_skip 32)
  apply built_then (walks_skip 32)
  apply built_then (walks_skip 16)
  apply built_then (walks_skip 8)
  apply Built.bind (walks_layer_flags _)
  intro flags
  apply built_then (built_optionally (built_loop (fun _ => walks_skip 2) _ _))
  exact walks_layers flags

theorem walks_matrix (sizeId : ℕ) : Walks (scalingMatrix shift32 sizeId) := by
  apply Built.bind walks_flag
  intro predMode
  apply built_ite
  · apply built_then (built_optionally (walks_skip_se shift32))
    exact built_loop (fun _ => walks_skip_se shift32) _ _
  · exact walks_skip_ue shift32

theorem walks_scaling : Walks (h265ScalingListData shift32) :=
  built_loop (fun sizeId => built_loop (fun _ => walks_matrix shift32 sizeId) _ _) 0 4

theorem walks_candidates (n kept : ℕ) : Walks (keptCandidates n kept) := by
  induction n generalizing kept with
  | zero => exact Built.pure kept
  | succ n ih =>
    apply Built.bind walks_flag
    intro used
    apply built_ite
    · exact Built.bind (Built.pure true) fun _ => ih _
    · exact Built.bind walks_flag fun _ => ih _

theorem walks_explicit : Walks (explicitSet shift32) := by
  have hdelta : Walks (deltaPoc shift32) :=
    built_then (walks_skip_ue shift32) (walks_skip 1)
  apply Built.bind (walks_ue shift32)
  intro neg
  apply Built.bind (walks_ue shift32)
  intro pos
  apply walks_unless
  apply built_then (built_loop (fun _ => hdelta) _ _)
  exact built_then (built_loop (fun _ => hdelta) _ _) (Built.pure _)

theorem walks_set (idx : ℕ) (numDeltaPocs : ℕ → ℕ) :
    Walks (h265StRefPicSet shift32 idx numDeltaPocs) := by
  have hend : ∀ count, Walks fun b : VuiBits =>
      if b.overflow then .error Stop.bad
      else .ok (Function.update numDeltaPocs idx count, b) := by
    intro count
    exact walks_checked fun _ => Function.update numDeltaPocs idx count
  have hrest : ∀ interPred : Bool, Walks (do
      let count ← if interPred then do
          skipBits 1
          skipUe shift32
          keptCandidates (numDeltaPocs (idx-1)+1) 0
        else explicitSet shift32
      fun b => if b.overflow then .error .bad
        else .ok (Function.update numDeltaPocs idx count, b)) := by
    intro interPred
    apply built_ite
    · apply built_then (walks_skip 1)
      apply built_then (walks_skip_ue shift32)
      exact Built.bind (walks_candidates _ _) hend
    · exact Built.bind (walks_explicit shift32) hend
  apply built_ite
  · exact Built.bind walks_flag hrest
  · exact Built.bind (Built.pure false) hrest

theorem walks_sets (idx n : ℕ) (numDeltaPocs : ℕ → ℕ) :
    Walks (stRefPicSets shift32 idx n numDeltaPocs) := by
  induction n generalizing idx numDeltaPocs with
  | zero => exact Built.pure ()
  | succ n ih => exact Built.bind (walks_set shift32 idx numDeltaPocs) fun _ => ih _ _

theorem walks_short_term : Walks (shortTermSets shift32) := by
  apply Built.bind (walks_ue shift32)
  intro numSets
  exact walks_unless (walks_sets shift32 _ _ _)

theorem walks_long_term (log2MaxPocLsbMinus4 : UInt32) :
    Walks (longTermRefs shift32 log2MaxPocLsbMinus4) := by
  apply Built.bind (walks_ue shift32)
  intro n
  apply walks_unless
  exact built_loop (fun _ => built_then (walks_skip _) (walks_skip 1)) _ _

theorem walks_pcm : Walks (pcm shift32) := by
  apply built_then (walks_skip 4)
  apply built_then (walks_skip 4)
  apply built_then (walks_skip_ue shift32)
  exact built_then (walks_skip_ue shift32) (walks_skip 1)

theorem walks_h265 : Walks (h265FullRangeBit shift32) := by
  have hue : Walks (skipUe shift32) := walks_skip_ue shift32
  apply built_then (walks_skip 4)
  apply Built.bind (walks_read 3)
  intro maxSubLayersMinus1
  apply built_then (walks_skip 1)
  apply built_then (walks_tier_level _)
  apply built_then hue
  apply Built.bind (walks_ue shift32)
  intro chromaFormatIdc
  apply built_then (built_optionally (walks_skip 1))
  apply built_then hue
  apply built_then hue
  apply built_then (walks_window shift32)
  apply built_then hue
  apply built_then hue
  apply Built.bind (walks_ue shift32)
  intro log2MaxPocLsbMinus4
  apply Built.bind walks_flag
  intro orderingPresent
  apply built_then (built_loop (fun _ => built_then hue (built_then hue hue)) _ _)
  apply built_then (built_loop (fun _ => hue) _ _)
  apply Built.bind walks_flag
  intro scalingListEnabled
  have hdata : ∀ dataPresent,
      Walks (optionally dataPresent (h265ScalingListData shift32)) :=
    fun _ => built_optionally (walks_scaling shift32)
  apply built_then (built_optionally (Built.bind walks_flag hdata))
  apply built_then (walks_skip 1)
  apply built_then (walks_skip 1)
  apply Built.bind walks_flag
  intro pcmEnabled
  apply built_then (built_optionally (walks_pcm shift32))
  apply built_then (walks_short_term shift32)
  apply Built.bind walks_flag
  intro longTermPresent
  apply built_then (built_optionally (walks_long_term shift32 log2MaxPocLsbMinus4))
  apply built_then (walks_skip 1)
  exact built_then (walks_skip 1) walks_vui

end Parts

end RaptorCommon.VuiWalk
