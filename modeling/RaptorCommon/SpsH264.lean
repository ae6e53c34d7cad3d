import RaptorCommon.SpsSyntax

/-!
# The walk through an H.264 SPS

The syntax of 7.3.2.1.1 up to video_full_range_flag, for all values of its
elements, and the walk in front of it. A scaling list codes no deltas after a
scale of zero, so that the length of a list depends on the deltas in it.
-/

set_option autoImplicit false

namespace RaptorCommon.SpsH264
open RaptorCommon.CText RaptorCommon.BitString RaptorCommon.StreamReader RaptorCommon.VuiReader
open RaptorCommon.VuiWalk RaptorCommon.SpsSyntax

section Syntax

abbrev Delta := {v : ℤ // -128 ≤ v ∧ v ≤ 127}

/-- A delta for each place of a list. Those after a scale of zero are not coded. -/
abbrev ScalingList := ℕ → Delta

def scalingListBits (deltas : ScalingList) : ℕ → ℕ → ℤ → ℤ → List Bool
  | _, 0, _, _ => []
  | j, n+1, lastScale, nextScale =>
    if nextScale = 0 then scalingListBits deltas (j+1) n lastScale 0
    else
      let scale := (lastScale+(deltas j).1+256)%256
      ExpGolomb.seBits (deltas j).1 ++
        scalingListBits deltas (j+1) n (if scale = 0 then lastScale else scale) scale

def chromaProfiles : List ℕ := [100, 110, 122, 244, 44, 83, 86, 118, 128, 138, 139, 134, 135]

structure HighProfile where
  chromaFormatIdc : Ue
  separateColourPlane : Bool
  bitDepthLumaMinus8 : Ue
  bitDepthChromaMinus8 : Ue
  qpprimeYZeroTransformBypass : Bool
  scalingMatrix : Option (ℕ → Option ScalingList)

def matrixBits (lists : ℕ) (matrix : ℕ → Option ScalingList) : List Bool :=
  (List.range' 0 lists).flatMap fun i =>
    present (matrix i) fun deltas => scalingListBits deltas 0 (if i < 6 then 16 else 64) 8 8

def HighProfile.bits (p : HighProfile) : List Bool :=
  ue p.chromaFormatIdc ++
    ((if p.chromaFormatIdc.1 = 3 then [p.separateColourPlane] else []) ++
    (ue p.bitDepthLumaMinus8 ++ (ue p.bitDepthChromaMinus8 ++ ([p.qpprimeYZeroTransformBypass] ++
    present p.scalingMatrix (matrixBits (if p.chromaFormatIdc.1 = 3 then 12 else 8))))))

inductive PicOrderCnt where
  | lsb (log2MaxLsbMinus4 : Ue)
  | cycle (alwaysZero : Bool) (forNonRefPic forTopToBottomField : Se)
      (forRefFrame : {offsets : List Se // offsets.length ≤ 255})
  | other (type : Ue) (h : 2 ≤ type.1)

def small (k : ℕ) (h : k ≤ 255) : Ue := ⟨k, by omega⟩

def PicOrderCnt.bits : PicOrderCnt → List Bool
  | .lsb log2MaxLsbMinus4 => ue (small 0 (by decide)) ++ ue log2MaxLsbMinus4
  | .cycle alwaysZero forNonRefPic forTopToBottomField forRefFrame =>
    ue (small 1 (by decide)) ++ ([alwaysZero] ++ (se forNonRefPic ++ (se forTopToBottomField ++
      (ue (small forRefFrame.1.length forRefFrame.2) ++ forRefFrame.1.flatMap se))))
  | .other type _ => ue type

structure Sps where
  profileIdc : BitVec 8
  constraintFlags : BitVec 8
  levelIdc : BitVec 8
  seqParameterSetId : Ue
  high : HighProfile
  log2MaxFrameNumMinus4 : Ue
  picOrderCnt : PicOrderCnt
  maxNumRefFrames : Ue
  gapsInFrameNumAllowed : Bool
  picWidthInMbsMinus1 : Ue
  picHeightInMapUnitsMinus1 : Ue
  frameMbsOnly : Bool
  mbAdaptiveFrameField : Bool
  direct8x8Inference : Bool
  frameCropping : Option Window
  vui : Option Vui

/-- Up to video_full_range_flag, or to the flag that says there is none. -/
def Sps.bits (sps : Sps) : List Bool :=
  u sps.profileIdc ++ (u sps.constraintFlags ++ (u sps.levelIdc ++ (ue sps.seqParameterSetId ++
  ((if sps.profileIdc.toNat ∈ chromaProfiles then sps.high.bits else []) ++
  (ue sps.log2MaxFrameNumMinus4 ++ (sps.picOrderCnt.bits ++ (ue sps.maxNumRefFrames ++
  ([sps.gapsInFrameNumAllowed] ++ (ue sps.picWidthInMbsMinus1 ++
  (ue sps.picHeightInMapUnitsMinus1 ++ ([sps.frameMbsOnly] ++
  ((if sps.frameMbsOnly then [] else [sps.mbAdaptiveFrameField]) ++
  ([sps.direct8x8Inference] ++ (present sps.frameCropping Window.bits ++
  present sps.vui Vui.bits))))))))))))))

end Syntax

section Walk

variable (shift32 : UInt32)

theorem reads_delta (v : Delta) :
    Reads stream (ExpGolomb.seBits v.1) v.1 (vbSe shift32) := by
  apply reads_se
  exact se_number_lt ⟨v.1, by omega, by omega⟩

theorem scale_eq {lastScale : ℤ} (h1 : 1 ≤ lastScale) (h2 : lastScale ≤ 255) (delta : Delta) :
    nextScale lastScale delta.1 = (lastScale+delta.1+256)%256 := by
  obtain ⟨hlow, hhigh⟩ := delta.2
  unfold nextScale
  rw [Int.bmod_eq_of_le (by omega) (by omega)]
  exact Int.tmod_eq_emod_of_nonneg (by omega)

theorem reads_scaling_list (deltas : ScalingList) (j n : ℕ) {lastScale scale : ℤ}
    (h1 : 1 ≤ lastScale) (h2 : lastScale ≤ 255) :
    Reads stream (scalingListBits deltas j n lastScale scale) ()
      (scalingEntries shift32 n lastScale scale) := by
  induction n generalizing j lastScale scale with
  | zero => exact reads_pure
  | succ n ih =>
    rw [scalingListBits, scalingEntries]
    by_cases hzero : scale = 0
    · rw [if_pos hzero, if_neg (not_not.mpr hzero), hzero]
      exact reads_bind reads_pure (ih (j+1) h1 h2)
    · have hscale := scale_eq h1 h2 (deltas j)
      rw [if_neg hzero, if_pos hzero]
      apply reads_bind (reads_map (reads_delta shift32 (deltas j)))
      rw [hscale]
      apply ih
      · split <;> omega
      · split <;> omega

theorem reads_matrix (lists : ℕ) (matrix : ℕ → Option ScalingList) :
    Reads stream (matrixBits lists matrix) () (loop (fun i => do
      let present ← vbFlag
      optionally present (h264ScalingList shift32 (if i < 6 then 16 else 64))) 0 lists) := by
  apply reads_loop
  intro i _ _
  apply reads_present
  intro deltas _
  exact reads_scaling_list shift32 deltas 0 _ (by omega) (by omega)

theorem reads_high (p : HighProfile) : Reads stream p.bits () (h264HighProfile shift32) := by
  have hchroma : UInt32.ofNat p.chromaFormatIdc.1 = 3 ↔ p.chromaFormatIdc.1 = 3 := by
    have hlt := p.chromaFormatIdc.2
    exact uint_eq (by omega) (by decide)
  apply reads_bind (reads_ue_value shift32 p.chromaFormatIdc)
  simp only [hchroma]
  apply reads_then
  · have hplane := reads_optionally (c := decide (p.chromaFormatIdc.1 = 3))
      fun _ => reads_skip_flag p.separateColourPlane
    simpa only [decide_eq_true_eq] using hplane
  apply reads_then (reads_ue_skipped shift32 p.bitDepthLumaMinus8)
  apply reads_then (reads_ue_skipped shift32 p.bitDepthChromaMinus8)
  apply reads_then (reads_skip_flag p.qpprimeYZeroTransformBypass)
  apply reads_present
  intro matrix _
  exact reads_matrix shift32 _ matrix

theorem reads_poc (poc : PicOrderCnt) : Reads stream poc.bits () (h264PicOrderCnt shift32) := by
  cases poc with
  | lsb log2MaxLsbMinus4 =>
    apply reads_bind (reads_ue_value shift32 _)
    exact reads_ue_skipped shift32 log2MaxLsbMinus4
  | cycle alwaysZero forNonRefPic forTopToBottomField forRefFrame =>
    obtain ⟨offsets, hlen⟩ := forRefFrame
    apply reads_bind (reads_ue_value shift32 _)
    apply reads_then (reads_skip_flag alwaysZero)
    apply reads_then (reads_se_skipped shift32 forNonRefPic)
    apply reads_then (reads_se_skipped shift32 forTopToBottomField)
    apply reads_bind (reads_ue_value shift32 _)
    have hn : (UInt32.ofNat offsets.length).toNat = offsets.length := by
      rw [UInt32.toNat_ofNat', Nat.mod_eq_of_lt (by omega)]
    have hfits : ¬255 < UInt32.ofNat offsets.length := by
      rw [UInt32.lt_iff_toNat_lt, hn]
      exact not_lt.mpr hlen
    show Reads stream _ () (if 255 < UInt32.ofNat offsets.length then _ else _)
    rw [if_neg hfits]
    show Reads stream _ () (loop _ 0 (UInt32.ofNat offsets.length).toNat)
    rw [hn]
    exact reads_items offsets 0 fun v _ => reads_se_skipped shift32 v
  | other type h =>
    have hlt := type.2
    have h0 : ¬UInt32.ofNat type.1 = 0 := by
      rw [show (0 : UInt32) = UInt32.ofNat 0 from rfl, uint_eq (by omega) (by omega)]
      omega
    have h1 : ¬UInt32.ofNat type.1 = 1 := by
      rw [show (1 : UInt32) = UInt32.ofNat 1 from rfl, uint_eq (by omega) (by omega)]
      omega
    have htext : (PicOrderCnt.other type h).bits = ue type ++ [] := (List.append_nil _).symm
    rw [htext]
    apply reads_bind (reads_ue_value shift32 type)
    show Reads stream [] () (if UInt32.ofNat type.1 = 0 then _
      else if UInt32.ofNat type.1 = 1 then _ else _)
    rw [if_neg h0, if_neg h1]
    exact reads_pure

theorem finds_sps (sps : Sps) :
    Finds (signalled sps.vui) sps.bits (h264FullRangeBit shift32) := by
  have hprofile : UInt32.ofNat sps.profileIdc.toNat ∈ highProfiles ↔
      sps.profileIdc.toNat ∈ chromaProfiles := by
    have hlist : highProfiles = chromaProfiles.map UInt32.ofNat := rfl
    have hsmall : ∀ m ∈ chromaProfiles, m < 2^32 := by decide
    rw [hlist, List.mem_map]
    constructor
    · rintro ⟨m, hm, heq⟩
      rw [← (uint_eq (hsmall m hm) (by omega)).mp heq]
      exact hm
    · intro hm
      exact ⟨_, hm, rfl⟩
  have hhigh := reads_optionally (c := decide (UInt32.ofNat sps.profileIdc.toNat ∈ highProfiles))
    fun _ => reads_high shift32 sps.high
  simp only [decide_eq_true_eq, hprofile] at hhigh
  have hfield := reads_optionally (c := !sps.frameMbsOnly)
    fun _ => reads_skip_flag sps.mbAdaptiveFrameField
  have hfieldText : (if (!sps.frameMbsOnly) = true then [sps.mbAdaptiveFrameField] else []) =
      if sps.frameMbsOnly then [] else [sps.mbAdaptiveFrameField] := by
    cases sps.frameMbsOnly <;> rfl
  rw [hfieldText] at hfield
  apply finds_bind (reads_u sps.profileIdc)
  apply finds_then (reads_skip_u sps.constraintFlags)
  apply finds_then (reads_skip_u sps.levelIdc)
  apply finds_then (reads_ue_skipped shift32 sps.seqParameterSetId)
  apply finds_then
  · simpa only [hprofile] using hhigh
  apply finds_then (reads_ue_skipped shift32 sps.log2MaxFrameNumMinus4)
  apply finds_then (reads_poc shift32 sps.picOrderCnt)
  apply finds_then (reads_ue_skipped shift32 sps.maxNumRefFrames)
  apply finds_then (reads_skip_flag sps.gapsInFrameNumAllowed)
  apply finds_then (reads_ue_skipped shift32 sps.picWidthInMbsMinus1)
  apply finds_then (reads_ue_skipped shift32 sps.picHeightInMapUnitsMinus1)
  apply finds_bind (reads_flag sps.frameMbsOnly)
  apply finds_then hfield
  apply finds_then (reads_skip_flag sps.direct8x8Inference)
  apply finds_then (reads_window shift32 sps.frameCropping)
  exact finds_vui sps.vui

/-- In front of any SPS the walk answers with the offset of the flag, or that
there is none. Its counts of bits are those of a buffer below 2^29 bytes. -/
theorem h264_full_range_offset (sps : Sps) (bytes : Bytes) (tail : List Bool)
    (hlen : bytes.length < 2^29) (h : bytesBits bytes = sps.bits ++ tail) :
    (h264FullRangeBit shift32 (bitReader bytes)).map Prod.fst =
      if signalled sps.vui then .ok sps.bits.length else .error .absent :=
  finds_answer (finds_sps shift32 sps) hlen h

end Walk

section Sample

def sampleSps : Sps where
  profileIdc := 100
  constraintFlags := 0
  levelIdc := 31
  seqParameterSetId := zeroUe
  high :=
    { chromaFormatIdc := oneUe
      separateColourPlane := false
      bitDepthLumaMinus8 := zeroUe
      bitDepthChromaMinus8 := zeroUe
      qpprimeYZeroTransformBypass := false
      scalingMatrix := some fun i => if i = 0 then some fun _ => ⟨-8, by decide⟩ else none }
  log2MaxFrameNumMinus4 := zeroUe
  picOrderCnt := .lsb zeroUe
  maxNumRefFrames := zeroUe
  gapsInFrameNumAllowed := false
  picWidthInMbsMinus1 := ⟨119, by decide⟩
  picHeightInMapUnitsMinus1 := ⟨67, by decide⟩
  frameMbsOnly := true
  mbAdaptiveFrameField := false
  direct8x8Inference := true
  frameCropping := none
  vui := some
    { aspectRatio := none
      overscanAppropriate := none
      videoFormat := some 5 }

def sampleBytes : Bytes := [100, 0, 31, 173, 132, 64, 120, 15, 0, 68, 211, 80]

theorem h264_full_range_offset_sample :
    (h264FullRangeBit 0 (bitReader sampleBytes)).map Prod.fst = .ok 90 := by
  have hbits : bytesBits sampleBytes = sampleSps.bits ++ [false, true, false, false, false, false] := by
    decide +kernel
  have hlen : sampleSps.bits.length = 90 := by decide +kernel
  have hfind := h264_full_range_offset 0 sampleSps sampleBytes _ (by decide) hbits
  rw [hlen] at hfind
  exact hfind

end Sample

end RaptorCommon.SpsH264
