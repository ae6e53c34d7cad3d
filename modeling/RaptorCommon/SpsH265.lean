import RaptorCommon.SpsRefPicSets

/-!
# The walk through an H.265 SPS

The syntax of 7.3.2.2.1 up to video_full_range_flag, for all values of its
elements, and the walk in front of it. The walk counts the pictures of a
reference picture set as the syntax does where no retained candidate has a
delta of zero.
-/

set_option autoImplicit false

namespace RaptorCommon.SpsH265
open RaptorCommon.CText RaptorCommon.BitString RaptorCommon.StreamReader RaptorCommon.VuiReader
open RaptorCommon.VuiWalk RaptorCommon.SpsSyntax RaptorCommon.SpsRefPicSets

section Syntax

structure Profile where
  spaceTierIdc : BitVec 8
  compatibilityFlags : BitVec 32
  constraintFlags : BitVec 48

def Profile.bits (p : Profile) : List Bool :=
  u p.spaceTierIdc ++ (u p.compatibilityFlags ++ u p.constraintFlags)

structure SubLayer where
  profile : Option Profile
  levelIdc : Option (BitVec 8)

def SubLayer.flags (l : SubLayer) : List Bool := [l.profile.isSome] ++ [l.levelIdc.isSome]

def SubLayer.bits (l : SubLayer) : List Bool :=
  l.profile.elim [] Profile.bits ++ l.levelIdc.elim [] u

structure ProfileTierLevel where
  profile : Profile
  levelIdc : BitVec 8
  /-- All but the highest. -/
  subLayers : {layers : List SubLayer // layers.length ≤ 6}

def ProfileTierLevel.maxSubLayersMinus1 (p : ProfileTierLevel) : ℕ := p.subLayers.1.length

/-- The flags are filled up to eight layers, if there are any. -/
def ProfileTierLevel.bits (p : ProfileTierLevel) : List Bool :=
  p.profile.bits ++ (u p.levelIdc ++ (p.subLayers.1.flatMap SubLayer.flags ++
    ((if 0 < p.maxSubLayersMinus1 then
      (List.range' p.maxSubLayersMinus1 (8-p.maxSubLayersMinus1)).flatMap fun _ => [false, false]
      else []) ++ p.subLayers.1.flatMap SubLayer.bits)))

structure OrderingInfo where
  maxDecPicBufferingMinus1 : Ue
  maxNumReorderPics : Ue
  maxLatencyIncreasePlus1 : Ue

def OrderingInfo.bits (o : OrderingInfo) : List Bool :=
  ue o.maxDecPicBufferingMinus1 ++ (ue o.maxNumReorderPics ++ ue o.maxLatencyIncreasePlus1)

inductive ScalingMatrix where
  | predicted (matrixIdDelta : Ue)
  | coded (dcCoefMinus8 : Se) (deltaCoefs : ℕ → Se)

def coefNum (sizeId : ℕ) : ℕ := min 64 (2^(4+2*sizeId))

def ScalingMatrix.bits (sizeId : ℕ) : ScalingMatrix → List Bool
  | .predicted matrixIdDelta => [false] ++ ue matrixIdDelta
  | .coded dcCoefMinus8 deltaCoefs =>
    [true] ++ ((if 1 < sizeId then se dcCoefMinus8 else []) ++
      (List.range' 0 (coefNum sizeId)).flatMap fun i => se (deltaCoefs i))

/-- Of the largest size every third matrix is there. -/
def scalingListBits (matrices : ℕ → ℕ → ScalingMatrix) : List Bool :=
  (List.range' 0 4).flatMap fun sizeId =>
    (List.range' 0 (if sizeId = 3 then 2 else 6)).flatMap fun k => (matrices sizeId k).bits sizeId

structure Pcm where
  bitDepthLumaMinus1 : BitVec 4
  bitDepthChromaMinus1 : BitVec 4
  log2MinSizeMinus3 : Ue
  log2DiffMaxMinSize : Ue
  loopFilterDisabled : Bool

def Pcm.bits (p : Pcm) : List Bool :=
  u p.bitDepthLumaMinus1 ++ (u p.bitDepthChromaMinus1 ++ (ue p.log2MinSizeMinus3 ++
    (ue p.log2DiffMaxMinSize ++ [p.loopFilterDisabled])))

structure LongTermRef where
  pocLsb : ℕ
  usedByCurrPic : Bool

/-- The low bits of a picture order count are all that is coded of it. -/
def LongTermRef.bits (lsbBits : ℕ) (r : LongTermRef) : List Bool :=
  digits lsbBits r.pocLsb ++ [r.usedByCurrPic]

abbrev LongTermRefs := {refs : List LongTermRef // refs.length ≤ 32}

def longTermBits (lsbBits : ℕ) (refs : LongTermRefs) : List Bool :=
  ue ⟨refs.1.length, by omega⟩ ++ refs.1.flatMap (LongTermRef.bits lsbBits)

structure Sps where
  videoParameterSetId : BitVec 4
  temporalIdNesting : Bool
  profileTierLevel : ProfileTierLevel
  seqParameterSetId : Ue
  chromaFormatIdc : Ue
  separateColourPlane : Bool
  picWidth : Ue
  picHeight : Ue
  conformanceWindow : Option Window
  bitDepthLumaMinus8 : Ue
  bitDepthChromaMinus8 : Ue
  log2MaxPocLsbMinus4 : {k : ℕ // k+4 < 2^31}
  subLayerOrderingInfoPresent : Bool
  orderingInfo : ℕ → OrderingInfo
  log2MinCodingBlockSizeMinus3 : Ue
  log2DiffMaxMinCodingBlockSize : Ue
  log2MinTransformBlockSizeMinus2 : Ue
  log2DiffMaxMinTransformBlockSize : Ue
  maxTransformHierarchyDepthInter : Ue
  maxTransformHierarchyDepthIntra : Ue
  scalingList : Option (Option (ℕ → ℕ → ScalingMatrix))
  ampEnabled : Bool
  sampleAdaptiveOffsetEnabled : Bool
  pcm : Option Pcm
  shortTermSets : ShortTermSets
  longTermRefs : Option LongTermRefs
  temporalMvpEnabled : Bool
  strongIntraSmoothingEnabled : Bool
  vui : Option Vui

def Sps.orderingBits (sps : Sps) : List Bool :=
  let highest := sps.profileTierLevel.maxSubLayersMinus1
  let first := if sps.subLayerOrderingInfoPresent then 0 else highest
  (List.range' first (highest+1-first)).flatMap fun i => (sps.orderingInfo i).bits

def Sps.blockSizes (sps : Sps) : List Ue :=
  [sps.log2MinCodingBlockSizeMinus3, sps.log2DiffMaxMinCodingBlockSize,
    sps.log2MinTransformBlockSizeMinus2, sps.log2DiffMaxMinTransformBlockSize,
    sps.maxTransformHierarchyDepthInter, sps.maxTransformHierarchyDepthIntra]

def Sps.log2MaxPocLsb (sps : Sps) : Ue :=
  ⟨sps.log2MaxPocLsbMinus4.1, by
    have hlt := sps.log2MaxPocLsbMinus4.2
    omega⟩

/-- Up to video_full_range_flag, or to the flag that says there is none. -/
def Sps.bits (sps : Sps) : List Bool :=
  u sps.videoParameterSetId ++ (digits 3 sps.profileTierLevel.maxSubLayersMinus1 ++
  ([sps.temporalIdNesting] ++ (sps.profileTierLevel.bits ++ (ue sps.seqParameterSetId ++
  (ue sps.chromaFormatIdc ++
  ((if sps.chromaFormatIdc.1 = 3 then [sps.separateColourPlane] else []) ++
  (ue sps.picWidth ++ (ue sps.picHeight ++ (present sps.conformanceWindow Window.bits ++
  (ue sps.bitDepthLumaMinus8 ++ (ue sps.bitDepthChromaMinus8 ++ (ue sps.log2MaxPocLsb ++
  ([sps.subLayerOrderingInfoPresent] ++ (sps.orderingBits ++ (sps.blockSizes.flatMap ue ++
  (present sps.scalingList (fun data => present data scalingListBits) ++ ([sps.ampEnabled] ++
  ([sps.sampleAdaptiveOffsetEnabled] ++ (present sps.pcm Pcm.bits ++ (sps.shortTermSets.bits ++
  (present sps.longTermRefs (longTermBits (sps.log2MaxPocLsbMinus4.1+4)) ++
  ([sps.temporalMvpEnabled] ++ ([sps.strongIntraSmoothingEnabled] ++
  present sps.vui Vui.bits)))))))))))))))))))))))

end Syntax

section ProfileTierLevel

theorem profile_bits (p : Profile) :
    p.bits = u p.spaceTierIdc ++ (u p.compatibilityFlags ++
      (digits 32 (p.constraintFlags.toNat/2^16) ++ digits 16 p.constraintFlags.toNat)) := by
  rw [Profile.bits, u, u, u, digits_append 32 16]

theorem reads_profile (p : Profile) :
    Reads stream p.bits () (do
      skipBits 8
      skipBits 32
      skipBits 32
      skipBits 16) := by
  rw [profile_bits]
  apply reads_then (reads_skip_u p.spaceTierIdc)
  apply reads_then (reads_skip_u p.compatibilityFlags)
  exact reads_then (reads_skip (digits_length 32 _)) (reads_skip (digits_length 16 _))

theorem reads_layer_flags (layers : List SubLayer) :
    Reads stream (layers.flatMap SubLayer.flags)
      (layers.map fun l => (l.profile.isSome, l.levelIdc.isSome)) (subLayerFlags layers.length) := by
  induction layers with
  | nil => exact reads_pure
  | cons l layers ih =>
    rw [List.flatMap_cons, SubLayer.flags, List.append_assoc]
    apply reads_bind (reads_flag l.profile.isSome)
    apply reads_bind (reads_flag l.levelIdc.isSome)
    exact reads_map ih

theorem reads_announced {α : Type} {o : Option α} {bits : α → List Bool} {q : Walk Unit}
    (h : ∀ a, Reads stream (bits a) () q) :
    Reads stream (o.elim [] bits) () (optionally o.isSome q) := by
  cases o with
  | none => exact reads_pure
  | some a => exact h a

theorem reads_layers (layers : List SubLayer) :
    Reads stream (layers.flatMap SubLayer.bits) ()
      (subLayers (layers.map fun l => (l.profile.isSome, l.levelIdc.isSome))) := by
  induction layers with
  | nil => exact reads_pure
  | cons l layers ih =>
    rw [List.flatMap_cons, SubLayer.bits, List.append_assoc]
    apply reads_then (reads_announced reads_profile)
    exact reads_then (reads_announced reads_skip_u) ih

theorem reads_tier_level (p : ProfileTierLevel) :
    Reads stream p.bits () (h265ProfileTierLevel p.maxSubLayersMinus1) := by
  have hlayers := p.subLayers.2
  have hflags := reads_layer_flags p.subLayers.1
  have hmin : min p.maxSubLayersMinus1 8 = p.subLayers.1.length := Nat.min_eq_left (by
    show p.subLayers.1.length ≤ 8
    omega)
  have hpairs : Reads (ε := Stop) stream
      ((List.range' p.maxSubLayersMinus1 (8-p.maxSubLayersMinus1)).flatMap fun _ => [false, false])
      () (loop (fun _ => skipBits 2) p.maxSubLayersMinus1 (8-p.maxSubLayersMinus1)) :=
    reads_loop _ _ fun _ _ _ => reads_skip rfl
  have hfill := reads_optionally (c := decide (0 < p.maxSubLayersMinus1)) fun _ => hpairs
  simp only [decide_eq_true_eq] at hfill
  rw [ProfileTierLevel.bits, profile_bits, List.append_assoc, List.append_assoc, List.append_assoc]
  apply reads_then (reads_skip_u p.profile.spaceTierIdc)
  apply reads_then (reads_skip_u p.profile.compatibilityFlags)
  apply reads_then (reads_skip (digits_length 32 _))
  apply reads_then (reads_skip (digits_length 16 _))
  apply reads_then (reads_skip_u p.levelIdc)
  rw [hmin]
  apply reads_bind hflags
  exact reads_then hfill (reads_layers p.subLayers.1)

end ProfileTierLevel

section Parts

variable (shift32 : UInt32)

theorem reads_ordering (o : OrderingInfo) :
    Reads stream o.bits () (do
      skipUe shift32
      skipUe shift32
      skipUe shift32) := by
  apply reads_then (reads_ue_skipped shift32 o.maxDecPicBufferingMinus1)
  apply reads_then (reads_ue_skipped shift32 o.maxNumReorderPics)
  exact reads_ue_skipped shift32 o.maxLatencyIncreasePlus1

theorem reads_scaling_matrix (sizeId : ℕ) (m : ScalingMatrix) :
    Reads stream (m.bits sizeId) () (scalingMatrix shift32 sizeId) := by
  cases m with
  | predicted matrixIdDelta =>
    exact reads_bind (reads_flag false) (reads_ue_skipped shift32 matrixIdDelta)
  | coded dcCoefMinus8 deltaCoefs =>
    have hdc := reads_optionally (c := decide (1 < sizeId)) fun _ =>
      reads_se_skipped shift32 dcCoefMinus8
    simp only [decide_eq_true_eq] at hdc
    have hnum : min 64 (1 <<< (4+sizeId*2)) = coefNum sizeId := by
      rw [coefNum, Nat.one_shiftLeft, Nat.mul_comm]
    apply reads_bind (reads_flag true)
    show Reads stream _ () (do
      optionally (1 < sizeId) (skipSe shift32)
      loop (fun _ => skipSe shift32) 0 (min 64 (1 <<< (4+sizeId*2))))
    rw [hnum]
    apply reads_then hdc
    exact reads_loop 0 _ fun i _ _ => reads_se_skipped shift32 (deltaCoefs i)

theorem reads_scaling (matrices : ℕ → ℕ → ScalingMatrix) :
    Reads stream (scalingListBits matrices) () (h265ScalingListData shift32) := by
  apply reads_loop
  intro sizeId _ _
  apply reads_loop
  intro k _ _
  exact reads_scaling_matrix shift32 sizeId (matrices sizeId k)

theorem reads_pcm (p : Pcm) : Reads stream p.bits () (pcm shift32) := by
  apply reads_then (reads_skip_u p.bitDepthLumaMinus1)
  apply reads_then (reads_skip_u p.bitDepthChromaMinus1)
  apply reads_then (reads_ue_skipped shift32 p.log2MinSizeMinus3)
  apply reads_then (reads_ue_skipped shift32 p.log2DiffMaxMinSize)
  exact reads_skip_flag p.loopFilterDisabled

theorem int_count {k : ℕ} (h : k+4 < 2^31) : intCount (UInt32.ofNat k+4) = k+4 := by
  have hsum : (UInt32.ofNat k+4).toNat = k+4 := by
    rw [UInt32.toNat_add, UInt32.toNat_ofNat']
    show (k%2^32+4)%2^32 = k+4
    omega
  rw [intCount, hsum, if_pos h]

theorem reads_long_term {k : ℕ} (hk : k+4 < 2^31) (refs : LongTermRefs) :
    Reads stream (longTermBits (k+4) refs) () (longTermRefs shift32 (UInt32.ofNat k)) := by
  have hlen := refs.2
  have hn : (UInt32.ofNat refs.1.length).toNat = refs.1.length := by
    rw [UInt32.toNat_ofNat', Nat.mod_eq_of_lt (by omega)]
  have hfew : ¬32 < UInt32.ofNat refs.1.length := by
    rw [UInt32.lt_iff_toNat_lt, hn]
    exact not_lt.mpr hlen
  apply reads_bind (reads_ue_value shift32 _)
  show Reads stream _ () (if 32 < UInt32.ofNat refs.1.length then _ else
    loop _ 0 (UInt32.ofNat refs.1.length).toNat)
  rw [if_neg hfew, hn, int_count hk]
  apply reads_items
  intro r _
  exact reads_then (reads_skip (digits_length (k+4) _)) (reads_skip_flag r.usedByCurrPic)

end Parts

section Walk

variable (shift32 : UInt32)

theorem finds_sps {sps : Sps} (h : sps.shortTermSets.NoZeros) :
    Finds (signalled sps.vui) sps.bits (h265FullRangeBit shift32) := by
  have hlayers : (UInt32.ofNat sps.profileTierLevel.maxSubLayersMinus1).toNat =
      sps.profileTierLevel.maxSubLayersMinus1 := by
    have hle := sps.profileTierLevel.subLayers.2
    rw [UInt32.toNat_ofNat', Nat.mod_eq_of_lt (by
      show sps.profileTierLevel.subLayers.1.length < 2^32
      omega)]
  have hmax : Reads (ε := Stop) stream (digits 3 sps.profileTierLevel.maxSubLayersMinus1)
      (UInt32.ofNat sps.profileTierLevel.maxSubLayersMinus1) (vbRead 3) := by
    have hle := sps.profileTierLevel.subLayers.2
    have hread := reads_read (digits 3 sps.profileTierLevel.maxSubLayersMinus1)
    rwa [digits_length, value_of_digits (by
      show sps.profileTierLevel.subLayers.1.length < 2^3
      omega)] at hread
  have hchroma : UInt32.ofNat sps.chromaFormatIdc.1 = 3 ↔ sps.chromaFormatIdc.1 = 3 := by
    have hlt := sps.chromaFormatIdc.2
    exact uint_eq (by omega) (by decide)
  have hplane := reads_optionally (c := decide (sps.chromaFormatIdc.1 = 3))
    fun _ => reads_skip_flag sps.separateColourPlane
  simp only [decide_eq_true_eq] at hplane
  apply finds_then (reads_skip_u sps.videoParameterSetId)
  apply finds_bind hmax
  apply finds_then (reads_skip_flag sps.temporalIdNesting)
  rw [hlayers]
  apply finds_then (reads_tier_level sps.profileTierLevel)
  apply finds_then (reads_ue_skipped shift32 sps.seqParameterSetId)
  apply finds_bind (reads_ue_value shift32 sps.chromaFormatIdc)
  apply finds_then
  · simpa only [hchroma] using hplane
  apply finds_then (reads_ue_skipped shift32 sps.picWidth)
  apply finds_then (reads_ue_skipped shift32 sps.picHeight)
  apply finds_then (reads_window shift32 sps.conformanceWindow)
  apply finds_then (reads_ue_skipped shift32 sps.bitDepthLumaMinus8)
  apply finds_then (reads_ue_skipped shift32 sps.bitDepthChromaMinus8)
  apply finds_bind (reads_ue_value shift32 sps.log2MaxPocLsb)
  apply finds_bind (reads_flag sps.subLayerOrderingInfoPresent)
  apply finds_then (reads_loop _ _ fun i _ _ => reads_ordering shift32 (sps.orderingInfo i))
  apply finds_then (reads_items sps.blockSizes 0 fun k _ => reads_ue_skipped shift32 k)
  apply finds_present (fun data _ => reads_present fun matrices _ => reads_scaling shift32 matrices)
  apply finds_then (reads_skip_flag sps.ampEnabled)
  apply finds_then (reads_skip_flag sps.sampleAdaptiveOffsetEnabled)
  apply finds_present (fun p _ => reads_pcm shift32 p)
  apply finds_then (reads_short_term shift32 h)
  apply finds_present (fun refs _ => reads_long_term shift32 sps.log2MaxPocLsbMinus4.2 refs)
  apply finds_then (reads_skip_flag sps.temporalMvpEnabled)
  apply finds_then (reads_skip_flag sps.strongIntraSmoothingEnabled)
  exact finds_vui sps.vui

/-- In front of an SPS in which no retained candidate becomes zero the walk
answers with the offset of the flag, or that there is none. -/
theorem h265_full_range_offset (sps : Sps) (hzero : sps.shortTermSets.NoZeros) (bytes : Bytes)
    (tail : List Bool) (hlen : bytes.length < 2^29) (h : bytesBits bytes = sps.bits ++ tail) :
    (h265FullRangeBit shift32 (bitReader bytes)).map Prod.fst =
      if signalled sps.vui then .ok sps.bits.length else .error .absent :=
  finds_answer (finds_sps shift32 hzero) hlen h

end Walk

section Sample

def sampleSps : Sps where
  videoParameterSetId := 0
  temporalIdNesting := true
  profileTierLevel :=
    { profile :=
        { spaceTierIdc := 1
          compatibilityFlags := 0x60000000
          constraintFlags := 0x900000000000 }
      levelIdc := 93
      subLayers := ⟨[⟨none, some 90⟩], by decide⟩ }
  seqParameterSetId := zeroUe
  chromaFormatIdc := oneUe
  separateColourPlane := false
  picWidth := ⟨1920, by decide⟩
  picHeight := ⟨1080, by decide⟩
  conformanceWindow := none
  bitDepthLumaMinus8 := zeroUe
  bitDepthChromaMinus8 := zeroUe
  log2MaxPocLsbMinus4 := ⟨4, by decide⟩
  subLayerOrderingInfoPresent := false
  orderingInfo _ := ⟨zeroUe, zeroUe, zeroUe⟩
  log2MinCodingBlockSizeMinus3 := zeroUe
  log2DiffMaxMinCodingBlockSize := ⟨3, by decide⟩
  log2MinTransformBlockSizeMinus2 := zeroUe
  log2DiffMaxMinTransformBlockSize := ⟨3, by decide⟩
  maxTransformHierarchyDepthInter := zeroUe
  maxTransformHierarchyDepthIntra := zeroUe
  scalingList := some none
  ampEnabled := true
  sampleAdaptiveOffsetEnabled := true
  pcm := none
  shortTermSets := .sets ⟨⟨[⟨zeroUe, true⟩], by decide⟩, ⟨[], by decide⟩⟩
    ⟨[.predicted ⟨true, zeroUe, fun _ => ⟨true, true⟩⟩], by decide⟩
  longTermRefs := some ⟨[⟨37, true⟩], by decide⟩
  temporalMvpEnabled := true
  strongIntraSmoothingEnabled := false
  vui := some
    { aspectRatio := none
      overscanAppropriate := none
      videoFormat := some 5 }

def sampleBytes : Bytes :=
  [3, 1, 96, 0, 0, 0, 144, 0, 0, 0, 0, 0, 93, 64, 0, 90, 160, 3, 192, 128, 16, 229, 149, 228,
    147, 179, 95, 244, 75, 166, 160]

theorem h265_full_range_offset_sample :
    (h265FullRangeBit 0 (bitReader sampleBytes)).map Prod.fst = .ok 241 := by
  have hzero : sampleSps.shortTermSets.NoZeros := by
    refine ⟨?_, trivial⟩
    intro j poc hpoc _
    rcases j with _ | _ | j
    · cases hpoc
      decide
    · cases hpoc
      decide
    · cases hpoc
  have hbits : bytesBits sampleBytes =
      sampleSps.bits ++ [false, true, false, false, false, false, false] := by
    decide +kernel
  have hlen : sampleSps.bits.length = 241 := by decide +kernel
  have hfind := h265_full_range_offset 0 sampleSps hzero sampleBytes _ (by decide) hbits
  rw [hlen] at hfind
  exact hfind

end Sample

end RaptorCommon.SpsH265
