import RaptorCommon.JpegChain
import RaptorCommon.SeiWalk
import RaptorCommon.TracedRun

/-!
# Reading untrusted buffers

The two parsers of bytes from outside once more, with every buffer index they
read and everything they store. `memcmp` and `memcpy` read all the bytes they
are given, `&&` and `||` read no more than they need.
-/

set_option autoImplicit false

namespace RaptorCommon.UntrustedReads
open RaptorCommon.CText RaptorCommon.TimeText RaptorCommon.TracedRun
open RaptorCommon.TracedRun.Run

inductive Touch where
  | read (index : ℕ)
  | time (utcUs : UInt64)
  | status (b : Byte)
  deriving DecidableEq, Repr

def readAt (mem : Bytes) (i : ℕ) : Run Touch Byte := do
  touch (.read i)
  pure (mem.getD i 0)

def copyAt (mem : Bytes) (pos count : ℕ) : Run Touch Bytes :=
  ⟨(List.range' pos count).map .read, some (Jpeg.bytesAt pos count mem)⟩

def differs (mem : Bytes) (i : ℕ) (b : Byte) : Run Touch Bool := do
  let c ← readAt mem i
  pure (c ≠ b)

section Reading

/-- What is read is read inside the buffer. -/
def Inside (len : ℕ) : Touch → Prop
  | .read i => i < len
  | _ => True

def Reads (len : ℕ) : Touch → Prop
  | .read i => i < len
  | _ => False

theorem reads_inside {len : ℕ} (e : Touch) (h : Reads len e) : Inside len e := by
  cases e with
  | read i => exact h
  | time utcUs => trivial
  | status b => trivial

variable {P : Touch → Prop} {mem : Bytes}

@[simp] theorem meets_read {Q : Byte → Prop} (i : ℕ) :
    Meets P Q (readAt mem i) ↔ P (.read i) ∧ Q (mem.getD i 0) := by
  rw [readAt, meets_bind, meets_touch, meets_pure]

@[simp] theorem meets_copy {Q : Bytes → Prop} (pos count : ℕ) :
    Meets P Q (copyAt mem pos count) ↔
      (∀ i, pos ≤ i ∧ i < pos+count → P (.read i)) ∧ Q (Jpeg.bytesAt pos count mem) := by
  constructor
  · rintro ⟨hall, a, hval, hQ⟩
    cases hval
    exact ⟨fun i hi => hall _ (List.mem_map_of_mem (List.mem_range'_1.mpr hi)), hQ⟩
  · rintro ⟨hall, hQ⟩
    refine ⟨fun e he => ?_, _, rfl, hQ⟩
    obtain ⟨i, hi, rfl⟩ := List.mem_map.mp he
    exact hall i (List.mem_range'_1.mp hi)

theorem differs_decides {i : ℕ} (hi : P (.read i)) (b : Byte) :
    Decides P (mem.getD i 0 ≠ b) (differs mem i b) := by
  rw [differs, Decides, meets_bind, meets_read, meets_pure]
  exact ⟨hi, decide_eq_true_iff⟩

theorem read_unmarked (mem : Bytes) {e : Touch} (he : ∀ i, e ≠ .read i) (i : ℕ) :
    e ∉ (readAt mem i).touched :=
  unmarked_bind (fun h => he i (List.mem_singleton.mp h)) fun _ => List.not_mem_nil

theorem differs_unmarked (mem : Bytes) {e : Touch} (he : ∀ i, e ≠ .read i) (i : ℕ) (b : Byte) :
    e ∉ (differs mem i b).touched :=
  unmarked_bind (read_unmarked mem he i) fun _ => List.not_mem_nil

theorem copy_unmarked (mem : Bytes) {e : Touch} (he : ∀ i, e ≠ .read i) (pos count : ℕ) :
    e ∉ (copyAt mem pos count).touched := by
  intro h
  obtain ⟨i, -, rfl⟩ := List.mem_map.mp h
  exact he i rfl

end Reading

section Jpeg
open RaptorCommon.Jpeg

def exifTime (dt sub : Bytes) : Except Errno UInt64 :=
  match scan dateFormat (CString.at dt).chars with
  | [year, mon, mday, hour, min, sec] =>
    let sec := timegm ⟨year-1900, mon-1, mday, hour, min, sec⟩
    if sec = -1 then .error .enoent
    else .ok (UInt64.ofInt sec*1000000+(scanMicros sub).toUInt64)
  | _ => .error .enoent

/-- The branch of the loop that reads the fields of the layout. -/
def exifTurn (mem : Bytes) (tiff : ℕ) : Run Touch (Turn ℕ (Except Errno UInt64)) := do
  let dt ← copyAt mem (tiff+68) 20
  let sub ← copyAt mem (tiff+95) 7
  match exifTime dt sub with
  | .error e => pure (.leave (.error e))
  | .ok utcUs => do
    touch (.time utcUs)
    pure (.leave (.ok utcUs))

/-- The body of the loop of `rss_jpeg_get_exif_time`. -/
def segmentTurn (mem : Bytes) (len pos : ℕ) : Run Touch (Turn ℕ (Except Errno UInt64)) :=
  if pos+4 ≤ len then do
    let lead ← readAt mem pos
    if lead ≠ 0xff then pure (.leave (.error .enoent))
    else do
      let marker ← readAt mem (pos+1)
      if marker = 0xda ∨ marker = 0xd9 then pure (.leave (.error .enoent))
      else do
        let high ← readAt mem (pos+2)
        let low ← readAt mem (pos+3)
        let seglen := high.toNat*256+low.toNat
        if seglen < 2 ∨ pos+2+seglen > len then pure (.leave (.error .enoent))
        else do
          let ours ← andAlso (marker = 0xe1 ∧ 2+exifPayload ≤ seglen) do
            let id ← copyAt mem (pos+4) 6
            pure (id = exifIdentifier)
          if ours = true then exifTurn mem (pos+10) else pure (.goOn (pos+2+seglen))
  else pure (.leave (.error .enoent))

/-- `rss_jpeg_get_exif_time`; the flag tells whether there is a place for the
time. -/
def tracedGetExifTime (buf : Option Bytes) (len : ℕ) (utcUs : Bool) :
    Run Touch (Except Errno UInt64) :=
  match buf with
  | none => pure (.error .einval)
  | some mem =>
    if utcUs = false ∨ len < 4 then pure (.error .einval)
    else do
      let bad ← orElse (differs mem 0 0xff) (differs mem 1 0xd8)
      if bad = true then pure (.error .einval) else loop (segmentTurn mem len) (len+1) 2

def returned : Except Errno UInt64 → ℤ
  | .ok _ => 0
  | .error .einval => -22
  | .error .enospc => -28
  | .error .enoent => -2
  | .error .ebadmsg => -74

variable {mem : Bytes} {len : ℕ}

theorem exif_turn {tiff : ℕ} (hroom : tiff+102 ≤ len) :
    Meets (Inside len) (Turn.After (fun _ => False) fun r => r = exifFields (mem.drop tiff))
      (exifTurn mem tiff) := by
  have hfields : exifFields (mem.drop tiff) =
      exifTime (bytesAt (tiff+68) 20 mem) (bytesAt (tiff+95) 7 mem) := by
    rw [← JpegChain.bytes_inside, ← JpegChain.bytes_inside]
    rfl
  rw [exifTurn, hfields, meets_bind, meets_copy]
  refine ⟨fun i hi => show i < len by omega, ?_⟩
  rw [meets_bind, meets_copy]
  refine ⟨fun i hi => show i < len by omega, ?_⟩
  cases exifTime (bytesAt (tiff+68) 20 mem) (bytesAt (tiff+95) 7 mem) with
  | error e => exact (meets_pure _).mpr rfl
  | ok utcUs =>
    rw [meets_bind, meets_touch, meets_pure]
    exact ⟨trivial, rfl⟩

theorem ours_decides {pos : ℕ} (hroom : ¬(pos+2+JpegChain.lengthAt mem pos > len)) :
    Decides (Reads len) (JpegChain.IsExif mem pos)
      (andAlso (mem.getD (pos+1) 0 = 0xe1 ∧ 2+exifPayload ≤ JpegChain.lengthAt mem pos) do
        let id ← copyAt mem (pos+4) 6
        pure (id = exifIdentifier)) := by
  have hP : exifPayload = 108 := rfl
  have hid : mem.getD (pos+1) 0 = 0xe1 ∧ 2+exifPayload ≤ JpegChain.lengthAt mem pos →
      Decides (Reads len) (bytesAt (pos+4) 6 mem = exifIdentifier) (do
        let id ← copyAt mem (pos+4) 6
        pure (id = exifIdentifier)) := by
    intro hc
    rw [Decides, meets_bind, meets_copy, meets_pure, decide_eq_true_eq]
    exact ⟨fun i hi => show i < len by omega, Iff.rfl⟩
  exact (decides_and hid).mono (fun _ he => he) fun b hb => hb.trans and_assoc

/-- A turn reads inside the buffer, and either passes a segment or answers as
the walk from there does. -/
theorem segment_turn (pos : ℕ) :
    Meets (Inside len)
      (Turn.After (fun pos' => len-pos' < len-pos ∧
          (len = mem.length → walkSegments mem pos' = walkSegments mem pos))
        fun r => len = mem.length → r = walkSegments mem pos)
      (segmentTurn mem len pos) := by
  refine meets_ite (fun hroom => ?_) fun hroom => ?_
  · rw [meets_bind, meets_read]
    refine ⟨show pos < len by omega, meets_ite (fun hlead => ?_) fun hlead => ?_⟩
    · refine (meets_pure _).mpr fun hlen => ?_
      rw [walkSegments, if_pos (hlen ▸ hroom), if_pos hlead]
    rw [meets_bind, meets_read]
    refine ⟨show pos+1 < len by omega, meets_ite (fun hmarker => ?_) fun hmarker => ?_⟩
    · refine (meets_pure _).mpr fun hlen => ?_
      rw [walkSegments, if_pos (hlen ▸ hroom), if_neg hlead]
      exact (if_pos hmarker).symm
    rw [meets_bind, meets_read]
    refine ⟨show pos+2 < len by omega, ?_⟩
    rw [meets_bind, meets_read]
    refine ⟨show pos+3 < len by omega, meets_ite (fun hlength => ?_) fun hlength => ?_⟩
    · refine (meets_pure _).mpr fun hlen => ?_
      rw [walkSegments, if_pos (hlen ▸ hroom), if_neg hlead]
      subst hlen
      exact ((if_neg hmarker).trans (if_pos hlength)).symm
    have hheader : len = mem.length → JpegChain.Header mem pos := by
      rintro rfl
      exact ⟨hroom, not_not.mp hlead, hmarker, hlength⟩
    rw [meets_bind]
    refine (ours_decides fun h => hlength (.inr h)).mono reads_inside fun ours hiff =>
      meets_ite (fun h => ?_) fun h => ?_
    · have hexif := hiff.mp h
      have hsize : 2+108 ≤ (mem.getD (pos+2) 0).toNat*256+(mem.getD (pos+3) 0).toNat := hexif.2.1
      refine (exif_turn (by omega)).mono (fun _ he => he) fun t ht => ?_
      cases t with
      | goOn pos' => exact ht.elim
      | leave r => exact fun hlen => ht.trans (JpegChain.walk_found (hheader hlen) hexif).symm
    · refine (meets_pure _).mpr ⟨?_, fun hlen => ?_⟩
      · omega
      · exact (JpegChain.walk_passed (hheader hlen) fun he => h (hiff.mpr he)).symm
  · refine (meets_pure _).mpr fun hlen => ?_
    rw [walkSegments, if_neg (hlen ▸ hroom)]

theorem exif_turn_marks (tiff : ℕ) (utcUs : UInt64) :
    Marks (.time utcUs) (Turn.After (fun _ => False) fun r => returned r = 0)
      (exifTurn mem tiff) := by
  have hcopy : ∀ pos count, Touch.time utcUs ∉ (copyAt mem pos count).touched :=
    copy_unmarked mem fun _ => Touch.noConfusion
  refine marks_bind (hcopy _ _) fun dt _ => marks_bind (hcopy _ _) fun sub _ => ?_
  cases exifTime dt sub with
  | error e => exact marks_pure _
  | ok us => exact fun _ => ⟨_, rfl, rfl⟩

theorem segment_turn_marks (pos : ℕ) (utcUs : UInt64) :
    Marks (.time utcUs) (Turn.After (fun _ => False) fun r => returned r = 0)
      (segmentTurn mem len pos) := by
  have hread : ∀ i, Touch.time utcUs ∉ (readAt mem i).touched :=
    read_unmarked mem fun _ => Touch.noConfusion
  refine marks_ite (fun _ => ?_) fun _ => marks_pure _
  refine marks_bind (hread _) fun lead _ => marks_ite (fun _ => marks_pure _) fun _ => ?_
  refine marks_bind (hread _) fun marker _ => marks_ite (fun _ => marks_pure _) fun _ => ?_
  refine marks_bind (hread _) fun high _ => marks_bind (hread _) fun low _ => ?_
  refine marks_ite (fun _ => marks_pure _) fun _ => marks_bind ?_ fun ours _ => ?_
  · have hcopy : Touch.time utcUs ∉ (copyAt mem (pos+4) 6).touched :=
      copy_unmarked mem (fun _ => Touch.noConfusion) _ _
    exact unmarked_and (unmarked_bind hcopy fun id => List.not_mem_nil)
  · exact marks_ite (fun _ => exif_turn_marks (pos+10) utcUs) fun _ => marks_pure _

/-- The function ends, reads inside the buffer and answers as the model that
does not trace. -/
theorem get_exif_time (buf : Option Bytes) (len : ℕ) (utcUs : Bool) :
    Meets (Inside len)
      (fun r => ∀ mem, buf = some mem → utcUs = true → len = mem.length → r = rssJpegGetExifTime mem)
      (tracedGetExifTime buf len utcUs) := by
  cases buf with
  | none => exact (meets_pure _).mpr fun mem h => by cases h
  | some mem =>
    refine meets_ite (fun hrefused => ?_) fun hgood => ?_
    · refine (meets_pure _).mpr fun mem' hmem hplace hlen => ?_
      cases hmem
      have hshort : len < 4 := hrefused.resolve_left (by rw [hplace]; exact Bool.noConfusion)
      rw [rssJpegGetExifTime, if_pos (.inl (hlen ▸ hshort))]
    · have hroom : 4 ≤ len := Nat.le_of_not_lt fun h => hgood (.inr h)
      rw [meets_bind]
      have hsoi : Decides (Inside len) (mem.getD 0 0 ≠ 0xff ∨ mem.getD 1 0 ≠ 0xd8)
          (orElse (differs mem 0 0xff) (differs mem 1 0xd8)) :=
        decides_or (differs_decides (show 0 < len by omega) 0xff) fun _ =>
          differs_decides (show 1 < len by omega) 0xd8
      refine hsoi.mono (fun _ he => he) fun bad hbad => meets_ite (fun h => ?_) fun h => ?_
      · refine (meets_pure _).mpr fun mem' hmem _ _ => ?_
        cases hmem
        rw [rssJpegGetExifTime, if_pos (.inr (hbad.mp h))]
      · have hloop : Meets (Inside len) (fun r => len = mem.length → r = walkSegments mem 2)
            (loop (segmentTurn mem len) (len+1) 2) := by
          refine loop_meets (fun pos => len = mem.length → walkSegments mem pos = walkSegments mem 2)
            (fun pos => len-pos) ?_ (fun _ => rfl) (by omega)
          intro pos hpos
          refine (segment_turn pos).mono (fun _ he => he) fun t ht => ?_
          cases t with
          | goOn pos' => exact ⟨fun hlen => (ht.2 hlen).trans (hpos hlen), ht.1⟩
          | leave r => exact fun hlen => (ht hlen).trans (hpos hlen)
        refine hloop.mono (fun _ he => he) fun r hr mem' hmem _ hlen => ?_
        cases hmem
        rw [rssJpegGetExifTime, if_neg]
        · exact hr hlen
        · rw [← hlen, ← hbad]
          exact fun hor => hor.elim (fun hlt => absurd hroom (Nat.not_le_of_lt hlt)) h

theorem get_exif_time_marks (buf : Option Bytes) (len : ℕ) (place : Bool) (utcUs : UInt64) :
    Marks (.time utcUs) (fun r => returned r = 0) (tracedGetExifTime buf len place) := by
  have hdiffers : ∀ mem i b, Touch.time utcUs ∉ (differs mem i b).touched :=
    fun mem => differs_unmarked mem fun _ => Touch.noConfusion
  cases buf with
  | none => exact marks_pure _
  | some mem =>
    refine marks_ite (fun _ => marks_pure _) fun _ => ?_
    refine marks_bind (unmarked_or (hdiffers _ _ _) (hdiffers _ _ _)) fun bad _ => ?_
    refine marks_ite (fun _ => marks_pure _) fun _ => ?_
    exact loop_marks (fun pos => segment_turn_marks pos utcUs) (len+1) 2

end Jpeg

section Sei
open RaptorCommon.Sei

def zerosTurn (mem : Bytes) (len q : ℕ) : Run Touch (Turn ℕ ℕ) := do
  let zero ← andAlso (q < len) do
    let b ← readAt mem q
    pure (b = 0)
  if zero = true then pure (.goOn (q+1)) else pure (.leave q)

/-- The loops over the bytes of 255 of a type and of a size. -/
def sumTurn (mem : Bytes) (len : ℕ) (s : UInt32 × ℕ) :
    Run Touch (Turn (UInt32 × ℕ) (UInt32 × ℕ)) := do
  let full ← andAlso (s.2 < len) do
    let b ← readAt mem s.2
    pure (b = 0xff)
  if full = true then pure (.goOn (s.1+0xff, s.2+1)) else pure (.leave s)

def codedAt (mem : Bytes) (len p : ℕ) : Run Touch (Option (UInt32 × ℕ)) := do
  let s ← loop (sumTurn mem len) (len+1) (0, p)
  if len ≤ s.2 then pure none
  else do
    let b ← readAt mem s.2
    pure (some (s.1+b.toUInt32, s.2+1))

def stopsAt (mem : Bytes) (len p : ℕ) : Run Touch Bool := do
  let b ← readAt mem p
  andAlso (b = 0x80) do
    let q ← loop (zerosTurn mem len) (len+1) (p+1)
    pure (q = len)

def microsAt (mem : Bytes) (d : ℕ) : Run Touch UInt64 := do
  let d1 ← readAt mem (d+1)
  let d2 ← readAt mem (d+2)
  let d4 ← readAt mem (d+4)
  let d5 ← readAt mem (d+5)
  let d7 ← readAt mem (d+7)
  let d8 ← readAt mem (d+8)
  let d10 ← readAt mem (d+10)
  let d11 ← readAt mem (d+11)
  pure (d1.toUInt64 <<< 56 ||| d2.toUInt64 <<< 48 ||| d4.toUInt64 <<< 40 |||
    d5.toUInt64 <<< 32 ||| d7.toUInt64 <<< 24 ||| d8.toUInt64 <<< 16 |||
    d10.toUInt64 <<< 8 ||| d11.toUInt64)

def statusAt (mem : Bytes) (d : ℕ) : Option Byte → Run Touch (Option Byte)
  | none => pure none
  | some _ => do
    let b ← readAt mem d
    touch (.status b)
    pure (some b)

def stampTurn (mem : Bytes) (d : ℕ) (out : SeiOut) : Run Touch (Turn ℕ (ℤ × SeiOut)) := do
  let broken ← orElse (differs mem (d+3) 0xff)
    (orElse (differs mem (d+6) 0xff) (differs mem (d+9) 0xff))
  if broken = true then pure (.leave (-ebadmsg, out))
  else do
    let status ← statusAt mem d out.status
    let utcUs ← microsAt mem d
    touch (.time utcUs)
    pure (.leave (0, ⟨out.utcUs.map (fun _ => utcUs), status⟩))

def payloadTurn (mem : Bytes) (len : ℕ) (c : Codec) (out : SeiOut) (type size : UInt32) (p : ℕ) :
    Run Touch (Turn ℕ (ℤ × SeiOut)) :=
  if len-p < size.toNat then pure (.leave (-enoent, out))
  else do
    let ours ← andAlso
      (type = UInt32.ofNat seiPayloadTypeUdu ∧ seiPayloadSize ≤ size.toNat) do
        let id ← copyAt mem p 16
        pure (id = uuid c)
    if ours = true then stampTurn mem (p+16) out else pure (.goOn (p+size.toNat))

/-- The body of the loop of `rss_sei_parse_timestamp`. -/
def messageTurn (mem : Bytes) (len : ℕ) (c : Codec) (out : SeiOut) (p : ℕ) :
    Run Touch (Turn ℕ (ℤ × SeiOut)) :=
  if p < len then do
    let stops ← stopsAt mem len p
    if stops = true then pure (.leave (-enoent, out))
    else do
      match ← codedAt mem len p with
      | none => pure (.leave (-enoent, out))
      | some (type, p) => do
        match ← codedAt mem len p with
        | none => pure (.leave (-enoent, out))
        | some (size, p) => payloadTurn mem len c out type size p
  else pure (.leave (-enoent, out))

def wrongUnit (mem : Bytes) (len : ℕ) : Codec → Run Touch Bool
  | .h264 => orElse (pure (len < 1)) do
    let b ← readAt mem 0
    pure (b &&& 0x1f ≠ 6)
  | .h265 => orElse (pure (len < 2)) do
    let b ← readAt mem 0
    pure ((b >>> 1) &&& 0x3f ≠ 39)

def tracedParseTimestamp (nal : Option Bytes) (len : ℕ) (codec : ℤ) (out : SeiOut) :
    Run Touch (ℤ × SeiOut) :=
  match nal, out.utcUs with
  | some mem, some _ => match codecOf codec with
    | none => pure (-einval, out)
    | some c => do
      let wrong ← wrongUnit mem len c
      if wrong = true then pure (-enoent, out)
      else loop (messageTurn mem len c out) (len+1) (nalHeader c).length
  | _, _ => pure (-einval, out)

variable {mem : Bytes} {len : ℕ}

theorem drop_cons {p : ℕ} (h : p < mem.length) : mem.drop p = mem.getD p 0::mem.drop (p+1) := by
  rw [List.getD_eq_getElem _ _ h]
  exact List.drop_eq_getElem_cons h

def ZerosFrom (mem : Bytes) (len q : ℕ) : Prop := ∀ i, q ≤ i → i < len → mem.getD i 0 = 0

theorem zeros_turn (q : ℕ) :
    Meets (Reads len)
      (Turn.After (fun q' => q' = q+1 ∧ q < len ∧ mem.getD q 0 = 0)
        fun r => r = q ∧ ¬(q < len ∧ mem.getD q 0 = 0))
      (zerosTurn mem len q) := by
  have hzero : Decides (Reads len) (q < len ∧ mem.getD q 0 = 0)
      (andAlso (q < len) do
        let b ← readAt mem q
        pure (b = 0)) := decides_and fun hq => by
    rw [Decides, meets_bind, meets_read, meets_pure]
    exact ⟨hq, decide_eq_true_iff⟩
  rw [zerosTurn, meets_bind]
  refine hzero.mono (fun _ he => he) fun b hb => meets_ite (fun h => ?_) fun h => ?_
  · exact (meets_pure _).mpr ⟨rfl, hb.mp h⟩
  · exact (meets_pure _).mpr ⟨rfl, fun hq => h (hb.mpr hq)⟩

theorem zeros_loop {q : ℕ} (hq : q ≤ len) :
    Meets (Reads len) (fun r => r = len ↔ ZerosFrom mem len q)
      (loop (zerosTurn mem len) (len+1) q) := by
  refine loop_meets (fun s => q ≤ s ∧ s ≤ len ∧ ∀ i, q ≤ i → i < s → mem.getD i 0 = 0)
    (fun s => len-s) ?_ ⟨Nat.le_refl q, hq, fun i hi hlt => absurd hlt (Nat.not_lt_of_le hi)⟩ (by omega)
  rintro s ⟨hqs, hs, hbefore⟩
  refine (zeros_turn s).mono (fun _ he => he) fun t ht => ?_
  cases t with
  | goOn s' =>
    obtain ⟨rfl, hlt, hzero⟩ := ht
    refine ⟨⟨by omega, hlt, fun i hi his => ?_⟩, by omega⟩
    rcases Nat.lt_or_eq_of_le (Nat.le_of_lt_succ his) with h | rfl
    · exact hbefore i hi h
    · exact hzero
  | leave r =>
    obtain ⟨rfl, hstop⟩ := ht
    constructor
    · rintro rfl
      exact hbefore
    · intro hall
      by_contra hne
      have hlt : r < len := Nat.lt_of_le_of_ne hs hne
      exact hstop ⟨hlt, hall r hqs hlt⟩

theorem stops_decides {p : ℕ} (hp : p < len) :
    Decides (Reads len) (mem.getD p 0 = 0x80 ∧ ZerosFrom mem len (p+1)) (stopsAt mem len p) := by
  rw [stopsAt, Decides, meets_bind, meets_read]
  refine ⟨hp, decides_and fun _ => ?_⟩
  rw [Decides, meets_bind]
  refine (zeros_loop hp).mono (fun _ he => he) fun q hq => ?_
  rw [meets_pure, decide_eq_true_iff]
  exact hq

theorem trailing_iff {p : ℕ} (hp : p < mem.length) :
    trailing (mem.drop p) = true ↔ mem.getD p 0 = 0x80 ∧ ZerosFrom mem mem.length (p+1) := by
  have hall : (mem.drop (p+1)).all (fun z => z = 0) = true ↔ ZerosFrom mem mem.length (p+1) := by
    simp only [List.all_eq_true, decide_eq_true_eq]
    constructor
    · intro h i hi hlt
      rw [List.getD_eq_getElem _ _ hlt]
      exact h _ (List.mem_drop_iff_getElem.mpr ⟨i-(p+1), by omega, by simp [Nat.add_sub_cancel' hi]⟩)
    · intro h z hz
      obtain ⟨i, hi, rfl⟩ := List.mem_drop_iff_getElem.mp hz
      have hlt : p+1+i < mem.length := Nat.add_comm i (p+1) ▸ hi
      have hzero := h (p+1+i) (Nat.le_add_right _ _) hlt
      rwa [List.getD_eq_getElem _ _ hlt] at hzero
  rw [drop_cons hp, trailing, Bool.and_eq_true, decide_eq_true_iff, hall]

theorem sum_turn (s : UInt32 × ℕ) :
    Meets (Reads len)
      (Turn.After (fun s' => s' = (s.1+0xff, s.2+1) ∧ s.2 < len ∧ mem.getD s.2 0 = 0xff)
        fun r => r = s ∧ ¬(s.2 < len ∧ mem.getD s.2 0 = 0xff))
      (sumTurn mem len s) := by
  have hfull : Decides (Reads len) (s.2 < len ∧ mem.getD s.2 0 = 0xff)
      (andAlso (s.2 < len) do
        let b ← readAt mem s.2
        pure (b = 0xff)) := decides_and fun hs => by
    rw [Decides, meets_bind, meets_read, meets_pure]
    exact ⟨hs, decide_eq_true_iff⟩
  rw [sumTurn, meets_bind]
  refine hfull.mono (fun _ he => he) fun b hb => meets_ite (fun h => ?_) fun h => ?_
  · exact (meets_pure _).mpr ⟨rfl, hb.mp h⟩
  · exact (meets_pure _).mpr ⟨rfl, fun hs => h (hb.mpr hs)⟩

theorem coded_at (mem : Bytes) {p : ℕ} (hp : p ≤ len) :
    Meets (Reads len)
      (fun o => (∀ x, o = some x → p < x.2 ∧ x.2 ≤ len) ∧
        (len = mem.length → readCoded 0 (mem.drop p) = o.map fun x => (x.1, mem.drop x.2)))
      (codedAt mem len p) := by
  have hloop : Meets (Reads len)
      (fun s => p ≤ s.2 ∧ s.2 ≤ len ∧ ¬(s.2 < len ∧ mem.getD s.2 0 = 0xff) ∧
        (len = mem.length → readCoded s.1 (mem.drop s.2) = readCoded 0 (mem.drop p)))
      (loop (sumTurn mem len) (len+1) (0, p)) := by
    refine loop_meets (fun s => p ≤ s.2 ∧ s.2 ≤ len ∧
        (len = mem.length → readCoded s.1 (mem.drop s.2) = readCoded 0 (mem.drop p)))
      (fun s => len-s.2) ?_ ⟨Nat.le_refl p, hp, fun _ => rfl⟩ (by omega)
    rintro s ⟨hps, hs, hread⟩
    refine (sum_turn s).mono (fun _ he => he) fun t ht => ?_
    cases t with
    | goOn s' =>
      obtain ⟨rfl, hlt, hfull⟩ := ht
      refine ⟨⟨by omega, hlt, fun hlen => ?_⟩, by omega⟩
      have hgo : readCoded s.1 (mem.drop s.2) = readCoded (s.1+0xff) (mem.drop (s.2+1)) := by
        rw [drop_cons (hlen ▸ hlt), readCoded, if_pos hfull]
      exact hgo.symm.trans (hread hlen)
    | leave r =>
      obtain ⟨rfl, hstop⟩ := ht
      exact ⟨hps, hs, hstop, hread⟩
  rw [codedAt, meets_bind]
  refine hloop.mono (fun _ he => he) fun s hs => meets_ite (fun hend => ?_) fun hend => ?_
  · obtain ⟨-, hle, -, hread⟩ := hs
    refine (meets_pure _).mpr ⟨fun x hx => (by cases hx), fun hlen => ?_⟩
    rw [← hread hlen, List.drop_eq_nil_of_le (hlen ▸ hend)]
    rfl
  · obtain ⟨hps, hle, hstop, hread⟩ := hs
    have hlt : s.2 < len := Nat.lt_of_not_le hend
    rw [meets_bind, meets_read, meets_pure]
    refine ⟨hlt, ?_, fun hlen => ?_⟩
    · rintro x ⟨⟩
      exact ⟨Nat.lt_succ_of_le hps, hlt⟩
    · rw [← hread hlen, drop_cons (hlen ▸ hlt), readCoded, if_neg fun h => hstop ⟨hlt, h⟩]
      rfl

theorem stamp_turn {d : ℕ} (out : SeiOut) (hroom : d+12 ≤ len) :
    Meets (Inside len) (Turn.After (fun _ => False) fun r => r = readStamp (mem.drop d) out)
      (stampTurn mem d out) := by
  have hbyte : ∀ i, (mem.drop d).getD i 0 = mem.getD (d+i) 0 := fun i => by
    rw [List.getD_eq_getElem?_getD, List.getD_eq_getElem?_getD, List.getElem?_drop]
  have hguard : ∀ i, i < 12 → ∀ b, Decides (Inside len) ((mem.drop d).getD i 0 ≠ b)
      (differs mem (d+i) b) := by
    intro i hi b
    rw [hbyte]
    exact differs_decides (show d+i < len by omega) b
  have hbroken := decides_or (hguard 3 (by decide) 0xff) fun _ =>
    decides_or (hguard 6 (by decide) 0xff) fun _ => hguard 9 (by decide) 0xff
  rw [stampTurn, meets_bind]
  refine hbroken.mono (fun _ he => he) fun broken hiff => meets_ite (fun h => ?_) fun h => ?_
  · refine (meets_pure _).mpr ?_
    rw [readStamp, if_pos (hiff.mp h)]
    rfl
  · have hstatus : Meets (Inside len) (fun s => s = out.status.map (fun _ => mem.getD (d+0) 0))
        (statusAt mem d out.status) := by
      cases out.status with
      | none => exact (meets_pure _).mpr rfl
      | some old =>
        rw [statusAt, meets_bind, meets_read, meets_bind, meets_touch, meets_pure]
        exact ⟨show d < len by omega, trivial, rfl⟩
    rw [meets_bind]
    refine hstatus.mono (fun _ he => he) fun status hs => ?_
    have hin : ∀ i, i < 12 → Inside len (.read (d+i)) := fun i hi => show d+i < len by omega
    simp only [microsAt, meets_bind, meets_read, meets_touch, meets_pure]
    refine ⟨hin 1 (by decide), hin 2 (by decide), hin 4 (by decide), hin 5 (by decide),
      hin 7 (by decide), hin 8 (by decide), hin 10 (by decide), hin 11 (by decide), trivial, ?_⟩
    rw [hs, readStamp, if_neg (fun hor => h (hiff.mpr hor))]
    simp only [hbyte]
    rfl

/-- The model on lists, which counts down fuel, answers `w` from a place on. -/
def Answers (mem : Bytes) (len : ℕ) (c : Codec) (out : SeiOut) (w : ℤ × SeiOut) (p : ℕ) : Prop :=
  len = mem.length → ∃ fuel, len-p ≤ fuel ∧ walkMessages c out fuel (mem.drop p) = w

theorem uuid_decides {type size : UInt32} {p : ℕ} (c : Codec) (hroom : ¬len-p < size.toNat) :
    Decides (Reads len)
      ((type = UInt32.ofNat seiPayloadTypeUdu ∧ seiPayloadSize ≤ size.toNat) ∧
        Jpeg.bytesAt p 16 mem = uuid c)
      (andAlso (type = UInt32.ofNat seiPayloadTypeUdu ∧ seiPayloadSize ≤ size.toNat) do
        let id ← copyAt mem p 16
        pure (id = uuid c)) := by
  refine decides_and fun hc => ?_
  have hsize : 28 ≤ size.toNat := hc.2
  rw [Decides, meets_bind, meets_copy, meets_pure, decide_eq_true_eq]
  exact ⟨fun i hi => show i < len by omega, Iff.rfl⟩

def payloadAnswer (c : Codec) (out : SeiOut) (fuel : ℕ) (type size : UInt32) (p : Bytes) :
    ℤ × SeiOut :=
  if p.length < size.toNat then (-enoent, out)
  else if type = UInt32.ofNat seiPayloadTypeUdu ∧ seiPayloadSize ≤ size.toNat ∧
      p.take 16 = uuid c then readStamp (p.drop 16) out
  else walkMessages c out fuel (p.drop size.toNat)

def AnswersBehind (mem : Bytes) (len : ℕ) (c : Codec) (out : SeiOut) (w : ℤ × SeiOut)
    (type size : UInt32) (p : ℕ) : Prop :=
  len = mem.length → ∃ fuel, len-p ≤ fuel ∧ payloadAnswer c out fuel type size (mem.drop p) = w

theorem behind_short {c : Codec} {out : SeiOut} {w : ℤ × SeiOut} {type size : UInt32} {p : ℕ}
    (hw : AnswersBehind mem len c out w type size p) (hshort : len-p < size.toNat)
    (hlen : len = mem.length) : (-enoent, out) = w := by
  obtain ⟨fuel, -, hwalk⟩ := hw hlen
  rwa [payloadAnswer, List.length_drop, ← hlen, if_pos hshort] at hwalk

theorem behind_long {c : Codec} {out : SeiOut} {w : ℤ × SeiOut} {type size : UInt32} {p : ℕ}
    (hw : AnswersBehind mem len c out w type size p) (hshort : ¬len-p < size.toNat)
    (hlen : len = mem.length) :
    ∃ fuel, len-p ≤ fuel ∧ (if type = UInt32.ofNat seiPayloadTypeUdu ∧
        seiPayloadSize ≤ size.toNat ∧ (mem.drop p).take 16 = uuid c
      then readStamp (mem.drop (p+16)) out
      else walkMessages c out fuel (mem.drop (p+size.toNat))) = w := by
  obtain ⟨fuel, hfuel, hwalk⟩ := hw hlen
  rw [payloadAnswer, List.length_drop, ← hlen, if_neg hshort, List.drop_drop,
    List.drop_drop] at hwalk
  exact ⟨fuel, hfuel, hwalk⟩

theorem payload_turn {c : Codec} {out : SeiOut} {w : ℤ × SeiOut} {type size : UInt32} {p : ℕ}
    (hw : AnswersBehind mem len c out w type size p) :
    Meets (Inside len)
      (Turn.After (fun p' => Answers mem len c out w p' ∧ p ≤ p') fun r => len = mem.length → r = w)
      (payloadTurn mem len c out type size p) := by
  refine meets_ite (fun hshort => (meets_pure _).mpr (behind_short hw hshort)) fun hshort => ?_
  rw [meets_bind]
  refine (uuid_decides c hshort).mono reads_inside fun ours hours =>
    meets_ite (fun h => ?_) fun h => ?_
  · obtain ⟨⟨htype, hsize⟩, hid⟩ := hours.mp h
    have h28 : 28 ≤ size.toNat := hsize
    refine (stamp_turn out (by omega)).mono (fun _ he => he) fun t ht => ?_
    cases t with
    | goOn p' => exact ht.elim
    | leave r =>
      intro hlen
      obtain ⟨fuel, -, hwalk⟩ := behind_long hw hshort hlen
      rw [if_pos ⟨htype, hsize, hid⟩] at hwalk
      exact ht.trans hwalk
  · refine (meets_pure _).mpr ⟨fun hlen => ?_, Nat.le_add_right p _⟩
    obtain ⟨fuel, hfuel, hwalk⟩ := behind_long hw hshort hlen
    rw [if_neg fun hall => h (hours.mpr ⟨⟨hall.1, hall.2.1⟩, hall.2.2⟩)] at hwalk
    exact ⟨fuel, by omega, hwalk⟩

theorem answers_turn {c : Codec} {out : SeiOut} {w : ℤ × SeiOut} {p : ℕ}
    (hw : Answers mem len c out w p) (hp : p < len) (hlen : len = mem.length) :
    ∃ fuel, len-p ≤ fuel+1 ∧ walkMessages c out (fuel+1) (mem.drop p) = w := by
  obtain ⟨fuel, hfuel, hwalk⟩ := hw hlen
  obtain ⟨k, rfl⟩ := Nat.exists_eq_succ_of_ne_zero (show fuel ≠ 0 by omega)
  exact ⟨k, hfuel, hwalk⟩

theorem answers_end {c : Codec} {out : SeiOut} {w : ℤ × SeiOut} {p : ℕ}
    (hw : Answers mem len c out w p) (hp : ¬p < len) (hlen : len = mem.length) :
    (-enoent, out) = w := by
  obtain ⟨fuel, -, hwalk⟩ := hw hlen
  rw [List.drop_eq_nil_of_le (hlen ▸ Nat.le_of_not_lt hp)] at hwalk
  cases fuel with
  | zero => exact hwalk
  | succ fuel => rwa [walkMessages, if_pos (.inl rfl)] at hwalk

theorem message_turn {c : Codec} {out : SeiOut} {w : ℤ × SeiOut} {p : ℕ}
    (hw : Answers mem len c out w p) :
    Meets (Inside len)
      (Turn.After (fun p' => Answers mem len c out w p' ∧ len-p' < len-p)
        fun r => len = mem.length → r = w)
      (messageTurn mem len c out p) := by
  refine meets_ite (fun hp => ?_) fun hp => (meets_pure _).mpr (answers_end hw hp)
  rw [meets_bind]
  refine (stops_decides hp).mono reads_inside fun stops hstops =>
    meets_ite (fun h => ?_) fun h => ?_
  · refine (meets_pure _).mpr fun hlen => ?_
    obtain ⟨fuel, -, hwalk⟩ := answers_turn hw hp hlen
    subst hlen
    rw [← hwalk, walkMessages, if_pos (.inr ((trailing_iff hp).mpr (hstops.mp h)))]
  have hmore : len = mem.length → ¬(mem.drop p = [] ∨ trailing (mem.drop p) = true) := by
    rintro rfl (hnil | htrail)
    · exact absurd (List.drop_eq_nil_iff.mp hnil) (Nat.not_le_of_lt hp)
    · exact h (hstops.mpr ((trailing_iff hp).mp htrail))
  rw [meets_bind]
  refine (coded_at mem (Nat.le_of_lt hp)).mono reads_inside fun o ho => ?_
  cases o with
  | none =>
    refine (meets_pure _).mpr fun hlen => ?_
    obtain ⟨fuel, -, hwalk⟩ := answers_turn hw hp hlen
    rw [← hwalk, walkMessages, if_neg (hmore hlen), ho.2 hlen]
    rfl
  | some x =>
    obtain ⟨type, p1⟩ := x
    obtain ⟨hp1, hle1⟩ := ho.1 _ rfl
    rw [meets_bind]
    refine (coded_at mem hle1).mono reads_inside fun o ho' => ?_
    cases o with
    | none =>
      refine (meets_pure _).mpr fun hlen => ?_
      obtain ⟨fuel, -, hwalk⟩ := answers_turn hw hp hlen
      rw [← hwalk, walkMessages, if_neg (hmore hlen), ho.2 hlen]
      simp only [Option.map_some, ho'.2 hlen]
      rfl
    | some x =>
      obtain ⟨size, p2⟩ := x
      obtain ⟨hp2, hle2⟩ := ho'.1 _ rfl
      have hbehind : AnswersBehind mem len c out w type size p2 := by
        intro hlen
        obtain ⟨fuel, hfuel, hwalk⟩ := answers_turn hw hp hlen
        rw [walkMessages, if_neg (hmore hlen), ho.2 hlen] at hwalk
        simp only [Option.map_some, ho'.2 hlen] at hwalk
        exact ⟨fuel, by omega, hwalk⟩
      refine (payload_turn hbehind).mono (fun _ he => he) fun t ht => ?_
      cases t with
      | leave r => exact ht
      | goOn p' =>
        obtain ⟨hans, hle⟩ := ht
        exact ⟨hans, by omega⟩

theorem wrong_unit (c : Codec) :
    Meets (Reads len)
      (fun wrong => (wrong = false → (nalHeader c).length ≤ len) ∧
        (len = mem.length → (wrong = true ↔ ¬isSei c mem = true)))
      (wrongUnit mem len c) := by
  cases c with
  | h264 =>
    have hdec : Decides (Reads len) (len < 1 ∨ mem.getD 0 0 &&& 0x1f ≠ 6)
        (wrongUnit mem len .h264) := by
      refine decides_or ((meets_pure _).mpr decide_eq_true_iff) fun hlen => ?_
      rw [Decides, meets_bind, meets_read, meets_pure]
      exact ⟨Nat.le_of_not_lt hlen, decide_eq_true_iff⟩
    refine hdec.mono (fun _ he => he) fun wrong hiff => ⟨fun hw => ?_, fun hlen => hiff.trans ?_⟩
    · exact Nat.le_of_not_lt fun hlt => Bool.false_ne_true (hw.symm.trans (hiff.mpr (.inl hlt)))
    · subst hlen
      cases mem with
      | nil => exact iff_of_true (.inl Nat.zero_lt_one) Bool.false_ne_true
      | cons b rest => simp [isSei]
  | h265 =>
    have hdec : Decides (Reads len) (len < 2 ∨ (mem.getD 0 0 >>> 1) &&& 0x3f ≠ 39)
        (wrongUnit mem len .h265) := by
      refine decides_or ((meets_pure _).mpr decide_eq_true_iff) fun hlen => ?_
      rw [Decides, meets_bind, meets_read, meets_pure]
      exact ⟨show 0 < len by omega, decide_eq_true_iff⟩
    refine hdec.mono (fun _ he => he) fun wrong hiff => ⟨fun hw => ?_, fun hlen => hiff.trans ?_⟩
    · exact Nat.le_of_not_lt fun hlt => Bool.false_ne_true (hw.symm.trans (hiff.mpr (.inl hlt)))
    · subst hlen
      rcases mem with - | ⟨b, - | ⟨b', rest⟩⟩
      · exact iff_of_true (.inl Nat.zero_lt_two) Bool.false_ne_true
      · exact iff_of_true (.inl Nat.one_lt_two) Bool.false_ne_true
      · simp [isSei]

theorem parse_timestamp (nal : Option Bytes) (len : ℕ) (codec : ℤ) (out : SeiOut) :
    Meets (Inside len)
      (fun r => (∀ mem, nal = some mem → len = mem.length) → r = rssSeiParseTimestamp nal codec out)
      (tracedParseTimestamp nal len codec out) := by
  unfold tracedParseTimestamp rssSeiParseTimestamp
  cases nal with
  | none => exact (meets_pure _).mpr fun _ => rfl
  | some mem =>
    cases out.utcUs with
    | none => exact (meets_pure _).mpr fun _ => rfl
    | some old =>
      dsimp only
      cases codecOf codec with
      | none => exact (meets_pure _).mpr fun _ => rfl
      | some c =>
        rw [meets_bind]
        refine (wrong_unit c).mono reads_inside fun wrong hwrong =>
          meets_ite (fun h => ?_) fun h => ?_
        · refine (meets_pure _).mpr fun hmem => ?_
          exact (if_neg ((hwrong.2 (hmem mem rfl)).mp h)).symm
        · have hhead := hwrong.1 (Bool.eq_false_of_not_eq_true h)
          have hloop : Meets (Inside len)
              (fun r => len = mem.length →
                r = walkMessages c out (mem.drop (nalHeader c).length).length
                  (mem.drop (nalHeader c).length))
              (loop (messageTurn mem len c out) (len+1) (nalHeader c).length) := by
            refine loop_meets (Answers mem len c out _) (fun p => len-p)
              (fun p hp => message_turn hp) (fun hlen => ⟨_, ?_, rfl⟩) (by omega)
            rw [List.length_drop, hlen]
          refine hloop.mono (fun _ he => he) fun r hr hmem => ?_
          have hunit : isSei c mem = true := by
            by_contra hno
            exact h ((hwrong.2 (hmem mem rfl)).mpr hno)
          exact (hr (hmem mem rfl)).trans (if_pos hunit).symm

theorem stamp_turn_marks (d : ℕ) (out : SeiOut) (utcUs : UInt64) :
    Marks (.time utcUs) (Turn.After (fun _ => False) fun r => r.1 = 0) (stampTurn mem d out) := by
  have hdiffers : ∀ i b, Touch.time utcUs ∉ (differs mem i b).touched :=
    differs_unmarked mem fun _ => Touch.noConfusion
  have hread : ∀ i, Touch.time utcUs ∉ (readAt mem i).touched :=
    read_unmarked mem fun _ => Touch.noConfusion
  refine marks_bind (unmarked_or (hdiffers _ _) (unmarked_or (hdiffers _ _) (hdiffers _ _)))
    fun broken _ => marks_ite (fun _ => marks_pure _) fun _ => ?_
  have hstatus : Touch.time utcUs ∉ (statusAt mem d out.status).touched := by
    cases out.status with
    | none => exact List.not_mem_nil
    | some old => exact unmarked_bind (hread d) fun b => by simp [touch, bind, followed, pure, ended]
  refine marks_bind hstatus fun status _ => ?_
  apply Meets.marks (P := fun _ => True)
  simp only [microsAt, meets_bind, meets_read, meets_touch, meets_pure, true_and]
  rfl

theorem payload_turn_marks (c : Codec) (out : SeiOut) {type size : UInt32} (p : ℕ)
    (utcUs : UInt64) :
    Marks (.time utcUs) (Turn.After (fun _ => False) fun r => r.1 = 0)
      (payloadTurn mem len c out type size p) := by
  have hcopy : ∀ pos count, Touch.time utcUs ∉ (copyAt mem pos count).touched :=
    copy_unmarked mem fun _ => Touch.noConfusion
  refine marks_ite (fun _ => marks_pure _) fun _ => marks_bind ?_ fun ours _ =>
    marks_ite (fun _ => stamp_turn_marks _ out utcUs) fun _ => marks_pure _
  exact unmarked_and (unmarked_bind (hcopy _ _) fun id => List.not_mem_nil)

theorem message_turn_marks (c : Codec) (out : SeiOut) (p : ℕ) (utcUs : UInt64) :
    Marks (.time utcUs) (Turn.After (fun _ => False) fun r => r.1 = 0)
      (messageTurn mem len c out p) := by
  refine marks_ite (fun hp => ?_) fun _ => marks_pure _
  refine marks_bind ((stops_decides hp).unmarked id) fun stops _ =>
    marks_ite (fun _ => marks_pure _) fun _ => ?_
  have hcoded := coded_at mem (Nat.le_of_lt hp)
  refine marks_bind (hcoded.unmarked id) fun o ho => ?_
  cases o with
  | none => exact marks_pure _
  | some x =>
    have hcoded' := coded_at mem ((hcoded.post ho).1 x rfl).2
    refine marks_bind (hcoded'.unmarked id) fun o' _ => ?_
    cases o' with
    | none => exact marks_pure _
    | some y => exact payload_turn_marks c out y.2 utcUs

theorem parse_timestamp_marks (nal : Option Bytes) (len : ℕ) (codec : ℤ) (out : SeiOut)
    (utcUs : UInt64) :
    Marks (.time utcUs) (fun r => r.1 = 0) (tracedParseTimestamp nal len codec out) := by
  unfold tracedParseTimestamp
  cases nal with
  | none => exact marks_pure _
  | some mem =>
    cases out.utcUs with
    | none => exact marks_pure _
    | some old =>
      dsimp only
      cases codecOf codec with
      | none => exact marks_pure _
      | some c =>
        refine marks_bind ((wrong_unit c).unmarked id) fun wrong _ =>
          marks_ite (fun _ => marks_pure _) fun _ => ?_
        exact loop_marks (fun p => message_turn_marks c out p utcUs) (len+1) _

end Sei

/-- The run ends, reads below the length, and stores a time only when it
returns 0. -/
structure Contained {α : Type} (code : α → ℤ) (len : ℕ) (t : Run Touch α) : Prop where
  ends : ∃ r, t.value = some r
  reads : ∀ i, .read i ∈ t.touched → i < len
  stores : ∀ utcUs, .time utcUs ∈ t.touched → ∃ r, t.value = some r ∧ code r = 0

theorem contained_of {α : Type} {code : α → ℤ} {len : ℕ} {t : Run Touch α} {Q : α → Prop}
    (hmeets : Meets (Inside len) Q t)
    (hmarks : ∀ utcUs, Marks (.time utcUs) (fun r => code r = 0) t) : Contained code len t where
  ends := by
    obtain ⟨r, hr, -⟩ := hmeets.2
    exact ⟨r, hr⟩
  reads i hi := hmeets.1 _ hi
  stores := hmarks

theorem untrusted_walks_contained (buf nal : Option Bytes) (jpegLen seiLen : ℕ) (place : Bool)
    (codec : ℤ) (out : Sei.SeiOut) :
    Contained returned jpegLen (tracedGetExifTime buf jpegLen place) ∧
      Contained Prod.fst seiLen (tracedParseTimestamp nal seiLen codec out) := by
  constructor
  · exact contained_of (get_exif_time buf jpegLen place) (get_exif_time_marks buf jpegLen place)
  · exact contained_of (parse_timestamp nal seiLen codec out)
      (parse_timestamp_marks nal seiLen codec out)

end RaptorCommon.UntrustedReads
