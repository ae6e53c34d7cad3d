import RaptorCommon.JpegChain
import RaptorCommon.TimePrint

/-!
# The capture time of a snapshot

The writer puts one segment of a fixed layout behind the start marker, with the
time as text in two fields. The reader takes the first segment of that layout,
so the time inserted last is the one it finds.
-/

set_option autoImplicit false

namespace RaptorCommon.JpegDate
open RaptorCommon.CText RaptorCommon.TimeText RaptorCommon.TimePrint RaptorCommon.Jpeg
open RaptorCommon.JpegSeal RaptorCommon.JpegChain

section Writing

def exifSegment : ℕ := 4+exifPayload

def put16le (v : UInt16) : Bytes := [v.toUInt8, (v >>> 8).toUInt8]

def put32le (v : UInt32) : Bytes :=
  [v.toUInt8, (v >>> 8).toUInt8, (v >>> 16).toUInt8, (v >>> 24).toUInt8]

def tiffEntry (tag type : UInt16) (count value : UInt32) : Bytes :=
  put16le tag ++ put16le type ++ put32le count ++ put32le value

def valueArea : UInt32 := 26+2+3*12+4

/-- The header, IFD0 with the pointer to the Exif IFD, and that IFD. -/
def tiffHead : Bytes :=
  ascii "II" ++ put16le 0x002a ++ put32le 8 ++
    put16le 1 ++ tiffEntry 0x8769 4 1 (8+2+12+4) ++ put32le 0 ++
    put16le 3 ++ tiffEntry 0x9003 2 20 valueArea ++ tiffEntry 0x9011 2 7 (valueArea+20) ++
    tiffEntry 0x9291 2 7 (valueArea+27) ++ put32le 0

/-- The array `dt` behind `strftime`, which leaves it as it was where the text
does not fit. -/
def dateArray (before : Vector UInt8 21) (tm : Tm) : Bytes :=
  if (dateText tm).length+1 ≤ 21 then
    dateText tm ++ [0] ++ before.toList.drop ((dateText tm).length+1)
  else before.toList

def microsArray (utcUs : UInt64) : Bytes := padded 6 (utcUs.toNat%1000000) ++ [0]

def exifLayout (before : Vector UInt8 21) (utcUs : UInt64) : Bytes :=
  tiffHead ++ (dateArray before (gmtime (utcUs.toNat/1000000))).take 20 ++
    (ascii "+00:00" ++ [0]) ++ (microsArray utcUs).take 7

def exifBytes (before : Vector UInt8 21) (utcUs : UInt64) : Bytes :=
  [0xff, 0xe1, ((exifPayload+2)/256).toUInt8, (exifPayload+2).toUInt8] ++ exifIdentifier ++
    exifLayout before utcUs

/-- `rss_jpeg_insert_exif` in a buffer that holds an image of `len` bytes;
`before` is what its array held. -/
def rssJpegInsertExif (before : Vector UInt8 21) (mem : Bytes) (len : ℕ) (utcUs : UInt64) :
    Except Errno ℤ × Bytes :=
  if len < 4 ∨ mem.getD 0 0 ≠ 0xff ∨ mem.getD 1 0 ≠ 0xd8 then (.error .einval, mem)
  else if mem.length < len+exifSegment then (.error .enospc, mem)
  else (.ok (intOf (len+exifSegment)),
    writeAt 2 (exifBytes before utcUs) (writeAt (2+exifSegment) (bytesAt 2 (len-2) mem) mem))

end Writing

section Layout

variable {before : Vector UInt8 21} {utcUs : UInt64}

theorem date_array_length (tm : Tm) : (dateArray before tm).length = 21 := by
  unfold dateArray
  split
  · simp only [List.length_append, List.length_drop, Vector.length_toList, List.length_singleton]
    omega
  · exact Vector.length_toList

theorem micros_array_length : (microsArray utcUs).length = 7 := by
  have hlt : utcUs.toNat%1000000 < 10^6 := Nat.mod_lt _ (by decide)
  rw [microsArray, padded_fits (by decide) hlt, List.length_append, last_digits_length]
  rfl

theorem exif_bytes_length : (exifBytes before utcUs).length = exifSegment := by
  have hhead : tiffHead.length = 68 := rfl
  have hid : exifIdentifier.length = 6 := rfl
  have hoffset : (ascii "+00:00" ++ [0]).length = 7 := rfl
  have hsegment : exifSegment = 112 := rfl
  simp only [exifBytes, exifLayout, List.length_append, List.length_take, date_array_length,
    micros_array_length, hhead, hid, hsegment] at hoffset ⊢
  rw [hoffset]
  rfl

theorem insert_image {body rest : Bytes} (hbody : 2 ≤ body.length)
    (hcap : exifSegment ≤ rest.length) :
    rssJpegInsertExif before (soi ++ body ++ rest) (body.length+2) utcUs =
      (.ok (intOf (body.length+2+exifSegment)),
        soi ++ exifBytes before utcUs ++ body ++ rest.drop exifSegment) := by
  have hS : exifSegment = 112 := rfl
  have hsoi : soi.length = 2 := rfl
  have hlen : (soi ++ body ++ rest).length = body.length+2+rest.length := by
    simp only [List.length_append, hsoi]
    omega
  have hmoved : writeAt (2+exifSegment) body (soi ++ body ++ rest) =
      (soi ++ body ++ rest).take 114 ++ body ++ rest.drop exifSegment := by
    have hdrop : (soi ++ body ++ rest).drop (2+exifSegment+body.length) = rest.drop exifSegment := by
      have hpre : (soi ++ body).length = 2+body.length := List.length_append
      rw [List.drop_append, List.drop_eq_nil_of_le (by omega), List.nil_append, hpre]
      congr 1
      omega
    rw [writeAt, hdrop]
    rfl
  have hfront : ((soi ++ body ++ rest).take 114).length = 114 :=
    List.length_take_of_le (by omega)
  have hkept : (soi ++ body ++ rest).take 114 = soi ++ ((body ++ rest).take 112) := by
    rw [List.append_assoc]
    rfl
  have hmid : bytesAt 2 (body.length+2-2) (soi ++ body ++ rest) = body := bytes_mid soi body rest
  rw [rssJpegInsertExif, if_neg, if_neg]
  · rw [hmid, hmoved]
    have hdrop : ((soi ++ body ++ rest).take 114 ++ body ++ rest.drop exifSegment).drop 114 =
        body ++ rest.drop exifSegment := by
      rw [List.append_assoc]
      exact List.drop_left' hfront
    have htake : ((soi ++ body ++ rest).take 114 ++ body ++ rest.drop exifSegment).take 2 = soi := by
      rw [hkept]
      rfl
    rw [writeAt, exif_bytes_length, htake, hS, show 2+112 = 114 from rfl, ← hS, hdrop,
      List.append_assoc (soi ++ exifBytes before utcUs)]
  · omega
  · simp [soi]
    omega

theorem date_text_fields {year mon mday hour min sec : ℕ} (hy : 1000 ≤ year ∧ year < 10000)
    (hmon : mon < 100) (hday : mday < 100) (hhour : hour < 100) (hmin : min < 100)
    (hsec : sec < 100) :
    dateText ⟨(year : ℤ)-1900, (mon : ℤ)-1, mday, hour, min, sec⟩ =
      lastDigits 4 year ++ 58::(lastDigits 2 mon ++ 58::(lastDigits 2 mday ++ 32::(lastDigits 2 hour
        ++ 58::(lastDigits 2 min ++ 58::lastDigits 2 sec)))) := by
  have hyear : ((year : ℤ)-1900+1900).toNat = year := by omega
  have hmonth : ((mon : ℤ)-1+1).toNat = mon := by omega
  unfold dateText
  dsimp only
  rw [hyear, hmonth, Int.toNat_natCast, Int.toNat_natCast, Int.toNat_natCast, Int.toNat_natCast,
    padded_year hy, padded_fits (by decide) hmon, padded_fits (by decide) hday,
    padded_fits (by decide) hhour, padded_fits (by decide) hmin, padded_fits (by decide) hsec]
  simp only [List.append_assoc, List.cons_append, List.nil_append]

theorem scan_date {year mon mday hour min sec : ℕ} (hy : year < 10000)
    (hmon : mon < 100) (hday : mday < 100) (hhour : hour < 100) (hmin : min < 100)
    (hsec : sec < 100) :
    scan dateFormat (lastDigits 4 year ++ 58::(lastDigits 2 mon ++ 58::(lastDigits 2 mday ++
        32::(lastDigits 2 hour ++ 58::(lastDigits 2 min ++ 58::lastDigits 2 sec))))) =
      [(year : ℤ), mon, mday, hour, min, sec] := by
  have htwo : ∀ {n : ℕ}, n < 100 → ∀ rest, scanInt 2 (lastDigits 2 n ++ rest) = some (↑n, rest) :=
    fun h rest => scan_number (by decide) h rest
  have hlast := htwo hsec []
  rw [List.append_nil] at hlast
  have hblank : ∀ rest, (32::(lastDigits 2 hour ++ rest)).dropWhile isSpace =
      lastDigits 2 hour ++ rest := fun rest => digits_kept (by decide) hour rest
  have hfour : ∀ rest, scanInt 4 (lastDigits 4 year ++ rest) = some (↑year, rest) :=
    fun rest => scan_number (by decide) hy rest
  simp only [dateFormat, scan, hfour, htwo hmon, htwo hday,
    htwo hhour, htwo hmin, hlast, hblank, if_true]

theorem digits_nonzero (width n : ℕ) : ∀ c ∈ lastDigits width n, c ≠ 0 := by
  rintro c hc rfl
  exact absurd (last_digits_digits width n 0 hc) (by decide)

theorem chars_terminated {text : Bytes} (hzero : ∀ c ∈ text, c ≠ 0) :
    (CString.at (text ++ [0])).chars = text := by
  have hchars : ∀ s, (CString.at s).chars = s.takeWhile (fun c => c ≠ 0) := fun _ => rfl
  rw [hchars, List.takeWhile_append_of_pos (by simpa using hzero)]
  exact List.append_nil text

theorem date_field {text : Bytes} (hlen : text.length = 19) (hzero : ∀ c ∈ text, c ≠ 0)
    (tm : Tm) (htext : dateText tm = text) :
    (CString.at ((dateArray before tm).take 20)).chars = text := by
  have harray : (dateArray before tm).take 20 = text ++ [0] := by
    rw [dateArray, htext, if_pos (by omega)]
    exact List.take_left' (by rw [List.length_append, hlen]; rfl)
  rw [harray, chars_terminated hzero]

theorem micros_field (utcUs : UInt64) :
    (scanMicros ((microsArray utcUs).take 7)).toNat = utcUs.toNat%1000000 := by
  have hlt : utcUs.toNat%1000000 < 10^6 := Nat.mod_lt _ (by decide)
  have hpadded : padded 6 (utcUs.toNat%1000000) = lastDigits 6 (utcUs.toNat%1000000) :=
    padded_fits (by decide) hlt
  have hchars : (CString.at ((microsArray utcUs).take 7)).chars =
      lastDigits 6 (utcUs.toNat%1000000) := by
    rw [microsArray, hpadded, List.take_of_length_le (by simp), chars_terminated (digits_nonzero 6 _)]
  have hscan : scanInt 6 (lastDigits 6 (utcUs.toNat%1000000) ++ []) = _ :=
    scan_number (by decide) hlt []
  rw [List.append_nil] at hscan
  rw [scanMicros, hchars, hscan]
  show (UInt32.ofNat ((((utcUs.toNat%1000000 : ℕ) : ℤ)%2^32).toNat)).toNat = _
  rw [UInt32.toNat_ofNat']
  omega

theorem date_text_scanned {seconds : ℕ} (h : seconds < 253402300800) :
    (dateText (gmtime seconds)).length = 19 ∧ (∀ c ∈ dateText (gmtime seconds), c ≠ 0) ∧
      ∃ year mon mday hour min sec, scan dateFormat (dateText (gmtime seconds)) =
          [year, mon, mday, hour, min, sec] ∧
        timegm ⟨year-1900, mon-1, mday, hour, min, sec⟩ = seconds := by
  have hseconds := timegm_gmtime seconds
  obtain ⟨year, mon, mday, hour, min, sec, hy, hmon, hday, hhour, hmin, hsec, htm⟩ :=
    gmtime_fields h
  rw [htm] at hseconds ⊢
  rw [date_text_fields hy hmon hday hhour hmin hsec]
  refine ⟨?_, ?_, year, mon, mday, hour, min, sec,
    scan_date hy.2 hmon hday hhour hmin hsec, hseconds⟩
  · simp only [List.length_append, List.length_cons, last_digits_length]
  · have hz := digits_nonzero
    simp only [List.mem_append, List.mem_cons]
    rintro c (hc | rfl | hc | rfl | hc | rfl | hc | rfl | hc | rfl | hc)
    all_goals first | exact hz _ _ c hc | decide

theorem field_bytes {head date offset sub : Bytes} (hhead : head.length = 68)
    (hdate : date.length = 20) (hoffset : offset.length = 7) (hsub : sub.length = 7)
    (tail : Bytes) :
    bytesAt 68 20 (head ++ date ++ offset ++ sub ++ tail) = date ∧
      bytesAt 95 7 (head ++ date ++ offset ++ sub ++ tail) = sub := by
  constructor
  · have hmid := bytes_mid head date (offset ++ sub ++ tail)
    rw [hhead, hdate] at hmid
    simpa only [List.append_assoc] using hmid
  · have hmid := bytes_mid (head ++ date ++ offset) sub tail
    have hpre : (head ++ date ++ offset).length = 95 := by
      rw [List.length_append, List.length_append, hhead, hdate, hoffset]
    rwa [hpre, hsub] at hmid

theorem joined_micros {utcUs : UInt64} {sub : UInt32} (hsub : sub.toNat = utcUs.toNat%1000000) :
    UInt64.ofInt ((utcUs.toNat/1000000 : ℕ) : ℤ)*1000000+sub.toUInt64 = utcUs := by
  have hlt := utcUs.toNat_lt
  have hof : (UInt64.ofInt ((utcUs.toNat/1000000 : ℕ) : ℤ)).toNat = utcUs.toNat/1000000 := by
    rw [UInt64.ofInt, UInt64.toNat_ofNat']
    omega
  have hmillion : (1000000 : UInt64).toNat = 1000000 := rfl
  apply UInt64.toNat.inj
  rw [UInt64.toNat_add, UInt64.toNat_mul, UInt32.toNat_toUInt64, hsub, hof, hmillion]
  omega

/-- The fields of the layout give the time that was written. -/
theorem exif_fields_written {head offset : Bytes} (hhead : head.length = 68)
    (hoffset : offset.length = 7) (h : utcUs.toNat < 253402300800*1000000) (tail : Bytes) :
    exifFields (head ++ (dateArray before (gmtime (utcUs.toNat/1000000))).take 20 ++ offset ++
      (microsArray utcUs).take 7 ++ tail) = .ok utcUs := by
  have hdate : ((dateArray before (gmtime (utcUs.toNat/1000000))).take 20).length = 20 :=
    List.length_take_of_le (by rw [date_array_length]; decide)
  have hmicros : ((microsArray utcUs).take 7).length = 7 :=
    List.length_take_of_le (by rw [micros_array_length])
  obtain ⟨hfirst, hsecond⟩ := field_bytes hhead hdate hoffset hmicros tail
  obtain ⟨hlen, hzero, year, mon, mday, hour, min, sec, hscan, hseconds⟩ :=
    date_text_scanned (show utcUs.toNat/1000000 < 253402300800 by omega)
  have hchars : (CString.at ((dateArray before (gmtime (utcUs.toNat/1000000))).take 20)).chars =
      dateText (gmtime (utcUs.toNat/1000000)) := date_field hlen hzero _ rfl
  rw [exifFields, hfirst, hsecond, hchars, hscan]
  dsimp only
  rw [hseconds, if_neg (by omega), joined_micros (micros_field utcUs)]

theorem get_inserted (h : utcUs.toNat < 253402300800*1000000) (tail : Bytes) :
    rssJpegGetExifTime (soi ++ exifBytes before utcUs ++ tail) = .ok utcUs := by
  have hid : exifIdentifier.length = 6 := rfl
  have hfront : soi ++ exifBytes before utcUs ++ tail =
      [0xff, 0xd8, 0xff, 0xe1, 0, 110] ++ exifIdentifier ++ (exifLayout before utcUs ++ tail) := by
    simp only [exifBytes, List.append_assoc]
    rfl
  have hlen : 114 ≤ (soi ++ exifBytes before utcUs ++ tail).length := by
    rw [List.length_append, List.length_append, exif_bytes_length]
    show 114 ≤ 2+112+tail.length
    omega
  have hbyte : ∀ i < 6, (soi ++ exifBytes before utcUs ++ tail).getD i 0 =
      ([0xff, 0xd8, 0xff, 0xe1, 0, 110] : Bytes).getD i 0 := by
    intro i hi
    rw [hfront, List.append_assoc]
    exact List.getD_append _ _ _ _ hi
  have hlength : lengthAt (soi ++ exifBytes before utcUs ++ tail) 2 = 110 := by
    rw [lengthAt, hbyte _ (by decide), hbyte _ (by decide)]
    rfl
  have hheader : Header (soi ++ exifBytes before utcUs ++ tail) 2 := by
    refine ⟨by omega, ?_, ?_, by omega⟩
    · rw [hbyte _ (by decide)]
      rfl
    · rw [hbyte _ (by decide)]
      decide
  have hexif : IsExif (soi ++ exifBytes before utcUs ++ tail) 2 := by
    refine ⟨?_, by rw [hlength]; decide, ?_⟩
    · rw [hbyte _ (by decide)]
      rfl
    · rw [hfront]
      exact bytes_mid [0xff, 0xd8, 0xff, 0xe1, 0, 110] exifIdentifier _
  have hbody : (soi ++ exifBytes before utcUs ++ tail).drop (2+10) =
      exifLayout before utcUs ++ tail := by
    rw [hfront]
    exact List.drop_left' rfl
  rw [rssJpegGetExifTime, if_neg, walk_found hheader hexif, hbody]
  · exact exif_fields_written rfl rfl h tail
  · rw [hbyte _ (by decide), hbyte _ (by decide)]
    rintro (hshort | hlead | hsecond)
    · omega
    · exact hlead rfl
    · exact hsecond rfl

end Layout

section Images

variable {before : Vector UInt8 21} {mem : Bytes} {len : ℕ} {utcUs : UInt64}

structure Roomy (mem : Bytes) (len : ℕ) : Prop where
  lead : mem.getD 0 0 = 0xff
  second : mem.getD 1 0 = 0xd8
  least : 4 ≤ len
  room : len+exifSegment ≤ mem.length

/-- Inserting answers the new length and puts the time behind the start marker
of the image, which it leaves as it is otherwise; the time inserted last is the
one found. -/
structure Dated (before : Vector UInt8 21) (mem : Bytes) (len : ℕ) (utcUs : UInt64) : Prop where
  returned : (rssJpegInsertExif before mem len utcUs).1 = .ok ((len : ℤ)+112)
  size : (rssJpegInsertExif before mem len utcUs).2.length = mem.length
  start : ∀ i < 2, (rssJpegInsertExif before mem len utcUs).2.getD i 0 = mem.getD i 0
  moved : ∀ i, 2 ≤ i → i < len →
    (rssJpegInsertExif before mem len utcUs).2.getD (i+112) 0 = mem.getD i 0
  time : rssJpegGetExifTime ((rssJpegInsertExif before mem len utcUs).2.take (len+112)) = .ok utcUs
  again : ∀ (before' : Vector UInt8 21) (later : UInt64), later.toNat < 253402300800*1000000 →
    len+112+112 ≤ mem.length →
    rssJpegGetExifTime ((rssJpegInsertExif before' (rssJpegInsertExif before mem len utcUs).2
      (len+112) later).2.take (len+112+112)) = .ok later

theorem roomy_split (h : Roomy mem len) :
    ∃ body rest, mem = soi ++ body ++ rest ∧ body.length+2 = len ∧ exifSegment ≤ rest.length := by
  obtain ⟨hlead, hsecond, hleast, hroom⟩ := h
  rcases mem with - | ⟨b, - | ⟨b', more⟩⟩
  · exact absurd hroom (by simp; omega)
  · exact absurd hroom (by simp; omega)
  · obtain rfl : b = 0xff := hlead
    obtain rfl : b' = 0xd8 := hsecond
    rw [List.length_cons, List.length_cons] at hroom
    have htake : (more.take (len-2)).length = len-2 := List.length_take_of_le (by omega)
    refine ⟨more.take (len-2), more.drop (len-2), ?_, by omega, ?_⟩
    · rw [List.append_assoc, List.take_append_drop]
      rfl
    · rw [List.length_drop]
      omega

theorem inserted_length {body rest : Bytes} (hcap : exifSegment ≤ rest.length) :
    (soi ++ exifBytes before utcUs ++ body ++ rest.drop exifSegment).length =
      (soi ++ body ++ rest).length := by
  simp only [List.length_append, exif_bytes_length, List.length_drop]
  omega

theorem insert_roomy (h : Roomy mem len) (before : Vector UInt8 21) (utcUs : UInt64) :
    ∃ body rest, mem = soi ++ body ++ rest ∧ body.length+2 = len ∧ exifSegment ≤ rest.length ∧
      rssJpegInsertExif before mem len utcUs = (.ok (intOf (len+exifSegment)),
        soi ++ exifBytes before utcUs ++ body ++ rest.drop exifSegment) := by
  obtain ⟨body, rest, rfl, rfl, hcap⟩ := roomy_split h
  have hleast := h.least
  exact ⟨body, rest, rfl, rfl, hcap, insert_image (by omega) hcap⟩

theorem insert_time (h : Roomy mem len) (before : Vector UInt8 21)
    (hutc : utcUs.toNat < 253402300800*1000000) :
    rssJpegGetExifTime ((rssJpegInsertExif before mem len utcUs).2.take (len+112)) = .ok utcUs := by
  obtain ⟨body, rest, -, hlen, -, hrun⟩ := insert_roomy h before utcUs
  have htake : (soi ++ exifBytes before utcUs ++ body ++ rest.drop exifSegment).take (len+112) =
      soi ++ exifBytes before utcUs ++ body := by
    apply List.take_left'
    rw [List.length_append, List.length_append, exif_bytes_length]
    show 2+112+body.length = _
    omega
  rw [hrun, htake]
  exact get_inserted hutc body

theorem insert_again (h : Roomy mem len) (before : Vector UInt8 21)
    (hroom : len+112+112 ≤ mem.length) :
    Roomy (rssJpegInsertExif before mem len utcUs).2 (len+112) := by
  have hleast := h.least
  obtain ⟨body, rest, hmem, hlen, hcap, hrun⟩ := insert_roomy h before utcUs
  rw [hrun]
  refine ⟨rfl, rfl, by omega, ?_⟩
  rw [inserted_length hcap, ← hmem]
  exact hroom

theorem int_of_eq (n : ℕ) : intOf n = (n : ℤ) ↔ n < 2^31 := by
  have hmod := Int.bmod_def (n : ℤ) (2^32)
  unfold intOf
  split at hmod <;> omega

theorem insert_returned (h : Roomy mem len) :
    (rssJpegInsertExif before mem len utcUs).1 = .ok ((len : ℤ)+112) ↔ len+112 < 2^31 := by
  obtain ⟨body, rest, -, -, -, hrun⟩ := insert_roomy h before utcUs
  have hS : exifSegment = 112 := rfl
  rw [hrun, Except.ok.injEq, hS, ← int_of_eq]
  exact Iff.rfl

/-- Inserting does what it says just where the new length is an `int`. -/
theorem inserted_time_iff (before : Vector UInt8 21) (mem : Bytes) (len : ℕ) (utcUs : UInt64)
    (h : Roomy mem len) (hutc : utcUs.toNat < 253402300800*1000000) :
    Dated before mem len utcUs ↔ len+112 < 2^31 := by
  refine ⟨fun hd => (insert_returned h).mp hd.returned, fun hlen => ?_⟩
  obtain ⟨body, rest, hmem, hbody, hcap, hrun⟩ := insert_roomy h before utcUs
  have hsoi : soi.length = 2 := rfl
  have hfront : (soi ++ exifBytes before utcUs).length = 114 := by
    rw [List.length_append, exif_bytes_length]
    rfl
  refine ⟨(insert_returned h).mpr hlen, ?_, ?_, ?_, insert_time h before hutc, ?_⟩
  · rw [hrun, inserted_length hcap, hmem]
  · intro i hi
    rw [hrun, hmem]
    simp only [List.append_assoc]
    rw [List.getD_append _ _ _ _ hi, List.getD_append _ _ _ _ hi]
  · intro i hlo hhi
    rw [hrun, hmem]
    have hnew := getD_mid (soi ++ exifBytes before utcUs) (rest.drop exifSegment)
      (show i-2 < body.length by omega)
    have hold := getD_mid soi rest (show i-2 < body.length by omega)
    rw [hfront, show 114+(i-2) = i+112 by omega] at hnew
    rw [hsoi, show 2+(i-2) = i by omega] at hold
    rw [hnew, hold]
  · intro before' later hlater hroom
    exact insert_time (insert_again h before hroom) before' hlater

/-- A later time inserted before an earlier one. -/
theorem inserted_time_iff_sample :
    Roomy (soi ++ datedBody ++ eoi ++ List.replicate 112 0) 116 ∧
      (Dated (Vector.replicate 21 0) (soi ++ datedBody ++ eoi ++ List.replicate 112 0) 116
          1784269442000000 ↔ 116+112 < 2^31) := by
  have h : Roomy (soi ++ datedBody ++ eoi ++ List.replicate 112 0) 116 :=
    ⟨rfl, rfl, by decide, by decide +kernel⟩
  exact ⟨h, inserted_time_iff _ _ 116 1784269442000000 h (by decide)⟩

/-- An image that fills the largest `int` but for the segment. -/
theorem inserted_length_wraps :
    Roomy (soi ++ List.replicate (2^31-2) 0) (2^31-112) ∧
      ¬Dated (Vector.replicate 21 0) (soi ++ List.replicate (2^31-2) 0) (2^31-112) 0 := by
  have h : Roomy (soi ++ List.replicate (2^31-2) 0) (2^31-112) := by
    refine ⟨rfl, rfl, by decide, ?_⟩
    rw [List.length_append, List.length_replicate]
    decide
  exact ⟨h, fun hd => absurd ((insert_returned h).mp hd.returned) (by decide)⟩

end Images

end RaptorCommon.JpegDate
