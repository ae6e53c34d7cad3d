import RaptorCommon.JpegSeal

/-!
# Images signed more than once

Each signing adds one segment before the end marker, each can be taken off
again, and a capture time that was readable stays readable.
-/

set_option autoImplicit false

namespace RaptorCommon.JpegChain
open RaptorCommon.CText RaptorCommon.TimeText RaptorCommon.Jpeg RaptorCommon.JpegSeal

section CaptureTime

variable {pre more : Bytes} {x y : Byte}

theorem digits_stop (width : ℕ) (a t : Bytes) :
    ((a ++ 0xff::t).take width).takeWhile isDigit = (a.take width).takeWhile isDigit := by
  induction a generalizing width with
  | nil =>
    cases width with
    | zero => rfl
    | succ width => rfl
  | cons c a ih =>
    cases width with
    | zero => rfl
    | succ width =>
      rw [List.cons_append, List.take_succ_cons, List.take_succ_cons, List.takeWhile_cons,
        List.takeWhile_cons, ih]

theorem scan_digits_stop (width : ℕ) (a t t' : Bytes) :
    (scanDigits width (a ++ 0xff::t)).map Prod.fst =
      (scanDigits width (a ++ 0xff::t')).map Prod.fst := by
  unfold scanDigits
  dsimp only
  rw [digits_stop, digits_stop]
  split_ifs <;> rfl

theorem spaces_stop (a t : Bytes) :
    (a ++ 0xff::t).dropWhile isSpace = a.dropWhile isSpace ++ 0xff::t := by
  induction a with
  | nil => rfl
  | cons c a ih =>
    rw [List.cons_append, List.dropWhile_cons, List.dropWhile_cons]
    split_ifs
    · exact ih
    · rfl

theorem scan_int_stop (width : ℕ) (a t t' : Bytes) :
    (scanInt width (a ++ 0xff::t)).map Prod.fst = (scanInt width (a ++ 0xff::t')).map Prod.fst := by
  unfold scanInt
  rw [spaces_stop, spaces_stop]
  cases a.dropWhile isSpace with
  | nil => exact scan_digits_stop width [] t t'
  | cons c a =>
    have hdigits := scan_digits_stop width (c::a) t t'
    have hrest := scan_digits_stop (width-1) a t t'
    by_cases h45 : c = 45
    · subst h45
      show Option.map _ (Option.map _ _) = Option.map _ (Option.map _ _)
      rw [Option.map_map, Option.map_map]
      have hneg := congrArg (Option.map fun v : ℤ => -v) hrest
      rwa [Option.map_map, Option.map_map] at hneg
    · by_cases h43 : c = 43
      · subst h43
        exact hrest
      · simp only [List.cons_append]
        split
        · rename_i h
          exact absurd (List.cons.inj h).1 h45
        · rename_i h
          exact absurd (List.cons.inj h).1 h43
        · split
          · rename_i h
            exact absurd (List.cons.inj h).1 h45
          · rename_i h
            exact absurd (List.cons.inj h).1 h43
          · exact hdigits

theorem string_stop (width : ℕ) (a t t' : Bytes) :
    (scanInt width (CString.at (a ++ 0xff::t)).chars).map Prod.fst =
      (scanInt width (CString.at (a ++ 0xff::t')).chars).map Prod.fst := by
  have hcut : ∀ u : Bytes, (CString.at (a ++ 0xff::u)).chars = if 0 ∈ a then (CString.at a).chars
      else a ++ 0xff::(CString.at u).chars := by
    intro u
    show (a ++ 0xff::u).takeWhile _ = if 0 ∈ a then a.takeWhile _ else a ++ 0xff::u.takeWhile _
    induction a with
    | nil => rfl
    | cons c a ih =>
      rw [List.cons_append, List.takeWhile_cons, List.takeWhile_cons, ih]
      by_cases hc : c = 0
      · simp [hc]
      · have hgo : decide (c ≠ 0) = true := decide_eq_true hc
        have hmem : 0 ∈ c::a ↔ 0 ∈ a := by simp [Ne.symm hc]
        simp only [hgo, if_true, hmem]
        split_ifs <;> rfl
  rw [hcut t, hcut t']
  split_ifs
  · rfl
  · exact scan_int_stop ..

theorem bytes_within {pos count : ℕ} (h : pos+count ≤ pre.length) (post : Bytes) :
    bytesAt pos count (pre ++ post) = bytesAt pos count pre := by
  unfold bytesAt
  rw [List.drop_append_of_le_length (by omega),
    List.take_append_of_le_length (by rw [List.length_drop]; omega)]

theorem bytes_inside (pos off count : ℕ) (buf : Bytes) :
    bytesAt off count (buf.drop pos) = bytesAt (pos+off) count buf := by
  rw [bytesAt, bytesAt, List.drop_drop]

theorem micros_kept {pos : ℕ} (h : pos+7 ≤ pre.length+2) :
    scanMicros (bytesAt pos 7 (pre ++ 0xff::x::more)) =
      scanMicros (bytesAt pos 7 (pre ++ [0xff, y])) := by
  have hscan : ∀ s s' : Bytes, (scanInt 6 (CString.at s).chars).map Prod.fst =
      (scanInt 6 (CString.at s').chars).map Prod.fst → scanMicros s = scanMicros s' := by
    intro s s' hs
    have hmap := congrArg (Option.map UInt32.ofInt) hs
    rw [Option.map_map, Option.map_map] at hmap
    exact congrArg (Option.getD · 0) hmap
  by_cases hall : pos+7 ≤ pre.length+1
  · have hsame : ∀ u, bytesAt pos 7 (pre ++ 0xff::u) = bytesAt pos 7 (pre ++ [0xff]) := by
      intro u
      rw [List.append_cons]
      exact bytes_within (by rw [List.length_append]; exact hall) u
    rw [hsame (x::more), hsame [y]]
  · -- the fraction ends where the buffer does, in the end marker
    have hlast : ∀ c u, bytesAt pos 7 (pre ++ 0xff::c::u) = bytesAt pos 5 pre ++ [0xff, c] := by
      intro c u
      rw [bytes_append pos 5 2, bytes_within (by omega)]
      congr 1
      rw [bytesAt, List.drop_append, List.drop_eq_nil_of_le (by omega),
        show pos+5-pre.length = 0 by omega]
      rfl
    rw [hlast, hlast]
    exact hscan _ _ (string_stop 6 _ [x] [y])

/-- The fields read from the layout do not change when what stands behind the
first byte of the end marker does. -/
theorem exif_kept {pos : ℕ} (h : pos+102 ≤ pre.length+2) :
    exifFields ((pre ++ 0xff::x::more).drop pos) = exifFields ((pre ++ [0xff, y]).drop pos) := by
  have hdate : ∀ post, bytesAt 68 20 ((pre ++ post).drop pos) = bytesAt (pos+68) 20 pre := by
    intro post
    rw [bytes_inside, bytes_within (by omega)]
  unfold exifFields
  rw [hdate, hdate, bytes_inside, bytes_inside, micros_kept (y := y) (by omega)]

theorem byte_kept {i : ℕ} (h : i ≤ pre.length) :
    (pre ++ 0xff::x::more).getD i 0 = (pre ++ [0xff, y]).getD i 0 := by
  have hsame : ∀ u, (pre ++ 0xff::u).getD i 0 = (pre ++ [0xff]).getD i 0 := by
    intro u
    rw [List.append_cons]
    exact List.getD_append _ _ _ _ (by rw [List.length_append]; exact Nat.lt_succ_of_le h)
  rw [hsame (x::more), hsame [y]]

def lengthAt (buf : Bytes) (pos : ℕ) : ℕ :=
  (buf.getD (pos+2) 0).toNat*256+(buf.getD (pos+3) 0).toNat

structure Header (buf : Bytes) (pos : ℕ) : Prop where
  room : pos+4 ≤ buf.length
  mark : buf.getD pos 0 = 0xff
  inner : ¬(buf.getD (pos+1) 0 = 0xda ∨ buf.getD (pos+1) 0 = 0xd9)
  within : ¬(lengthAt buf pos < 2 ∨ pos+2+lengthAt buf pos > buf.length)

abbrev IsExif (buf : Bytes) (pos : ℕ) : Prop :=
  buf.getD (pos+1) 0 = 0xe1 ∧ 2+exifPayload ≤ lengthAt buf pos ∧
    bytesAt (pos+4) 6 buf = exifIdentifier

section Walk

variable {buf : Bytes} {pos : ℕ} {t : UInt64}

theorem walk_found (h : Header buf pos) (he : IsExif buf pos) :
    walkSegments buf pos = exifFields (buf.drop (pos+10)) := by
  rw [walkSegments, if_pos h.room, if_neg (not_not.mpr h.mark)]
  dsimp only
  rw [if_neg h.inner]
  exact (if_neg h.within).trans (if_pos he)

theorem walk_passed (h : Header buf pos) (he : ¬IsExif buf pos) :
    walkSegments buf pos = walkSegments buf (pos+2+lengthAt buf pos) := by
  rw [walkSegments, if_pos h.room, if_neg (not_not.mpr h.mark)]
  dsimp only
  rw [if_neg h.inner]
  exact (if_neg h.within).trans (if_neg he)

theorem walk_header (h : walkSegments buf pos = .ok t) : Header buf pos := by
  rw [walkSegments] at h
  by_cases hroom : pos+4 ≤ buf.length
  · rw [if_pos hroom] at h
    by_cases hmark : buf.getD pos 0 = 0xff
    · rw [if_neg (not_not.mpr hmark)] at h
      dsimp only at h
      by_cases hinner : buf.getD (pos+1) 0 = 0xda ∨ buf.getD (pos+1) 0 = 0xd9
      · rw [if_pos hinner] at h
        cases h
      · rw [if_neg hinner] at h
        by_cases hwithin : lengthAt buf pos < 2 ∨ pos+2+lengthAt buf pos > buf.length
        · have herr : (.error .enoent : Except Errno UInt64) = .ok t := (if_pos hwithin).symm.trans h
          cases herr
        · exact ⟨hroom, hmark, hinner, hwithin⟩
    · rw [if_pos hmark] at h
      cases h
  · rw [if_neg hroom] at h
    cases h

theorem walk_room (h : walkSegments buf pos = .ok t) : pos+112 ≤ buf.length := by
  have hP : exifPayload = 108 := rfl
  induction hk : buf.length-pos using Nat.strong_induction_on generalizing pos with
  | _ k ih =>
    have hhead := walk_header h
    have hwithin := hhead.within
    by_cases he : IsExif buf pos
    · have hlen := he.2.1
      omega
    · rw [walk_passed hhead he] at h
      have hroom := hhead.room
      have hnext := ih (buf.length-(pos+2+lengthAt buf pos)) (by omega) h rfl
      omega

end Walk

/-- The time found is found after the end marker has moved. -/
theorem walk_kept {pos : ℕ} {t : UInt64} (h : walkSegments (pre ++ [0xff, y]) pos = .ok t) :
    walkSegments (pre ++ 0xff::x::more) pos = .ok t := by
  induction hk : (pre ++ [0xff, y]).length-pos using Nat.strong_induction_on
    generalizing pos with
  | _ k ih =>
    have hhead := walk_header h
    have hroom := walk_room h
    have hlen : (pre ++ [0xff, y]).length = pre.length+2 := List.length_append
    have hlen' : (pre ++ 0xff::x::more).length = pre.length+2+more.length := by
      rw [List.length_append, List.length_cons, List.length_cons]
      omega
    have hbyte : ∀ i ≤ pre.length, (pre ++ 0xff::x::more).getD i 0 = (pre ++ [0xff, y]).getD i 0 :=
      fun i hi => byte_kept hi
    have hlength : lengthAt (pre ++ 0xff::x::more) pos = lengthAt (pre ++ [0xff, y]) pos := by
      rw [lengthAt, hbyte _ (by omega), hbyte _ (by omega)]
      rfl
    have hwithin := hhead.within
    have hhead' : Header (pre ++ 0xff::x::more) pos := by
      refine ⟨by omega, ?_, ?_, ?_⟩
      · rw [hbyte _ (by omega)]
        exact hhead.mark
      · rw [hbyte _ (by omega)]
        exact hhead.inner
      · rw [hlength]
        omega
    have hexif : IsExif (pre ++ 0xff::x::more) pos ↔ IsExif (pre ++ [0xff, y]) pos := by
      unfold IsExif
      rw [hbyte _ (by omega), hlength, bytes_within (by omega), bytes_within (by omega)]
    by_cases he : IsExif (pre ++ [0xff, y]) pos
    · rw [walk_found hhead he] at h
      rw [walk_found hhead' (hexif.mpr he), exif_kept (y := y) (by omega), h]
    · rw [walk_passed hhead he] at h
      rw [walk_passed hhead' fun he' => he (hexif.mp he'), hlength]
      exact ih _ (by omega) h rfl

end CaptureTime

section Chain

variable {crypto : Crypto}

structure SignedOnce (crypto : Crypto) (key : SignKey) (prev now : Bytes) : Prop where
  grown : now.length = prev.length+sigSegment
  kept : now.take (prev.length-2) = prev.take (prev.length-2)
  verified : rssJpegVerify crypto now (some key.publicKey) = (.ok 0, some key.fingerprint)
  present : rssJpegVerify crypto now none = (.ok 1, some key.fingerprint)
  removed : now.take (now.length-2-sigSegment) ++ now.drop (now.length-2) = prev
  dated : ∀ t, rssJpegGetExifTime prev = .ok t → rssJpegGetExifTime now = .ok t

theorem sealed_once (key : SignKey) (body : Bytes)
    (hkey : ∀ message, crypto.check (crypto.sign key.secretKey message) key.publicKey message = true) :
    SignedOnce crypto key (soi ++ body ++ eoi) (sealed crypto key body) := by
  have hS : sigSegment = 93 := rfl
  have hlen := sealed_length crypto key body
  have hprev : (soi ++ body ++ eoi).length = body.length+4 := by
    rw [List.length_append, List.length_append, Nat.add_right_comm, Nat.add_comm]
    rfl
  have hpre := front_length body
  have hsplit : sealed crypto key body = soi ++ body ++
      (segmentHead 0 91 ++ key.fingerprint.toList ++
        (crypto.sign key.secretKey (soi ++ body)).toList) ++ eoi := by
    simp only [sealed, withSegment, List.append_assoc]
  refine ⟨by rw [hlen, hprev], ?_, ?_, ?_, ?_, ?_⟩
  · rw [hprev, show body.length+4-2 = (soi ++ body).length by omega, hsplit, List.append_assoc _ _ eoi,
      List.take_left, List.take_left]
  · rw [sealed, verify_segment]
    simp only [hkey, if_true]
  · rw [sealed, verify_segment]
  · rw [hlen, show body.length+4+sigSegment-2-sigSegment = (soi ++ body).length by omega,
      show body.length+4+sigSegment-2 = (soi ++ body ++
        (segmentHead 0 91 ++ key.fingerprint.toList ++
          (crypto.sign key.secretKey (soi ++ body)).toList)).length by
        have h := hlen
        rw [hsplit, List.length_append] at h
        have he : eoi.length = 2 := rfl
        omega,
      hsplit, List.drop_left, List.append_assoc _ _ eoi, List.take_left]
  · intro t ht
    have hmore : sealed crypto key body = soi ++ body ++ 0xff::0xef::((segmentHead 0 91).drop 2 ++
        key.fingerprint.toList ++ (crypto.sign key.secretKey (soi ++ body)).toList ++ eoi) := by
      rw [hsplit]
      simp only [List.append_assoc]
      rfl
    unfold rssJpegGetExifTime at ht ⊢
    split_ifs at ht
    rw [if_neg]
    · rw [hmore]
      exact walk_kept ht
    · rw [hlen]
      simp only [sealed, withSegment, soi, List.cons_append, List.getD_cons_zero,
        List.getD_cons_succ, ne_eq, not_true_eq_false, or_false, not_lt]
      omega

def signAll (crypto : Crypto) (len : ℕ) : List SignKey → Bytes → Bytes
  | [], mem => mem
  | key::keys, mem => signAll crypto (len+sigSegment) keys (rssJpegSign crypto key mem len).2

def bodyAfter (crypto : Crypto) : List SignKey → Bytes → Bytes
  | [], body => body
  | key::keys, body => bodyAfter crypto keys
      (body ++ segment key.fingerprint (crypto.sign key.secretKey (soi ++ body)))

theorem body_snoc (keys : List SignKey) (key : SignKey) (body : Bytes) :
    soi ++ bodyAfter crypto (keys ++ [key]) body ++ eoi =
      sealed crypto key (bodyAfter crypto keys body) := by
  induction keys generalizing body with
  | nil =>
    show soi ++ (body ++ segment _ _) ++ eoi = sealed crypto key body
    rw [sealed, withSegment, segment_head]
    simp only [List.append_assoc]
  | cons first keys ih => exact ih _

theorem body_length (crypto : Crypto) (keys : List SignKey) (body : Bytes) :
    (bodyAfter crypto keys body).length = body.length+sigSegment*keys.length := by
  induction keys generalizing body with
  | nil => rfl
  | cons key keys ih =>
    rw [bodyAfter, ih, List.length_append, segment_length, List.length_cons, Nat.mul_succ]
    omega

theorem sign_all (keys : List SignKey) (body rest : Bytes)
    (hcap : sigSegment*keys.length ≤ rest.length) :
    signAll crypto (body.length+4) keys (soi ++ body ++ eoi ++ rest) =
      soi ++ bodyAfter crypto keys body ++ eoi ++ rest.drop (sigSegment*keys.length) := by
  induction keys generalizing body rest with
  | nil => rfl
  | cons key keys ih =>
    rw [List.length_cons, Nat.mul_succ] at hcap
    have hnext := ih (body ++ segment key.fingerprint (crypto.sign key.secretKey (soi ++ body)))
      (rest.drop sigSegment) (by rw [List.length_drop]; omega)
    rw [List.length_append, segment_length, Nat.add_right_comm, List.drop_drop,
      show body ++ segment key.fingerprint (crypto.sign key.secretKey (soi ++ body)) =
        bodyAfter crypto ([] ++ [key]) body from rfl, body_snoc] at hnext
    rw [signAll, sign_image (by omega), bodyAfter, List.length_cons, Nat.mul_succ,
      Nat.add_comm (sigSegment*keys.length)]
    exact hnext

/-- One more signing of a chain. -/
structure SignedStep (crypto : Crypto) (mem : Bytes) (len : ℕ) (before : List SignKey)
    (key : SignKey) : Prop where
  returned : (rssJpegSign crypto key (signAll crypto len before mem)
    (len+sigSegment*before.length)).1 = .ok (intOf (len+sigSegment*(before.length+1)))
  once : SignedOnce crypto key
    ((signAll crypto len before mem).take (len+sigSegment*before.length))
    ((signAll crypto len (before ++ [key]) mem).take (len+sigSegment*(before.length+1)))
  previous : ∀ earlier last, before = earlier ++ [last] →
    rssJpegVerify crypto ((signAll crypto len before mem).take (len+sigSegment*before.length))
      (some last.publicKey) = (.ok 0, some last.fingerprint)
  dated : ∀ t, rssJpegGetExifTime (mem.take len) = .ok t →
    rssJpegGetExifTime ((signAll crypto len (before ++ [key]) mem).take
      (len+sigSegment*(before.length+1))) = .ok t

theorem take_image (body rest : Bytes) :
    (soi ++ body ++ eoi ++ rest).take (body.length+4) = soi ++ body ++ eoi := by
  apply List.take_left'
  rw [List.length_append, List.length_append, Nat.add_right_comm, Nat.add_comm]
  rfl

theorem chain_image (crypto : Crypto) (keys : List SignKey) (body rest : Bytes)
    (hcap : sigSegment*keys.length ≤ rest.length) :
    (signAll crypto (body.length+4) keys (soi ++ body ++ eoi ++ rest)).take
      (body.length+4+sigSegment*keys.length) = soi ++ bodyAfter crypto keys body ++ eoi := by
  have htake := take_image (bodyAfter crypto keys body) (rest.drop (sigSegment*keys.length))
  rw [body_length, Nat.add_right_comm] at htake
  rw [sign_all keys body rest hcap, htake]

theorem chain_dated (hacc : Accepting crypto) (keys : List SignKey)
    (hkeys : ∀ key ∈ keys, ∃ seed, key = keyOfSeed crypto seed) (body : Bytes) {t : UInt64}
    (h : rssJpegGetExifTime (soi ++ body ++ eoi) = .ok t) :
    rssJpegGetExifTime (soi ++ bodyAfter crypto keys body ++ eoi) = .ok t := by
  induction keys using List.reverseRecOn with
  | nil => exact h
  | append_singleton keys key ih =>
    obtain ⟨seed, rfl⟩ := hkeys key (by simp)
    rw [body_snoc]
    exact (sealed_once (keyOfSeed crypto seed) _ (hacc seed)).dated t
      (ih fun k hk => hkeys k (List.mem_append_left _ hk))

/-- Every signing of every sequence of keys. -/
theorem signing_chain (crypto : Crypto) (hacc : Accepting crypto) (mem : Bytes) (len : ℕ)
    (hlen : 4 ≤ len) (hstart : bytesAt 0 2 mem = soi) (hend : bytesAt (len-2) 2 mem = eoi)
    (keys : List SignKey) (hkeys : ∀ key ∈ keys, ∃ seed, key = keyOfSeed crypto seed)
    (hcap : len+sigSegment*keys.length ≤ mem.length) (before : List SignKey) (key : SignKey)
    (after : List SignKey) (hsplit : keys = before ++ key::after) :
    SignedStep crypto mem len before key := by
  have hroom : sigSegment*(before.length+1) ≤ mem.length-len := by
    rw [hsplit, List.length_append, List.length_cons] at hcap
    have hmono : sigSegment*(before.length+1) ≤ sigSegment*(before.length+(after.length+1)) :=
      Nat.mul_le_mul_left _ (by omega)
    omega
  obtain ⟨body, rest, rfl, hrest, rfl⟩ : ∃ body rest, len = body.length+4 ∧
      sigSegment*(before.length+1) ≤ rest.length ∧ mem = soi ++ body ++ eoi ++ rest := by
    refine ⟨bytesAt 2 (len-4) mem, mem.drop len, ?_, ?_, ?_⟩
    · rw [bytesAt, List.length_take, List.length_drop]
      omega
    · rwa [List.length_drop]
    · rw [← hstart, ← hend, bytes_join (show 0+2 = 2 by omega),
        bytes_join (show 0+(2+(len-4)) = len-2 by omega), show 2+(len-4)+2 = len by omega,
        bytesAt, List.drop_zero, List.take_append_drop]
  rw [Nat.mul_succ] at hrest
  have hbefore := chain_image crypto before body rest (by omega)
  have hafter := chain_image crypto (before ++ [key]) body rest
    (by rw [List.length_append, List.length_singleton, Nat.mul_succ]; omega)
  rw [body_snoc, List.length_append, List.length_singleton] at hafter
  obtain ⟨seed, rfl⟩ := hkeys key (by simp [hsplit])
  have hkeys' : ∀ k ∈ before, ∃ seed, k = keyOfSeed crypto seed := fun k hk =>
    hkeys k (by rw [hsplit]; exact List.mem_append_left _ hk)
  refine ⟨?_, ?_, ?_, ?_⟩
  · have hl := body_length crypto before body
    rw [sign_all before body rest (by omega),
      show body.length+4+sigSegment*before.length = (bodyAfter crypto before body).length+4 by omega,
      sign_image (by rw [List.length_drop]; omega)]
    have hnext : (bodyAfter crypto before body).length+4+sigSegment =
        body.length+4+sigSegment*(before.length+1) := by
      rw [hl, Nat.mul_succ]
      omega
    exact congrArg (fun n => Except.ok (intOf n)) hnext
  · rw [hbefore, hafter]
    exact sealed_once (keyOfSeed crypto seed) _ (hacc seed)
  · rintro earlier last rfl
    obtain ⟨seed', rfl⟩ := hkeys' last (by simp)
    rw [hbefore, body_snoc]
    exact (sealed_once (keyOfSeed crypto seed') _ (hacc seed')).verified
  · intro t ht
    rw [take_image] at ht
    rw [hafter]
    exact (sealed_once (keyOfSeed crypto seed) _ (hacc seed)).dated t
      (chain_dated hacc before hkeys' body ht)

/-- The second signing of an image that shows when it was taken. -/
theorem signing_chain_sample :
    rssJpegGetExifTime ((soi ++ datedBody ++ eoi ++ List.replicate 186 0).take 116) =
        .ok 1784269441123456 ∧
      SignedStep sampleCrypto (soi ++ datedBody ++ eoi ++ List.replicate 186 0) 116
        [keyOfSeed sampleCrypto sampleSeed] (keyOfSeed sampleCrypto secondSeed) := by
  constructor
  · have hexif : IsExif (soi ++ datedBody ++ eoi) 2 := by decide +kernel
    have hhead : Header (soi ++ datedBody ++ eoi) 2 := by
      refine ⟨?_, ?_, ?_, ?_⟩ <;> decide +kernel
    have hfields : exifFields ((soi ++ datedBody ++ eoi).drop (2+10)) = .ok 1784269441123456 := by
      decide +kernel
    rw [show 116 = datedBody.length+4 from rfl, take_image, rssJpegGetExifTime,
      if_neg (by decide +kernel), walk_found hhead hexif, hfields]
  · have hkeys : ∀ key ∈ [keyOfSeed sampleCrypto sampleSeed, keyOfSeed sampleCrypto secondSeed],
        ∃ seed, key = keyOfSeed sampleCrypto seed := by
      intro key hkey
      obtain rfl | rfl : key = keyOfSeed sampleCrypto sampleSeed ∨
          key = keyOfSeed sampleCrypto secondSeed := by simpa using hkey
      · exact ⟨sampleSeed, rfl⟩
      · exact ⟨secondSeed, rfl⟩
    have hcap : 116+sigSegment*[keyOfSeed sampleCrypto sampleSeed,
        keyOfSeed sampleCrypto secondSeed].length ≤
          (soi ++ datedBody ++ eoi ++ List.replicate 186 0).length := by
      decide +kernel
    exact signing_chain sampleCrypto sample_accepting
      (soi ++ datedBody ++ eoi ++ List.replicate 186 0) 116 (by decide) (by decide +kernel)
      (by decide +kernel) [keyOfSeed sampleCrypto sampleSeed, keyOfSeed sampleCrypto secondSeed]
      hkeys hcap [keyOfSeed sampleCrypto sampleSeed] (keyOfSeed sampleCrypto secondSeed) [] rfl

end Chain

end RaptorCommon.JpegChain
