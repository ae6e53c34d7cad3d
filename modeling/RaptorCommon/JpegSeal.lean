import RaptorCommon.Jpeg
import Mathlib.Data.List.GetD
import Mathlib.Tactic

/-!
# What a signature of a snapshot covers

Signing puts a seal of fixed shape before the end marker. What verifies has
that shape, but for two length bytes and the fingerprint, which nothing
checks. A capture time that was readable stays readable.
-/

set_option autoImplicit false

namespace RaptorCommon.JpegSeal
open RaptorCommon.CText RaptorCommon.TimeText RaptorCommon.Jpeg

section Bytes

variable {pos count : ℕ} {buf : Bytes}

theorem bytes_field (h : pos+count ≤ buf.length) :
    bytesAt pos count buf = (fieldAt pos count buf).toList := by
  apply List.ext_getElem
  · rw [bytesAt, List.length_take, List.length_drop, Vector.length_toList]
    omega
  · intro i h1 h2
    rw [Vector.length_toList] at h2
    simp only [bytesAt, List.getElem_take, List.getElem_drop, fieldAt, Vector.getElem_toList,
      Vector.getElem_ofFn]
    rw [List.getD_eq_getElem _ _ (by omega)]

theorem field_mid (pre post : Bytes) {n : ℕ} (v : Vector UInt8 n) :
    fieldAt pre.length n (pre ++ v.toList ++ post) = v := by
  apply Vector.ext
  intro i hi
  rw [fieldAt, Vector.getElem_ofFn, List.append_assoc, List.getD_append_right _ _ _ _ (by omega),
    Nat.add_sub_cancel_left, List.getD_append _ _ _ _ (by simpa using hi),
    List.getD_eq_getElem _ _ (by simpa using hi), Vector.getElem_toList]

theorem getD_mid (pre post : Bytes) {mid : Bytes} {i : ℕ} (h : i < mid.length) :
    (pre ++ mid ++ post).getD (pre.length+i) 0 = mid.getD i 0 := by
  rw [List.append_assoc, List.getD_append_right _ _ _ _ (by omega), Nat.add_sub_cancel_left,
    List.getD_append _ _ _ _ h]

theorem bytes_mid (pre mid post : Bytes) : bytesAt pre.length mid.length (pre ++ mid ++ post) = mid := by
  rw [bytesAt, List.append_assoc, List.drop_left, List.take_left]

theorem bytes_append (pos a b : ℕ) (buf : Bytes) :
    bytesAt pos (a+b) buf = bytesAt pos a buf ++ bytesAt (pos+a) b buf := by
  rw [bytesAt, bytesAt, bytesAt, List.take_add, List.drop_drop]

theorem write_mid (pre old post new : Bytes) (h : old.length = new.length) :
    writeAt pre.length new (pre ++ old ++ post) = pre ++ new ++ post := by
  rw [writeAt, ← h, ← List.length_append, List.drop_left, List.append_assoc pre old, List.take_left]

end Bytes

def segmentHead (h1 h2 : Byte) : Bytes := [0xff, 0xef, h1, h2] ++ signUuid ++ [1]

/-- An image with a segment before its end marker. -/
def withSegment (h1 h2 : Byte) (fp : Vector UInt8 8) (sig : Vector UInt8 64) (body : Bytes) : Bytes :=
  soi ++ body ++ segmentHead h1 h2 ++ fp.toList ++ sig.toList ++ eoi

/-- What signing makes of the image with the given bytes between its markers. -/
def sealed (crypto : Crypto) (key : SignKey) (body : Bytes) : Bytes :=
  withSegment 0 91 key.fingerprint (crypto.sign key.secretKey (soi ++ body)) body

section Sealing

variable {crypto : Crypto} {key : SignKey} {body rest : Bytes}

theorem segment_head (fp : Vector UInt8 8) (sig : Vector UInt8 64) :
    segment fp sig = segmentHead 0 91 ++ fp.toList ++ sig.toList := rfl

theorem segment_length (fp : Vector UInt8 8) (sig : Vector UInt8 64) :
    (segment fp sig).length = sigSegment := by
  rw [segment_head, List.length_append, List.length_append, Vector.length_toList,
    Vector.length_toList]
  rfl

theorem front_length (body : Bytes) : (soi ++ body).length = body.length+2 := by
  rw [List.length_append, Nat.add_comm]
  rfl

theorem sign_image (hcap : sigSegment ≤ rest.length) :
    rssJpegSign crypto key (soi ++ body ++ eoi ++ rest) (body.length+4) =
      (.ok (intOf (body.length+4+sigSegment)),
        sealed crypto key body ++ rest.drop sigSegment) := by
  have hS : sigSegment = 93 := rfl
  have hpre := front_length body
  have hend : ∀ i < 2, (soi ++ body ++ eoi ++ rest).getD (body.length+2+i) 0 = eoi.getD i 0 := by
    intro i hi
    rw [← hpre]
    exact getD_mid (soi ++ body) rest hi
  unfold rssJpegSign
  rw [if_neg, if_neg, if_neg]
  · have hlen : body.length+4-2 = (soi ++ body).length := by omega
    have htake : (soi ++ body ++ eoi ++ rest).take (soi ++ body).length = soi ++ body := by
      rw [List.append_assoc, List.take_left]
    dsimp only
    rw [hlen, htake]
    congr 1
    -- the end marker goes behind the segment, then the segment over the old one
    have hsplit : soi ++ body ++ eoi ++ rest =
        soi ++ body ++ eoi ++ rest.take 91 ++ (rest.drop 91).take 2 ++ rest.drop 93 := by
      have hrest : rest = rest.take 91 ++ ((rest.drop 91).take 2 ++ rest.drop 93) := by
        rw [← List.drop_drop (i := 2) (j := 91), List.take_append_drop, List.take_append_drop]
      conv_lhs => rw [hrest]
      simp only [List.append_assoc]
    have hfar : (soi ++ body).length+sigSegment = (soi ++ body ++ eoi ++ rest.take 91).length := by
      have he : eoi.length = 2 := rfl
      simp only [List.length_append, List.length_take, he]
      omega
    rw [hsplit, hfar, write_mid _ _ _ eoi (by rw [List.length_take, List.length_drop]; simp [eoi]; omega)]
    have hback : soi ++ body ++ eoi ++ rest.take 91 ++ eoi ++ rest.drop 93 =
        soi ++ body ++ (eoi ++ rest.take 91) ++ (eoi ++ rest.drop 93) := by
      simp only [List.append_assoc]
    rw [hback, write_mid _ _ _ (segment key.fingerprint _)
      (by rw [segment_length, List.length_append, List.length_take, hS, Nat.min_eq_left (by omega)]; rfl)]
    rw [segment_head, sealed, withSegment]
    simp only [List.append_assoc]
    rfl
  · rw [List.length_append, List.length_append, hpre, hS]
    have he : eoi.length = 2 := rfl
    omega
  · have h0 := hend 0 (by decide)
    have h1 := hend 1 (by decide)
    rw [show body.length+4-2 = body.length+2+0 by omega, h0,
      show body.length+4-1 = body.length+2+1 by omega, h1]
    decide
  · simp [soi]

theorem with_segment_length (h1 h2 : Byte) (fp : Vector UInt8 8) (sig : Vector UInt8 64)
    (body : Bytes) :
    (withSegment h1 h2 fp sig body).length = body.length+97 := by
  simp only [withSegment, segmentHead, List.length_append, Vector.length_toList]
  simp only [soi, eoi, signUuid, List.length_cons, List.length_nil]
  omega

section Fields

variable (h1 h2 : Byte) (fp : Vector UInt8 8) (sig : Vector UInt8 64) (body : Bytes)

theorem segment_head_byte {i : ℕ} (hi : i < 21) :
    (withSegment h1 h2 fp sig body).getD (body.length+2+i) 0 = (segmentHead h1 h2).getD i 0 := by
  rw [← front_length, withSegment, List.append_assoc, List.append_assoc]
  exact getD_mid (soi ++ body) _ hi

theorem segment_end_byte {i : ℕ} (hi : i < 2) :
    (withSegment h1 h2 fp sig body).getD (body.length+95+i) 0 = eoi.getD i 0 := by
  have hp : (soi ++ body ++ segmentHead h1 h2 ++ fp.toList ++ sig.toList).length =
      body.length+95 := by
    have h := with_segment_length h1 h2 fp sig body
    rw [withSegment, List.length_append] at h
    have he : eoi.length = 2 := rfl
    omega
  rw [← hp, withSegment, ← List.append_nil (_ ++ eoi)]
  exact getD_mid _ [] hi

theorem segment_uuid :
    bytesAt (body.length+6) 16 (withSegment h1 h2 fp sig body) = signUuid := by
  have hp : (soi ++ body ++ [0xff, 0xef, h1, h2]).length = body.length+6 := by
    rw [List.length_append, front_length]
    rfl
  have hs : withSegment h1 h2 fp sig body = soi ++ body ++ [0xff, 0xef, h1, h2] ++ signUuid ++
      ([1] ++ fp.toList ++ sig.toList ++ eoi) := by
    simp only [withSegment, segmentHead, List.append_assoc]
  rw [← hp, hs]
  exact bytes_mid _ signUuid _

theorem segment_fingerprint :
    fieldAt (body.length+23) 8 (withSegment h1 h2 fp sig body) = fp := by
  have hp : (soi ++ body ++ segmentHead h1 h2).length = body.length+23 := by
    rw [List.length_append, front_length]
    rfl
  rw [← hp, withSegment, List.append_assoc _ sig.toList]
  exact field_mid _ _ fp

theorem segment_signature :
    fieldAt (body.length+31) 64 (withSegment h1 h2 fp sig body) = sig := by
  have hp : (soi ++ body ++ segmentHead h1 h2 ++ fp.toList).length = body.length+31 := by
    rw [List.length_append, List.length_append, front_length, Vector.length_toList]
    rfl
  rw [← hp, withSegment]
  exact field_mid _ _ sig

theorem segment_front :
    (withSegment h1 h2 fp sig body).take (body.length+2) = soi ++ body := by
  rw [← front_length, withSegment]
  simp only [List.append_assoc]
  rw [← List.append_assoc, List.take_left]

end Fields

/-- Whatever its length bytes and its fingerprint, a segment is verified by the
signature alone. -/
theorem verify_segment (crypto : Crypto) (body : Bytes) (h1 h2 : Byte) (fp : Vector UInt8 8)
    (sig : Vector UInt8 64) (pub : Option (Vector UInt8 32)) :
    rssJpegVerify crypto (withSegment h1 h2 fp sig body) pub =
      match pub with
      | none => (.ok 1, some fp)
      | some pub =>
        if crypto.check sig pub (soi ++ body) then (.ok 0, some fp)
        else (.error .ebadmsg, some fp) := by
  have hS : sigSegment = 93 := rfl
  have hmarks : ¬((withSegment h1 h2 fp sig body).getD 0 0 ≠ 0xff ∨
      (withSegment h1 h2 fp sig body).getD 1 0 ≠ 0xd8 ∨
      (withSegment h1 h2 fp sig body).getD (body.length+97-2) 0 ≠ 0xff ∨
      (withSegment h1 h2 fp sig body).getD (body.length+97-1) 0 ≠ 0xd9) := by
    rw [show body.length+97-2 = body.length+95+0 by omega, segment_end_byte _ _ _ _ _ (by decide),
      show body.length+97-1 = body.length+95+1 by omega, segment_end_byte _ _ _ _ _ (by decide)]
    simp [withSegment, soi, eoi]
  have hseg : ¬((withSegment h1 h2 fp sig body).getD (body.length+2) 0 ≠ 0xff ∨
      (withSegment h1 h2 fp sig body).getD (body.length+2+1) 0 ≠ 0xef ∨
      bytesAt (body.length+2+4) 16 (withSegment h1 h2 fp sig body) ≠ signUuid) := by
    have h0 := segment_head_byte h1 h2 fp sig body (show 0 < 21 by decide)
    rw [Nat.add_zero] at h0
    rw [h0, segment_head_byte _ _ _ _ _ (by decide),
      show body.length+2+4 = body.length+6 by omega, segment_uuid]
    simp [segmentHead]
  have hversion : ¬(withSegment h1 h2 fp sig body).getD (body.length+2+20) 0 ≠ 1 :=
    not_not.mpr (segment_head_byte h1 h2 fp sig body (by decide))
  unfold rssJpegVerify
  rw [with_segment_length, if_neg (by omega), if_neg hmarks, if_neg (by omega)]
  dsimp only
  rw [show body.length+97-2-sigSegment = body.length+2 by omega, if_neg hseg, if_neg hversion,
    show body.length+2+21 = body.length+23 by omega,
    show body.length+2+29 = body.length+31 by omega]
  cases pub with
  | none => rw [segment_fingerprint]
  | some pub => rw [segment_fingerprint, segment_signature, segment_front]

end Sealing

section Shape

variable {crypto : Crypto} {key : SignKey} {buf : Bytes}

theorem bytes_two {pos : ℕ} (h : pos+2 ≤ buf.length) :
    bytesAt pos 2 buf = [buf.getD pos 0, buf.getD (pos+1) 0] := by
  rw [bytes_field h, fieldAt, Vector.toList_ofFn]
  rfl

theorem bytes_one {pos : ℕ} (h : pos+1 ≤ buf.length) :
    bytesAt pos 1 buf = [buf.getD pos 0] := by
  rw [bytes_field h, fieldAt, Vector.toList_ofFn]
  rfl

theorem bytes_all (buf : Bytes) : bytesAt 0 buf.length buf = buf := by
  rw [bytesAt, List.drop_zero, List.take_length]

theorem bytes_join {p q a b : ℕ} (h : p+a = q) :
    bytesAt p a buf ++ bytesAt q b buf = bytesAt p (a+b) buf := by
  rw [← h, bytes_append]

theorem segment_split {n : ℕ} (h : buf.length = n+97) :
    buf = bytesAt 0 2 buf ++ bytesAt 2 n buf ++
      (bytesAt (n+2) 4 buf ++ bytesAt (n+6) 16 buf ++ bytesAt (n+22) 1 buf) ++
      bytesAt (n+23) 8 buf ++ bytesAt (n+31) 64 buf ++ bytesAt (n+95) 2 buf := by
  rw [bytes_join (show n+2+4 = n+6 by omega), bytes_join (show n+2+(4+16) = n+22 by omega),
    bytes_join (show 0+2 = 2 by omega), bytes_join (show 0+(2+n) = n+2 by omega),
    bytes_join (show 0+(2+n+(4+16+1)) = n+23 by omega),
    bytes_join (show 0+(2+n+(4+16+1)+8) = n+31 by omega),
    bytes_join (show 0+(2+n+(4+16+1)+8+64) = n+95 by omega),
    show 2+n+(4+16+1)+8+64+2 = n+97 by omega, ← h, bytes_all]

theorem verified_shape {pub : Vector UInt8 32}
    (h : (rssJpegVerify crypto buf (some pub)).1 = .ok 0) :
    ∃ h1 h2 fp sig body, buf = withSegment h1 h2 fp sig body := by
  have hS : sigSegment = 93 := rfl
  unfold rssJpegVerify at h
  dsimp only at h
  split_ifs at h with hshort hmarks hsmall hseg hversion
  push Not at hshort hmarks hsmall hseg hversion
  obtain ⟨n, hn⟩ : ∃ n, buf.length = n+97 := ⟨buf.length-97, by omega⟩
  obtain ⟨hs0, hs1, he0, he1⟩ := hmarks
  obtain ⟨hm0, hm1, huuid⟩ := hseg
  rw [show buf.length-2 = n+95 by omega] at he0
  rw [show buf.length-1 = n+95+1 by omega] at he1
  rw [show buf.length-2-sigSegment = n+2 by omega] at hm0 hm1 huuid hversion
  refine ⟨buf.getD (n+4) 0, buf.getD (n+5) 0, fieldAt (n+23) 8 buf, fieldAt (n+31) 64 buf,
    bytesAt 2 n buf, ?_⟩
  have hsoi : bytesAt 0 2 buf = soi := by
    rw [bytes_two (by omega), hs0, hs1]
    rfl
  have heoi : bytesAt (n+95) 2 buf = eoi := by
    rw [bytes_two (by omega), he0, he1]
    rfl
  have hmark : bytesAt (n+2) 4 buf = [0xff, 0xef, buf.getD (n+4) 0, buf.getD (n+5) 0] := by
    rw [bytes_append (n+2) 2 2, bytes_two (by omega), bytes_two (by omega), hm0, hm1]
    rfl
  have hone : bytesAt (n+22) 1 buf = [1] := by
    rw [bytes_one (by omega), hversion]
  have hsplit := segment_split hn
  rwa [hsoi, heoi, hmark, huuid, hone, bytes_field (show n+23+8 ≤ buf.length by omega),
    bytes_field (show n+31+64 ≤ buf.length by omega)] at hsplit

theorem with_segment_inj {h1 h2 h1' h2' : Byte} {fp fp' : Vector UInt8 8}
    {sig sig' : Vector UInt8 64} {body body' : Bytes}
    (h : withSegment h1 h2 fp sig body = withSegment h1' h2' fp' sig' body') :
    h1 = h1' ∧ h2 = h2' ∧ fp = fp' ∧ sig = sig' ∧ body = body' := by
  have hlen := congrArg List.length h
  rw [with_segment_length, with_segment_length, Nat.add_right_cancel_iff] at hlen
  unfold withSegment at h
  obtain ⟨h, -⟩ := List.append_inj' h rfl
  obtain ⟨h, hsig⟩ := List.append_inj' h (by simp)
  obtain ⟨h, hfp⟩ := List.append_inj' h (by simp)
  obtain ⟨hbody, hhead⟩ := List.append_inj' h rfl
  simp only [segmentHead, List.cons_append, List.nil_append, List.cons.injEq, true_and] at hhead
  exact ⟨hhead.1, hhead.2.1, Vector.toList_inj.mp hfp, Vector.toList_inj.mp hsig,
    List.append_cancel_left hbody⟩

theorem signed_shape {mem : Bytes} {len : ℕ} {n : ℤ}
    (h : (rssJpegSign crypto key mem len).1 = .ok n) :
    ∃ body rest, len = body.length+4 ∧ sigSegment ≤ rest.length ∧
      mem = soi ++ body ++ eoi ++ rest := by
  have hS : sigSegment = 93 := rfl
  unfold rssJpegSign at h
  split_ifs at h with hstart hend hcap
  push Not at hstart hend hcap
  obtain ⟨h4, hs0, hs1⟩ := hstart
  obtain ⟨he0, he1⟩ := hend
  have hl : len ≤ mem.length := by omega
  have hsoi : bytesAt 0 2 mem = soi := by
    rw [bytes_two (by omega), hs0, hs1]
    rfl
  have heoi : bytesAt (len-2) 2 mem = eoi := by
    rw [bytes_two (by omega), he0, show len-2+1 = len-1 by omega, he1]
    rfl
  refine ⟨bytesAt 2 (len-4) mem, mem.drop len, ?_, ?_, ?_⟩
  · rw [bytesAt, List.length_take, List.length_drop]
    omega
  · rw [List.length_drop]
    omega
  · rw [← hsoi, ← heoi, bytes_join (show 0+2 = 2 by omega),
      bytes_join (show 0+(2+(len-4)) = len-2 by omega), show 2+(len-4)+2 = len by omega,
      bytesAt, List.drop_zero, List.take_append_drop]

end Shape

section Tampering

variable {crypto : Crypto}

def Accepting (crypto : Crypto) : Prop := ∀ seed message,
  crypto.check (crypto.sign (keyOfSeed crypto seed).secretKey message)
    (keyOfSeed crypto seed).publicKey message = true

def Unforgeable (crypto : Crypto) : Prop := ∀ seed sig message,
  crypto.check sig (keyOfSeed crypto seed).publicKey message = true →
    sig = crypto.sign (keyOfSeed crypto seed).secretKey message

/-- What verifies was signed under the key, and the fingerprint told is the key's. -/
def TamperEvident (crypto : Crypto) (key : SignKey) (buf : Bytes) : Prop :=
  (rssJpegVerify crypto buf (some key.publicKey)).1 = .ok 0 →
    (∃ mem len n, (rssJpegSign crypto key mem len).1 = .ok n ∧
      (rssJpegSign crypto key mem len).2.take (len+sigSegment) = buf) ∧
    (rssJpegVerify crypto buf (some key.publicKey)).2 = some key.fingerprint

/-- Where the signature of a segment checks, its length bytes and its
fingerprint are as the key writes them. -/
def Pinned (crypto : Crypto) (key : SignKey) (buf : Bytes) : Prop :=
  ∀ h1 h2 fp sig body, buf = withSegment h1 h2 fp sig body →
    crypto.check sig key.publicKey (soi ++ body) = true →
      h1 = 0 ∧ h2 = 91 ∧ fp = key.fingerprint

theorem sealed_length (crypto : Crypto) (key : SignKey) (body : Bytes) :
    (sealed crypto key body).length = body.length+4+sigSegment := by
  rw [sealed, with_segment_length]
  rfl

theorem sign_take {key : SignKey} {body rest : Bytes} (hcap : sigSegment ≤ rest.length) :
    (rssJpegSign crypto key (soi ++ body ++ eoi ++ rest) (body.length+4)).2.take
      (body.length+4+sigSegment) = sealed crypto key body := by
  rw [sign_image hcap, ← sealed_length crypto key body]
  exact List.take_left

/-- The keys of the seeds 0 to 31 and 32 to 63, what the first makes of the empty
image and of one that shows only when it was taken, and what the second makes of
that one once signed. -/
def sampleSeed : Vector UInt8 32 := Vector.ofFn fun i => i.val.toUInt8

def secondSeed : Vector UInt8 32 := Vector.ofFn fun i => (32+i.val).toUInt8

def samplePublic : Vector UInt8 32 :=
  #v[0x03, 0xa1, 0x07, 0xbf, 0xf3, 0xce, 0x10, 0xbe, 0x1d, 0x70, 0xdd, 0x18, 0xe7, 0x4b, 0xc0, 0x99,
    0x67, 0xe4, 0xd6, 0x30, 0x9b, 0xa5, 0x0d, 0x5f, 0x1d, 0xdc, 0x86, 0x64, 0x12, 0x55, 0x31, 0xb8]

def secondPublic : Vector UInt8 32 :=
  #v[0x29, 0xac, 0xba, 0xe1, 0x41, 0xbc, 0xca, 0xf0, 0xb2, 0x2e, 0x1a, 0x94, 0xd3, 0x4d, 0x0b, 0xc7,
    0x36, 0x1e, 0x52, 0x6d, 0x0b, 0xfe, 0x12, 0xc8, 0x97, 0x94, 0xbc, 0x93, 0x22, 0x96, 0x6d, 0xd7]

def sampleDigest : Vector UInt8 64 :=
  #v[0xed, 0x42, 0x42, 0xea, 0xd4, 0xac, 0x69, 0x48, 0x6e, 0xbb, 0xa1, 0x69, 0x49, 0x68, 0xb5, 0x92,
    0xf3, 0xcd, 0x47, 0x6b, 0x24, 0xe8, 0x13, 0xe7, 0x3b, 0x1a, 0xbe, 0xb1, 0xae, 0xbf, 0x8a, 0xa0,
    0x7d, 0xab, 0x55, 0x47, 0x99, 0x89, 0x3a, 0x1e, 0x66, 0x44, 0x9b, 0x6e, 0x4b, 0xde, 0x23, 0x4a,
    0xa9, 0xa2, 0x15, 0xf9, 0x22, 0x51, 0xb7, 0xef, 0xd3, 0x77, 0x21, 0x1b, 0xbb, 0xac, 0xa1, 0xf9]

def sampleFingerprint : Vector UInt8 8 := #v[0xed, 0x42, 0x42, 0xea, 0xd4, 0xac, 0x69, 0x48]

def secondDigest : Vector UInt8 64 :=
  #v[0xb1, 0x9e, 0xda, 0xd2, 0x95, 0x89, 0x34, 0xe1, 0xad, 0x49, 0xce, 0x77, 0x9f, 0x50, 0xfa, 0x02,
    0x1e, 0xf0, 0xde, 0xe2, 0xe1, 0xb4, 0x37, 0x58, 0x1e, 0x13, 0x99, 0x4b, 0x6a, 0x27, 0xa7, 0xf7,
    0xaa, 0x96, 0xb5, 0x49, 0xef, 0x34, 0x06, 0x92, 0x23, 0xa5, 0x08, 0x5e, 0x0a, 0x63, 0x04, 0xd8,
    0xba, 0x6e, 0xeb, 0x42, 0xe5, 0xc0, 0x5f, 0x56, 0xa4, 0xc8, 0x82, 0xc1, 0x6c, 0x59, 0xa6, 0x6e]

def sampleSignature : Vector UInt8 64 :=
  #v[0xf7, 0xad, 0xa4, 0xf8, 0xfa, 0x3d, 0xd8, 0xbe, 0xa1, 0xdf, 0xf1, 0xd1, 0xd1, 0x63, 0x36, 0x4b,
    0x77, 0x57, 0x18, 0x77, 0x41, 0x2e, 0xd5, 0x1c, 0x57, 0x78, 0xb4, 0x44, 0x13, 0xcf, 0xfb, 0x73,
    0x1d, 0x03, 0x04, 0x6e, 0xd7, 0x2a, 0xbb, 0xa3, 0x4f, 0x59, 0x49, 0x67, 0x56, 0x11, 0xc1, 0x6d,
    0x1f, 0xc8, 0x75, 0xe0, 0x72, 0xcc, 0x20, 0xbb, 0x0a, 0xe3, 0x0a, 0xce, 0xde, 0xf6, 0x49, 0x09]

def datedSignature : Vector UInt8 64 :=
  #v[0x1c, 0x99, 0x36, 0x8c, 0x6b, 0xbb, 0x16, 0xd8, 0x6c, 0xeb, 0xcf, 0xee, 0xc8, 0x41, 0x51, 0x60,
    0xa4, 0x6c, 0x3c, 0xba, 0x78, 0xa7, 0xe2, 0x6e, 0x2b, 0xb0, 0x3c, 0x7b, 0x99, 0xd2, 0xdc, 0xd6,
    0x97, 0x8e, 0xc4, 0xf5, 0xad, 0xfa, 0xae, 0x0f, 0x0f, 0xb9, 0xf0, 0xfa, 0x77, 0x4a, 0x2f, 0xe3,
    0x9a, 0x35, 0xd9, 0x4e, 0x84, 0x55, 0x47, 0xeb, 0x4a, 0x25, 0xbf, 0x53, 0x70, 0xe0, 0xe6, 0x07]

def secondSignature : Vector UInt8 64 :=
  #v[0x67, 0x7e, 0x2c, 0x49, 0xb0, 0x83, 0xaa, 0x5c, 0x6b, 0xe9, 0xdc, 0xdc, 0xa8, 0xb5, 0x0c, 0x04,
    0x3b, 0xe1, 0x74, 0xe3, 0xa8, 0x21, 0x74, 0xd3, 0xc7, 0xdb, 0x53, 0x9c, 0x33, 0x5c, 0x71, 0xe1,
    0x55, 0x3a, 0xba, 0xdb, 0x2d, 0xfc, 0x9e, 0x41, 0x84, 0x58, 0xd2, 0x16, 0x7f, 0xdf, 0x12, 0x6a,
    0x02, 0x78, 0x00, 0xc3, 0x83, 0xf2, 0xd6, 0x2c, 0x27, 0xa4, 0x70, 0x11, 0x0c, 0x72, 0x39, 0x02]

def datedBody : Bytes :=
  [0xff, 0xe1, 0x00, 0x6e] ++ exifIdentifier ++
  [0x49, 0x49, 0x2a, 0x00, 0x08, 0x00, 0x00, 0x00, 0x01, 0x00, 0x69, 0x87, 0x04, 0x00, 0x01, 0x00,
    0x00, 0x00, 0x1a, 0x00, 0x00, 0x00, 0x00, 0x00, 0x00, 0x00, 0x03, 0x00, 0x03, 0x90, 0x02, 0x00,
    0x14, 0x00, 0x00, 0x00, 0x44, 0x00, 0x00, 0x00, 0x11, 0x90, 0x02, 0x00, 0x07, 0x00, 0x00, 0x00,
    0x58, 0x00, 0x00, 0x00, 0x91, 0x92, 0x02, 0x00, 0x07, 0x00, 0x00, 0x00, 0x5f, 0x00, 0x00, 0x00,
    0x00, 0x00, 0x00, 0x00] ++
  ascii "2026:07:17 06:24:01" ++ [0] ++ ascii "+00:00" ++ [0] ++ ascii "123456" ++ [0]

def sampleSigned (pub message : Bytes) : Vector UInt8 64 :=
  if pub = samplePublic.toList ∧ message = soi then sampleSignature
  else if pub = samplePublic.toList ∧ message = soi ++ datedBody then datedSignature
  else if pub = secondPublic.toList ∧ message = soi ++ datedBody ++
      segment sampleFingerprint datedSignature then secondSignature
  else Vector.replicate 64 0

def sampleCrypto : Crypto where
  keyPair seed :=
    let pub := if seed = sampleSeed then samplePublic
      else if seed = secondSeed then secondPublic else seed
    (seed ++ pub, pub)
  sign secret message := sampleSigned (secret.toList.drop 32) message
  check sig pub message := sig = sampleSigned pub.toList message
  sha512 message :=
    if message = samplePublic.toList then sampleDigest
    else if message = secondPublic.toList then secondDigest
    else Vector.replicate 64 0

theorem sample_sign (seed : Vector UInt8 32) (message : Bytes) :
    sampleCrypto.sign (keyOfSeed sampleCrypto seed).secretKey message =
      sampleSigned (keyOfSeed sampleCrypto seed).publicKey.toList message := by
  show sampleSigned ((seed ++ (keyOfSeed sampleCrypto seed).publicKey).toList.drop 32) message = _
  rw [Vector.toList_append, List.drop_left' (by simp)]

theorem sample_unforgeable : Unforgeable sampleCrypto := by
  intro seed sig message h
  rw [sample_sign]
  exact of_decide_eq_true h

theorem sample_accepting : Accepting sampleCrypto := by
  intro seed message
  rw [sample_sign]
  exact decide_eq_true rfl

end Tampering

end RaptorCommon.JpegSeal
