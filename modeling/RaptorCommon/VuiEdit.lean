import RaptorCommon.VuiEscape
import RaptorCommon.VuiWalk

/-!
# Editing the VUI

An edit writes the full-range flag, or the matrix coefficients, into the
unescaped SPS and escapes it again. It is committed when the escaped length is
the one before, so that the buffer keeps its length.
-/

set_option autoImplicit false

namespace RaptorCommon.VuiEdit
open RaptorCommon.CText RaptorCommon.BitString RaptorCommon.StreamReader RaptorCommon.VuiReader
open RaptorCommon.VuiWalk RaptorCommon.VuiEscape

section Bits

def bitMask (pos : ℕ) : Byte := UInt8.ofNat (1 <<< (7-pos%8))

def setBit (rbsp : Bytes) (pos : ℕ) (x : Bool) : Bytes :=
  rbsp.modify (pos/8) fun c => if x then c ||| bitMask pos else c &&& ~~~bitMask pos

def setBits : List Bool → ℕ → Bytes → Bytes
  | [], _, rbsp => rbsp
  | x::xs, pos, rbsp => setBits xs (pos+1) (setBit rbsp pos x)

theorem mask_toNat (pos : ℕ) : (bitMask pos).toNat = 2^(7-pos%8) := by
  have hlt : 2^(7-pos%8) < 2^8 := Nat.pow_lt_pow_right (by omega) (by omega)
  rw [bitMask, UInt8.toNat_ofNat', Nat.one_shiftLeft, Nat.mod_eq_of_lt hlt]

theorem mask_bit (pos : ℕ) {i : ℕ} (hi : i < 8) :
    (bitMask pos).toNat.testBit (7-i) = decide (i = pos%8) := by
  rw [mask_toNat, Nat.testBit_two_pow]
  apply decide_eq_decide.mpr
  omega

theorem complement_bit (c : Byte) {i : ℕ} (hi : i < 8) :
    (~~~c).toNat.testBit (7-i) = !c.toNat.testBit (7-i) := by
  have hlt : c.toNat < 2^8 := c.toNat_lt
  have hsub : UInt8.size-1-c.toNat = 2^8-(c.toNat+1) := by
    show 256-1-c.toNat = 256-(c.toNat+1)
    omega
  rw [UInt8.toNat_not, hsub, Nat.testBit_two_pow_sub_succ hlt, decide_eq_true (by omega),
    Bool.true_and]

theorem masked_bit (c : Byte) (pos : ℕ) (x : Bool) {i : ℕ} (hi : i < 8) :
    (if x then c ||| bitMask pos else c &&& ~~~bitMask pos).toNat.testBit (7-i) =
      if i = pos%8 then x else c.toNat.testBit (7-i) := by
  cases x with
  | true =>
    rw [if_pos rfl, UInt8.toNat_or, Nat.testBit_or, mask_bit pos hi]
    by_cases h : i = pos%8 <;> simp [h]
  | false =>
    rw [if_neg (by decide), UInt8.toNat_and, Nat.testBit_and, complement_bit _ hi, mask_bit pos hi]
    by_cases h : i = pos%8 <;> simp [h]

@[simp] theorem set_bit_length (rbsp : Bytes) (pos : ℕ) (x : Bool) :
    (setBit rbsp pos x).length = rbsp.length := List.length_modify _ _ _

theorem set_bit_bits {rbsp : Bytes} {pos : ℕ} (h : pos < 8*rbsp.length) (x : Bool) :
    bytesBits (setBit rbsp pos x) = (bytesBits rbsp).set pos x := by
  ext1 i
  rw [bytesBits_getElem?, setBit, List.getElem?_modify]
  by_cases hbyte : pos/8 = i/8
  · have hi : i/8 < rbsp.length := by omega
    have hset : pos = i ↔ i%8 = pos%8 := by omega
    have hold : (bytesBits rbsp)[i]? = some ((rbsp[i/8]).toNat.testBit (7-i%8)) := by
      rw [bytesBits_getElem?, List.getElem?_eq_getElem hi]
      rfl
    simp only [hbyte, if_true, List.getElem?_eq_getElem hi, Option.map_eq_map, Option.map_some,
      masked_bit _ pos x (Nat.mod_lt i (by omega : 0 < 8)), ← hset]
    by_cases hpos : pos = i
    · rw [if_pos hpos, hpos, List.getElem?_set_self (by simp; omega)]
    · rw [if_neg hpos, List.getElem?_set_ne hpos, hold]
  · have hpos : pos ≠ i := by
      intro hpos
      exact hbyte (by rw [hpos])
    rw [List.getElem?_set_ne hpos, bytesBits_getElem?]
    simp [hbyte]

theorem set_bits_bits {rbsp : Bytes} {xs : List Bool} {pos : ℕ}
    (h : pos+xs.length ≤ 8*rbsp.length) :
    bytesBits (setBits xs pos rbsp) = overwritten (bytesBits rbsp) pos xs := by
  induction xs generalizing rbsp pos with
  | nil => exact (overwritten_nil _ pos).symm
  | cons x xs ih =>
    rw [List.length_cons] at h
    have hlt : pos < (bytesBits rbsp).length := by
      rw [bytesBits_length]
      omega
    rw [setBits, ih (by rw [set_bit_length]; omega), set_bit_bits (by omega), overwritten_cons hlt]

end Bits

section Editing

def vuiRbspMax : ℕ := 1024

variable (shift32 : UInt32)

/-- From the full-range flag on to the matrix coefficients. -/
def vuiMatrixBit (fullRangeBit : ℕ) : Walk ℕ := fun b =>
  let walk : Walk ℕ := do
    skipBits 1
    let described ← vbFlag
    if described then do
      skipBits 8
      skipBits 8
      hereUnlessOverflow
    else unsignalled
  walk { b with bit := fullRangeBit, overflow := false }

def fullRangeBit (isH265 : Bool) : Walk ℕ :=
  if isH265 then h265FullRangeBit shift32 else h264FullRangeBit shift32

def stopCode : Stop → ℤ
  | .absent => 0
  | .bad => -1

def editRbsp (isH265 : Bool) (matrix : Option Byte) (rbsp : Bytes) : Except ℤ Bytes :=
  match fullRangeBit shift32 isH265 (bitReader rbsp) with
  | .error stop => .error (stopCode stop)
  | .ok (bit, b) =>
    if rbsp.length*8 ≤ bit then .error (-1)
    else match matrix with
      | none =>
        if rbsp.getD (bit/8) 0 &&& bitMask bit ≠ 0 then .error 0
        else .ok (setBit rbsp bit true)
      | some matrix => match vuiMatrixBit bit b with
        | .error stop => .error (stopCode stop)
        | .ok (mbit, b) =>
          if rbsp.length*8 < mbit+8 then .error (-1)
          else
            let r := { b with bit := mbit, overflow := false }
            if (readFrom 8 0 r).1 = matrix.toUInt32 then .error 0
            else .ok (setBits (byteBits matrix) mbit rbsp)

def startCode (nal : Bytes) (len : ℕ) : ℕ :=
  if 4 < len ∧ nal.getD 0 0 = 0 ∧ nal.getD 1 0 = 0 then
    if nal.getD 2 0 = 1 then 3
    else if nal.getD 2 0 = 0 ∧ nal.getD 3 0 = 1 then 4
    else 0
  else 0

def headerSize (isH265 : Bool) : ℕ := if isH265 then 2 else 1

def isSps (isH265 : Bool) (header : Byte) : Bool :=
  if isH265 then (header >>> 1) &&& 0x3f = 33 else header &&& 0x1f = 7

def headEnd (isH265 : Bool) (nal : Bytes) (len : ℕ) : ℕ := startCode nal len + headerSize isH265

def payload (head len : ℕ) (nal : Bytes) : Bytes := (nal.take len).drop head

def vuiEdit (isH265 : Bool) (matrix : Option Byte) (nal : Option Bytes) (len : UInt32) :
    ℤ × Option Bytes :=
  match nal with
  | none => (-1, nal)
  | some bytes =>
    if len < 4 then (-1, nal)
    else
      let start := startCode bytes len.toNat
      let head := headEnd isH265 bytes len.toNat
      if len.toNat ≤ head ∨ vuiRbspMax < len.toNat-head then (-1, nal)
      else if ¬isSps isH265 (bytes.getD start 0) then (-1, nal)
      else
        let rbsp := vuiUnescape (payload head len.toNat bytes) vuiRbspMax
        match editRbsp shift32 isH265 matrix rbsp with
        | .error code => (code, nal)
        | .ok rbsp =>
          let esc := vuiEscape rbsp (vuiRbspMax+64)
          if esc.length ≠ len.toNat-head then (-1, nal)
          else (1, some (bytes.take head ++ esc ++ bytes.drop len.toNat))

def rssVuiSetFullRange (nal : Option Bytes) (len : UInt32) (isH265 : Bool) : ℤ × Option Bytes :=
  vuiEdit shift32 isH265 none nal len

def rssVuiSetMatrix (nal : Option Bytes) (len : UInt32) (isH265 : Bool) (matrix : Byte) :
    ℤ × Option Bytes :=
  vuiEdit shift32 isH265 (some matrix) nal len

end Editing

section Fields

variable (shift32 : UInt32) (isH265 : Bool)

/-- The walk to what is edited, which is the flag where no matrix is given. -/
def fieldBit (matrix : Option Byte) : Walk ℕ := do
  let bit ← fullRangeBit shift32 isH265
  match matrix with
  | none => return bit
  | some _ => vuiMatrixBit bit

def fieldBits : Option Byte → List Bool
  | none => [true]
  | some matrix => byteBits matrix

/-- The edited payload: the field the walk finds is written over, and that
changes it. -/
structure FieldWritten (matrix : Option Byte) (rbsp rbsp' : Bytes) : Prop where
  written : ∃ bit b, fieldBit shift32 isH265 matrix (bitReader rbsp) = .ok (bit, b) ∧
    bit+(fieldBits matrix).length ≤ 8*rbsp.length ∧
    bytesBits rbsp' = overwritten (bytesBits rbsp) bit (fieldBits matrix)
  changed : bytesBits rbsp' ≠ bytesBits rbsp

variable {shift32 isH265}

theorem walks_full_range : Walks (fullRangeBit shift32 isH265) := by
  unfold fullRangeBit
  cases isH265 with
  | true => exact walks_h265 shift32
  | false => exact walks_h264 shift32

theorem full_range_within {rbsp : Bytes} {r : ℕ × VuiBits}
    (h : fullRangeBit shift32 isH265 (bitReader rbsp) = .ok r) : Within rbsp r.2 := by
  have hstart : Within rbsp (bitReader rbsp) := ⟨rfl, rfl, Nat.zero_le _⟩
  exact walks_within walks_full_range _ r hstart h

theorem walks_described : Walks (do
    let described ← vbFlag
    if described then do
      skipBits 8
      skipBits 8
      hereUnlessOverflow
    else unsignalled) := by
  apply Built.bind walks_flag
  intro described
  apply built_ite _ walks_unsignalled
  exact built_then (walks_skip 8) (built_then (walks_skip 8) walks_here)

theorem matrix_bit_within {rbsp : Bytes} {bit : ℕ} {b : VuiBits} {r : ℕ × VuiBits}
    (hbit : bit ≤ rbsp.length*8) (hb : Within rbsp b) (h : vuiMatrixBit bit b = .ok r) :
    Within rbsp r.2 := by
  have hstart : Within rbsp { b with bit := bit, overflow := false } := ⟨hb.buf, hb.size, hbit⟩
  exact walks_within (built_then (walks_skip 1) walks_described) _ r hstart h

theorem field_bit_flag (b : VuiBits) :
    fieldBit shift32 isH265 none b = fullRangeBit shift32 isH265 b := by
  have hrun : fieldBit shift32 isH265 none b =
      (fullRangeBit shift32 isH265 b).bind fun r => .ok (r.1, r.2) := rfl
  rw [hrun]
  cases fullRangeBit shift32 isH265 b <;> rfl

theorem field_bit_matrix {matrix : Byte} {b : VuiBits} {r : ℕ × VuiBits}
    (h : fullRangeBit shift32 isH265 b = .ok r) :
    fieldBit shift32 isH265 (some matrix) b = vuiMatrixBit r.1 r.2 := by
  have hrun : fieldBit shift32 isH265 (some matrix) b =
      (fullRangeBit shift32 isH265 b).bind fun r => vuiMatrixBit r.1 r.2 := rfl
  rw [hrun, h]
  rfl

theorem flag_written {rbsp : Bytes} {bit : ℕ} {b : VuiBits}
    (hwalk : fullRangeBit shift32 isH265 (bitReader rbsp) = .ok (bit, b))
    (hlt : bit < rbsp.length*8) (hoff : rbsp.getD (bit/8) 0 &&& bitMask bit = 0) :
    FieldWritten shift32 isH265 none rbsp (setBit rbsp bit true) := by
  have hfit : bit+[true].length ≤ 8*rbsp.length := by
    rw [List.length_singleton]
    omega
  have hbits : bytesBits (setBit rbsp bit true) = overwritten (bytesBits rbsp) bit [true] :=
    set_bits_bits hfit
  refine ⟨⟨bit, b, by rw [field_bit_flag, hwalk], hfit, hbits⟩, ?_⟩
  intro hsame
  rw [hbits] at hsame
  have hdrop := overwritten_field (by rw [bytesBits_length]; omega) hsame
  have hon : (bytesBits rbsp)[bit]? = some true := by
    rw [← Nat.add_zero bit, ← List.getElem?_drop, hdrop]
    rfl
  have hi : bit/8 < rbsp.length := by omega
  rw [bytesBits_getElem?, List.getElem?_eq_getElem hi, Option.map_some, Option.some.injEq] at hon
  rw [List.getD_eq_getElem _ _ hi] at hoff
  have hbit := congrArg (fun c : Byte => c.toNat.testBit (7-bit%8)) hoff
  simp only [UInt8.toNat_and, Nat.testBit_and, hon,
    mask_bit bit (Nat.mod_lt bit (by omega : 0 < 8))] at hbit
  simp at hbit

theorem matrix_written {rbsp : Bytes} {matrix : Byte} {bit mbit : ℕ} {b b' : VuiBits}
    (hlen : rbsp.length ≤ vuiRbspMax)
    (hwalk : fullRangeBit shift32 isH265 (bitReader rbsp) = .ok (bit, b))
    (hlt : bit < rbsp.length*8) (hmatrix : vuiMatrixBit bit b = .ok (mbit, b'))
    (hfit : mbit+8 ≤ rbsp.length*8)
    (hother : (readFrom 8 0 { b' with bit := mbit, overflow := false }).1 ≠ matrix.toUInt32) :
    FieldWritten shift32 isH265 (some matrix) rbsp (setBits (byteBits matrix) mbit rbsp) := by
  have hwithin : Within rbsp b' :=
    matrix_bit_within (by omega) (full_range_within hwalk) hmatrix
  have hfit' : mbit+(byteBits matrix).length ≤ 8*rbsp.length := by
    rw [byteBits_length]
    omega
  have hbits := set_bits_bits hfit'
  refine ⟨⟨mbit, b', by rw [field_bit_matrix hwalk, hmatrix], hfit', hbits⟩, ?_⟩
  intro hsame
  rw [hbits] at hsame
  have hdrop := overwritten_field (by rw [bytesBits_length]; omega) hsame
  apply hother
  have hmax : vuiRbspMax = 1024 := rfl
  have hready : stream.Fit { b' with bit := mbit, overflow := false } := by
    refine ⟨rfl, ?_, ?_, ?_⟩
    · show b'.size = b'.buf.length
      rw [hwithin.buf, hwithin.size]
    · show b'.size*8 < 2^32
      rw [hwithin.size]
      omega
    · show mbit ≤ b'.size*8
      rw [hwithin.size]
      omega
  have hahead : stream.rest { b' with bit := mbit, overflow := false } =
      byteBits matrix ++ (bytesBits rbsp).drop (mbit+(byteBits matrix).length) := by
    show (bytesBits b'.buf).drop mbit = _
    rw [hwithin.buf, hdrop]
  have hread := read_from_bits 0 hready hahead
  rw [byteBits_length] at hread
  have hvalue : value (byteBits matrix) = matrix.toNat := value_of_digits matrix.toNat_lt
  rw [hread, hvalue]
  simp

theorem edit_rbsp_written {matrix : Option Byte} {rbsp rbsp' : Bytes}
    (hlen : rbsp.length ≤ vuiRbspMax) (h : editRbsp shift32 isH265 matrix rbsp = .ok rbsp') :
    FieldWritten shift32 isH265 matrix rbsp rbsp' := by
  unfold editRbsp at h
  cases hwalk : fullRangeBit shift32 isH265 (bitReader rbsp) with
  | error stop =>
    rw [hwalk] at h
    cases h
  | ok r =>
    obtain ⟨bit, b⟩ := r
    rw [hwalk] at h
    dsimp only at h
    split at h
    · cases h
    next hlt =>
      cases matrix with
      | none =>
        dsimp only at h
        split at h
        · cases h
        next hoff =>
          cases h
          exact flag_written hwalk (by omega) (not_not.mp hoff)
      | some matrix =>
        dsimp only at h
        cases hmatrix : vuiMatrixBit bit b with
        | error stop =>
          rw [hmatrix] at h
          cases h
        | ok r =>
          obtain ⟨mbit, b'⟩ := r
          rw [hmatrix] at h
          dsimp only at h
          split at h
          · cases h
          next hfit =>
            split at h
            · cases h
            next hother =>
              cases h
              exact matrix_written hlen hwalk (by omega) hmatrix (by omega) hother

theorem edit_rbsp_code {matrix : Option Byte} {rbsp : Bytes} {code : ℤ}
    (h : editRbsp shift32 isH265 matrix rbsp = .error code) : code = 0 ∨ code = -1 := by
  have hstop : ∀ stop, stopCode stop = 0 ∨ stopCode stop = -1 := by
    intro stop
    cases stop with
    | absent => exact Or.inl rfl
    | bad => exact Or.inr rfl
  unfold editRbsp at h
  split at h
  next stop _ =>
    cases h
    exact hstop stop
  · split at h
    · cases h
      exact Or.inr rfl
    · split at h
      · split at h
        · cases h
          exact Or.inl rfl
        · cases h
      · split at h
        next stop _ =>
          cases h
          exact hstop stop
        · split at h
          · cases h
            exact Or.inr rfl
          · dsimp only at h
            split at h
            · cases h
              exact Or.inl rfl
            · cases h

end Fields

section Buffers

variable (shift32 : UInt32) (isH265 : Bool)

/-- What an edit did to the buffer: the start code, the header and what is
behind the NAL stay, the field of the payload changed, and the payload shows no
start code. -/
structure Edited (matrix : Option Byte) (head len : ℕ) (nal nal' : Bytes) : Prop where
  length : nal'.length = nal.length
  front : nal'.take head = nal.take head
  behind : nal'.drop len = nal.drop len
  field : FieldWritten shift32 isH265 matrix
    (unescapeBytes none none (payload head len nal)) (unescapeBytes none none (payload head len nal'))
  guarded : ∀ front c back, payload head len nal' = front ++ 0::0::c::back → 2 < c

def Outcome (matrix : Option Byte) (nal : Option Bytes) (len : UInt32)
    (r : ℤ × Option Bytes) : Prop :=
  ((r.1 = 0 ∨ r.1 = -1) ∧ r.2 = nal) ∨
    (r.1 = 1 ∧ ∃ bytes bytes', nal = some bytes ∧ r.2 = some bytes' ∧
      Edited shift32 isH265 matrix (headEnd isH265 bytes len.toNat) len.toNat bytes bytes')

variable {shift32 isH265}

theorem payload_length {head len : ℕ} {nal : Bytes} (h : len ≤ nal.length) :
    (payload head len nal).length = len-head := by
  rw [payload, List.length_drop, List.length_take_of_le h]

theorem payload_replaced {head len : ℕ} {nal esc : Bytes} (hhead : head ≤ len)
    (h : len ≤ nal.length) (hesc : esc.length = len-head) :
    payload head len (nal.take head ++ esc ++ nal.drop len) = esc := by
  have hfront : (nal.take head).length = head := List.length_take_of_le (by omega)
  have hlen : (nal.take head ++ esc).length = len := by
    rw [List.length_append, hfront, hesc]
    omega
  rw [payload, List.take_left' hlen, List.drop_left' hfront]

theorem edited_replaced {matrix : Option Byte} {head len : ℕ} {nal rbsp : Bytes}
    (hhead : head ≤ len) (h : len ≤ nal.length)
    (hfield : FieldWritten shift32 isH265 matrix (unescapeBytes none none (payload head len nal)) rbsp)
    (hesc : (escapeBytes 0 rbsp).length = len-head) :
    Edited shift32 isH265 matrix head len nal
      (nal.take head ++ escapeBytes 0 rbsp ++ nal.drop len) := by
  have hpayload := payload_replaced hhead h hesc
  have hfront : (nal.take head).length = head := List.length_take_of_le (by omega)
  have hlen : (nal.take head ++ escapeBytes 0 rbsp).length = len := by
    rw [List.length_append, hfront, hesc]
    omega
  have hcounts : Counts 0 none none := by constructor <;> simp
  constructor
  · rw [List.length_append, hlen, List.length_drop]
    omega
  · rw [List.append_assoc, List.take_left' hfront]
  · rw [List.drop_left' hlen]
  · rw [hpayload, unescape_escape hcounts]
    exact hfield
  · intro front c back hcode
    rw [hpayload] at hcode
    have hguarded := escape_guarded 0 rbsp
    rw [hcode] at hguarded
    exact guarded_code hguarded

theorem edit_outcome (matrix : Option Byte) (nal : Option Bytes) (len : UInt32)
    (h : ∀ bytes ∈ nal, len.toNat ≤ bytes.length) :
    Outcome shift32 isH265 matrix nal len (vuiEdit shift32 isH265 matrix nal len) := by
  have hbad : Outcome shift32 isH265 matrix nal len (-1, nal) := Or.inl ⟨Or.inr rfl, rfl⟩
  cases nal with
  | none => exact hbad
  | some bytes =>
    have hlen : len.toNat ≤ bytes.length := h bytes rfl
    unfold vuiEdit
    dsimp only
    split
    · exact hbad
    split
    · exact hbad
    next hsize =>
      have hpayload : (payload (headEnd isH265 bytes len.toNat) len.toNat bytes).length =
          len.toNat-headEnd isH265 bytes len.toNat := payload_length hlen
      have hshort := unescape_length none none (payload (headEnd isH265 bytes len.toNat) len.toNat bytes)
      have hwhole := List.take_of_length_le (i := vuiRbspMax)
        (l := unescapeBytes none none (payload (headEnd isH265 bytes len.toNat) len.toNat bytes))
        (by omega)
      split
      · exact hbad
      split
      next code hcode => exact Or.inl ⟨edit_rbsp_code hcode, rfl⟩
      next rbsp hrbsp =>
        rw [vuiUnescape, hwhole] at hrbsp
        split
        · exact hbad
        next hesc =>
          have hfits : (escapeBytes 0 rbsp).length ≤ vuiRbspMax+64 := by
            by_contra hlong
            rw [vuiEscape, if_neg hlong, List.length_nil] at hesc
            omega
          rw [vuiEscape, if_pos hfits] at hesc ⊢
          refine Or.inr ⟨rfl, bytes, _, rfl, rfl, ?_⟩
          apply edited_replaced (by omega) hlen _ (by omega)
          exact edit_rbsp_written (by omega) hrbsp

/-- Both edits of an SPS, for any buffer that has the bytes its length says. -/
theorem edits_field (shift32 : UInt32) (nal : Option Bytes) (len : UInt32) (isH265 : Bool)
    (h : ∀ bytes ∈ nal, len.toNat ≤ bytes.length) :
    Outcome shift32 isH265 none nal len (rssVuiSetFullRange shift32 nal len isH265) ∧
      ∀ matrix, Outcome shift32 isH265 (some matrix) nal len
        (rssVuiSetMatrix shift32 nal len isH265 matrix) := by
  constructor
  · exact edit_outcome none nal len h
  · intro matrix
    exact edit_outcome (some matrix) nal len h

def sampleSps : Bytes :=
  [0, 0, 0, 1, 0x67, 0x42, 0, 0x1e, 0xdd, 0xc9, 0xa8, 0x08, 0x08, 0x0c]

theorem edits_field_sample :
    (Outcome 0 false none (some sampleSps) 14 (rssVuiSetFullRange 0 (some sampleSps) 14 false) ∧
      ∀ matrix, Outcome 0 false (some matrix) (some sampleSps) 14
        (rssVuiSetMatrix 0 (some sampleSps) 14 false matrix)) ∧
    (rssVuiSetFullRange 0 (some sampleSps) 14 false).1 = 1 ∧
      (rssVuiSetMatrix 0 (some sampleSps) 14 false 9).1 = 1 := by
  refine ⟨?_, by decide +kernel, by decide +kernel⟩
  apply edits_field
  intro bytes hbytes
  cases hbytes
  decide

end Buffers

end RaptorCommon.VuiEdit
