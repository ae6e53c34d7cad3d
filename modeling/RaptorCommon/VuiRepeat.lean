import RaptorCommon.VuiEdit

/-!
# Repeated and reordered edits

The walk to a field reads no bit that an edit of the field, or of the other
one, writes. So a second edit finds the field where the first one did, and the
two edits of a payload may change places. Escaping gives a payload one form,
and with it the buffers agree.
-/

set_option autoImplicit false

namespace RaptorCommon.VuiRepeat
open RaptorCommon.CText RaptorCommon.BitString RaptorCommon.StreamReader RaptorCommon.VuiReader
open RaptorCommon.VuiWalk RaptorCommon.VuiEscape RaptorCommon.VuiEdit

section Places

def readerAt (rbsp : Bytes) (bit : ℕ) : VuiBits := { bitReader rbsp with bit := bit }

def Ends (p : Walk ℕ) : Prop := ∀ b r, p b = .ok r → r.2.bit = r.1 ∧ r.2.overflow = false

theorem ends_bind {α : Type} {p : Walk α} {f : α → Walk ℕ} (h : ∀ a, Ends (f a)) :
    Ends (p >>= f) := by
  intro b r hr
  obtain ⟨q, -, hq⟩ := bind_ok hr
  exact h q.1 q.2 r hq

theorem ends_ite {c : Prop} [Decidable c] {p q : Walk ℕ} (hp : Ends p) (hq : Ends q) :
    Ends (if c then p else q) := by
  split
  · exact hp
  · exact hq

theorem ends_here : Ends hereUnlessOverflow := by
  intro b r hr
  unfold hereUnlessOverflow at hr
  split at hr
  · cases hr
  next hover =>
    cases hr
    exact ⟨rfl, Bool.eq_false_iff.mpr hover⟩

theorem ends_unsignalled : Ends unsignalled := by
  intro b r hr
  cases hr

theorem ends_vui : Ends vuiFullRangeBit := by
  apply ends_bind
  intro vuiPresent
  apply ends_ite _ ends_unsignalled
  apply ends_bind
  intro _
  apply ends_bind
  intro overscan
  apply ends_bind
  intro _
  apply ends_bind
  intro signal
  apply ends_ite _ ends_unsignalled
  apply ends_bind
  intro _
  exact ends_here

variable {shift32 : UInt32} {isH265 : Bool}

theorem ends_full_range : Ends (fullRangeBit shift32 isH265) := by
  unfold fullRangeBit
  cases isH265 with
  | true =>
    show Ends (h265FullRangeBit shift32)
    unfold h265FullRangeBit
    iterate 27
      apply ends_bind
      intro _
    exact ends_vui
  | false =>
    show Ends (h264FullRangeBit shift32)
    unfold h264FullRangeBit
    iterate 15
      apply ends_bind
      intro _
    exact ends_vui

def describedBit : Walk ℕ := do
  let described ← vbFlag
  if described then do
    skipBits 8
    skipBits 8
    hereUnlessOverflow
  else unsignalled

theorem ends_described : Ends describedBit := by
  apply ends_bind
  intro described
  apply ends_ite _ ends_unsignalled
  apply ends_bind
  intro _
  apply ends_bind
  intro _
  exact ends_here

theorem reader_at {rbsp : Bytes} {r : ℕ × VuiBits} (hr : Within rbsp r.2)
    (hend : r.2.bit = r.1 ∧ r.2.overflow = false) : r.2 = readerAt rbsp r.1 := by
  obtain ⟨bit, b⟩ := r
  obtain ⟨hbuf, hsize, -⟩ := hr
  cases b
  simp only at hbuf hsize hend
  rw [hbuf, hsize, hend.1, hend.2]
  rfl

theorem full_range_at {rbsp : Bytes} {r : ℕ × VuiBits}
    (h : fullRangeBit shift32 isH265 (bitReader rbsp) = .ok r) : r.2 = readerAt rbsp r.1 :=
  reader_at (full_range_within h) (ends_full_range _ r h)

theorem full_range_same {x y : Bytes} {bit : ℕ} (hlen : x.length = y.length)
    (hsame : SameBits 0 bit x y)
    (h : fullRangeBit shift32 isH265 (bitReader x) = .ok (bit, readerAt x bit)) :
    fullRangeBit shift32 isH265 (bitReader y) = .ok (bit, readerAt y bit) := by
  have hrun := (walks_local walks_full_range (bitReader x) _ h).swap y hsame
  have hreader : ∀ bit, (readerAt x bit).swap y = readerAt y bit := by
    intro bit
    rw [readerAt, bitReader, hlen]
    rfl
  rw [hreader bit] at hrun
  rw [← hrun]
  exact congrArg (fullRangeBit shift32 isH265) (hreader 0).symm

theorem skip_one {rbsp : Bytes} {bit : ℕ} (hmax : rbsp.length ≤ vuiRbspMax)
    (h : bit < rbsp.length*8) :
    skipBits 1 (readerAt rbsp bit) = .ok ((), readerAt rbsp (bit+1)) := by
  have hsize : ¬(readerAt rbsp bit).size*8%2^32 ≤ (readerAt rbsp bit).bit := by
    have hmax' : rbsp.length ≤ 1024 := hmax
    show ¬rbsp.length*8%2^32 ≤ bit
    omega
  show Except.ok ((), (readFrom 1 0 (readerAt rbsp bit)).2) = _
  rw [readFrom, if_neg hsize]
  rfl

theorem matrix_run {rbsp : Bytes} {bit : ℕ} (hmax : rbsp.length ≤ vuiRbspMax)
    (h : bit < rbsp.length*8) :
    vuiMatrixBit bit (readerAt rbsp bit) = describedBit (readerAt rbsp (bit+1)) := by
  have hrun := bind_run (f := fun _ => describedBit) (skip_one hmax h)
  rw [← hrun]
  rfl

theorem matrix_at {rbsp : Bytes} {bit : ℕ} {r : ℕ × VuiBits} (hmax : rbsp.length ≤ vuiRbspMax)
    (hbit : bit < rbsp.length*8) (h : vuiMatrixBit bit (readerAt rbsp bit) = .ok r) :
    r.2 = readerAt rbsp r.1 ∧ bit < r.1 := by
  rw [matrix_run hmax hbit] at h
  have hstart : Within rbsp (readerAt rbsp (bit+1)) := ⟨rfl, rfl, hbit⟩
  have hat := reader_at (walks_within walks_described _ r hstart h) (ends_described _ r h)
  have hmoved := (walks_local walks_described _ r h).bit
  rw [hat] at hmoved
  exact ⟨hat, hmoved⟩

theorem matrix_moves {flag bit : ℕ} {b b' : VuiBits} (h : vuiMatrixBit flag b = .ok (bit, b')) :
    flag ≤ bit := by
  have hends : Ends (do skipBits 1; describedBit) := ends_bind fun _ => ends_described
  have hend := (hends _ _ h).1
  have hmoved := (walks_local (built_then (walks_skip 1) walks_described) _ _ h).bit
  rw [hend] at hmoved
  exact hmoved

theorem matrix_same {x y : Bytes} {bit mbit : ℕ} (hmax : x.length ≤ vuiRbspMax)
    (hlen : x.length = y.length) (hbit : bit < x.length*8) (hsame : SameBits (bit+1) mbit x y)
    (h : vuiMatrixBit bit (readerAt x bit) = .ok (mbit, readerAt x mbit)) :
    vuiMatrixBit bit (readerAt y bit) = .ok (mbit, readerAt y mbit) := by
  have hreader : ∀ bit, (readerAt x bit).swap y = readerAt y bit := by
    intro bit
    rw [readerAt, bitReader, hlen]
    rfl
  rw [matrix_run hmax hbit] at h
  rw [matrix_run (hlen ▸ hmax) (hlen ▸ hbit), ← hreader mbit, ← hreader (bit+1)]
  exact (walks_local walks_described _ _ h).swap y hsame

end Places

section Payloads

variable {shift32 : UInt32} {isH265 : Bool}

def HasField (matrix : Option Byte) (rbsp : Bytes) (bit : ℕ) : Prop :=
  ((bytesBits rbsp).drop bit).take (fieldBits matrix).length = fieldBits matrix

instance (matrix : Option Byte) (rbsp : Bytes) (bit : ℕ) : Decidable (HasField matrix rbsp bit) :=
  inferInstanceAs (Decidable (_ = _))

theorem flag_bit {rbsp : Bytes} {bit : ℕ} (h : bit < rbsp.length*8) :
    rbsp.getD (bit/8) 0 &&& bitMask bit ≠ 0 ↔ HasField none rbsp bit := by
  have hi : bit/8 < rbsp.length := by omega
  have hpos : bit%8 < 8 := Nat.mod_lt bit (by omega)
  have hbit : (bytesBits rbsp)[bit]? = some ((rbsp.getD (bit/8) 0).toNat.testBit (7-bit%8)) := by
    rw [bytesBits_getElem?, List.getElem?_eq_getElem hi, List.getD_eq_getElem _ _ hi]
    rfl
  have htake : HasField none rbsp bit ↔ (bytesBits rbsp)[bit]? = some true := by
    show ((bytesBits rbsp).drop bit).take 1 = [true] ↔ _
    rw [← Nat.add_zero bit, ← List.getElem?_drop, Nat.add_zero]
    cases (bytesBits rbsp).drop bit <;> simp
  rw [htake, hbit, Option.some.injEq, ne_eq, not_iff_comm]
  constructor
  · intro hoff
    apply UInt8.toNat.inj
    apply Nat.eq_of_testBit_eq
    intro j
    rw [UInt8.toNat_and, Nat.testBit_and, UInt8.toNat_zero, Nat.zero_testBit, mask_toNat,
      Nat.testBit_two_pow]
    by_cases hj : 7-bit%8 = j
    · rw [← hj, Bool.eq_false_iff.mpr hoff, Bool.false_and]
    · rw [decide_eq_false hj, Bool.and_false]
  · intro hzero hon
    have hboth := congrArg (fun c : Byte => c.toNat.testBit (7-bit%8)) hzero
    simp only [UInt8.toNat_and, Nat.testBit_and, hon, mask_bit bit hpos] at hboth
    simp at hboth

theorem matrix_bits {rbsp : Bytes} {matrix : Byte} {bit : ℕ} (hmax : rbsp.length ≤ vuiRbspMax)
    (h : bit+8 ≤ rbsp.length*8) :
    (readFrom 8 0 (readerAt rbsp bit)).1 = matrix.toUInt32 ↔ HasField (some matrix) rbsp bit := by
  have hmax' : rbsp.length ≤ 1024 := hmax
  have hfit : stream.Fit (readerAt rbsp bit) := by
    refine ⟨rfl, rfl, ?_, ?_⟩
    · show rbsp.length*8 < 2^32
      omega
    · show bit ≤ rbsp.length*8
      omega
  have hlen : (((bytesBits rbsp).drop bit).take 8).length = 8 := by
    rw [List.length_take_of_le]
    rw [List.length_drop, bytesBits_length]
    omega
  have hsplit : stream.rest (readerAt rbsp bit) =
      ((bytesBits rbsp).drop bit).take 8 ++ ((bytesBits rbsp).drop bit).drop 8 :=
    (List.take_append_drop 8 _).symm
  have hread := read_from_bits 0 hfit hsplit
  rw [hlen] at hread
  have hsmall := value_lt (((bytesBits rbsp).drop bit).take 8)
  have hbyte : (byteBits matrix).length = 8 := byteBits_length matrix
  rw [hlen] at hsmall
  rw [hread, HasField, fieldBits, hbyte, ← UInt32.toNat_inj, UInt32.toNat_ofNat']
  show (0*2^8+value _)%2^32 = matrix.toNat ↔ _
  constructor
  · intro hvalue
    have hdigits := digits_value (((bytesBits rbsp).drop bit).take 8)
    rw [hlen, show value _ = matrix.toNat by omega] at hdigits
    exact hdigits.symm
  · intro hfield
    rw [hfield]
    have hvalue : value (byteBits matrix) = matrix.toNat := value_of_digits matrix.toNat_lt
    have hlt : matrix.toNat < 2^8 := matrix.toNat_lt
    omega

variable (shift32 isH265)

/-- An edit of the payload that is not refused: it writes the field, or answers
0 and leaves what is there. -/
def Settles (matrix : Option Byte) (x y : Bytes) : Prop :=
  editRbsp shift32 isH265 matrix x = .ok y ∨ (editRbsp shift32 isH265 matrix x = .error 0 ∧ y = x)

/-- The field stands at this bit of the payload. -/
def Site (matrix : Option Byte) (rbsp : Bytes) (bit : ℕ) : Prop :=
  bit+(fieldBits matrix).length ≤ rbsp.length*8 ∧ match matrix with
    | none => fullRangeBit shift32 isH265 (bitReader rbsp) = .ok (bit, readerAt rbsp bit)
    | some _ => ∃ flag < bit,
      fullRangeBit shift32 isH265 (bitReader rbsp) = .ok (flag, readerAt rbsp flag) ∧
        vuiMatrixBit flag (readerAt rbsp flag) = .ok (bit, readerAt rbsp bit)

variable {shift32 isH265}

theorem site_edit {matrix : Option Byte} {rbsp : Bytes} {bit : ℕ} (hmax : rbsp.length ≤ vuiRbspMax)
    (h : Site shift32 isH265 matrix rbsp bit) :
    editRbsp shift32 isH265 matrix rbsp =
      if HasField matrix rbsp bit then .error 0 else .ok (setBits (fieldBits matrix) bit rbsp) := by
  obtain ⟨hfit, h⟩ := h
  unfold editRbsp
  cases matrix with
  | none =>
    have hlt : bit < rbsp.length*8 := hfit
    rw [show fullRangeBit shift32 isH265 (bitReader rbsp) = _ from h]
    dsimp only
    rw [if_neg (by omega), if_congr (flag_bit hlt) rfl rfl]
    rfl
  | some matrix =>
    obtain ⟨flag, hflag, hrun, hmatrix⟩ := h
    have hfit' : bit+8 ≤ rbsp.length*8 := hfit
    rw [hrun]
    dsimp only
    rw [if_neg (by omega), hmatrix]
    dsimp only
    rw [if_neg (by omega), show ({ readerAt rbsp bit with bit := bit, overflow := false } : VuiBits) =
      readerAt rbsp bit from rfl, if_congr (matrix_bits hmax hfit') rfl rfl]
    rfl

/-- What an edit writes over is the field at its site. -/
theorem edit_site {matrix : Option Byte} {x y : Bytes} (hmax : x.length ≤ vuiRbspMax)
    (h : editRbsp shift32 isH265 matrix x = .ok y) :
    ∃ bit, Site shift32 isH265 matrix x bit ∧
      bytesBits y = overwritten (bytesBits x) bit (fieldBits matrix) := by
  obtain ⟨⟨bit, b, hwalk, hfit, hbits⟩, -⟩ := edit_rbsp_written hmax h
  refine ⟨bit, ⟨by omega, ?_⟩, hbits⟩
  cases matrix with
  | none =>
    rw [field_bit_flag] at hwalk
    have hat := full_range_at hwalk
    rw [← hat]
    exact hwalk
  | some matrix =>
    obtain ⟨r, hrun, hmatrix⟩ := bind_ok hwalk
    have hfit' : bit+8 ≤ 8*x.length := hfit
    have hat := full_range_at hrun
    have hmoved := matrix_moves hmatrix
    rw [hat] at hmatrix
    obtain ⟨hend, hlt⟩ := matrix_at hmax (by omega) hmatrix
    refine ⟨r.1, hlt, by rw [← hat]; exact hrun, ?_⟩
    rw [← show b = readerAt x bit from hend]
    exact hmatrix

theorem site_flag {matrix : Option Byte} {rbsp : Bytes} {bit : ℕ}
    (h : Site shift32 isH265 matrix rbsp bit) : ∃ flag ≤ bit, Site shift32 isH265 none rbsp flag := by
  cases matrix with
  | none => exact ⟨bit, le_rfl, h⟩
  | some matrix =>
    obtain ⟨hfit, flag, hlt, hrun, -⟩ := h
    refine ⟨flag, hlt.le, ?_, hrun⟩
    show flag+1 ≤ _
    omega

theorem flag_unique {rbsp : Bytes} {i j : ℕ} (hi : Site shift32 isH265 none rbsp i)
    (hj : fullRangeBit shift32 isH265 (bitReader rbsp) = .ok (j, readerAt rbsp j)) : i = j := by
  have h := hi.2.symm.trans hj
  simp only [Except.ok.injEq, Prod.mk.injEq] at h
  exact h.1

theorem site_same {matrix : Option Byte} {x y : Bytes} {flag bit : ℕ} (hmax : x.length ≤ vuiRbspMax)
    (hlen : x.length = y.length) (hflag : Site shift32 isH265 none x flag)
    (hfront : SameBits 0 flag x y) (hback : SameBits (flag+1) bit x y)
    (h : Site shift32 isH265 matrix x bit) : Site shift32 isH265 matrix y bit := by
  have hrun := full_range_same hlen hfront hflag.2
  refine ⟨hlen ▸ h.1, ?_⟩
  cases matrix with
  | none =>
    obtain rfl := flag_unique hflag h.2
    exact hrun
  | some matrix =>
    obtain ⟨-, flag', hlt, hrun', hmatrix⟩ := h
    obtain rfl := flag_unique hflag hrun'
    have hin : flag < x.length*8 := hflag.1
    exact ⟨flag, hlt, hrun, matrix_same hmax hlen hin hback hmatrix⟩

theorem over_same {x y : Bytes} {field : List Bool} {i a b : ℕ} (hfit : i+field.length ≤ x.length*8)
    (hbits : bytesBits y = overwritten (bytesBits x) i field)
    (h : b ≤ i ∨ i+field.length ≤ a) : SameBits a b x y := by
  intro k ha hb
  rw [hbits, overwritten_getElem? (by rw [bytesBits_length]; omega), if_neg (by omega)]

theorem over_length {x y : Bytes} {field : List Bool} {i : ℕ} (hfit : i+field.length ≤ x.length*8)
    (hbits : bytesBits y = overwritten (bytesBits x) i field) : x.length = y.length := by
  have hlen := congrArg List.length hbits
  have hfront : ((bytesBits x).take i).length = i := by
    rw [List.length_take_of_le]
    rw [bytesBits_length]
    omega
  rw [overwritten, List.length_append, List.length_append, hfront, List.length_drop,
    bytesBits_length, bytesBits_length] at hlen
  omega

theorem over_field {matrix : Option Byte} {x y : Bytes} {i : ℕ}
    (hfit : i+(fieldBits matrix).length ≤ x.length*8)
    (hbits : bytesBits y = overwritten (bytesBits x) i (fieldBits matrix)) :
    HasField matrix y i := by
  have hfront : ((bytesBits x).take i).length = i := by
    rw [List.length_take_of_le]
    rw [bytesBits_length]
    omega
  rw [HasField, hbits, overwritten, List.append_assoc, List.drop_left' hfront, List.take_left]

theorem site_over {matrix : Option Byte} {x y : Bytes} {bit : ℕ} (hmax : x.length ≤ vuiRbspMax)
    (h : Site shift32 isH265 matrix x bit)
    (hbits : bytesBits y = overwritten (bytesBits x) bit (fieldBits matrix)) :
    Site shift32 isH265 matrix y bit := by
  obtain ⟨flag, hle, hflag⟩ := site_flag h
  apply site_same hmax (over_length h.1 hbits) hflag _ _ h
  · exact over_same h.1 hbits (Or.inl hle)
  · exact over_same h.1 hbits (Or.inl le_rfl)

theorem edit_again {matrix : Option Byte} {x y : Bytes} (hmax : x.length ≤ vuiRbspMax)
    (h : editRbsp shift32 isH265 matrix x = .ok y) :
    editRbsp shift32 isH265 matrix y = .error 0 := by
  obtain ⟨bit, hsite, hbits⟩ := edit_site hmax h
  rw [site_edit (over_length hsite.1 hbits ▸ hmax) (site_over hmax hsite hbits),
    if_pos (over_field hsite.1 hbits)]

theorem settles_at {matrix : Option Byte} {x y : Bytes} {bit : ℕ} (hmax : x.length ≤ vuiRbspMax)
    (hsite : Site shift32 isH265 matrix x bit) (h : Settles shift32 isH265 matrix x y) :
    bytesBits y = overwritten (bytesBits x) bit (fieldBits matrix) := by
  have hfit := hsite.1
  have hedit := site_edit hmax hsite
  by_cases hfield : HasField matrix x bit
  · rw [if_pos hfield] at hedit
    rcases h with h | ⟨-, rfl⟩
    · cases hedit.symm.trans h
    · rw [overwritten]
      conv_rhs => arg 1; arg 2; rw [← hfield]
      rw [List.append_assoc, ← List.drop_drop, List.take_append_drop, List.take_append_drop]
  · rw [if_neg hfield] at hedit
    rcases h with h | ⟨h, -⟩
    · cases hedit.symm.trans h
      exact set_bits_bits (by omega)
    · cases hedit.symm.trans h

theorem settles_none {matrix : Option Byte} {x y : Bytes} (hmax : x.length ≤ vuiRbspMax)
    (hsite : ∀ bit, ¬Site shift32 isH265 matrix x bit) (h : Settles shift32 isH265 matrix x y) :
    y = x := by
  rcases h with h | ⟨-, h⟩
  · obtain ⟨bit, hbit, -⟩ := edit_site hmax h
    exact absurd hbit (hsite bit)
  · exact h

theorem settles_length {matrix : Option Byte} {x y : Bytes} (hmax : x.length ≤ vuiRbspMax)
    (h : Settles shift32 isH265 matrix x y) : x.length = y.length := by
  by_cases hsite : ∃ bit, Site shift32 isH265 matrix x bit
  · obtain ⟨bit, hsite⟩ := hsite
    exact over_length hsite.1 (settles_at hmax hsite h)
  · rw [settles_none hmax (not_exists.mp hsite) h]

theorem settles_unique {matrix : Option Byte} {x y z : Bytes} (hy : Settles shift32 isH265 matrix x y)
    (hz : Settles shift32 isH265 matrix x z) : y = z := by
  rcases hy with hy | ⟨hy, rfl⟩
  · rcases hz with hz | ⟨hz, -⟩
    · exact Except.ok.inj (hy.symm.trans hz)
    · cases hy.symm.trans hz
  · rcases hz with hz | ⟨-, rfl⟩
    · cases hy.symm.trans hz
    · rfl

theorem overwritten_commute {bits first second : List Bool} {i j : ℕ}
    (hi : i+first.length ≤ j) (hj : j+second.length ≤ bits.length) :
    overwritten (overwritten bits i first) j second =
      overwritten (overwritten bits j second) i first := by
  have hlen : ∀ k (field : List Bool), k+field.length ≤ bits.length →
      (overwritten bits k field).length = bits.length := by
    intro k field hk
    rw [overwritten, List.length_append, List.length_append, List.length_drop,
      List.length_take_of_le (by omega)]
    omega
  ext1 k
  rw [overwritten_getElem? (by rw [hlen i first (by omega)]; omega),
    overwritten_getElem? (by omega),
    overwritten_getElem? (by rw [hlen j second hj]; omega), overwritten_getElem? hj]
  by_cases hfirst : i ≤ k ∧ k < i+first.length
  · rw [if_pos hfirst, if_pos hfirst, if_neg (by omega)]
  · rw [if_neg hfirst, if_neg hfirst]

/-- The two edits may change places. -/
theorem settles_commute {matrix : Byte} {x y y' z z' : Bytes} (hmax : x.length ≤ vuiRbspMax)
    (hflag : Settles shift32 isH265 none x y) (hlast : Settles shift32 isH265 (some matrix) y z)
    (hmatrix : Settles shift32 isH265 (some matrix) x y')
    (hlast' : Settles shift32 isH265 none y' z') : z = z' := by
  have hmaxy : y.length ≤ vuiRbspMax := settles_length hmax hflag ▸ hmax
  have hmaxy' : y'.length ≤ vuiRbspMax := settles_length hmax hmatrix ▸ hmax
  by_cases hsite : ∃ flag, Site shift32 isH265 none x flag
  · obtain ⟨flag, hsite⟩ := hsite
    have hbits := settles_at hmax hsite hflag
    have hlen := over_length hsite.1 hbits
    have hfront := over_same hsite.1 hbits (a := 0) (Or.inl le_rfl)
    have hback := fun bit => over_same hsite.1 hbits (b := bit) (a := flag+1) (Or.inr le_rfl)
    by_cases hmsite : ∃ mbit, Site shift32 isH265 (some matrix) x mbit
    · obtain ⟨mbit, hmsite⟩ := hmsite
      have hlt : flag < mbit := by
        obtain ⟨-, flag', hlt, hrun, -⟩ := hmsite
        obtain rfl := flag_unique hsite hrun
        exact hlt
      have hmbits := settles_at hmax hmsite hmatrix
      have hmlen := over_length hmsite.1 hmbits
      have hfront' := over_same hmsite.1 hmbits (a := 0) (Or.inl hlt.le)
      have hback' := over_same hmsite.1 hmbits (a := flag+1) (Or.inl hlt.le)
      -- the walk to either field is the one before
      have hz := settles_at hmaxy (site_same hmax hlen hsite hfront (hback mbit) hmsite) hlast
      have hz' := settles_at hmaxy' (site_same hmax hmlen hsite hfront' hback' hsite) hlast'
      have hfit : mbit+(fieldBits (some matrix)).length ≤ x.length*8 := hmsite.1
      apply bytesBits_injective
      rw [hz, hz', hbits, hmbits]
      apply overwritten_commute hlt
      rw [bytesBits_length]
      omega
    · have hy' := settles_none hmax (not_exists.mp hmsite) hmatrix
      subst hy'
      have hnone : ∀ bit, ¬Site shift32 isH265 (some matrix) y bit := by
        intro bit hbit
        apply hmsite
        have hsite' := site_same hmax hlen hsite hfront (hback flag) hsite
        refine ⟨bit, site_same hmaxy hlen.symm hsite' ?_ ?_ hbit⟩
        · intro k h1 h2
          exact (hfront k h1 h2).symm
        · intro k h1 h2
          exact (hback bit k h1 h2).symm
      rw [settles_none hmaxy hnone hlast]
      exact settles_unique hflag hlast'
  · have hnone : ∀ bit, ¬Site shift32 isH265 (some matrix) x bit := by
      intro bit hbit
      obtain ⟨flag, -, hflag⟩ := site_flag hbit
      exact hsite ⟨flag, hflag⟩
    have hy := settles_none hmax (not_exists.mp hsite) hflag
    have hy' := settles_none hmax hnone hmatrix
    subst hy
    subst hy'
    rw [settles_none hmax hnone hlast, settles_none hmax (not_exists.mp hsite) hlast']

end Payloads

section Buffers

variable (isH265 : Bool) (len : UInt32)

structure Ready (nal : Bytes) : Prop where
  bytes : len.toNat ≤ nal.length
  four : ¬len < 4
  head : ¬(len.toNat ≤ headEnd isH265 nal len.toNat ∨
    vuiRbspMax < len.toNat-headEnd isH265 nal len.toNat)
  sps : isSps isH265 (nal.getD (startCode nal len.toNat) 0) = true

def plain (nal : Bytes) : Bytes :=
  unescapeBytes none none (payload (headEnd isH265 nal len.toNat) len.toNat nal)

def resealed (nal rbsp : Bytes) : Bytes :=
  nal.take (headEnd isH265 nal len.toNat) ++ escapeBytes 0 rbsp ++ nal.drop len.toNat

def FillsIn (nal rbsp : Bytes) : Prop :=
  (escapeBytes 0 rbsp).length = len.toNat-headEnd isH265 nal len.toNat

variable {isH265 len}

theorem plain_length {nal : Bytes} (h : Ready isH265 len nal) :
    (plain isH265 len nal).length ≤ vuiRbspMax := by
  have hshort := unescape_length none none (payload (headEnd isH265 nal len.toNat) len.toNat nal)
  have hpayload : (payload (headEnd isH265 nal len.toNat) len.toNat nal).length =
      len.toNat-headEnd isH265 nal len.toNat := payload_length h.bytes
  have hhead := h.head
  unfold plain
  omega

theorem zero_not_sps (isH265 : Bool) : isSps isH265 0 = false := by cases isH265 <;> decide

theorem start_code_kept {nal nal' : Bytes} {len : ℕ}
    (hsps : isSps isH265 (nal.getD (startCode nal len) 0) = true)
    (hsame : ∀ i < headEnd isH265 nal len, nal'.getD i 0 = nal.getD i 0) :
    startCode nal' len = startCode nal len := by
  have hsize : 1 ≤ headerSize isH265 := by cases isH265 <;> decide
  have hzero := hsame 0 (by unfold headEnd; omega)
  by_cases hcode : startCode nal len = 0
  · -- a header byte where the start code would be
    have hfirst : nal.getD 0 0 ≠ 0 := by
      intro hfirst
      rw [hcode, hfirst, zero_not_sps] at hsps
      cases hsps
    rw [hcode, startCode, if_neg]
    rintro ⟨-, h, -⟩
    exact hfirst (hzero ▸ h)
  · have hthree : 3 ≤ startCode nal len := by
      unfold startCode at hcode ⊢
      split at hcode
      next h =>
        rw [if_pos h]
        split
        · exact le_rfl
        next h1 =>
          rw [if_neg h1] at hcode
          split
          · omega
          next h2 => exact absurd (if_neg h2) hcode
      · exact absurd rfl hcode
    have hone := hsame 1 (by unfold headEnd; omega)
    have htwo := hsame 2 (by unfold headEnd; omega)
    have hlast := hsame 3 (by unfold headEnd; omega)
    rw [startCode, startCode, hzero, hone, htwo, hlast]

theorem resealed_front {nal rbsp : Bytes} (h : Ready isH265 len nal) {i : ℕ}
    (hi : i < headEnd isH265 nal len.toNat) :
    (resealed isH265 len nal rbsp).getD i 0 = nal.getD i 0 := by
  have hhead := h.head
  have hbytes := h.bytes
  rw [List.getD_eq_getElem?_getD, List.getD_eq_getElem?_getD, resealed, List.append_assoc,
    List.getElem?_append_left (by rw [List.length_take]; omega), List.getElem?_take_of_lt hi]

theorem resealed_head {nal rbsp : Bytes} (h : Ready isH265 len nal) :
    startCode (resealed isH265 len nal rbsp) len.toNat = startCode nal len.toNat :=
  start_code_kept h.sps fun _ hi => resealed_front h hi

theorem resealed_end {nal rbsp : Bytes} (h : Ready isH265 len nal) :
    headEnd isH265 (resealed isH265 len nal rbsp) len.toNat = headEnd isH265 nal len.toNat := by
  rw [headEnd, headEnd, resealed_head h]

theorem resealed_ready {nal rbsp : Bytes} (h : Ready isH265 len nal)
    (hfill : FillsIn isH265 len nal rbsp) : Ready isH265 len (resealed isH265 len nal rbsp) := by
  have hhead := h.head
  have hbytes := h.bytes
  refine ⟨?_, h.four, ?_, ?_⟩
  · rw [resealed, List.length_append, List.length_append, hfill, List.length_drop,
      List.length_take_of_le (by omega)]
    omega
  · rw [resealed_end h]
    exact hhead
  · have hsize : 1 ≤ headerSize isH265 := by cases isH265 <;> decide
    rw [resealed_head h, resealed_front h (by unfold headEnd; omega)]
    exact h.sps

theorem resealed_plain {nal rbsp : Bytes} (h : Ready isH265 len nal)
    (hfill : FillsIn isH265 len nal rbsp) : plain isH265 len (resealed isH265 len nal rbsp) = rbsp := by
  have hhead := h.head
  have hcounts : Counts 0 none none := by constructor <;> simp
  rw [plain, resealed_end h, resealed, payload_replaced (by omega) h.bytes hfill,
    unescape_escape hcounts]

theorem resealed_again {nal rbsp rbsp' : Bytes} (h : Ready isH265 len nal)
    (hfill : FillsIn isH265 len nal rbsp) :
    resealed isH265 len (resealed isH265 len nal rbsp) rbsp' = resealed isH265 len nal rbsp' := by
  have hhead := h.head
  have hbytes := h.bytes
  have hfront : (nal.take (headEnd isH265 nal len.toNat)).length = headEnd isH265 nal len.toNat :=
    List.length_take_of_le (by omega)
  have hlen : (nal.take (headEnd isH265 nal len.toNat) ++ escapeBytes 0 rbsp).length = len.toNat := by
    rw [List.length_append, hfront, hfill]
    omega
  have htake : (resealed isH265 len nal rbsp).take (headEnd isH265 nal len.toNat) =
      nal.take (headEnd isH265 nal len.toNat) := by
    rw [resealed, List.append_assoc, List.take_left' hfront]
  have hdrop : (resealed isH265 len nal rbsp).drop len.toNat = nal.drop len.toNat := by
    rw [resealed, List.drop_left' hlen]
  rw [resealed, resealed_end h, htake, hdrop, resealed]

variable {shift32 : UInt32}

theorem edit_ready {matrix : Option Byte} {nal : Bytes} (hlen : len.toNat ≤ nal.length)
    (h : (vuiEdit shift32 isH265 matrix (some nal) len).1 ≠ -1) : Ready isH265 len nal := by
  unfold vuiEdit at h
  dsimp only at h
  split at h
  · exact absurd rfl h
  next hfour =>
    split at h
    · exact absurd rfl h
    next hhead =>
      split at h
      · exact absurd rfl h
      next hsps => exact ⟨hlen, hfour, hhead, not_not.mp hsps⟩

theorem edit_run {nal : Bytes} (matrix : Option Byte) (h : Ready isH265 len nal) :
    vuiEdit shift32 isH265 matrix (some nal) len =
      match editRbsp shift32 isH265 matrix (plain isH265 len nal) with
      | .error code => (code, some nal)
      | .ok rbsp => if (vuiEscape rbsp (vuiRbspMax+64)).length ≠
          len.toNat-headEnd isH265 nal len.toNat then (-1, some nal)
        else (1, some (nal.take (headEnd isH265 nal len.toNat) ++ vuiEscape rbsp (vuiRbspMax+64) ++
          nal.drop len.toNat)) := by
  have hwhole : vuiUnescape (payload (headEnd isH265 nal len.toNat) len.toNat nal) vuiRbspMax =
      plain isH265 len nal := List.take_of_length_le (plain_length h)
  unfold vuiEdit
  dsimp only
  rw [if_neg h.four, if_neg h.head, if_neg (not_not.mpr h.sps)]
  exact hwhole ▸ rfl

variable (isH265 len shift32) in
/-- What a call that answers 0 or 1 has done. -/
inductive Done (matrix : Option Byte) (nal : Bytes) : ℤ × Option Bytes → Prop
  | kept (h : editRbsp shift32 isH265 matrix (plain isH265 len nal) = .error 0) :
      Done matrix nal (0, some nal)
  | edited {rbsp : Bytes} (h : editRbsp shift32 isH265 matrix (plain isH265 len nal) = .ok rbsp)
      (hfill : FillsIn isH265 len nal rbsp) :
      Done matrix nal (1, some (resealed isH265 len nal rbsp))

theorem edit_done {matrix : Option Byte} {nal : Bytes} (hready : Ready isH265 len nal)
    (h : (vuiEdit shift32 isH265 matrix (some nal) len).1 ≠ -1) :
    Done isH265 len shift32 matrix nal (vuiEdit shift32 isH265 matrix (some nal) len) := by
  have hhead := hready.head
  rw [edit_run matrix hready] at h ⊢
  cases hedit : editRbsp shift32 isH265 matrix (plain isH265 len nal) with
  | error code =>
    rw [hedit] at h
    rcases edit_rbsp_code hedit with rfl | rfl
    · exact .kept hedit
    · exact absurd rfl h
  | ok rbsp =>
    rw [hedit] at h
    dsimp only at h ⊢
    split at h
    · exact absurd rfl h
    next hesc =>
      have hfits : (escapeBytes 0 rbsp).length ≤ vuiRbspMax+64 := by
        by_contra hlong
        rw [vuiEscape, if_neg hlong, List.length_nil] at hesc
        omega
      rw [vuiEscape, if_pos hfits] at hesc ⊢
      rw [if_neg hesc]
      exact .edited hedit (not_not.mp hesc)

theorem edit_repeat {matrix : Option Byte} {nal : Option Bytes}
    (hlen : ∀ bytes ∈ nal, len.toNat ≤ bytes.length)
    (h : (vuiEdit shift32 isH265 matrix nal len).1 = 1) :
    vuiEdit shift32 isH265 matrix (vuiEdit shift32 isH265 matrix nal len).2 len =
      (0, (vuiEdit shift32 isH265 matrix nal len).2) := by
  cases nal with
  | none => cases h
  | some nal =>
    have hcode : (vuiEdit shift32 isH265 matrix (some nal) len).1 ≠ -1 := by
      rw [h]
      decide
    have hready := edit_ready (hlen nal rfl) hcode
    have hdone := edit_done hready hcode
    generalize hr : vuiEdit shift32 isH265 matrix (some nal) len = r at h hdone
    cases hdone with
    | kept hedit => cases h
    | edited hedit hfill =>
      have hagain := edit_again (plain_length hready) hedit
      show vuiEdit shift32 isH265 matrix (some _) len = _
      rw [edit_run matrix (resealed_ready hready hfill), resealed_plain hready hfill, hagain]

/-- A done call leaves the buffer as it was, or with its payload in the one form. -/
theorem done_settles {matrix : Option Byte} {nal : Bytes} {r : ℤ × Option Bytes}
    (hready : Ready isH265 len nal) (h : Done isH265 len shift32 matrix nal r) :
    ∃ nal', r.2 = some nal' ∧ Ready isH265 len nal' ∧
      Settles shift32 isH265 matrix (plain isH265 len nal) (plain isH265 len nal') ∧
      (∀ rbsp, resealed isH265 len nal' rbsp = resealed isH265 len nal rbsp) ∧
      (r = (0, some nal) ∨ nal' = resealed isH265 len nal (plain isH265 len nal')) := by
  cases h with
  | kept hedit => exact ⟨nal, rfl, hready, Or.inr ⟨hedit, rfl⟩, fun _ => rfl, Or.inl rfl⟩
  | edited hedit hfill =>
    refine ⟨_, rfl, resealed_ready hready hfill, Or.inl ?_, fun _ => resealed_again hready hfill,
      Or.inr ?_⟩
    · rw [resealed_plain hready hfill]
      exact hedit
    · rw [resealed_plain hready hfill]

theorem done_twice {first second : Option Byte} {nal : Bytes} (hready : Ready isH265 len nal)
    (h : (vuiEdit shift32 isH265 first (some nal) len).1 ≠ -1)
    (h' : (vuiEdit shift32 isH265 second (vuiEdit shift32 isH265 first (some nal) len).2 len).1 ≠ -1) :
    ∃ y nal', (vuiEdit shift32 isH265 second (vuiEdit shift32 isH265 first (some nal) len).2 len).2 =
        some nal' ∧
      Settles shift32 isH265 first (plain isH265 len nal) y ∧
      Settles shift32 isH265 second y (plain isH265 len nal') ∧
      (vuiEdit shift32 isH265 first (some nal) len = (0, some nal) ∧
          vuiEdit shift32 isH265 second (some nal) len = (0, some nal) ∧ nal' = nal ∨
        nal' = resealed isH265 len nal (plain isH265 len nal')) := by
  have hdone := edit_done hready h
  generalize vuiEdit shift32 isH265 first (some nal) len = r at h' hdone ⊢
  obtain ⟨mid, hmid, hreadyMid, hfirst, hresealed, hcase⟩ := done_settles hready hdone
  rw [hmid] at h' ⊢
  have hdone' := edit_done hreadyMid h'
  generalize hr' : vuiEdit shift32 isH265 second (some mid) len = r' at h' hdone' ⊢
  obtain ⟨nal', hnal', -, hsecond, -, hcase'⟩ := done_settles hreadyMid hdone'
  refine ⟨_, nal', hnal', hfirst, hsecond, ?_⟩
  rcases hcase' with hkept | hwritten
  · have hsame : nal' = mid := by
      rw [hkept] at hnal'
      exact (Option.some.inj hnal').symm
    rcases hcase with rfl | hmidWritten
    · have hstart : nal = mid := Option.some.inj hmid
      subst hstart
      exact Or.inl ⟨rfl, hr'.trans hkept, hsame⟩
    · rw [hsame]
      exact Or.inr hmidWritten
  · rw [hresealed] at hwritten
    exact Or.inr hwritten

theorem edit_commute {matrix : Byte} {nal : Option Bytes}
    (hlen : ∀ bytes ∈ nal, len.toNat ≤ bytes.length)
    (hf : (vuiEdit shift32 isH265 none nal len).1 ≠ -1)
    (hfm : (vuiEdit shift32 isH265 (some matrix) (vuiEdit shift32 isH265 none nal len).2 len).1 ≠ -1)
    (hm : (vuiEdit shift32 isH265 (some matrix) nal len).1 ≠ -1)
    (hmf : (vuiEdit shift32 isH265 none (vuiEdit shift32 isH265 (some matrix) nal len).2 len).1 ≠ -1) :
    (vuiEdit shift32 isH265 (some matrix) (vuiEdit shift32 isH265 none nal len).2 len).2 =
      (vuiEdit shift32 isH265 none (vuiEdit shift32 isH265 (some matrix) nal len).2 len).2 := by
  cases nal with
  | none => exact absurd rfl hf
  | some nal =>
    have hready := edit_ready (hlen nal rfl) hf
    obtain ⟨y, z, hz, hy, hyz, hcase⟩ := done_twice hready hf hfm
    obtain ⟨y', z', hz', hy', hyz', hcase'⟩ := done_twice hready hm hmf
    have hplain := settles_commute (plain_length hready) hy hyz hy' hyz'
    rw [hz, hz', Option.some.injEq]
    rcases hcase with ⟨hflag, hmatrix, rfl⟩ | hwritten
    · -- neither call writes, in whatever order
      rw [hmatrix, hflag] at hz'
      exact Option.some.inj hz'
    · rcases hcase' with ⟨hmatrix, hflag, rfl⟩ | hwritten'
      · rw [hflag, hmatrix] at hz
        exact (Option.some.inj hz).symm
      · rw [hwritten, hwritten', hplain]

end Buffers

def Accepted (code : ℤ) : Prop := code = 0 ∨ code = 1

theorem accepted_code {code : ℤ} (h : Accepted code) : code ≠ -1 := by
  rintro rfl
  rcases h with h | h <;> cases h

/-- A call that wrote answers 0 when repeated, and writes nothing. Where no
call is refused, the order of the two edits does not matter. -/
theorem edits_settle (shift32 : UInt32) (nal : Option Bytes) (len : UInt32) (isH265 : Bool)
    (h : ∀ bytes ∈ nal, len.toNat ≤ bytes.length) :
    (∀ nal', rssVuiSetFullRange shift32 nal len isH265 = (1, nal') →
      rssVuiSetFullRange shift32 nal' len isH265 = (0, nal')) ∧
    (∀ matrix nal', rssVuiSetMatrix shift32 nal len isH265 matrix = (1, nal') →
      rssVuiSetMatrix shift32 nal' len isH265 matrix = (0, nal')) ∧
    ∀ matrix,
      let f := rssVuiSetFullRange shift32 nal len isH265
      let fm := rssVuiSetMatrix shift32 f.2 len isH265 matrix
      let m := rssVuiSetMatrix shift32 nal len isH265 matrix
      let mf := rssVuiSetFullRange shift32 m.2 len isH265
      Accepted f.1 → Accepted fm.1 → Accepted m.1 → Accepted mf.1 → fm.2 = mf.2 := by
  have hrepeat : ∀ matrix nal', vuiEdit shift32 isH265 matrix nal len = (1, nal') →
      vuiEdit shift32 isH265 matrix nal' len = (0, nal') := by
    intro matrix nal' hcall
    have hwrote : (vuiEdit shift32 isH265 matrix nal len).1 = 1 := by rw [hcall]
    have hagain := edit_repeat h hwrote
    rw [hcall] at hagain
    exact hagain
  refine ⟨hrepeat none, fun matrix => hrepeat (some matrix), ?_⟩
  intro matrix f fm m mf hf hfm hm hmf
  exact edit_commute h (accepted_code hf) (accepted_code hfm) (accepted_code hm)
    (accepted_code hmf)

theorem edits_settle_sample :
    (rssVuiSetFullRange 0 (some sampleSps) 14 false).1 = 1 ∧
    (rssVuiSetMatrix 0 (some sampleSps) 14 false 9).1 = 1 ∧
    (rssVuiSetMatrix 0 (rssVuiSetFullRange 0 (some sampleSps) 14 false).2 14 false 9).2 =
      (rssVuiSetFullRange 0 (rssVuiSetMatrix 0 (some sampleSps) 14 false 9).2 14 false).2 := by
  have hf : (rssVuiSetFullRange 0 (some sampleSps) 14 false).1 = 1 := by decide +kernel
  have hm : (rssVuiSetMatrix 0 (some sampleSps) 14 false 9).1 = 1 := by decide +kernel
  have hfm : (rssVuiSetMatrix 0 (rssVuiSetFullRange 0 (some sampleSps) 14 false).2 14 false 9).1 =
    1 := by decide +kernel
  have hmf : (rssVuiSetFullRange 0 (rssVuiSetMatrix 0 (some sampleSps) 14 false 9).2 14 false).1 =
    1 := by decide +kernel
  have hlen : ∀ bytes ∈ some sampleSps, (14 : UInt32).toNat ≤ bytes.length := by
    intro bytes hbytes
    cases hbytes
    decide
  exact ⟨hf, hm, (edits_settle 0 (some sampleSps) 14 false hlen).2.2 9 (Or.inr hf) (Or.inr hfm)
    (Or.inr hm) (Or.inr hmf)⟩

end RaptorCommon.VuiRepeat
