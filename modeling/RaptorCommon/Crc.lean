import Mathlib.Data.Nat.Bitwise
import RaptorCommon.BitString

/-!
# Cyclic redundancy checks, one bit at a time

A register of any width takes in bits at its low end, most significant first.
Where the bit that leaves differs from the bit that comes, the polynomial is
added. The register is linear in its value and its input together, so its own
top bits, fed back, shift it out.
-/

set_option autoImplicit false

namespace RaptorCommon.Crc
open RaptorCommon.BitString

section Register

variable {w : ℕ} (poly : BitVec w)

def shiftIn (reg : BitVec w) (bit : Bool) : BitVec w :=
  if reg.msb = bit then reg <<< 1 else (reg <<< 1) ^^^ poly

def shiftAll (reg : BitVec w) (bits : List Bool) : BitVec w := bits.foldl (shiftIn poly) reg

def topBits : ℕ → BitVec w → List Bool
  | 0, _ => []
  | count+1, reg => reg.msb::topBits count (reg <<< 1)

def xorBits (x y : List Bool) : List Bool := List.zipWith (· ^^ ·) x y

theorem shiftAll_append (reg : BitVec w) (x y : List Bool) :
    shiftAll poly reg (x ++ y) = shiftAll poly (shiftAll poly reg x) y := List.foldl_append

theorem shiftIn_own (reg : BitVec w) : shiftIn poly reg reg.msb = reg <<< 1 := if_pos rfl

theorem shiftAll_own (count : ℕ) (reg : BitVec w) :
    shiftAll poly reg (topBits count reg) = reg <<< count := by
  induction count generalizing reg with
  | zero => simp [shiftAll, topBits]
  | succ count ih =>
    show shiftAll poly (shiftIn poly reg reg.msb) (topBits count (reg <<< 1)) = _
    rw [shiftIn_own, ih, Nat.add_comm, BitVec.shiftLeft_add]

theorem shiftAll_top (reg : BitVec w) : shiftAll poly reg (topBits w reg) = 0#w := by
  rw [shiftAll_own]
  exact BitVec.shiftLeft_eq_zero le_rfl

theorem xor_pair (a b p : BitVec w) : a ^^^ p ^^^ (b ^^^ p) = a ^^^ b := by
  rw [BitVec.xor_assoc, BitVec.xor_comm b p, ← BitVec.xor_assoc p p b, BitVec.xor_self,
    BitVec.zero_xor]

theorem shiftIn_xor (a b : BitVec w) (x y : Bool) :
    shiftIn poly (a ^^^ b) (x ^^ y) = shiftIn poly a x ^^^ shiftIn poly b y := by
  have hshift : (a ^^^ b) <<< 1 = (a <<< 1) ^^^ (b <<< 1) := BitVec.shiftLeft_xor_distrib ..
  have hcross : (a <<< 1) ^^^ poly ^^^ (b <<< 1) = (a <<< 1) ^^^ (b <<< 1) ^^^ poly := by
    rw [BitVec.xor_assoc, BitVec.xor_comm poly, ← BitVec.xor_assoc]
  unfold shiftIn
  rw [BitVec.msb_xor, hshift]
  by_cases ha : a.msb = x
  · by_cases hb : b.msb = y
    · rw [if_pos ha, if_pos hb, if_pos (by rw [ha, hb])]
    · rw [if_pos ha, if_neg hb, if_neg (by simpa [ha] using hb), BitVec.xor_assoc]
  · by_cases hb : b.msb = y
    · rw [if_neg ha, if_pos hb, if_neg (by simpa [hb] using ha), hcross]
    · have hx : x = !a.msb := Bool.eq_not_iff.mpr (Ne.symm ha)
      have hy : y = !b.msb := Bool.eq_not_iff.mpr (Ne.symm hb)
      rw [if_neg ha, if_neg hb, if_pos (by simp [hx, hy]), xor_pair]

theorem shiftAll_xor {x y : List Bool} (h : x.length = y.length) (a b : BitVec w) :
    shiftAll poly (a ^^^ b) (xorBits x y) = shiftAll poly a x ^^^ shiftAll poly b y := by
  induction x generalizing y a b with
  | nil =>
    cases y with
    | nil => rfl
    | cons d y => simp at h
  | cons c x ih =>
    cases y with
    | nil => simp at h
    | cons d y =>
      show shiftAll poly (shiftIn poly (a ^^^ b) (c ^^ d)) (xorBits x y) = _
      rw [shiftIn_xor, ih (by simpa using h)]
      rfl

theorem shiftIn_zero (hodd : poly.getLsbD 0 = true) {reg : BitVec w}
    (h : shiftIn poly reg false = 0#w) : reg = 0#w := by
  have hw : 0 < w := by
    by_contra hw
    have hzero : w = 0 := by omega
    subst hzero
    simp at hodd
  unfold shiftIn at h
  split_ifs at h with hmsb
  · apply BitVec.eq_of_getLsbD_eq
    intro i hi
    rw [BitVec.getLsbD_zero]
    by_cases hlast : i = w-1
    · rw [hlast, ← BitVec.msb_eq_getLsbD_last]
      exact hmsb
    · have hbit := congrArg (fun r : BitVec w => r.getLsbD (i+1)) h
      simp only [BitVec.getLsbD_shiftLeft, BitVec.getLsbD_zero, Nat.add_sub_cancel] at hbit
      rwa [decide_eq_true (by omega : i+1 < w), Bool.true_and] at hbit
  · have hbit := congrArg (fun r : BitVec w => r.getLsbD 0) h
    simp only [BitVec.getLsbD_xor, BitVec.getLsbD_shiftLeft, BitVec.getLsbD_zero] at hbit
    simp [hodd] at hbit

theorem shiftAll_zero (hodd : poly.getLsbD 0 = true) (count : ℕ) {reg : BitVec w} :
    shiftAll poly reg (digits count 0) = 0#w ↔ reg = 0#w := by
  induction count generalizing reg with
  | zero => exact Iff.rfl
  | succ count ih =>
    have hbit : Nat.testBit 0 count = false := Nat.zero_testBit count
    show shiftAll poly (shiftIn poly reg (Nat.testBit 0 count)) (digits count 0) = 0#w ↔ _
    rw [ih, hbit]
    constructor
    · exact shiftIn_zero poly hodd
    · intro h
      rw [h, shiftIn, BitVec.msb_zero, if_pos rfl, BitVec.zero_shiftLeft]

theorem topBits_length (count : ℕ) (reg : BitVec w) : (topBits count reg).length = count := by
  induction count generalizing reg with
  | zero => rfl
  | succ count ih => rw [topBits, List.length_cons, ih]

theorem xorBits_self (x y : List Bool) (h : x.length = y.length) :
    xorBits x (xorBits x y) = y := by
  induction x generalizing y with
  | nil =>
    cases y with
    | nil => rfl
    | cons d y => simp at h
  | cons c x ih =>
    cases y with
    | nil => simp at h
    | cons d y =>
      show (c ^^ (c ^^ d))::xorBits x (xorBits x y) = _
      rw [ih y (by simpa using h), ← Bool.xor_assoc, Bool.xor_self, Bool.false_xor]

/-- Input met by the top bits of the register leaves what a zero register makes
of their difference. -/
theorem shiftAll_split (reg : BitVec w) (bits : List Bool) :
    shiftAll poly reg bits = (reg <<< bits.length) ^^^
      shiftAll poly 0#w (xorBits (topBits bits.length reg) bits) := by
  have hlen := topBits_length bits.length reg
  have hdiff : (xorBits (topBits bits.length reg) bits).length = bits.length := by
    rw [xorBits, List.length_zipWith, hlen, Nat.min_self]
  have hxor := shiftAll_xor poly (hlen.trans hdiff.symm) reg 0#w
  rwa [xorBits_self _ _ hlen, shiftAll_own, BitVec.xor_zero] at hxor

end Register

section Digits

variable {w : ℕ}

theorem topBits_digits {count : ℕ} (h : count ≤ w) (reg : BitVec w) :
    topBits count reg = digits count (reg.toNat/2^(w-count)) := by
  induction count generalizing reg with
  | zero => rfl
  | succ count ih =>
    rw [topBits, digits, ih (by omega)]
    congr 1
    · rw [BitVec.msb_eq_getLsbD_last, BitVec.getLsbD, Nat.testBit_div_two_pow]
      congr 1
      omega
    · apply digits_congr
      intro i hi
      rw [Nat.testBit_div_two_pow, Nat.testBit_div_two_pow, ← BitVec.getLsbD, ← BitVec.getLsbD,
        BitVec.getLsbD_shiftLeft, decide_eq_true (by omega), decide_eq_false (by omega)]
      simp only [Bool.true_and, Bool.not_false]
      congr 1
      omega

theorem xorBits_digits (width n m : ℕ) :
    xorBits (digits width n) (digits width m) = digits width (n ^^^ m) := by
  induction width with
  | zero => rfl
  | succ width ih =>
    show (n.testBit width ^^ m.testBit width)::xorBits (digits width n) (digits width m) = _
    rw [ih, digits, Nat.testBit_xor]

end Digits

section Parity

variable {w : ℕ}

def parity (bits : List Bool) : Bool := bits.foldr (· ^^ ·) false

/-- The parity of the bits of a register that a mask picks. -/
def picked (mask reg : BitVec w) : Bool := parity (digits w (mask &&& reg).toNat)

theorem parity_xor {x y : List Bool} (h : x.length = y.length) :
    parity (xorBits x y) = (parity x ^^ parity y) := by
  induction x generalizing y with
  | nil =>
    cases y with
    | nil => rfl
    | cons d y => simp at h
  | cons c x ih =>
    cases y with
    | nil => simp at h
    | cons d y =>
      show ((c ^^ d) ^^ parity (xorBits x y)) = ((c ^^ parity x) ^^ (d ^^ parity y))
      rw [ih (by simpa using h), Bool.xor_assoc, Bool.xor_left_comm d, ← Bool.xor_assoc]

theorem picked_xor (mask a b : BitVec w) :
    picked mask (a ^^^ b) = (picked mask a ^^ picked mask b) := by
  have hand : mask &&& (a ^^^ b) = (mask &&& a) ^^^ (mask &&& b) := by
    ext i hi
    simp only [BitVec.getElem_and, BitVec.getElem_xor]
    exact Bool.and_xor_distrib_left ..
  unfold picked
  rw [hand, BitVec.toNat_xor, ← xorBits_digits, parity_xor (by simp)]

theorem picked_zero (mask : BitVec w) : picked mask 0#w = false := by
  have h := picked_xor mask 0#w 0#w
  rwa [BitVec.xor_self, Bool.xor_self] at h

end Parity

end RaptorCommon.Crc
