import Mathlib.Data.Nat.Bitwise
import Mathlib.Tactic

/-!
# Rows of bits

Bits stand most significant first. A row of a given width and the number below
its power of two are two forms of one thing, and bytes are rows of eight.
-/

set_option autoImplicit false

namespace RaptorCommon.BitString

def digits : ℕ → ℕ → List Bool
  | 0, _ => []
  | width+1, n => n.testBit width::digits width n

def value (bits : List Bool) : ℕ := bits.foldl (fun v b => 2*v+b.toNat) 0

section Digits

@[simp] theorem digits_length (width n : ℕ) : (digits width n).length = width := by
  induction width with
  | zero => rfl
  | succ width ih => rw [digits, List.length_cons, ih]

theorem digits_congr {width n m : ℕ} (h : ∀ i < width, n.testBit i = m.testBit i) :
    digits width n = digits width m := by
  induction width with
  | zero => rfl
  | succ width ih =>
    rw [digits, digits, h width (by omega), ih fun i hi => h i (by omega)]

theorem digits_mod {width n m : ℕ} (h : width ≤ m) : digits width (n%2^m) = digits width n := by
  apply digits_congr
  intro i hi
  rw [Nat.testBit_mod_two_pow, decide_eq_true (by omega), Bool.true_and]

theorem digits_append (a b n : ℕ) : digits (a+b) n = digits a (n/2^b) ++ digits b n := by
  induction a with
  | zero => rw [Nat.zero_add, digits, List.nil_append]
  | succ a ih =>
    rw [Nat.add_right_comm, digits, digits, ih, Nat.testBit_div_two_pow, List.cons_append]

theorem digits_shift (a b n m : ℕ) (hm : m < 2^b) :
    digits (a+b) (n*2^b+m) = digits a n ++ digits b m := by
  rw [digits_append]
  have hdiv : (n*2^b+m)/2^b = n := by
    rw [Nat.add_comm, Nat.add_mul_div_right m n (by positivity), Nat.div_eq_of_lt hm, Nat.zero_add]
  have hmod : (n*2^b+m)%2^b = m := by
    rw [Nat.add_comm, Nat.add_mul_mod_self_right, Nat.mod_eq_of_lt hm]
  rw [hdiv]
  congr 1
  rw [← digits_mod le_rfl, hmod]

theorem digits_getElem? {width i : ℕ} (n : ℕ) (h : i < width) :
    (digits width n)[i]? = some (n.testBit (width-1-i)) := by
  induction width generalizing i with
  | zero => omega
  | succ width ih =>
    cases i with
    | zero => simp [digits]
    | succ i =>
      rw [digits, List.getElem?_cons_succ, ih (by omega)]
      congr 2
      omega

end Digits

section Value

theorem value_from (bits : List Bool) (v : ℕ) :
    bits.foldl (fun v b => 2*v+b.toNat) v = v*2^bits.length+value bits := by
  unfold value
  induction bits generalizing v with
  | nil => simp
  | cons b bits ih =>
    rw [List.foldl_cons, List.foldl_cons, ih, ih (2*0+b.toNat), List.length_cons]
    ring

@[simp] theorem value_nil : value [] = 0 := rfl

theorem value_cons (b : Bool) (bits : List Bool) :
    value (b::bits) = b.toNat*2^bits.length+value bits := by
  rw [value, List.foldl_cons, value_from]
  simp

theorem value_lt (bits : List Bool) : value bits < 2^bits.length := by
  induction bits with
  | nil => simp
  | cons b bits ih =>
    rw [value_cons, List.length_cons, pow_succ]
    have hb : b.toNat ≤ 1 := b.toNat_le
    nlinarith

theorem value_digits (width n : ℕ) : value (digits width n) = n%2^width := by
  induction width with
  | zero => simp [digits, Nat.mod_one]
  | succ width ih =>
    rw [digits, value_cons, ih, digits_length, pow_succ, Nat.mod_mul]
    have hb : (n.testBit width).toNat = n/2^width%2 := by
      rw [Nat.testBit_eq_decide_div_mod_eq]
      rcases Nat.mod_two_eq_zero_or_one (n/2^width) with h | h <;> simp [h]
    rw [hb]
    ring

theorem value_of_digits {width n : ℕ} (h : n < 2^width) : value (digits width n) = n := by
  rw [value_digits, Nat.mod_eq_of_lt h]

theorem digits_value (bits : List Bool) : digits bits.length (value bits) = bits := by
  induction bits with
  | nil => rfl
  | cons b bits ih =>
    have hlt := value_lt bits
    have hcons : digits (1+bits.length) (b.toNat*2^bits.length+value bits) =
        digits 1 b.toNat ++ digits bits.length (value bits) := digits_shift _ _ _ _ hlt
    rw [value_cons, List.length_cons, Nat.add_comm, hcons, ih]
    cases b <;> rfl

end Value

section Bytes

def byteBits (c : UInt8) : List Bool := digits 8 c.toNat

def bytesBits (bytes : List UInt8) : List Bool := bytes.flatMap byteBits

def octets : List Bool → List UInt8
  | b7::b6::b5::b4::b3::b2::b1::b0::rest =>
    UInt8.ofNat (value [b7, b6, b5, b4, b3, b2, b1, b0])::octets rest
  | _ => []

@[simp] theorem byteBits_length (c : UInt8) : (byteBits c).length = 8 := digits_length 8 _

theorem bytesBits_cons (c : UInt8) (l : List UInt8) :
    bytesBits (c::l) = byteBits c ++ bytesBits l := rfl

@[simp] theorem bytesBits_length (bytes : List UInt8) :
    (bytesBits bytes).length = 8*bytes.length := by
  induction bytes with
  | nil => rfl
  | cons c bytes ih =>
    rw [bytesBits_cons, List.length_append, ih, byteBits_length, List.length_cons]
    ring

theorem octets_short {tail : List Bool} (h : tail.length < 8) : octets tail = [] := by
  rw [octets]
  rintro b7 b6 b5 b4 b3 b2 b1 b0 rest rfl
  simp only [List.length_cons] at h
  omega

theorem octets_byte (c : UInt8) (rest : List Bool) : octets (byteBits c ++ rest) = c::octets rest := by
  have hbits : byteBits c = [c.toNat.testBit 7, c.toNat.testBit 6, c.toNat.testBit 5,
    c.toNat.testBit 4, c.toNat.testBit 3, c.toNat.testBit 2, c.toNat.testBit 1,
    c.toNat.testBit 0] := rfl
  have hval : value (byteBits c) = c.toNat := value_of_digits c.toNat_lt
  rw [hbits] at hval ⊢
  show UInt8.ofNat (value _)::octets rest = _
  rw [hval, UInt8.ofNat_toNat]

theorem octets_bytes (bytes : List UInt8) (tail : List Bool) (h : tail.length < 8) :
    octets (bytesBits bytes ++ tail) = bytes := by
  induction bytes with
  | nil => exact octets_short h
  | cons c bytes ih => rw [bytesBits_cons, List.append_assoc, octets_byte, ih]

theorem bytesBits_getElem? (bytes : List UInt8) (i : ℕ) :
    (bytesBits bytes)[i]? = (bytes[i/8]?).map (fun c => c.toNat.testBit (7-i%8)) := by
  induction bytes generalizing i with
  | nil => simp [bytesBits]
  | cons c bytes ih =>
    rw [bytesBits_cons]
    by_cases hi : i < 8
    · rw [List.getElem?_append_left (by simpa using hi), byteBits, digits_getElem? _ hi,
        Nat.div_eq_of_lt hi, Nat.mod_eq_of_lt hi]
      rfl
    · have hdiv : i/8 = (i-8)/8+1 := by omega
      have hmod : i%8 = (i-8)%8 := by omega
      rw [List.getElem?_append_right (by simp; omega), byteBits_length, ih, hdiv, hmod,
        List.getElem?_cons_succ]

theorem bytesBits_injective {l m : List UInt8} (h : bytesBits l = bytesBits m) : l = m := by
  have hl := octets_bytes l [] (by simp)
  have hm := octets_bytes m [] (by simp)
  rw [List.append_nil] at hl hm
  rw [← hl, ← hm, h]

end Bytes

section Fields

/-- A row with a field from position `i` on written over. -/
def overwritten (bits : List Bool) (i : ℕ) (field : List Bool) : List Bool :=
  bits.take i ++ field ++ bits.drop (i+field.length)

theorem overwritten_nil (bits : List Bool) (i : ℕ) : overwritten bits i [] = bits := by
  rw [overwritten, List.append_nil]
  exact List.take_append_drop i bits

theorem overwritten_cons {bits : List Bool} {i : ℕ} (h : i < bits.length) (x : Bool)
    (field : List Bool) :
    overwritten (bits.set i x) (i+1) field = overwritten bits i (x::field) := by
  have htake : (bits.set i x).take (i+1) = bits.take i ++ [x] := by
    rw [List.take_add_one, List.take_set_of_le le_rfl, List.getElem?_set_self h]
    rfl
  have hdrop : (bits.set i x).drop (i+1+field.length) = bits.drop (i+1+field.length) :=
    List.drop_set_of_lt (by omega)
  rw [overwritten, overwritten, htake, hdrop, List.length_cons, List.append_assoc,
    List.append_assoc, List.append_assoc, Nat.add_right_comm, Nat.add_assoc]
  rfl

theorem overwritten_getElem? {bits field : List Bool} {i : ℕ} (h : i+field.length ≤ bits.length)
    (k : ℕ) : (overwritten bits i field)[k]? =
      if i ≤ k ∧ k < i+field.length then field[k-i]? else bits[k]? := by
  have hfront : (bits.take i).length = i := List.length_take_of_le (by omega)
  rw [overwritten, List.append_assoc]
  by_cases hk : k < i
  · rw [if_neg (by omega), List.getElem?_append_left (by omega), List.getElem?_take_of_lt hk]
  · rw [List.getElem?_append_right (by omega), hfront]
    by_cases hin : k < i+field.length
    · rw [if_pos (by omega), List.getElem?_append_left (by omega)]
    · rw [if_neg (by omega), List.getElem?_append_right (by omega), List.getElem?_drop]
      congr 1
      omega

theorem overwritten_field {bits : List Bool} {i : ℕ} {field : List Bool}
    (hi : i ≤ bits.length) (h : overwritten bits i field = bits) :
    bits.drop i = field ++ bits.drop (i+field.length) := by
  have hlen : (bits.take i).length = i := List.length_take_of_le hi
  calc bits.drop i = (overwritten bits i field).drop i := by rw [h]
    _ = field ++ bits.drop (i+field.length) := by
      rw [overwritten, List.append_assoc]
      exact List.drop_left' hlen

end Fields

end RaptorCommon.BitString
