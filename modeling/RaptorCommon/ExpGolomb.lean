import RaptorCommon.BitString

/-!
# Exponential Golomb codes

A number is written as its successor in binary with one zero in front for each
bit after the first. Signed numbers are numbered alternately, positive first.
-/

set_option autoImplicit false

namespace RaptorCommon.ExpGolomb
open RaptorCommon.BitString

def zeros (k : ℕ) : ℕ := Nat.log2 (k+1)

def ueBits (k : ℕ) : List Bool := List.replicate (zeros k) false ++ digits (zeros k+1) (k+1)

def seNumber (v : ℤ) : ℕ := if 0 < v then (2*v-1).toNat else (-2*v).toNat

def seBits (v : ℤ) : List Bool := ueBits (seNumber v)

def seValue (k : ℕ) : ℤ := if k%2 = 1 then ((k+1)/2 : ℕ) else -((k/2 : ℕ) : ℤ)

theorem seValue_number (v : ℤ) : seValue (seNumber v) = v := by
  unfold seNumber seValue
  split_ifs <;> omega

theorem zeros_le (k : ℕ) : 2^zeros k ≤ k+1 := Nat.log2_self_le (by omega)

theorem lt_zeros (k : ℕ) : k+1 < 2^(zeros k+1) := (Nat.log2_lt (by omega)).mp (by
  show zeros k < zeros k+1
  omega)

theorem zeros_lt {k n : ℕ} (h : k+1 < 2^n) : zeros k < n := (Nat.log2_lt (by omega)).mpr h

theorem ue_bits_parts (k : ℕ) :
    ueBits k = List.replicate (zeros k) false ++ true::digits (zeros k) (k+1) := by
  have hbit : (k+1).testBit (zeros k) = true := by
    have h1 := zeros_le k
    have h2 := lt_zeros k
    rw [Nat.testBit_eq_decide_div_mod_eq, decide_eq_true_eq]
    have hdiv : (k+1)/2^zeros k = 1 := by
      rw [pow_succ] at h2
      apply Nat.div_eq_of_lt_le <;> omega
    rw [hdiv]
  rw [ueBits, digits, hbit]

theorem ue_tail_value (k : ℕ) : value (digits (zeros k) (k+1)) = k+1-2^zeros k := by
  have h1 := zeros_le k
  have h2 := lt_zeros k
  rw [pow_succ] at h2
  rw [value_digits, Nat.mod_eq_sub_mod h1, Nat.mod_eq_of_lt (by omega)]

@[simp] theorem ue_bits_length (k : ℕ) : (ueBits k).length = 2*zeros k+1 := by
  rw [ueBits, List.length_append, List.length_replicate, digits_length]
  omega

end RaptorCommon.ExpGolomb
