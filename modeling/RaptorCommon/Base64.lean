import RaptorCommon.BitString

/-!
# Base64

The standard encoding, and a decoding that skips what is no symbol, stops at
the padding and drops bits that make no whole byte. The decoding of an encoded
text is the text.
-/

set_option autoImplicit false

namespace RaptorCommon.Base64
open RaptorCommon.BitString

def symbols : List UInt8 :=
  "ABCDEFGHIJKLMNOPQRSTUVWXYZabcdefghijklmnopqrstuvwxyz0123456789+/".toList.map
    fun c => c.toNat.toUInt8

def padding : UInt8 := 61

def symbol (n : ℕ) : UInt8 := symbols.getD n padding

def sextet (c : UInt8) : Option ℕ := symbols.idxOf? c

def symbolsOf : ℕ → ℕ → List UInt8
  | 0, _ => []
  | count+1, n => symbol (n/2^(6*count)%64)::symbolsOf count n

def encode : List UInt8 → List UInt8
  | a::b::c::rest =>
    symbolsOf 4 (a.toNat*2^16+(b.toNat*2^8+c.toNat)) ++ encode rest
  | [a, b] => symbolsOf 3 ((a.toNat*2^8+b.toNat)*2^2) ++ [padding]
  | [a] => symbolsOf 2 (a.toNat*2^4) ++ [padding, padding]
  | [] => []

def sextets (text : List UInt8) : List ℕ := (text.takeWhile (· ≠ padding)).filterMap sextet

def decoded (text : List UInt8) : List UInt8 := octets ((sextets text).flatMap (digits 6))

theorem symbols_length : symbols.length = 64 := by decide +kernel

theorem symbols_distinct : (padding::symbols).Nodup := by decide +kernel

theorem symbol_at {n : ℕ} (h : n < symbols.length) : symbol n = symbols[n] :=
  List.getD_eq_getElem _ _ h

theorem sextet_symbol {n : ℕ} (h : n < 64) : sextet (symbol n) = some n := by
  rw [← symbols_length] at h
  have hdistinct := (List.nodup_cons.mp symbols_distinct).2
  rw [symbol_at h, sextet, List.idxOf?_eq_some_iff]
  refine ⟨h, rfl, fun j hj heq => ?_⟩
  exact absurd ((hdistinct.getElem_inj_iff).mp heq) (Nat.ne_of_lt hj)

theorem symbol_ne_padding {n : ℕ} (h : n < 64) : symbol n ≠ padding := by
  rw [← symbols_length] at h
  rw [symbol_at h]
  intro heq
  exact (List.nodup_cons.mp symbols_distinct).1 (heq ▸ List.getElem_mem h)

theorem sextets_symbol {n : ℕ} (h : n < 64) (text : List UInt8) :
    sextets (symbol n::text) = n::sextets text := by
  unfold sextets
  rw [List.takeWhile_cons_of_pos (by simpa using symbol_ne_padding h),
    List.filterMap_cons_some (sextet_symbol h)]

theorem sextets_padding (text : List UInt8) : sextets (padding::text) = [] := by
  unfold sextets
  rw [List.takeWhile_cons_of_neg (by simp), List.filterMap_nil]

theorem sextets_bits (count n : ℕ) (text : List UInt8) :
    (sextets (symbolsOf count n ++ text)).flatMap (digits 6) =
      digits (6*count) n ++ (sextets text).flatMap (digits 6) := by
  induction count with
  | zero => rfl
  | succ count ih =>
    have hlt : n/2^(6*count)%64 < 64 := Nat.mod_lt _ (by decide)
    have hbits : digits (6*(count+1)) n = digits 6 (n/2^(6*count)) ++ digits (6*count) n := by
      rw [Nat.mul_succ, Nat.add_comm, digits_append]
    rw [symbolsOf, List.cons_append, sextets_symbol hlt, List.flatMap_cons, ih, hbits,
      List.append_assoc]
    congr 1
    exact digits_mod le_rfl

/-- An encoded text reads back as its bits, less than a byte more at the end. -/
theorem encode_bits (bytes : List UInt8) : ∃ tail : List Bool, tail.length < 8 ∧
    (sextets (encode bytes)).flatMap (digits 6) = bytesBits bytes ++ tail := by
  induction bytes using encode.induct with
  | case1 a b c rest ih =>
    obtain ⟨tail, hlen, hbits⟩ := ih
    refine ⟨tail, hlen, ?_⟩
    have hlow : b.toNat*2^8+c.toNat < 2^16 := by
      have hb := b.toNat_lt
      have hc := c.toNat_lt
      omega
    have hgroup : digits (6*4) (a.toNat*2^16+(b.toNat*2^8+c.toNat)) =
        byteBits a ++ (byteBits b ++ byteBits c) := by
      rw [show 6*4 = 8+(8+8) from rfl, digits_shift 8 (8+8) _ _ hlow,
        digits_shift 8 8 _ _ c.toNat_lt]
      rfl
    rw [encode, sextets_bits, hbits, hgroup]
    simp only [bytesBits_cons, List.append_assoc]
  | case2 a b =>
    refine ⟨digits 2 0, by rw [digits_length]; decide, ?_⟩
    have hgroup : digits (6*3) ((a.toNat*2^8+b.toNat)*2^2) =
        (byteBits a ++ byteBits b) ++ digits 2 0 := by
      rw [show 6*3 = (8+8)+2 from rfl, ← Nat.add_zero ((a.toNat*2^8+b.toNat)*2^2),
        digits_shift (8+8) 2 _ _ (by decide), digits_shift 8 8 _ _ b.toNat_lt]
      rfl
    rw [encode, sextets_bits, sextets_padding, hgroup, List.flatMap_nil, List.append_nil]
    rfl
  | case3 a =>
    refine ⟨digits 4 0, by rw [digits_length]; decide, ?_⟩
    have hgroup : digits (6*2) (a.toNat*2^4) = byteBits a ++ digits 4 0 := by
      rw [show 6*2 = 8+4 from rfl, ← Nat.add_zero (a.toNat*2^4),
        digits_shift 8 4 _ _ (by decide)]
      rfl
    rw [encode, sextets_bits, sextets_padding, hgroup, List.flatMap_nil, List.append_nil]
    rfl
  | case4 => exact ⟨[], by decide, rfl⟩

theorem decoded_encode (bytes : List UInt8) : decoded (encode bytes) = bytes := by
  obtain ⟨tail, hlen, hbits⟩ := encode_bits bytes
  rw [decoded, hbits, octets_bytes bytes tail hlen]

end RaptorCommon.Base64
