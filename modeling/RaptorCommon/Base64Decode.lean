import RaptorCommon.BasicAuth

/-!
# The decoder and the caller's buffer

What `rss_base64_decode` returns and what it leaves in memory, against the
decoding of the whole text.
-/

set_option autoImplicit false

namespace RaptorCommon.Base64Decode
open RaptorCommon.CText RaptorCommon.BitString RaptorCommon.Base64 RaptorCommon.HttpAuth
open RaptorCommon.BasicAuth

structure Decoder where
  mem : Bytes
  outLen : ℕ
  buf : UInt32
  bits : ℕ

def finishDecode (outMax : ℕ) (s : Decoder) : ℤ × Bytes :=
  ((s.outLen : ℤ).bmod (2^32), if s.outLen < outMax then s.mem.set s.outLen 0 else s.mem)

def decodeInto (outMax : ℕ) (s : Decoder) : Bytes → ℤ × Bytes
  | [] => finishDecode outMax s
  | c::rest =>
    if c = 61 then finishDecode outMax s
    else
      let v := b64Table c
      if v = 0xFF then decodeInto outMax s rest
      else
        let buf := s.buf <<< 6 ||| v.toUInt32
        let bits := s.bits+6
        if 8 ≤ bits then
          let bits := bits-8
          if outMax ≤ s.outLen then (-1, s.mem)
          else
            decodeInto outMax
              ⟨s.mem.set s.outLen (buf >>> UInt32.ofNat bits).toUInt8, s.outLen+1, buf, bits⟩ rest
        else decodeInto outMax ⟨s.mem, s.outLen, buf, bits⟩ rest

/-- `rss_base64_decode` with the memory behind `out`. -/
def rssBase64DecodeInto (input mem : Bytes) (outMax : ℕ) : ℤ × Bytes :=
  decodeInto outMax ⟨mem, 0, 0, 0⟩ input

def stored (out mem : Bytes) (outMax : ℕ) : Bytes :=
  out ++ if out.length < outMax then 0::mem.drop (out.length+1) else mem.drop out.length

section Loop

variable (mem : Bytes) (outMax : ℕ) (hmem : outMax ≤ mem.length)
include hmem

theorem set_behind (out : Bytes) (b : Byte) (h : out.length < outMax) :
    (out ++ mem.drop out.length).set out.length b = (out ++ [b]) ++ mem.drop (out.length+1) := by
  have hcons : mem.drop out.length = mem[out.length]::mem.drop (out.length+1) :=
    List.drop_eq_getElem_cons (by omega)
  rw [hcons, List.set_append_right _ _ le_rfl, Nat.sub_self, List.set_cons_zero,
    List.append_assoc, List.singleton_append]

theorem finish_stored (out : Bytes) (buf : UInt32) (bits : ℕ) :
    finishDecode outMax ⟨out ++ mem.drop out.length, out.length, buf, bits⟩ =
      ((out.length : ℤ).bmod (2^32), stored out mem outMax) := by
  unfold finishDecode stored
  dsimp only
  split_ifs with hroom
  · rw [set_behind mem outMax hmem out 0 hroom, List.append_assoc]
    rfl
  · rfl

/-- The loop on the caller's memory goes as the loop that gathers bytes: the
induction is on the input, and the memory behind the output is as it was. -/
theorem into_loop (text out : Bytes) (buf : UInt32) (bits : ℕ) :
    match decodeLoop outMax ⟨out, buf, bits⟩ text with
    | some s => decodeInto outMax ⟨out ++ mem.drop out.length, out.length, buf, bits⟩ text =
        ((s.out.length : ℤ).bmod (2^32), stored s.out mem outMax)
    | none =>
      (decodeInto outMax ⟨out ++ mem.drop out.length, out.length, buf, bits⟩ text).1 = -1 := by
  induction text generalizing out buf bits with
  | nil => exact finish_stored mem outMax hmem out buf bits
  | cons c rest ih =>
    rw [decodeLoop, decodeInto]
    by_cases hc : c = 61
    · rw [if_pos hc, if_pos hc]
      exact finish_stored mem outMax hmem out buf bits
    · rw [if_neg hc, if_neg hc]
      dsimp only
      by_cases hv : b64Table c = 0xFF
      · rw [if_pos hv, if_pos hv]
        exact ih out buf bits
      · rw [if_neg hv, if_neg hv]
        generalize buf <<< 6 ||| (b64Table c).toUInt32 = buf'
        by_cases h8 : 8 ≤ bits+6
        · rw [if_pos h8, if_pos h8]
          by_cases hfull : outMax ≤ out.length
          · rw [if_pos hfull, if_pos hfull]
          · rw [if_neg hfull, if_neg hfull, set_behind mem outMax hmem out _ (by omega)]
            have hih := ih (out ++ [(buf' >>> UInt32.ofNat (bits+6-8)).toUInt8]) buf' (bits+6-8)
            rw [List.length_append, List.length_singleton] at hih
            exact hih
        · rw [if_neg h8, if_neg h8]
          exact ih out buf' (bits+6)

end Loop

section Reference

theorem octets_length (bits : List Bool) : 8*(octets bits).length ≤ bits.length := by
  fun_induction octets bits with
  | case1 b7 b6 b5 b4 b3 b2 b1 b0 rest ih =>
    simp only [List.length_cons]
    omega
  | case2 bits h => simp

theorem decoded_length (text : Bytes) : (decoded text).length ≤ text.length := by
  have hoctets := octets_length ((sextets text).flatMap (digits 6))
  have hbits : ((sextets text).flatMap (digits 6)).length = 6*(sextets text).length := by
    rw [List.length_flatMap]
    simp [Nat.mul_comm]
  have hsextets : (sextets text).length ≤ text.length := by
    unfold sextets
    exact le_trans (List.length_filterMap_le _ _) (List.takeWhile_sublist _).length_le
  unfold decoded
  omega

def significant (text : Bytes) : Bytes := text.filter (· ∈ padding::symbols)

/-- A text that spells a byte string: its encoding, padded or not, with other
characters in between. -/
def Spells (text bytes : Bytes) : Prop :=
  significant text = encode bytes ∨
    significant text = (encode bytes).takeWhile (· ≠ padding)

instance (text bytes : Bytes) : Decidable (Spells text bytes) := instDecidableOr

theorem sextet_none {c : Byte} (h : c ∉ padding::symbols) : sextet c = none := by
  rw [sextet, List.idxOf?_eq_none_iff]
  exact fun hc => h (List.mem_cons_of_mem padding hc)

theorem sextets_significant (text : Bytes) : sextets (significant text) = sextets text := by
  induction text with
  | nil => rfl
  | cons c rest ih =>
    by_cases hc : c ∈ padding::symbols
    · have hkeep : significant (c::rest) = c::significant rest :=
        List.filter_cons_of_pos (by simpa using hc)
      rw [hkeep]
      by_cases hp : c = padding
      · rw [hp, sextets_padding, sextets_padding]
      · cases hs : sextet c with
        | none => rw [sextets_skip hp hs, sextets_skip hp hs, ih]
        | some i => rw [sextets_take hp hs, sextets_take hp hs, ih]
    · have hdrop : significant (c::rest) = significant rest :=
        List.filter_cons_of_neg (by simpa using hc)
      have hp : c ≠ padding := fun h => hc (by simp [h])
      rw [hdrop, ih, sextets_skip hp (sextet_none hc)]

theorem sextets_unpadded (text : Bytes) :
    sextets (text.takeWhile (· ≠ padding)) = sextets text := by
  unfold sextets
  rw [List.takeWhile_takeWhile]
  simp

theorem decoded_spelled {text bytes : Bytes} (h : Spells text bytes) : decoded text = bytes := by
  have hsextets : sextets text = sextets (encode bytes) := by
    rw [← sextets_significant]
    rcases h with hp | hu
    · rw [hp]
    · rw [hu, sextets_unpadded]
  rw [decoded, hsextets]
  exact decoded_encode bytes

end Reference

theorem into_decoded (input mem : Bytes) (outMax : ℕ) (hmem : outMax ≤ mem.length) :
    if (decoded input).length ≤ outMax then
      rssBase64DecodeInto input mem outMax =
        (((decoded input).length : ℤ).bmod (2^32), stored (decoded input) mem outMax)
    else (rssBase64DecodeInto input mem outMax).1 = -1 := by
  have hloop := into_loop mem outMax hmem input [] 0 0
  have hdec := decode_base64 input outMax
  rw [rssBase64Decode] at hdec
  cases hl : decodeLoop outMax ⟨[], 0, 0⟩ input with
  | none =>
    rw [hl] at hloop hdec
    split_ifs at hdec ⊢ with hle
    · cases hdec
    · exact hloop
  | some s =>
    rw [hl] at hloop hdec
    split_ifs at hdec ⊢ with hle
    · rw [← Option.some.inj hdec]
      exact hloop
    · cases hdec

theorem int_length {n : ℕ} (h : n < 2^31) : (n : ℤ).bmod (2^32) = n :=
  Int.bmod_eq_of_le (by omega) (by omega)

/-- The decoder is the decoding of the whole text, refused exactly when it does
not fit; a text that spells a byte string gives the string. -/
theorem base64_decode_exact (input mem : Bytes) (outMax : ℕ) (hinput : input.length < 2^31)
    (hmem : outMax ≤ mem.length) :
    ((rssBase64DecodeInto input mem outMax).1 = -1 ↔ outMax < (decoded input).length) ∧
    ((decoded input).length ≤ outMax → rssBase64DecodeInto input mem outMax =
      (((decoded input).length : ℤ), stored (decoded input) mem outMax)) ∧
    ∀ bytes, Spells input bytes → bytes.length ≤ outMax →
      (rssBase64DecodeInto input mem outMax).1 = bytes.length ∧
        (rssBase64DecodeInto input mem outMax).2.take bytes.length = bytes := by
  have hinto := into_decoded input mem outMax hmem
  have hlength := decoded_length input
  rw [int_length (by omega)] at hinto
  have hfits : (decoded input).length ≤ outMax → rssBase64DecodeInto input mem outMax =
      (((decoded input).length : ℤ), stored (decoded input) mem outMax) := by
    intro hle
    rwa [if_pos hle] at hinto
  refine ⟨?_, hfits, ?_⟩
  · constructor
    · intro hret
      by_contra hle
      rw [hfits (by omega)] at hret
      simp only at hret
      omega
    · intro hlt
      rwa [if_neg (by omega)] at hinto
  · intro bytes hspells hle
    rw [← decoded_spelled hspells] at hle ⊢
    rw [hfits hle]
    exact ⟨rfl, List.take_left' rfl⟩

/-- "Zm 9v\nYmE" is "fooba" without its padding and with two characters that do
not count. -/
theorem base64_decode_exact_interspersed :
    (rssBase64DecodeInto (ascii "Zm 9v\nYmE") (List.replicate 8 7) 8).1 = 5 ∧
      (rssBase64DecodeInto (ascii "Zm 9v\nYmE") (List.replicate 8 7) 8).2.take 5 =
        ascii "fooba" :=
  (base64_decode_exact (ascii "Zm 9v\nYmE") (List.replicate 8 7) 8 (by decide) (by decide)).2.2
    (ascii "fooba") (by decide +kernel) (by decide)

end RaptorCommon.Base64Decode
