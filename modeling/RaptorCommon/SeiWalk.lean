import RaptorCommon.Sei
import Mathlib.Data.List.GetD
import Mathlib.Tactic.Ring

/-!
# Finding the timestamp among other messages

A built NAL needs no emulation prevention. In front of the built message the
walk passes over every message it does not take for a timestamp. It compares
types modulo 2^32, so it can take a message of a far larger type for one.
-/

set_option autoImplicit false

namespace RaptorCommon.SeiWalk
open RaptorCommon.CText RaptorCommon.Sei

section Emulation

/-- Past two zeros a byte is above 3, counting from some zeros in front. -/
def Solid : ℕ → Bytes → Prop
  | _, [] => True
  | zeros, c::rest => (2 ≤ zeros → 3 < c) ∧ Solid (if c = 0 then zeros+1 else 0) rest

theorem solid_code {zeros : ℕ} {front back : Bytes} {c : Byte}
    (h : Solid zeros (front ++ 0::0::c::back)) : 3 < c := by
  induction front generalizing zeros with
  | nil =>
    apply h.2.2.1
    simp
  | cons d front ih => exact ih h.2

theorem solid_nonzero {xs : Bytes} (rest : Bytes) (hxs : ∀ c ∈ xs, c ≠ 0) (h : Solid 0 rest) :
    Solid 0 (xs ++ rest) := by
  induction xs with
  | nil => exact h
  | cons c xs ih =>
    refine ⟨fun hz => absurd hz (by decide), ?_⟩
    rw [if_neg (hxs c (by simp))]
    exact ih fun d hd => hxs d (by simp [hd])

theorem solid_group (a b : Byte) {guard : Byte} {rest : Bytes} (hg : 3 < guard) (h : Solid 0 rest) :
    Solid 0 (a::b::guard::rest) := by
  have hne : guard ≠ 0 := by
    rintro rfl
    exact absurd hg (by decide)
  refine ⟨fun hz => absurd hz (by decide), fun hz => ?_, fun _ => hg, ?_⟩
  · split at hz <;> omega
  · rw [if_neg hne]
    exact h

theorem status_nonzero (status : Byte) : status ||| 0x1f ≠ 0 := by
  revert status
  exact forall_byte (by decide +kernel)

theorem nonzero_mem {l : Bytes} (h : 0 ∉ l) : ∀ b ∈ l, b ≠ 0 := by
  rintro b hb rfl
  exact h hb

theorem uuid_nonzero (c : Codec) : ∀ b ∈ uuid c, b ≠ 0 :=
  nonzero_mem (by cases c <;> decide)

theorem stamp_nal_solid (c : Codec) (utcUs : UInt64) (status : Byte) :
    Solid 0 (stampNal c utcUs status) := by
  have hhead : ∀ b ∈ nalHeader c ++ [UInt8.ofNat seiPayloadTypeUdu, UInt8.ofNat seiPayloadSize] ++
      uuid c ++ [status ||| 0x1f], b ≠ 0 := by
    intro b hb
    simp only [List.mem_append, List.mem_singleton] at hb
    rcases hb with ((hb | hb) | hb) | hb
    · exact nonzero_mem (l := nalHeader c) (by cases c <;> decide) b hb
    · exact nonzero_mem (by decide) b hb
    · exact uuid_nonzero c b hb
    · rw [hb]
      exact status_nonzero status
  have hgroups : Solid 0 ((stampBytes utcUs status).drop 1 ++ [0x80]) := by
    apply solid_group _ _ (by decide)
    apply solid_group _ _ (by decide)
    apply solid_group _ _ (by decide)
    apply solid_group _ _ (by decide)
    exact trivial
  have hall := solid_nonzero _ hhead hgroups
  rw [List.append_assoc, ← List.append_assoc [status ||| 0x1f]] at hall
  simpa [stampNal, stampMessage, stampBytes] using hall

end Emulation

section Coding

structure SeiMessage where
  type : ℕ
  payload : Bytes

def coded (n : ℕ) : Bytes := List.replicate (n/255) 0xff ++ [UInt8.ofNat (n%255)]

def SeiMessage.bytes (m : SeiMessage) : Bytes :=
  coded m.type ++ coded m.payload.length ++ m.payload

theorem read_run (acc : UInt32) (k : ℕ) (rest : Bytes) :
    readCoded acc (List.replicate k 0xff ++ rest) = readCoded (acc+UInt32.ofNat (255*k)) rest := by
  induction k generalizing acc with
  | zero => simp
  | succ k ih =>
    have hsum : acc+0xff+UInt32.ofNat (255*k) = acc+UInt32.ofNat (255*(k+1)) := by
      rw [Nat.mul_succ, Nat.add_comm (255*k), UInt32.ofNat_add, UInt32.add_assoc]
      rfl
    rw [List.replicate_succ, List.cons_append, readCoded, if_pos rfl, ih, hsum]

theorem read_coded (n : ℕ) (rest : Bytes) :
    readCoded 0 (coded n ++ rest) = some (UInt32.ofNat n, rest) := by
  have hlast : UInt8.ofNat (n%255) ≠ 0xff := by
    intro h
    have hval := congrArg UInt8.toNat h
    rw [UInt8.toNat_ofNat'] at hval
    have hlt := Nat.mod_lt n (show 0 < 255 by decide)
    change n%255%256 = 255 at hval
    omega
  have hsum : (0 : UInt32)+UInt32.ofNat (255*(n/255))+(UInt8.ofNat (n%255)).toUInt32 =
      UInt32.ofNat n := by
    apply UInt32.toNat.inj
    have hlt := Nat.mod_lt n (show 0 < 255 by decide)
    simp only [UInt32.toNat_add, UInt32.toNat_ofNat', UInt8.toNat_toUInt32, UInt8.toNat_ofNat']
    have hdiv := Nat.div_add_mod n 255
    have hzero : (0 : UInt32).toNat = 0 := rfl
    omega
  rw [coded, List.append_assoc, read_run, List.singleton_append, readCoded, if_neg hlast, hsum]

theorem coded_length (n : ℕ) : (coded n).length = n/255+1 := by
  rw [coded, List.length_append, List.length_replicate]
  rfl

theorem coded_head (n : ℕ) : ∃ c q, coded n = c::q := by
  have hpos : coded n ≠ [] := List.append_ne_nil_of_right_ne_nil _ (List.cons_ne_nil _ _)
  exact List.exists_cons_of_ne_nil hpos

end Coding

section Stamp

theorem or_step (n b k : ℕ) (hb : b < 256) : n*2^(k+8) ||| b*2^k = (n*256+b)*2^k := by
  have hlt : b*2^k < 2^(k+8) := by
    rw [pow_add, Nat.mul_comm (2^k)]
    exact (Nat.mul_lt_mul_right (Nat.two_pow_pos k)).mpr hb
  rw [Nat.mul_comm n, ← Nat.two_pow_add_eq_or_of_lt hlt, pow_add]
  ring

theorem shifted (b : Byte) (k : ℕ) (hk : k ≤ 56) :
    (b.toUInt64 <<< UInt64.ofNat k).toNat = b.toNat*2^k := by
  have hshift : (UInt64.ofNat k).toNat%64 = k := by
    rw [UInt64.toNat_ofNat']
    omega
  have hlt : b.toNat*2^k < 2^64 := by
    have hb : b.toNat < 2^8 := b.toNat_lt
    have hpow : 2^k ≤ 2^56 := Nat.pow_le_pow_right (by decide) hk
    calc b.toNat*2^k < 2^8*2^k := (Nat.mul_lt_mul_right (Nat.two_pow_pos k)).mpr hb
      _ ≤ 2^8*2^56 := Nat.mul_le_mul_left _ hpow
      _ = 2^64 := by norm_num
  rw [UInt64.toNat_shiftLeft, hshift, Nat.shiftLeft_eq, UInt8.toNat_toUInt64, Nat.mod_eq_of_lt hlt]

def joined (b1 b2 b3 b4 b5 b6 b7 b8 : Byte) : UInt64 :=
  b1.toUInt64 <<< 56 ||| b2.toUInt64 <<< 48 ||| b3.toUInt64 <<< 40 ||| b4.toUInt64 <<< 32 |||
    b5.toUInt64 <<< 24 ||| b6.toUInt64 <<< 16 ||| b7.toUInt64 <<< 8 ||| b8.toUInt64

theorem joined_value (b1 b2 b3 b4 b5 b6 b7 b8 : Byte) :
    (joined b1 b2 b3 b4 b5 b6 b7 b8).toNat =
      ((((((b1.toNat*256+b2.toNat)*256+b3.toNat)*256+b4.toNat)*256+b5.toNat)*256+
        b6.toNat)*256+b7.toNat)*256+b8.toNat := by
  have h1 := shifted b1 56 (by decide)
  have h2 := shifted b2 48 (by decide)
  have h3 := shifted b3 40 (by decide)
  have h4 := shifted b4 32 (by decide)
  have h5 := shifted b5 24 (by decide)
  have h6 := shifted b6 16 (by decide)
  have h7 := shifted b7 8 (by decide)
  have h8 : b8.toUInt64.toNat = b8.toNat*2^0 := by rw [UInt8.toNat_toUInt64, pow_zero, Nat.mul_one]
  rw [joined]
  simp only [UInt64.toNat_or]
  change ((((((( (b1.toUInt64 <<< UInt64.ofNat 56).toNat ||| (b2.toUInt64 <<< UInt64.ofNat 48).toNat) |||
    (b3.toUInt64 <<< UInt64.ofNat 40).toNat) ||| (b4.toUInt64 <<< UInt64.ofNat 32).toNat) |||
    (b5.toUInt64 <<< UInt64.ofNat 24).toNat) ||| (b6.toUInt64 <<< UInt64.ofNat 16).toNat) |||
    (b7.toUInt64 <<< UInt64.ofNat 8).toNat) ||| b8.toUInt64.toNat) = _
  rw [h1, h2, h3, h4, h5, h6, h7, h8, or_step _ _ 48 b2.toNat_lt, or_step _ _ 40 b3.toNat_lt,
    or_step _ _ 32 b4.toNat_lt, or_step _ _ 24 b5.toNat_lt, or_step _ _ 16 b6.toNat_lt,
    or_step _ _ 8 b7.toNat_lt, or_step _ _ 0 b8.toNat_lt, pow_zero, Nat.mul_one]

theorem shifted_byte (v : UInt64) (j : ℕ) (hj : j < 8) :
    (v >>> UInt64.ofNat (8*j)).toUInt8.toNat = v.toNat/256^j%256 := by
  have hshift : (UInt64.ofNat (8*j)).toNat%64 = 8*j := by
    rw [UInt64.toNat_ofNat']
    omega
  rw [UInt64.toNat_toUInt8, UInt64.toNat_shiftRight, hshift, Nat.shiftRight_eq_div_pow, pow_mul]
  norm_num

theorem digit_step (n b v j : ℕ) (hb : b < 256) :
    n*256+b = v/256^j ↔ b = v/256^j%256 ∧ n = v/256^(j+1) := by
  rw [pow_succ, ← Nat.div_div_eq_div_mul]
  omega

theorem joined_eq (b1 b2 b3 b4 b5 b6 b7 b8 : Byte) (v : UInt64) :
    joined b1 b2 b3 b4 b5 b6 b7 b8 = v ↔
      b1 = (v >>> 56).toUInt8 ∧ b2 = (v >>> 48).toUInt8 ∧ b3 = (v >>> 40).toUInt8 ∧
        b4 = (v >>> 32).toUInt8 ∧ b5 = (v >>> 24).toUInt8 ∧ b6 = (v >>> 16).toUInt8 ∧
        b7 = (v >>> 8).toUInt8 ∧ b8 = v.toUInt8 := by
  have h1 : (v >>> 56).toUInt8.toNat = _ := shifted_byte v 7 (by decide)
  have h2 : (v >>> 48).toUInt8.toNat = _ := shifted_byte v 6 (by decide)
  have h3 : (v >>> 40).toUInt8.toNat = _ := shifted_byte v 5 (by decide)
  have h4 : (v >>> 32).toUInt8.toNat = _ := shifted_byte v 4 (by decide)
  have h5 : (v >>> 24).toUInt8.toNat = _ := shifted_byte v 3 (by decide)
  have h6 : (v >>> 16).toUInt8.toNat = _ := shifted_byte v 2 (by decide)
  have h7 : (v >>> 8).toUInt8.toNat = _ := shifted_byte v 1 (by decide)
  have h8 : v.toUInt8.toNat = v.toNat/256^0%256 := by
    rw [UInt64.toNat_toUInt8, pow_zero, Nat.div_one]
  -- below the first byte nothing is left
  have htop : b1.toNat = v.toNat/256^7 ↔ b1.toNat = v.toNat/256^7%256 := by
    have hv : v.toNat/256^7 < 256 := Nat.div_lt_of_lt_mul v.toNat_lt
    rw [Nat.mod_eq_of_lt hv]
  have hwhole : v.toNat = v.toNat/256^0 := by rw [pow_zero, Nat.div_one]
  simp only [← UInt64.toNat_inj, ← UInt8.toNat_inj, h1, h2, h3, h4, h5, h6, h7, h8, joined_value]
  conv_lhs => rw [hwhole]
  rw [digit_step _ _ _ 0 b8.toNat_lt, digit_step _ _ _ 1 b7.toNat_lt,
    digit_step _ _ _ 2 b6.toNat_lt, digit_step _ _ _ 3 b5.toNat_lt, digit_step _ _ _ 4 b4.toNat_lt,
    digit_step _ _ _ 5 b3.toNat_lt, digit_step _ _ _ 6 b2.toNat_lt, htop]
  constructor
  · rintro ⟨e8, e7, e6, e5, e4, e3, e2, e1⟩
    exact ⟨e1, e2, e3, e4, e5, e6, e7, e8⟩
  · rintro ⟨e1, e2, e3, e4, e5, e6, e7, e8⟩
    exact ⟨e8, e7, e6, e5, e4, e3, e2, e1⟩

theorem take_twelve {d : Bytes} (h : 12 ≤ d.length) :
    d.take 12 = (List.range 12).map (fun i => d.getD i 0) := by
  apply List.ext_getElem
  · rw [List.length_take_of_le h, List.length_map, List.length_range]
  · intro i h1 h2
    have hi : i < d.length := by
      rw [List.length_take] at h1
      omega
    rw [List.getElem_take, List.getElem_map, List.getElem_range, List.getD_eq_getElem _ _ hi]

/-- The parser reads a stamp exactly where its twelve bytes stand. -/
theorem read_stamp_iff {d : Bytes} (h : 12 ≤ d.length) (u utcUs : UInt64) (s status : Byte) :
    readStamp d ⟨some u, some s⟩ = (0, ⟨some utcUs, some (status ||| 0x1f)⟩) ↔
      d.take 12 = stampBytes utcUs status := by
  have hlist : (List.range 12).map (fun i => d.getD i 0) =
      [d.getD 0 0, d.getD 1 0, d.getD 2 0, d.getD 3 0, d.getD 4 0, d.getD 5 0, d.getD 6 0,
        d.getD 7 0, d.getD 8 0, d.getD 9 0, d.getD 10 0, d.getD 11 0] := rfl
  rw [take_twelve h, hlist, stampBytes]
  simp only [List.cons.injEq, and_true]
  unfold readStamp
  split
  next hguard =>
    constructor
    · intro hr
      have hcode : -ebadmsg = (0 : ℤ) := congrArg Prod.fst hr
      cases hcode
    · rintro ⟨-, -, -, hg3, -, -, hg6, -, -, hg9, -, -⟩
      rcases hguard with hg | hg | hg
      · exact absurd hg3 hg
      · exact absurd hg6 hg
      · exact absurd hg9 hg
  next hguard =>
    simp only [not_or, not_not] at hguard
    obtain ⟨hg3, hg6, hg9⟩ := hguard
    have hjoined := joined_eq (d.getD 1 0) (d.getD 2 0) (d.getD 4 0) (d.getD 5 0) (d.getD 7 0)
      (d.getD 8 0) (d.getD 10 0) (d.getD 11 0) utcUs
    show (0, SeiOut.mk (some (joined _ _ _ _ _ _ _ _)) (some _)) = _ ↔ _
    simp only [Prod.mk.injEq, true_and, SeiOut.mk.injEq, Option.some.injEq, hjoined]
    constructor
    · rintro ⟨⟨e1, e2, e4, e5, e7, e8, e10, e11⟩, e0⟩
      exact ⟨e0, e1, e2, hg3, e4, e5, hg6, e7, e8, hg9, e10, e11⟩
    · rintro ⟨e0, e1, e2, -, e4, e5, -, e7, e8, -, e10, e11⟩
      exact ⟨⟨e1, e2, e4, e5, e7, e8, e10, e11⟩, e0⟩

end Stamp

section Walk

variable {c : Codec} {out : SeiOut}

def IsStamp (c : Codec) (m : SeiMessage) : Prop :=
  m.type = seiPayloadTypeUdu ∧ seiPayloadSize ≤ m.payload.length ∧ m.payload.take 16 = uuid c

def takenForStamp (c : Codec) (m : SeiMessage) : Bool :=
  m.type % 2^32 = seiPayloadTypeUdu ∧ seiPayloadSize ≤ m.payload.length ∧
    m.payload.take 16 = uuid c

theorem trailing_all {p : Bytes} (h : trailing p = true) : ∀ z ∈ p.drop 1, z = 0 := by
  cases p with
  | nil => simp
  | cons c q =>
    rw [trailing, Bool.and_eq_true, List.all_eq_true] at h
    intro z hz
    exact of_decide_eq_true (h.2 z hz)

theorem message_head (m : SeiMessage) : ∃ b q, m.bytes = b::q := by
  obtain ⟨b, q, hq⟩ := coded_head m.type
  exact ⟨b, q ++ coded m.payload.length ++ m.payload, by simp [SeiMessage.bytes, hq]⟩

theorem read_stamp_front {d : Bytes} (rest : Bytes) (h : 12 ≤ d.length) :
    readStamp (d ++ rest) out = readStamp d out := by
  have hat (i : ℕ) (hi : i < 12) : (d ++ rest).getD i 0 = d.getD i 0 :=
    List.getD_append d rest 0 i (by omega)
  simp only [readStamp, hat 0 (by decide), hat 1 (by decide), hat 2 (by decide),
    hat 3 (by decide), hat 4 (by decide), hat 5 (by decide), hat 6 (by decide), hat 7 (by decide),
    hat 8 (by decide), hat 9 (by decide), hat 10 (by decide), hat 11 (by decide)]

theorem message_goes (m : SeiMessage) {rest : Bytes} (hrest : ∃ z ∈ rest, z ≠ 0) :
    ¬trailing (m.bytes ++ rest) = true := by
  obtain ⟨b, q, hq⟩ := message_head m
  obtain ⟨z, hz, hne⟩ := hrest
  intro h
  rw [hq] at h
  exact hne (trailing_all h z (List.mem_append_right q hz))

theorem walk_message {m : SeiMessage} {rest : Bytes} (hsize : m.payload.length < 2^32)
    (hgoes : ¬trailing (m.bytes ++ rest) = true) (fuel : ℕ) :
    walkMessages c out (fuel+1) (m.bytes ++ rest) =
      if takenForStamp c m = true then readStamp (m.payload.drop 16) out
      else walkMessages c out fuel rest := by
  obtain ⟨b, q, hq⟩ := message_head m
  have hsome : ¬(m.bytes ++ rest = [] ∨ trailing (m.bytes ++ rest) = true) := by
    rintro (h | h)
    · rw [hq] at h
      cases h
    · exact hgoes h
  have hlen : (UInt32.ofNat m.payload.length).toNat = m.payload.length := by
    rw [UInt32.toNat_ofNat', Nat.mod_eq_of_lt hsize]
  have htaken : (UInt32.ofNat m.type = UInt32.ofNat seiPayloadTypeUdu ∧
      seiPayloadSize ≤ m.payload.length ∧ (m.payload ++ rest).take 16 = uuid c) ↔
      takenForStamp c m = true := by
    have htype : UInt32.ofNat m.type = UInt32.ofNat seiPayloadTypeUdu ↔
        m.type % 2^32 = seiPayloadTypeUdu := by
      rw [← UInt32.toNat_inj, UInt32.toNat_ofNat']
      rfl
    rw [takenForStamp, decide_eq_true_eq, htype]
    apply and_congr_right
    intro _
    apply and_congr_right
    intro hroom
    rw [List.take_append_of_le_length (Nat.le_trans (by decide) hroom)]
  rw [walkMessages, if_neg hsome, SeiMessage.bytes, List.append_assoc, List.append_assoc,
    read_coded]
  dsimp only
  rw [read_coded]
  dsimp only
  rw [hlen, if_neg (by rw [List.length_append]; omega), List.drop_left]
  by_cases h : takenForStamp c m = true
  · have hroom : seiPayloadSize ≤ m.payload.length := (of_decide_eq_true h).2.1
    have hsixteen : 16 ≤ m.payload.length := Nat.le_trans (by decide) hroom
    rw [if_pos (htaken.mpr h), if_pos h, List.drop_append_of_le_length hsixteen,
      read_stamp_front _ (by rw [List.length_drop]; exact Nat.sub_le_sub_right hroom 16)]
  · rw [if_neg (fun hc => h (htaken.mp hc)), if_neg h]

theorem walk_messages (msgs : List SeiMessage) {rest : Bytes}
    (hsize : ∀ m ∈ msgs, m.payload.length < 2^32) (hrest : ∃ z ∈ rest, z ≠ 0) (fuel : ℕ) :
    walkMessages c out (fuel+msgs.length) (msgs.flatMap SeiMessage.bytes ++ rest) =
      match msgs.find? (takenForStamp c) with
      | some m => readStamp (m.payload.drop 16) out
      | none => walkMessages c out fuel rest := by
  induction msgs with
  | nil => rfl
  | cons m msgs ih =>
    have hbehind : ∃ z ∈ msgs.flatMap SeiMessage.bytes ++ rest, z ≠ 0 := by
      obtain ⟨z, hz, hne⟩ := hrest
      exact ⟨z, List.mem_append_right _ hz, hne⟩
    rw [List.flatMap_cons, List.append_assoc, List.length_cons, ← Nat.add_assoc,
      walk_message (hsize m (by simp)) (message_goes m hbehind), List.find?_cons]
    cases h : takenForStamp c m with
    | true => rfl
    | false =>
      rw [if_neg Bool.false_ne_true]
      exact ih fun n hn => hsize n (by simp [hn])

theorem message_within {m : SeiMessage} {msgs : List SeiMessage} (hm : m ∈ msgs) :
    m.payload.length ≤ (msgs.flatMap SeiMessage.bytes).length := by
  obtain ⟨front, back, rfl⟩ := List.append_of_mem hm
  rw [List.flatMap_append, List.flatMap_cons, SeiMessage.bytes]
  simp only [List.length_append]
  omega

theorem messages_length (msgs : List SeiMessage) :
    msgs.length ≤ (msgs.flatMap SeiMessage.bytes).length := by
  induction msgs with
  | nil => exact Nat.le_refl 0
  | cons m msgs ih =>
    obtain ⟨b, q, hq⟩ := message_head m
    rw [List.flatMap_cons, List.length_append, hq, List.length_cons, List.length_cons]
    omega

end Walk

section Parsing

variable {c : Codec} {utcUs : UInt64} {status : Byte}

def stampOf (c : Codec) (utcUs : UInt64) (status : Byte) : SeiMessage where
  type := seiPayloadTypeUdu
  payload := uuid c ++ stampBytes utcUs status

theorem uuid_length (c : Codec) : (uuid c).length = 16 := by cases c <;> rfl

theorem stamp_payload_length : (stampOf c utcUs status).payload.length = seiPayloadSize := by
  rw [stampOf, List.length_append, uuid_length]
  rfl

theorem stamp_bytes : (stampOf c utcUs status).bytes = stampMessage c utcUs status := by
  rw [SeiMessage.bytes, stamp_payload_length]
  show coded 5 ++ coded 28 ++ (uuid c ++ stampBytes utcUs status) = _
  rw [stampMessage, List.append_assoc [UInt8.ofNat seiPayloadTypeUdu, UInt8.ofNat seiPayloadSize]]
  rfl

theorem stamp_message_length : (stampMessage c utcUs status).length = seiPayloadSize+2 := by
  cases c <;> rfl

theorem stamp_taken : takenForStamp c (stampOf c utcUs status) = true := by
  rw [takenForStamp, decide_eq_true_eq, stamp_payload_length]
  refine ⟨rfl, Nat.le_refl _, ?_⟩
  rw [stampOf, List.take_left' (uuid_length c)]

theorem walk_stamp (out : SeiOut) (tail : Bytes) (fuel : ℕ) :
    walkMessages c out (fuel+1) (stampMessage c utcUs status ++ tail) =
      readStamp (stampBytes utcUs status) out := by
  have hgoes : ¬trailing ((stampOf c utcUs status).bytes ++ tail) = true := by
    rw [stamp_bytes]
    exact Bool.false_ne_true
  have hsize : (stampOf c utcUs status).payload.length < 2^32 := by
    rw [stamp_payload_length]
    decide
  rw [← stamp_bytes, walk_message hsize hgoes, if_pos stamp_taken, stampOf,
    List.drop_left' (uuid_length c)]

/-- The parser's answer: that of the first message taken for a stamp. -/
theorem parse_answer (c : Codec) (utcUs : UInt64) (status : Byte) (msgs : List SeiMessage)
    (tail : Bytes) (u : UInt64) (s : Option Byte)
    (hlen : (nalHeader c ++ msgs.flatMap SeiMessage.bytes ++ stampMessage c utcUs status ++
      tail).length < 2^32) :
    rssSeiParseTimestamp (some (nalHeader c ++ msgs.flatMap SeiMessage.bytes ++
        stampMessage c utcUs status ++ tail)) c.id ⟨some u, s⟩ =
      match msgs.find? (takenForStamp c) with
      | some m => readStamp (m.payload.drop 16) ⟨some u, s⟩
      | none => readStamp (stampBytes utcUs status) ⟨some u, s⟩ := by
  have hcodec : codecOf c.id = some c := by cases c <;> rfl
  have hsei (rest : Bytes) : isSei c (nalHeader c ++ rest) = true := by cases c <;> rfl
  have hsize : ∀ m ∈ msgs, m.payload.length < 2^32 := by
    intro m hm
    have hwithin := message_within hm
    simp only [List.length_append] at hlen
    omega
  have hrest : ∃ z ∈ stampMessage c utcUs status ++ tail, z ≠ 0 :=
    ⟨5, List.mem_cons_self, by decide⟩
  obtain ⟨fuel, hfuel⟩ : ∃ fuel, (msgs.flatMap SeiMessage.bytes ++
      (stampMessage c utcUs status ++ tail)).length = fuel+1+msgs.length := by
    have hmsgs := messages_length msgs
    have hpos : 0 < (stampMessage c utcUs status).length :=
      List.length_pos_of_ne_nil (List.cons_ne_nil _ _)
    refine ⟨(msgs.flatMap SeiMessage.bytes ++
      (stampMessage c utcUs status ++ tail)).length-(msgs.length+1), ?_⟩
    simp only [List.length_append]
    omega
  rw [List.append_assoc, List.append_assoc]
  unfold rssSeiParseTimestamp
  dsimp only
  rw [hcodec]
  dsimp only
  rw [if_pos (hsei _), List.drop_left, hfuel, walk_messages msgs hsize hrest, walk_stamp]

theorem stamp_nal_length : (stampNal c utcUs status).length =
    (nalHeader c).length+1+1+seiPayloadSize+1 := by
  rw [stampNal, List.length_append, List.length_append, stamp_message_length]
  cases c <;> rfl

theorem build_run (dst : Bytes) (cap : ℕ) :
    rssSeiBuildTimestamp (some dst) cap c.id seiPrefixNone utcUs status =
      if cap < (stampNal c utcUs status).length then (-enospc, some dst)
      else (((stampNal c utcUs status).length : ℤ),
        some (stampNal c utcUs status ++ dst.drop (stampNal c utcUs status).length)) := by
  have hcodec : codecOf c.id = some c := by cases c <;> rfl
  have hlength : (nalHeader c).length+1+1+seiPayloadSize+1 = (stampNal c utcUs status).length :=
    stamp_nal_length.symm
  unfold rssSeiBuildTimestamp
  dsimp only
  rw [hcodec]
  dsimp only
  rw [if_pos rfl, Nat.zero_add, hlength]
  rfl

theorem build_fits (dst : Bytes) (cap : ℕ) :
    0 ≤ (rssSeiBuildTimestamp (some dst) cap c.id seiPrefixNone utcUs status).1 ↔
      (stampNal c utcUs status).length ≤ cap := by
  rw [build_run]
  split
  next hcap => exact iff_of_false (show ¬(0 : ℤ) ≤ -enospc by decide) (Nat.not_le.mpr hcap)
  next hcap => exact iff_of_true (Int.natCast_nonneg _) (Nat.not_lt.mp hcap)

theorem build_writes (dst : Bytes) (cap : ℕ)
    (h : 0 ≤ (rssSeiBuildTimestamp (some dst) cap c.id seiPrefixNone utcUs status).1) :
    ∃ buf, (rssSeiBuildTimestamp (some dst) cap c.id seiPrefixNone utcUs status).2 = some buf ∧
      buf.take (rssSeiBuildTimestamp (some dst) cap c.id seiPrefixNone utcUs status).1.toNat =
        stampNal c utcUs status := by
  have hcap := (build_fits dst cap).mp h
  rw [build_run, if_neg (Nat.not_lt.mpr hcap)]
  exact ⟨_, rfl, List.take_left⟩

end Parsing

section Finding

/-- The bare NAL, built where it fits, has no two zeros in front of a byte up to 3. Behind other
messages the stamp is found exactly when the first message whose type and
identifier pass for a stamp's, if there is one, holds the same stamp. -/
theorem stamp_found_iff (c : Codec) (utcUs : UInt64) (status : Byte) (msgs : List SeiMessage)
    (tail : Bytes) (u : UInt64) (s : Byte)
    (hlen : (nalHeader c ++ msgs.flatMap SeiMessage.bytes ++ stampMessage c utcUs status ++
      tail).length < 2^32) :
    (∀ (dst : Bytes) (cap : ℕ),
      let built := rssSeiBuildTimestamp (some dst) cap c.id seiPrefixNone utcUs status
      (0 ≤ built.1 ↔ (nalHeader c ++ stampMessage c utcUs status ++ [0x80]).length ≤ cap) ∧
      (0 ≤ built.1 → ∃ buf, built.2 = some buf ∧
        buf.take built.1.toNat = nalHeader c ++ stampMessage c utcUs status ++ [0x80] ∧
        ∀ front z back, buf.take built.1.toNat = front ++ 0::0::z::back → 3 < z)) ∧
    (rssSeiParseTimestamp (some (nalHeader c ++ msgs.flatMap SeiMessage.bytes ++
        stampMessage c utcUs status ++ tail)) c.id ⟨some u, some s⟩ =
        (0, ⟨some utcUs, some (status ||| 0x1f)⟩) ↔
      ∀ m, msgs.find? (takenForStamp c) = some m →
        (m.payload.drop 16).take 12 = stampBytes utcUs status) := by
  constructor
  · refine fun dst cap => ⟨build_fits dst cap, fun hbuilt => ?_⟩
    obtain ⟨buf, hbuf, hwritten⟩ := build_writes dst cap hbuilt
    refine ⟨buf, hbuf, hwritten, ?_⟩
    intro front z back hcode
    have hsolid := stamp_nal_solid c utcUs status
    rw [← hwritten, hcode] at hsolid
    exact solid_code hsolid
  · rw [parse_answer c utcUs status msgs tail u (some s) hlen]
    cases hfind : msgs.find? (takenForStamp c) with
    | none =>
      have htwelve : 12 ≤ (stampBytes utcUs status).length := Nat.le_refl 12
      have hown : readStamp (stampBytes utcUs status) ⟨some u, some s⟩ =
          (0, ⟨some utcUs, some (status ||| 0x1f)⟩) :=
        (read_stamp_iff htwelve u utcUs s status).mpr rfl
      exact ⟨fun _ m hm => absurd hm (by simp), fun _ => hown⟩
    | some m =>
      have htaken : takenForStamp c m = true := List.find?_some hfind
      have hroom : seiPayloadSize ≤ m.payload.length := (of_decide_eq_true htaken).2.1
      have htwelve : 12 ≤ (m.payload.drop 16).length := by
        rw [List.length_drop]
        exact Nat.sub_le_sub_right hroom 16
      have hread := read_stamp_iff htwelve u utcUs s status
      constructor
      · intro h m' hm'
        rw [← Option.some.inj hm']
        exact hread.mp h
      · intro h
        exact hread.mpr (h m rfl)

/-- A message of type 128 in front, and zeros behind. -/
theorem stamp_found_sample :
    rssSeiParseTimestamp (some (nalHeader .h265 ++ [⟨128, [0, 1]⟩].flatMap SeiMessage.bytes ++
        stampMessage .h265 1700000000000000 0x9f ++ [0x80, 0])) Codec.h265.id ⟨some 0, some 0⟩ =
      (0, ⟨some 1700000000000000, some 0x9f⟩) := by
  refine (stamp_found_iff .h265 1700000000000000 0x9f [⟨128, [0, 1]⟩] [0x80, 0] 0 0
    (by decide)).2.mpr ?_
  have hnone : [SeiMessage.mk 128 [0, 1]].find? (takenForStamp .h265) = none := by decide
  intro m hm
  rw [hnone] at hm
  cases hm

/-- A message whose type is 5 only modulo 2^32, with the identifier and no
guards. -/
def wideMessage : SeiMessage where
  type := 4294967301
  payload := mispUuidH264 ++ List.replicate 12 0

theorem wide_type_found : ¬IsStamp .h264 wideMessage ∧
    (nalHeader .h264 ++ [wideMessage].flatMap SeiMessage.bytes ++ stampMessage .h264 0 0x1f ++
      []).length < 2^32 ∧
    rssSeiParseTimestamp (some (nalHeader .h264 ++ [wideMessage].flatMap SeiMessage.bytes ++
      stampMessage .h264 0 0x1f ++ [])) Codec.h264.id ⟨some 0, some 0⟩ =
        (-ebadmsg, ⟨some 0, some 0⟩) := by
  have hlen : (nalHeader .h264 ++ [wideMessage].flatMap SeiMessage.bytes ++
      stampMessage .h264 0 0x1f ++ []).length < 2^32 := by
    rw [List.append_nil, List.length_append, List.length_append, stamp_message_length,
      List.flatMap_cons, List.flatMap_nil, List.append_nil, SeiMessage.bytes, List.length_append,
      List.length_append, coded_length, coded_length]
    decide
  refine ⟨?_, hlen, ?_⟩
  · rintro ⟨h, -⟩
    exact absurd h (by decide)
  · have hfirst : [wideMessage].find? (takenForStamp .h264) = some wideMessage :=
      List.find?_cons_of_pos (by decide)
    rw [parse_answer .h264 0 0x1f [wideMessage] [] 0 (some 0) hlen, hfirst]
    decide

end Finding

end RaptorCommon.SeiWalk
