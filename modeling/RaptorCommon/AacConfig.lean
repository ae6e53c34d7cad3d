import RaptorCommon.BitString
import RaptorCommon.CText
import RaptorCommon.StreamReader

/-!
# The AudioSpecificConfig read back

`rss_aac_asc` ors the fields of a config together. Read by the syntax of its
standard they are the arguments: an LC stream, or an LC core at half the rate
with an extension that a reader of the core alone does not see.
-/

set_option autoImplicit false

namespace RaptorCommon.AacConfig
open RaptorCommon.BitString RaptorCommon.CText RaptorCommon.StreamReader

def aotLc : ℤ := 2
def aotSbr : ℤ := 5
def ascMax : ℕ := 6

def srTable : List ℕ :=
  [96000, 88200, 64000, 48000, 44100, 32000, 24000, 22050, 16000, 12000, 11025, 8000, 7350]

/-- The index of a rate, where the source has -1 for none. -/
def rssAacRateIndex (sampleRate : ℤ) : Option ℕ :=
  srTable.findIdx? (fun r : ℕ => (r : ℤ) = sampleRate)

def lcBytes (idx channels : ℕ) : Bytes :=
  let v := (2 <<< 11 ||| idx <<< 7 ||| channels <<< 3)%2^16
  [UInt8.ofNat (v >>> 8), UInt8.ofNat (v &&& 0xff)]

def sbrBytes (coreIdx extIdx channels : ℕ) : Bytes :=
  let v := 0 ||| 2 <<< 35 ||| coreIdx <<< 31 ||| channels <<< 27 ||| 0x2b7 <<< 13 |||
    5 <<< 8 ||| 1 <<< 7 ||| extIdx <<< 3
  [UInt8.ofNat (v >>> 32), UInt8.ofNat (v >>> 24), UInt8.ofNat (v >>> 16), UInt8.ofNat (v >>> 8),
    UInt8.ofNat (v &&& 0xff)]

def rssAacAsc (aot sampleRate channels : ℤ) : Option Bytes :=
  if channels < 1 ∨ channels > 7 then none
  else if aot = aotLc then
    match rssAacRateIndex sampleRate with
    | none => none
    | some idx => some (lcBytes idx channels.toNat)
  else if aot = aotSbr then
    match rssAacRateIndex (sampleRate.tdiv 2), rssAacRateIndex sampleRate with
    | some coreIdx, some extIdx => some (sbrBytes coreIdx extIdx channels.toNat)
    | _, _ => none
  else none

section Syntax

def bitTape : Tape (List Bool) Bool where
  rest := id
  skip n s := s.drop n
  Fit _ := True
  rest_skip _ _ := rfl
  skip_zero _ := rfl
  skip_skip _ _ _ := List.drop_drop
  fit_skip _ _ _ _ := trivial

abbrev BitReader (α : Type) := Reader (List Bool) Unit α

def bits (n : ℕ) : BitReader ℕ := fun s =>
  if n ≤ s.length then .ok (value (s.take n), s.drop n) else .error ()

def bit : BitReader Bool := (fun v => v ≠ 0) <$> bits 1

def objectType : BitReader ℕ := do
  let t ← bits 5
  if t = 31 then (fun more => 32+more) <$> bits 6 else pure t

def samplingRate : BitReader ℕ := do
  let i ← bits 4
  if i = 15 then bits 24
  else match srTable[i]? with
    | some rate => pure rate
    | none => throw ()

structure CoreConfig where
  rate : ℕ
  channels : ℕ
  shortFrames : Bool
  coreDelay : Option ℕ
  extended : Bool
  deriving DecidableEq

/-- An LC config up to the end of its GASpecificConfig. -/
def coreConfig : BitReader CoreConfig := do
  let t ← objectType
  if t ≠ 2 then throw ()
  else
    let rate ← samplingRate
    let channels ← bits 4
    if channels = 0 then throw ()
    else
      let shortFrames ← bit
      let dependsOnCore ← bit
      let coreDelay ← if dependsOnCore then some <$> bits 14 else pure none
      let extended ← bit
      pure ⟨rate, channels, shortFrames, coreDelay, extended⟩

/-- The rate of a spectral band replication announced behind the core. -/
def extension : BitReader (Option ℕ) := fun s =>
  if s.length < 16 then .ok (none, s)
  else (do
    let sync ← bits 11
    if sync = 0x2b7 then
      let t ← objectType
      if t = 5 then
        let sbrPresent ← bit
        if sbrPresent then some <$> samplingRate else pure none
      else pure none
    else pure none) s

def audioConfig : BitReader (CoreConfig × Option ℕ) := do
  let core ← coreConfig
  let sbr ← extension
  pure (core, sbr)

def readAsc {α : Type} (p : BitReader α) (bytes : Bytes) : Option α :=
  match p (bytesBits bytes) with
  | .ok (a, _) => some a
  | .error _ => none

end Syntax

section Reading

variable {idx channels rate : ℕ}

theorem reads_bits {n v : ℕ} (h : v < 2^n) : Reads bitTape (digits n v) v (bits n) := by
  intro s tail _ hs
  have hs : s = digits n v ++ tail := hs
  have hlen : (digits n v).length = n := digits_length n v
  have htake : s.take n = digits n v := by rw [hs, List.take_left' hlen]
  have hle : n ≤ s.length := by rw [hs, List.length_append, hlen]; omega
  simp only [bits, hle, if_true, htake, value_of_digits h]
  rw [hlen]
  rfl

theorem reads_bit (b : Bool) : Reads bitTape [b] b bit := by
  have hb : Reads bitTape (digits 1 b.toNat) b bit := by
    have hread := reads_map (g := fun v => decide (v ≠ 0))
      (reads_bits (show b.toNat < 2^1 by cases b <;> decide))
    cases b <;> exact hread
  cases b <;> exact hb

theorem reads_objectType {t : ℕ} (h : t < 31) : Reads bitTape (digits 5 t) t objectType := by
  have hread := reads_bind (b := t)
    (f := fun t => if t = 31 then (fun more => 32+more) <$> bits 6 else pure t)
    (reads_bits (show t < 2^5 by omega)) (by rw [if_neg (by omega)]; exact reads_pure)
  rwa [List.append_nil] at hread

theorem rate_index {r : ℤ} (h : rssAacRateIndex r = some idx) :
    ∃ rate : ℕ, srTable[idx]? = some rate ∧ (rate : ℤ) = r := by
  obtain ⟨hlt, hfound, -⟩ := List.findIdx?_eq_some_iff_getElem.mp h
  exact ⟨srTable[idx], List.getElem?_eq_getElem hlt, by simpa using hfound⟩

theorem index_small (h : srTable[idx]? = some rate) : idx < 13 := by
  have hlt := (List.getElem?_eq_some_iff.mp h).1
  exact hlt

theorem reads_rate (h : srTable[idx]? = some rate) :
    Reads bitTape (digits 4 idx) rate samplingRate := by
  have hlt := index_small h
  have hread := reads_bind (b := rate)
    (f := fun i => if i = 15 then bits 24 else match srTable[i]? with
      | some rate => pure rate
      | none => throw ())
    (reads_bits (show idx < 2^4 by omega)) (by rw [if_neg (by omega), h]; exact reads_pure)
  rwa [List.append_nil] at hread

def coreBits (idx channels : ℕ) : List Bool :=
  digits 5 2 ++ (digits 4 idx ++ (digits 4 channels ++ [false, false, false]))

def lcCore (rate channels : ℕ) : CoreConfig := ⟨rate, channels, false, none, false⟩

theorem reads_core (h : srTable[idx]? = some rate) (hpos : 0 < channels) (hle : channels < 16) :
    Reads bitTape (coreBits idx channels) (lcCore rate channels) coreConfig := by
  refine reads_bind (reads_objectType (by decide)) ?_
  rw [if_neg (by decide)]
  refine reads_bind (reads_rate h) (reads_bind (reads_bits hle) ?_)
  rw [if_neg (by omega)]
  exact reads_bind (reads_bit false) (reads_bind (reads_bit false)
    (reads_bind reads_pure (reads_bind (reads_bit false) reads_pure)))

def extensionBits (idx : ℕ) : List Bool :=
  digits 11 0x2b7 ++ (digits 5 5 ++ ([true] ++ digits 4 idx))

theorem reads_extension (h : srTable[idx]? = some rate) :
    Reads bitTape (extensionBits idx) (some rate) extension := by
  intro s tail hfit hs
  have hlong : ¬s.length < 16 := by
    rw [show s = extensionBits idx ++ tail from hs]
    simp [extensionBits]
    omega
  unfold extension
  rw [if_neg hlong]
  refine reads_bind (reads_bits (by decide)) ?_ s tail hfit hs
  rw [if_pos rfl]
  refine reads_bind (reads_objectType (by decide)) ?_
  rw [if_pos rfl]
  exact reads_bind (reads_bit true) (reads_map (reads_rate h))

theorem byteBits_ofNat (n : ℕ) : byteBits (UInt8.ofNat n) = digits 8 n := by
  rw [byteBits, UInt8.toNat_ofNat', digits_mod (le_refl 8)]

theorem lc_fields : ∀ idx < 13, ∀ channels < 8,
    (2 <<< 11 ||| idx <<< 7 ||| channels <<< 3)%2^16 =
      ((2*2^4+idx)*2^4+channels)*2^3+0 := by decide +kernel

theorem sbr_fields : ∀ core < 13, ∀ ext < 13, ∀ channels < 8,
    (0 ||| 2 <<< 35 ||| core <<< 31 ||| channels <<< 27 ||| 0x2b7 <<< 13 ||| 5 <<< 8 |||
      1 <<< 7 ||| ext <<< 3) =
      (((((((2*2^4+core)*2^4+channels)*2^3+0)*2^11+0x2b7)*2^5+5)*2^1+1)*2^4+ext)*2^3+0 := by
  decide +kernel

theorem head_bits {i c : ℕ} (hi : i < 13) (hc : c < 8) :
    digits 16 (((2*2^4+i)*2^4+c)*2^3+0) = coreBits i c := by
  rw [digits_shift 13 3 _ _ (by decide), digits_shift 9 4 _ _ (by omega),
    digits_shift 5 4 _ _ (by omega), List.append_assoc, List.append_assoc]
  rfl

theorem lc_bits {i c : ℕ} (hi : i < 13) (hc : c < 8) : bytesBits (lcBytes i c) = coreBits i c := by
  have hbytes : ∀ v, bytesBits [UInt8.ofNat (v >>> 8), UInt8.ofNat (v &&& 0xff)] =
      digits 16 v := by
    intro v
    rw [digits_append 8 8 v, bytesBits_cons, bytesBits_cons, byteBits_ofNat, byteBits_ofNat,
      Nat.shiftRight_eq_div_pow, Nat.and_two_pow_sub_one_eq_mod v 8, digits_mod (le_refl 8)]
    exact congrArg _ (List.append_nil _)
  rw [lcBytes, hbytes, lc_fields i hi c hc, head_bits hi hc]

theorem sbr_bits {core ext c : ℕ} (hcore : core < 13) (hext : ext < 13) (hc : c < 8) :
    bytesBits (sbrBytes core ext c) =
      coreBits core c ++ (extensionBits ext ++ [false, false, false]) := by
  have hbytes : ∀ v, bytesBits [UInt8.ofNat (v >>> 32), UInt8.ofNat (v >>> 24),
      UInt8.ofNat (v >>> 16), UInt8.ofNat (v >>> 8), UInt8.ofNat (v &&& 0xff)] = digits 40 v := by
    intro v
    rw [digits_append 8 32 v, digits_append 8 24 v, digits_append 8 16 v, digits_append 8 8 v]
    simp only [bytesBits_cons, byteBits_ofNat, Nat.shiftRight_eq_div_pow]
    rw [Nat.and_two_pow_sub_one_eq_mod v 8, digits_mod (le_refl 8)]
    exact congrArg _ (congrArg _ (congrArg _ (congrArg _ (List.append_nil _))))
  rw [sbrBytes, hbytes, sbr_fields core hcore ext hext c hc, digits_shift 37 3 _ _ (by decide),
    digits_shift 33 4 _ _ (by omega), digits_shift 32 1 _ _ (by decide),
    digits_shift 27 5 _ _ (by decide), digits_shift 16 11 _ _ (by decide), head_bits hcore hc]
  simp only [extensionBits, List.append_assoc]
  rfl

end Reading

section Configs

def Supported (aot sampleRate channels : ℤ) : Prop :=
  1 ≤ channels ∧ channels ≤ 7 ∧ (aot = aotLc ∧ sampleRate ∈ srTable.map Int.ofNat ∨
    aot = aotSbr ∧ sampleRate ∈ srTable.map Int.ofNat ∧
      sampleRate.tdiv 2 ∈ srTable.map Int.ofNat)

theorem index_none {r : ℤ} : rssAacRateIndex r = none ↔ r ∉ srTable.map Int.ofNat := by
  rw [rssAacRateIndex, List.findIdx?_eq_none_iff, List.mem_map]
  simp

/-- A stream with its core's rate and what the extension adds. -/
structure Announced (aot sampleRate channels : ℤ) (bytes : Bytes) : Prop where
  short : bytes.length ≤ ascMax
  core : ∃ rate count : ℕ, (rate : ℤ) = (if aot = aotSbr then sampleRate.tdiv 2 else sampleRate) ∧
    (count : ℤ) = channels ∧ readAsc coreConfig bytes = some (lcCore rate count) ∧
    readAsc audioConfig bytes =
      some (lcCore rate count, if aot = aotSbr then some sampleRate.toNat else none)

theorem readAsc_reads {α : Type} {p : BitReader α} {a : α} {xs : List Bool} {bytes : Bytes}
    (tail : List Bool) (h : Reads bitTape xs a p) (hb : bytesBits bytes = xs ++ tail) : readAsc p bytes = some a := by
  rw [readAsc, hb, h (xs ++ tail) tail trivial rfl]

theorem lc_read {idx rate channels : ℕ} (h : srTable[idx]? = some rate) (hpos : 0 < channels)
    (hle : channels < 8) :
    readAsc coreConfig (lcBytes idx channels) = some (lcCore rate channels) ∧
      readAsc audioConfig (lcBytes idx channels) = some (lcCore rate channels, none) := by
  have hbits := lc_bits (index_small h) hle
  have hcore := reads_core h hpos (show channels < 16 by omega)
  refine ⟨readAsc_reads [] hcore (by rw [hbits, List.append_nil]), ?_⟩
  have hrun : audioConfig (coreBits idx channels) = (coreConfig (coreBits idx channels)).bind
      fun r => (extension r.2).map fun e => ((r.1, e.1), e.2) := rfl
  have hdone : coreConfig (coreBits idx channels) = .ok (lcCore rate channels, []) := by
    have hread := hcore (coreBits idx channels) [] trivial (List.append_nil _).symm
    rwa [show bitTape.skip (coreBits idx channels).length (coreBits idx channels) = [] from
      List.drop_length] at hread
  rw [readAsc, hbits, hrun, hdone]
  rfl

theorem sbr_read {core ext coreRate rate channels : ℕ} (hcore : srTable[core]? = some coreRate)
    (hext : srTable[ext]? = some rate) (hpos : 0 < channels) (hle : channels < 8) :
    readAsc coreConfig (sbrBytes core ext channels) = some (lcCore coreRate channels) ∧
      readAsc audioConfig (sbrBytes core ext channels) =
        some (lcCore coreRate channels, some rate) := by
  have hbits := sbr_bits (index_small hcore) (index_small hext) hle
  have hread := reads_core hcore hpos (show channels < 16 by omega)
  refine ⟨readAsc_reads _ hread hbits, ?_⟩
  refine readAsc_reads [false, false, false]
    (reads_bind hread (reads_map (reads_extension hext))) ?_
  rw [hbits, List.append_assoc]

theorem builds_supported (aot sampleRate channels : ℤ) :
    rssAacAsc aot sampleRate channels = none ↔ ¬Supported aot sampleRate channels := by
  have hknown : ∀ r, r ∈ srTable.map Int.ofNat ↔ ∃ i, rssAacRateIndex r = some i := by
    intro r
    rw [← not_iff_not, ← index_none, Option.eq_none_iff_forall_ne_some, not_exists]
  unfold rssAacAsc Supported
  by_cases hch : channels < 1 ∨ channels > 7
  · rw [if_pos hch]
    exact iff_of_true rfl (fun h => by omega)
  · rw [if_neg hch]
    have hlo : 1 ≤ channels := by omega
    have hhi : channels ≤ 7 := by omega
    by_cases hlc : aot = aotLc
    · have hsbr : aot ≠ aotSbr := by rw [hlc]; decide
      rw [if_pos hlc, hknown]
      cases hi : rssAacRateIndex sampleRate with
      | none => simp [hsbr]
      | some i => simp [hlo, hhi, hlc]
    · rw [if_neg hlc]
      by_cases hsbr : aot = aotSbr
      · rw [if_pos hsbr, hknown, hknown]
        cases hcore : rssAacRateIndex (sampleRate.tdiv 2) with
        | none => simp [hlc]
        | some i =>
          cases hext : rssAacRateIndex sampleRate with
          | none => simp [hlc]
          | some j => simp [hlo, hhi, hsbr]
      · simp [hlc, hsbr]

section Announcing

variable {sampleRate channels : ℤ} (hch : ¬(channels < 1 ∨ channels > 7))
include hch

theorem lc_announced {idx : ℕ} (hi : rssAacRateIndex sampleRate = some idx) :
    Announced aotLc sampleRate channels (lcBytes idx channels.toNat) where
  short := show 2 ≤ ascMax by decide
  core := by
    obtain ⟨rate, hrate, hsame⟩ := rate_index hi
    have hpos : 0 < channels.toNat := by omega
    have hle : channels.toNat < 8 := by omega
    obtain ⟨hcore, hall⟩ := lc_read hrate hpos hle
    have hcount : (channels.toNat : ℤ) = channels := Int.toNat_of_nonneg (by omega)
    refine ⟨rate, channels.toNat, ?_, hcount, hcore, ?_⟩
    · rw [if_neg (by decide), hsame]
    · rw [if_neg (by decide), hall]

theorem sbr_announced {core ext : ℕ} (hi : rssAacRateIndex (sampleRate.tdiv 2) = some core)
    (hj : rssAacRateIndex sampleRate = some ext) :
    Announced aotSbr sampleRate channels (sbrBytes core ext channels.toNat) where
  short := show 5 ≤ ascMax by decide
  core := by
    obtain ⟨coreRate, hcoreRate, hhalf⟩ := rate_index hi
    obtain ⟨rate, hrate, hsame⟩ := rate_index hj
    have hpos : 0 < channels.toNat := by omega
    have hle : channels.toNat < 8 := by omega
    obtain ⟨hcore, hall⟩ := sbr_read hcoreRate hrate hpos hle
    have hcount : (channels.toNat : ℤ) = channels := Int.toNat_of_nonneg (by omega)
    refine ⟨coreRate, channels.toNat, ?_, hcount, hcore, ?_⟩
    · rw [if_pos rfl, hhalf]
    · rw [if_pos rfl, hall, ← hsame, Int.toNat_natCast]

end Announcing

/-- A config is built for what is supported and says what was asked. The
extension is seen by a reader that knows it, and the core by every reader. -/
theorem config_announced (aot sampleRate channels : ℤ) :
    (rssAacAsc aot sampleRate channels = none ↔ ¬Supported aot sampleRate channels) ∧
      ∀ bytes, rssAacAsc aot sampleRate channels = some bytes →
        Announced aot sampleRate channels bytes := by
  refine ⟨builds_supported aot sampleRate channels, fun bytes hb => ?_⟩
  unfold rssAacAsc at hb
  split at hb
  case isTrue => cases hb
  case isFalse hch =>
    split at hb
    case isTrue hlc =>
      subst hlc
      cases hi : rssAacRateIndex sampleRate with
      | none => rw [hi] at hb; cases hb
      | some idx =>
        rw [hi] at hb
        cases hb
        exact lc_announced hch hi
    case isFalse hlc =>
      split at hb
      case isTrue hsbr =>
        subst hsbr
        cases hi : rssAacRateIndex (sampleRate.tdiv 2) with
        | none => rw [hi] at hb; cases hb
        | some core =>
          cases hj : rssAacRateIndex sampleRate with
          | none => rw [hi, hj] at hb; cases hb
          | some ext =>
            rw [hi, hj] at hb
            cases hb
            exact sbr_announced hch hi hj
      case isFalse => cases hb

/-- The bytes an encoder's own config has for 48 kHz and one channel. -/
example : rssAacAsc aotSbr 48000 1 = some [0x13, 0x08, 0x56, 0xe5, 0x98] := by decide

end Configs

end RaptorCommon.AacConfig
