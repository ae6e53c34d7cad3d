import RaptorCommon.Crc
import RaptorCommon.ProgramTables
import RaptorCommon.TsDemux

/-!
# The tables and their checksum

The table of `mpeg_crc32` holds what eight single steps make of each byte, so
the checksum is the one taken bit by bit, and a section that ends in its
checksum leaves nothing in the register.
-/

set_option autoImplicit false

namespace RaptorCommon.TsTables
open RaptorCommon.CText RaptorCommon.BitString RaptorCommon.Crc
open RaptorCommon.TransportStream RaptorCommon.ProgramTables RaptorCommon.TsMux
open RaptorCommon.TsLayout RaptorCommon.TsDemux

section Checksum

def crcPoly : BitVec 32 := 0x04C11DB7#32

/-- The checksum one bit at a time, neither reflected nor inverted at the end. -/
def bitwiseCrc (data : Bytes) : BitVec 32 :=
  shiftAll crcPoly (BitVec.allOnes 32) (bytesBits data)

/-- What five of the table's entries, 27 to 31, differ by. -/
def slip : BitVec 32 := 0x00A00000#32

def astray (reg : BitVec 32) (b : Byte) : Bool :=
  27 ≤ reg.toNat/2^24 ^^^ b.toNat ∧ reg.toNat/2^24 ^^^ b.toNat ≤ 31

def slipIf (stray : Bool) : BitVec 32 := if stray then slip else 0#32

def eight (reg : BitVec 32) : BitVec 32 := shiftAll crcPoly reg (digits 8 0)

theorem table_entry : ∀ i : Fin 256, (crc32Table.getD i.val 0).toBitVec =
    shiftAll crcPoly 0#32 (digits 8 i.val) ^^^ slipIf (27 ≤ i.val ∧ i.val ≤ 31) := by
  decide +kernel

def tableStep (crc : UInt32) (b : Byte) : UInt32 :=
  (crc <<< 8) ^^^ crc32Table.getD (((crc >>> 24) ^^^ b.toUInt32) &&& 0xFF).toNat 0

theorem table_index (crc : UInt32) (b : Byte) :
    (((crc >>> 24) ^^^ b.toUInt32) &&& 0xFF).toNat = crc.toNat/2^24 ^^^ b.toNat := by
  have hcrc := crc.toNat_lt
  have hb := b.toNat_lt
  have hlow : crc.toNat/2^24 ^^^ b.toNat < 2^8 := Nat.xor_lt_two_pow (by omega) hb
  have hmask : (0xFF : UInt32).toNat = 2^8-1 := rfl
  rw [UInt32.toNat_and, UInt32.toNat_xor, UInt8.toNat_toUInt32, UInt32.toNat_shiftRight, hmask,
    Nat.and_two_pow_sub_one_eq_mod]
  show (crc.toNat >>> 24 ^^^ b.toNat)%2^8 = _
  rw [Nat.shiftRight_eq_div_pow]
  exact Nat.mod_eq_of_lt hlow

theorem byte_step (crc : UInt32) (b : Byte) :
    (tableStep crc b).toBitVec =
      shiftAll crcPoly crc.toBitVec (byteBits b) ^^^ slipIf (astray crc.toBitVec b) := by
  have hcrc := crc.toNat_lt
  have hlow : crc.toNat/2^24 ^^^ b.toNat < 256 :=
    Nat.xor_lt_two_pow (n := 8) (by omega) b.toNat_lt
  have htop : topBits 8 crc.toBitVec = digits 8 (crc.toNat/2^24) :=
    topBits_digits (by decide) crc.toBitVec
  have hentry := table_entry ⟨_, hlow⟩
  rw [shiftAll_split, byteBits_length, htop, byteBits, xorBits_digits, BitVec.xor_assoc]
  unfold tableStep
  rw [table_index, UInt32.toBitVec_xor, hentry]
  rfl

theorem eight_xor (reg d : BitVec 32) (b : Byte) :
    shiftAll crcPoly (reg ^^^ d) (byteBits b) =
      shiftAll crcPoly reg (byteBits b) ^^^ eight d := by
  have hbits : xorBits (byteBits b) (digits 8 0) = byteBits b := by
    rw [byteBits, xorBits_digits, Nat.xor_zero]
  have hxor := shiftAll_xor crcPoly (show (byteBits b).length = (digits 8 0).length by simp) reg d
  rwa [hbits] at hxor

/-- The lookups that go astray in a run whose register is off by `d`. -/
def strays (reg d : BitVec 32) : Bytes → List Bool
  | [] => []
  | b::data =>
    let stray := astray (reg ^^^ d) b
    stray::strays (shiftAll crcPoly reg (byteBits b)) (eight d ^^^ slipIf stray) data

def drift (d : BitVec 32) : List Bool → BitVec 32
  | [] => d
  | stray::rest => drift (eight d ^^^ slipIf stray) rest

def Clear (reg : BitVec 32) : Bytes → Prop
  | [] => True
  | b::data => astray reg b = false ∧ Clear (shiftAll crcPoly reg (byteBits b)) data

instance decidableClear (reg : BitVec 32) : (data : Bytes) → Decidable (Clear reg data)
  | [] => inferInstanceAs (Decidable True)
  | b::data =>
    haveI := decidableClear (shiftAll crcPoly reg (byteBits b)) data
    inferInstanceAs (Decidable (_ ∧ _))

theorem crc_drift (crc : UInt32) (reg d : BitVec 32) (h : crc.toBitVec = reg ^^^ d)
    (data : Bytes) : (data.foldl tableStep crc).toBitVec =
      shiftAll crcPoly reg (bytesBits data) ^^^ drift d (strays reg d data) := by
  induction data generalizing crc reg d with
  | nil => exact h
  | cons b data ih =>
    rw [List.foldl_cons, bytesBits_cons, shiftAll_append]
    apply ih
    rw [byte_step, h, eight_xor, BitVec.xor_assoc]

/-- The checksum is the one taken bit by bit, but for the drift. -/
theorem crc_bitwise (data : Bytes) : (mpegCrc32 data).toBitVec =
    bitwiseCrc data ^^^ drift 0#32 (strays (BitVec.allOnes 32) 0#32 data) :=
  crc_drift 0xFFFFFFFF (BitVec.allOnes 32) 0#32 rfl data

theorem own_step (crc : UInt32) (b : Byte) (h : b.toNat = crc.toNat/2^24) :
    tableStep crc b = crc <<< 8 := by
  unfold tableStep
  rw [table_index, h, Nat.xor_self]
  exact UInt32.xor_zero

theorem byte_at (crc : UInt32) : (crc >>> 24).toUInt8.toNat = crc.toNat/2^24%2^8 ∧
    (crc >>> 16).toUInt8.toNat = crc.toNat/2^16%2^8 ∧
    (crc >>> 8).toUInt8.toNat = crc.toNat/2^8%2^8 := by
  simp only [UInt32.toNat_toUInt8, UInt32.toNat_shiftRight]
  show crc.toNat >>> 24%2^8 = _ ∧ crc.toNat >>> 16%2^8 = _ ∧ crc.toNat >>> 8%2^8 = _
  simp only [Nat.shiftRight_eq_div_pow]
  exact ⟨trivial, trivial, trivial⟩

theorem shift_byte (crc : UInt32) : (crc <<< 8).toNat = crc.toNat*2^8%2^32 := by
  rw [UInt32.toNat_shiftLeft]
  show crc.toNat <<< 8%2^32 = _
  rw [Nat.shiftLeft_eq]

theorem shift_bytes (crc : UInt32) : (crc <<< 8).toNat/2^24 = crc.toNat/2^16%2^8 ∧
    (crc <<< 8).toNat/2^16%2^8 = crc.toNat/2^8%2^8 ∧ (crc <<< 8).toNat/2^8%2^8 = crc.toNat%2^8 ∧
    (crc <<< 8).toNat%2^8 = 0 := by
  have hshift := shift_byte crc
  omega

theorem own_bytes (crc : UInt32) : (crcBytes crc).foldl tableStep crc = 0 := by
  have h1 := shift_bytes crc
  have h2 := shift_bytes (crc <<< 8)
  have h3 := shift_bytes (crc <<< 8 <<< 8)
  have hb := byte_at crc
  have htop : (crc >>> 24).toUInt8.toNat = crc.toNat/2^24 := by
    have hcrc := crc.toNat_lt
    rw [hb.1]
    omega
  have hzero : (crc <<< 8 <<< 8 <<< 8 <<< 8).toNat = 0 := by
    simp only [shift_byte, Nat.mod_mul_mod, Nat.mul_assoc]
    exact Nat.mul_mod_left crc.toNat (2^32)
  show tableStep (tableStep (tableStep (tableStep crc (crc >>> 24).toUInt8) (crc >>> 16).toUInt8)
    (crc >>> 8).toUInt8) crc.toUInt8 = 0
  rw [own_step crc _ htop, own_step (crc <<< 8) _ (hb.2.1.trans h1.1.symm),
    own_step (crc <<< 8 <<< 8) _ (hb.2.2.trans (h1.2.1.symm.trans h2.1.symm)),
    own_step (crc <<< 8 <<< 8 <<< 8) _
      ((UInt32.toNat_toUInt8 crc).trans (h1.2.2.1.symm.trans (h2.2.1.symm.trans h3.1.symm)))]
  exact UInt32.toNat_inj.mp hzero

/-- The code's own checksum, fed back, empties its register. -/
theorem crc_residue (data : Bytes) : mpegCrc32 (data ++ crcBytes (mpegCrc32 data)) = 0 := by
  have hfold : mpegCrc32 (data ++ crcBytes (mpegCrc32 data)) =
      (crcBytes (mpegCrc32 data)).foldl tableStep (mpegCrc32 data) := List.foldl_append
  rw [hfold, own_bytes]

theorem crcBytes_bits (crc : UInt32) : bytesBits (crcBytes crc) = topBits 32 crc.toBitVec := by
  have htop : topBits 32 crc.toBitVec = digits (8+(8+(8+8))) crc.toNat := by
    rw [topBits_digits le_rfl, Nat.sub_self, pow_zero, Nat.div_one]
    rfl
  have hbytes : bytesBits (crcBytes crc) = byteBits (crc >>> 24).toUInt8 ++
      (byteBits (crc >>> 16).toUInt8 ++ (byteBits (crc >>> 8).toUInt8 ++ byteBits crc.toUInt8)) := by
    simp [crcBytes, bytesBits]
  have hlow : crc.toUInt8.toNat = crc.toNat%2^8 := UInt32.toNat_toUInt8 crc
  rw [htop, hbytes, digits_append, digits_append 8 (8+8), digits_append 8 8]
  unfold byteBits
  rw [(byte_at crc).1, (byte_at crc).2.1, (byte_at crc).2.2, hlow, digits_mod le_rfl,
    digits_mod le_rfl, digits_mod le_rfl, digits_mod le_rfl]

theorem bitwise_residue (data : Bytes) :
    bitwiseCrc (data ++ crcBytes (mpegCrc32 data)) = 0#32 ↔
      (mpegCrc32 data).toBitVec = bitwiseCrc data := by
  have hbits : bytesBits (data ++ crcBytes (mpegCrc32 data)) =
      bytesBits data ++ topBits 32 (mpegCrc32 data).toBitVec := by
    rw [← crcBytes_bits]
    exact List.flatMap_append
  rw [bitwiseCrc, hbits, shiftAll_append, ← bitwiseCrc]
  generalize (mpegCrc32 data).toBitVec = crc
  generalize bitwiseCrc data = reg
  have hback : crc ^^^ (crc ^^^ reg) = reg := by
    rw [← BitVec.xor_assoc, BitVec.xor_self, BitVec.zero_xor]
  have htop : xorBits (topBits 32 crc) (digits 32 0) = topBits 32 crc := by
    rw [topBits_digits le_rfl, xorBits_digits, Nat.xor_zero]
  have hlen : (topBits 32 crc).length = (digits 32 0).length := by
    rw [topBits_length, digits_length]
  have hxor := shiftAll_xor crcPoly hlen crc (crc ^^^ reg)
  rw [hback, htop, shiftAll_top, BitVec.zero_xor] at hxor
  rw [hxor, shiftAll_zero crcPoly (by decide)]
  exact BitVec.xor_eq_zero_iff

end Checksum

section Cancelling

theorem eight_zero : eight 0#32 = 0#32 := by decide

theorem eight_linear (a b : BitVec 32) : eight (a ^^^ b) = eight a ^^^ eight b := by
  have hbits : xorBits (digits 8 0) (digits 8 0) = digits 8 0 := xorBits_digits 8 0 0
  have hxor := shiftAll_xor crcPoly (show (digits 8 0).length = (digits 8 0).length from rfl) a b
  rwa [hbits] at hxor

theorem eights_linear (n : ℕ) (a b : BitVec 32) :
    eight^[n] (a ^^^ b) = eight^[n] a ^^^ eight^[n] b := by
  induction n generalizing a b with
  | zero => rfl
  | succ n ih => rw [Function.iterate_succ_apply, eight_linear, ih]; rfl

theorem drift_from (d : BitVec 32) (pattern : List Bool) :
    drift d pattern = eight^[pattern.length] d ^^^ drift 0#32 pattern := by
  induction pattern generalizing d with
  | nil => exact (BitVec.xor_zero).symm
  | cons stray rest ih =>
    rw [drift, drift, ih, ih (eight 0#32 ^^^ slipIf stray), eight_zero, BitVec.zero_xor,
      eights_linear, BitVec.xor_assoc]
    rfl

def slips : List (BitVec 32) := [
  0x00A00000#32, 0xA0000000#32, 0xF12F560E#32, 0xA22FEEBE#32, 0xD743D360#32, 0x4C0F7BEC#32,
  0x0EF10713#32, 0xCD89B30A#32, 0xE5F41C4A#32, 0x26700712#32, 0xF2A2E952#32, 0x22D39467#32,
  0x4235EA8E#32, 0x08EEC519#32, 0xC8CDF4B8#32, 0xB676C521#32, 0xD17DE1CC#32, 0x68BB9A5E#32,
  0x3137752F#32, 0xE7865F27#32, 0x5DB1517C#32, 0xF80B51D4#32, 0xA4E1C4B1#32, 0x03EF91D2#32,
  0xE2D2F4D9#32, 0x1EDFC417#32, 0xAF5B6C7A#32, 0x920C91B3#32, 0x200EB3F0#32, 0x969046E0#32,
  0xAFDD962C#32, 0x14F6C7B3#32]

theorem slips_step : ∀ n : Fin 31, eight (slips.getD n.val 0#32) = slips.getD (n.val+1) 0#32 := by
  decide +kernel

theorem slips_power {n : ℕ} (h : n < 32) : eight^[n] slip = slips.getD n 0#32 := by
  induction n with
  | zero => rfl
  | succ n ih =>
    rw [Function.iterate_succ_apply', ih (by omega)]
    exact slips_step ⟨n, by omega⟩

/-- The last of them is told from those before it by the parity of these bits. -/
def lastMask : BitVec 32 := 0x5AA9D427#32

theorem last_slip : ∀ n : Fin 32, picked lastMask (slips.getD n.val 0#32) = decide (n.val = 31) := by
  decide +kernel

theorem mask_slip {n : ℕ} (h : n < 32) (stray : Bool) :
    picked lastMask (eight^[n] (slipIf stray)) = (stray && decide (n = 31)) := by
  cases stray with
  | false =>
    have hzero : eight^[n] 0#32 = 0#32 := Function.iterate_fixed eight_zero n
    rw [show slipIf false = 0#32 from rfl, hzero, picked_zero, Bool.false_and]
  | true =>
    rw [show slipIf true = slip from rfl, Bool.true_and, slips_power h]
    exact last_slip ⟨n, h⟩

theorem drift_cons (stray : Bool) (rest : List Bool) :
    drift 0#32 (stray::rest) = eight^[rest.length] (slipIf stray) ^^^ drift 0#32 rest := by
  rw [drift, drift_from, eight_zero, BitVec.zero_xor]

theorem picked_drift (later : ℕ) (pattern : List Bool) (h : later+pattern.length < 32) :
    picked lastMask (eight^[later] (drift 0#32 pattern)) = false := by
  induction pattern with
  | nil => rw [drift, Function.iterate_fixed eight_zero, picked_zero]
  | cons stray rest ih =>
    rw [List.length_cons] at h
    rw [drift_cons, eights_linear, picked_xor, ih (by omega), ← Function.iterate_add_apply,
      mask_slip (by omega), decide_eq_false (by omega), Bool.and_false, Bool.false_xor]

theorem drift_clear (pattern : List Bool) (h : true ∉ pattern) : drift 0#32 pattern = 0#32 := by
  induction pattern with
  | nil => rfl
  | cons stray rest ih =>
    rw [List.mem_cons, not_or] at h
    have hstray : stray = false := by simpa using h.1
    rw [drift, hstray, eight_zero]
    exact ih h.2

/-- Up to 32 bytes, wrong lookups never make up for one another: the first one
is still there behind the rest. -/
theorem drift_zero (pattern : List Bool) (h : pattern.length ≤ 32) :
    drift 0#32 pattern = 0#32 ↔ true ∉ pattern := by
  refine ⟨?_, drift_clear pattern⟩
  intro hzero
  induction pattern with
  | nil => exact List.not_mem_nil
  | cons stray rest ih =>
    rw [List.length_cons] at h
    rw [drift_cons] at hzero
    cases stray with
    | false =>
      have hfixed : eight^[rest.length] (slipIf false) = 0#32 :=
        Function.iterate_fixed eight_zero _
      rw [hfixed, BitVec.zero_xor] at hzero
      have hrest := ih (by omega) hzero
      simpa using hrest
    | true =>
      have hpicked := congrArg (fun d => picked lastMask (eight^[31-rest.length] d)) hzero
      have hlast : 31-rest.length+rest.length = 31 := by omega
      simp only [eights_linear, picked_xor] at hpicked
      rw [picked_drift _ rest (by omega), ← Function.iterate_add_apply, hlast,
        mask_slip (by decide), Function.iterate_fixed eight_zero, picked_zero] at hpicked
      cases hpicked

theorem strays_length (reg d : BitVec 32) (data : Bytes) :
    (strays reg d data).length = data.length := by
  induction data generalizing reg d with
  | nil => rfl
  | cons b data ih => rw [strays, List.length_cons, ih, List.length_cons]

theorem clear_strays (reg : BitVec 32) (data : Bytes) :
    Clear reg data ↔ true ∉ strays reg 0#32 data := by
  induction data generalizing reg with
  | nil => simp [Clear, strays]
  | cons b data ih =>
    rw [strays, Clear, BitVec.xor_zero, eight_zero, BitVec.zero_xor]
    cases hs : astray reg b with
    | false =>
      rw [ih]
      simp [slipIf]
    | true => simp

theorem right_drift (data : Bytes) : (mpegCrc32 data).toBitVec = bitwiseCrc data ↔
    drift 0#32 (strays (BitVec.allOnes 32) 0#32 data) = 0#32 := by
  rw [crc_bitwise]
  generalize drift 0#32 (strays (BitVec.allOnes 32) 0#32 data) = d
  constructor
  · intro h
    have hd : bitwiseCrc data ^^^ (bitwiseCrc data ^^^ d) = bitwiseCrc data ^^^ bitwiseCrc data :=
      congrArg _ h
    rwa [← BitVec.xor_assoc, BitVec.xor_self, BitVec.zero_xor] at hd
  · intro h
    rw [h, BitVec.xor_zero]

theorem clear_right (data : Bytes) (h : Clear (BitVec.allOnes 32) data) :
    (mpegCrc32 data).toBitVec = bitwiseCrc data := by
  rw [right_drift]
  exact drift_clear _ ((clear_strays _ data).mp h)

theorem right_clear {data : Bytes} (hlen : data.length ≤ 32) :
    (mpegCrc32 data).toBitVec = bitwiseCrc data ↔ Clear (BitVec.allOnes 32) data := by
  rw [right_drift, clear_strays, drift_zero _ (by rwa [strays_length])]

end Cancelling

section Sections

variable (m : Mux)

def audioDescriptors : List (UInt8 × Octets) :=
  if m.audioStreamType = streamOpus then
    [(0x05, ascii "Opus"), (0x7F, [0x80, m.audioChannels])]
  else []

/-- The map a receiver is to find: the clock on the video PID, and one audio
entry exactly where audio is configured. -/
def mapSent : ProgramMap where
  program := 1
  pcrPid := pidVideo.toNat
  info := []
  streams := ⟨m.videoStreamType, pidVideo.toNat, []⟩::
    if m.audioStreamType = streamNone then []
    else [⟨m.audioStreamType, pidAudio.toNat, audioDescriptors m⟩]

def sealed (table : Bytes) : Bytes := table ++ crcBytes (mpegCrc32 table)

structure Carries (p : Packet) (pid : UInt16) (table : Bytes) : Prop where
  on_pid : p.pid = pid.toNat
  marked : p.unitStart = true
  extent : sectionOf p.payload = some (sealed table)

theorem stuffed (n : ℕ) : Stuffing (List.replicate n 0xFF) := fun _ hb =>
  List.eq_of_mem_replicate hb

theorem pat_carried (cc : UInt8) : Carries (tableSent pidPat cc patSection) pidPat patSection where
  on_pid := rfl
  marked := rfl
  extent := sectionOf_stuffed (by decide) (by decide) (by decide) (by decide +kernel) (stuffed _)

theorem pmtBody_length : (pmtBody m).length = 14 ∨ (pmtBody m).length = 19 ∨
    (pmtBody m).length = 29 := by
  unfold pmtBody audioEntry
  split_ifs
  · exact Or.inr (Or.inr rfl)
  · exact Or.inr (Or.inl rfl)
  · exact Or.inl rfl

theorem pmt_length : (pmtSection m).length ≤ 32 := by
  have hbody := pmtBody_length m
  show (pmtBody m).length+3 ≤ 32
  omega

theorem pmt_carried (cc : UInt8) :
    Carries (tableSent pidPmt cc (pmtSection m)) pidPmt (pmtSection m) where
  on_pid := rfl
  marked := rfl
  extent := by
    have hlen : (pmtBody m ++ crcBytes (mpegCrc32 (pmtSection m))).length =
        (pmtBody m).length+4 := List.length_append
    apply @sectionOf_stuffed 0x02 _ _ (pmtBody m ++ crcBytes (mpegCrc32 (pmtSection m)))
    · rcases pmtBody_length m with h | h | h <;> rw [h] <;> decide
    · rcases pmtBody_length m with h | h | h <;> rw [h] <;> decide
    · rcases pmtBody_length m with h | h | h <;> rw [h] <;> decide
    · rw [hlen]
      rcases pmtBody_length m with h | h | h <;> rw [h] <;> decide
    · exact stuffed _

theorem pat_read : readAssociation (sealed patSection) = some [(1, pidPmt.toNat)] := by
  decide +kernel

theorem no_streams : readStreams [] = some [] := by rw [readStreams]

theorem no_descriptors : readDescriptors [] = some [] := by rw [readDescriptors]

theorem opus_descriptors (channels : Byte) :
    readDescriptors ([0x05, 0x04] ++ ascii "Opus" ++ [0x7F, 0x02, 0x80, channels]) =
      some [(0x05, ascii "Opus"), (0x7F, [0x80, channels])] := by
  have hchannels : readDescriptors (0x7F::0x02::([0x80, channels] ++ [])) =
      some [(0x7F, [0x80, channels])] := readDescriptors_cons rfl no_descriptors
  have hboth : readDescriptors
      (0x05::0x04::(ascii "Opus" ++ 0x7F::0x02::([0x80, channels] ++ []))) =
      some [(0x05, ascii "Opus"), (0x7F, [0x80, channels])] := readDescriptors_cons rfl hchannels
  exact hboth

theorem audio_entry : readStreams (audioEntry m) =
    some [⟨m.audioStreamType, pidAudio.toNat, audioDescriptors m⟩] := by
  have hpid : readPid 0xE1 0x01 = some pidAudio.toNat := by decide
  unfold audioEntry audioDescriptors
  split_ifs with hopus
  · have hlength : readLength 0xF0 0x0A = some 10 := by decide
    have hentry : readStreams (m.audioStreamType::0xE1::0x01::0xF0::0x0A::
        ([0x05, 0x04] ++ ascii "Opus" ++ [0x7F, 0x02, 0x80, m.audioChannels] ++ [])) =
        some [⟨m.audioStreamType, pidAudio.toNat,
          [(0x05, ascii "Opus"), (0x7F, [0x80, m.audioChannels])]⟩] :=
      readStreams_cons hpid hlength rfl (opus_descriptors m.audioChannels) no_streams
    exact hentry
  · have hlength : readLength 0xF0 0x00 = some 0 := by decide
    exact readStreams_cons hpid hlength List.length_nil no_descriptors no_streams

theorem pmt_streams : ∃ entries, pmtBody m =
    [0x00, 0x01, 0xC1, 0x00, 0x00, 0xE1, 0x00, 0xF0, 0x00] ++ entries ∧
      readStreams entries = some (mapSent m).streams := by
  have hpid : readPid 0xE1 0x00 = some pidVideo.toNat := by decide
  have hlength : readLength 0xF0 0x00 = some 0 := by decide
  by_cases haudio : m.audioStreamType = streamNone
  · refine ⟨m.videoStreamType::0xE1::0x00::0xF0::0x00::([] ++ []), ?_, ?_⟩
    · unfold pmtBody
      rw [if_neg (by simpa using haudio)]
      rfl
    · unfold mapSent
      rw [if_pos haudio]
      exact readStreams_cons hpid hlength List.length_nil no_descriptors no_streams
  · refine ⟨m.videoStreamType::0xE1::0x00::0xF0::0x00::([] ++ audioEntry m), ?_, ?_⟩
    · unfold pmtBody
      rw [if_pos haudio]
      rfl
    · unfold mapSent
      rw [if_neg haudio]
      exact readStreams_cons hpid hlength List.length_nil no_descriptors (audio_entry m)

theorem pmt_read : readMap (sealed (pmtSection m)) = some (mapSent m) := by
  obtain ⟨entries, hbody, hstreams⟩ := pmt_streams m
  obtain ⟨l1, l0, hsection⟩ : ∃ l1 l0, pmtSection m = 0x02::l1::l0::pmtBody m := ⟨_, _, rfl⟩
  have htable : readTable (sealed (pmtSection m)) =
      some ⟨2, 1, 0, true, 0, 0, 0xE1::0x00::0xF0::0x00::([] ++ entries)⟩ := by
    unfold sealed
    rw [hsection, hbody]
    exact readTable_checked (by decide) rfl
  exact readMap_of htable (by decide) (by decide : readLength 0xF0 0x00 = some 0) List.length_nil
    no_descriptors hstreams

/-- What a receiver that checks the sections is to find in an emission. -/
structure TablesRight (out : Bytes) : Prop where
  found : ∃ pat pmt, readStream out = some [pat, pmt] ∧ Carries pat pidPat patSection ∧
    Carries pmt pidPmt (pmtSection m)
  association : readAssociation (sealed patSection) = some [(1, pidPmt.toNat)]
  map : readMap (sealed (pmtSection m)) = some (mapSent m)
  association_checked : bitwiseCrc (sealed patSection) = 0#32
  map_checked : bitwiseCrc (sealed (pmtSection m)) = 0#32

theorem tables_found (bufSize : ℕ) (hb : packetSize*2 ≤ bufSize) :
    readStream (rssTsWritePatPmt m bufSize).2 =
      some [tableSent pidPat m.ccPat patSection, tableSent pidPmt m.ccPmt (pmtSection m)] := by
  have hlen := pmt_length m
  have hpat := table_read pidPat (by decide) m.ccPat patSection (by decide)
  have hpmt := table_read pidPmt (by decide) m.ccPmt (pmtSection m) (by omega)
  have hout : (rssTsWritePatPmt m bufSize).2 = (tablePacket pidPat m.ccPat patSection).1 ++
      ((tablePacket pidPmt m.ccPmt (pmtSection m)).1 ++ []) := by
    rw [rssTsWritePatPmt, if_neg (by omega), List.append_nil]
  rw [hout, readStream_cons hpat, readStream_cons hpmt, readStream, if_pos rfl]
  rfl

theorem tables_right_iff (bufSize : ℕ) (hb : packetSize*2 ≤ bufSize) :
    TablesRight m (rssTsWritePatPmt m bufSize).2 ↔
      Clear (BitVec.allOnes 32) (pmtSection m) := by
  rw [← right_clear (pmt_length m), ← bitwise_residue]
  constructor
  · intro h
    exact h.map_checked
  · intro h
    have hpat : Clear (BitVec.allOnes 32) patSection := by decide +kernel
    exact
      { found := ⟨_, _, tables_found m bufSize hb, pat_carried m.ccPat, pmt_carried m m.ccPmt⟩
        association := pat_read
        map := pmt_read m
        association_checked := (bitwise_residue patSection).mpr (clear_right patSection hpat)
        map_checked := h }

end Sections

/-- The checksum is right where no lookup lands on a wrong entry, or the errors
cancel, which they do not within 32 bytes. It always empties the code's own
register. The tables are right but for the checksum of a map that meets a wrong
entry. -/
theorem crc_right_iff (data : Bytes) (m : Mux) (bufSize : ℕ) (hb : packetSize*2 ≤ bufSize) :
    ((mpegCrc32 data).toBitVec = bitwiseCrc data ↔
      drift 0#32 (strays (BitVec.allOnes 32) 0#32 data) = 0#32) ∧
    (Clear (BitVec.allOnes 32) data → (mpegCrc32 data).toBitVec = bitwiseCrc data) ∧
    (data.length ≤ 32 →
      ((mpegCrc32 data).toBitVec = bitwiseCrc data ↔ Clear (BitVec.allOnes 32) data)) ∧
    mpegCrc32 (data ++ crcBytes (mpegCrc32 data)) = 0 ∧
    (TablesRight m (rssTsWritePatPmt m bufSize).2 ↔
      Clear (BitVec.allOnes 32) (pmtSection m)) :=
  ⟨right_drift data, clear_right data, right_clear, crc_residue data,
    tables_right_iff m bufSize hb⟩

/-- H.264 video with stereo Opus, and the test string: no lookup goes astray. -/
theorem crc_right_iff_opus :
    (mpegCrc32 (ascii "123456789")).toBitVec = bitwiseCrc (ascii "123456789") ∧
      TablesRight (rssTsInit 0x1B 0x06 2 0) (rssTsWritePatPmt (rssTsInit 0x1B 0x06 2 0) 376).2 :=
  have h := crc_right_iff (ascii "123456789") (rssTsInit 0x1B 0x06 2 0) 376 (by decide)
  ⟨h.2.1 (by decide +kernel), h.2.2.2.2.mpr (by decide +kernel)⟩

/-- The lookup for the byte 0xE4 in front lands on entry 27; in the map of a
stream of type 8 one lands on a wrong entry too. -/
theorem checksum_astray :
    ¬(∀ data, (mpegCrc32 data).toBitVec = bitwiseCrc data) ∧
      bitwiseCrc (sealed (pmtSection (rssTsInit 0x08 0x00 1 0))) ≠ 0#32 := by
  constructor
  · intro h
    exact absurd (h [0xE4]) (by decide +kernel)
  · decide +kernel

end RaptorCommon.TsTables
