import RaptorCommon.TransportStream
import RaptorCommon.TsMux

/-!
# One packet of the muxer, read back

The source builds a packet by storing over a filled buffer. Here the result is
written out once: four header bytes, an adaptation field of one of the shapes
the stuffing takes, and the next stretch of the unit. The receiver reads it
back with the fields it was built from.
-/

set_option autoImplicit false

namespace RaptorCommon.TsLayout
open RaptorCommon.CText RaptorCommon.TransportStream RaptorCommon.TsMux

theorem mask_mod (x k : ℕ) : x &&& (2^k-1) = x%2^k := Nat.and_two_pow_sub_one_eq_mod x k

theorem shift_or (k a b : ℕ) (h : b < 2^k) : a <<< k ||| b = a*2^k+b := by
  rw [← Nat.shiftLeft_add_eq_or_of_lt h, Nat.shiftLeft_eq]

theorem pid_fields (pid : UInt16) (h : pid.toNat < 8192) (first : Bool) : ∃ b1 b2,
    pidBytes pid first = [b1, b2] ∧ bits b1 7 1 = 0 ∧ bits b1 6 1 = (if first then 1 else 0) ∧
      bits b1 0 5*256+b2.toNat = pid.toNat := by
  refine ⟨_, _, rfl, ?_⟩
  have hlow : (pid &&& 0xFF).toUInt8.toNat = pid.toNat%256 := by
    have hm := mask_mod (pid.toNat%256) 8
    simp at hm ⊢
    omega
  have hm := mask_mod (pid.toNat >>> 8%256) 5
  have hs : pid.toNat >>> 8 = pid.toNat/256 := Nat.shiftRight_eq_div_pow _ _
  have hhigh : ((if first then 0x40 else 0x00 : UInt16) ||| ((pid >>> 8) &&& 0x1F)).toUInt8.toNat =
      (if first then 64 else 0)+pid.toNat/256 := by
    cases first
    · simp at hm ⊢
      omega
    · have ho := shift_or 6 1 (pid.toNat/256) (by omega)
      simp at hm ho ⊢
      rw [hm, hs, Nat.mod_eq_of_lt (by omega), ho]
  rw [bits, bits, bits, hlow, hhigh]
  refine ⟨?_, ?_, ?_⟩ <;> cases first <;> simp <;> omega

theorem control_fields (cc : UInt8) : ∀ c ∈ ([0x10, 0x30] : Bytes),
    bits (c ||| (cc &&& 0x0F)) 6 2 = 0 ∧ bits (c ||| (cc &&& 0x0F)) 4 2 = c.toNat/16 ∧
      bits (c ||| (cc &&& 0x0F)) 0 4 = cc.toNat%16 := by
  revert cc
  exact forall_byte (by decide +kernel)

theorem stamp_bytes (tag : Byte) (ht : tag.toNat < 16) (pts : UInt64) :
    (writePts tag pts).map UInt8.toNat = [tag.toNat*16+pts.toNat/2^30%8*2+1, pts.toNat/2^22%256,
      pts.toNat/2^15%128*2+1, pts.toNat/2^7%256, pts.toNat%128*2+1] := by
  have h0 := mask_mod (pts.toNat >>> 30%256) 3
  have h1 := mask_mod (pts.toNat >>> 22%256) 8
  have h2 := mask_mod (pts.toNat >>> 15%256) 7
  have h3 := mask_mod (pts.toNat >>> 7%256) 8
  have h4 := mask_mod (pts.toNat%256) 7
  simp only [writePts, List.map_cons, List.map_nil, List.cons.injEq, and_true]
  simp only [Nat.shiftRight_eq_div_pow] at h0 h1 h2 h3 h4
  refine ⟨?_, ?_, ?_, ?_, ?_⟩
  · have ho := shift_or 1 (pts.toNat/2^30%8) 1 (by decide)
    have hp := shift_or 4 tag.toNat (pts.toNat/2^30%8*2^1+1) (by omega)
    rw [Nat.shiftLeft_eq] at ho hp
    simp [Nat.shiftRight_eq_div_pow, Nat.shiftLeft_eq] at h0 ho hp ⊢
    rw [h0, Nat.mod_eq_of_lt (by omega : tag.toNat*16 < 256),
      Nat.mod_eq_of_lt (by omega : _*2 < 256), Nat.or_assoc, ho, hp]
    omega
  · simp [Nat.shiftRight_eq_div_pow] at h1 ⊢
    omega
  · have ho := shift_or 1 (pts.toNat/2^15%128) 1 (by decide)
    rw [Nat.shiftLeft_eq] at ho
    simp [Nat.shiftRight_eq_div_pow, Nat.shiftLeft_eq] at h2 ho ⊢
    rw [h2, Nat.mod_eq_of_lt (by omega : _*2 < 256), ho]
  · simp [Nat.shiftRight_eq_div_pow] at h3 ⊢
    omega
  · have ho := shift_or 1 (pts.toNat%128) 1 (by decide)
    rw [Nat.shiftLeft_eq] at ho
    simp [Nat.shiftLeft_eq] at h4 ho ⊢
    rw [h4, Nat.mod_eq_of_lt (by omega : _*2 < 256), ho]

theorem readStamp_writePts (tag : Byte) (ht : tag.toNat < 16) (pts : UInt64) :
    readStamp tag.toNat (writePts tag pts) = some (pts.toNat%2^33) := by
  have h := stamp_bytes tag ht pts
  simp only [writePts, List.map_cons, List.map_nil, List.cons.injEq] at h
  obtain ⟨h0, h1, h2, h3, h4, -⟩ := h
  simp only [writePts, readStamp, bits, h0, h1, h2, h3, h4]
  rw [if_pos (by omega)]
  congr 1
  omega

theorem clock_bytes (pcr : UInt64) : (writePcr pcr).map UInt8.toNat =
    [pcr.toNat/2^25%256, pcr.toNat/2^17%256, pcr.toNat/2^9%256, pcr.toNat/2%256,
      pcr.toNat%2*128+126, 0] := by
  have ho := shift_or 7 (pcr.toNat%2) 126 (by decide)
  have hlt : pcr.toNat%2 < 2 := Nat.mod_lt _ (by decide)
  rw [Nat.shiftLeft_eq] at ho
  simp [writePcr, Nat.shiftRight_eq_div_pow, Nat.shiftLeft_eq] at ho ⊢
  rw [Nat.mod_eq_of_lt (by omega), ho]

theorem clockBase_writePcr (pcr : UInt64) : clockBase (writePcr pcr) = some (pcr.toNat%2^33) := by
  have h := clock_bytes pcr
  simp only [writePcr, List.map_cons, List.map_nil, List.cons.injEq] at h
  obtain ⟨h0, h1, h2, h3, h4, -⟩ := h
  simp only [writePcr, clockBase, bits, h0, h1, h2, h3, h4]
  congr 1
  omega

theorem poke_middle (a old new rest : Bytes) (h : old.length = new.length) :
    poke (a ++ old ++ rest) a.length new = a ++ new ++ rest := by
  rw [poke, List.append_assoc a old, List.take_left, ← h, ← List.length_append,
    ← List.append_assoc, List.drop_left]

theorem poke_nil (mem : Bytes) (off : ℕ) : poke mem off [] = mem := by
  simp [poke]

theorem poke_end (mem : Bytes) (off : ℕ) (bs : Bytes) (h : off+bs.length = mem.length) :
    poke mem off bs = mem.take off ++ bs := by
  rw [poke, h, List.drop_length, List.append_nil]

theorem poke_poke (mem : Bytes) (off : ℕ) (a b : Bytes) (h : off ≤ mem.length) :
    poke (poke mem off a) (off+a.length) b = poke mem off (a ++ b) := by
  have hlen : (mem.take off ++ a).length = off+a.length := by
    simp only [List.length_append, List.length_take]
    omega
  have hdrop : (poke mem off a).drop (off+a.length+b.length) =
      mem.drop (off+(a ++ b).length) := by
    rw [poke, ← List.drop_drop, List.drop_left' hlen, List.drop_drop, List.length_append]
    congr 1
    omega
  rw [poke, hdrop]
  show ((mem.take off ++ a ++ mem.drop (off+a.length)).take (off+a.length)) ++ b ++ _ = _
  rw [List.take_left' hlen, poke]
  simp only [List.append_assoc]

variable (u : PesUnit)

def unitData : Bytes := u.pesHdr ++ u.payload

theorem unitData_length : (unitData u).length = u.totalData := List.length_append

theorem chunk_prefix (d n : ℕ) : u.chunk d n <+: (unitData u).drop d := by
  unfold PesUnit.chunk
  split_ifs with h
  · rw [unitData, List.drop_append_of_le_length (by omega)]
    exact (List.take_prefix _ _).trans (List.prefix_append _ _)
  · rw [unitData, List.drop_append, List.drop_of_length_le (not_lt.mp h), List.nil_append]
    exact List.take_prefix _ _

theorem chunk_length_le (d n : ℕ) : (u.chunk d n).length ≤ n := by
  unfold PesUnit.chunk
  split_ifs with h
  · exact le_trans (List.length_take_le _ _) (by omega)
  · exact le_trans (List.length_take_le _ _) (by omega)

theorem copy_data (pkt : Bytes) (off d n : ℕ) (h : off ≤ pkt.length) :
    u.copyData pkt off d n =
      (poke pkt off (((unitData u).drop d).take n), d+min n (u.totalData-d)) := by
  fun_induction PesUnit.copyData u pkt off d n with
  | case1 pkt off d n hc c ih =>
    have hpre := chunk_prefix u d n
    have hle := chunk_length_le u d n
    have hcl : (u.chunk d n).length ≤ u.totalData-d := by
      rw [← unitData_length, ← List.length_drop]
      exact hpre.length_le
    obtain ⟨t, ht⟩ := hpre
    have hdrop : (unitData u).drop (d+c.length) = t := by
      rw [← List.drop_drop, ← ht, List.drop_left]
    have hoff : off+c.length ≤ (poke pkt off c).length := by
      simp only [poke, List.length_append, List.length_take, List.length_drop]
      omega
    rw [ih hoff, poke_poke pkt off c _ h, hdrop, ← ht, List.take_append,
      List.take_of_length_le hle]
    refine Prod.ext rfl ?_
    show d+c.length+min (n-c.length) (u.totalData-(d+c.length)) = d+min n (u.totalData-d)
    have : c = u.chunk d n := rfl
    rw [this]
    omega
  | case2 pkt off d n hc =>
    have hz : n = 0 ∨ u.totalData-d = 0 := by omega
    have hnil : ((unitData u).drop d).take n = [] := by
      apply List.eq_nil_of_length_eq_zero
      rw [List.length_take, List.length_drop, unitData_length]
      omega
    rw [hnil, poke_nil]
    refine Prod.ext rfl ?_
    show d = d+min n (u.totalData-d)
    omega

theorem opened_plain (first : Bool) (h : u.adaptSize first = 0) :
    u.opened first = syncByte::pidBytes u.pid first ++ List.replicate 185 0xFF := by
  unfold PesUnit.opened
  rw [h, if_neg (by decide)]
  rfl

def pcrBytes : Bytes := if u.hasPcr then writePcr u.pcr90khz else []

theorem pcrBytes_length : (pcrBytes u).length = u.afData := by
  unfold pcrBytes PesUnit.afData
  split_ifs <;> rfl

theorem opened_adapted (first : Bool) (h : u.adaptSize first > 0) :
    u.opened first = syncByte::pidBytes u.pid first ++
      (0xFF::UInt8.ofNat (1+u.afData)::u.afFlags::(pcrBytes u ++
        List.replicate (182-u.afData) 0xFF)) := by
  unfold PesUnit.opened
  rw [if_pos h]
  show poke (syncByte::pidBytes u.pid first ++ List.replicate 185 0xFF) 4
    ([UInt8.ofNat (1+u.afData), u.afFlags] ++ pcrBytes u) = _
  have hle := u.afData_le
  have hl := pcrBytes_length u
  have hfill : 1+(2+u.afData+(182-u.afData)) = 185 := by omega
  have hsplit : (syncByte::pidBytes u.pid first ++ List.replicate 185 0xFF) =
      (syncByte::pidBytes u.pid first ++ [0xFF]) ++ List.replicate (2+u.afData) 0xFF ++
        List.replicate (182-u.afData) 0xFF := by
    rw [List.append_assoc, List.append_assoc, List.replicate_append_replicate,
      show [(0xFF : Byte)] = List.replicate 1 0xFF from rfl, List.replicate_append_replicate,
      hfill]
  rw [hsplit]
  have hp := poke_middle (syncByte::pidBytes u.pid first ++ [0xFF])
    (List.replicate (2+u.afData) 0xFF) ([UInt8.ofNat (1+u.afData), u.afFlags] ++ pcrBytes u)
    (List.replicate (182-u.afData) 0xFF) (by simp [hl]; omega)
  exact hp.trans (by simp)

/-- The four header bytes, with the two control bits above the counter. -/
def header (cc : UInt8) (first : Bool) (control : Byte) : Bytes :=
  syncByte::pidBytes u.pid first ++ [control ||| (cc &&& 0x0F)]

theorem head_adapted (cc : UInt8) (first : Bool) (remaining : ℕ) (h : u.adaptSize first > 0) :
    (u.packetHead cc first remaining).1 = header u cc first 0x30 ++
      UInt8.ofNat (1+u.afData+(184-u.adaptSize first-remaining))::u.afFlags::
        (pcrBytes u ++ List.replicate (182-u.afData) 0xFF) := by
  have hspace : packetSize-(4+u.adaptSize first) = 184-u.adaptSize first := by
    unfold packetSize
    omega
  unfold PesUnit.packetHead
  simp only [opened_adapted u first h, hspace, h, if_true]
  split_ifs with hr
  · have hlen : UInt8.ofNat (1+u.afData)+UInt8.ofNat (184-u.adaptSize first-remaining) =
        UInt8.ofNat (1+u.afData+(184-u.adaptSize first-remaining)) := (UInt8.ofNat_add _ _).symm
    rw [← hlen]
    rfl
  · have hz : 184-u.adaptSize first-remaining = 0 := by omega
    rw [hz]
    rfl

theorem head_single (cc : UInt8) (first : Bool) (h : u.adaptSize first = 0) :
    (u.packetHead cc first 183).1 = header u cc first 0x30 ++ 0::List.replicate 183 0xFF := by
  unfold PesUnit.packetHead
  simp only [opened_plain u first h, h]
  rfl

theorem head_stuffed (cc : UInt8) (first : Bool) (remaining : ℕ) (h : u.adaptSize first = 0)
    (hr : remaining < 183) :
    (u.packetHead cc first remaining).1 = header u cc first 0x30 ++
      UInt8.ofNat (183-remaining)::0::List.replicate 182 0xFF := by
  have hlt : remaining < packetSize-(4+0) := by
    unfold packetSize
    omega
  have hne : ¬packetSize-(4+0)-remaining = 1 := by
    unfold packetSize
    omega
  have hstuff : packetSize-(4+0)-remaining-1 = 183-remaining := by
    unfold packetSize
    omega
  unfold PesUnit.packetHead
  simp only [opened_plain u first h, h, if_pos hlt, hne, hstuff]
  rw [if_neg (by decide), if_neg (by decide)]
  split_ifs with hm
  · have hle : packetSize-(4+0)-remaining-2 ≤ 182 := by
      unfold packetSize
      omega
    generalize packetSize-(4+0)-remaining-2 = k at hle
    have hk : List.replicate 182 (0xFF : Byte) =
        List.replicate k 0xFF ++ List.replicate (182-k) 0xFF := by
      rw [List.replicate_append_replicate, Nat.add_sub_cancel' hle]
    show poke (header u cc first 0x30 ++ UInt8.ofNat (183-remaining)::0::
      List.replicate 182 0xFF) 6 (List.replicate k 0xFF) = _
    rw [hk]
    have hp := poke_middle (header u cc first 0x30 ++ [UInt8.ofNat (183-remaining), 0])
      (List.replicate k 0xFF) (List.replicate k 0xFF) (List.replicate (182-k) 0xFF) rfl
    have ha : (header u cc first 0x30 ++ [UInt8.ofNat (183-remaining), 0]).length = 6 := rfl
    rw [ha] at hp
    simpa only [List.append_assoc, List.cons_append, List.nil_append] using hp
  · rfl

theorem head_full (cc : UInt8) (first : Bool) (remaining : ℕ) (h : u.adaptSize first = 0)
    (hr : 184 ≤ remaining) :
    (u.packetHead cc first remaining).1 = header u cc first 0x10 ++ List.replicate 184 0xFF := by
  have hle : ¬remaining < packetSize-(4+0) := by
    unfold packetSize
    omega
  unfold PesUnit.packetHead
  simp only [opened_plain u first h, h, if_neg hle]
  rfl

/-- The room a packet leaves for the unit, or what is left of the unit. -/
def space (first : Bool) (d : ℕ) : ℕ := min (u.totalData-d) (184-u.adaptSize first)

def stretch (first : Bool) (d : ℕ) : Bytes := ((unitData u).drop d).take (space u first d)

theorem stretch_length (first : Bool) (d : ℕ) : (stretch u first d).length = space u first d := by
  rw [stretch, List.length_take, List.length_drop, unitData_length, space]
  omega

theorem packet_of_head {cc : UInt8} {first : Bool} {d : ℕ} (front : Bytes)
    (hh : (u.packetHead cc first (u.totalData-d)).1 =
      front ++ List.replicate (space u first d) 0xFF)
    (hf : front.length+space u first d = 188) :
    u.packet cc first d = (front ++ stretch u first d, d+space u first d) := by
  have hs : (u.packetHead cc first (u.totalData-d)).2 = space u first d := by
    rw [u.head_space, space]
  have hoff : packetSize-space u first d = front.length := by
    unfold packetSize
    omega
  have hmin : min (space u first d) (u.totalData-d) = space u first d := by
    unfold space
    omega
  show u.copyData (u.packetHead cc first (u.totalData-d)).1
    (packetSize-(u.packetHead cc first (u.totalData-d)).2) d
    (u.packetHead cc first (u.totalData-d)).2 = _
  rw [hs, hh, hoff, copy_data u _ _ _ _ (by simp), hmin]
  refine Prod.ext ?_ rfl
  have hfull : front.length+(stretch u first d).length =
      (front ++ List.replicate (space u first d) 0xFF).length := by
    rw [stretch_length, List.length_append, List.length_replicate]
  exact (poke_end _ _ _ hfull).trans (by rw [List.take_left])

def sent (cc : UInt8) (first : Bool) (chunk : Bytes) : Packet where
  pid := u.pid.toNat
  unitStart := first
  counter := cc.toNat%16
  pcr := if first && u.hasPcr then some (u.pcr90khz.toNat%2^33) else none
  randomAccess := first && u.isRai
  payload := chunk

theorem flag_fields : bits u.afFlags 0 4 = 0 ∧
    bits u.afFlags 4 1 = (if u.hasPcr then 1 else 0) ∧
    decide (bits u.afFlags 6 1 = 1) = u.isRai := by
  unfold PesUnit.afFlags
  cases u.hasPcr <;> cases u.isRai <;> decide

theorem read_field (k : ℕ) :
    readAdaptation (u.afFlags::(pcrBytes u ++ List.replicate k 0xFF)) =
      some ⟨if u.hasPcr then some (u.pcr90khz.toNat%2^33) else none, u.isRai⟩ := by
  have hstuff : Stuffing (List.replicate k 0xFF) := fun b hb => List.eq_of_mem_replicate hb
  obtain ⟨h0, h4, h6⟩ := flag_fields u
  rw [← h6]
  unfold pcrBytes
  cases hp : u.hasPcr with
  | false =>
    rw [hp] at h4
    exact readAdaptation_plain h0 h4 hstuff
  | true =>
    rw [hp] at h4
    exact readAdaptation_clock h0 h4 rfl (clockBase_writePcr _) hstuff

theorem packetOf_sent (hpid : u.pid.toNat < 8192) {cc : UInt8} {first : Bool} {b1 b2 c : Byte}
    {a : Adaptation} {chunk : Bytes} (hb : pidBytes u.pid first = [b1, b2])
    (hc : bits c 0 4 = cc.toNat%16)
    (hp : a.pcr = if first && u.hasPcr then some (u.pcr90khz.toNat%2^33) else none)
    (hr : a.randomAccess = (first && u.isRai)) :
    packetOf b1 b2 c a chunk = sent u cc first chunk := by
  obtain ⟨x1, x2, hx, -, hmark, hpidv⟩ := pid_fields u.pid hpid first
  rw [hb] at hx
  cases hx
  unfold packetOf sent
  rw [hpidv, hmark, hc, hp, hr]
  cases first <;> rfl

theorem read_adapted (hpid : u.pid.toNat < 8192) (cc : UInt8) (first : Bool) (len : Byte)
    (field chunk : Bytes) {a : Adaptation} (hf : field.length = len.toNat)
    (hl : field.length+chunk.length = 183) (hne : chunk ≠ [])
    (ha : readAdaptation field = some a)
    (hp : a.pcr = if first && u.hasPcr then some (u.pcr90khz.toNat%2^33) else none)
    (hr : a.randomAccess = (first && u.isRai)) :
    readPacket (header u cc first 0x30 ++ len::(field ++ chunk)) = some (sent u cc first chunk) := by
  obtain ⟨b1, b2, hb, herr, -, -⟩ := pid_fields u.pid hpid first
  obtain ⟨hscr, hctl, hcc⟩ := control_fields cc 0x30 (by decide)
  unfold header
  rw [hb]
  exact (readPacket_adapted hf hl hne herr hscr hctl ha).trans
    (congrArg some (packetOf_sent u hpid hb hcc hp hr))

theorem read_plain (hpid : u.pid.toNat < 8192) (cc : UInt8) (first : Bool) {chunk : Bytes}
    (hl : chunk.length = 184) (hp : (first && u.hasPcr) = false) (hr : (first && u.isRai) = false) :
    readPacket (header u cc first 0x10 ++ chunk) = some (sent u cc first chunk) := by
  obtain ⟨b1, b2, hb, herr, -, -⟩ := pid_fields u.pid hpid first
  obtain ⟨hscr, hctl, hcc⟩ := control_fields cc 0x10 (by decide)
  unfold header
  rw [hb]
  exact (readPacket_plain hl herr hscr hctl).trans
    (congrArg some (packetOf_sent u hpid hb hcc (by rw [hp]; rfl) hr.symm))

theorem adapted_iff (first : Bool) :
    u.adaptSize first > 0 ↔ first = true ∧ (u.hasPcr || u.isRai) = true := by
  unfold PesUnit.adaptSize
  cases first with
  | false => simp
  | true =>
    cases u.hasPcr || u.isRai with
    | false => simp
    | true =>
      have hsize : 2+u.afData > 0 := by omega
      exact ⟨fun _ => ⟨rfl, rfl⟩, fun _ => hsize⟩

theorem adapted_size (first : Bool) (h : u.adaptSize first > 0) :
    u.adaptSize first = 2+u.afData := by
  obtain ⟨h1, h2⟩ := (adapted_iff u first).mp h
  unfold PesUnit.adaptSize
  rw [h1, h2]
  rfl

theorem bare_flags (first : Bool) (h : u.adaptSize first = 0) :
    (first && u.hasPcr) = false ∧ (first && u.isRai) = false := by
  have hn := (adapted_iff u first).not.mp (by omega)
  revert hn
  cases first <;> cases u.hasPcr <;> cases u.isRai <;> decide

theorem stretch_nonempty {first : Bool} {d : ℕ} (hd : d < u.totalData) : stretch u first d ≠ [] := by
  intro h0
  have hsl := stretch_length u first d
  rw [h0, List.length_nil, space] at hsl
  have := u.adaptSize_le first
  omega

theorem adapted_read (hpid : u.pid.toNat < 8192) (cc : UInt8) {first : Bool} {d : ℕ}
    (hd : d < u.totalData) (had : u.adaptSize first > 0) :
    readPacket (u.packet cc first d).1 = some (sent u cc first (stretch u first d)) ∧
      (u.packet cc first d).2 = d+space u first d := by
  have hsl := stretch_length u first d
  have hsize := adapted_size u first had
  have hle := u.afData_le
  have hspace : space u first d = min (u.totalData-d) (182-u.afData) := by
    rw [space, hsize]
    omega
  obtain ⟨k, hk⟩ : ∃ k, k = 182-u.afData-space u first d := ⟨_, rfl⟩
  have hhead := head_adapted u cc first (u.totalData-d) had
  have hfill : List.replicate (182-u.afData) (0xFF : Byte) =
      List.replicate k 0xFF ++ List.replicate (space u first d) 0xFF := by
    rw [List.replicate_append_replicate]
    congr 1
    omega
  have hlen : 1+u.afData+(184-u.adaptSize first-(u.totalData-d)) = 1+u.afData+k := by
    rw [hsize]
    omega
  rw [hfill, hlen] at hhead
  have hp := packet_of_head u (header u cc first 0x30 ++
    UInt8.ofNat (1+u.afData+k)::u.afFlags::(pcrBytes u ++ List.replicate k 0xFF))
    (by rw [hhead]; simp only [List.append_assoc, List.cons_append]) (by simp [header, pidBytes, pcrBytes_length]; omega)
  rw [hp]
  refine ⟨?_, rfl⟩
  have hflen : (u.afFlags::(pcrBytes u ++ List.replicate k 0xFF)).length = 1+u.afData+k := by
    simp [pcrBytes_length]
    omega
  have hnat : (UInt8.ofNat (1+u.afData+k)).toNat = 1+u.afData+k := by
    rw [UInt8.toNat_ofNat']
    omega
  have hfirst := ((adapted_iff u first).mp had).1
  have hread := read_adapted u hpid cc first _ (u.afFlags::(pcrBytes u ++
    List.replicate k 0xFF)) (stretch u first d) (hflen.trans hnat.symm)
    (by rw [hflen, hsl]; omega) (stretch_nonempty u hd) (read_field u k) (by rw [hfirst]; rfl)
    (by rw [hfirst]; rfl)
  simpa only [List.append_assoc, List.cons_append] using hread

theorem bare_clock {first : Bool} (had : u.adaptSize first = 0) :
    (⟨none, false⟩ : Adaptation).pcr =
      if first && u.hasPcr then some (u.pcr90khz.toNat%2^33) else none := by
  rw [(bare_flags u first had).1]
  rfl

theorem stuffed_read (hpid : u.pid.toNat < 8192) (cc : UInt8) {first : Bool} {d : ℕ}
    (hd : d < u.totalData) (had : u.adaptSize first = 0) (hr : u.totalData-d < 183) :
    readPacket (u.packet cc first d).1 = some (sent u cc first (stretch u first d)) ∧
      (u.packet cc first d).2 = d+space u first d := by
  have hsl := stretch_length u first d
  have hspace : space u first d = min (u.totalData-d) 184 := by rw [space, had]
  obtain ⟨k, hk⟩ : ∃ k, k = 182-(u.totalData-d) := ⟨_, rfl⟩
  have hhead := head_stuffed u cc first (u.totalData-d) had hr
  have hfill : List.replicate 182 (0xFF : Byte) =
      List.replicate k 0xFF ++ List.replicate (space u first d) 0xFF := by
    rw [List.replicate_append_replicate]
    congr 1
    omega
  have hlen : 183-(u.totalData-d) = 1+k := by omega
  rw [hfill, hlen] at hhead
  have hp := packet_of_head u (header u cc first 0x30 ++
    UInt8.ofNat (1+k)::0::List.replicate k 0xFF)
    (by rw [hhead]; simp only [List.append_assoc, List.cons_append]) (by simp [header, pidBytes]; omega)
  rw [hp]
  refine ⟨?_, rfl⟩
  have hnat : (UInt8.ofNat (1+k)).toNat = 1+k := by
    rw [UInt8.toNat_ofNat']
    omega
  have hread := read_adapted u hpid cc first _ (0::List.replicate k 0xFF)
    (stretch u first d) (by rw [hnat]; simp [Nat.add_comm])
    (by rw [hsl]; simp; omega) (stretch_nonempty u hd)
    (readAdaptation_plain (by decide) (by decide) fun b hb => List.eq_of_mem_replicate hb)
    (bare_clock u had) (bare_flags u first had).2.symm
  simpa only [List.append_assoc, List.cons_append] using hread

theorem single_read (hpid : u.pid.toNat < 8192) (cc : UInt8) {first : Bool} {d : ℕ}
    (hd : d < u.totalData) (had : u.adaptSize first = 0) (hr : u.totalData-d = 183) :
    readPacket (u.packet cc first d).1 = some (sent u cc first (stretch u first d)) ∧
      (u.packet cc first d).2 = d+space u first d := by
  have hsl := stretch_length u first d
  have hspace : space u first d = min (u.totalData-d) 184 := by rw [space, had]
  have hs : space u first d = 183 := by omega
  have hhead := head_single u cc first had
  have hp := packet_of_head u (header u cc first 0x30 ++ [0])
    (by rw [hr, hhead, hs, List.append_assoc]; rfl) (by simp [header, pidBytes, hs])
  rw [hp]
  refine ⟨?_, rfl⟩
  have hread := read_adapted u hpid cc first 0 [] (stretch u first d) rfl (by rw [hsl, hs]; rfl)
    (stretch_nonempty u hd) rfl (bare_clock u had) (bare_flags u first had).2.symm
  simpa only [List.append_assoc, List.cons_append, List.nil_append] using hread

/-- The receiver finds what the loop put into the packet. -/
theorem packet_read (hpid : u.pid.toNat < 8192) (cc : UInt8) (first : Bool) (d : ℕ)
    (hd : d < u.totalData) :
    readPacket (u.packet cc first d).1 = some (sent u cc first (stretch u first d)) ∧
      (u.packet cc first d).2 = d+space u first d := by
  by_cases had : u.adaptSize first > 0
  · exact adapted_read u hpid cc hd had
  · have had : u.adaptSize first = 0 := by omega
    rcases lt_trichotomy (u.totalData-d) 183 with hr | hr | hr
    · exact stuffed_read u hpid cc hd had hr
    · exact single_read u hpid cc hd had hr
    · -- the payload fills the packet
      have hsl := stretch_length u first d
      have hspace : space u first d = min (u.totalData-d) 184 := by rw [space, had]
      have hs : space u first d = 184 := by omega
      obtain ⟨hpcr, hrai⟩ := bare_flags u first had
      have hhead := head_full u cc first (u.totalData-d) had (by omega)
      rw [← hs] at hhead
      have hp := packet_of_head u _ hhead (by simp [header, pidBytes, hs])
      rw [hp]
      exact ⟨read_plain u hpid cc first (by rw [hsl, hs]) hpcr hrai, rfl⟩

end RaptorCommon.TsLayout
