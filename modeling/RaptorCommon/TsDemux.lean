import RaptorCommon.TsLayout

/-!
# What a receiver gets from a run of the muxer

The loop over a unit is read packet by packet; the counter of a PID goes on
from call to call. Every run of calls with large enough buffers is received
whole: call by call, the headers, the payloads and the time stamps.
-/

set_option autoImplicit false

namespace RaptorCommon.TsDemux
open RaptorCommon.CText RaptorCommon.TransportStream RaptorCommon.TsMux RaptorCommon.TsLayout

theorem bumpCc_toNat (cc : UInt8) : (bumpCc cc).toNat = (cc.toNat+1)%16 := by
  revert cc
  exact forall_byte (by decide +kernel)

structure Plain (p : Packet) : Prop where
  unmarked : p.unitStart = false
  clockless : p.pcr = none
  no_access : p.randomAccess = false

section Loop
variable (u : PesUnit)

/-- The packets `out` of a unit from the offset `d` on; the counter goes from
`cc` to `cc'`. -/
structure Sends (cc cc' : UInt8) (d : ℕ) (out : Bytes) (ps : List Packet) : Prop where
  read : readStream out = some ps
  numbered : Numbered (cc.toNat%16) ps
  counter : cc'.toNat%16 = (cc.toNat+ps.length)%16
  bytes : carried ps = (unitData u).drop d
  on_pid : ∀ p ∈ ps, p.pid = u.pid.toNat

theorem sends_end (cc : UInt8) {d : ℕ} (hd : u.totalData ≤ d) : Sends u cc cc d [] [] where
  read := by rw [readStream, if_pos rfl]
  numbered := trivial
  counter := rfl
  bytes := by
    rw [List.drop_of_length_le (by rw [unitData_length]; exact hd)]
    rfl
  on_pid := nofun

theorem sends_cons (hpid : u.pid.toNat < 8192) {cc cc' : UInt8} {first : Bool} {d : ℕ}
    {out : Bytes} {ps : List Packet} (hd : d < u.totalData)
    (h : Sends u (bumpCc cc) cc' (d+space u first d) out ps) :
    Sends u cc cc' d ((u.packet cc first d).1 ++ out)
      (sent u cc first (stretch u first d)::ps) where
  read := by rw [readStream_cons (packet_read u hpid cc first d hd).1, h.read]; rfl
  numbered := by
    refine ⟨rfl, ?_⟩
    have hn := h.numbered
    rw [bumpCc_toNat] at hn
    have hmod : (cc.toNat%16+1)%16 = (cc.toNat+1)%16%16 := by omega
    rwa [hmod]
  counter := by
    have hc := h.counter
    rw [bumpCc_toNat] at hc
    rw [hc, List.length_cons]
    omega
  bytes := by
    have hb := h.bytes
    unfold carried at hb ⊢
    rw [List.flatMap_cons, hb]
    show stretch u first d ++ _ = _
    rw [stretch, ← List.drop_drop, List.take_append_drop]
  on_pid p hp := by
    rcases List.mem_cons.mp hp with rfl | hp
    · rfl
    · exact h.on_pid p hp

theorem sent_plain (cc : UInt8) (chunk : Bytes) : Plain (sent u cc false chunk) := ⟨rfl, rfl, rfl⟩

theorem space_later (d : ℕ) : space u false d = min (u.totalData-d) 184 := rfl

theorem pesLoop_step {bufSize written d : ℕ} {first : Bool} {cc : UInt8}
    (hpid : u.pid.toNat < 8192) (hd : d < u.totalData) (hb : written+188 ≤ bufSize) :
    u.pesLoop bufSize written d first cc =
      ((u.packet cc first d).1 ++
        (u.pesLoop bufSize (written+188) (d+space u first d) false (bumpCc cc)).1,
      (u.pesLoop bufSize (written+188) (d+space u first d) false (bumpCc cc)).2) := by
  rw [PesUnit.pesLoop, dif_pos hd, if_neg (by unfold packetSize; omega),
    (packet_read u hpid cc first d hd).2]

/-- The packets after the first. The induction is on what is left of the unit. -/
theorem rest_sends (hpid : u.pid.toNat < 8192) (bufSize : ℕ) (left : ℕ) :
    ∀ written d cc, u.totalData-d = left → written+188*((left+183)/184) ≤ bufSize →
      ∃ ps, Sends u cc (u.pesLoop bufSize written d false cc).2 d
        (u.pesLoop bufSize written d false cc).1 ps ∧
        ps.length = (left+183)/184 ∧ ∀ p ∈ ps, Plain p := by
  induction left using Nat.strongRecOn with
  | ind left ih =>
    intro written d cc hleft hb
    by_cases hd : d < u.totalData
    · have hroom : written+188 ≤ bufSize := by omega
      have hs := space_later u d
      rw [hleft] at hs
      obtain ⟨ps, hps, hlen, hplain⟩ := ih (left-min left 184) (by omega) (written+188)
        (d+space u false d) (bumpCc cc) (by omega) (by omega)
      rw [pesLoop_step u hpid hd hroom]
      refine ⟨_, sends_cons u hpid hd hps, ?_, ?_⟩
      · rw [List.length_cons, hlen]
        omega
      · intro p hp
        rcases List.mem_cons.mp hp with rfl | hp
        · exact sent_plain u cc _
        · exact hplain p hp
    · rw [PesUnit.pesLoop, dif_neg hd]
      exact ⟨[], sends_end u cc (by omega), by rw [List.length_nil]; omega, nofun⟩

def packetsNeeded (room total : ℕ) : ℕ := 1+(total-room+183)/184

theorem unit_sends (hpid : u.pid.toNat < 8192) (bufSize : ℕ) (cc : UInt8)
    (hpos : 0 < u.totalData)
    (hb : packetSize*packetsNeeded (184-u.adaptSize true) u.totalData ≤ bufSize) :
    ∃ p ps, Sends u cc (writePesPackets bufSize u cc).2 0 (writePesPackets bufSize u cc).1 (p::ps) ∧
      (p::ps).length = packetsNeeded (184-u.adaptSize true) u.totalData ∧
      p = sent u cc true (stretch u true 0) ∧ ∀ q ∈ ps, Plain q := by
  have had := u.adaptSize_le true
  unfold packetsNeeded packetSize at *
  have hs : space u true 0 = min u.totalData (184-u.adaptSize true) := rfl
  obtain ⟨ps, hps, hlen, hplain⟩ := rest_sends u hpid bufSize (u.totalData-space u true 0)
    (0+188) (0+space u true 0) (bumpCc cc) (by omega) (by omega)
  rw [writePesPackets, pesLoop_step u hpid hpos (by omega)]
  refine ⟨_, ps, sends_cons u hpid hpos hps, ?_, rfl, hplain⟩
  rw [List.length_cons, hlen]
  omega

theorem isUnit_of_sends {cc cc' : UInt8} {out : Bytes} {p : Packet} {ps : List Packet}
    (h : Sends u cc cc' 0 out (p::ps)) (hp : p.unitStart = true) (hps : ∀ q ∈ ps, Plain q) :
    IsUnit u.pid.toNat (p::ps) where
  on_pid := h.on_pid
  nonempty := List.cons_ne_nil p ps
  marked q hq := by
    cases hq
    exact hp
  unmarked q hq := (hps q hq).unmarked

end Loop

theorem writePts_length (tag : Byte) (pts : UInt64) : (writePts tag pts).length = 5 := rfl

theorem readPes_video (pts dts : UInt64) (data : Bytes) :
    readPes (videoPesHdr pts dts ++ data) = some
      { streamId := 0xE0
        length := 0
        pts := some (pts.toNat%2^33)
        dts := if dts ≠ pts then some (dts.toNat%2^33) else none
        payload := data } := by
  by_cases h : dts ≠ pts
  · have hs := readStamps_both (writePts_length 3 pts) (writePts_length 1 dts)
      (readStamp_writePts 3 (by decide) pts) (readStamp_writePts 1 (by decide) dts)
    rw [videoPesHdr, if_pos h, if_pos h]
    exact readPes_header 0xE0 0 0 0x84 0xC0 10 (writePts 3 pts ++ writePts 1 dts) data
      (by decide) (by decide) rfl hs
  · have hs := readStamps_pts (writePts_length 2 pts) (readStamp_writePts 2 (by decide) pts)
    rw [videoPesHdr, if_neg h, if_neg h]
    exact readPes_header 0xE0 0 0 0x84 0x80 5 (writePts 2 pts) data (by decide) (by decide) rfl hs

def audioStreamId (audioType : Byte) : Byte := if audioType = streamAac then 0xC0 else 0xBD

/-- The audio header counts what follows its length field while that fits the field. -/
def audioPesLength (data : Bytes) : ℕ := if 8+data.length ≤ 0xFFFF then 8+data.length else 0

theorem audioPesHdr_length (audioType : Byte) (len : ℕ) (pts : UInt64) :
    (audioPesHdr audioType len pts).length = 14 := by
  unfold audioPesHdr
  dsimp only
  split_ifs <;> rfl

theorem length_bytes (n : ℕ) (h : n ≤ 0xFFFF) :
    (UInt8.ofNat ((n >>> 8) &&& 0xFF)).toNat*256+(UInt8.ofNat (n &&& 0xFF)).toNat = n := by
  have h1 : n >>> 8 &&& 0xFF = n/256%256 := by
    rw [Nat.shiftRight_eq_div_pow]
    exact mask_mod (n/2^8) 8
  have h2 : n &&& 0xFF = n%256 := mask_mod n 8
  rw [h1, h2, UInt8.toNat_ofNat', UInt8.toNat_ofNat']
  omega

theorem readPes_audio (audioType : Byte) (pts : UInt64) (data : Bytes) :
    readPes (audioPesHdr audioType data.length pts ++ data) = some
      { streamId := audioStreamId audioType
        length := audioPesLength data
        pts := some (pts.toNat%2^33)
        dts := none
        payload := data } := by
  have hs := readStamps_pts (writePts_length 2 pts) (readStamp_writePts 2 (by decide) pts)
  unfold audioPesHdr audioPesLength
  by_cases h : 3+5+data.length ≤ 0xFFFF
  · have hr := readPes_header (audioStreamId audioType)
      (UInt8.ofNat ((3+5+data.length) >>> 8 &&& 0xFF)) (UInt8.ofNat ((3+5+data.length) &&& 0xFF))
      0x84 0x80 5 (writePts 2 pts) data (by decide) (by decide) rfl hs
    rw [length_bytes _ h] at hr
    simp only [if_pos h]
    exact hr
  · simp only [if_neg h]
    exact readPes_header (audioStreamId audioType) 0 0 0x84 0x80 5 (writePts 2 pts) data
      (by decide) (by decide) rfl hs

section Tables

def tableSent (pid : UInt16) (cc : UInt8) (table : Bytes) : Packet where
  pid := pid.toNat
  unitStart := true
  counter := cc.toNat%16
  pcr := none
  randomAccess := false
  payload := (0x00::table ++ crcBytes (mpegCrc32 table)) ++
    List.replicate (179-table.length) 0xFF

theorem table_read (pid : UInt16) (hpid : pid.toNat < 8192) (cc : UInt8) (table : Bytes)
    (hl : table.length ≤ 179) :
    readPacket (tablePacket pid cc table).1 = some (tableSent pid cc table) := by
  obtain ⟨b1, b2, hb, herr, hmark, hpidv⟩ := pid_fields pid hpid true
  obtain ⟨hscr, hctl, hcc⟩ := control_fields cc 0x10 (by decide)
  have hcrc : ∀ crc, (crcBytes crc).length = 4 := fun crc => rfl
  have hsplit : List.replicate 184 (0xFF : Byte) =
      List.replicate (table.length+5) 0xFF ++ List.replicate (179-table.length) 0xFF := by
    rw [List.replicate_append_replicate]
    congr 1
    omega
  have hpkt : (tablePacket pid cc table).1 = [0x47, b1, b2, 0x10 ||| (cc &&& 0x0F)] ++
      (tableSent pid cc table).payload := by
    show poke (syncByte::(pidBytes pid true ++ [0x10 ||| (cc &&& 0x0F)]) ++
      List.replicate 184 0xFF) 4 _ = _
    rw [hb, hsplit, ← List.append_assoc]
    refine (poke_middle [0x47, b1, b2, 0x10 ||| (cc &&& 0x0F)] _
      (0x00::table ++ crcBytes (mpegCrc32 table)) _ ?_).trans ?_
    · simp only [List.length_replicate, List.length_cons, List.length_append, hcrc]
    · rw [List.append_assoc]
      rfl
  have hlen : (tableSent pid cc table).payload.length = 184 := by
    simp only [tableSent, List.length_append, List.length_cons, List.length_replicate, hcrc]
    omega
  rw [hpkt]
  refine (readPacket_plain hlen herr hscr hctl).trans (congrArg some ?_)
  unfold packetOf
  rw [hpidv, hmark, hcc]
  rfl

theorem pmtSection_length (m : Mux) : (pmtSection m).length ≤ 40 := by
  unfold pmtSection pmtBody audioEntry
  split_ifs <;> simp [tablePid, ascii]

end Tables

/-- The buffer holds the call's output, and audio is sent only where it is configured. -/
def Sound (audioType : Byte) : Call → Prop
  | .patPmt bufSize => packetSize*2 ≤ bufSize
  | .video bufSize data pts dts _ => data ≠ [] ∧
      packetSize*packetsNeeded 176 ((videoPesHdr pts dts).length+data.length) ≤ bufSize
  | .audio bufSize data _ => audioType ≠ streamNone ∧ data ≠ [] ∧
      packetSize*packetsNeeded 184 (14+data.length) ≤ bufSize

instance (audioType : Byte) (c : Call) : Decidable (Sound audioType c) := by
  cases c <;> unfold Sound <;> infer_instance

def Unclocked (p : Packet) : Prop := p.pcr = none ∧ p.randomAccess = false

def Measured (unit : Bytes) : Prop :=
  ∀ pes ∈ readPes unit, pes.length ≠ 0 → 6+pes.length = unit.length

/-- What the receiver is to find in the packets of a call. The payload of a
packet starts where its adaptation field ends, so that the bytes of the unit
come out whole says that every field has the length it gives. -/
def Delivers (audioType : Byte) : Call → List Packet → Prop
  | .patPmt _, ps => ∃ pat pmt, ps = [pat, pmt] ∧ IsUnit pidPat.toNat [pat] ∧
      IsUnit pidPmt.toNat [pmt] ∧ Unclocked pat ∧ Unclocked pmt
  | .video _ data pts dts isIdr, ps => IsUnit pidVideo.toNat ps ∧
      carried ps = videoPesHdr pts dts ++ data ∧
      readPes (carried ps) = some
        { streamId := 0xE0
          length := 0
          pts := some (pts.toNat%2^33)
          dts := if dts ≠ pts then some (dts.toNat%2^33) else none
          payload := data } ∧
      Measured (carried ps) ∧
      (∀ p ∈ ps.head?, p.pcr.isSome ∧ p.randomAccess = isIdr) ∧ ∀ p ∈ ps.tail, Unclocked p
  | .audio _ data pts, ps => IsUnit pidAudio.toNat ps ∧
      carried ps = audioPesHdr audioType data.length pts ++ data ∧
      readPes (carried ps) = some
        { streamId := audioStreamId audioType
          length := audioPesLength data
          pts := some (pts.toNat%2^33)
          dts := none
          payload := data } ∧
      Measured (carried ps) ∧ ∀ p ∈ ps, Unclocked p

def ccOf (m : Mux) (pid : ℕ) : ℕ :=
  if pid = pidPat.toNat then m.ccPat.toNat
  else if pid = pidPmt.toNat then m.ccPmt.toNat
  else if pid = pidVideo.toNat then m.ccVideo.toNat
  else if pid = pidAudio.toNat then m.ccAudio.toNat
  else 0

def CarriesOn (m m' : Mux) (ps : List Packet) : Prop :=
  ∀ pid, Numbered (ccOf m pid%16) (onPid pid ps) ∧
    ccOf m' pid%16 = (ccOf m pid+(onPid pid ps).length)%16

theorem tables_deliver (m : Mux) (bufSize : ℕ) (hb : packetSize*2 ≤ bufSize) :
    ∃ ps, readStream (rssTsWritePatPmt m bufSize).2 = some ps ∧
      Delivers m.audioStreamType (.patPmt bufSize) ps ∧
      CarriesOn m (rssTsWritePatPmt m bufSize).1 ps := by
  have hpat := table_read pidPat (by decide) m.ccPat patSection (by decide)
  have hpmt := table_read pidPmt (by decide) m.ccPmt (pmtSection m)
    (le_trans (pmtSection_length m) (by decide))
  have hout : rssTsWritePatPmt m bufSize =
      ({ m with ccPat := bumpCc m.ccPat, ccPmt := bumpCc m.ccPmt, patCounter := 0 },
        (tablePacket pidPat m.ccPat patSection).1 ++
          (tablePacket pidPmt m.ccPmt (pmtSection m)).1) := by
    rw [rssTsWritePatPmt, if_neg (by omega)]
    rfl
  rw [hout]
  refine ⟨[tableSent pidPat m.ccPat patSection, tableSent pidPmt m.ccPmt (pmtSection m)],
    ?_, ?_, ?_⟩
  · have hend := readStream_cons (t := []) hpmt
    rw [List.append_nil] at hend
    rw [readStream_cons hpat, hend, readStream, if_pos rfl]
    rfl
  · have hone : ∀ p : Packet, p.unitStart = true → IsUnit p.pid [p] := fun p hp =>
      { on_pid := fun q hq => by rw [List.mem_singleton.mp hq]
        nonempty := List.cons_ne_nil p []
        marked := fun q hq => by
          cases hq
          exact hp
        unmarked := by simp }
    exact ⟨_, _, rfl, hone (tableSent pidPat m.ccPat patSection) rfl,
      hone (tableSent pidPmt m.ccPmt (pmtSection m)) rfl, ⟨rfl, rfl⟩, ⟨rfl, rfl⟩⟩
  · intro pid
    by_cases h0 : pid = pidPat.toNat
    · subst h0
      refine ⟨⟨rfl, trivial⟩, ?_⟩
      show (bumpCc m.ccPat).toNat%16 = (m.ccPat.toNat+1)%16
      rw [bumpCc_toNat, Nat.mod_mod]
    · by_cases h1 : pid = pidPmt.toNat
      · subst h1
        refine ⟨⟨rfl, trivial⟩, ?_⟩
        show (bumpCc m.ccPmt).toNat%16 = (m.ccPmt.toNat+1)%16
        rw [bumpCc_toNat, Nat.mod_mod]
      · have hnil : onPid pid [tableSent pidPat m.ccPat patSection,
            tableSent pidPmt m.ccPmt (pmtSection m)] = [] := by
          apply List.filter_eq_nil_iff.mpr
          intro p hp
          rcases List.mem_cons.mp hp with rfl | hp
          · exact fun h => h0 (of_decide_eq_true h).symm
          · rcases List.mem_singleton.mp hp with rfl
            exact fun h => h1 (of_decide_eq_true h).symm
        rw [hnil]
        refine ⟨trivial, ?_⟩
        unfold ccOf
        rw [if_neg h0, if_neg h1, if_neg h0, if_neg h1]
        rfl

theorem unit_carriesOn {m m' : Mux} {u : PesUnit} {cc cc' : UInt8} {out : Bytes}
    {ps : List Packet} (h : Sends u cc cc' 0 out ps) (hu : IsUnit u.pid.toNat ps)
    (hcc : ccOf m u.pid.toNat = cc.toNat) (hcc' : ccOf m' u.pid.toNat = cc'.toNat)
    (hsame : ∀ pid, pid ≠ u.pid.toNat → ccOf m' pid = ccOf m pid) : CarriesOn m m' ps := by
  intro pid
  by_cases hp : pid = u.pid.toNat
  · subst hp
    rw [hu.onPid_self, hcc, hcc']
    exact ⟨h.numbered, h.counter⟩
  · rw [hu.onPid_other (Ne.symm hp), hsame pid hp]
    exact ⟨trivial, by simp⟩

theorem unitData_video (m : Mux) (data : Bytes) (pts dts : UInt64) (isIdr : Bool) :
    unitData (videoUnit m data pts dts isIdr) = videoPesHdr pts dts ++ data := rfl

theorem video_delivers (m : Mux) (bufSize : ℕ) (data : Bytes) (pts dts : UInt64) (isIdr : Bool)
    (hs : Sound m.audioStreamType (.video bufSize data pts dts isIdr)) :
    ∃ ps, readStream (rssTsWriteVideo m bufSize data pts dts isIdr).2 = some ps ∧
      Delivers m.audioStreamType (.video bufSize data pts dts isIdr) ps ∧
      CarriesOn m (rssTsWriteVideo m bufSize data pts dts isIdr).1 ps ∧
      (ps.head?.bind Packet.pcr) = some ((videoPcr m dts).toNat%2^33) := by
  obtain ⟨hne, hb⟩ := hs
  have hpos : 0 < data.length := List.length_pos_iff.mpr hne
  obtain ⟨u, hu⟩ : ∃ u, u = videoUnit m data pts dts isIdr := ⟨_, rfl⟩
  have htotal : u.totalData = (videoPesHdr pts dts).length+data.length := by rw [hu]; rfl
  have hadapt : u.adaptSize true = 8 := by rw [hu]; rfl
  have hpid : u.pid = pidVideo := by rw [hu]; rfl
  obtain ⟨p, ps, hsend, -, hp, hplain⟩ := unit_sends u (by rw [hpid]; decide) bufSize m.ccVideo
    (by omega) (by rw [hadapt, htotal]; exact hb)
  have hunit := isUnit_of_sends u hsend (by rw [hp]; rfl) hplain
  have hbytes : carried (p::ps) = videoPesHdr pts dts ++ data := by
    rw [hsend.bytes, List.drop_zero, hu, unitData_video]
  have hout : rssTsWriteVideo m bufSize data pts dts isIdr =
      ({ m with
          lastPcr := videoPcr m dts
          ccVideo := (writePesPackets bufSize u m.ccVideo).2
          patCounter := m.patCounter+1 }, (writePesPackets bufSize u m.ccVideo).1) := by
    rw [rssTsWriteVideo, if_neg (by omega), hu]
  rw [hout]
  refine ⟨p::ps, hsend.read, ⟨hpid ▸ hunit, hbytes, ?_, ?_, ?_, ?_⟩, ?_, ?_⟩
  · rw [hbytes]
    exact readPes_video pts dts data
  · intro pes hpes hlen
    rw [hbytes, readPes_video] at hpes
    cases hpes
    exact absurd rfl hlen
  · intro q hq
    cases hq
    rw [hp, hu]
    exact ⟨rfl, rfl⟩
  · exact fun q hq => ⟨(hplain q hq).clockless, (hplain q hq).no_access⟩
  · apply unit_carriesOn hsend hunit
    · rw [hpid]
      rfl
    · rw [hpid]
      rfl
    · intro pid hne
      rw [hpid] at hne
      unfold ccOf
      simp only [if_neg hne]
  · rw [hp, hu]
    rfl

theorem audio_delivers (m : Mux) (bufSize : ℕ) (data : Bytes) (pts : UInt64)
    (hs : Sound m.audioStreamType (.audio bufSize data pts)) :
    ∃ ps, readStream (rssTsWriteAudio m bufSize data pts).2 = some ps ∧
      Delivers m.audioStreamType (.audio bufSize data pts) ps ∧
      CarriesOn m (rssTsWriteAudio m bufSize data pts).1 ps := by
  obtain ⟨htype, hne, hb⟩ := hs
  have hpos : 0 < data.length := List.length_pos_iff.mpr hne
  obtain ⟨u, hu⟩ : ∃ u, u = audioUnit m data pts := ⟨_, rfl⟩
  have hhdr := audioPesHdr_length m.audioStreamType data.length pts
  have htotal : u.totalData = 14+data.length := by
    rw [← hhdr, hu]
    rfl
  have hadapt : u.adaptSize true = 0 := by rw [hu]; rfl
  have hpid : u.pid = pidAudio := by rw [hu]; rfl
  obtain ⟨p, ps, hsend, -, hp, hplain⟩ := unit_sends u (by rw [hpid]; decide) bufSize m.ccAudio
    (by omega) (by rw [hadapt, htotal]; exact hb)
  have hunit := isUnit_of_sends u hsend (by rw [hp]; rfl) hplain
  have hbytes : carried (p::ps) = audioPesHdr m.audioStreamType data.length pts ++ data := by
    rw [hsend.bytes, List.drop_zero, hu]
    rfl
  have hout : rssTsWriteAudio m bufSize data pts =
      ({ m with ccAudio := (writePesPackets bufSize u m.ccAudio).2 },
        (writePesPackets bufSize u m.ccAudio).1) := by
    rw [rssTsWriteAudio, if_neg (by rintro (h | h); exacts [by omega, htype h]), hu]
  rw [hout]
  refine ⟨p::ps, hsend.read, ⟨hpid ▸ hunit, hbytes, ?_, ?_, ?_⟩, ?_⟩
  · rw [hbytes]
    exact readPes_audio m.audioStreamType pts data
  · intro pes hpes hlen
    rw [hbytes, readPes_audio] at hpes
    cases hpes
    rw [hbytes, List.length_append, hhdr]
    unfold audioPesLength at hlen ⊢
    dsimp only at hlen ⊢
    split_ifs at hlen ⊢
    · omega
    · exact absurd rfl hlen
  · intro q hq
    rcases List.mem_cons.mp hq with rfl | hq
    · rw [hp, hu]
      exact ⟨rfl, rfl⟩
    · exact ⟨(hplain q hq).clockless, (hplain q hq).no_access⟩
  · apply unit_carriesOn hsend hunit
    · rw [hpid]
      rfl
    · rw [hpid]
      rfl
    · intro pid hne
      rw [hpid] at hne
      unfold ccOf
      simp only [if_neg hne]

theorem call_delivers (m : Mux) (c : Call) (hs : Sound m.audioStreamType c) :
    ∃ ps, readStream (call m c).2 = some ps ∧ Delivers m.audioStreamType c ps ∧
      CarriesOn m (call m c).1 ps := by
  cases c with
  | patPmt bufSize => exact tables_deliver m bufSize hs
  | video bufSize data pts dts isIdr =>
    obtain ⟨ps, h1, h2, h3, -⟩ := video_delivers m bufSize data pts dts isIdr hs
    exact ⟨ps, h1, h2, h3⟩
  | audio bufSize data pts => exact audio_delivers m bufSize data pts hs

theorem call_audioType (m : Mux) (c : Call) :
    (call m c).1.audioStreamType = m.audioStreamType := by
  cases c with
  | patPmt bufSize =>
    show (rssTsWritePatPmt m bufSize).1.audioStreamType = _
    unfold rssTsWritePatPmt
    split_ifs <;> rfl
  | video bufSize data pts dts isIdr =>
    show (rssTsWriteVideo m bufSize data pts dts isIdr).1.audioStreamType = _
    unfold rssTsWriteVideo
    split_ifs <;> rfl
  | audio bufSize data pts =>
    show (rssTsWriteAudio m bufSize data pts).1.audioStreamType = _
    unfold rssTsWriteAudio
    split_ifs <;> rfl

theorem outputs_deliver (m : Mux) (calls : List Call)
    (h : ∀ c ∈ calls, Sound m.audioStreamType c) :
    ∃ groups, List.Forall₂ (fun s ps => readStream s = some ps) (outputs m calls) groups ∧
      List.Forall₂ (Delivers m.audioStreamType) calls groups ∧
      ∀ pid, Numbered (ccOf m pid%16) (onPid pid groups.flatten) := by
  induction calls generalizing m with
  | nil => exact ⟨[], .nil, .nil, fun pid => trivial⟩
  | cons c calls ih =>
    obtain ⟨ps, hread, hdel, hcc⟩ := call_delivers m c (h c (by simp))
    have htype := call_audioType m c
    obtain ⟨groups, hreads, hdels, hnum⟩ := ih (call m c).1 fun d hd =>
      htype ▸ h d (List.mem_cons_of_mem c hd)
    refine ⟨ps::groups, .cons hread hreads, .cons hdel (htype ▸ hdels), fun pid => ?_⟩
    obtain ⟨hn, hnext⟩ := hcc pid
    rw [List.flatten_cons, onPid, List.filter_append, ← onPid, ← onPid]
    rw [numbered_append _ _ _ (Nat.mod_lt _ (by decide)), Nat.mod_add_mod, ← hnext]
    exact ⟨hn, hnum pid⟩

def videoBytes : Call → Option Bytes
  | .video _ data pts dts _ => some (videoPesHdr pts dts ++ data)
  | _ => none

def audioBytes (audioType : Byte) : Call → Option Bytes
  | .audio _ data pts => some (audioPesHdr audioType data.length pts ++ data)
  | _ => none

/-- The units of a run, and what those of the elementary PIDs carry. -/
theorem units_of_run {audioType : Byte} {calls : List Call} {groups : List (List Packet)}
    (h : List.Forall₂ (Delivers audioType) calls groups) :
    ∃ us : List (ℕ × List Packet), groups.flatten = us.flatMap Prod.snd ∧
      (∀ u ∈ us, IsUnit u.1 u.2) ∧
      (us.filter (fun u => u.1 = pidVideo.toNat)).map (fun u => carried u.2) =
        calls.filterMap videoBytes ∧
      (us.filter (fun u => u.1 = pidAudio.toNat)).map (fun u => carried u.2) =
        calls.filterMap (audioBytes audioType) := by
  induction h with
  | nil => exact ⟨[], rfl, nofun, rfl, rfl⟩
  | @cons c ps calls groups hd _ ih =>
    obtain ⟨us, hflat, hall, hvideo, haudio⟩ := ih
    cases c with
    | patPmt bufSize =>
      obtain ⟨pat, pmt, rfl, hpat, hpmt, -, -⟩ := hd
      refine ⟨(pidPat.toNat, [pat])::(pidPmt.toNat, [pmt])::us, ?_, ?_, hvideo, haudio⟩
      · rw [List.flatten_cons, hflat]
        rfl
      · intro u hu
        rcases List.mem_cons.mp hu with rfl | hu
        · exact hpat
        · rcases List.mem_cons.mp hu with rfl | hu
          · exact hpmt
          · exact hall u hu
    | video bufSize data pts dts isIdr =>
      obtain ⟨hunit, hbytes, -⟩ := hd
      refine ⟨(pidVideo.toNat, ps)::us, ?_, ?_, ?_, haudio⟩
      · rw [List.flatten_cons, hflat]
        rfl
      · intro u hu
        rcases List.mem_cons.mp hu with rfl | hu
        · exact hunit
        · exact hall u hu
      · rw [List.filter_cons_of_pos (by rfl), List.map_cons, hvideo, hbytes]
        rfl
    | audio bufSize data pts =>
      obtain ⟨hunit, hbytes, -⟩ := hd
      refine ⟨(pidAudio.toNat, ps)::us, ?_, ?_, hvideo, ?_⟩
      · rw [List.flatten_cons, hflat]
        rfl
      · intro u hu
        rcases List.mem_cons.mp hu with rfl | hu
        · exact hunit
        · exact hall u hu
      · rw [List.filter_cons_of_pos (by rfl), List.map_cons, haudio, hbytes]
        rfl

/-- Receiving undoes sending, for every run of the muxer. -/
theorem demux_undoes_mux (videoType audioType audioChannels : Byte) (patInterval : UInt32)
    (calls : List Call) (h : ∀ c ∈ calls, Sound audioType c) :
    ∃ groups : List (List Packet),
      readStream (outputs (rssTsInit videoType audioType audioChannels patInterval) calls).flatten =
        some groups.flatten ∧
      (∀ k < groups.flatten.length,
        (outputs (rssTsInit videoType audioType audioChannels patInterval)
          calls).flatten[188*k]? = some 0x47) ∧
      List.Forall₂ (Delivers audioType) calls groups ∧
      (∀ pid, Continuous (onPid pid groups.flatten)) ∧
      (units pidVideo.toNat groups.flatten).map carried = calls.filterMap videoBytes ∧
      (units pidAudio.toNat groups.flatten).map carried =
        calls.filterMap (audioBytes audioType) := by
  obtain ⟨groups, hread, hdel, hnum⟩ :=
    outputs_deliver (rssTsInit videoType audioType audioChannels patInterval) calls h
  have hstream := readStream_flatten hread
  obtain ⟨us, hflat, hall, hvideo, haudio⟩ := units_of_run hdel
  refine ⟨groups, hstream, (readStream_framed hstream).2, hdel,
    fun pid => (hnum pid).continuous, ?_, ?_⟩
  · rw [hflat, units_flatMap _ us hall, List.map_map]
    exact hvideo
  · rw [hflat, units_flatMap _ us hall, List.map_map]
    exact haudio

/-- Tables, a key frame with its own decoding time and a sound. -/
theorem demux_undoes_mux_run :
    ∃ groups : List (List Packet),
      readStream (outputs (rssTsInit 0x1B streamAac 1 0)
        [.patPmt 376, .video 188 [1, 2, 3] 5000 4000 true, .audio 188 [9] 77]).flatten =
          some groups.flatten ∧
      (units pidVideo.toNat groups.flatten).map carried =
        [videoPesHdr 5000 4000 ++ [1, 2, 3]] := by
  obtain ⟨groups, hread, -, -, -, hvideo, -⟩ := demux_undoes_mux 0x1B streamAac 1 0
    [.patPmt 376, .video 188 [1, 2, 3] 5000 4000 true, .audio 188 [9] 77] (by decide)
  exact ⟨groups, hread, hvideo⟩

end RaptorCommon.TsDemux
