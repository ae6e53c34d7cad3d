import RaptorCommon.CText

/-!
# The transport stream muxer

The state is `rss_ts_mux_t`. A function that writes into the caller's buffer
returns the bytes it wrote; their number is its return value. A packet is
built in place, as in the source: it is filled with 0xFF and the fields are
stored over the fill.
-/

set_option autoImplicit false

namespace RaptorCommon.TsMux
open RaptorCommon.CText

abbrev packetSize : ℕ := 188
abbrev syncByte : Byte := 0x47
abbrev pidPat : UInt16 := 0x0000
abbrev pidPmt : UInt16 := 0x1000
abbrev pidVideo : UInt16 := 0x0100
abbrev pidAudio : UInt16 := 0x0101

abbrev streamAac : Byte := 0x0F
abbrev streamOpus : Byte := 0x06
abbrev streamNone : Byte := 0x00

structure Mux where
  ccPat : UInt8
  ccPmt : UInt8
  ccVideo : UInt8
  ccAudio : UInt8
  patCounter : UInt32
  patInterval : UInt32
  lastPcr : UInt64
  videoStreamType : Byte
  audioStreamType : Byte
  audioChannels : Byte
  deriving DecidableEq

def crc32Table : List UInt32 := [
  0x00000000, 0x04C11DB7, 0x09823B6E, 0x0D4326D9, 0x130476DC, 0x17C56B6B, 0x1A864DB2, 0x1E475005,
  0x2608EDB8, 0x22C9F00F, 0x2F8AD6D6, 0x2B4BCB61, 0x350C9B64, 0x31CD86D3, 0x3C8EA00A, 0x384FBDBD,
  0x4C11DB70, 0x48D0C6C7, 0x4593E01E, 0x4152FDA9, 0x5F15ADAC, 0x5BD4B01B, 0x569796C2, 0x52568B75,
  0x6A1936C8, 0x6ED82B7F, 0x639B0DA6, 0x67FA1011, 0x79BD4014, 0x7D7C5DA3, 0x703F7B7A, 0x74FE66CD,
  0x9823B6E0, 0x9CE2AB57, 0x91A18D8E, 0x95609039, 0x8B27C03C, 0x8FE6DD8B, 0x82A5FB52, 0x8664E6E5,
  0xBE2B5B58, 0xBAEA46EF, 0xB7A96036, 0xB3687D81, 0xAD2F2D84, 0xA9EE3033, 0xA4AD16EA, 0xA06C0B5D,
  0xD4326D90, 0xD0F37027, 0xDDB056FE, 0xD9714B49, 0xC7361B4C, 0xC3F706FB, 0xCEB42022, 0xCA753D95,
  0xF23A8028, 0xF6FB9D9F, 0xFBB8BB46, 0xFF79A6F1, 0xE13EF6F4, 0xE5FFEB43, 0xE8BCCD9A, 0xEC7DD02D,
  0x34867077, 0x30476DC0, 0x3D044B19, 0x39C556AE, 0x278206AB, 0x23431B1C, 0x2E003DC5, 0x2AC12072,
  0x128E9DCF, 0x164F8078, 0x1B0CA6A1, 0x1FCDBB16, 0x018AEB13, 0x054BF6A4, 0x0808D07D, 0x0CC9CDCA,
  0x7897AB07, 0x7C56B6B0, 0x71159069, 0x75D48DDE, 0x6B93DDDB, 0x6F52C06C, 0x6211E6B5, 0x66D0FB02,
  0x5E9F46BF, 0x5A5E5B08, 0x571D7DD1, 0x53DC6066, 0x4D9B3063, 0x495A2DD4, 0x44190B0D, 0x40D816BA,
  0xACA5C697, 0xA864DB20, 0xA527FDF9, 0xA1E6E04E, 0xBFA1B04B, 0xBB60ADFC, 0xB6238B25, 0xB2E29692,
  0x8AAD2B2F, 0x8E6C3698, 0x832F1041, 0x87EE0DF6, 0x99A95DF3, 0x9D684044, 0x902B669D, 0x94EA7B2A,
  0xE0B41DE7, 0xE4750050, 0xE9362689, 0xEDF73B3E, 0xF3B06B3B, 0xF771768C, 0xFA325055, 0xFEF34DE2,
  0xC6BCF05F, 0xC27DEDE8, 0xCF3ECB31, 0xCBFFD686, 0xD5B88683, 0xD1799B34, 0xDC3ABDED, 0xD8FBA05A,
  0x690CE0EE, 0x6DCDFD59, 0x608EDB80, 0x644FC637, 0x7A089632, 0x7EC98B85, 0x738AAD5C, 0x774BB0EB,
  0x4F040D56, 0x4BC510E1, 0x46863638, 0x42472B8F, 0x5C007B8A, 0x58C1663D, 0x558240E4, 0x51435D53,
  0x251D3B9E, 0x21DC2629, 0x2C9F00F0, 0x285E1D47, 0x36194D42, 0x32D850F5, 0x3F9B762C, 0x3B5A6B9B,
  0x0315D626, 0x07D4CB91, 0x0A97ED48, 0x0E56F0FF, 0x1011A0FA, 0x14D0BD4D, 0x19939B94, 0x1D528623,
  0xF12F560E, 0xF5EE4BB9, 0xF8AD6D60, 0xFC6C70D7, 0xE22B20D2, 0xE6EA3D65, 0xEBA91BBC, 0xEF68060B,
  0xD727BBB6, 0xD3E6A601, 0xDEA580D8, 0xDA649D6F, 0xC423CD6A, 0xC0E2D0DD, 0xCDA1F604, 0xC960EBB3,
  0xBD3E8D7E, 0xB9FF90C9, 0xB4BCB610, 0xB07DABA7, 0xAE3AFBA2, 0xAAFBE615, 0xA7B8C0CC, 0xA379DD7B,
  0x9B3660C6, 0x9FF77D71, 0x92B45BA8, 0x9675461F, 0x8832161A, 0x8CF30BAD, 0x81B02D74, 0x857130C3,
  0x5D8A9099, 0x594B8D2E, 0x5408ABF7, 0x50C9B640, 0x4E8EE645, 0x4A4FFBF2, 0x470CDD2B, 0x43CDC09C,
  0x7B827D21, 0x7F436096, 0x7200464F, 0x76C15BF8, 0x68860BFD, 0x6C47164A, 0x61043093, 0x65C52D24,
  0x119B4BE9, 0x155A565E, 0x18197087, 0x1CD86D30, 0x029F3D35, 0x065E2082, 0x0B1D065B, 0x0FDC1BEC,
  0x3793A651, 0x3352BBE6, 0x3E119D3F, 0x3AD08088, 0x2497D08D, 0x2056CD3A, 0x2D15EBE3, 0x29D4F654,
  0xC5A92679, 0xC1683BCE, 0xCC2B1D17, 0xC8EA00A0, 0xD6AD50A5, 0xD26C4D12, 0xDF2F6BCB, 0xDBEE767C,
  0xE3A1CBC1, 0xE760D676, 0xEA23F0AF, 0xEEE2ED18, 0xF0A5BD1D, 0xF464A0AA, 0xF9278673, 0xFDE69BC4,
  0x89B8FD09, 0x8D79E0BE, 0x803AC667, 0x84FBDBD0, 0x9ABC8BD5, 0x9E7D9662, 0x933EB0BB, 0x97FFAD0C,
  0xAFB010B1, 0xAB710D06, 0xA6322BDF, 0xA2F33668, 0xBCB4666D, 0xB8757BDA, 0xB5365D03, 0xB1F740B4]

def mpegCrc32 (data : Bytes) : UInt32 :=
  data.foldl (fun crc b =>
    (crc <<< 8) ^^^ crc32Table.getD (((crc >>> 24) ^^^ b.toUInt32) &&& 0xFF).toNat 0) 0xFFFFFFFF

def writePts (tag : Byte) (pts : UInt64) : Bytes :=
  [((tag.toUInt64 <<< 4) ||| (((pts >>> 30) &&& 0x07) <<< 1) ||| 1).toUInt8,
    ((pts >>> 22) &&& 0xFF).toUInt8,
    ((((pts >>> 15) &&& 0x7F) <<< 1) ||| 1).toUInt8,
    ((pts >>> 7) &&& 0xFF).toUInt8,
    (((pts &&& 0x7F) <<< 1) ||| 1).toUInt8]

def writePcr (pcrBase : UInt64) : Bytes :=
  [(pcrBase >>> 25).toUInt8, (pcrBase >>> 17).toUInt8, (pcrBase >>> 9).toUInt8,
    (pcrBase >>> 1).toUInt8, (((pcrBase &&& 1) <<< 7) ||| 0x7E).toUInt8, 0]

def poke (mem : Bytes) (off : ℕ) (bs : Bytes) : Bytes :=
  mem.take off ++ bs ++ mem.drop (off+bs.length)

/-- `memset(pkt, 0xFF, RSS_TS_PACKET_SIZE)` -/
def blankPacket : Bytes := List.replicate packetSize 0xFF

def pidBytes (pid : UInt16) (pusi : Bool) : Bytes :=
  [((if pusi then 0x40 else 0x00 : UInt16) ||| ((pid >>> 8) &&& 0x1F)).toUInt8, (pid &&& 0xFF).toUInt8]

def bumpCc (cc : UInt8) : UInt8 := (cc+1) &&& 0x0F

def startTsPacket (pkt : Bytes) (pid : UInt16) (pusi : Bool) (cc : UInt8) : Bytes × UInt8 :=
  (poke pkt 0 (syncByte::pidBytes pid pusi ++ [0x10 ||| (cc &&& 0x0F)]), bumpCc cc)

/-- The arguments of `write_pes_packets` that its loop only reads. -/
structure PesUnit where
  pid : UInt16
  pesHdr : Bytes
  payload : Bytes
  pcr90khz : UInt64
  hasPcr : Bool
  isRai : Bool

namespace PesUnit
variable (u : PesUnit)

def totalData : ℕ := u.pesHdr.length+u.payload.length

def chunk (dataOff toCopy : ℕ) : Bytes :=
  if dataOff < u.pesHdr.length then
    (u.pesHdr.drop dataOff).take (min (u.pesHdr.length-dataOff) toCopy)
  else
    (u.payload.drop (dataOff-u.pesHdr.length)).take
      (min (u.payload.length-(dataOff-u.pesHdr.length)) toCopy)

theorem chunk_length_pos (dataOff toCopy : ℕ) (hc : 0 < toCopy) (hd : dataOff < u.totalData) :
    0 < (u.chunk dataOff toCopy).length := by
  unfold totalData at hd
  unfold chunk
  split_ifs with h
  · simp only [List.length_take, List.length_drop]
    omega
  · simp only [List.length_take, List.length_drop]
    omega

def copyData (pkt : Bytes) (pktOff dataOff toCopy : ℕ) : Bytes × ℕ :=
  if _h : 0 < toCopy ∧ dataOff < u.totalData then
    let c := u.chunk dataOff toCopy
    copyData (poke pkt pktOff c) (pktOff+c.length) (dataOff+c.length) (toCopy-c.length)
  else (pkt, dataOff)
  termination_by toCopy
  decreasing_by
    have := u.chunk_length_pos dataOff toCopy _h.1 _h.2
    omega

def afData : ℕ := if u.hasPcr then 6 else 0

def afFlags : Byte := (if u.hasPcr then 0x10 else 0) ||| (if u.isRai then 0x40 else 0)

/-- The adaptation field the first packet has of its own. -/
def adaptSize (first : Bool) : ℕ := if first && (u.hasPcr || u.isRai) then 2+u.afData else 0

/-- The packet with its own adaptation field, before any stuffing. -/
def opened (first : Bool) : Bytes :=
  let pkt := poke blankPacket 0 (syncByte::pidBytes u.pid first)
  if u.adaptSize first > 0 then
    poke pkt 4 ([UInt8.ofNat (1+u.afData), u.afFlags] ++
      if u.hasPcr then writePcr u.pcr90khz else [])
  else pkt

/-- The packet before its payload, and the room for payload in it. -/
def packetHead (cc : UInt8) (first : Bool) (remaining : ℕ) : Bytes × ℕ :=
  let pkt := u.opened first
  let adaptSize := u.adaptSize first
  let payloadSpace := packetSize-(4+adaptSize)
  if remaining < payloadSpace then
    let stuff := payloadSpace-remaining
    if adaptSize > 0 then
      -- the field grows into the fill that follows it
      let pkt := poke pkt 4 [pkt.getD 4 0+UInt8.ofNat stuff]
      (poke pkt 3 [0x30 ||| (cc &&& 0x0F)], remaining)
    else if stuff = 1 then
      (poke pkt 3 [0x30 ||| (cc &&& 0x0F), 0], remaining)
    else
      let pkt := poke pkt 3 [0x30 ||| (cc &&& 0x0F), UInt8.ofNat (stuff-1), 0]
      (if stuff > 2 then poke pkt 6 (List.replicate (stuff-2) 0xFF) else pkt, remaining)
  else if adaptSize > 0 then (poke pkt 3 [0x30 ||| (cc &&& 0x0F)], payloadSpace)
  else (poke pkt 3 [0x10 ||| (cc &&& 0x0F)], payloadSpace)

/-- One pass of the outer loop: the packet and the new data offset. -/
def packet (cc : UInt8) (first : Bool) (dataOff : ℕ) : Bytes × ℕ :=
  let (pkt, payloadSpace) := u.packetHead cc first (u.totalData-dataOff)
  u.copyData pkt (packetSize-payloadSpace) dataOff payloadSpace

theorem afData_le : u.afData ≤ 6 := by
  unfold afData
  split_ifs <;> omega

theorem adaptSize_le (first : Bool) : u.adaptSize first ≤ 8 := by
  have h := u.afData_le
  unfold adaptSize
  split_ifs <;> omega

theorem head_space (cc : UInt8) (first : Bool) (remaining : ℕ) :
    (u.packetHead cc first remaining).2 = min remaining (184-u.adaptSize first) := by
  have h := u.adaptSize_le first
  unfold packetHead packetSize
  dsimp only
  split_ifs <;> dsimp only <;> omega

theorem copy_advances (pkt : Bytes) (pktOff dataOff toCopy : ℕ) (hc : 0 < toCopy)
    (hd : dataOff < u.totalData) : dataOff < (u.copyData pkt pktOff dataOff toCopy).2 := by
  have hle : ∀ pkt pktOff d n, d ≤ (u.copyData pkt pktOff d n).2 := by
    intro pkt pktOff d n
    fun_induction copyData u pkt pktOff d n with
    | case1 pkt pktOff d n _ c ih => omega
    | case2 pkt pktOff d n _ => exact le_refl _
  have hpos := u.chunk_length_pos dataOff toCopy hc hd
  rw [copyData, dif_pos ⟨hc, hd⟩]
  exact lt_of_lt_of_le (by omega) (hle _ _ _ _)

theorem packet_advances (cc : UInt8) (first : Bool) (dataOff : ℕ) (hd : dataOff < u.totalData) :
    dataOff < (u.packet cc first dataOff).2 := by
  have h := u.adaptSize_le first
  have hs : 0 < (u.packetHead cc first (u.totalData-dataOff)).2 := by
    rw [head_space]
    omega
  exact u.copy_advances _ _ _ _ hs hd

/-- The outer loop, with the counter it leaves behind. -/
def pesLoop (bufSize written dataOff : ℕ) (first : Bool) (cc : UInt8) : Bytes × UInt8 :=
  if _h : dataOff < u.totalData then
    if written+packetSize > bufSize then ([], cc)
    else
      let rest := pesLoop bufSize (written+packetSize) (u.packet cc first dataOff).2 false (bumpCc cc)
      ((u.packet cc first dataOff).1 ++ rest.1, rest.2)
  else ([], cc)
  termination_by u.totalData-dataOff
  decreasing_by
    have := u.packet_advances cc first dataOff _h
    omega

end PesUnit

def writePesPackets (bufSize : ℕ) (u : PesUnit) (cc : UInt8) : Bytes × UInt8 :=
  u.pesLoop bufSize 0 0 true cc

def rssTsInit (videoType audioType audioChannels : Byte) (patInterval : UInt32) : Mux where
  ccPat := 0
  ccPmt := 0
  ccVideo := 0
  ccAudio := 0
  patCounter := 0
  patInterval := patInterval
  lastPcr := 0
  videoStreamType := videoType
  audioStreamType := audioType
  audioChannels := if audioChannels ≠ 0 then audioChannels else 1

def crcBytes (crc : UInt32) : Bytes :=
  [(crc >>> 24).toUInt8, (crc >>> 16).toUInt8, (crc >>> 8).toUInt8, crc.toUInt8]

def tablePid (pid : UInt16) : Bytes :=
  [((0xE0 : UInt16) ||| ((pid >>> 8) &&& 0x1F)).toUInt8, (pid &&& 0xFF).toUInt8]

def patSection : Bytes :=
  [0x00, 0xB0, 0x0D, 0x00, 0x01, 0xC1, 0x00, 0x00, 0x00, 0x01] ++ tablePid pidPmt

/-- The audio entry of the map table. Opus needs the registration and the
channel count, without which a demuxer assumes stereo. -/
def audioEntry (m : Mux) : Bytes :=
  m.audioStreamType::tablePid pidAudio ++
    if m.audioStreamType = streamOpus then
      [0xF0, 0x0A, 0x05, 0x04] ++ ascii "Opus" ++ [0x7F, 0x02, 0x80, m.audioChannels]
    else [0xF0, 0x00]

def pmtBody (m : Mux) : Bytes :=
  [0x00, 0x01, 0xC1, 0x00, 0x00] ++ tablePid pidVideo ++ [0xF0, 0x00] ++
    (m.videoStreamType::tablePid pidVideo ++ [0xF0, 0x00]) ++
    if m.audioStreamType ≠ streamNone then audioEntry m else []

def pmtSection (m : Mux) : Bytes :=
  let sectionLen := (pmtBody m).length+4
  [0x02, UInt8.ofNat (0xB0 ||| ((sectionLen >>> 8) &&& 0x0F)), UInt8.ofNat (sectionLen &&& 0xFF)] ++
    pmtBody m

/-- A packet that holds one section: the pointer field, the section, its CRC. -/
def tablePacket (pid : UInt16) (cc : UInt8) (table : Bytes) : Bytes × UInt8 :=
  let (pkt, cc') := startTsPacket blankPacket pid true cc
  (poke pkt 4 (0x00::table ++ crcBytes (mpegCrc32 table)), cc')

def rssTsWritePatPmt (m : Mux) (bufSize : ℕ) : Mux × Bytes :=
  if bufSize < packetSize*2 then (m, [])
  else
    let (pat, ccPat) := tablePacket pidPat m.ccPat patSection
    let (pmt, ccPmt) := tablePacket pidPmt m.ccPmt (pmtSection m)
    let m := { m with ccPat := ccPat, ccPmt := ccPmt, patCounter := 0 }
    (m, pat ++ pmt)

def videoPesHdr (pts90khz dts90khz : UInt64) : Bytes :=
  [0x00, 0x00, 0x01, 0xE0, 0x00, 0x00, 0x84] ++
    if dts90khz ≠ pts90khz then
      [0xC0, 0x0A] ++ writePts 0x03 pts90khz ++ writePts 0x01 dts90khz
    else [0x80, 0x05] ++ writePts 0x02 pts90khz

/-- The clock reference leads the decoding time by 33 ms, and zero where the
lead would pass the head of the stream. -/
def leadPcr (dts90khz : UInt64) : UInt64 := if dts90khz > 3000 then dts90khz-3000 else 0

/-- The clock reference of a frame, after the monotonicity guard. -/
def videoPcr (m : Mux) (dts90khz : UInt64) : UInt64 :=
  if leadPcr dts90khz ≤ m.lastPcr ∧ m.patCounter > 0 then m.lastPcr+1 else leadPcr dts90khz

def videoUnit (m : Mux) (data : Bytes) (pts90khz dts90khz : UInt64) (isIdr : Bool) : PesUnit where
  pid := pidVideo
  pesHdr := videoPesHdr pts90khz dts90khz
  payload := data
  pcr90khz := videoPcr m dts90khz
  hasPcr := true
  isRai := isIdr

def rssTsWriteVideo (m : Mux) (bufSize : ℕ) (data : Bytes) (pts90khz dts90khz : UInt64)
    (isIdr : Bool) : Mux × Bytes :=
  if data.length = 0 then (m, [])
  else
    let (out, cc) := writePesPackets bufSize (videoUnit m data pts90khz dts90khz isIdr) m.ccVideo
    let m := { m with
      lastPcr := videoPcr m dts90khz
      ccVideo := cc
      patCounter := m.patCounter+1 }
    (m, out)

def audioPesHdr (audioStreamType : Byte) (len : ℕ) (pts90khz : UInt64) : Bytes :=
  let streamId : Byte := if audioStreamType = streamAac then 0xC0 else 0xBD
  let pesPayload := 3+5+len
  [0x00, 0x00, 0x01, streamId] ++
    (if pesPayload ≤ 0xFFFF then
      [UInt8.ofNat ((pesPayload >>> 8) &&& 0xFF), UInt8.ofNat (pesPayload &&& 0xFF)]
    else [0x00, 0x00]) ++
    [0x84, 0x80, 0x05] ++ writePts 0x02 pts90khz

def audioUnit (m : Mux) (data : Bytes) (pts90khz : UInt64) : PesUnit where
  pid := pidAudio
  pesHdr := audioPesHdr m.audioStreamType data.length pts90khz
  payload := data
  pcr90khz := 0
  hasPcr := false
  isRai := false

def rssTsWriteAudio (m : Mux) (bufSize : ℕ) (data : Bytes) (pts90khz : UInt64) : Mux × Bytes :=
  if data.length = 0 ∨ m.audioStreamType = streamNone then (m, [])
  else
    let (out, cc) := writePesPackets bufSize (audioUnit m data pts90khz) m.ccAudio
    let m := { m with ccAudio := cc }
    (m, out)

inductive Call where
  | patPmt (bufSize : ℕ)
  | video (bufSize : ℕ) (data : Bytes) (pts90khz dts90khz : UInt64) (isIdr : Bool)
  | audio (bufSize : ℕ) (data : Bytes) (pts90khz : UInt64)

def call (m : Mux) : Call → Mux × Bytes
  | .patPmt bufSize => rssTsWritePatPmt m bufSize
  | .video bufSize data pts dts isIdr => rssTsWriteVideo m bufSize data pts dts isIdr
  | .audio bufSize data pts => rssTsWriteAudio m bufSize data pts

def outputs (m : Mux) : List Call → List Bytes
  | [] => []
  | c::calls => (call m c).2::outputs (call m c).1 calls

def finish (m : Mux) : List Call → Mux
  | [] => m
  | c::calls => finish (call m c).1 calls

end RaptorCommon.TsMux
