import RaptorCommon.TsDemux

/-!
# The clock references of a run

A frame's clock reference leads its decoding time by 33 ms. At the head of a
stream the lead is cut off at zero, and a guard is to keep the references
apart there. The guard looks at `pat_counter`, which writing the tables sets
back to zero: the references rise exactly when no frame needs the guard
right after the tables.
-/

set_option autoImplicit false

namespace RaptorCommon.TsClock
open RaptorCommon.CText RaptorCommon.TransportStream RaptorCommon.TsMux RaptorCommon.TsLayout
open RaptorCommon.TsDemux

def carriedPcr (out : Bytes) : Option ℕ := (readPacket (out.take 188)).bind Packet.pcr

def frameDts : Call → Option UInt64
  | .video _ _ _ dts _ => some dts
  | _ => none

def videoClocks (m : Mux) : List Call → List ℕ
  | [] => []
  | c::calls => ((frameDts c).bind fun _ => carriedPcr (call m c).2).toList ++
      videoClocks (call m c).1 calls

def sentDts : Call → Option UInt64
  | .video _ data _ dts _ => if data = [] then none else some dts
  | _ => none

/-- Every frame but the first finds the guard armed or does not need it. -/
def Paced (m : Mux) (started : Bool) : List Call → Prop
  | [] => True
  | c::calls =>
    (∀ dts ∈ sentDts c, started = true → m.patCounter > 0 ∨ m.lastPcr < leadPcr dts) ∧
      Paced (call m c).1 (started || (sentDts c).isSome) calls

/-- Every frame has room for the packet that carries its clock reference. -/
def Roomed (calls : List Call) : Prop :=
  ∀ bufSize data pts dts isIdr, .video bufSize data pts dts isIdr ∈ calls → packetSize ≤ bufSize

theorem leadPcr_le (dts : UInt64) : (leadPcr dts).toNat ≤ dts.toNat := by
  unfold leadPcr
  split_ifs with h
  · rw [UInt64.toNat_sub_of_le _ _ (UInt64.le_of_lt h)]
    exact Nat.sub_le _ _
  · exact Nat.zero_le _

structure Behind (m : Mux) (seen : ℕ) : Prop where
  behind : m.lastPcr.toNat ≤ seen
  bounded : seen < 2^33

theorem videoPcr_le {m : Mux} {seen : ℕ} {dts : UInt64} (h : Behind m seen)
    (hdts : seen < dts.toNat) : (videoPcr m dts).toNat ≤ dts.toNat := by
  have hb := h.behind
  have hs := h.bounded
  unfold videoPcr
  split_ifs
  · rw [UInt64.toNat_add, show (1 : UInt64).toNat = 1 from rfl]
    omega
  · exact leadPcr_le dts

theorem videoPcr_rises {m : Mux} {seen : ℕ} (dts : UInt64) (h : Behind m seen) :
    m.lastPcr.toNat < (videoPcr m dts).toNat ↔ m.patCounter > 0 ∨ m.lastPcr < leadPcr dts := by
  have hb := h.behind
  have hs := h.bounded
  unfold videoPcr
  split_ifs with hg
  · refine ⟨fun _ => Or.inl hg.2, fun _ => ?_⟩
    rw [UInt64.toNat_add, show (1 : UInt64).toNat = 1 from rfl]
    omega
  · rw [← UInt64.lt_iff_toNat_lt]
    refine ⟨Or.inr, fun hor => ?_⟩
    rcases hor with hc | hl
    · exact UInt64.not_le.mp fun hle => hg ⟨hle, hc⟩
    · exact hl

theorem video_out (m : Mux) (bufSize : ℕ) {data : Bytes} (pts dts : UInt64) (isIdr : Bool)
    (hd : data ≠ []) :
    (rssTsWriteVideo m bufSize data pts dts isIdr).2 =
      (writePesPackets bufSize (videoUnit m data pts dts isIdr) m.ccVideo).1 ∧
    (rssTsWriteVideo m bufSize data pts dts isIdr).1.lastPcr = videoPcr m dts := by
  have hpos : 0 < data.length := List.length_pos_iff.mpr hd
  rw [rssTsWriteVideo, if_neg (by omega)]
  exact ⟨rfl, rfl⟩

theorem video_clock (m : Mux) (bufSize : ℕ) {data : Bytes} (pts dts : UInt64) (isIdr : Bool)
    (hd : data ≠ []) :
    carriedPcr (rssTsWriteVideo m bufSize data pts dts isIdr).2 =
      if packetSize ≤ bufSize then some ((videoPcr m dts).toNat%2^33) else none := by
  have hpos : 0 < data.length := List.length_pos_iff.mpr hd
  rw [(video_out m bufSize pts dts isIdr hd).1]
  obtain ⟨u, hu⟩ : ∃ u, u = videoUnit m data pts dts isIdr := ⟨_, rfl⟩
  rw [← hu]
  have htotal : 0 < u.totalData := by
    rw [hu]
    show 0 < (videoPesHdr pts dts).length+data.length
    omega
  have hpid : u.pid.toNat < 8192 := by
    rw [hu]
    show pidVideo.toNat < 8192
    decide
  split_ifs with hb
  · have hread := (packet_read u hpid m.ccVideo true 0 htotal).1
    rw [writePesPackets, pesLoop_step u hpid htotal (by unfold packetSize at hb; omega),
      carriedPcr, List.take_left' (readPacket_length hread), hread, hu]
    rfl
  · rw [writePesPackets, PesUnit.pesLoop, dif_pos htotal, if_pos (by omega)]
    rfl

theorem silent_step (m : Mux) (c : Call) (h : sentDts c = none) :
    (call m c).1.lastPcr = m.lastPcr ∧ (m.patCounter = 0 → (call m c).1.patCounter = 0) ∧
      videoClocks m [c] = [] := by
  cases c with
  | patPmt bufSize =>
    refine ⟨?_, ?_, rfl⟩
    · show (rssTsWritePatPmt m bufSize).1.lastPcr = _
      unfold rssTsWritePatPmt
      split_ifs <;> rfl
    · intro h0
      show (rssTsWritePatPmt m bufSize).1.patCounter = 0
      unfold rssTsWritePatPmt
      split_ifs
      · exact h0
      · rfl
  | video bufSize data pts dts isIdr =>
    have hd : data = [] := by
      by_contra hd
      rw [sentDts, if_neg hd] at h
      cases h
    subst hd
    exact ⟨rfl, id, rfl⟩
  | audio bufSize data pts =>
    refine ⟨?_, ?_, rfl⟩
    · show (rssTsWriteAudio m bufSize data pts).1.lastPcr = _
      unfold rssTsWriteAudio
      split_ifs <;> rfl
    · intro h0
      show (rssTsWriteAudio m bufSize data pts).1.patCounter = 0
      unfold rssTsWriteAudio
      split_ifs <;> exact h0

theorem clocks_cons (m : Mux) (c : Call) (calls : List Call) :
    videoClocks m (c::calls) = videoClocks m [c] ++ videoClocks (call m c).1 calls := by
  simp [videoClocks]

abbrev Rising (ps : List ℕ) : Prop := ps.IsChain (· < ·)

theorem Rising.drop_second {a b : ℕ} {ps : List ℕ} (h : Rising (a::b::ps)) : Rising (a::ps) := by
  obtain ⟨hab, hb⟩ := List.isChain_cons_cons.mp h
  cases ps with
  | nil => exact List.IsChain.singleton a
  | cons p ps =>
    obtain ⟨hbp, hps⟩ := List.isChain_cons_cons.mp hb
    exact List.isChain_cons_cons.mpr ⟨lt_trans hab hbp, hps⟩

def times (calls : List Call) : List ℕ := (calls.filterMap frameDts).map UInt64.toNat

structure Timed (ts : List ℕ) : Prop where
  rising : Rising ts
  bounded : ∀ t ∈ ts, t < 2^33

theorem Timed.tail {a : ℕ} {ts : List ℕ} (h : Timed (a::ts)) : Timed ts where
  rising := h.rising.tail
  bounded t ht := h.bounded t (List.mem_cons_of_mem a ht)

theorem Timed.drop_second {a b : ℕ} {ts : List ℕ} (h : Timed (a::b::ts)) : Timed (a::ts) where
  rising := h.rising.drop_second
  bounded t ht := by
    rcases List.mem_cons.mp ht with rfl | ht
    · exact h.bounded t (by simp)
    · exact h.bounded t (by simp [ht])

theorem times_silent (c : Call) (calls : List Call) :
    times (c::calls) = times calls ∨ ∃ t, times (c::calls) = t::times calls := by
  cases c with
  | patPmt bufSize => exact Or.inl rfl
  | video bufSize data pts dts isIdr => exact Or.inr ⟨dts.toNat, rfl⟩
  | audio bufSize data pts => exact Or.inl rfl

theorem sent_video {c : Call} {dts : UInt64} (h : sentDts c = some dts) :
    ∃ bufSize data pts isIdr, c = .video bufSize data pts dts isIdr ∧ data ≠ [] := by
  cases c with
  | patPmt bufSize => cases h
  | video bufSize data pts d isIdr =>
    by_cases hd : data = []
    · rw [sentDts, if_pos hd] at h
      cases h
    · rw [sentDts, if_neg hd] at h
      cases h
      exact ⟨bufSize, data, pts, isIdr, rfl, hd⟩
  | audio bufSize data pts => cases h

theorem times_sent {c : Call} {dts : UInt64} (h : sentDts c = some dts) (calls : List Call) :
    times (c::calls) = dts.toNat::times calls := by
  obtain ⟨bufSize, data, pts, isIdr, rfl, -⟩ := sent_video h
  rfl

/-- One frame after another: what it carries, and where it leaves the clock. -/
theorem frame_step (m : Mux) {c : Call} {dts : UInt64} (h : sentDts c = some dts)
    (hle : (videoPcr m dts).toNat ≤ dts.toNat) (hb : dts.toNat < 2^33) (calls : List Call) :
    (call m c).1.lastPcr = videoPcr m dts ∧
      (videoClocks m [c] = [(videoPcr m dts).toNat] ∨
        videoClocks m [c] = [] ∧ ¬Roomed (c::calls)) := by
  obtain ⟨bufSize, data, pts, isIdr, rfl, hd⟩ := sent_video h
  refine ⟨(video_out m bufSize pts dts isIdr hd).2, ?_⟩
  have hclock := video_clock m bufSize pts dts isIdr hd
  rw [Nat.mod_eq_of_lt (lt_of_le_of_lt hle hb)] at hclock
  have hone : videoClocks m [.video bufSize data pts dts isIdr] =
      (carriedPcr (rssTsWriteVideo m bufSize data pts dts isIdr).2).toList :=
    List.append_nil _
  rw [hone, hclock]
  split_ifs with hr
  · exact Or.inl rfl
  · exact Or.inr ⟨rfl, fun h => hr (h bufSize data pts dts isIdr (by simp))⟩

theorem roomed_tail {c : Call} {calls : List Call} (h : Roomed (c::calls)) : Roomed calls :=
  fun bufSize data pts dts isIdr hc => h bufSize data pts dts isIdr (List.mem_cons_of_mem c hc)

/-- From the first frame on: the induction is on the calls, and the clock
stays behind the decoding times. -/
theorem rising_from (calls : List Call) : ∀ (m : Mux) (seen : ℕ), Behind m seen →
    Timed (seen::times calls) →
    (Paced m true calls → Rising (m.lastPcr.toNat::videoClocks m calls)) ∧
      (Roomed calls → Rising (m.lastPcr.toNat::videoClocks m calls) → Paced m true calls) := by
  induction calls with
  | nil => exact fun m _ _ _ => ⟨fun _ => List.IsChain.singleton _, fun _ _ => trivial⟩
  | cons c calls ih =>
    intro m seen hb ht
    cases hs : sentDts c with
    | none =>
      obtain ⟨hlast, -, hnone⟩ := silent_step m c hs
      have ht' : Timed (seen::times calls) := by
        rcases times_silent c calls with h | ⟨t, h⟩
        · rwa [h] at ht
        · rw [h] at ht
          exact ht.drop_second
      have hih := ih (call m c).1 seen ⟨hlast ▸ hb.behind, hb.bounded⟩ ht'
      rw [clocks_cons, hnone, List.nil_append, ← hlast]
      refine ⟨fun hp => hih.1 (by simpa [Paced, hs] using hp), fun hr hc => ⟨?_, ?_⟩⟩
      · simp [hs]
      · simpa [hs] using hih.2 (roomed_tail hr) hc
    | some dts =>
      rw [times_sent hs] at ht
      have hlt : seen < dts.toNat := (List.isChain_cons_cons.mp ht.rising).1
      have hbound := ht.bounded dts.toNat (by simp)
      have hle := videoPcr_le hb hlt
      obtain ⟨hlast, hclock⟩ := frame_step m hs hle hbound calls
      have hih := ih (call m c).1 dts.toNat ⟨hlast ▸ hle, hbound⟩ ht.tail
      rw [hlast] at hih
      have hrise := videoPcr_rises dts hb
      rw [clocks_cons]
      constructor
      · intro hp
        have hlt := hrise.mpr (hp.1 dts hs rfl)
        have htail := hih.1 hp.2
        have hboth := List.isChain_cons_cons.mpr ⟨hlt, htail⟩
        rcases hclock with h | ⟨h, -⟩
        · rw [h]
          exact hboth
        · rw [h]
          exact Rising.drop_second hboth
      · intro hr hc
        rcases hclock with h | ⟨-, h⟩
        · rw [h] at hc
          obtain ⟨hlt, htail⟩ := List.isChain_cons_cons.mp hc
          refine ⟨fun d hd _ => ?_, hih.2 (roomed_tail hr) htail⟩
          cases hs.symm.trans hd
          exact hrise.mp hlt
        · exact absurd hr h

theorem rising_first (calls : List Call) : ∀ m : Mux, m.lastPcr = 0 → m.patCounter = 0 →
    Timed (times calls) →
    (Paced m false calls → Rising (videoClocks m calls)) ∧
      (Roomed calls → Rising (videoClocks m calls) → Paced m false calls) := by
  induction calls with
  | nil => exact fun m _ _ _ => ⟨fun _ => List.IsChain.nil, fun _ _ => trivial⟩
  | cons c calls ih =>
    intro m hz hc0 ht
    cases hs : sentDts c with
    | none =>
      obtain ⟨hlast, hcount, hnone⟩ := silent_step m c hs
      have ht' : Timed (times calls) := by
        rcases times_silent c calls with h | ⟨t, h⟩
        · rwa [h] at ht
        · rw [h] at ht
          exact ht.tail
      have hih := ih (call m c).1 (hlast.trans hz) (hcount hc0) ht'
      rw [clocks_cons, hnone, List.nil_append]
      refine ⟨fun hp => hih.1 (by simpa [Paced, hs] using hp), fun hr hc => ⟨?_, ?_⟩⟩
      · simp
      · simpa [hs] using hih.2 (roomed_tail hr) hc
    | some dts =>
      rw [times_sent hs] at ht
      have hbound := ht.bounded dts.toNat (by simp)
      have hle : (videoPcr m dts).toNat ≤ dts.toNat := by
        unfold videoPcr
        rw [if_neg (by rw [hc0]; exact fun h => absurd h.2 (by decide))]
        exact leadPcr_le dts
      obtain ⟨hlast, hclock⟩ := frame_step m hs hle hbound calls
      have hih := rising_from calls (call m c).1 dts.toNat ⟨hlast ▸ hle, hbound⟩ ht
      rw [hlast] at hih
      rw [clocks_cons]
      constructor
      · intro hp
        have htail := hih.1 (by simpa [hs] using hp.2)
        rcases hclock with h | ⟨h, -⟩
        · rw [h]
          exact htail
        · rw [h]
          exact htail.tail
      · intro hr hc
        rcases hclock with h | ⟨-, h⟩
        · rw [h] at hc
          refine ⟨fun _ _ h => absurd h (by decide), ?_⟩
          simpa [hs] using hih.2 (roomed_tail hr) hc
        · exact absurd hr h

/-- The clock references of successive frames rise when every frame after the
first finds the guard armed or does not need it, and only then where every
frame has room for its reference. -/
theorem clocks_rise_iff (videoType audioType audioChannels : Byte) (patInterval : UInt32)
    (calls : List Call) (ht : Timed (times calls)) :
    (Paced (rssTsInit videoType audioType audioChannels patInterval) false calls →
      Rising (videoClocks (rssTsInit videoType audioType audioChannels patInterval) calls)) ∧
    (Roomed calls →
      Rising (videoClocks (rssTsInit videoType audioType audioChannels patInterval) calls) →
      Paced (rssTsInit videoType audioType audioChannels patInterval) false calls) :=
  rising_first calls _ rfl rfl ht

/-- Three frames at the head of a stream, the tables only in front of the first. -/
theorem clocks_rise_iff_head :
    Rising (videoClocks (rssTsInit 0x1B 0 1 0) [.patPmt 376, .video 188 [1] 0 0 true,
      .video 188 [1] 2320 2320 false, .video 188 [1] 4640 4640 false]) := by
  have ht : Timed (times [.patPmt 376, .video 188 [1] 0 0 true,
      .video 188 [1] 2320 2320 false, .video 188 [1] 4640 4640 false]) :=
    ⟨by decide, by decide⟩
  refine (clocks_rise_iff 0x1B 0 1 0 _ ht).1 ?_
  refine ⟨nofun, ?_⟩
  refine ⟨fun _ _ h => absurd h (by decide), ?_⟩
  refine ⟨fun _ _ _ => Or.inl (by decide +kernel), ?_⟩
  refine ⟨fun _ _ _ => Or.inl (by decide +kernel), trivial⟩

/-- The tables written between two frames of the head: both carry zero. -/
theorem tables_stall_clock :
    Timed (times [.video 188 [1] 0 0 true, .patPmt 376, .video 188 [1] 2320 2320 false]) ∧
      ¬Rising (videoClocks (rssTsInit 0x1B 0 1 0)
        [.video 188 [1] 0 0 true, .patPmt 376, .video 188 [1] 2320 2320 false]) := by
  have hclocks : videoClocks (rssTsInit 0x1B 0 1 0)
      [.video 188 [1] 0 0 true, .patPmt 376, .video 188 [1] 2320 2320 false] = [0, 0] := by
    decide +kernel
  refine ⟨⟨by decide, by decide⟩, ?_⟩
  rw [hclocks]
  decide

/-- A frame still to come finds the clock behind its decoding time, or fresh. -/
def Trails (m : Mux) (ts : List ℕ) : Prop :=
  (m.lastPcr = 0 ∧ m.patCounter = 0) ∨ ∀ t ∈ ts, m.lastPcr.toNat < t

theorem trails_le {m : Mux} {dts : UInt64} {ts : List ℕ} (h : Trails m (dts.toNat::ts)) :
    (videoPcr m dts).toNat ≤ dts.toNat := by
  unfold videoPcr
  split_ifs with hg
  · rcases h with hfresh | hbehind
    · rw [hfresh.2] at hg
      exact absurd hg.2 (by decide)
    · have hlt := hbehind dts.toNat (by simp)
      have hbound := dts.toNat_lt
      rw [UInt64.toNat_add, show (1 : UInt64).toNat = 1 from rfl]
      omega
  · exact leadPcr_le dts

theorem trails_step {m : Mux} {c : Call} {calls : List Call} (hr : Rising (times (c::calls)))
    (h : Trails m (times (c::calls))) : Trails (call m c).1 (times calls) := by
  cases hs : sentDts c with
  | none =>
    obtain ⟨hlast, hcount, -⟩ := silent_step m c hs
    rcases h with ⟨hz, hc⟩ | hbehind
    · exact Or.inl ⟨hlast.trans hz, hcount hc⟩
    · apply Or.inr
      intro t ht
      rw [hlast]
      apply hbehind t
      rcases times_silent c calls with he | ⟨t', he⟩
      · rwa [he]
      · rw [he]
        exact List.mem_cons_of_mem t' ht
  | some dts =>
    rw [times_sent hs] at hr h
    obtain ⟨bufSize, data, pts, isIdr, rfl, hd⟩ := sent_video hs
    have hlast := (video_out m bufSize pts dts isIdr hd).2
    have hle := trails_le h
    have hlater := (List.pairwise_cons.mp (List.isChain_iff_pairwise.mp hr)).1
    apply Or.inr
    intro t ht
    show (rssTsWriteVideo m bufSize data pts dts isIdr).1.lastPcr.toNat < t
    rw [hlast]
    exact lt_of_le_of_lt hle (hlater t ht)

theorem trails_run (before rest : List Call) (m : Mux) (hr : Rising (times (before ++ rest)))
    (h : Trails m (times (before ++ rest))) : Trails (finish m before) (times rest) := by
  induction before generalizing m with
  | nil => exact h
  | cons c before ih =>
    have hrest : Rising (times (before ++ rest)) := by
      rcases times_silent c (before ++ rest) with he | ⟨t, he⟩
      · rwa [List.cons_append, he] at hr
      · rw [List.cons_append, he] at hr
        exact hr.tail
    exact ih (call m c).1 hrest (trails_step hr h)

/-- In a run whose decoding times rise, no frame carries a clock reference
past its own decoding time, wherever the tables and the audio stand. -/
theorem clock_within_dts (videoType audioType audioChannels : Byte) (patInterval : UInt32)
    (before rest : List Call) (c : Call) (dts : UInt64)
    (ht : Timed (times (before ++ c::rest))) (hc : frameDts c = some dts) :
    ∀ pcr ∈ carriedPcr
      (call (finish (rssTsInit videoType audioType audioChannels patInterval) before) c).2,
      pcr ≤ dts.toNat := by
  intro pcr hpcr
  have htrails := trails_run before (c::rest)
    (rssTsInit videoType audioType audioChannels patInterval) ht.rising (Or.inl ⟨rfl, rfl⟩)
  generalize finish (rssTsInit videoType audioType audioChannels patInterval) before = m
    at htrails hpcr
  cases c with
  | patPmt bufSize => cases hc
  | audio bufSize data pts => cases hc
  | video bufSize data pts d isIdr =>
    cases hc
    by_cases hd : data = []
    · subst hd
      cases hpcr
    · change pcr ∈ carriedPcr (rssTsWriteVideo m bufSize data pts dts isIdr).2 at hpcr
      rw [video_clock m bufSize pts dts isIdr hd] at hpcr
      split_ifs at hpcr
      · cases hpcr
        exact le_trans (Nat.mod_le _ _) (trails_le htrails)
      · cases hpcr

/-- Decoding times one tick apart: the guard replaces the reference twice in a
row, and both times it lands on the decoding time itself. -/
theorem clock_within_dts_guarded :
    carriedPcr (call (finish (rssTsInit 0x1B 0 1 0) [.patPmt 376, .video 188 [1] 0 0 true,
      .video 188 [1] 1 1 false]) (.video 188 [1] 2 2 false)).2 = some 2 ∧
    ∀ pcr ∈ carriedPcr (call (finish (rssTsInit 0x1B 0 1 0) [.patPmt 376,
      .video 188 [1] 0 0 true, .video 188 [1] 1 1 false]) (.video 188 [1] 2 2 false)).2,
      pcr ≤ (2 : UInt64).toNat :=
  ⟨by decide +kernel, clock_within_dts 0x1B 0 1 0 _ [] _ 2 ⟨by decide, by decide⟩ rfl⟩

end RaptorCommon.TsClock
