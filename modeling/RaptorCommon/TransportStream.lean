import Mathlib.Algebra.Group.Nat.Defs
import Mathlib.Data.List.SplitBy
import Mathlib.Tactic.Common

/-!
# Receiving a transport stream

Transport packets and packetised elementary streams, read as ISO 13818-1
lays them out. A reader declines a stream it cannot make sense of; of the
optional fields it reads the clock reference and the two time stamps.
-/

set_option autoImplicit false

namespace RaptorCommon.TransportStream

abbrev Octets := List UInt8

def bits (b : UInt8) (low width : ℕ) : ℕ := b.toNat/2^low%2^width

structure Adaptation where
  pcr : Option ℕ
  randomAccess : Bool
  deriving DecidableEq

def clockBase : Octets → Option ℕ
  | [a, b, c, d, e, _] => some
      (a.toNat*2^25+b.toNat*2^17+c.toNat*2^9+d.toNat*2+bits e 7 1)
  | _ => none

def Stuffing (fill : Octets) : Prop := ∀ b ∈ fill, b = 0xFF

instance (fill : Octets) : Decidable (Stuffing fill) :=
  List.decidableBAll _ fill

def readAdaptation : Octets → Option Adaptation
  | [] => some ⟨none, false⟩
  | flags::fields =>
    if bits flags 0 4 ≠ 0 then none
    else if bits flags 4 1 = 1 then
      if Stuffing (fields.drop 6) then
        (clockBase (fields.take 6)).map (fun c => ⟨some c, bits flags 6 1 = 1⟩)
      else none
    else if Stuffing fields then some ⟨none, bits flags 6 1 = 1⟩ else none

theorem readAdaptation_plain {flags : UInt8} {fields : Octets} (h0 : bits flags 0 4 = 0)
    (h4 : bits flags 4 1 = 0) (hs : Stuffing fields) :
    readAdaptation (flags::fields) = some ⟨none, bits flags 6 1 = 1⟩ := by
  simp [readAdaptation, h0, h4, hs]

theorem readAdaptation_clock {flags : UInt8} {clock fill : Octets} {c : ℕ}
    (h0 : bits flags 0 4 = 0) (h4 : bits flags 4 1 = 1) (hl : clock.length = 6)
    (hc : clockBase clock = some c) (hs : Stuffing fill) :
    readAdaptation (flags::(clock ++ fill)) = some ⟨some c, bits flags 6 1 = 1⟩ := by
  simp [readAdaptation, h0, h4, List.drop_left' hl, List.take_left' hl, hc, hs]

structure Packet where
  pid : ℕ
  unitStart : Bool
  counter : ℕ
  pcr : Option ℕ
  randomAccess : Bool
  payload : Octets
  deriving DecidableEq

def packetOf (b1 b2 b3 : UInt8) (a : Adaptation) (payload : Octets) : Packet where
  pid := bits b1 0 5*256+b2.toNat
  unitStart := bits b1 6 1 = 1
  counter := bits b3 0 4
  pcr := a.pcr
  randomAccess := a.randomAccess
  payload := payload

/-- One packet of 188 bytes. A packet without payload is declined. -/
def readPacket : Octets → Option Packet
  | sync::b1::b2::b3::body =>
    if sync ≠ 0x47 ∨ body.length ≠ 184 ∨ bits b1 7 1 = 1 ∨ bits b3 6 2 ≠ 0 then none
    else if bits b3 4 2 = 1 then some (packetOf b1 b2 b3 ⟨none, false⟩ body)
    else if bits b3 4 2 = 3 then
      match body with
      | len::rest =>
        if len.toNat < rest.length then
          (readAdaptation (rest.take len.toNat)).map
            (fun a => packetOf b1 b2 b3 a (rest.drop len.toNat))
        else none
      | [] => none
    else none
  | _ => none

def readStream (s : Octets) : Option (List Packet) :=
  if s = [] then some []
  else (readPacket (s.take 188)).bind fun p => (readStream (s.drop 188)).map (p::·)
  termination_by s.length
  decreasing_by
    have hs : 0 < s.length := List.length_pos_iff.mpr ‹_›
    simp only [List.length_drop]
    omega

theorem readPacket_plain {b1 b2 b3 : UInt8} {body : Octets} (hl : body.length = 184)
    (he : bits b1 7 1 = 0) (hs : bits b3 6 2 = 0) (hc : bits b3 4 2 = 1) :
    readPacket (0x47::b1::b2::b3::body) = some (packetOf b1 b2 b3 ⟨none, false⟩ body) := by
  simp [readPacket, hl, he, hs, hc]

theorem readPacket_adapted {b1 b2 b3 len : UInt8} {field payload : Octets} {a : Adaptation}
    (hf : field.length = len.toNat) (hl : field.length+payload.length = 183)
    (hp : payload ≠ []) (he : bits b1 7 1 = 0) (hs : bits b3 6 2 = 0) (hc : bits b3 4 2 = 3)
    (ha : readAdaptation field = some a) :
    readPacket (0x47::b1::b2::b3::len::(field ++ payload)) =
      some (packetOf b1 b2 b3 a payload) := by
  have hpos : 0 < payload.length := List.length_pos_iff.mpr hp
  have hlen : (len::(field ++ payload)).length = 184 := by
    simp only [List.length_cons, List.length_append]
    omega
  have hlt : len.toNat < (field ++ payload).length := by
    simp only [List.length_append]
    omega
  simp only [readPacket, hlen, he, hs, hc]
  rw [if_neg (by decide), if_neg (by decide), if_pos trivial, if_pos hlt, ← hf, List.take_left,
    List.drop_left, ha]
  rfl

theorem readPacket_length {s : Octets} {p : Packet} (h : readPacket s = some p) :
    s.length = 188 := by
  unfold readPacket at h
  split at h
  · rename_i sync b1 b2 b3 body
    split_ifs at h with h1 h2 h3
    all_goals simp only [not_or, not_not] at h1
    all_goals simp [h1.2.1]
  · exact absurd h nofun

theorem readStream_cons {s t : Octets} {p : Packet} (h : readPacket s = some p) :
    readStream (s ++ t) = (readStream t).map (p::·) := by
  have hl := readPacket_length h
  have hne : s ++ t ≠ [] := by
    intro h0
    rw [(List.append_eq_nil_iff.mp h0).1] at hl
    exact absurd hl (by decide)
  rw [readStream, if_neg hne, List.take_left' hl, List.drop_left' hl, h]
  rfl

theorem readStream_append {s t : Octets} {ps : List Packet} (h : readStream s = some ps) :
    readStream (s ++ t) = (readStream t).map (ps ++ ·) := by
  induction hn : s.length using Nat.strongRecOn generalizing s ps with
  | ind n ih =>
    by_cases hs : s = []
    · subst hs
      rw [readStream, if_pos rfl] at h
      cases h
      simp
    · rw [readStream, if_neg hs] at h
      obtain ⟨p, hp, h⟩ := Option.bind_eq_some_iff.mp h
      obtain ⟨qs, hq, rfl⟩ := Option.map_eq_some_iff.mp h
      have hpos : 0 < s.length := List.length_pos_iff.mpr hs
      have hd := ih (s.drop 188).length (by simp only [List.length_drop]; omega) hq rfl
      calc readStream (s ++ t)
          = readStream (s.take 188 ++ (s.drop 188 ++ t)) := by
            rw [← List.append_assoc, List.take_append_drop]
        _ = (readStream (s.drop 188 ++ t)).map (p::·) := readStream_cons hp
        _ = ((readStream t).map (qs ++ ·)).map (p::·) := by rw [hd]
        _ = (readStream t).map (p::qs ++ ·) := by rw [Option.map_map]; rfl

theorem readPacket_sync {s : Octets} {p : Packet} (h : readPacket s = some p) :
    s.head? = some 0x47 := by
  unfold readPacket at h
  split at h
  · rename_i sync b1 b2 b3 body
    split_ifs at h with h1
    all_goals
      simp only [not_or, not_not] at h1
      rw [h1.1]
      rfl
  · exact absurd h nofun

theorem readStream_framed {s : Octets} {ps : List Packet} (h : readStream s = some ps) :
    s.length = 188*ps.length ∧ ∀ k < ps.length, s[188*k]? = some 0x47 := by
  induction ps generalizing s with
  | nil =>
    by_cases hs : s = []
    · simp [hs]
    · rw [readStream, if_neg hs] at h
      obtain ⟨p, -, h⟩ := Option.bind_eq_some_iff.mp h
      obtain ⟨qs, -, hc⟩ := Option.map_eq_some_iff.mp h
      exact absurd hc (List.cons_ne_nil p qs)
  | cons p ps ih =>
    have hs : s ≠ [] := by
      intro h0
      rw [readStream, if_pos h0] at h
      cases h
    rw [readStream, if_neg hs] at h
    obtain ⟨q, hq, h⟩ := Option.bind_eq_some_iff.mp h
    obtain ⟨qs, hqs, hc⟩ := Option.map_eq_some_iff.mp h
    cases hc
    obtain ⟨hlen, hsync⟩ := ih hqs
    have htake := readPacket_length hq
    have hhead := readPacket_sync hq
    rw [List.length_take] at htake
    rw [List.length_drop] at hlen
    refine ⟨by simp only [List.length_cons]; omega, fun k hk => ?_⟩
    cases k with
    | zero =>
      rw [List.head?_take, if_neg (by decide), List.head?_eq_getElem?] at hhead
      exact hhead
    | succ k =>
      have := hsync k (by simpa using hk)
      rwa [List.getElem?_drop, show 188+188*k = 188*(k+1) by omega] at this

theorem readStream_flatten {ss : List Octets} {groups : List (List Packet)}
    (h : List.Forall₂ (fun s ps => readStream s = some ps) ss groups) :
    readStream ss.flatten = some groups.flatten := by
  induction h with
  | nil => rw [List.flatten_nil, readStream, if_pos rfl]; rfl
  | cons hs _ ih => rw [List.flatten_cons, readStream_append hs, ih]; rfl

def onPid (pid : ℕ) (ps : List Packet) : List Packet := ps.filter (fun p => p.pid = pid)

def Numbered : ℕ → List Packet → Prop
  | _, [] => True
  | n, p::ps => p.counter = n ∧ Numbered ((n+1)%16) ps

theorem numbered_append (n : ℕ) (ps qs : List Packet) (hn : n < 16) :
    Numbered n (ps ++ qs) ↔ Numbered n ps ∧ Numbered ((n+ps.length)%16) qs := by
  induction ps generalizing n with
  | nil => simp [Numbered, Nat.mod_eq_of_lt hn]
  | cons p ps ih =>
    have hlen : ((n+1)%16+ps.length)%16 = (n+(p::ps).length)%16 := by
      simp only [List.length_cons]
      omega
    show (p.counter = n ∧ Numbered ((n+1)%16) (ps ++ qs)) ↔ _
    rw [ih _ (Nat.mod_lt _ (by decide)), hlen, ← and_assoc]
    rfl

def Continuous (ps : List Packet) : Prop :=
  ps.IsChain (fun p q => q.counter = (p.counter+1)%16)

theorem Numbered.continuous {n : ℕ} {ps : List Packet} (h : Numbered n ps) : Continuous ps := by
  induction ps generalizing n with
  | nil => exact List.IsChain.nil
  | cons p ps ih =>
    cases ps with
    | nil => exact List.IsChain.singleton p
    | cons q ps =>
      refine List.isChain_cons_cons.mpr ⟨?_, ih h.2⟩
      rw [h.2.1, h.1]

/-- The packets of one unit: all on one PID, the first alone marked. -/
structure IsUnit (pid : ℕ) (ps : List Packet) : Prop where
  on_pid : ∀ p ∈ ps, p.pid = pid
  nonempty : ps ≠ []
  marked : ∀ p ∈ ps.head?, p.unitStart = true
  unmarked : ∀ p ∈ ps.tail, p.unitStart = false

/-- The units of a PID, each from one start mark to the next. -/
def units (pid : ℕ) (ps : List Packet) : List (List Packet) :=
  (onPid pid ps).splitBy (fun _ q => !q.unitStart)

theorem IsUnit.chained {pid : ℕ} {ps : List Packet} (h : IsUnit pid ps) :
    ps.IsChain (fun _ q => (!q.unitStart) = true) := by
  cases ps with
  | nil => exact List.IsChain.nil
  | cons p rest =>
    have hrest : ∀ q ∈ rest, (!q.unitStart) = true := fun q hq => by
      simp [h.unmarked q (by simpa using hq)]
    clear h
    induction rest generalizing p with
    | nil => exact List.IsChain.singleton p
    | cons q rest ih =>
      refine List.isChain_cons_cons.mpr ⟨hrest q (by simp), ih q fun x hx => ?_⟩
      exact hrest x (List.mem_cons_of_mem q hx)

theorem IsUnit.onPid_self {pid : ℕ} {ps : List Packet} (h : IsUnit pid ps) :
    onPid pid ps = ps :=
  List.filter_eq_self.mpr fun p hp => by simpa using h.on_pid p hp

theorem IsUnit.onPid_other {pid pid' : ℕ} {ps : List Packet} (h : IsUnit pid ps)
    (hne : pid ≠ pid') : onPid pid' ps = [] :=
  List.filter_eq_nil_iff.mpr fun p hp => by simpa [h.on_pid p hp] using hne

theorem onPid_flatMap (pid : ℕ) (us : List (ℕ × List Packet)) (h : ∀ u ∈ us, IsUnit u.1 u.2) :
    onPid pid (us.flatMap Prod.snd) =
      ((us.filter (fun u => u.1 = pid)).map Prod.snd).flatten := by
  induction us with
  | nil => rfl
  | cons u us ih =>
    have hu := h u (by simp)
    have hus := ih fun v hv => h v (List.mem_cons_of_mem u hv)
    rw [List.flatMap_cons, onPid, List.filter_append, ← onPid, ← onPid, hus]
    by_cases hp : u.1 = pid
    · subst hp
      rw [hu.onPid_self, List.filter_cons_of_pos (by simp), List.map_cons, List.flatten_cons]
    · rw [hu.onPid_other hp, List.filter_cons_of_neg (by simpa using hp), List.nil_append]

/-- The units of a stream of whole units are found again. -/
theorem units_flatMap (pid : ℕ) (us : List (ℕ × List Packet)) (h : ∀ u ∈ us, IsUnit u.1 u.2) :
    units pid (us.flatMap Prod.snd) = (us.filter (fun u => u.1 = pid)).map Prod.snd := by
  have hu : ∀ ps ∈ (us.filter (fun u => u.1 = pid)).map Prod.snd, IsUnit pid ps := by
    intro ps hps
    obtain ⟨u, hmem, rfl⟩ := List.mem_map.mp hps
    obtain ⟨hmem, hpid⟩ := List.mem_filter.mp hmem
    have hpid : u.1 = pid := by simpa using hpid
    exact hpid ▸ h u hmem
  rw [units, onPid_flatMap pid us h]
  apply List.splitBy_flatten
  · exact fun h0 => (hu [] h0).nonempty rfl
  · exact fun ps hps => (hu ps hps).chained
  · apply List.Pairwise.isChain
    apply List.pairwise_of_forall_mem_list
    intro a ha b hb
    refine ⟨(hu a ha).nonempty, (hu b hb).nonempty, ?_⟩
    simp [(hu b hb).marked _ (List.head_mem_head? (hu b hb).nonempty)]

def carried (ps : List Packet) : Octets := ps.flatMap (·.payload)

structure Pes where
  streamId : UInt8
  length : ℕ
  pts : Option ℕ
  dts : Option ℕ
  payload : Octets
  deriving DecidableEq

def readStamp (tag : ℕ) : Octets → Option ℕ
  | [a, b, c, d, e] =>
    if bits a 4 4 = tag ∧ bits a 0 1 = 1 ∧ bits c 0 1 = 1 ∧ bits e 0 1 = 1 then
      some (bits a 1 3*2^30+b.toNat*2^22+bits c 1 7*2^15+d.toNat*2^7+bits e 1 7)
    else none
  | _ => none

def readStamps (announced : ℕ) (header : Octets) : Option (Option ℕ × Option ℕ) :=
  if announced = 0 then some (none, none)
  else if announced = 2 then (readStamp 2 (header.take 5)).map (fun p => (some p, none))
  else if announced = 3 then
    (readStamp 3 (header.take 5)).bind fun p =>
      (readStamp 1 ((header.drop 5).take 5)).map (fun d => (some p, some d))
  else none

def readPes : Octets → Option Pes
  | 0::0::1::streamId::l1::l0::flags1::flags2::headerLength::rest =>
    if bits flags1 6 2 ≠ 2 ∨ bits flags2 0 6 ≠ 0 ∨ rest.length < headerLength.toNat then none
    else (readStamps (bits flags2 6 2) (rest.take headerLength.toNat)).map fun stamps =>
      { streamId := streamId
        length := l1.toNat*256+l0.toNat
        pts := stamps.1
        dts := stamps.2
        payload := rest.drop headerLength.toNat }
  | _ => none

theorem readStamps_pts {header : Octets} {p : ℕ} (hl : header.length = 5)
    (h : readStamp 2 header = some p) : readStamps 2 header = some (some p, none) := by
  simp [readStamps, List.take_of_length_le (le_of_eq hl), h]

theorem readStamps_both {first second : Octets} {p d : ℕ} (hf : first.length = 5)
    (hs : second.length = 5) (hp : readStamp 3 first = some p) (hd : readStamp 1 second = some d) :
    readStamps 3 (first ++ second) = some (some p, some d) := by
  simp [readStamps, List.take_left' hf, List.drop_left' hf, List.take_of_length_le (le_of_eq hs),
    hp, hd]

theorem readPes_header (streamId l1 l0 flags1 flags2 n : UInt8) (header payload : Octets)
    {stamps : Option ℕ × Option ℕ} (h1 : bits flags1 6 2 = 2) (h2 : bits flags2 0 6 = 0)
    (hn : header.length = n.toNat) (hs : readStamps (bits flags2 6 2) header = some stamps) :
    readPes (0::0::1::streamId::l1::l0::flags1::flags2::n::(header ++ payload)) =
      some ⟨streamId, l1.toNat*256+l0.toNat, stamps.1, stamps.2, payload⟩ := by
  simp [readPes, h1, h2, List.take_left' hn, List.drop_left' hn, hs, hn]

end RaptorCommon.TransportStream
