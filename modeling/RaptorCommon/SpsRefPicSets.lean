import RaptorCommon.SpsSyntax

/-!
# Short-term reference picture sets

The syntax of 7.3.7 and the sets it derives. A set that is predicted from the
one before has a candidate for each picture of that set and one for the
reference itself, so that its length depends on the number of pictures there.
The walk keeps that number only, and counts the candidates it keeps. The
derivation drops a candidate whose delta becomes zero.
-/

set_option autoImplicit false

namespace RaptorCommon.SpsRefPicSets
open RaptorCommon.CText RaptorCommon.StreamReader RaptorCommon.VuiReader RaptorCommon.VuiWalk
open RaptorCommon.SpsSyntax

section Syntax

structure Candidate where
  used : Bool
  useDelta : Bool

def Candidate.bits (c : Candidate) : List Bool :=
  [c.used] ++ if c.used then [] else [c.useDelta]

/-- A `use_delta_flag` that is not there is on. -/
def Candidate.retained (c : Candidate) : Bool := c.used || c.useDelta

structure Picture where
  deltaPocMinus1 : Ue
  used : Bool

def Picture.bits (p : Picture) : List Bool := ue p.deltaPocMinus1 ++ [p.used]

abbrev Pictures := {pictures : List Picture // pictures.length ≤ 64}

structure ExplicitSet where
  negative : Pictures
  positive : Pictures

def pictureCount (pictures : Pictures) : Ue := ⟨pictures.1.length, by omega⟩

def ExplicitSet.bits (s : ExplicitSet) : List Bool :=
  ue (pictureCount s.negative) ++ (ue (pictureCount s.positive) ++
    (s.negative.1.flatMap Picture.bits ++ s.positive.1.flatMap Picture.bits))

structure PredictedSet where
  deltaRpsSign : Bool
  absDeltaRpsMinus1 : Ue
  candidates : ℕ → Candidate

inductive RefPicSet where
  | explicit (s : ExplicitSet)
  | predicted (s : PredictedSet)

end Syntax

section Derivation

structure DeltaPocs where
  s0 : List ℤ
  s1 : List ℤ

def DeltaPocs.count (d : DeltaPocs) : ℕ := d.s0.length+d.s1.length

def DeltaPocs.sources (d : DeltaPocs) : List ℤ := d.s0 ++ (d.s1 ++ [0])

/-- The deltas add up, away from the current picture. -/
def summed (sign : ℤ) : ℤ → List Picture → List ℤ
  | _, [] => []
  | poc, p::pictures =>
    let delta := poc+sign*((p.deltaPocMinus1.1 : ℤ)+1)
    delta::summed sign delta pictures

def ExplicitSet.deltaPocs (s : ExplicitSet) : DeltaPocs where
  s0 := summed (-1) 0 s.negative.1
  s1 := summed 1 0 s.positive.1

def PredictedSet.deltaRps (s : PredictedSet) : ℤ :=
  (1-2*(s.deltaRpsSign.toNat : ℤ))*((s.absDeltaRpsMinus1.1 : ℤ)+1)

/-- The retained ones of the candidates from `j` on, for one side. -/
def PredictedSet.side (s : PredictedSet) (test : ℤ → Bool) : ℕ → List ℤ → List ℤ
  | _, [] => []
  | j, poc::pocs =>
    if test (poc+s.deltaRps) && (s.candidates j).retained then
      (poc+s.deltaRps)::s.side test (j+1) pocs
    else s.side test (j+1) pocs

/-- (7-61) and (7-62): on each side first the other side of the reference from
its far end, then the reference itself, then its own side. -/
def PredictedSet.deltaPocs (s : PredictedSet) (ref : DeltaPocs) : DeltaPocs where
  s0 := (s.side (· < 0) ref.s0.length ref.s1).reverse ++ (s.side (· < 0) ref.count [0] ++
    s.side (· < 0) 0 ref.s0)
  s1 := (s.side (0 < ·) 0 ref.s0).reverse ++ (s.side (0 < ·) ref.count [0] ++
    s.side (0 < ·) ref.s0.length ref.s1)

def RefPicSet.deltaPocs (ref : DeltaPocs) : RefPicSet → DeltaPocs
  | .explicit s => s.deltaPocs
  | .predicted s => s.deltaPocs ref

/-- No retained candidate falls on the current picture. -/
def PredictedSet.NoZero (s : PredictedSet) (ref : DeltaPocs) : Prop :=
  ∀ j poc, ref.sources[j]? = some poc → (s.candidates j).retained → poc+s.deltaRps ≠ 0

def RefPicSet.NoZero (ref : DeltaPocs) : RefPicSet → Prop
  | .explicit _ => True
  | .predicted s => s.NoZero ref

def NoZeros : DeltaPocs → List RefPicSet → Prop
  | _, [] => True
  | ref, s::sets => s.NoZero ref ∧ NoZeros (s.deltaPocs ref) sets

def PredictedSet.bits (s : PredictedSet) (ref : DeltaPocs) : List Bool :=
  [s.deltaRpsSign] ++ (ue s.absDeltaRpsMinus1 ++
    (List.range' 0 (ref.count+1)).flatMap fun j => (s.candidates j).bits)

def RefPicSet.bits (ref : DeltaPocs) : RefPicSet → List Bool
  | .explicit s => [false] ++ s.bits
  | .predicted s => [true] ++ s.bits ref

def laterBits : DeltaPocs → List RefPicSet → List Bool
  | _, [] => []
  | ref, s::sets => s.bits ref ++ laterBits (s.deltaPocs ref) sets

inductive ShortTermSets where
  | none
  | sets (first : ExplicitSet) (later : {sets : List RefPicSet // sets.length ≤ 63})

def ShortTermSets.bits : ShortTermSets → List Bool
  | .none => ue zeroUe
  | .sets first later =>
    ue ⟨later.1.length+1, by omega⟩ ++ (first.bits ++ laterBits first.deltaPocs later.1)

def ShortTermSets.NoZeros : ShortTermSets → Prop
  | .none => True
  | .sets first later => SpsRefPicSets.NoZeros first.deltaPocs later.1

end Derivation

section Counts

variable {s : PredictedSet}

def PredictedSet.stays (s : PredictedSet) (poc : ℤ) (j : ℕ) : Bool :=
  (s.candidates j).retained && decide (poc+s.deltaRps ≠ 0)

theorem side_counts (j : ℕ) (pocs : List ℤ) :
    (s.side (· < 0) j pocs).length+(s.side (0 < ·) j pocs).length =
      (pocs.zipIdx j).countP fun c => s.stays c.1 c.2 := by
  induction pocs generalizing j with
  | nil => rfl
  | cons poc pocs ih =>
    rw [PredictedSet.side, PredictedSet.side, List.zipIdx_cons, List.countP_cons, ← ih (j+1)]
    unfold PredictedSet.stays
    cases (s.candidates j).retained with
    | false => simp
    | true =>
      rcases lt_trichotomy (poc+s.deltaRps) 0 with hneg | hzero | hpos
      · simp only [hneg, not_lt.mpr hneg.le, hneg.ne, decide_true, decide_false, Bool.true_and,
          Bool.false_and, if_true, Bool.false_eq_true, if_false, List.length_cons, ne_eq,
          not_false_eq_true]
        omega
      · simp [hzero]
      · simp only [hpos, not_lt.mpr hpos.le, hpos.ne', decide_true, decide_false, Bool.true_and,
          Bool.false_and, if_true, Bool.false_eq_true, if_false, List.length_cons, ne_eq,
          not_false_eq_true]
        omega

theorem predicted_stays (s : PredictedSet) (ref : DeltaPocs) :
    (s.deltaPocs ref).count = ref.sources.zipIdx.countP fun c => s.stays c.1 c.2 := by
  have h0 := side_counts (s := s) 0 ref.s0
  have h1 := side_counts (s := s) ref.s0.length ref.s1
  have hself := side_counts (s := s) ref.count [0]
  rw [DeltaPocs.sources, List.zipIdx_append, List.zipIdx_append, Nat.zero_add, ← DeltaPocs.count,
    List.countP_append, List.countP_append, ← h0, ← h1, ← hself]
  simp only [PredictedSet.deltaPocs, DeltaPocs.count, List.length_append, List.length_reverse]
  omega

def PredictedSet.kept (s : PredictedSet) (ref : DeltaPocs) : ℕ :=
  (List.range' 0 (ref.count+1)).countP fun j => (s.candidates j).retained

theorem sources_length (ref : DeltaPocs) : ref.sources.length = ref.count+1 := by
  rw [DeltaPocs.sources, List.length_append, List.length_append, List.length_singleton,
    ← Nat.add_assoc, DeltaPocs.count]

/-- The walk's count is the derived one just where no candidate that is
retained falls on the current picture. -/
theorem kept_count_iff (s : PredictedSet) (ref : DeltaPocs) :
    s.kept ref = (s.deltaPocs ref).count ↔ s.NoZero ref := by
  have hkept : s.kept ref =
      (ref.sources.zipIdx.filter fun c => (s.candidates c.2).retained).length := by
    rw [PredictedSet.kept, ← sources_length, ← List.zipIdx_map_snd, List.countP_map,
      List.countP_eq_length_filter]
    rfl
  have hstays : (s.deltaPocs ref).count =
      (ref.sources.zipIdx.filter fun c => (s.candidates c.2).retained).countP
        fun c => decide (c.1+s.deltaRps ≠ 0) := by
    rw [predicted_stays, List.countP_filter]
    apply List.countP_congr
    intro c _
    rw [PredictedSet.stays, Bool.and_comm]
  rw [hkept, hstays, eq_comm, List.countP_eq_length]
  constructor
  · intro h j poc hpoc hkept
    have hmem := List.mk_mem_zipIdx_iff_getElem?.mpr hpoc
    simpa using h (poc, j) (List.mem_filter.mpr ⟨hmem, hkept⟩)
  · intro h c hc
    obtain ⟨hmem, hkept⟩ := List.mem_filter.mp hc
    simpa using h c.2 c.1 (List.mem_zipIdx_iff_getElem?.mp hmem) hkept

theorem summed_length (sign poc : ℤ) (pictures : List Picture) :
    (summed sign poc pictures).length = pictures.length := by
  induction pictures generalizing poc with
  | nil => rfl
  | cons p pictures ih => rw [summed, List.length_cons, ih, List.length_cons]

theorem explicit_count (s : ExplicitSet) :
    s.deltaPocs.count = s.negative.1.length+s.positive.1.length := by
  rw [DeltaPocs.count, ExplicitSet.deltaPocs, summed_length, summed_length]

end Counts

section Walk

variable (shift32 : UInt32)

theorem reads_candidates (candidates : ℕ → Candidate) (j n kept : ℕ) :
    Reads stream ((List.range' j n).flatMap fun j => (candidates j).bits)
      (kept+(List.range' j n).countP fun j => (candidates j).retained)
      (keptCandidates n kept) := by
  induction n generalizing j kept with
  | zero => exact reads_pure
  | succ n ih =>
    rw [List.range'_succ, List.flatMap_cons, List.countP_cons, Candidate.bits, List.append_assoc]
    have hrest := ih (j+1) (if (candidates j).retained then kept+1 else kept)
    have hsum : (if (candidates j).retained then kept+1 else kept)+
        ((List.range' (j+1) n).countP fun j => (candidates j).retained) =
        kept+(((List.range' (j+1) n).countP fun j => (candidates j).retained)+
          if (candidates j).retained then 1 else 0) := by
      split <;> omega
    rw [hsum] at hrest
    apply reads_bind (reads_flag (candidates j).used)
    unfold Candidate.retained at hrest ⊢
    cases hused : (candidates j).used with
    | true =>
      rw [hused] at hrest
      exact reads_bind reads_pure hrest
    | false =>
      rw [hused] at hrest
      exact reads_bind (reads_flag (candidates j).useDelta) hrest

theorem reads_pictures (pictures : List Picture) :
    Reads stream (pictures.flatMap Picture.bits) ()
      (loop (fun _ => deltaPoc shift32) 0 pictures.length) := by
  apply reads_items
  intro p _
  exact reads_then (reads_ue_skipped shift32 p.deltaPocMinus1) (reads_skip_flag p.used)

theorem reads_explicit (s : ExplicitSet) :
    Reads stream s.bits s.deltaPocs.count (explicitSet shift32) := by
  have hneg := s.negative.2
  have hpos := s.positive.2
  have hnat : ∀ k ≤ 128, (UInt32.ofNat k).toNat = k := by
    intro k hk
    rw [UInt32.toNat_ofNat', Nat.mod_eq_of_lt (by omega)]
  have hlong : ∀ k ≤ 64, ¬64 < UInt32.ofNat k := by
    intro k hk
    rw [UInt32.lt_iff_toNat_lt, hnat k (by omega)]
    exact not_lt.mpr hk
  apply reads_bind (reads_ue_value shift32 (pictureCount s.negative))
  apply reads_bind (reads_ue_value shift32 (pictureCount s.positive))
  show Reads stream _ _ (if 64 < UInt32.ofNat s.negative.1.length ∨
    64 < UInt32.ofNat s.positive.1.length then _ else _)
  rw [if_neg (by simp only [hlong _ hneg, hlong _ hpos, or_self, not_false_eq_true])]
  have hsum : (UInt32.ofNat s.negative.1.length+UInt32.ofNat s.positive.1.length).toNat =
      s.deltaPocs.count := by
    rw [UInt32.toNat_add, hnat _ (by omega), hnat _ (by omega), explicit_count]
    omega
  have htext : s.negative.1.flatMap Picture.bits ++ s.positive.1.flatMap Picture.bits =
      s.negative.1.flatMap Picture.bits ++ (s.positive.1.flatMap Picture.bits ++ []) := by
    rw [List.append_nil]
  rw [htext]
  apply reads_then
  · show Reads stream _ () (loop _ 0 (UInt32.ofNat s.negative.1.length).toNat)
    rw [hnat _ (by omega)]
    exact reads_pictures shift32 s.negative.1
  apply reads_then
  · show Reads stream _ () (loop _ 0 (UInt32.ofNat s.positive.1.length).toNat)
    rw [hnat _ (by omega)]
    exact reads_pictures shift32 s.positive.1
  have hpure := reads_pure (S := stream) (ε := Stop) (a := s.deltaPocs.count)
  rw [← hsum] at hpure ⊢
  exact hpure

theorem reads_kept (s : PredictedSet) (ref : DeltaPocs) :
    Reads stream (s.bits ref) (s.kept ref) (do
      skipBits 1
      skipUe shift32
      keptCandidates (ref.count+1) 0) := by
  have hkept := reads_candidates s.candidates 0 (ref.count+1) 0
  rw [Nat.zero_add] at hkept
  apply reads_then (reads_skip_flag s.deltaRpsSign)
  exact reads_then (reads_ue_skipped shift32 s.absDeltaRpsMinus1) hkept

theorem reads_counted {xs : List Bool} {count : ℕ} {p : Walk ℕ} (h : Reads stream xs count p)
    (idx : ℕ) (numDeltaPocs : ℕ → ℕ) :
    Reads stream xs (Function.update numDeltaPocs idx count) (do
      let count ← p
      fun b : VuiBits => if b.overflow then .error Stop.bad
        else .ok (Function.update numDeltaPocs idx count, b)) := by
  rw [← List.append_nil xs]
  apply reads_bind h
  intro b tail hb _
  dsimp only
  rw [hb.1, List.length_nil, stream.skip_zero]
  rfl

theorem reads_first (s : ExplicitSet) (numDeltaPocs : ℕ → ℕ) :
    Reads stream s.bits (Function.update numDeltaPocs 0 s.deltaPocs.count)
      (h265StRefPicSet shift32 0 numDeltaPocs) := by
  have hset := reads_counted (reads_explicit shift32 s) 0 numDeltaPocs
  rw [← List.nil_append s.bits]
  exact reads_bind reads_pure hset

def RefPicSet.kept (ref : DeltaPocs) : RefPicSet → ℕ
  | .explicit s => s.deltaPocs.count
  | .predicted s => s.kept ref

theorem set_kept_iff (s : RefPicSet) (ref : DeltaPocs) :
    s.kept ref = (s.deltaPocs ref).count ↔ s.NoZero ref := by
  cases s with
  | explicit s => exact iff_of_true rfl trivial
  | predicted s => exact kept_count_iff s ref

/-- A set is read to its end whether or not its count comes out right. -/
theorem reads_set (s : RefPicSet) {ref : DeltaPocs} {idx : ℕ} {numDeltaPocs : ℕ → ℕ}
    (hidx : idx ≠ 0) (hcount : numDeltaPocs (idx-1) = ref.count) :
    Reads stream (s.bits ref) (Function.update numDeltaPocs idx (s.kept ref))
      (h265StRefPicSet shift32 idx numDeltaPocs) := by
  unfold h265StRefPicSet
  rw [if_pos hidx, hcount]
  cases s with
  | explicit s =>
    have hset := reads_counted (reads_explicit shift32 s) idx numDeltaPocs
    exact reads_bind (reads_flag false) hset
  | predicted s =>
    have hset := reads_counted (reads_kept shift32 s ref) idx numDeltaPocs
    simp only [bind_assoc] at hset
    exact reads_bind (reads_flag true) hset

theorem reads_later {sets : List RefPicSet} {ref : DeltaPocs} {idx : ℕ} {numDeltaPocs : ℕ → ℕ}
    (h : NoZeros ref sets) (hidx : idx ≠ 0) (hcount : numDeltaPocs (idx-1) = ref.count) :
    Reads stream (laterBits ref sets) () (stRefPicSets shift32 idx sets.length numDeltaPocs) := by
  induction sets generalizing ref idx numDeltaPocs with
  | nil => exact reads_pure
  | cons s sets ih =>
    apply reads_bind (reads_set shift32 s hidx hcount)
    apply ih h.2 (by omega)
    rw [Nat.add_sub_cancel, Function.update_self]
    exact (set_kept_iff s ref).mpr h.1

theorem reads_short_term {sets : ShortTermSets} (h : sets.NoZeros) :
    Reads stream sets.bits () (shortTermSets shift32) := by
  cases sets with
  | none =>
    have hnone := reads_bind (reads_ue_value shift32 zeroUe)
      (f := fun n => if 64 < n then throw .bad else stRefPicSets shift32 0 n.toNat fun _ => 0)
      (reads_pure (a := ()))
    rw [List.append_nil] at hnone
    exact hnone
  | sets first later =>
    have hlen := later.2
    have hn : (UInt32.ofNat (later.1.length+1)).toNat = later.1.length+1 := by
      rw [UInt32.toNat_ofNat', Nat.mod_eq_of_lt (by omega)]
    have hfew : ¬64 < UInt32.ofNat (later.1.length+1) := by
      rw [UInt32.lt_iff_toNat_lt, hn]
      show ¬64 < later.1.length+1
      omega
    apply reads_bind (reads_ue_value shift32 _)
    show Reads stream _ () (if 64 < UInt32.ofNat (later.1.length+1) then _ else
      stRefPicSets shift32 0 (UInt32.ofNat (later.1.length+1)).toNat fun _ => 0)
    rw [if_neg hfew, hn]
    apply reads_bind (reads_first shift32 first _)
    apply reads_later shift32 h (by omega)
    exact Function.update_self _ _ _

end Walk

end RaptorCommon.SpsRefPicSets
