import RaptorCommon.SpsRefPicSets

/-!
# The array of the counts

After each short-term reference picture set the array `num_delta_pocs` has an
entry more. The walk counts every candidate that is retained, so an entry is
NumDeltaPocs of its set just where no such candidate falls on the current
picture, and from the first wrong entry on the sets behind it are misread.
-/

set_option autoImplicit false

namespace RaptorCommon.SpsPocCounts
open RaptorCommon.CText RaptorCommon.StreamReader RaptorCommon.VuiReader RaptorCommon.VuiWalk
open RaptorCommon.SpsSyntax RaptorCommon.SpsRefPicSets

section Parsing

variable (shift32 : UInt32)

/-- The first `n` rounds of the loop over the sets, with the array they leave. -/
def countedSets : ℕ → ℕ → (ℕ → ℕ) → Walk (ℕ → ℕ)
  | _, 0, numDeltaPocs => pure numDeltaPocs
  | idx, n+1, numDeltaPocs => do
    let numDeltaPocs ← h265StRefPicSet shift32 idx numDeltaPocs
    countedSets (idx+1) n numDeltaPocs

theorem sets_counted (idx n : ℕ) (numDeltaPocs : ℕ → ℕ) :
    stRefPicSets shift32 idx n numDeltaPocs =
      (do
        let _ ← countedSets shift32 idx n numDeltaPocs
        pure ()) := by
  induction n generalizing idx numDeltaPocs with
  | zero => rfl
  | succ n ih =>
    rw [stRefPicSets, countedSets, bind_assoc]
    exact congrArg _ (funext fun array => ih (idx+1) array)

end Parsing

section Counts

variable (shift32 : UInt32)

def coded : DeltaPocs → List RefPicSet → List (List Bool × ℕ)
  | _, [] => []
  | ref, s::sets => (s.bits ref, (s.deltaPocs ref).count)::coded (s.deltaPocs ref) sets

def texts (pieces : List (List Bool × ℕ)) : List Bool := pieces.flatMap Prod.fst

theorem texts_coded (ref : DeltaPocs) (sets : List RefPicSet) :
    texts (coded ref sets) = laterBits ref sets := by
  induction sets generalizing ref with
  | nil => rfl
  | cons s sets ih =>
    show s.bits ref ++ texts (coded (s.deltaPocs ref) sets) = _
    rw [ih, laterBits]

/-- The walk behind set `n` of these: the reader stands at the set's end, and
the array's new entry is the set's NumDeltaPocs. -/
def CountedAt (idx : ℕ) (numDeltaPocs : ℕ → ℕ) (b : VuiBits) (pieces : List (List Bool × ℕ))
    (n : ℕ) : Prop :=
  ∃ array, countedSets shift32 idx (n+1) numDeltaPocs b =
      .ok (array, stream.skip (texts (pieces.take (n+1))).length b) ∧
    (pieces[n]?).map Prod.snd = some (array (idx+n))

theorem counted_succ {idx : ℕ} {numDeltaPocs array : ℕ → ℕ} {b : VuiBits}
    (piece : List Bool × ℕ) (pieces : List (List Bool × ℕ)) (n : ℕ)
    (h : h265StRefPicSet shift32 idx numDeltaPocs b =
      .ok (array, stream.skip piece.1.length b)) :
    CountedAt shift32 idx numDeltaPocs b (piece::pieces) (n+1) ↔
      CountedAt shift32 (idx+1) array (stream.skip piece.1.length b) pieces n := by
  have htext : (texts ((piece::pieces).take (n+1+1))).length =
      piece.1.length+(texts (pieces.take (n+1))).length := by
    rw [List.take_succ_cons, texts, List.flatMap_cons, List.length_append]
    rfl
  unfold CountedAt
  rw [countedSets, bind_run h, htext, ← stream.skip_skip, List.getElem?_cons_succ,
    Nat.add_right_comm idx 1 n, Nat.add_assoc idx n 1]

theorem counted_zero {idx : ℕ} {numDeltaPocs : ℕ → ℕ} {b : VuiBits} {count : ℕ}
    (piece : List Bool × ℕ) (pieces : List (List Bool × ℕ))
    (h : h265StRefPicSet shift32 idx numDeltaPocs b =
      .ok (Function.update numDeltaPocs idx count, stream.skip piece.1.length b)) :
    CountedAt shift32 idx numDeltaPocs b (piece::pieces) 0 ↔ count = piece.2 := by
  have hrun : countedSets shift32 idx (0+1) numDeltaPocs b =
      .ok (Function.update numDeltaPocs idx count, stream.skip piece.1.length b) := by
    rw [countedSets, bind_run h]
    rfl
  have htext : texts ((piece::pieces).take (0+1)) = piece.1 := by
    simp [texts]
  unfold CountedAt
  rw [hrun, htext]
  constructor
  · rintro ⟨array, hrun, hcount⟩
    cases hrun
    simpa using hcount.symm
  · intro hcount
    exact ⟨_, rfl, by simp [hcount]⟩

/-- The sets after the first: the induction is on the list, and as long as the
entries are right the reader is in front of the next set. -/
theorem later_counted_iff (sets : List RefPicSet) (ref : DeltaPocs) (idx : ℕ)
    (numDeltaPocs : ℕ → ℕ) (b : VuiBits) (tail : List Bool) (hb : stream.Fit b)
    (h : stream.rest b = laterBits ref sets ++ tail) (hidx : idx ≠ 0)
    (hcount : numDeltaPocs (idx-1) = ref.count) :
    (∀ n < sets.length, CountedAt shift32 idx numDeltaPocs b (coded ref sets) n) ↔
      NoZeros ref sets := by
  induction sets generalizing ref idx numDeltaPocs b with
  | nil => simp [NoZeros]
  | cons s sets ih =>
    rw [laterBits, List.append_assoc] at h
    have hset := reads_set shift32 s hidx hcount b _ hb h
    have hzero := counted_zero shift32 (s.bits ref, (s.deltaPocs ref).count)
      (coded (s.deltaPocs ref) sets) hset
    have hsucc := fun n => counted_succ shift32 (s.bits ref, (s.deltaPocs ref).count)
      (coded (s.deltaPocs ref) sets) n hset
    have hrest := ih (s.deltaPocs ref) (idx+1)
      (Function.update numDeltaPocs idx (s.kept ref)) _ (fit_ahead hb h) (rest_ahead h) (by omega)
    have hentry : s.kept ref = (s.deltaPocs ref).count →
        Function.update numDeltaPocs idx (s.kept ref) (idx+1-1) = (s.deltaPocs ref).count := by
      intro hright
      rw [Nat.add_sub_cancel, Function.update_self, hright]
    constructor
    · intro hall
      have hright := hzero.mp (hall 0 (by simp))
      refine ⟨(set_kept_iff s ref).mp hright, (hrest (hentry hright)).mp ?_⟩
      intro n hn
      exact (hsucc n).mp (hall (n+1) (by simpa using hn))
    · rintro ⟨hnone, hlater⟩ n hn
      have hright := (set_kept_iff s ref).mpr hnone
      cases n with
      | zero => exact hzero.mpr hright
      | succ n =>
        apply (hsucc n).mpr
        exact (hrest (hentry hright)).mpr hlater n (by simpa using hn)

def derivedSets (first : ExplicitSet) (later : List RefPicSet) : List (List Bool × ℕ) :=
  (first.bits, first.deltaPocs.count)::coded first.deltaPocs later

/-- The array has NumDeltaPocs of every set, and the reader is behind the set
each time, exactly when no candidate that a predicted set retains falls on the
current picture. -/
theorem counts_right_iff (first : ExplicitSet)
    (later : {sets : List RefPicSet // sets.length ≤ 63}) (b : VuiBits) (tail : List Bool)
    (hb : stream.Fit b)
    (h : stream.rest b = first.bits ++ (laterBits first.deltaPocs later.1 ++ tail)) :
    (∀ n ≤ later.1.length,
      CountedAt shift32 0 (fun _ => 0) b (derivedSets first later.1) n) ↔
      NoZeros first.deltaPocs later.1 := by
  have hset := reads_first shift32 first (fun _ => 0) b _ hb h
  have hzero := counted_zero shift32 (first.bits, first.deltaPocs.count)
    (coded first.deltaPocs later.1) hset
  have hsucc := fun n => counted_succ shift32 (first.bits, first.deltaPocs.count)
    (coded first.deltaPocs later.1) n hset
  have hlater := later_counted_iff shift32 later.1 first.deltaPocs (0+1)
    (Function.update (fun _ => 0) 0 first.deltaPocs.count) _ tail (fit_ahead hb h) (rest_ahead h)
    (by decide) (Function.update_self ..)
  rw [← hlater, derivedSets]
  constructor
  · intro hall n hn
    rw [← hsucc]
    exact hall (n+1) hn
  · intro hall n hn
    cases n with
    | zero => exact hzero.mpr rfl
    | succ n =>
      rw [hsucc]
      exact hall n hn

end Counts

section Samples

def previousOnly : ExplicitSet where
  negative := ⟨[⟨zeroUe, true⟩], Nat.succ_le_succ (Nat.zero_le 63)⟩
  positive := ⟨[], Nat.zero_le 64⟩

def allKept (back : Bool) : RefPicSet := .predicted
  { deltaRpsSign := back
    absDeltaRpsMinus1 := zeroUe
    candidates := fun _ => ⟨true, false⟩ }

theorem back_clear : NoZeros previousOnly.deltaPocs [allKept true] := by
  refine ⟨?_, trivial⟩
  intro j poc hpoc _ hzero
  have hmem : poc ∈ [-1, (0 : ℤ)] := List.mem_of_getElem? hpoc
  have hback : poc+(-1) = 0 := hzero
  simp only [List.mem_cons, List.not_mem_nil, or_false] at hmem
  omega

/-- One picture further back both candidates stay. -/
theorem counts_right_iff_back :
    CountedAt 0 0 (fun _ => 0) (bitReader [0x5F, 0xFF])
        (derivedSets previousOnly [allKept true]) 0 ∧
      CountedAt 0 0 (fun _ => 0) (bitReader [0x5F, 0xFF])
        (derivedSets previousOnly [allKept true]) 1 := by
  have hall := (counts_right_iff 0 previousOnly ⟨[allKept true], by decide⟩
    (bitReader [0x5F, 0xFF]) (List.replicate 5 true) ⟨rfl, rfl, by decide, by decide⟩
    (by decide)).mpr back_clear
  exact ⟨hall 0 (by decide), hall 1 (by decide)⟩

/-- One picture further on the first candidate falls on the current picture:
the walk counts two, and the set has one. -/
theorem forward_miscounted :
    stream.rest (bitReader [0x5E, 0xFF]) =
        texts (derivedSets previousOnly [allKept false]) ++ List.replicate 5 true ∧
      ¬∀ n ≤ 1, CountedAt 0 0 (fun _ => 0) (bitReader [0x5E, 0xFF])
        (derivedSets previousOnly [allKept false]) n := by
  refine ⟨by decide, ?_⟩
  intro h
  obtain ⟨array, hrun, hcount⟩ := h 1 le_rfl
  have hentry : (countedSets 0 0 2 (fun _ => 0) (bitReader [0x5E, 0xFF])).map (fun r => r.1 1) =
      .ok 2 := by rfl
  have hone : (derivedSets previousOnly [allKept false])[1]?.map Prod.snd = some 1 := by
    decide
  rw [hrun] at hentry
  rw [hone] at hcount
  have htwo : array 1 = 2 := Except.ok.inj hentry
  have hwrong : array 1 = 1 := (Option.some.inj hcount).symm
  omega

end Samples

end RaptorCommon.SpsPocCounts
