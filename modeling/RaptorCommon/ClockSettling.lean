import RaptorCommon.MediaWindow
import RaptorCommon.StepSystem

/-!
# The clock loop settles

With a constant target the loop has two numbers, the filtered error and how
far the error is ahead of it. The loop overshoots, so neither goes down by
itself. A form in both goes down at every step outside a small square, in the
range where the slew is limited too; inside it the finitely many states are run
to their end.
-/

set_option autoImplicit false

namespace RaptorCommon.ClockSettling
open RaptorCommon.MediaClock RaptorCommon.RingWindow RaptorCommon.StepSystem

/-- The state of the loop: the lead of the error over the filter, and the filter. -/
structure Loop where
  lead : ℤ
  ewma : ℤ
  deriving DecidableEq

def level (w : ℤ) : ℤ := max (-16000) (min 16000 w)

def slew (w : ℤ) : ℤ := clampSlew (w.tdiv gainDiv)

def Loop.follow (p : Loop) : Loop where
  lead := p.lead-p.lead.tdiv ewmaDiv-slew (p.ewma+p.lead.tdiv ewmaDiv)
  ewma := p.ewma+p.lead.tdiv ewmaDiv

/-- The form that goes down. Its last term is the sum of the levels below the
filter, twice. -/
def Loop.measure (p : Loop) : ℤ :=
  16*p.lead^2+17*p.lead*level p.ewma+16*(level p.ewma*(2*p.ewma-level p.ewma))

section Division

theorem tdiv_bounds (x : ℤ) :
    (0 ≤ x.tdiv 16 ∧ 16*x.tdiv 16 ≤ x ∧ x ≤ 16*x.tdiv 16+15) ∨
      (x.tdiv 16 ≤ 0 ∧ 16*x.tdiv 16-15 ≤ x ∧ x ≤ 16*x.tdiv 16) := by
  rcases le_total 0 x with h | h
  · rw [Int.tdiv_eq_ediv_of_nonneg h]
    omega
  · have hneg : x.tdiv 16 = -((-x)/16) := by
      rw [← Int.tdiv_eq_ediv_of_nonneg (by omega), Int.neg_tdiv, neg_neg]
    rw [hneg]
    omega

theorem tdiv_parts (x : ℤ) : ∃ r, x = 16*x.tdiv 16+r ∧ |r| ≤ 15 ∧ 0 ≤ r*x.tdiv 16 := by
  refine ⟨x-16*x.tdiv 16, by ring, ?_⟩
  rw [abs_le]
  rcases tdiv_bounds x with ⟨ht, hl, hu⟩ | ⟨ht, hl, hu⟩
  · exact ⟨by omega, mul_nonneg (by omega) ht⟩
  · exact ⟨by omega, mul_nonneg_of_nonpos_of_nonpos (by omega) ht⟩

theorem slew_level (w : ℤ) : slew w = (level w).tdiv 16 := by
  have hw := tdiv_bounds w
  have hl := tdiv_bounds (level w)
  unfold slew clampSlew slewMaxUs gainDiv
  unfold level at hl ⊢
  split_ifs <;> omega

theorem slew_le (w : ℤ) : |slew w| ≤ 1000 := by
  unfold slew clampSlew slewMaxUs
  rw [abs_le]
  split_ifs <;> omega

theorem level_follows (w d : ℤ) :
    (0 ≤ level (w+d)-level w ∧ level (w+d)-level w ≤ d) ∨
      (level (w+d)-level w ≤ 0 ∧ d ≤ level (w+d)-level w) := by
  unfold level
  omega

theorem level_convex (w w' : ℤ) :
    level w'*(2*w'-level w')-level w*(2*w-level w) ≤
      2*level w'*(w'-w)-(level w'-level w)^2 := by
  have hside : (level w'-level w)*(w-level w) ≤ 0 := by
    rcases lt_trichotomy w (level w) with h | h | h
    · apply mul_nonpos_of_nonneg_of_nonpos
      · unfold level at h ⊢
        omega
      · omega
    · rw [← h, sub_self, mul_zero]
    · apply mul_nonpos_of_nonpos_of_nonneg
      · unfold level at h ⊢
        omega
      · omega
  nlinarith

end Division

section Descent

theorem drop_bound (d s : ℤ) (h : 4 ≤ |s| ∨ 3 ≤ |d|) :
    -240*d^2-240*(s*d)-256*s^2+480*|s|+225*|d| < 0 := by
  have hcross : -(s*d) ≤ |s| * |d| := by
    rw [← abs_mul]
    exact neg_le_abs (s*d)
  rw [← sq_abs d, ← sq_abs s]
  have hs := abs_nonneg s
  have hd := abs_nonneg d
  generalize |s| = b at *
  generalize |d| = a at *
  generalize s*d = c at *
  rcases h with hb | ha
  · have hsquare := sq_nonneg (480*a-240*b-225)
    nlinarith
  · have hsquare := sq_nonneg (512*b-240*a-480)
    nlinarith

/-- What one step does to the form: `d` moves the filter, `s` the error, `δ` the
level, and `r` and `q` are what the two divisions leave. -/
theorem step_bound (d s r q δ : ℤ) (hr : |r| ≤ 15) (hrd : 0 ≤ r*d) (hq : |q| ≤ 15)
    (hqs : 0 ≤ q*s) (hδ : (0 ≤ δ ∧ δ ≤ d) ∨ (δ ≤ 0 ∧ d ≤ δ)) :
    16*((16*d+r-d-s)^2-(16*d+r)^2)+
        17*((16*d+r-d-s)*(16*s+q)-(16*d+r)*(16*s+q-δ))+16*(2*(16*s+q)*d-δ^2) ≤
      -240*d^2-240*(s*d)-256*s^2+480*|s|+225*|d| := by
  have hlevel : 0 ≤ (d-δ)*(16*d-δ) := by
    rcases hδ with ⟨h0, hd⟩ | ⟨h0, hd⟩
    · exact mul_nonneg (by omega) (by omega)
    · exact mul_nonneg_of_nonpos_of_nonpos (by omega) (by omega)
  have hlead : 0 ≤ r*(d-δ) := by
    rcases hδ with ⟨h0, hd⟩ | ⟨h0, hd⟩
    · rcases eq_or_lt_of_le (h0.trans hd) with hz | hpos
      · rw [show d-δ = 0 by omega, mul_zero]
      · exact mul_nonneg (nonneg_of_mul_nonneg_left hrd hpos) (by omega)
    · rcases eq_or_lt_of_le (hd.trans h0) with hz | hneg
      · rw [show d-δ = 0 by omega, mul_zero]
      · exact mul_nonneg_of_nonpos_of_nonpos (by nlinarith) (by omega)
  have hrs : -(r*s) ≤ 15*|s| := by
    have habs := neg_le_abs (r*s)
    rw [abs_mul] at habs
    exact habs.trans (mul_le_mul_of_nonneg_right hr (abs_nonneg s))
  have hqd : q*d ≤ 15*|d| := by
    have habs := le_abs_self (q*d)
    rw [abs_mul] at habs
    exact habs.trans (mul_le_mul_of_nonneg_right hq (abs_nonneg d))
  linarith

theorem small_step (d s r q : ℤ) (hd : |d| ≤ 2) (hs : |s| ≤ 3) (hmoves : d ≠ 0 ∨ s ≤ -2 ∨ 2 ≤ s)
    (hr : |r| ≤ 15) (hrd : 0 ≤ r*d) (hq : |q| ≤ 15) (hqs : 0 ≤ q*s) :
    16*((16*d+r-d-s)^2-(16*d+r)^2)+
        17*((16*d+r-d-s)*(16*s+q)-(16*d+r)*(16*s+q-d))+16*(2*(16*s+q)*d-d^2) < 0 := by
  obtain ⟨hr1, hr2⟩ := abs_le.mp hr
  obtain ⟨hq1, hq2⟩ := abs_le.mp hq
  obtain ⟨hd1, hd2⟩ := abs_le.mp hd
  obtain ⟨hs1, hs2⟩ := abs_le.mp hs
  have hform : 16*((16*d+r-d-s)^2-(16*d+r)^2)+
      17*((16*d+r-d-s)*(16*s+q)-(16*d+r)*(16*s+q-d))+16*(2*(16*s+q)*d-d^2) =
      -240*d^2-240*(s*d)-256*s^2-32*(r*s)-15*(r*d)+15*(q*d)-17*(q*s) := by ring
  rw [hform]
  clear hform hr hq hd hs
  interval_cases d <;> interval_cases s <;> omega

/-- The form goes down unless the filter stays and the error moves by at most one. -/
theorem measure_drop (p : Loop) (h : p.lead.tdiv 16 ≠ 0 ∨
    slew p.follow.ewma ≤ -2 ∨ 2 ≤ slew p.follow.ewma) :
    p.follow.measure < p.measure := by
  obtain ⟨r, hlead, hr, hrd⟩ := tdiv_parts p.lead
  obtain ⟨q, hlevel, hq, hqs⟩ := tdiv_parts (level p.follow.ewma)
  rw [← slew_level] at hlevel hqs
  have hδ := level_follows p.ewma (p.lead.tdiv 16)
  have hconvex := level_convex p.ewma p.follow.ewma
  have hmoved : p.follow.ewma-p.ewma = p.lead.tdiv 16 := add_sub_cancel_left ..
  have hled : p.follow.lead = p.lead-p.lead.tdiv 16-slew p.follow.ewma := rfl
  have hstep : 16*((p.lead-p.lead.tdiv 16-slew p.follow.ewma)^2-p.lead^2)+
      17*((p.lead-p.lead.tdiv 16-slew p.follow.ewma)*level p.follow.ewma-
        p.lead*level p.ewma)+
      16*(2*level p.follow.ewma*p.lead.tdiv 16-(level p.follow.ewma-level p.ewma)^2) < 0 := by
    by_cases hfar : 4 ≤ |slew p.follow.ewma| ∨ 3 ≤ |p.lead.tdiv 16|
    · have hdrop := drop_bound (p.lead.tdiv 16) (slew p.follow.ewma) hfar
      have hbound := step_bound (p.lead.tdiv 16) (slew p.follow.ewma) r q
        (level p.follow.ewma-level p.ewma) hr hrd hq hqs hδ
      rw [← hlead, ← hlevel, sub_sub_cancel] at hbound
      exact lt_of_le_of_lt hbound hdrop
    · have hd : |p.lead.tdiv 16| ≤ 2 := by omega
      have hs : |slew p.follow.ewma| ≤ 3 := by omega
      have hsame : level p.follow.ewma-p.lead.tdiv 16 = level p.ewma := by
        rw [abs_le] at hd hs hq
        unfold level at hlevel ⊢
        omega
      have hbound := small_step (p.lead.tdiv 16) (slew p.follow.ewma) r q hd hs h hr hrd hq hqs
      rw [← hlead, ← hlevel, hsame] at hbound
      rwa [← hsame, sub_sub_cancel, hsame]
  rw [hmoved] at hconvex
  unfold Loop.measure
  rw [hled]
  linarith

theorem measure_nonneg (p : Loop) : 0 ≤ p.measure := by
  have hlevel : 0 ≤ level p.ewma*(p.ewma-level p.ewma) := by
    unfold level
    rcases le_total 0 p.ewma with h | h
    · exact mul_nonneg (by omega) (by omega)
    · exact mul_nonneg_of_nonpos_of_nonpos (by omega) (by omega)
  have hsquare := sq_nonneg (p.lead+level p.ewma)
  have hlead := sq_nonneg p.lead
  have hsum := sq_nonneg (level p.ewma)
  unfold Loop.measure
  nlinarith

end Descent

section Ending

def Loop.Settled (p : Loop) : Prop := p.follow = p

instance (p : Loop) : Decidable p.Settled := inferInstanceAs (Decidable (_ = _))

/-- Whether one of the next states is settled or has a smaller form. -/
def Loop.lower (bound : ℤ) : ℕ → Loop → Bool
  | 0, _ => false
  | n+1, p => p.follow.Settled || p.follow.measure < bound || p.follow.lower bound n

theorem lower_later {bound : ℤ} {n : ℕ} {p : Loop} (h : p.lower bound n = true) :
    ∃ k, (Loop.follow^[k] p).Settled ∨ (Loop.follow^[k] p).measure < bound := by
  induction n generalizing p with
  | zero => cases h
  | succ n ih =>
    rw [Loop.lower, Bool.or_eq_true, Bool.or_eq_true, decide_eq_true_iff, decide_eq_true_iff] at h
    rcases h with (hdone | hless) | hrest
    · exact ⟨1, Or.inl hdone⟩
    · exact ⟨1, Or.inr hless⟩
    · obtain ⟨k, hk⟩ := ih hrest
      exact ⟨k+1, hk⟩

theorem near_target : ∀ i : Fin 31, ∀ j : Fin 16,
    (Loop.mk ((i.val : ℤ)-15) ((j.val : ℤ)+16)).lower
        (Loop.mk ((i.val : ℤ)-15) ((j.val : ℤ)+16)).measure 10 = true ∧
      (Loop.mk ((i.val : ℤ)-15) (-(j.val : ℤ)-16)).lower
        (Loop.mk ((i.val : ℤ)-15) (-(j.val : ℤ)-16)).measure 10 = true := by
  decide +kernel

/-- Near the target every state is settled or falls in its form soon. -/
theorem near_lower (p : Loop) (hd : p.lead.tdiv 16 = 0) (hs : |slew p.ewma| ≤ 1) :
    p.Settled ∨ p.lower p.measure 10 = true := by
  have hlead := tdiv_bounds p.lead
  have hlevel := tdiv_bounds (level p.ewma)
  have hstep : p.follow = ⟨p.lead-slew p.ewma, p.ewma⟩ := by
    simp only [Loop.follow, ewmaDiv, hd, sub_zero, add_zero]
  rw [hd] at hlead
  rw [← slew_level] at hlevel
  obtain ⟨i, hi⟩ : ∃ i : Fin 31, p.lead = (i.val : ℤ)-15 :=
    ⟨⟨(p.lead+15).toNat, by omega⟩, by simp only; omega⟩
  have hcases : slew p.ewma = 0 ∨ slew p.ewma = 1 ∨ slew p.ewma = -1 := by
    rw [abs_le] at hs
    omega
  rcases hcases with hzero | hone | hone
  · apply Or.inl
    rw [Loop.Settled, hstep, hzero, sub_zero]
  · rw [hone] at hlevel
    have hrange : 16 ≤ p.ewma ∧ p.ewma ≤ 31 := by
      unfold level at hlevel
      omega
    obtain ⟨j, hj⟩ : ∃ j : Fin 16, p.ewma = (j.val : ℤ)+16 :=
      ⟨⟨(p.ewma-16).toNat, by omega⟩, by simp only; omega⟩
    have hp : p = ⟨(i.val : ℤ)-15, (j.val : ℤ)+16⟩ := by
      rw [← hi, ← hj]
    rw [hp]
    exact Or.inr (near_target i j).1
  · rw [hone] at hlevel
    have hrange : -31 ≤ p.ewma ∧ p.ewma ≤ -16 := by
      unfold level at hlevel
      omega
    obtain ⟨j, hj⟩ : ∃ j : Fin 16, p.ewma = -(j.val : ℤ)-16 :=
      ⟨⟨(-p.ewma-16).toNat, by omega⟩, by simp only; omega⟩
    have hp : p = ⟨(i.val : ℤ)-15, -(j.val : ℤ)-16⟩ := by
      rw [← hi, ← hj]
    rw [hp]
    exact Or.inr (near_target i j).2

theorem loop_settles (p : Loop) : ∃ n, Loop.follow (Loop.follow^[n] p) = Loop.follow^[n] p := by
  apply settles_of_rank fun p => p.measure.toNat
  intro p
  have hlater : ∃ k, (Loop.follow^[k] p).Settled ∨ (Loop.follow^[k] p).measure < p.measure := by
    by_cases hmoves : p.lead.tdiv 16 ≠ 0 ∨ slew p.follow.ewma ≤ -2 ∨ 2 ≤ slew p.follow.ewma
    · exact ⟨1, Or.inr (measure_drop p hmoves)⟩
    · rw [not_or, not_not] at hmoves
      have hkept : p.follow.ewma = p.ewma := by
        show p.ewma+p.lead.tdiv 16 = p.ewma
        rw [hmoves.1, add_zero]
      rw [hkept] at hmoves
      rcases near_lower p hmoves.1 (by rw [abs_le]; omega) with hdone | hlower
      · exact ⟨0, Or.inl hdone⟩
      · exact lower_later hlower
  obtain ⟨k, hk⟩ := hlater
  refine ⟨k, hk.imp id ?_⟩
  intro hless
  have hnonneg := measure_nonneg (Loop.follow^[k] p)
  show (Loop.follow^[k] p).measure.toNat < p.measure.toNat
  omega

theorem settled_near {p : Loop} (h : p.Settled) : |p.lead+p.ewma| ≤ 30 := by
  have hewma : p.ewma+p.lead.tdiv 16 = p.ewma := congrArg Loop.ewma h
  have hlead : p.lead-p.lead.tdiv 16-slew (p.ewma+p.lead.tdiv 16) = p.lead :=
    congrArg Loop.lead h
  rw [hewma, slew_level] at hlead
  have hl := tdiv_bounds p.lead
  have hw := tdiv_bounds (level p.ewma)
  unfold level at hw hlead
  rw [abs_le]
  omega

end Ending

section Clock

structure Steady (target : ℤ) (clock : Clock) : Prop where
  initialized : clock.initialized = true
  buckets : ∀ i, clock.bucketMinUs i = target ∨ clock.bucketMinUs i = int64Max

def loopOf (target : ℤ) (clock : Clock) : Loop where
  lead := target-clock.offsetUs-clock.errEwmaUs
  ewma := clock.errEwmaUs

def numbers (clock : Clock) : ℤ × ℤ := (clock.offsetUs, clock.errEwmaUs)

def clockRun (clock : Clock) (calls : ℕ → Call) : ℕ → Clock
  | 0 => clock
  | k+1 =>
    (rssMediaClockMap (calls k).mediaUs (calls k).nowUs (clockRun clock calls k)).2

variable {target : ℤ} {clock : Clock}

theorem loop_numbers (target : ℤ) {clock' : Clock} :
    loopOf target clock = loopOf target clock' ↔ numbers clock = numbers clock' := by
  simp only [loopOf, numbers, Loop.mk.injEq, Prod.mk.injEq]
  omega

theorem steer_follows (h : target ≠ int64Max) :
    loopOf target (steer target clock) = (loopOf target clock).follow := by
  unfold steer
  rw [if_pos h]
  unfold loopOf Loop.follow slew
  simp only [Loop.mk.injEq, and_true]
  ring

/-- What a step of the window keeps: the loop's numbers, and the buckets steady. -/
structure Passes (target : ℤ) (clock clock' : Clock) : Prop where
  kept : numbers clock' = numbers clock
  steady : Steady target clock → Steady target clock'

theorem passes_next (target : ℤ) (clock : Clock) : Passes target clock (nextBucket clock) where
  kept := rfl
  steady h := by
    refine ⟨h.initialized, fun i => ?_⟩
    show Function.update clock.bucketMinUs (clock.bucket+1) int64Max i = target ∨ _
    by_cases hi : i = clock.bucket+1
    · rw [hi]
      exact Or.inr (Function.update_self ..)
    · rw [Function.update_of_ne hi]
      exact (h.buckets i).imp id fun hmax => (Function.update_of_ne hi ..).trans hmax

theorem passes_buckets (target elapsed : ℤ) (clock : Clock) :
    Passes target clock (passBuckets elapsed clock) := by
  induction elapsed, clock using passBuckets.induct with
  | case1 elapsed clock hle ih =>
    rw [pass_over hle]
    have hnext := passes_next target clock
    exact ⟨ih.kept.trans hnext.kept, fun h => ih.steady (hnext.steady h)⟩
  | case2 elapsed clock hle =>
    rw [pass_within hle]
    exact ⟨rfl, id⟩

theorem passes_advance (target nowUs : ℤ) (clock : Clock) :
    Passes target clock (advanceWindow nowUs clock) := by
  unfold advanceWindow
  dsimp only
  split_ifs
  · exact ⟨rfl, fun h => ⟨h.initialized, fun _ => Or.inr rfl⟩⟩
  · exact passes_buckets target _ clock

theorem passes_record (target : ℤ) (clock : Clock) :
    Passes target clock (recordSample target clock) := by
  unfold recordSample
  split_ifs
  · refine ⟨rfl, fun h => ⟨h.initialized, fun i => ?_⟩⟩
    by_cases hi : i = clock.bucket
    · exact Or.inl (by rw [hi]; exact Function.update_self ..)
    · exact (h.buckets i).imp (fun ht => (Function.update_of_ne hi ..).trans ht)
        fun hmax => (Function.update_of_ne hi ..).trans hmax
  · exact ⟨rfl, id⟩

theorem recorded_bucket (htarget : target < int64Max) (h : Steady target clock) :
    (recordSample target clock).bucketMinUs clock.bucket = target := by
  unfold recordSample
  split_ifs with hlt
  · exact Function.update_self ..
  · rcases h.buckets clock.bucket with ht | hmax
    · exact ht
    · rw [hmax] at hlt
      exact absurd htarget hlt

theorem steady_target (htarget : target < int64Max) (h : Steady target clock) {i : Fin 16}
    (hi : clock.bucketMinUs i = target) : targetUs clock = target := by
  have hperm := insertion_row_perm
    (((List.finRange 16).map clock.bucketMinUs).filter (· ≠ int64Max))
  have hall : ∀ v ∈ sortedMinima clock, v = target := by
    intro v hv
    obtain ⟨hmem, hne⟩ := List.mem_filter.mp (hperm.subset hv)
    obtain ⟨j, -, rfl⟩ := List.mem_map.mp hmem
    rcases h.buckets j with ht | hmax
    · exact ht
    · rw [hmax] at hne
      simp at hne
  have hpos : 0 < (sortedMinima clock).length := by
    apply List.length_pos_of_mem (a := target)
    apply hperm.symm.subset
    refine List.mem_filter.mpr ⟨List.mem_map.mpr ⟨i, List.mem_finRange i, hi⟩, ?_⟩
    simpa using htarget.ne
  have hhalf : (sortedMinima clock).length/2 < (sortedMinima clock).length := by omega
  unfold targetUs
  rw [List.getElem?_eq_getElem hhalf]
  exact hall _ (List.getElem_mem hhalf)

/-- A call with the constant sample is one step of the loop. -/
theorem steady_call (htarget : target < int64Max) (h : Steady target clock) {c : Call}
    (hc : c.sampleUs = target) :
    Steady target (rssMediaClockMap c.mediaUs c.nowUs clock).2 ∧
      loopOf target (rssMediaClockMap c.mediaUs c.nowUs clock).2 =
        (loopOf target clock).follow := by
  have hadvance := passes_advance target c.nowUs clock
  have hrecord := passes_record target (advanceWindow c.nowUs clock)
  have hsteady := hadvance.steady h
  have hobserved : observe c.mediaUs c.nowUs clock =
      recordSample target (advanceWindow c.nowUs clock) := by
    rw [← hc]
    rfl
  have hmedian := steady_target htarget (hrecord.steady hsteady)
    (recorded_bucket htarget hsteady)
  have hcall : (rssMediaClockMap c.mediaUs c.nowUs clock).2 =
      steer target (recordSample target (advanceWindow c.nowUs clock)) := by
    rw [rssMediaClockMap, if_neg (by rw [h.initialized]; decide)]
    dsimp only
    rw [hobserved, hmedian]
  rw [hcall]
  constructor
  · refine ⟨?_, fun i => ?_⟩
    · rw [steer_initialized]
      exact (hrecord.steady hsteady).initialized
    · rw [steer_min]
      exact (hrecord.steady hsteady).buckets i
  · rw [steer_follows htarget.ne, (loop_numbers target).mpr (hrecord.kept.trans hadvance.kept)]

theorem run_follows (htarget : target < int64Max) (h : Steady target clock) {calls : ℕ → Call}
    (hc : ∀ k, (calls k).sampleUs = target) (k : ℕ) :
    Steady target (clockRun clock calls k) ∧
      loopOf target (clockRun clock calls k) = Loop.follow^[k] (loopOf target clock) := by
  induction k with
  | zero => exact ⟨h, rfl⟩
  | succ k ih =>
    obtain ⟨hsteady, hloop⟩ := ih
    obtain ⟨hnext, hfollow⟩ := steady_call htarget hsteady (hc k)
    refine ⟨hnext, ?_⟩
    rw [Function.iterate_succ_apply', ← hloop]
    exact hfollow

theorem follow_step (target : ℤ) (clock' : Clock)
    (h : loopOf target clock' = (loopOf target clock).follow) :
    |clock'.offsetUs-clock.offsetUs| ≤ 1000 := by
  have hlead : target-clock'.offsetUs-clock'.errEwmaUs = (loopOf target clock).follow.lead :=
    congrArg Loop.lead h
  have hewma : clock'.errEwmaUs = (loopOf target clock).follow.ewma := congrArg Loop.ewma h
  have hslew := slew_le (loopOf target clock).follow.ewma
  have hmoved : clock'.offsetUs-clock.offsetUs = slew (loopOf target clock).follow.ewma := by
    rw [hewma] at hlead
    unfold Loop.follow loopOf at hlead ⊢
    simp only at hlead ⊢
    omega
  rwa [hmoved]

/-- With a constant target the loop settles within 30 of it: no call moves the
offset by more than 1000, and no state but a last one comes again. -/
theorem clock_settles (target : ℤ) (htarget : target < int64Max) (clock : Clock)
    (h : Steady target clock) (calls : ℕ → Call) (hc : ∀ k, (calls k).sampleUs = target) :
    (∀ k, |(clockRun clock calls (k+1)).offsetUs-(clockRun clock calls k).offsetUs| ≤ 1000) ∧
    (∃ n, (∀ k, numbers (clockRun clock calls (n+k)) = numbers (clockRun clock calls n)) ∧
      |(clockRun clock calls n).offsetUs-target| ≤ 30) ∧
    ∀ j period, 0 < period →
      numbers (clockRun clock calls (j+period)) = numbers (clockRun clock calls j) →
      numbers (clockRun clock calls (j+1)) = numbers (clockRun clock calls j) := by
  have hrun := fun k => (run_follows htarget h hc k).2
  obtain ⟨n, hn⟩ := loop_settles (loopOf target clock)
  refine ⟨?_, ⟨n, ?_, ?_⟩, ?_⟩
  · intro k
    apply follow_step target
    rw [hrun, hrun, Function.iterate_succ_apply']
  · intro k
    rw [← loop_numbers target, hrun, hrun]
    exact settled_stays hn k
  · have hnear := settled_near (p := Loop.follow^[n] (loopOf target clock)) hn
    rw [← hrun] at hnear
    unfold loopOf at hnear
    rw [abs_le] at hnear ⊢
    simp only at hnear
    omega
  · intro j period hpos hcycle
    rw [← loop_numbers target, hrun, hrun] at hcycle ⊢
    rw [Function.iterate_succ_apply']
    exact settled_acyclic hn hpos hcycle

/-- Twenty-five frames a second, the offset a second off and the filter the other way. -/
theorem clock_settles_second_off :
    let clock : Clock := ⟨fun _ => 0, 0, 1000000, 70000, 0, true⟩
    ∃ n, (∀ k, numbers (clockRun clock (fun k => ⟨40000*k, 40000*k⟩) (n+k)) =
        numbers (clockRun clock (fun k => ⟨40000*k, 40000*k⟩) n)) ∧
      |(clockRun clock (fun k => ⟨40000*k, 40000*k⟩) n).offsetUs-0| ≤ 30 :=
  (clock_settles 0 (by decide) _ ⟨rfl, fun _ => Or.inl rfl⟩ _ fun _ => sub_self _).2.1

end Clock

end RaptorCommon.ClockSettling
