import RaptorCommon.MediaClock

/-!
# The target of the media clock from the whole history

Time since the last reset is cut into slots of one second, and the target is
the median of the minima of the last sixteen of them. The ring of the clock
shows exactly these minima.
-/

set_option autoImplicit false

namespace RaptorCommon.MediaWindow
open RaptorCommon.RingWindow RaptorCommon.MediaClock

def slotOf (origin nowUs : ℤ) : ℤ := (nowUs-origin)/bucketUs

/-- The time of the last reset and the calls since, the latest first. A call
resets when it comes a window or more after the start of the slot of the call
before it. -/
def sinceReset : List Call → ℤ × List Call
  | [] => (0, [])
  | [c] => (c.nowUs, [c])
  | c::d::earlier =>
    let r := sinceReset (d::earlier)
    if windowUs ≤ c.nowUs-(r.1+bucketUs*slotOf r.1 d.nowUs) then (c.nowUs, [c])
    else (r.1, c::r.2)

def slotMinimum (origin : ℤ) (kept : List Call) (slot : ℤ) : Option ℤ :=
  ((kept.filter fun c => slotOf origin c.nowUs = slot).map Call.sampleUs).min?

/-- The minima of the non-empty slots among the one of a time and the fifteen
before it. -/
def windowMinima (origin : ℤ) (kept : List Call) (nowUs : ℤ) : List ℤ :=
  (List.range 16).filterMap fun j : ℕ => slotMinimum origin kept (slotOf origin nowUs-j)

def median (values : List ℤ) : Option ℤ :=
  (values.mergeSort (· ≤ ·))[values.length/2]?

def referenceTarget : List Call → Option ℤ
  | [] => none
  | c::earlier =>
    let r := sinceReset (c::earlier)
    median (windowMinima r.1 r.2 c.nowUs)

section Tracking

variable {origin cur : ℤ} {kept : List Call} {clock : Clock}

def slotCell (origin : ℤ) (kept : List Call) (slot : ℤ) : ℤ :=
  (slotMinimum origin kept slot).getD int64Max

/-- The clock shows the calls since the reset, with `cur` its current slot. -/
structure Tracks (clock : Clock) (origin : ℤ) (kept : List Call) (cur : ℤ) : Prop where
  start : clock.bucketStartUs = origin+bucketUs*cur
  cells : Shows clock.bucketMinUs clock.bucket (slotCell origin kept) cur
  past : ∀ c ∈ kept, slotOf origin c.nowUs ≤ cur
  ready : clock.initialized = true

theorem slot_advance (nowUs : ℤ) :
    cur+(nowUs-(origin+bucketUs*cur))/bucketUs = slotOf origin nowUs := by
  unfold slotOf bucketUs
  omega

theorem slot_empty {slot : ℤ} (h : ∀ c ∈ kept, slotOf origin c.nowUs ≠ slot) :
    slotMinimum origin kept slot = none := by
  unfold slotMinimum
  rw [List.filter_eq_nil_iff.mpr (by simpa using h)]
  rfl

theorem tracks_next (h : Tracks clock origin kept cur) :
    Tracks (nextBucket clock) origin kept (cur+1) := by
  refine ⟨?_, ?_, fun c hc => (h.past c hc).trans (by omega), h.ready⟩
  · show clock.bucketStartUs+bucketUs = _
    rw [h.start]
    ring
  · have hblank : slotCell origin kept (cur+1) = int64Max := by
      rw [slotCell, slot_empty fun c hc => (h.past c hc).trans_lt (by omega) |>.ne]
      rfl
    have hstep := shows_step h.cells
    rwa [hblank] at hstep

theorem tracks_pass {elapsed : ℤ} (h : Tracks clock origin kept cur) (h0 : 0 ≤ elapsed) :
    Tracks (passBuckets elapsed clock) origin kept (cur+elapsed/bucketUs) := by
  induction elapsed, clock using passBuckets.induct generalizing cur with
  | case1 elapsed clock hle ih =>
    rw [pass_over hle]
    have hnext := ih (tracks_next h) (by omega)
    have hcur : cur+1+(elapsed-bucketUs)/bucketUs = cur+elapsed/bucketUs := by
      unfold bucketUs
      omega
    rwa [hcur] at hnext
  | case2 elapsed clock hle =>
    rw [pass_within hle]
    have hcur : cur+elapsed/bucketUs = cur := by
      unfold bucketUs at hle ⊢
      omega
    rwa [hcur]

theorem cleared_shows (origin : ℤ) :
    Shows (fun _ : Fin 16 => int64Max) 0 (slotCell origin []) 0 := fun _ => rfl

theorem slot_minimum_cons (c : Call) (slot : ℤ) :
    slotMinimum origin (c::kept) slot =
      if slotOf origin c.nowUs = slot then
        some ((slotMinimum origin kept slot).elim c.sampleUs (min c.sampleUs))
      else slotMinimum origin kept slot := by
  unfold slotMinimum
  split_ifs with h
  · rw [List.filter_cons_of_pos (by simpa using h), List.map_cons, List.min?_cons]
  · rw [List.filter_cons_of_neg (by simpa using h)]

theorem tracks_record {c : Call} (h : Tracks clock origin kept cur)
    (hslot : slotOf origin c.nowUs = cur) (hmax : c.sampleUs < int64Max) :
    Tracks (recordSample c.sampleUs clock) origin (c::kept) cur := by
  have hother : ∀ s, s ≠ cur → slotCell origin (c::kept) s = slotCell origin kept s := by
    intro s hs
    rw [slotCell, slot_minimum_cons, if_neg (by rw [hslot]; exact hs.symm), slotCell]
  have hhere : slotCell origin (c::kept) cur = min c.sampleUs (slotCell origin kept cur) := by
    rw [slotCell, slot_minimum_cons, if_pos hslot, slotCell]
    cases slotMinimum origin kept cur with
    | none => exact (min_eq_left hmax.le).symm
    | some m => rfl
  have hpast : ∀ d ∈ c::kept, slotOf origin d.nowUs ≤ cur := by
    intro d hd
    rcases List.mem_cons.mp hd with rfl | hd
    · exact hslot.le
    · exact h.past d hd
  unfold recordSample
  rw [shows_head h.cells]
  split_ifs with hlt
  · refine ⟨h.start, ?_, hpast, h.ready⟩
    refine shows_congr (shows_write h.cells c.sampleUs) fun s _ => ?_
    by_cases hs : s = cur
    · rw [hs, Function.update_self, hhere, min_eq_left hlt.le]
    · rw [Function.update_of_ne hs, hother s hs]
  · refine ⟨h.start, ?_, hpast, h.ready⟩
    refine shows_congr h.cells fun s _ => ?_
    by_cases hs : s = cur
    · rw [hs, hhere, min_eq_right (not_lt.mp hlt)]
    · rw [hother s hs]

theorem slot_origin (nowUs : ℤ) : slotOf nowUs nowUs = 0 := by
  unfold slotOf
  simp

theorem tracks_fresh (c : Call) (hmax : c.sampleUs < int64Max)
    (hready : clock.initialized = true) :
    Tracks (recordSample c.sampleUs
      { clearBuckets clock with bucket := 0, bucketStartUs := c.nowUs }) c.nowUs [c] 0 := by
  refine tracks_record ⟨?_, cleared_shows c.nowUs, nofun, hready⟩ (slot_origin c.nowUs) hmax
  show c.nowUs = c.nowUs+bucketUs*0
  ring

theorem tracks_steer (target : ℤ) (h : Tracks clock origin kept cur) :
    Tracks (steer target clock) origin kept cur := by
  refine ⟨?_, ?_, h.past, ?_⟩
  · rw [steer_start, h.start]
  · rw [steer_min, steer_bucket]
    exact h.cells
  · rw [steer_initialized, h.ready]

theorem tracks_start (memory : Clock) (c : Call) (hmax : c.sampleUs < int64Max) :
    Tracks (startClock c.sampleUs c.nowUs (rssMediaClockInit memory)) c.nowUs [c] 0 := by
  have h : Tracks { startClock c.sampleUs c.nowUs (rssMediaClockInit memory) with
      bucketMinUs := fun _ => int64Max } c.nowUs [] 0 := by
    refine ⟨?_, cleared_shows c.nowUs, nofun, rfl⟩
    show c.nowUs = c.nowUs+bucketUs*0
    ring
  have hrec := tracks_record h (slot_origin c.nowUs) hmax
  unfold recordSample at hrec
  rwa [if_pos hmax] at hrec

/-- One call after the first, without or with a reset. -/
theorem tracks_observe {c d : Call} {earlier : List Call}
    (h : Tracks clock (sinceReset (d::earlier)).1 (sinceReset (d::earlier)).2
      (slotOf (sinceReset (d::earlier)).1 d.nowUs))
    (hmono : d.nowUs ≤ c.nowUs) (hmax : c.sampleUs < int64Max) :
    Tracks (observe c.mediaUs c.nowUs clock) (sinceReset (c::d::earlier)).1
      (sinceReset (c::d::earlier)).2 (slotOf (sinceReset (c::d::earlier)).1 c.nowUs) := by
  rw [sinceReset]
  generalize sinceReset (d::earlier) = r at h ⊢
  obtain ⟨origin, kept⟩ := r
  dsimp only at h ⊢
  have hstart := h.start
  have hslot : bucketUs*slotOf origin d.nowUs ≤ d.nowUs-origin := by
    unfold slotOf bucketUs
    omega
  show Tracks (recordSample c.sampleUs (advanceWindow c.nowUs clock)) _ _ _
  unfold advanceWindow
  dsimp only
  rw [hstart]
  by_cases hreset : windowUs ≤ c.nowUs-(origin+bucketUs*slotOf origin d.nowUs)
  · rw [if_pos hreset, if_pos (.inr hreset), slot_origin]
    exact tracks_fresh c hmax h.ready
  · have hin : ¬(c.nowUs-(origin+bucketUs*slotOf origin d.nowUs) < 0 ∨
        windowUs ≤ c.nowUs-(origin+bucketUs*slotOf origin d.nowUs)) := by
      rintro (hneg | hover)
      · omega
      · exact hreset hover
    rw [if_neg hreset, if_neg hin]
    refine tracks_record ?_ rfl hmax
    have hpass := tracks_pass h (not_lt.mp fun hneg => hin (.inl hneg))
    rwa [slot_advance] at hpass

end Tracking

section Runs

variable {memory : Clock} {c : Call} {earlier : List Call}

structure Orderly (history : List Call) : Prop where
  mono : history.Pairwise fun later d => d.nowUs ≤ later.nowUs
  fits : ∀ c ∈ history, c.sampleUs < int64Max

theorem orderly_tail (h : Orderly (c::earlier)) : Orderly earlier where
  mono := h.mono.of_cons
  fits d hd := h.fits d (List.mem_cons_of_mem c hd)

theorem clock_tracks (memory : Clock) (h : Orderly (c::earlier)) :
    Tracks (clockAfter memory (c::earlier)) (sinceReset (c::earlier)).1
      (sinceReset (c::earlier)).2 (slotOf (sinceReset (c::earlier)).1 c.nowUs) := by
  induction earlier generalizing c with
  | nil =>
    have hstart := tracks_start memory c (h.fits c (by simp))
    rw [← slot_origin c.nowUs] at hstart
    exact hstart
  | cons d earlier ih =>
    have hprev := ih (orderly_tail h)
    have hobs := tracks_observe hprev (List.rel_of_pairwise_cons h.mono (by simp))
      (h.fits c (by simp))
    show Tracks (rssMediaClockMap c.mediaUs c.nowUs (clockAfter memory (d::earlier))).2 _ _ _
    unfold rssMediaClockMap
    rw [if_neg (by rw [hprev.ready]; decide)]
    exact tracks_steer _ hobs

end Runs

section Target

variable {origin : ℤ} {kept : List Call} {clock : Clock}

theorem slot_minimum_mem {slot m : ℤ} (h : slotMinimum origin kept slot = some m) :
    ∃ c ∈ kept, c.sampleUs = m := by
  have hmem := List.min?_mem h
  obtain ⟨c, hc, hm⟩ := List.mem_map.mp hmem
  exact ⟨c, List.mem_of_mem_filter hc, hm⟩

theorem slot_minimum_some (origin : ℤ) {c : Call} (hc : c ∈ kept) :
    ∃ m, slotMinimum origin kept (slotOf origin c.nowUs) = some m := by
  apply Option.isSome_iff_exists.mp
  apply List.isSome_min?_of_mem (a := c.sampleUs)
  exact List.mem_map_of_mem (List.mem_filter.mpr ⟨hc, by simp⟩)

theorem filter_cells (origin : ℤ) (slots : List ℤ) (hmax : ∀ c ∈ kept, c.sampleUs < int64Max) :
    (slots.map (slotCell origin kept)).filter (· ≠ int64Max) =
      slots.filterMap (slotMinimum origin kept) := by
  induction slots with
  | nil => rfl
  | cons slot slots ih =>
    rw [List.map_cons, slotCell]
    cases hm : slotMinimum origin kept slot with
    | none =>
      rw [List.filter_cons_of_neg (by simp), List.filterMap_cons_none hm, ih]
    | some m =>
      obtain ⟨c, hc, rfl⟩ := slot_minimum_mem hm
      have hne : c.sampleUs ≠ int64Max := (hmax c hc).ne
      rw [List.filterMap_cons_some hm, ← ih]
      exact List.filter_cons_of_pos (by simpa using hne)

theorem target_median {nowUs : ℤ} (h : Tracks clock origin kept (slotOf origin nowUs))
    (hmax : ∀ c ∈ kept, c.sampleUs < int64Max) (hin : ∃ c ∈ kept, c.nowUs = nowUs) :
    median (windowMinima origin kept nowUs) = some (targetUs clock) := by
  have hperm := (shows_perm h.cells).filter (· ≠ int64Max)
  have hslots := filter_cells origin
    ((List.range 16).map fun j : ℕ => slotOf origin nowUs-j) hmax
  rw [List.map_map, List.filterMap_map] at hslots
  have hminima : (((List.finRange 16).map clock.bucketMinUs).filter (· ≠ int64Max)).Perm
      (windowMinima origin kept nowUs) := hperm.trans (.of_eq hslots)
  have hsorted : sortedMinima clock = (windowMinima origin kept nowUs).mergeSort (· ≤ ·) := by
    apply insertion_row_unique
    · exact List.pairwise_mergeSort' (· ≤ ·) _
    · exact (List.mergeSort_perm _ _).trans hminima.symm
  have hlen : (sortedMinima clock).length = (windowMinima origin kept nowUs).length := by
    rw [hsorted, List.length_mergeSort]
  have hpos : 0 < (windowMinima origin kept nowUs).length := by
    obtain ⟨c, hc, hnow⟩ := hin
    obtain ⟨m, hm⟩ := slot_minimum_some origin hc
    apply List.length_pos_of_mem (a := m)
    refine List.mem_filterMap.mpr ⟨0, by simp, ?_⟩
    rw [← hnow, Nat.cast_zero, sub_zero, hm]
  unfold median targetUs
  rw [← hlen, ← hsorted, List.getElem?_eq_getElem (by omega)]
  rfl

theorem since_reset_head (c : Call) (earlier : List Call) :
    c ∈ (sinceReset (c::earlier)).2 := by
  cases earlier with
  | nil => exact List.mem_singleton_self c
  | cons d earlier =>
    rw [sinceReset]
    split_ifs <;> exact List.mem_cons_self

theorem since_reset_subset (history : List Call) : (sinceReset history).2 ⊆ history := by
  induction history with
  | nil => exact List.Subset.refl _
  | cons c earlier ih =>
    cases earlier with
    | nil => exact List.Subset.refl _
    | cons d earlier =>
      rw [sinceReset]
      split_ifs
      · exact List.cons_subset_cons c (List.nil_subset _)
      · exact List.cons_subset_cons c ih

/-- The target each call after the first computes, and steers to, is that of the whole history. -/
theorem target_from_history (memory : Clock) (c d : Call) (earlier : List Call)
    (h : Orderly (c::d::earlier)) :
    ∃ target, referenceTarget (c::d::earlier) = some target ∧
      targetUs (observe c.mediaUs c.nowUs (clockAfter memory (d::earlier))) = target ∧
      rssMediaClockMap c.mediaUs c.nowUs (clockAfter memory (d::earlier)) =
        let steered := steer target (observe c.mediaUs c.nowUs (clockAfter memory (d::earlier)))
        (c.mediaUs+steered.offsetUs, steered) := by
  have hprev := clock_tracks memory (orderly_tail h)
  have hobs := tracks_observe hprev (List.rel_of_pairwise_cons h.mono (by simp))
    (h.fits c (by simp))
  refine ⟨_, target_median hobs (fun e he => h.fits e (since_reset_subset _ he))
    ⟨c, since_reset_head c _, rfl⟩, rfl, ?_⟩
  unfold rssMediaClockMap
  rw [if_neg (by rw [hprev.ready]; decide)]

def blankClock : Clock := ⟨fun _ => 0, 0, 0, 0, Fin.last 15, false⟩

/-- Three calls, the last after a gap that resets. -/
theorem target_from_history_gap :
    ∃ target, referenceTarget [⟨19000000, 20000000⟩, ⟨900000, 1700000⟩, ⟨0, 500000⟩] = some target ∧
      targetUs (observe 19000000 20000000
        (clockAfter blankClock [⟨900000, 1700000⟩, ⟨0, 500000⟩])) = target ∧
      rssMediaClockMap 19000000 20000000
          (clockAfter blankClock [⟨900000, 1700000⟩, ⟨0, 500000⟩]) =
        let steered := steer target (observe 19000000 20000000
          (clockAfter blankClock [⟨900000, 1700000⟩, ⟨0, 500000⟩]))
        (19000000+steered.offsetUs, steered) :=
  target_from_history blankClock ⟨19000000, 20000000⟩ ⟨900000, 1700000⟩ [⟨0, 500000⟩]
    ⟨by decide, by decide⟩

end Target

end RaptorCommon.MediaWindow
