import RaptorCommon.RingWindow

/-!
# The mapping from media time to the monotonic clock

One minimum of the offset per second is kept for sixteen seconds, and the
published offset is slewed toward their median. Times are microseconds; a run
stays within 64 bits, so integers model them.
-/

set_option autoImplicit false

namespace RaptorCommon.MediaClock
open RaptorCommon.RingWindow

def bucketUs : ℤ := 1000000
def windowUs : ℤ := bucketUs*16
def ewmaDiv : ℤ := 16
def gainDiv : ℤ := 16
def slewMaxUs : ℤ := 1000
def int64Max : ℤ := 2^63-1

structure Clock where
  bucketMinUs : Fin 16 → ℤ
  bucketStartUs : ℤ
  offsetUs : ℤ
  errEwmaUs : ℤ
  bucket : Fin 16
  initialized : Bool

def clearBuckets (clock : Clock) : Clock := { clock with bucketMinUs := fun _ => int64Max }

def rssMediaClockInit (clock : Clock) : Clock :=
  { clearBuckets clock with
    bucketStartUs := 0
    offsetUs := 0
    errEwmaUs := 0
    bucket := 0
    initialized := false }

def nextBucket (clock : Clock) : Clock :=
  { clock with
    bucket := clock.bucket+1
    bucketMinUs := Function.update clock.bucketMinUs (clock.bucket+1) int64Max
    bucketStartUs := clock.bucketStartUs+bucketUs }

/-- The loop of `advance_window`. -/
def passBuckets (elapsed : ℤ) (clock : Clock) : Clock :=
  if bucketUs ≤ elapsed then passBuckets (elapsed-bucketUs) (nextBucket clock) else clock
termination_by elapsed.toNat
decreasing_by
  unfold bucketUs at *
  omega

def advanceWindow (nowUs : ℤ) (clock : Clock) : Clock :=
  let elapsed := nowUs-clock.bucketStartUs
  if elapsed < 0 ∨ windowUs ≤ elapsed then
    { clearBuckets clock with bucket := 0, bucketStartUs := nowUs }
  else passBuckets elapsed clock

def recordSample (sampleUs : ℤ) (clock : Clock) : Clock :=
  if sampleUs < clock.bucketMinUs clock.bucket then
    { clock with bucketMinUs := Function.update clock.bucketMinUs clock.bucket sampleUs }
  else clock

/-- The populated minima, sorted by insertion. -/
def sortedMinima (clock : Clock) : List ℤ :=
  insertionRow (((List.finRange 16).map clock.bucketMinUs).filter (· ≠ int64Max))

def targetUs (clock : Clock) : ℤ :=
  (sortedMinima clock)[(sortedMinima clock).length/2]?.getD int64Max

def clampSlew (slewUs : ℤ) : ℤ :=
  if slewUs > slewMaxUs then slewMaxUs else if slewUs < -slewMaxUs then -slewMaxUs else slewUs

def steer (target : ℤ) (clock : Clock) : Clock :=
  if target ≠ int64Max then
    let err := target-clock.offsetUs
    let ewma := clock.errEwmaUs+(err-clock.errEwmaUs).tdiv ewmaDiv
    { clock with
      errEwmaUs := ewma
      offsetUs := clock.offsetUs+clampSlew (ewma.tdiv gainDiv) }
  else clock

def startClock (sampleUs nowUs : ℤ) (clock : Clock) : Clock :=
  { clock with
    bucketStartUs := nowUs
    bucketMinUs := Function.update clock.bucketMinUs 0 sampleUs
    offsetUs := sampleUs
    initialized := true }

def observe (mediaUs nowUs : ℤ) (clock : Clock) : Clock :=
  recordSample (nowUs-mediaUs) (advanceWindow nowUs clock)

def rssMediaClockMap (mediaUs nowUs : ℤ) (clock : Clock) : ℤ × Clock :=
  if clock.initialized = false then
    let started := startClock (nowUs-mediaUs) nowUs clock
    (mediaUs+started.offsetUs, started)
  else
    let observed := observe mediaUs nowUs clock
    let steered := steer (targetUs observed) observed
    (mediaUs+steered.offsetUs, steered)

structure Call where
  mediaUs : ℤ
  nowUs : ℤ
  deriving DecidableEq, Repr

def Call.sampleUs (c : Call) : ℤ := c.nowUs-c.mediaUs

/-- The clock after `rss_media_clock_init` and the calls of a history, which
holds the latest call first. -/
def clockAfter (memory : Clock) (history : List Call) : Clock :=
  history.foldr (fun c clock => (rssMediaClockMap c.mediaUs c.nowUs clock).2)
    (rssMediaClockInit memory)

section Loop

variable {elapsed : ℤ} {clock : Clock}

theorem pass_over (h : bucketUs ≤ elapsed) :
    passBuckets elapsed clock = passBuckets (elapsed-bucketUs) (nextBucket clock) := by
  rw [passBuckets, if_pos h]

theorem pass_within (h : ¬bucketUs ≤ elapsed) : passBuckets elapsed clock = clock := by
  rw [passBuckets, if_neg h]

end Loop

section Frame

variable (target : ℤ) (clock : Clock)

@[simp] theorem steer_min : (steer target clock).bucketMinUs = clock.bucketMinUs := by
  unfold steer
  split_ifs <;> rfl

@[simp] theorem steer_start : (steer target clock).bucketStartUs = clock.bucketStartUs := by
  unfold steer
  split_ifs <;> rfl

@[simp] theorem steer_bucket : (steer target clock).bucket = clock.bucket := by
  unfold steer
  split_ifs <;> rfl

@[simp] theorem steer_initialized : (steer target clock).initialized = clock.initialized := by
  unfold steer
  split_ifs <;> rfl

end Frame

end RaptorCommon.MediaClock
