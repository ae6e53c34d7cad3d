import Mathlib.Tactic.SplitIfs
import RaptorCommon.StepSystem

/-!
# One signing seed for the device

Processes that find no key file make one, and the others read it. A file whose
write or sync failed is unlinked, but a reader may already have its whole seed.
Where none has, all that return hold one seed.
-/

set_option autoImplicit false

namespace RaptorCommon.SignSeed
open RaptorCommon.StepSystem

/-- How far a call of `rss_sign_key_load` has come; its attempts count from 0. -/
inductive Stage where
  | opening (attempt : ℕ)
  | reading (attempt file : ℕ)
  | drawing (attempt : ℕ)
  | creating (attempt : ℕ) (seed : List UInt8)
  | writing (file : ℕ) (seed : List UInt8)
  | syncing (file : ℕ) (seed : List UInt8)
  | unlinking (file : ℕ)
  | loaded (seed : List UInt8)
  | failed
  deriving DecidableEq, Repr

def seedSize : ℕ := 32
def attempts : ℕ := 3

inductive Call where
  | openFile
  | openFails
  | readFile
  | readFails
  | draw (seed : Vector UInt8 32)
  | drawFails
  | create
  | nameTaken
  | createFails
  | write (count : ℕ)
  | writeFails
  | sync
  | syncFails
  | unlinkName
  | unlinkFails
  deriving DecidableEq

variable {P : Type*} [DecidableEq P]

structure State (P : Type*) where
  stage : P → Stage
  entry : Entry
  content : ℕ → List UInt8

def State.move (s : State P) (p : P) (stage : Stage) : State P :=
  { s with stage := Function.update s.stage p stage }

/-- After a read that was short or a name that another took: the next attempt,
or none. -/
def again (attempt : ℕ) : Stage :=
  if attempt < attempts then .opening (attempt+1) else .failed

def step (s : State P) : P × Call → Option (State P)
  | (p, .openFile) =>
    match s.stage p, s.entry.link with
    | .opening k, some i => some (s.move p (.reading k i))
    | _, _ => none
  | (p, .openFails) =>
    match s.stage p with
    | .opening k => some (s.move p (.drawing k))
    | _ => none
  | (p, .readFile) =>
    match s.stage p with
    | .reading k i =>
      let seed := (s.content i).take seedSize
      some (s.move p (if seed.length = seedSize then .loaded seed else again k))
    | _ => none
  | (p, .readFails) =>
    match s.stage p with
    | .reading k _ => some (s.move p (again k))
    | _ => none
  | (p, .draw seed) =>
    match s.stage p with
    | .drawing k => some (s.move p (.creating k seed.toList))
    | _ => none
  | (p, .drawFails) =>
    match s.stage p with
    | .drawing _ => some (s.move p .failed)
    | _ => none
  | (p, .create) =>
    match s.stage p, s.entry.link with
    | .creating _ seed, none =>
      some { s.move p (.writing s.entry.made seed) with
        entry := s.entry.created
        content := Function.update s.content s.entry.made [] }
    | _, _ => none
  | (p, .nameTaken) =>
    match s.stage p, s.entry.link with
    | .creating k _, some _ => some (s.move p (again k))
    | _, _ => none
  | (p, .createFails) =>
    match s.stage p with
    | .creating _ _ => some (s.move p .failed)
    | _ => none
  | (p, .write count) =>
    match s.stage p with
    | .writing i seed =>
      if count ≤ seed.length then
        some { s.move p (if count = seed.length then .syncing i seed else .unlinking i) with
          content := Function.update s.content i (seed.take count) }
      else none
    | _ => none
  | (p, .writeFails) =>
    match s.stage p with
    | .writing i _ => some (s.move p (.unlinking i))
    | _ => none
  | (p, .sync) =>
    match s.stage p with
    | .syncing _ seed => some (s.move p (.loaded seed))
    | _ => none
  | (p, .syncFails) =>
    match s.stage p with
    | .syncing i _ => some (s.move p (.unlinking i))
    | _ => none
  | (p, .unlinkName) =>
    match s.stage p with
    | .unlinking _ => some { s.move p .failed with entry := s.entry.unlinked }
    | _ => none
  | (p, .unlinkFails) =>
    match s.stage p with
    | .unlinking _ => some (s.move p .failed)
    | _ => none

def start (entry : Entry) (content : ℕ → List UInt8) : State P :=
  ⟨fun _ => .opening 0, entry, content⟩

def OneSeed (s : State P) : Prop :=
  ∀ p q seed seed', s.stage p = .loaded seed → s.stage q = .loaded seed' → seed = seed'

def seedIn (file : List UInt8) : List UInt8 := file.take seedSize

def Whole (file : List UInt8) : Prop := (seedIn file).length = seedSize

/-- A file that holds a whole seed is unlinked only where no process has
returned with that seed or has the file open to read it. -/
def UnlinksUnread (s : State P) : P × Call → Prop
  | (p, .unlinkName) => ∀ i, s.stage p = .unlinking i → Whole (s.content i) →
      ∀ q k, s.stage q ≠ .loaded (seedIn (s.content i)) ∧ s.stage q ≠ .reading k i
  | _ => True

def StageOk (entry : Entry) (content : ℕ → List UInt8) : Stage → Prop
  | .reading _ i => i < entry.made ∧ (entry.link = some i ∨ ¬Whole (content i))
  | .creating _ seed => seed.length = seedSize
  | .writing i seed => entry.link = some i ∧ content i = [] ∧ seed.length = seedSize
  | .syncing i seed => entry.link = some i ∧ content i = seed ∧ seed.length = seedSize
  | .unlinking i => entry.link = some i
  | .loaded seed => ∃ i, entry.link = some i ∧ seedIn (content i) = seed ∧ seed.length = seedSize
  | .opening _ | .drawing _ | .failed => True

def Stage.making : Stage → Bool
  | .writing _ _ | .syncing _ _ | .unlinking _ => true
  | _ => false

structure Safe (s : State P) : Prop where
  each : ∀ p, StageOk s.entry s.content (s.stage p)
  single : ∀ p q, (s.stage p).making = true → (s.stage q).making = true → p = q

section Steps

variable {s : State P} {p : P}

theorem making_link {entry : Entry} {content : ℕ → List UInt8} {stage : Stage}
    (h : StageOk entry content stage) (hm : stage.making = true) : ∃ i, entry.link = some i := by
  cases stage with
  | writing i seed => exact ⟨i, h.1⟩
  | syncing i seed => exact ⟨i, h.1⟩
  | unlinking i => exact ⟨i, h⟩
  | _ => cases hm

/-- Of a process that has no file in the making, only what it reads and what it
returned with depends on the files. -/
theorem idle_ok {entry entry' : Entry} {content content' : ℕ → List UInt8} {stage : Stage}
    (hidle : stage.making = false) (h : StageOk entry content stage)
    (hread : ∀ k i, stage = .reading k i → StageOk entry' content' stage)
    (hload : ∀ seed, stage = .loaded seed → StageOk entry' content' stage) :
    StageOk entry' content' stage := by
  cases stage with
  | reading k i => exact hread k i rfl
  | loaded seed => exact hload seed rfl
  | creating k seed => exact h
  | opening k => trivial
  | drawing k => trivial
  | failed => trivial
  | writing i seed => cases hidle
  | syncing i seed => cases hidle
  | unlinking i => cases hidle

/-- The other processes keep what they had where the files say the same of it. -/
theorem moved_safe (h : Safe s) {stage : Stage} {entry : Entry} {content : ℕ → List UInt8}
    (hnew : StageOk entry content stage)
    (hold : ∀ q, q ≠ p → StageOk s.entry s.content (s.stage q) → StageOk entry content (s.stage q))
    (hmake : stage.making = true → ∀ q, q ≠ p → (s.stage q).making = false) :
    Safe { s.move p stage with entry := entry, content := content } := by
  constructor
  · intro q
    by_cases hqp : q = p
    · subst hqp
      simpa only [State.move, Function.update_self] using hnew
    · simpa only [State.move, Function.update_of_ne hqp] using hold q hqp (h.each q)
  · intro q r hq hr
    by_cases hqp : q = p
    · by_cases hrp : r = p
      · rw [hqp, hrp]
      · simp only [State.move, hqp, Function.update_self] at hq
        simp only [State.move, Function.update_of_ne hrp] at hr
        rw [hmake hq r hrp] at hr
        cases hr
    · by_cases hrp : r = p
      · simp only [State.move, hrp, Function.update_self] at hr
        simp only [State.move, Function.update_of_ne hqp] at hq
        rw [hmake hr q hqp] at hq
        cases hq
      · simp only [State.move, Function.update_of_ne hqp] at hq
        simp only [State.move, Function.update_of_ne hrp] at hr
        exact h.single q r hq hr

omit [DecidableEq P] in
theorem others_idle (h : Safe s) (hm : (s.stage p).making = true) (q : P) (hqp : q ≠ p) :
    (s.stage q).making = false := by
  by_contra hq
  exact hqp (h.single q p (by simpa using hq) hm)

theorem move_safe (h : Safe s) {stage : Stage} (hnew : StageOk s.entry s.content stage)
    (hmake : stage.making = true → (s.stage p).making = true) : Safe (s.move p stage) :=
  moved_safe h hnew (fun _ _ hq => hq) fun hm => others_idle h (hmake hm)

theorem again_ok (entry : Entry) (content : ℕ → List UInt8) (k : ℕ) :
    StageOk entry content (again k) ∧ (again k).making = false := by
  unfold again
  split_ifs <;> exact ⟨trivial, rfl⟩

theorem again_safe (h : Safe s) (k : ℕ) : Safe (s.move p (again k)) :=
  move_safe h (again_ok _ _ k).1 fun hm => absurd hm (by rw [(again_ok s.entry s.content k).2]; decide)

theorem create_safe (h : Safe s) (hlink : s.entry.link = none) {seed : List UInt8}
    (hseed : seed.length = seedSize) :
    Safe { s.move p (.writing s.entry.made seed) with
      entry := s.entry.created
      content := Function.update s.content s.entry.made [] } := by
  have hidle : ∀ q, (s.stage q).making = false := by
    intro q
    by_contra hq
    obtain ⟨i, hi⟩ := making_link (h.each q) (by simpa using hq)
    rw [hlink] at hi
    cases hi
  refine moved_safe h ⟨rfl, Function.update_self .., hseed⟩ (fun q _ hq => ?_) fun _ q _ => hidle q
  apply idle_ok (hidle q) hq
  · intro k i hs
    rw [hs] at hq ⊢
    have hne : i ≠ s.entry.made := Nat.ne_of_lt hq.1
    refine ⟨Nat.lt_succ_of_lt hq.1, .inr ?_⟩
    rw [Function.update_of_ne hne]
    exact hq.2.resolve_left fun hl => by rw [hlink] at hl; cases hl
  · intro seed hs
    rw [hs] at hq
    obtain ⟨i, hi, -⟩ := hq
    rw [hlink] at hi
    cases hi

theorem write_safe (h : Safe s) {file count : ℕ} {seed : List UInt8}
    (hstage : s.stage p = .writing file seed) :
    Safe { s.move p (if count = seed.length then .syncing file seed else .unlinking file) with
      content := Function.update s.content file (seed.take count) } := by
  have hp := h.each p
  rw [hstage] at hp
  obtain ⟨hlink, hempty, hlen⟩ := hp
  have hothers := others_idle h (p := p) (by rw [hstage]; rfl)
  refine moved_safe h ?_ (fun q hqp hq => ?_) fun _ => hothers
  · split_ifs with hall
    · refine ⟨hlink, ?_, hlen⟩
      rw [Function.update_self, hall, List.take_length]
    · exact hlink
  · apply idle_ok (hothers q hqp) hq
    · intro k i hs
      rw [hs] at hq ⊢
      refine ⟨hq.1, ?_⟩
      by_cases hi : i = file
      · exact .inl (hi ▸ hlink)
      · rw [Function.update_of_ne hi]
        exact hq.2
    · intro seed' hs
      rw [hs] at hq
      obtain ⟨i, hi, hcontent, hsize⟩ := hq
      obtain rfl : i = file := Option.some.inj (hi.symm.trans hlink)
      rw [hempty] at hcontent
      rw [← hcontent] at hsize
      cases hsize

theorem unlink_safe (h : Safe s) {file : ℕ} (hstage : s.stage p = .unlinking file)
    (hunread : Whole (s.content file) → ∀ q k,
      s.stage q ≠ .loaded (seedIn (s.content file)) ∧ s.stage q ≠ .reading k file) :
    Safe { s.move p .failed with entry := s.entry.unlinked } := by
  have hlink := h.each p
  rw [hstage] at hlink
  have hothers := others_idle h (p := p) (by rw [hstage]; rfl)
  refine moved_safe h trivial (fun q hqp hq => ?_) nofun
  apply idle_ok (hothers q hqp) hq
  · intro k i hs
    rw [hs] at hq ⊢
    refine ⟨hq.1, .inr ?_⟩
    rcases hq.2 with hi | hi
    · obtain rfl : i = file := Option.some.inj (hi.symm.trans hlink)
      exact fun hwhole => (hunread hwhole q k).2 hs
    · exact hi
  · intro seed hs
    rw [hs] at hq
    obtain ⟨i, hi, rfl, hsize⟩ := hq
    obtain rfl : i = file := Option.some.inj (hi.symm.trans hlink)
    exact absurd hs (hunread hsize q 0).1

theorem read_safe (h : Safe s) {k file : ℕ} (hstage : s.stage p = .reading k file) :
    Safe (s.move p (if (seedIn (s.content file)).length = seedSize then
      .loaded (seedIn (s.content file)) else again k)) := by
  have hp := h.each p
  rw [hstage] at hp
  split_ifs with hwhole
  · refine move_safe h ⟨file, ?_, rfl, hwhole⟩ nofun
    exact hp.2.resolve_right fun hn => hn hwhole
  · exact again_safe h k

variable {s' : State P} {call : Call} {k file : ℕ} {seed : List UInt8}

theorem opening_safe (h : Safe s) (hk : s.stage p = .opening k)
    (hstep : step s (p, call) = some s') : Safe s' := by
  cases call with
  | openFile =>
    cases hlink : s.entry.link with
    | none => simp [step, hk, hlink] at hstep
    | some i =>
      obtain rfl : s.move p (.reading k i) = s' := by simpa [step, hk, hlink] using hstep
      exact move_safe h ⟨s.entry.below i hlink, .inl hlink⟩ nofun
  | openFails =>
    obtain rfl : s.move p (.drawing k) = s' := by simpa [step, hk] using hstep
    exact move_safe h trivial nofun
  | _ => simp [step, hk] at hstep

theorem reading_safe (h : Safe s) (hk : s.stage p = .reading k file)
    (hstep : step s (p, call) = some s') : Safe s' := by
  cases call with
  | readFile =>
    simp only [step, hk] at hstep
    cases hstep
    exact read_safe h hk
  | readFails =>
    obtain rfl : s.move p (again k) = s' := by simpa [step, hk] using hstep
    exact again_safe h k
  | _ => simp [step, hk] at hstep

theorem drawing_safe (h : Safe s) (hk : s.stage p = .drawing k)
    (hstep : step s (p, call) = some s') : Safe s' := by
  cases call with
  | draw seed =>
    obtain rfl : s.move p (.creating k seed.toList) = s' := by simpa [step, hk] using hstep
    exact move_safe h seed.length_toList nofun
  | drawFails =>
    obtain rfl : s.move p .failed = s' := by simpa [step, hk] using hstep
    exact move_safe h trivial nofun
  | _ => simp [step, hk] at hstep

theorem creating_safe (h : Safe s) (hk : s.stage p = .creating k seed)
    (hstep : step s (p, call) = some s') : Safe s' := by
  have hseed := h.each p
  rw [hk] at hseed
  cases call with
  | create =>
    cases hlink : s.entry.link with
    | some i => simp [step, hk, hlink] at hstep
    | none =>
      simp only [step, hk, hlink] at hstep
      cases hstep
      exact create_safe h hlink hseed
  | nameTaken =>
    cases hlink : s.entry.link with
    | none => simp [step, hk, hlink] at hstep
    | some i =>
      obtain rfl : s.move p (again k) = s' := by simpa [step, hk, hlink] using hstep
      exact again_safe h k
  | createFails =>
    obtain rfl : s.move p .failed = s' := by simpa [step, hk] using hstep
    exact move_safe h trivial nofun
  | _ => simp [step, hk] at hstep

theorem writing_safe (h : Safe s) (hk : s.stage p = .writing file seed)
    (hstep : step s (p, call) = some s') : Safe s' := by
  have hp := h.each p
  rw [hk] at hp
  cases call with
  | write count =>
    by_cases hle : count ≤ seed.length
    · simp only [step, hk, if_pos hle] at hstep
      cases hstep
      exact write_safe h hk
    · simp [step, hk, hle] at hstep
  | writeFails =>
    obtain rfl : s.move p (.unlinking file) = s' := by simpa [step, hk] using hstep
    exact move_safe h hp.1 fun _ => by rw [hk]; rfl
  | _ => simp [step, hk] at hstep

theorem syncing_safe (h : Safe s) (hk : s.stage p = .syncing file seed)
    (hstep : step s (p, call) = some s') : Safe s' := by
  have hp := h.each p
  rw [hk] at hp
  obtain ⟨hlink, hcontent, hlen⟩ := hp
  cases call with
  | sync =>
    obtain rfl : s.move p (.loaded seed) = s' := by simpa [step, hk] using hstep
    refine move_safe h ⟨file, hlink, ?_, hlen⟩ nofun
    rw [hcontent, seedIn, ← hlen, List.take_length]
  | syncFails =>
    obtain rfl : s.move p (.unlinking file) = s' := by simpa [step, hk] using hstep
    exact move_safe h hlink fun _ => by rw [hk]; rfl
  | _ => simp [step, hk] at hstep

theorem unlinking_safe (h : Safe s) (hk : s.stage p = .unlinking file)
    (hok : UnlinksUnread s (p, call)) (hstep : step s (p, call) = some s') : Safe s' := by
  cases call with
  | unlinkName =>
    simp only [step, hk] at hstep
    cases hstep
    exact unlink_safe h hk (hok file hk)
  | unlinkFails =>
    obtain rfl : s.move p .failed = s' := by simpa [step, hk] using hstep
    exact move_safe h trivial nofun
  | _ => simp [step, hk] at hstep

theorem step_safe {a : P × Call} (h : Safe s) (hok : UnlinksUnread s a)
    (hstep : step s a = some s') : Safe s' := by
  obtain ⟨p, call⟩ := a
  cases hk : s.stage p with
  | opening k => exact opening_safe h hk hstep
  | reading k file => exact reading_safe h hk hstep
  | drawing k => exact drawing_safe h hk hstep
  | creating k seed => exact creating_safe h hk hstep
  | writing file seed => exact writing_safe h hk hstep
  | syncing file seed => exact syncing_safe h hk hstep
  | unlinking file => exact unlinking_safe h hk hok hstep
  | loaded seed => cases call <;> simp [step, hk] at hstep
  | failed => cases call <;> simp [step, hk] at hstep

omit [DecidableEq P] in
theorem safe_one (h : Safe s) : OneSeed s := by
  intro p q seed seed' hp hq
  have hseed := h.each p
  have hseed' := h.each q
  rw [hp] at hseed
  rw [hq] at hseed'
  obtain ⟨i, hi, rfl, -⟩ := hseed
  obtain ⟨j, hj, rfl, -⟩ := hseed'
  rw [Option.some.inj (hi.symm.trans hj)]

end Steps

/-- Any number of processes, in any order of their calls. -/
theorem one_seed (entry : Entry) (content : ℕ → List UInt8) (acts : List (P × Call)) (s : State P)
    (hunread : Along step UnlinksUnread (start entry content) acts)
    (hrun : runFrom step (start entry content) acts = some s) : OneSeed s := by
  have hstart : Safe (start entry content : State P) := ⟨fun _ => trivial, nofun⟩
  exact safe_one (run_keeps (fun _ _ _ h hok hstep => step_safe h hok hstep) hstart hunread hrun)

def firstSeed : Vector UInt8 32 := Vector.replicate 32 1
def secondSeed : Vector UInt8 32 := Vector.replicate 32 2

/-- Two processes at first boot: one makes the file, the other reads it. -/
theorem one_seed_first_boot : ∃ s : State (Fin 2), runFrom step (start noFile fun _ => [])
    [(0, .openFails), (0, .draw firstSeed), (0, .create), (0, .write 32), (1, .openFile),
      (0, .sync), (1, .readFile)] = some s ∧ OneSeed s := by
  refine ⟨_, rfl, one_seed noFile (fun _ => []) [(0, .openFails), (0, .draw firstSeed),
    (0, .create), (0, .write 32), (1, .openFile), (0, .sync), (1, .readFile)] _ ?_ rfl⟩
  exact ⟨trivial, fun _ _ => ⟨trivial, fun _ _ => ⟨trivial, fun _ _ => ⟨trivial, fun _ _ =>
    ⟨trivial, fun _ _ => ⟨trivial, fun _ _ => ⟨trivial, fun _ _ => trivial⟩⟩⟩⟩⟩⟩⟩

/-- The second process reads the whole seed before the first finds that it did
not reach the disk and unlinks the file; the third makes another. -/
theorem two_seeds : ∃ s : State (Fin 3), runFrom step (start noFile fun _ => [])
    [(0, .openFails), (0, .draw firstSeed), (0, .create), (0, .write 32), (1, .openFile),
      (1, .readFile), (0, .syncFails), (0, .unlinkName), (2, .openFails), (2, .draw secondSeed),
      (2, .create), (2, .write 32), (2, .sync)] = some s ∧ ¬OneSeed s :=
  ⟨_, rfl, fun h => absurd (h 1 2 firstSeed.toList secondSeed.toList rfl rfl) (by decide)⟩

end RaptorCommon.SignSeed
