import Mathlib.Tactic.SplitIfs
import RaptorCommon.StepSystem

/-!
# One instance for each daemon name

Processes meet at the name of the pid file, but the lock belongs to the file.
A process that opened the file before the name was unlinked may lock it after
another has made and locked a new one under the same name. Where every lock is
taken on the file that the name then stands for, there is one instance.
-/

set_option autoImplicit false

namespace RaptorCommon.PidLock
open RaptorCommon.StepSystem

/-- How far a process has come, with the number of its pid file. A process is
followed through its forks, which inherit the descriptor and with it the lock. -/
inductive Stage where
  | idle
  | opened (file : ℕ)
  | locked (file : ℕ)
  | stranded (file : ℕ)
  | active (file : ℕ)
  | leaving (file : ℕ)
  | left (file : ℕ)
  | exited
  deriving DecidableEq, Repr

/-- The file a process keeps locked, also where `rss_daemonize` returned -1
with the descriptor open. -/
def Stage.lock : Stage → Option ℕ
  | .locked i | .stranded i | .active i | .leaving i | .left i => some i
  | .idle | .opened _ | .exited => none

inductive Call where
  | openFile
  | lockFile
  | lockRefused
  | giveUp
  | strand
  | writePid
  | cleanup
  | unlinkName
  | unlinkFails
  | exec
  | exit
  deriving DecidableEq, Repr

variable {P : Type*} [DecidableEq P]

structure State (P : Type*) where
  stage : P → Stage
  entry : Entry
  locks : ℕ → Option P
  pids : ℕ → Option P

namespace State

def move (s : State P) (p : P) (stage : Stage) : State P :=
  { s with stage := Function.update s.stage p stage }

def release (s : State P) (p : P) : State P :=
  match (s.stage p).lock with
  | some i => { s with locks := Function.update s.locks i none }
  | none => s

end State

def step (s : State P) : P × Call → Option (State P)
  | (p, .openFile) =>
    if s.stage p = .idle then
      let o := s.entry.opened
      some { s.move p (.opened o.1) with entry := o.2 }
    else none
  | (p, .lockFile) =>
    match s.stage p with
    | .opened i =>
      if s.locks i = none then
        some { s.move p (.locked i) with locks := Function.update s.locks i (some p) }
      else none
    | _ => none
  | (p, .lockRefused) =>
    match s.stage p with
    | .opened _ => some (s.move p .idle)
    | _ => none
  | (p, .giveUp) =>
    match s.stage p with
    | .locked _ => some ((s.release p).move p .idle)
    | _ => none
  | (p, .strand) =>
    match s.stage p with
    | .locked i => some (s.move p (.stranded i))
    | _ => none
  | (p, .writePid) =>
    match s.stage p with
    | .locked i => some { s.move p (.active i) with pids := Function.update s.pids i (some p) }
    | _ => none
  | (p, .cleanup) =>
    match s.stage p with
    | .active i => some (s.move p (.leaving i))
    | _ => none
  | (p, .unlinkName) =>
    match s.stage p with
    | .leaving i => some { s.move p (.left i) with entry := s.entry.unlinked }
    | _ => none
  | (p, .unlinkFails) =>
    match s.stage p with
    | .leaving i => some (s.move p (.left i))
    | _ => none
  | (p, .exec) =>
    match s.stage p with
    | .left _ => some ((s.release p).move p .idle)
    | _ => none
  | (p, .exit) => if s.stage p = .exited then none else some ((s.release p).move p .exited)

def start (entry : Entry) (pids : ℕ → Option P) : State P :=
  ⟨fun _ => .idle, entry, fun _ => none, pids⟩

def OneActive (s : State P) : Prop :=
  ∀ p q i j, s.stage p = .active i → s.stage q = .active j → p = q

/-- A lock is taken on the file that the name then stands for. -/
def LocksNamed (s : State P) : P × Call → Prop
  | (p, .lockFile) => ∀ i, s.stage p = .opened i → s.entry.link = some i
  | _ => True

def Stage.relied : Stage → Option ℕ
  | .locked i | .active i | .leaving i => some i
  | _ => none

structure Safe (s : State P) : Prop where
  held : ∀ p i, (s.stage p).lock = some i → s.locks i = some p
  named : ∀ p i, (s.stage p).relied = some i → s.entry.link = some i

section Steps

variable {s : State P} {p : P}

theorem relied_lock {stage : Stage} {i : ℕ} (h : stage.relied = some i) : stage.lock = some i := by
  cases stage with
  | locked j => exact h
  | active j => exact h
  | leaving j => exact h
  | _ => cases h

omit [DecidableEq P] in
theorem release_stage : (s.release p).stage = s.stage := by
  unfold State.release
  split <;> rfl

omit [DecidableEq P] in
theorem release_entry : (s.release p).entry = s.entry := by
  unfold State.release
  split <;> rfl

theorem move_safe (h : Safe s) {stage : Stage} (hlock : stage.lock = (s.stage p).lock)
    (hrel : ∀ i, stage.relied = some i → (s.stage p).relied = some i) : Safe (s.move p stage) := by
  constructor
  · intro q i hq
    by_cases hqp : q = p
    · subst hqp
      simp only [State.move, Function.update_self] at hq
      exact h.held q i (hlock ▸ hq)
    · simp only [State.move, Function.update_of_ne hqp] at hq
      exact h.held q i hq
  · intro q i hq
    by_cases hqp : q = p
    · subst hqp
      simp only [State.move, Function.update_self] at hq
      exact h.named q i (hrel i hq)
    · simp only [State.move, Function.update_of_ne hqp] at hq
      exact h.named q i hq

theorem release_safe (h : Safe s) {stage : Stage} (hlock : stage.lock = none) :
    Safe ((s.release p).move p stage) := by
  have hother : ∀ q i, q ≠ p → (s.stage q).lock = some i → (s.release p).locks i = some q := by
    intro q i hqp hq
    have hheld := h.held q i hq
    unfold State.release
    split
    · rename_i j hj
      have hij : i ≠ j := by
        rintro rfl
        exact hqp (Option.some.inj (hheld.symm.trans (h.held p i hj)))
      exact (Function.update_of_ne hij none s.locks).trans hheld
    · exact hheld
  constructor
  · intro q i hq
    by_cases hqp : q = p
    · subst hqp
      simp only [State.move, Function.update_self, hlock] at hq
      cases hq
    · simp only [State.move, Function.update_of_ne hqp, release_stage] at hq
      exact hother q i hqp hq
  · intro q i hq
    by_cases hqp : q = p
    · subst hqp
      simp only [State.move, Function.update_self] at hq
      rw [relied_lock hq] at hlock
      cases hlock
    · simp only [State.move, Function.update_of_ne hqp, release_stage] at hq
      show (s.release p).entry.link = some i
      rw [release_entry]
      exact h.named q i hq

theorem open_safe (h : Safe s) (hidle : s.stage p = .idle) :
    Safe { s.move p (.opened s.entry.opened.1) with entry := s.entry.opened.2 } := by
  have hmove : Safe (s.move p (.opened s.entry.opened.1)) :=
    move_safe h (by rw [hidle]; rfl) nofun
  refine ⟨hmove.held, fun q i hq => ?_⟩
  have hlink : s.entry.link = some i := hmove.named q i hq
  show s.entry.opened.2.link = some i
  rw [s.entry.opened_keeps hlink, hlink]

theorem lock_safe (h : Safe s) {file : ℕ} (hfree : s.locks file = none)
    (hlink : s.entry.link = some file) :
    Safe { s.move p (.locked file) with locks := Function.update s.locks file (some p) } := by
  constructor
  · intro q i hq
    by_cases hqp : q = p
    · subst hqp
      simp only [State.move, Function.update_self] at hq
      cases hq
      exact Function.update_self ..
    · simp only [State.move, Function.update_of_ne hqp] at hq
      have hheld := h.held q i hq
      have hne : i ≠ file := by
        rintro rfl
        rw [hfree] at hheld
        cases hheld
      exact (Function.update_of_ne hne (some p) s.locks).trans hheld
  · intro q i hq
    by_cases hqp : q = p
    · subst hqp
      simp only [State.move, Function.update_self] at hq
      cases hq
      exact hlink
    · simp only [State.move, Function.update_of_ne hqp] at hq
      exact h.named q i hq

/-- Nobody else relies on the name that a leaving process unlinks. -/
theorem unlink_safe (h : Safe s) {file : ℕ} (hleave : s.stage p = .leaving file) :
    Safe { s.move p (.left file) with entry := s.entry.unlinked } := by
  have hmove : Safe (s.move p (.left file)) := move_safe h (by rw [hleave]; rfl) nofun
  refine ⟨hmove.held, fun q i hq => ?_⟩
  by_cases hqp : q = p
  · subst hqp
    simp only [State.move, Function.update_self] at hq
    cases hq
  · simp only [State.move, Function.update_of_ne hqp] at hq
    have hsame := (h.named q i hq).symm.trans (h.named p file (by rw [hleave]; rfl))
    obtain rfl : i = file := Option.some.inj hsame
    have hheld := (h.held q i (relied_lock hq)).symm.trans (h.held p i (by rw [hleave]; rfl))
    exact absurd (Option.some.inj hheld) hqp

variable {s' : State P} {call : Call} {file : ℕ}

theorem exit_safe (h : Safe s) (hstep : step s (p, .exit) = some s') : Safe s' := by
  simp only [step] at hstep
  split_ifs at hstep
  cases hstep
  exact release_safe h rfl

theorem idle_safe (h : Safe s) (hk : s.stage p = .idle) (hstep : step s (p, call) = some s') :
    Safe s' := by
  cases call with
  | openFile =>
    simp only [step, hk, if_true] at hstep
    cases hstep
    exact open_safe h hk
  | exit => exact exit_safe h hstep
  | _ => simp [step, hk] at hstep

theorem opened_safe (h : Safe s) (hk : s.stage p = .opened file) (hok : LocksNamed s (p, call))
    (hstep : step s (p, call) = some s') : Safe s' := by
  cases call with
  | lockFile =>
    by_cases hfree : s.locks file = none
    · simp only [step, hk, if_pos hfree] at hstep
      cases hstep
      exact lock_safe h hfree (hok file hk)
    · simp [step, hk, hfree] at hstep
  | lockRefused =>
    obtain rfl : s.move p .idle = s' := by simpa [step, hk] using hstep
    exact move_safe h (by rw [hk]; rfl) nofun
  | exit => exact exit_safe h hstep
  | _ => simp [step, hk] at hstep

theorem locked_safe (h : Safe s) (hk : s.stage p = .locked file)
    (hstep : step s (p, call) = some s') : Safe s' := by
  cases call with
  | giveUp =>
    obtain rfl : (s.release p).move p .idle = s' := by simpa [step, hk] using hstep
    exact release_safe h rfl
  | strand =>
    obtain rfl : s.move p (.stranded file) = s' := by simpa [step, hk] using hstep
    exact move_safe h (by rw [hk]; rfl) nofun
  | writePid =>
    simp only [step, hk] at hstep
    cases hstep
    have hmove : Safe (s.move p (.active file)) :=
      move_safe h (by rw [hk]; rfl) (by rw [hk]; exact fun j hj => hj)
    exact ⟨hmove.held, hmove.named⟩
  | exit => exact exit_safe h hstep
  | _ => simp [step, hk] at hstep

theorem active_safe (h : Safe s) (hk : s.stage p = .active file)
    (hstep : step s (p, call) = some s') : Safe s' := by
  cases call with
  | cleanup =>
    obtain rfl : s.move p (.leaving file) = s' := by simpa [step, hk] using hstep
    exact move_safe h (by rw [hk]; rfl) (by rw [hk]; exact fun j hj => hj)
  | exit => exact exit_safe h hstep
  | _ => simp [step, hk] at hstep

theorem leaving_safe (h : Safe s) (hk : s.stage p = .leaving file)
    (hstep : step s (p, call) = some s') : Safe s' := by
  cases call with
  | unlinkName =>
    simp only [step, hk] at hstep
    cases hstep
    exact unlink_safe h hk
  | unlinkFails =>
    obtain rfl : s.move p (.left file) = s' := by simpa [step, hk] using hstep
    exact move_safe h (by rw [hk]; rfl) nofun
  | exit => exact exit_safe h hstep
  | _ => simp [step, hk] at hstep

theorem left_safe (h : Safe s) (hk : s.stage p = .left file)
    (hstep : step s (p, call) = some s') : Safe s' := by
  cases call with
  | exec =>
    obtain rfl : (s.release p).move p .idle = s' := by simpa [step, hk] using hstep
    exact release_safe h rfl
  | exit => exact exit_safe h hstep
  | _ => simp [step, hk] at hstep

theorem step_safe {a : P × Call} (h : Safe s) (hok : LocksNamed s a)
    (hstep : step s a = some s') : Safe s' := by
  obtain ⟨p, call⟩ := a
  cases hk : s.stage p with
  | idle => exact idle_safe h hk hstep
  | opened file => exact opened_safe h hk hok hstep
  | locked file => exact locked_safe h hk hstep
  | active file => exact active_safe h hk hstep
  | leaving file => exact leaving_safe h hk hstep
  | left file => exact left_safe h hk hstep
  | exited => cases call <;> simp [step, hk] at hstep
  | stranded file =>
    cases call with
    | exit => exact exit_safe h hstep
    | _ => simp [step, hk] at hstep

omit [DecidableEq P] in
theorem safe_one (h : Safe s) : OneActive s := by
  intro p q i j hp hq
  have hlink := h.named p i (by rw [hp]; rfl)
  rw [h.named q j (by rw [hq]; rfl)] at hlink
  obtain rfl : j = i := Option.some.inj hlink
  have hheld := h.held p j (by rw [hp]; rfl)
  rw [h.held q j (by rw [hq]; rfl)] at hheld
  exact (Option.some.inj hheld).symm

end Steps

/-- Any number of processes, in any order of their steps. -/
theorem one_active (entry : Entry) (pids : ℕ → Option P) (acts : List (P × Call)) (s : State P)
    (hnamed : Along step LocksNamed (start entry pids) acts)
    (hrun : runFrom step (start entry pids) acts = some s) : OneActive s := by
  have hstart : Safe (start entry pids) := ⟨nofun, nofun⟩
  exact safe_one (run_keeps (fun _ _ _ h hok hstep => step_safe h hok hstep) hstart hnamed hrun)

/-- A second process is refused while the first is active. -/
theorem one_active_refused : ∃ s : State (Fin 2), runFrom step (start noFile fun _ => none)
    [(0, .openFile), (0, .lockFile), (0, .writePid), (1, .openFile), (1, .lockRefused)] = some s ∧
      OneActive s := by
  refine ⟨_, rfl, one_active noFile (fun _ => none)
    [(0, .openFile), (0, .lockFile), (0, .writePid), (1, .openFile), (1, .lockRefused)] _ ?_ rfl⟩
  refine ⟨trivial, fun _ h => ?_⟩
  cases h
  refine ⟨fun i hi => ?_, fun _ h => ?_⟩
  · cases hi
    rfl
  · cases h
    refine ⟨trivial, fun _ h => ?_⟩
    cases h
    refine ⟨trivial, fun _ h => ?_⟩
    cases h
    exact ⟨trivial, fun _ _ => trivial⟩

/-- The second process opens the file before the first unlinks its name, and
locks it when the first exits; the third has made a new file meanwhile. -/
theorem two_active : ∃ s : State (Fin 3), runFrom step (start noFile fun _ => none)
    [(0, .openFile), (0, .lockFile), (0, .writePid), (1, .openFile), (0, .cleanup),
      (0, .unlinkName), (2, .openFile), (2, .lockFile), (2, .writePid), (0, .exit),
      (1, .lockFile), (1, .writePid)] = some s ∧ ¬OneActive s :=
  ⟨_, rfl, fun h => absurd (h 1 2 0 1 rfl rfl) (by decide)⟩

end RaptorCommon.PidLock
