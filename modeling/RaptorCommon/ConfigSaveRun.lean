import RaptorCommon.AtomicWrite
import RaptorCommon.ConfigSave

/-!
# A save, one system call after another

The save of a config to an existing file, with the answer of every call it
makes given beforehand. At each moment the file holds its old text or the whole
new one, and a save that fails leaves the config with all it owed.
-/

set_option autoImplicit false

namespace RaptorCommon.ConfigSaveRun
open RaptorCommon.CText RaptorCommon.ConfigStore RaptorCommon.ConfigWriter
open RaptorCommon.ConfigEditor RaptorCommon.ConfigSave RaptorCommon.AtomicWrite

/-- The answers of the calls of `rss_config_save`: the allocation of
`collect_dirty`, `access`, opening the lock file, reading the file, the
allocations of the writer, and the calls of the atomic write. -/
structure Answers where
  refsAlloc : Bool
  accessOk : Bool
  lockOpen : Bool
  readOk : Bool
  buildOk : Bool
  write : WriteAnswers

inductive Phase where
  | collecting
  | checking
  | locking
  | reading
  | building (text : Option Bytes)
  | writing (stage : Stage)
  | returned (ret : ℤ)
  deriving DecidableEq, Repr

structure Moment where
  files : Files
  cfg : Config
  phase : Phase

/-- The name of the lock file, cut to its buffer. -/
def lockPath (path : Bytes) : Bytes := (path ++ ascii ".lock").take 511

/-- Opening with `O_CREAT` and without `O_TRUNC`. -/
def touch (name : Bytes) (files : Files) : Files :=
  Function.update files name (some ((files name).getD []))

def saveStep (a : Answers) (path : Bytes) (m : Moment) : Moment :=
  match m.phase with
  | .collecting =>
    if collectDirty m.cfg ≠ [] ∧ a.refsAlloc = false then { m with phase := .returned (-1) }
    else { m with phase := .checking }
  | .checking =>
    if collectDirty m.cfg = [] ∧ a.accessOk = true ∧ (m.files path).isSome then
      { m with phase := .returned 0 }
    else { m with phase := .locking }
  | .locking =>
    { m with
      files := if a.lockOpen then touch (lockPath path) m.files else m.files
      phase := .reading }
  | .reading => { m with phase := .building (if a.readOk then m.files path else none) }
  | .building (some text) =>
    if a.buildOk then
      { m with phase := .writing (.start (editedText (collectDirty m.cfg) text)) }
    else { m with phase := .returned (-1) }
  | .building none =>
    -- an empty config is written without an allocation
    if m.cfg = [] ∨ a.buildOk = true then
      { m with phase := .writing (.start (configText m.cfg)) }
    else { m with phase := .returned (-1) }
  | .writing (.returned ret) =>
    { m with cfg := if ret = 0 then clearDirty m.cfg else m.cfg, phase := .returned ret }
  | .writing stage =>
    let w := writeStep a.write path m.files stage
    { m with files := w.1, phase := .writing w.2 }
  | .returned _ => m

def saveAt (a : Answers) (path : Bytes) (files : Files) (cfg : Config) (n : ℕ) : Moment :=
  (saveStep a path)^[n] ⟨files, cfg, .collecting⟩

def wanted (a : Answers) (cfg : Config) (old : Bytes) : Bytes :=
  if a.readOk then editedText (collectDirty cfg) old else configText cfg

section Invariant

variable (a : Answers) (path : Bytes) (files : Files) (cfg : Config) (old : Bytes)

def Counted : Prop := ¬(collectDirty cfg ≠ [] ∧ a.refsAlloc = false)

def Due : Prop := ¬(collectDirty cfg = [] ∧ a.accessOk = true)

def Built : Prop := a.buildOk = true ∨ a.readOk = false ∧ cfg = []

inductive Ended (m : Moment) : ℤ → Prop where
  | wrote (hc : Counted a cfg) (hd : Due a cfg) (hb : Built a cfg)
      (hfile : m.files path = some (wanted a cfg old)) (hcfg : m.cfg = clearDirty cfg) : Ended m 0
  | idle (hc : Counted a cfg) (hd : ¬Due a cfg) (hfile : m.files = files)
      (hcfg : m.cfg = cfg) : Ended m 0
  | failed (hd : ¬Counted a cfg ∨ Due a cfg) (hfile : m.files path = some old)
      (hcfg : m.cfg = cfg) : Ended m (-1)

def Reached (m : Moment) : Prop :=
  match m.phase with
  | .collecting => m.files = files ∧ m.cfg = cfg
  | .checking => m.files = files ∧ m.cfg = cfg ∧ Counted a cfg
  | .locking | .reading => m.files path = some old ∧ m.cfg = cfg ∧ Counted a cfg ∧ Due a cfg
  | .building text => m.files path = some old ∧ m.cfg = cfg ∧ (Counted a cfg ∧ Due a cfg) ∧
      text = if a.readOk then some old else none
  | .writing stage => Holding path (wanted a cfg old) (some old) m.files stage ∧ m.cfg = cfg ∧
      (Counted a cfg ∧ Due a cfg) ∧ Built a cfg
  | .returned ret => Ended a path files cfg old m ret

variable {a path files cfg old}

theorem touch_kept {name : Bytes} (h : files path = some old) :
    touch name files path = some old := by
  unfold touch
  by_cases hn : path = name
  · rw [← hn, Function.update_self, h]
    rfl
  · rw [Function.update_of_ne hn, h]

theorem building_reached {m : Moment} {text : Option Bytes} (hp : m.phase = .building text)
    (h : Reached a path files cfg old m) : Reached a path files cfg old (saveStep a path m) := by
  obtain ⟨fs, c, p⟩ := m
  cases hp
  obtain ⟨hfile, rfl, hcd, rfl⟩ := h
  cases hr : a.readOk with
  | true =>
    simp only [saveStep, if_true]
    split_ifs with hb
    · refine ⟨⟨hfile, ?_⟩, rfl, hcd, .inl hb⟩
      rw [wanted, hr, if_pos rfl]
    · exact .failed (.inr hcd.2) hfile rfl
  | false =>
    simp only [saveStep, Bool.false_eq_true, if_false]
    split_ifs with hb
    · refine ⟨⟨hfile, ?_⟩, rfl, hcd, hb.symm.imp_right fun h0 => ⟨hr, h0⟩⟩
      rw [wanted, hr, if_neg Bool.false_ne_true]
    · exact .failed (.inr hcd.2) hfile rfl

theorem writing_reached {m : Moment} {stage : Stage} (hp : m.phase = .writing stage)
    (h : Reached a path files cfg old m) : Reached a path files cfg old (saveStep a path m) := by
  obtain ⟨fs, c, p⟩ := m
  cases hp
  obtain ⟨hhold, rfl, hcd, hb⟩ := h
  have hnext := write_step_holding (a := a.write) hhold
  cases stage with
  | returned ret =>
    obtain ⟨rfl, hnew⟩ | ⟨rfl, hold⟩ := hhold
    · exact .wrote hcd.1 hcd.2 hb hnew (by simp only [saveStep, if_true])
    · exact .failed (.inr hcd.2) hold (by simp [saveStep])
  | start d => exact ⟨hnext, rfl, hcd, hb⟩
  | writing remaining calls => exact ⟨hnext, rfl, hcd, hb⟩
  | syncing => exact ⟨hnext, rfl, hcd, hb⟩
  | synced => exact ⟨hnext, rfl, hcd, hb⟩
  | discarding => exact ⟨hnext, rfl, hcd, hb⟩

theorem save_step_reached (hold : files path = some old) {m : Moment}
    (h : Reached a path files cfg old m) : Reached a path files cfg old (saveStep a path m) := by
  cases hp : m.phase with
  | building text => exact building_reached hp h
  | writing stage => exact writing_reached hp h
  | collecting =>
    obtain ⟨fs, c, p⟩ := m
    cases hp
    obtain ⟨rfl, rfl⟩ := h
    simp only [saveStep]
    split_ifs with hc
    · exact .failed (.inl fun hn => hn hc) hold rfl
    · exact ⟨rfl, rfl, hc⟩
  | checking =>
    obtain ⟨fs, c, p⟩ := m
    cases hp
    obtain ⟨rfl, rfl, hc⟩ := h
    simp only [saveStep]
    split_ifs with hd
    · exact .idle hc (fun hn => hn ⟨hd.1, hd.2.1⟩) rfl rfl
    · refine ⟨hold, rfl, hc, fun hn => hd ⟨hn.1, hn.2, ?_⟩⟩
      exact Option.isSome_of_mem hold
  | locking =>
    obtain ⟨fs, c, p⟩ := m
    cases hp
    obtain ⟨hfile, rfl, hcd⟩ := h
    refine ⟨?_, rfl, hcd⟩
    simp only [saveStep]
    split_ifs
    · exact touch_kept hfile
    · exact hfile
  | reading =>
    obtain ⟨fs, c, p⟩ := m
    cases hp
    obtain ⟨hfile, rfl, hcd⟩ := h
    refine ⟨hfile, rfl, hcd, ?_⟩
    rw [← hfile]
  | returned ret =>
    have hstay : saveStep a path m = m := by rw [saveStep, hp]
    rw [hstay]
    exact h

theorem save_at_succ (n : ℕ) :
    saveAt a path files cfg (n+1) = saveStep a path (saveAt a path files cfg n) :=
  Function.iterate_succ_apply' ..

theorem save_at_reached (a : Answers) (cfg : Config) (hold : files path = some old) (n : ℕ) :
    Reached a path files cfg old (saveAt a path files cfg n) := by
  induction n with
  | zero => exact ⟨rfl, rfl⟩
  | succ n ih =>
    rw [save_at_succ]
    exact save_step_reached hold ih

theorem save_ended (hold : files path = some old) {n : ℕ} {ret : ℤ}
    (hret : (saveAt a path files cfg n).phase = .returned ret) :
    Ended a path files cfg old (saveAt a path files cfg n) ret := by
  have h := save_at_reached a cfg hold n
  unfold Reached at h
  rwa [hret] at h

theorem save_whole (hold : files path = some old) (n : ℕ) :
    (saveAt a path files cfg n).files path = some old ∨
      (saveAt a path files cfg n).files path = some (wanted a cfg old) := by
  have h := save_at_reached a cfg hold n
  unfold Reached at h
  split at h
  · exact .inl ((congrFun h.1 path).trans hold)
  · exact .inl ((congrFun h.1 path).trans hold)
  · exact .inl h.1
  · exact .inl h.1
  · exact .inl h.1
  · exact holding_whole h.1
  · cases h with
    | wrote _ _ _ hfile => exact .inr hfile
    | idle _ _ hfile => exact .inl ((congrFun hfile path).trans hold)
    | failed _ hfile => exact .inl hfile

end Invariant

section Retry

variable {a : Answers} {path : Bytes} {files : Files} {cfg : Config}

def stageOf : Phase → Stage
  | .writing stage => stage
  | _ => .discarding

/-- Two moments that differ at most in what a failed save left behind. -/
structure SameSave (path : Bytes) (m m' : Moment) : Prop where
  cfg : m.cfg = m'.cfg
  phase : m.phase = m'.phase
  files : Alike path (stageOf m.phase) m.files m'.files

theorem touch_alike {name : Bytes} {files files' : Files} (h : files path = files' path) :
    touch name files path = touch name files' path := by
  unfold touch
  by_cases hn : path = name
  · rw [← hn, Function.update_self, Function.update_self, h]
  · rw [Function.update_of_ne hn, Function.update_of_ne hn, h]

theorem same_save {cfg : Config} {files files' : Files} (phase : Phase)
    (h : Alike path (stageOf phase) files files') :
    SameSave path ⟨files, cfg, phase⟩ ⟨files', cfg, phase⟩ := ⟨rfl, rfl, h⟩

theorem alike_file {files files' : Files} {stage : Stage} (h : files path = files' path)
    (ho : ¬Opened stage) : Alike path stage files files' := ⟨h, fun hf => absurd hf ho⟩

theorem save_step_same {m m' : Moment} (h : SameSave path m m') :
    SameSave path (saveStep a path m) (saveStep a path m') := by
  obtain ⟨fs, c, p⟩ := m
  obtain ⟨fs', c', p'⟩ := m'
  obtain ⟨hcfg, hphase, hfiles⟩ := h
  cases hcfg
  cases hphase
  have hfile : fs path = fs' path := hfiles.file
  cases p with
  | collecting =>
    simp only [saveStep]
    split_ifs
    · exact same_save _ (alike_file hfile id)
    · exact same_save _ (alike_file hfile id)
  | checking =>
    simp only [saveStep, hfile]
    split_ifs
    · exact same_save _ (alike_file hfile id)
    · exact same_save _ (alike_file hfile id)
  | locking =>
    simp only [saveStep]
    split_ifs
    · exact same_save _ (alike_file (touch_alike hfile) id)
    · exact same_save _ (alike_file hfile id)
  | reading =>
    simp only [saveStep, hfile]
    exact same_save _ (alike_file hfile id)
  | building text =>
    cases text with
    | none =>
      simp only [saveStep]
      split_ifs
      · exact same_save _ (alike_file hfile id)
      · exact same_save _ (alike_file hfile id)
    | some text =>
      simp only [saveStep]
      split_ifs
      · exact same_save _ (alike_file hfile id)
      · exact same_save _ (alike_file hfile id)
  | writing stage =>
    obtain ⟨hstage, hnext⟩ := write_step_alike (a := a.write) hfiles
    cases stage with
    | returned ret => exact ⟨rfl, rfl, alike_file hfile id⟩
    | start d => exact ⟨rfl, congrArg Phase.writing hstage, hnext⟩
    | writing remaining calls => exact ⟨rfl, congrArg Phase.writing hstage, hnext⟩
    | syncing => exact ⟨rfl, congrArg Phase.writing hstage, hnext⟩
    | synced => exact ⟨rfl, congrArg Phase.writing hstage, hnext⟩
    | discarding => exact ⟨rfl, congrArg Phase.writing hstage, hnext⟩
  | returned ret => exact ⟨rfl, rfl, hfiles⟩

theorem save_at_same {files' : Files} (h : files path = files' path) (n : ℕ) :
    SameSave path (saveAt a path files cfg n) (saveAt a path files' cfg n) := by
  induction n with
  | zero => exact same_save _ (alike_file h id)
  | succ n ih =>
    rw [save_at_succ, save_at_succ]
    exact save_step_same ih

end Retry

section Return

variable {a : Answers} {path : Bytes}

def Finishes (a : Answers) (path : Bytes) (m : Moment) : Prop :=
  ∃ n ret, ((saveStep a path)^[n] m).phase = .returned ret

theorem finishes_step {m m' : Moment} (hs : saveStep a path m = m') (h : Finishes a path m') :
    Finishes a path m := by
  obtain ⟨n, ret, hret⟩ := h
  refine ⟨n+1, ret, ?_⟩
  rwa [Function.iterate_succ_apply, hs]

theorem returned_finishes (files : Files) (cfg : Config) (ret : ℤ) :
    Finishes a path ⟨files, cfg, .returned ret⟩ := ⟨0, ret, rfl⟩

theorem done_finishes (files : Files) (cfg : Config) (ret : ℤ) :
    Finishes a path ⟨files, cfg, .writing (.returned ret)⟩ :=
  finishes_step rfl (returned_finishes ..)

theorem discarding_finishes (files : Files) (cfg : Config) :
    Finishes a path ⟨files, cfg, .writing .discarding⟩ :=
  finishes_step rfl (done_finishes ..)

theorem syncing_finishes (files : Files) (cfg : Config) :
    Finishes a path ⟨files, cfg, .writing .syncing⟩ := by
  have hsynced : Finishes a path ⟨files, cfg, .writing .synced⟩ := by
    apply finishes_step rfl
    simp only [saveStep, writeStep]
    split_ifs
    · exact done_finishes ..
    · exact discarding_finishes ..
  apply finishes_step rfl
  simp only [saveStep, writeStep]
  split_ifs
  · exact hsynced
  · exact discarding_finishes ..

/-- The calls of `write` are answered other than by a signal again and again. -/
def Answered (w : WriteAnswers) : Prop := ∀ calls, ∃ wait, w.writes (calls+wait) ≠ .interrupted

theorem writing_finishes (hw : Answered a.write) (files : Files) (cfg : Config)
    (remaining : Bytes) (calls : ℕ) :
    Finishes a path ⟨files, cfg, .writing (.writing remaining calls)⟩ := by
  induction hlen : remaining.length using Nat.strong_induction_on
    generalizing files remaining calls with
  | _ len ih =>
    cases remaining with
    | nil => exact finishes_step rfl (syncing_finishes ..)
    | cons c rest =>
      -- a call that is not interrupted fails or takes at least one byte
      have hcall : ∀ calls, a.write.writes calls ≠ .interrupted →
          Finishes a path ⟨files, cfg, .writing (.writing (c::rest) calls)⟩ := by
        intro calls hans
        apply finishes_step rfl
        simp only [saveStep, writeStep]
        cases hw : a.write.writes calls with
        | interrupted => exact absurd hw hans
        | failed => exact discarding_finishes ..
        | wrote more =>
          refine ih _ ?_ _ _ _ rfl
          rw [← hlen, List.drop_succ_cons, List.length_drop, List.length_cons]
          omega
      obtain ⟨wait, hwait⟩ := hw calls
      induction wait generalizing calls with
      | zero => exact hcall calls hwait
      | succ wait ihw =>
        by_cases hans : a.write.writes calls = .interrupted
        · apply finishes_step rfl
          simp only [saveStep, writeStep, hans]
          refine ihw (calls+1) ?_
          rwa [Nat.add_assoc, Nat.add_comm 1]
        · exact hcall calls hans

theorem start_finishes (hw : Answered a.write) (files : Files) (cfg : Config) (data : Bytes) :
    Finishes a path ⟨files, cfg, .writing (.start data)⟩ := by
  apply finishes_step rfl
  simp only [saveStep, writeStep]
  split_ifs
  · exact writing_finishes hw ..
  · exact done_finishes ..

theorem building_finishes (hw : Answered a.write) (files : Files) (cfg : Config)
    (text : Option Bytes) : Finishes a path ⟨files, cfg, .building text⟩ := by
  apply finishes_step rfl
  cases text with
  | none =>
    simp only [saveStep]
    split_ifs
    · exact start_finishes hw ..
    · exact returned_finishes ..
  | some text =>
    simp only [saveStep]
    split_ifs
    · exact start_finishes hw ..
    · exact returned_finishes ..

/-- A save returns unless signals interrupt its writes forever. -/
theorem save_returns (hw : Answered a.write) (files : Files) (cfg : Config) :
    ∃ n ret, (saveAt a path files cfg n).phase = .returned ret := by
  have hlocking : Finishes a path ⟨files, cfg, .locking⟩ :=
    finishes_step rfl (finishes_step rfl (building_finishes hw ..))
  have hchecking : Finishes a path ⟨files, cfg, .checking⟩ := by
    apply finishes_step rfl
    simp only [saveStep]
    split_ifs
    · exact returned_finishes ..
    · exact hlocking
  show Finishes a path ⟨files, cfg, .collecting⟩
  apply finishes_step rfl
  simp only [saveStep]
  split_ifs
  · exact returned_finishes ..
  · exact hchecking

end Return

section Outcome

variable {a : Answers} {path : Bytes} {files : Files} {cfg : Config} {old : Bytes}

/-- The calls one by one have the outcome of `rssConfigSave`. -/
theorem save_run_result (hold : files path = some old) {n : ℕ} {ret : ℤ}
    (hret : (saveAt a path files cfg n).phase = .returned ret) :
    ∃ wrote, rssConfigSave ⟨a.refsAlloc, a.accessOk, a.readOk, a.buildOk, wrote⟩ cfg (some old) =
      ⟨ret, (saveAt a path files cfg n).cfg, (saveAt a path files cfg n).files path⟩ := by
  have h := save_ended hold hret
  generalize saveAt a path files cfg n = m at h ⊢
  have hdue (hd : Due a cfg) :
      ¬(collectDirty cfg = [] ∧ a.accessOk = true ∧ (some old).isSome = true) :=
    fun hn => hd ⟨hn.1, hn.2.1⟩
  cases h with
  | wrote hc hd hb hfile hcfg =>
    refine ⟨true, ?_⟩
    unfold rssConfigSave
    rw [hfile, hcfg, wanted]
    dsimp only
    rw [if_neg hc, if_neg (hdue hd)]
    cases hr : a.readOk with
    | true =>
      have hbuild : a.buildOk = true := hb.resolve_right fun hn => by simp [hr] at hn
      simp [configWriteSurgical, hbuild]
    | false =>
      have hbuild : cfg = [] ∨ a.buildOk = true := hb.symm.imp_left And.right
      simp [configWrite, hbuild]
  | idle hc hd hfile hcfg =>
    have hclean := not_not.mp hd
    refine ⟨true, ?_⟩
    unfold rssConfigSave
    dsimp only
    rw [if_neg hc, if_pos ⟨hclean.1, hclean.2, rfl⟩, hfile, hcfg, hold]
  | failed hd hfile hcfg =>
    refine ⟨false, ?_⟩
    unfold rssConfigSave
    rw [hfile, hcfg]
    dsimp only
    by_cases hc : collectDirty cfg ≠ [] ∧ a.refsAlloc = false
    · rw [if_pos hc]
    · rw [if_neg hc, if_neg (hdue (hd.resolve_left fun hn => hn hc))]
      cases a.readOk <;> simp [configWriteSurgical, configWrite]

/-- A save that fails changes nothing, one that does not writes everything. -/
structure AllOrNothing (a : Answers) (path : Bytes) (files : Files) (cfg : Config)
    (old : Bytes) : Prop where
  whole : ∀ n, (saveAt a path files cfg n).files path = some old ∨
    (saveAt a path files cfg n).files path = some (editedText (collectDirty cfg) old)
  codes : ∀ n ret, (saveAt a path files cfg n).phase = .returned ret → ret = 0 ∨ ret = -1
  saved : ∀ n, (saveAt a path files cfg n).phase = .returned 0 →
    (saveAt a path files cfg n).files path = some (editedText (collectDirty cfg) old) ∧
        (saveAt a path files cfg n).cfg = clearDirty cfg ∨
      collectDirty cfg = [] ∧ (saveAt a path files cfg n).files = files ∧
        (saveAt a path files cfg n).cfg = cfg
  unharmed : ∀ n, (saveAt a path files cfg n).phase = .returned (-1) →
    (saveAt a path files cfg n).files path = some old ∧ (saveAt a path files cfg n).cfg = cfg
  retried : ∀ n, (saveAt a path files cfg n).phase = .returned (-1) → ∀ b k,
    SameSave path
      (saveAt b path (saveAt a path files cfg n).files (saveAt a path files cfg n).cfg k)
      (saveAt b path files cfg k)

theorem save_all_or_nothing (a : Answers) (path : Bytes) (files : Files) (cfg : Config)
    (old : Bytes) (hold : files path = some old) (hread : a.readOk = true) :
    AllOrNothing a path files cfg old := by
  have hnew : wanted a cfg old = editedText (collectDirty cfg) old := if_pos hread
  have hfail : ∀ n, (saveAt a path files cfg n).phase = .returned (-1) →
      (saveAt a path files cfg n).files path = some old ∧
        (saveAt a path files cfg n).cfg = cfg := by
    intro n hret
    generalize hr : (-1 : ℤ) = ret at hret
    cases save_ended hold hret with
    | wrote => cases hr
    | idle => cases hr
    | failed _ hfile hcfg => exact ⟨hfile, hcfg⟩
  refine ⟨fun n => hnew ▸ save_whole hold n, ?_, ?_, hfail, ?_⟩
  · intro n ret hret
    cases save_ended hold hret with
    | wrote => exact .inl rfl
    | idle => exact .inl rfl
    | failed => exact .inr rfl
  · intro n hret
    generalize hr : (0 : ℤ) = ret at hret
    cases save_ended hold hret with
    | wrote _ _ _ hfile hcfg => exact .inl ⟨hnew ▸ hfile, hcfg⟩
    | idle _ hd hfile hcfg => exact .inr ⟨(not_not.mp hd).1, hfile, hcfg⟩
    | failed => cases hr
  · intro n hret b k
    obtain ⟨hfile, hcfg⟩ := hfail n hret
    rw [hcfg]
    exact save_at_same (hfile.trans hold.symm) k

/-- A save of one set key whose rename fails. -/
theorem save_all_or_nothing_failing : AllOrNothing
    ⟨true, true, true, true, true, ⟨true, true, fun _ => .wrote 0, true, false, true⟩⟩
    (ascii "raptor.conf")
    (Function.update (fun _ => none) (ascii "raptor.conf") (some (ascii "[s]\nk = 1\n")))
    (rssConfigSetStr (literal "s") (literal "k") (literal "2") []) (ascii "[s]\nk = 1\n") :=
  save_all_or_nothing _ _ _ _ _ (Function.update_self ..) rfl

end Outcome

end RaptorCommon.ConfigSaveRun
