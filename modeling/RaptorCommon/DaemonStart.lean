import RaptorCommon.ConfigShared
import RaptorCommon.CtrlCommands

/-!
# The start of a daemon

`rss_daemon_init` takes its options, loads the configuration file and reads
from it how to log, which processor to stay on and at what priority to run.
After every run of the processes that share the file, a daemon starts with what
the owner of each setting saved last.
-/

set_option autoImplicit false

namespace RaptorCommon.DaemonStart
open RaptorCommon.CText RaptorCommon.ConfigStore RaptorCommon.ConfigLoader
open RaptorCommon.ConfigSave RaptorCommon.ConfigSettings RaptorCommon.ConfigInvariant
open RaptorCommon.ConfigMap RaptorCommon.ConfigSaving RaptorCommon.ConfigShared
open RaptorCommon.WriteBack RaptorCommon.Json RaptorCommon.DecimalText
open RaptorCommon.CtrlMessages RaptorCommon.CtrlCommands

section Options

inductive Opt where
  | config (path : CString)
  | foreground
  | debug
  | version
  | help
  | unknown

structure Options where
  configPath : CString
  foreground : Bool
  debug : Bool
  showHelp : Bool

def defaults : Options := ⟨word "/etc/raptor.conf", false, false, false⟩

/-- The options, or what the start returns because of them. -/
def options : List Opt → Options → Except ℤ Options
  | [], o => if o.showHelp then .error 1 else .ok o
  | .config path::rest, o => options rest { o with configPath := path }
  | .foreground::rest, o => options rest { o with foreground := true }
  | .debug::rest, o => options rest { o with debug := true }
  | .version::_, _ => .error 1
  | .help::rest, o => options rest { o with showHelp := true }
  | .unknown::_, _ => .error (-1)

end Options

section Start

inductive LogTarget where
  | stderr
  | syslog
  | file
  | both

structure Log where
  level : ℕ
  target : LogTarget
  logFile : Option Bytes

inductive Call where
  | setAffinity (cpus : ℕ → Bool)
  | setScheduler (priority : ℤ)

structure Start where
  ret : ℤ
  log : Option Log
  cfg : Option Config
  calls : List Call

def logLevel (debug : Bool) (cfgLevel : Bytes) : ℕ :=
  if debug then 5 else (levelNames.findIdx? (fun name => name.chars = cfgLevel)).getD 3

def logTarget (foreground : Bool) (cfgTarget : Bytes) : LogTarget :=
  if foreground then .stderr
  else if cfgTarget = ascii "stderr" then .stderr
  else if cfgTarget = ascii "file" then .file
  else .syslog

def getText (sec key d : CString) (cfg : Config) : Bytes × Config :=
  let found := rssConfigGetStr sec key (some d) cfg
  ((found.1.getD d).chars, found.2)

def configLog (o : Options) (cfg : Config) : Log × Config :=
  let cfgLevel := getText (word "log") (word "level") (word "info") cfg
  let cfgTarget := getText (word "log") (word "target") (word "syslog") cfgLevel.2
  let cfgFile := getText (word "log") (word "file") (word "") cfgTarget.2
  (⟨logLevel o.debug cfgLevel.1, logTarget o.foreground cfgTarget.1,
    if cfgFile.1 = [] then none else some cfgFile.1⟩, cfgFile.2)

def getNumCpus (n : ℤ) : ℤ := if 0 < n then n else 1

def affinityCalls (ncpus cpu : ℤ) : List Call :=
  if 0 ≤ cpu then
    if ncpus ≤ 1 then []
    else if ncpus ≤ cpu then []
    else [.setAffinity fun i => decide (i = cpu.toNat ∧ i < cpuSetSize)]
  else []

def applyScheduling (longMax : ℕ) (ncpus : ℤ) (name : CString) (cfg : Config) :
    List Call × Config :=
  let cpu := rssConfigGetInt longMax name (word "cpu_affinity") (-1) cfg
  let prio := rssConfigGetInt longMax name (word "sched_priority") (-1) cpu.2
  (affinityCalls (getNumCpus ncpus) cpu.1 ++
    (if 0 < prio.1 then [.setScheduler prio.1] else []), prio.2)

/-- The files by their paths, the number of processors the system reports and
whether the process went into the background are the system's. -/
def rssDaemonInit (longMax : ℕ) (ncpus : ℤ) (daemonized : Bool) (files : CString → Option Bytes)
    (name : CString) (opts : List Opt) : Start :=
  match options opts defaults with
  | .error ret => ⟨ret, none, none, []⟩
  | .ok o =>
    match files o.configPath with
    | none => ⟨-1, some ⟨if o.debug then 5 else 3, .both, none⟩, none, []⟩
    | some text =>
      let logged := configLog o (rssConfigLoad text)
      if daemonized then
        let scheduled := applyScheduling longMax ncpus name logged.2
        ⟨0, some logged.1, some scheduled.2, scheduled.1⟩
      else ⟨-1, some logged.1, none, []⟩

end Start

section Lookups

variable {cfg : Config} {m : Place → Option Bytes}

structure AnswersBy (cfg : Config) (m : Place → Option Bytes) : Prop where
  sound : Sound cfg
  settings : settings cfg = m

def textOf (m : Place → Option Bytes) (sec key d : CString) : Bytes :=
  (m (place sec key)).getD d.chars

def intOf (longMax : ℕ) (m : Place → Option Bytes) (sec key : CString) (d : ℤ) : ℤ :=
  ((m (place sec key)).bind (strtol longMax)).elim d toInt

theorem get_text (sec key d : CString) (h : AnswersBy cfg m) (hsec : Fits sec) (hkey : Fits key)
    (hd : d.chars.length ≤ 255) : (getText sec key d cfg).1 = textOf m sec key d ∧
      AnswersBy (getText sec key d cfg).2 m := by
  refine ⟨?_, sound_get_str h.sound hsec hkey _, ?_⟩
  · have ha : (rssConfigGetStr sec key (some d) cfg).1.map CString.chars = _ :=
      get_str_answer h.sound.toKeyed hkey (some d)
    have htake : d.chars.take (maxVal-1) = d.chars := List.take_of_length_le hd
    rw [h.settings] at ha
    unfold textOf
    show ((rssConfigGetStr sec key (some d) cfg).1.getD d).chars = _
    cases hm : m (place sec key) with
    | none =>
      rw [hm, Option.map_some, htake] at ha
      obtain ⟨v, hv, hchars⟩ := Option.map_eq_some_iff.mp ha
      rw [hv, Option.getD_some, hchars]
      rfl
    | some t =>
      rw [hm] at ha
      obtain ⟨v, hv, hchars⟩ := Option.map_eq_some_iff.mp ha
      rw [hv, Option.getD_some, hchars]
      rfl
  · exact (settings_get_str h.sound hsec hkey _).trans h.settings

theorem get_int (longMax : ℕ) (sec key : CString) (d : ℤ) (h : AnswersBy cfg m) (hsec : Fits sec)
    (hkey : Fits key) : (rssConfigGetInt longMax sec key d cfg).1 = intOf longMax m sec key d ∧
      AnswersBy (rssConfigGetInt longMax sec key d cfg).2 m := by
  have hfit : NamesFit (.getInt sec key d) := by
    intro name hname
    simp only [opNames, List.mem_cons, List.not_mem_nil, or_false] at hname
    rcases hname with rfl | rfl
    · exact hsec
    · exact hkey
  have hsound : Sound (step longMax cfg (.getInt sec key d)).2 := sound_step h.sound hfit
  have hsettings : settings (step longMax cfg (.getInt sec key d)).2 = settings cfg :=
    settings_step h.sound hfit
  refine ⟨?_, hsound, hsettings.trans h.settings⟩
  rw [get_int_answer h.sound, h.settings]
  rfl

def logOf (m : Place → Option Bytes) (o : Options) : Log :=
  let file := textOf m (word "log") (word "file") (word "")
  ⟨logLevel o.debug (textOf m (word "log") (word "level") (word "info")),
    logTarget o.foreground (textOf m (word "log") (word "target") (word "syslog")),
    if file = [] then none else some file⟩

theorem config_log (h : AnswersBy cfg m) (o : Options) :
    (configLog o cfg).1 = logOf m o ∧ AnswersBy (configLog o cfg).2 m := by
  obtain ⟨hlevel, h1⟩ := get_text (word "log") (word "level") (word "info") h (by decide)
    (by decide) (by decide)
  obtain ⟨htarget, h2⟩ := get_text (word "log") (word "target") (word "syslog") h1 (by decide)
    (by decide) (by decide)
  obtain ⟨hfile, h3⟩ := get_text (word "log") (word "file") (word "") h2 (by decide)
    (by decide) (by decide)
  refine ⟨?_, h3⟩
  simp only [configLog, logOf, hlevel, htarget, hfile]

theorem scheduling_calls (longMax : ℕ) (ncpus : ℤ) {name : CString} (h : AnswersBy cfg m)
    (hname : Fits name) : (applyScheduling longMax ncpus name cfg).1 =
      affinityCalls (getNumCpus ncpus) (intOf longMax m name (word "cpu_affinity") (-1)) ++
        (if 0 < intOf longMax m name (word "sched_priority") (-1) then
          [.setScheduler (intOf longMax m name (word "sched_priority") (-1))] else []) := by
  obtain ⟨hcpu, h1⟩ := get_int longMax name (word "cpu_affinity") (-1) h hname (by decide)
  obtain ⟨hprio, -⟩ := get_int longMax name (word "sched_priority") (-1) h1 hname (by decide)
  simp only [applyScheduling, hcpu, hprio]

theorem int_stored {longMax : ℕ} (hlong : 2^31-1 ≤ longMax) {sec key : CString} {i d : ℤ}
    (hi : IsInt i) (h : m (place sec key) = some (decimal i).chars) :
    intOf longMax m sec key d = i := by
  have hread : strtol longMax (decimal i).chars = some i := strtol_decimal hlong hi
  rw [intOf, h, Option.bind_some, hread, Option.elim_some, toInt]
  exact Int.bmod_eq_of_le (by omega) (by omega)

theorem level_named : ∀ i : Fin levelNames.length,
    logLevel false (levelNames.get i).chars = i := by decide

end Lookups

section Calls

variable {cfg : Config} {m : Place → Option Bytes}

theorem mem_affinity {ncpus cpu : ℤ} {cpus : ℕ → Bool} :
    Call.setAffinity cpus ∈ affinityCalls (getNumCpus ncpus) cpu ↔ ∃ c : ℕ, cpu = c ∧
      1 < ncpus ∧ (c : ℤ) < ncpus ∧ cpus = fun i => decide (i = c ∧ i < cpuSetSize) := by
  have hncpus : getNumCpus ncpus ≤ 1 ↔ ncpus ≤ 1 := by
    unfold getNumCpus
    split <;> omega
  unfold affinityCalls
  by_cases h0 : 0 ≤ cpu
  · obtain ⟨c, rfl⟩ := Int.eq_ofNat_of_zero_le h0
    rw [if_pos h0]
    by_cases h1 : ncpus ≤ 1
    · rw [if_pos (hncpus.mpr h1)]
      exact iff_of_false List.not_mem_nil (fun ⟨_, _, hlt, _⟩ => by omega)
    · have hsame : getNumCpus ncpus = ncpus := if_pos (by omega)
      rw [if_neg (fun h => h1 (hncpus.mp h)), hsame]
      by_cases hc : ncpus ≤ c
      · rw [if_pos hc]
        exact iff_of_false List.not_mem_nil (fun ⟨_, heq, _, hlt, _⟩ => by omega)
      · rw [if_neg hc, List.mem_singleton, Call.setAffinity.injEq]
        constructor
        · intro h
          exact ⟨c, rfl, by omega, by omega, h⟩
        · rintro ⟨d, heq, _, _, h⟩
          rw [h, Int.toNat_natCast, Int.ofNat_inj.mp heq]
  · rw [if_neg h0]
    exact iff_of_false List.not_mem_nil (fun ⟨_, heq, _⟩ => by omega)

theorem affinity_only {ncpus cpu prio : ℤ} :
    Call.setScheduler prio ∉ affinityCalls ncpus cpu := by
  unfold affinityCalls
  split_ifs <;> simp

theorem affinity_asked (longMax : ℕ) (ncpus : ℤ) {name : CString} (h : AnswersBy cfg m)
    (hname : Fits name) {cpus : ℕ → Bool} :
    .setAffinity cpus ∈ (applyScheduling longMax ncpus name cfg).1 ↔ ∃ c : ℕ,
      intOf longMax m name (word "cpu_affinity") (-1) = c ∧ 1 < ncpus ∧ (c : ℤ) < ncpus ∧
        cpus = fun i => decide (i = c ∧ i < cpuSetSize) := by
  rw [scheduling_calls longMax ncpus h hname, List.mem_append, mem_affinity]
  refine or_iff_left (fun hmem => ?_)
  split at hmem <;> simp at hmem

theorem scheduler_asked (longMax : ℕ) (ncpus : ℤ) {name : CString} (h : AnswersBy cfg m)
    (hname : Fits name) {prio : ℤ} :
    .setScheduler prio ∈ (applyScheduling longMax ncpus name cfg).1 ↔
      intOf longMax m name (word "sched_priority") (-1) = prio ∧ 0 < prio := by
  rw [scheduling_calls longMax ncpus h hname, List.mem_append, or_iff_right affinity_only]
  split
  next hpos =>
    rw [List.mem_singleton, Call.setScheduler.injEq]
    exact ⟨fun h => ⟨h.symm, h ▸ hpos⟩, fun h => h.1.symm⟩
  next hneg => exact iff_of_false List.not_mem_nil (fun h => hneg (h.1 ▸ h.2))

end Calls

section Runs

variable {ι : Type*} [DecidableEq ι]

/-- What the owner of a place saved there last, and without such a value what
the file held at first. -/
def saved (owner : Place → Option ι) (original : Bytes) (w : World ι) (q : Place) :
    Option Bytes :=
  ((owner q).bind fun p => committed p q w.history).or (loadedMap original q)

theorem saved_loaded {owner : Place → Option ι} {original text : Bytes} {w : World ι}
    (h : Refines owner original w text) :
    AnswersBy (rssConfigLoad text) (saved owner original w) where
  sound := load_sound h.fits
  settings := by
    funext q
    rw [load_settings h.fits, h.shared, after_shared h.owned]
    rfl

/-- A daemon started after any run of the processes that share its file asks for what
was saved where it gets into the background, and for nothing where it does not. -/
theorem started_as_saved {longMax : ℕ} (hlong : 2^31-1 ≤ longMax) (owner : Place → Option ι)
    (original : Bytes) (seen : ι → Bytes) (actions : List (Action ι)) (hz : 0 ∉ original)
    (hf : FileFits original) (hseen : ∀ p, FileFits (seen p))
    (ha : ∀ a ∈ actions, Allowed owner a) (ncpus : ℤ) (daemonized : Bool) {name : CString}
    (hname : Fits name) (files : CString → Option Bytes) {opts : List Opt} {o : Options}
    (hopts : options opts defaults = .ok o)
    (hfiles : files o.configPath = (runActions (sharedStart original seen) actions).file) :
    let m := saved owner original (runActions (sharedStart original seen) actions)
    let start := rssDaemonInit longMax ncpus daemonized files name opts
    start.ret = (if daemonized then 0 else -1) ∧ start.log = some (logOf m o) ∧
    (∀ cpus, .setAffinity cpus ∈ start.calls ↔ daemonized = true ∧ ∃ c : ℕ,
      intOf longMax m name (word "cpu_affinity") (-1) = c ∧ 1 < ncpus ∧ (c : ℤ) < ncpus ∧
        cpus = fun i => decide (i = c ∧ i < cpuSetSize)) ∧
    (∀ prio, .setScheduler prio ∈ start.calls ↔ daemonized = true ∧
      intOf longMax m name (word "sched_priority") (-1) = prio ∧ 0 < prio) ∧
    (∀ key i d, IsInt i → m (place name key) = some (decimal i).chars →
      intOf longMax m name key d = i) ∧
    ∀ i (hi : i < levelNames.length), o.debug = false →
      m (place (word "log") (word "level")) = some levelNames[i].chars →
      (logOf m o).level = i := by
  obtain ⟨text, h⟩ := refines_run (refines_start owner hz hf hseen) ha
  have hload := saved_loaded h
  generalize hm : saved owner original (runActions (sharedStart original seen) actions) = m
    at hload
  intro m' start
  obtain ⟨hlog, hlogged⟩ := config_log hload o
  have hstart : start = if daemonized then
      ⟨0, some (configLog o (rssConfigLoad text)).1,
        some (applyScheduling longMax ncpus name (configLog o (rssConfigLoad text)).2).2,
        (applyScheduling longMax ncpus name (configLog o (rssConfigLoad text)).2).1⟩
      else ⟨-1, some (configLog o (rssConfigLoad text)).1, none, []⟩ := by
    simp only [start, rssDaemonInit, hopts, hfiles, h.file]
  rw [hstart, hlog]
  refine ⟨?_, ?_, fun cpus => ?_, fun prio => ?_, fun key i d => int_stored hlong, ?_⟩
  · cases daemonized <;> rfl
  · cases daemonized <;> rfl
  · cases daemonized with
    | false => simp
    | true =>
      rw [if_pos rfl, eq_self, true_and]
      exact affinity_asked longMax ncpus hlogged hname
  · cases daemonized with
    | false => simp
    | true =>
      rw [if_pos rfl, eq_self, true_and]
      exact scheduler_asked longMax ncpus hlogged hname
  · intro i hi hdebug hstored
    have hnamed := level_named ⟨i, hi⟩
    rw [logOf, textOf, hstored, hdebug]
    exact hnamed

def sampleOwner (q : Place) : Option Bool :=
  if q = place (word "rvd") (word "cpu_affinity") then some true
  else if q = place (word "log") (word "level") then some false
  else none

def sampleFile : Bytes := ascii "[log]\nlevel = warn\n"

def sampleActions : List (Action Bool) :=
  [.set true (word "rvd") (word "cpu_affinity") (decimal 2),
    .set false (word "log") (word "level") (word "debug"),
    .save true ⟨true, true, true, true, true⟩, .save false ⟨true, true, true, true, true⟩]

theorem sample_allowed : ∀ a ∈ sampleActions, Allowed sampleOwner a := by
  intro a ha
  simp only [sampleActions, List.mem_cons, List.not_mem_nil, or_false] at ha
  rcases ha with rfl | rfl | rfl | rfl
  · exact ⟨by decide, by decide, by decide, ⟨⟨by decide, by decide, by decide, by decide⟩,
      ⟨by decide, by decide, by decide, by decide⟩, by decide⟩, decimal_good 2⟩
  · exact ⟨by decide, by decide, by decide, ⟨⟨by decide, by decide, by decide, by decide⟩,
      ⟨by decide, by decide, by decide, by decide⟩, by decide⟩,
      ⟨plain_of_solid (by decide), by decide, by decide⟩⟩
  · rfl
  · rfl

theorem started_as_saved_sample :
    let w := runActions (sharedStart sampleFile (fun _ => sampleFile)) sampleActions
    let m := saved sampleOwner sampleFile w
    let start := rssDaemonInit (2^31-1) 4 true (fun _ => w.file) (word "rvd") [.foreground]
    let o : Options := { defaults with foreground := true }
    start.ret = 0 ∧ start.log = some (logOf m o) ∧
    (∀ cpus, .setAffinity cpus ∈ start.calls ↔ true = true ∧ ∃ c : ℕ,
      intOf (2^31-1) m (word "rvd") (word "cpu_affinity") (-1) = c ∧ (1 : ℤ) < 4 ∧ (c : ℤ) < 4 ∧
        cpus = fun i => decide (i = c ∧ i < cpuSetSize)) ∧
    (∀ prio, .setScheduler prio ∈ start.calls ↔ true = true ∧
      intOf (2^31-1) m (word "rvd") (word "sched_priority") (-1) = prio ∧ 0 < prio) ∧
    (∀ key i d, IsInt i → m (place (word "rvd") key) = some (decimal i).chars →
      intOf (2^31-1) m (word "rvd") key d = i) ∧
    ∀ i (hi : i < levelNames.length), o.debug = false →
      m (place (word "log") (word "level")) = some levelNames[i].chars →
      (logOf m o).level = i :=
  started_as_saved le_rfl sampleOwner sampleFile (fun _ => sampleFile) sampleActions (by decide)
    (by decide +kernel) (fun _ => by decide +kernel) sample_allowed 4 true (by decide) _ rfl rfl

end Runs

end RaptorCommon.DaemonStart
