import RaptorCommon.ConfigSave
import RaptorCommon.CtrlMessages

/-!
# The commands every daemon handles

A request is any text. The state is what the commands read and change: the
config and its file, the processors the process may run on, the log level and
the two flags of the main loop. What the system answers is given with each
request. Log lines are left out. How often the file was written is kept for the
statements alone.
-/

set_option autoImplicit false

namespace RaptorCommon.CtrlCommands
open RaptorCommon.CText RaptorCommon.ConfigStore RaptorCommon.ConfigSave RaptorCommon.ConfigEditor
open RaptorCommon.GuardedRun RaptorCommon.Json RaptorCommon.JsonPrinter RaptorCommon.CtrlMessages

structure Daemon where
  cfg : Config
  file : Option Bytes
  cpus : ℕ → Bool
  level : ℕ
  running : Bool
  restart : Bool
  writes : ℕ

/-- What the system answers during a request: the outcomes of a save, the
number of processors, the failures of the two affinity calls, the scheduling
policy and priority. -/
structure Answers where
  save : SaveEnv
  ncpus : {i : ℤ // IsInt i}
  setFails : Option CString
  getFails : Option CString
  policy : ℤ
  priority : {i : ℤ // IsInt i}

def cpuSetSize : ℕ := 1024

def levelNames : List CString :=
  [word "fatal", word "error", word "warn", word "info", word "debug",
    word "trace"]

variable {D : Type} [Doubles D]

section Answers

abbrev Handled := Attempt (Option CString × Daemon)

def reply (answer : Attempt CString) (d : Daemon) : Handled := do
  let text ← answer
  pure (some text, d)

variable (D) in
def replyOk (buf : Bytes) (d : Daemon) : Handled := reply (rssCtrlRespOk D buf) d

variable (D) in
def replyError (buf : Bytes) (reason : CString) (d : Daemon) : Handled :=
  reply (rssCtrlRespError D buf reason) d

def replyText (buf : Bytes) (text : CString) (d : Daemon) : Handled :=
  pure (some (rssCtrlResp buf text), d)

/-- Terminating the buffer at its first byte, without a look at its size. -/
def replyNothing (buf : Bytes) (d : Daemon) : Handled :=
  if buf = [] then .error .overrun else pure (some (word ""), d)

end Answers

section Commands

def stringItem (root : Value D) (name : CString) : Option CString :=
  valuestring (getObjectItemCaseSensitive root name)

variable (D) in
def sectionObject (sec : CString) (pairs : List (CString × CString)) : Value D :=
  objectOf [(word "status", .string (word "ok")), (word "section", .string sec),
    (word "keys", objectOf (pairs.map (fun kv => (kv.1, .string kv.2))))]

def configGetSection (buf : Bytes) (root : Value D) (d : Daemon) : Handled :=
  match stringItem root (word "section") with
  | some sec => reply (rssCtrlRespJson buf (sectionObject D sec (rssConfigForeach sec d.cfg))) d
  | none => replyError D buf (word "need section") d

def configGet (buf : Bytes) (root : Value D) (d : Daemon) : Handled :=
  match stringItem root (word "section"), stringItem root (word "key") with
  | some sec, some key =>
    let found := rssConfigGetStr sec key none d.cfg
    match found.1 with
    | some v => replyText buf v { d with cfg := found.2 }
    | none => replyNothing buf { d with cfg := found.2 }
  | _, _ => replyNothing buf d

/-- The save has written the file: it went through, and not for want of
changes. -/
def saveWrites (env : SaveEnv) (cfg : Config) (file : Option Bytes) : Bool :=
  (rssConfigSave env cfg file).ret = 0 ∧
    ¬(collectDirty cfg = [] ∧ env.accessOk = true ∧ file.isSome = true)

variable (D) in
def configSave (env : Answers) (buf : Bytes) (d : Daemon) : Handled :=
  let saved := rssConfigSave env.save d.cfg d.file
  let wrote := saveWrites env.save d.cfg d.file
  let d := { d with
    cfg := saved.cfg, file := saved.file, writes := d.writes+(if wrote then 1 else 0) }
  if saved.ret = 0 then replyOk D buf d else replyError D buf (word "config save failed") d

def setAffinity (env : Answers) (buf : Bytes) (root : Value D) (d : Daemon) : Handled :=
  match getObjectItemCaseSensitive root (word "cpu") with
  | some (.number n) =>
    let cpu := Doubles.castInt n
    if env.ncpus.1 ≤ 1 then replyError D buf (word "single-core system") d
    else if cpu < 0 ∨ env.ncpus.1 ≤ cpu then replyError D buf (word "cpu out of range") d
    else match env.setFails with
      | some reason => replyError D buf reason d
      | none =>
        replyOk D buf { d with cpus := fun i => decide (i = cpu.toNat ∧ i < cpuSetSize) }
  | _ => replyError D buf (word "need cpu") d

def policyName (policy : ℤ) : CString :=
  if policy = 1 then word "fifo" else if policy = 2 then word "rr" else word "other"

def cpusListed (ncpus : ℤ) (cpus : ℕ → Bool) : List ℕ :=
  (List.range ncpus.toNat).filter (fun i => i < cpuSetSize && cpus i)

variable (D) in
def affinityObject (env : Answers) (cpus : ℕ → Bool) : Value D :=
  objectOf [(word "status", .string (word "ok")),
    (word "ncpus", .number (Doubles.ofInt env.ncpus.1)),
    (word "cpus", .array (Items.ofList ((cpusListed env.ncpus.1 cpus).map
      (fun i : ℕ => .number (Doubles.ofInt (i : ℤ)))))),
    (word "policy", .string (policyName env.policy)),
    (word "priority", .number (Doubles.ofInt env.priority.1))]

variable (D) in
def getAffinity (env : Answers) (buf : Bytes) (d : Daemon) : Handled :=
  match env.getFails with
  | some reason => replyError D buf reason d
  | none => reply (rssCtrlRespJson buf (affinityObject D env d.cpus)) d

/-- The level a text names, cut to the buffer it is copied to. -/
def levelNamed (value : Option CString) : Option ℕ :=
  let levelStr : Field 16 := rssStrlcpy 16 (value.getD (word ""))
  levelNames.findIdx? (fun name => name.chars = levelStr.chars)

def setLogLevel (buf : Bytes) (root : Value D) (d : Daemon) : Handled :=
  match levelNamed (stringItem root (word "value")) with
  | some level => replyOk D buf { d with level := level }
  | none => replyError D buf (word "need value: fatal|error|warn|info|debug|trace") d

def getLogLevel (buf : Bytes) (d : Daemon) : Handled :=
  replyText buf (levelNames.getD d.level (word "unknown")) d

end Commands

/-- No answer where the code returns -1: the request is not one of these. -/
def handleCommand (env : Answers) (buf : Bytes) (root : Value D) (cmd : CString) (d : Daemon) :
    Handled :=
  if cmd = word "config-get-section" then configGetSection buf root d
  else if cmd = word "config-get" then configGet buf root d
  else if cmd = word "config-save" then configSave D env buf d
  else if cmd = word "set-affinity" then setAffinity env buf root d
  else if cmd = word "get-affinity" then getAffinity D env buf d
  else if cmd = word "restart" then
    replyText buf (word "restarting") { d with restart := true, running := false }
  else if cmd = word "shutdown" then
    replyText buf (word "shutting down") { d with running := false }
  else if cmd = word "set-log-level" then setLogLevel buf root d
  else if cmd = word "get-log-level" then getLogLevel buf d
  else pure (none, d)

variable (D) in
def rssCtrlHandleCommon (env : Answers) (buf : Bytes) (request : CString) (d : Daemon) :
    Handled := do
  match ← parsedItem (D := D) request with
  | none => replyError D buf (word "malformed JSON") d
  | some root =>
    match stringItem root (word "cmd") with
    | none => pure (none, d)
    | some cmd => handleCommand env buf root cmd d

end RaptorCommon.CtrlCommands
