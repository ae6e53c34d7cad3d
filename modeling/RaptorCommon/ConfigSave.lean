import RaptorCommon.ConfigEditor

/-!
# Saving, and runs of configuration calls

A save edits the file where one can be read and writes the whole config where
not. What the system answers during a save is a parameter. A run is any
sequence of calls on one loaded config, saves to any path included.
-/

set_option autoImplicit false

namespace RaptorCommon.ConfigSave
open RaptorCommon.CText RaptorCommon.ConfigStore RaptorCommon.ConfigLoader
open RaptorCommon.ConfigWriter RaptorCommon.ConfigEditor

/-- The outcomes of the system calls of a save: the allocation of
`collect_dirty`, `access`, reading the file at the path, the allocations of the
writer, and the atomic write. -/
structure SaveEnv where
  refsAlloc : Bool
  accessOk : Bool
  readOk : Bool
  buildOk : Bool
  writeOk : Bool
  deriving DecidableEq

structure SaveResult where
  ret : ℤ
  cfg : Config
  file : Option Bytes

def configWriteSurgical (env : SaveEnv) (text : Bytes) (refs : List DirtyRef) : Option Bytes :=
  if env.buildOk && env.writeOk then some (editedText refs text) else none

/-- An empty config is written without an allocation. -/
def configWrite (env : SaveEnv) (cfg : Config) : Option Bytes :=
  if (cfg = [] ∨ env.buildOk) ∧ env.writeOk then some (configText cfg) else none

def cleanEntry (e : ConfigEntry) : ConfigEntry := { e with dirty := false }

def cleanSection (s : ConfigSection) : ConfigSection :=
  { s with dirty := false, entries := s.entries.map cleanEntry }

def clearDirty (cfg : Config) : Config := cfg.map cleanSection

/-- `rss_config_save` of a config to a path with the given contents. A file
that is not there is not accessed either. -/
def rssConfigSave (env : SaveEnv) (cfg : Config) (file : Option Bytes) : SaveResult :=
  let refs := collectDirty cfg
  if refs ≠ [] ∧ env.refsAlloc = false then ⟨-1, cfg, file⟩
  else if refs = [] ∧ env.accessOk ∧ file.isSome then ⟨0, cfg, file⟩
  else
    let written := match (if env.readOk then file else none) with
      | some text => configWriteSurgical env text refs
      | none => configWrite env cfg
    match written with
    | some text => ⟨0, clearDirty cfg, some text⟩
    | none => ⟨-1, cfg, file⟩

inductive Op where
  | getStr (sec key : CString) (defaultVal : Option CString)
  | getInt (sec key : CString) (defaultVal : ℤ)
  | getBool (sec key : CString) (defaultVal : Bool)
  | setStr (sec key value : CString)
  | setInt (sec key : CString) (value : ℤ)
  | setBool (sec key : CString) (value : Bool)
  | unset (sec key : CString)
  | removeSection (sec : CString)
  | foreach (sec : CString)
  | foreachSection (pfx : CString)
  | save (env : SaveEnv) (file : Option Bytes)
  deriving DecidableEq

inductive Answer where
  | none
  | str (value : Option CString)
  | int (value : ℤ)
  | bool (value : Bool)
  | pairs (visited : List (CString × CString))
  | names (visited : List CString)
  deriving DecidableEq

def step (longMax : ℕ) (cfg : Config) : Op → Answer × Config
  | .getStr sec key d => let r := rssConfigGetStr sec key d cfg; (.str r.1, r.2)
  | .getInt sec key d => let r := rssConfigGetInt longMax sec key d cfg; (.int r.1, r.2)
  | .getBool sec key d => let r := rssConfigGetBool sec key d cfg; (.bool r.1, r.2)
  | .setStr sec key value => (.none, rssConfigSetStr sec key value cfg)
  | .setInt sec key value => (.none, rssConfigSetInt sec key value cfg)
  | .setBool sec key value => (.none, rssConfigSetBool sec key value cfg)
  | .unset sec key => let r := rssConfigUnset sec key cfg; (.bool r.1, r.2)
  | .removeSection sec => let r := rssConfigRemoveSection sec cfg; (.bool r.1, r.2)
  | .foreach sec => (.pairs (rssConfigForeach sec cfg), cfg)
  | .foreachSection pfx => (.names (rssConfigForeachSection pfx cfg), cfg)
  | .save env file => let r := rssConfigSave env cfg file; (.int r.ret, r.cfg)

def run (longMax : ℕ) (cfg : Config) (ops : List Op) : Config :=
  ops.foldl (fun c op => (step longMax c op).2) cfg

theorem run_snoc (longMax : ℕ) (cfg : Config) (ops : List Op) (op : Op) :
    run longMax cfg (ops++[op]) = (step longMax (run longMax cfg ops) op).2 := by
  simp [run]

end RaptorCommon.ConfigSave
