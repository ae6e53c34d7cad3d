import RaptorCommon.ConfigRewrite
import RaptorCommon.ReadFile

/-!
# A save that could not read its file

The same null pointer stands for a file that is missing, that cannot be read
and that there is no memory for, and on each the whole config is written. What
the config did not hold of an unreadable file is then gone.
-/

set_option autoImplicit false

namespace RaptorCommon.ConfigReadFailure
open RaptorCommon.CText RaptorCommon.ConfigStore RaptorCommon.ConfigLoader
open RaptorCommon.ConfigWriter RaptorCommon.ConfigSave RaptorCommon.ConfigEditor
open RaptorCommon.ConfigSettings RaptorCommon.ConfigGrammar RaptorCommon.ConfigInvariant
open RaptorCommon.ConfigMap RaptorCommon.ConfigPending RaptorCommon.ConfigStored
open RaptorCommon.ConfigFullWrite RaptorCommon.ConfigSaving RaptorCommon.ConfigRoundTrip
open RaptorCommon.ConfigRewrite RaptorCommon.ReadFile

section Outcomes

/-- `rss_config_save` to a file with the given contents, with the answers to
its reading; none while the reading has not returned. What is edited is the
text that was read. -/
def saveReading (a : ReadAnswers) (env : SaveEnv) (cfg : Config) (text : Bytes) :
    Option SaveResult :=
  if collectDirty cfg = [] ∧ env.accessOk = true ∨ collectDirty cfg ≠ [] ∧ env.refsAlloc = false
  then some (rssConfigSave env cfg (some text))
  else (rssReadFile a text).map fun
    | some read => rssConfigSave { env with readOk := true } cfg (some read)
    | none => rssConfigSave { env with readOk := false } cfg (some text)

def LaterFails (env : SaveEnv) : Prop :=
  env.refsAlloc = false ∨ env.buildOk = false ∨ env.writeOk = false

variable {a : ReadAnswers} {env : SaveEnv} {cfg : Config} {text : Bytes} {saved : SaveResult}

theorem save_fails (hd : collectDirty cfg ≠ []) (h : LaterFails env) :
    (rssConfigSave env cfg (some text)).ret = -1 := by
  have hcfg : cfg ≠ [] := fun h0 => hd (by rw [h0]; rfl)
  have hend := save_end env cfg text
  generalize rssConfigSave env cfg (some text) = saved at hend ⊢
  cases hend with
  | failed => rfl
  | settled _ hedits _ _ =>
    obtain ⟨hrefs, -, hbuild, hwrite⟩ := hedits hd
    simp [LaterFails, hrefs, hbuild, hwrite] at h
  | rewritten hw =>
    obtain ⟨-, -, hrefs, hbuild, hwrite⟩ := hw
    simp [LaterFails, hrefs hd, hbuild.resolve_left hcfg, hwrite] at h

theorem save_unread (hd : collectDirty cfg ≠ []) (hread : env.readOk = false)
    (h : ¬LaterFails env) :
    rssConfigSave env cfg (some text) = ⟨0, clearDirty cfg, some (configText cfg)⟩ := by
  obtain ⟨hrefs, hbuild, hwrite⟩ :
      env.refsAlloc = true ∧ env.buildOk = true ∧ env.writeOk = true := by
    simpa [LaterFails] using h
  exact save_rewrites ⟨hread, fun h0 => absurd h0 hd, fun _ => hrefs, Or.inr hbuild, hwrite⟩

/-- A save that returned listed no changes, or its reading came to an end and
it went on as if the answer had been given beforehand. -/
theorem save_reading (hd : collectDirty cfg ≠ []) (h : saveReading a env cfg text = some saved) :
    env.refsAlloc = false ∧ saved = rssConfigSave env cfg (some text) ∨
    ∃ ok, (ok = true ↔ rssReadFile a text ≠ some none) ∧
      saved = rssConfigSave { env with readOk := ok } cfg (some text) := by
  unfold saveReading at h
  split at h
  next h0 =>
    refine Or.inl ⟨?_, (Option.some.inj h).symm⟩
    rcases h0 with h0 | h0
    · exact absurd h0.1 hd
    · exact h0.2
  next =>
    obtain ⟨read, hread, hsaved⟩ := Option.map_eq_some_iff.mp h
    rcases read_whole hread with rfl | rfl
    · exact Or.inr ⟨false, by simp [hread], hsaved.symm⟩
    · exact Or.inr ⟨true, by simp [hread], hsaved.symm⟩

end Outcomes

section Others

def OthersKept (cfg : Config) (text text' : Bytes) : Prop :=
  ∀ sec key v, owed cfg (place sec key) = none → fileAnswer text sec key = some v →
    fileAnswer text' sec key = some v

/-- The config, as a whole write arranges it, answers for every binding of a
file that it has no change for. -/
def OthersHeld (cfg : Config) (text : Bytes) : Prop :=
  ∀ sec key v, owed cfg (place sec key) = none → fileAnswer text sec key = some v →
    configAnswer (arranged cfg) sec key = some v

variable {cfg : Config} {text text' : Bytes}

theorem held_faithful (h : Storable cfg) (hf : Faithful cfg) : OthersHeld cfg text ↔
    ∀ sec key v, owed cfg (place sec key) = none → fileAnswer text sec key = some v →
      configAnswer cfg sec key = some v := by
  unfold OthersHeld
  simp only [faithful_arranged h hf]

theorem others_rewritten (h : Storable cfg) :
    OthersKept cfg text (configText cfg) ↔ OthersHeld cfg text := by
  unfold OthersKept OthersHeld
  simp only [rewritten_answer h]

theorem others_edited (h : Settled cfg text text') (hf : FileFits text) :
    OthersKept cfg text text' := by
  intro sec key v ho hv
  rw [file_answer h.fits, h.kept _ ho, ← file_answer hf]
  exact hv

end Others

section Runs

/-- Files that are plain, and values that stay on their lines: what an edit
needs to leave the others alone. -/
structure Editable (start text : Bytes) (ops : List Op) : Prop where
  start_fits : FileFits start
  nul_free : 0 ∉ text
  fits : FileFits text
  names : ∀ op ∈ ops, NamesFit op
  writes : ∀ op ∈ ops, Writes (fun sec key v =>
    SetNames sec key ∧ Contained (v.chars.take (maxVal-1))) op

theorem enterable_kept : Kept (Pending Enterable)
    (fun sec key v => SetNames sec key ∧ Contained (v.chars.take (maxVal-1))) := by
  refine pending_kept_of fun sec key v hne hw => ?_
  obtain ⟨hn, hv⟩ := hw
  have hname : SectionName sec.chars := ⟨hne, hn.sec_trimmed, hn.sec_bracket, hn.sec_line⟩
  exact ⟨section_name_fold.mpr hname, key_text_fold.mpr hn.key_text, hv⟩

theorem editable_settled (longMax : ℕ) {start text text' : Bytes} {ops : List Op}
    (h : Editable start text ops)
    (hfile : EditedOrKept (run longMax (rssConfigLoad start) ops) text text') :
    Settled (run longMax (rssConfigLoad start) ops) text text' := by
  have hp : Holds (Pending Enterable) (run longMax (rssConfigLoad start) ops) :=
    kept_run enterable_kept (load_sound h.start_fits) h.names h.writes
      (fresh_pending (load_fresh h.start_fits))
  exact saved_settled (sound_run (load_sound h.start_fits) h.names) hp (fun _ _ h => h) h.nul_free
    h.fits hfile

/-- Where the others are safe: something after the reading fails, the file was
read and can be edited, or it was not and the config holds them. -/
def Spared (a : ReadAnswers) (env : SaveEnv) (cfg : Config) (start text : Bytes)
    (ops : List Op) : Prop :=
  LaterFails env ∨ rssReadFile a text ≠ some none ∧ Editable start text ops ∨
    rssReadFile a text = some none ∧ Storable cfg ∧ OthersHeld cfg text

def Keeps (saved : SaveResult) (cfg : Config) (text : Bytes) : Prop :=
  saved.ret = 0 → ∃ text', saved.file = some text' ∧ OthersKept cfg text text'

variable {a : ReadAnswers} {env : SaveEnv} {cfg : Config} {text : Bytes}

theorem failed_keeps (hd : collectDirty cfg ≠ []) (h : LaterFails env) :
    Keeps (rssConfigSave env cfg (some text)) cfg text := by
  intro hret
  rw [save_fails hd h] at hret
  cases hret

theorem read_keeps (longMax : ℕ) {start : Bytes} {ops : List Op} (hread : env.readOk = true)
    (h : Editable start text ops) :
    Keeps (rssConfigSave env (run longMax (rssConfigLoad start) ops) (some text))
      (run longMax (rssConfigLoad start) ops) text := by
  intro hret
  have hend := save_end env (run longMax (rssConfigLoad start) ops) text
  generalize rssConfigSave env (run longMax (rssConfigLoad start) ops) (some text) = saved
    at hend hret ⊢
  cases hend with
  | failed => cases hret
  | settled _ _ hfile _ =>
    exact ⟨_, rfl, others_edited (editable_settled longMax h hfile) h.fits⟩
  | rewritten hw => exact absurd hw (read_settles hread _)

theorem unread_keeps (hd : collectDirty cfg ≠ []) (hread : env.readOk = false)
    (ht : Storable cfg) : Keeps (rssConfigSave env cfg (some text)) cfg text ↔
      LaterFails env ∨ OthersHeld cfg text := by
  by_cases hlater : LaterFails env
  · exact ⟨fun _ => Or.inl hlater, fun _ => failed_keeps hd hlater⟩
  · rw [save_unread hd hread hlater, ← others_rewritten ht]
    constructor
    · intro h
      obtain ⟨text', hfile, hkept⟩ := h rfl
      rw [← Option.some.inj hfile] at hkept
      exact Or.inr hkept
    · rintro (h | h) _
      · exact absurd h hlater
      · exact ⟨_, rfl, h⟩

def sampleStart : Bytes := ascii "[a]\nk = 1\n"

def sampleText : Bytes := ascii "[a]\nk = 1\n[b]\nm = 3\n"

def sampleOps : List Op :=
  [.setStr (CString.at (ascii "a")) (CString.at (ascii "k")) (CString.at (ascii "2"))]

end Runs

end RaptorCommon.ConfigReadFailure
