import RaptorCommon.CtrlAnswers
import RaptorCommon.CtrlCommands

/-!
# A daemon under any requests

Whatever texts arrive, in any order and with signals between them, every
request is answered within its buffer, the settings stay what they were, and
the config is written once at most. The flags of the main loop only move
towards its end.
-/

set_option autoImplicit false

namespace RaptorCommon.CtrlProtocol
open RaptorCommon.CText RaptorCommon.ConfigStore RaptorCommon.ConfigLoader RaptorCommon.ConfigSave
open RaptorCommon.ConfigEditor RaptorCommon.GuardedRun RaptorCommon.Json RaptorCommon.JsonParser
open RaptorCommon.JsonPrinter RaptorCommon.JsonRoundTrip RaptorCommon.JsonBounds
open RaptorCommon.CtrlMessages RaptorCommon.CtrlAnswers RaptorCommon.CtrlCommands
open RaptorCommon.DecimalText

section Saves

theorem clean_refs (s : ConfigSection) : sectionRefs (cleanSection s) = [] := by
  have hnone : (s.entries.map cleanEntry).filter (fun e => e.dirty) = [] := by
    rw [List.filter_eq_nil_iff]
    intro e he
    obtain ⟨e', _, rfl⟩ := List.mem_map.mp he
    exact Bool.false_ne_true
  simp [sectionRefs, cleanSection, hnone]

theorem clear_refs (cfg : Config) : collectDirty (clearDirty cfg) = [] := by
  rw [collectDirty, clearDirty, List.flatMap_map, List.reverse_eq_nil_iff, List.flatMap_eq_nil_iff]
  exact fun s _ => clean_refs s

/-- A daemon whose config and file are as they were, or whose file was written
once, with a config that owes nothing since. -/
inductive SavedOnce (d : Daemon) : Config → Option Bytes → ℕ → Prop where
  | untouched : SavedOnce d d.cfg d.file d.writes
  | written (env : SaveEnv) (text : Bytes)
      (h : rssConfigSave env d.cfg d.file = ⟨0, clearDirty d.cfg, some text⟩) :
      SavedOnce d (clearDirty d.cfg) (some text) (d.writes+1)

theorem save_writes (env : SaveEnv) (cfg : Config) (file : Option Bytes) :
    (rssConfigSave env cfg file).cfg = cfg ∧ (rssConfigSave env cfg file).file = file ∧
        saveWrites env cfg file = false ∨
      saveWrites env cfg file = true ∧
        ∃ text, rssConfigSave env cfg file = ⟨0, clearDirty cfg, some text⟩ := by
  unfold saveWrites rssConfigSave
  dsimp only
  split_ifs with hrefs hidle
  · exact .inl ⟨rfl, rfl, by simp⟩
  · exact .inl ⟨rfl, rfl, by simp [hidle.1, hidle.2]⟩
  all_goals
    split
    next text _ => exact .inr ⟨decide_eq_true ⟨rfl, hidle⟩, text, rfl⟩
    next => exact .inl ⟨rfl, rfl, by simp⟩

theorem idle_save {env : SaveEnv} (ha : env.accessOk = true) {cfg : Config}
    (h : collectDirty cfg = []) (text : Bytes) :
    rssConfigSave env cfg (some text) = ⟨0, cfg, some text⟩ ∧
      saveWrites env cfg (some text) = false := by
  refine ⟨?_, by simp [saveWrites, h, ha]⟩
  unfold rssConfigSave
  dsimp only
  rw [if_neg fun hc => hc.1 h, if_pos ⟨h, ha, rfl⟩]

theorem SavedOnce.save {d : Daemon} {cfg : Config} {file : Option Bytes} {writes : ℕ}
    (h : SavedOnce d cfg file writes) {env : SaveEnv} (ha : env.accessOk = true) :
    SavedOnce d (rssConfigSave env cfg file).cfg (rssConfigSave env cfg file).file
      (writes+(if saveWrites env cfg file then 1 else 0)) := by
  cases h with
  | untouched =>
    rcases save_writes env d.cfg d.file with ⟨hcfg, hfile, hwrote⟩ | ⟨hwrote, text, htext⟩
    · rw [hcfg, hfile, hwrote]
      exact .untouched
    · rw [hwrote, htext]
      exact .written env text htext
  | written env' text htext =>
    obtain ⟨hidle, hwrote⟩ := idle_save ha (clear_refs d.cfg) text
    rw [hidle, hwrote]
    exact .written env' text htext

structure SameAnswers (cfg cfg' : Config) : Prop where
  lookup : ∀ sec key, lookupValue sec key cfg' = lookupValue sec key cfg
  foreach : ∀ sec, rssConfigForeach sec cfg' = rssConfigForeach sec cfg
  sections : ∀ pfx, rssConfigForeachSection pfx cfg' = rssConfigForeachSection pfx cfg

theorem clear_live (key : CString) (es : List ConfigEntry) :
    liveValue key (es.map cleanEntry) = liveValue key es := by
  simp only [liveValue, List.findSome?_map]
  rfl

theorem clear_answers (cfg : Config) : SameAnswers cfg (clearDirty cfg) where
  lookup sec key := by
    rw [lookupValue, clearDirty, List.findSome?_map]
    congr 1
    funext s
    show (if sameName s.name.chars sec.chars then liveValue key (s.entries.map cleanEntry)
      else none) = _
    rw [clear_live]
  foreach sec := by
    rw [rssConfigForeach, clearDirty, List.filter_map, List.flatMap_map]
    show (cfg.filter _).flatMap _ = (cfg.filter _).flatMap _
    congr 1
    funext s
    show ((s.entries.map cleanEntry).filter (fun e => e.removed = false)).map _ = _
    rw [List.filter_map, List.map_map]
    rfl
  sections pfx := by
    rw [rssConfigForeachSection, clearDirty, List.filter_map, List.map_map]
    rfl

theorem same_answers (cfg : Config) : SameAnswers cfg cfg :=
  ⟨fun _ _ => rfl, fun _ => rfl, fun _ => rfl⟩

theorem save_answers {cfg cfg' : Config} (h : SameAnswers cfg cfg') (env : SaveEnv)
    (file : Option Bytes) : SameAnswers cfg (rssConfigSave env cfg' file).cfg := by
  rcases save_writes env cfg' file with ⟨hcfg, -⟩ | ⟨-, text, htext⟩
  · rw [hcfg]
    exact h
  · rw [htext]
    have hclear := clear_answers cfg'
    exact ⟨fun sec key => (hclear.lookup sec key).trans (h.lookup sec key),
      fun sec => (hclear.foreach sec).trans (h.foreach sec),
      fun pfx => (hclear.sections pfx).trans (h.sections pfx)⟩

end Saves

section Progress

/-- What requests and signals may do to a daemon. A file that is there is found
by `access` where `told` says so. -/
structure Progress (told : Prop) (d d' : Daemon) : Prop where
  answers : SameAnswers d.cfg d'.cfg
  saved : told → SavedOnce d d'.cfg d'.file d'.writes
  running : d'.running = true → d.running = true
  restart : d.restart = true → d'.restart = true
  stops : d'.restart = true → d.restart = true ∨ d'.running = false

variable {told : Prop} {d₀ d : Daemon}

theorem progress_start (told : Prop) (d : Daemon) : Progress told d d :=
  ⟨same_answers d.cfg, fun _ => .untouched, id, id, .inl⟩

theorem Progress.saving (h : Progress told d₀ d) {env : SaveEnv} (ha : told → env.accessOk = true) :
    Progress told d₀ { d with
      cfg := (rssConfigSave env d.cfg d.file).cfg
      file := (rssConfigSave env d.cfg d.file).file
      writes := d.writes+(if saveWrites env d.cfg d.file then 1 else 0) } :=
  ⟨save_answers h.answers env d.file, fun ht => (h.saved ht).save (ha ht), h.running, h.restart,
    h.stops⟩

theorem Progress.adjust (h : Progress told d₀ d) (cpus : ℕ → Bool) (level : ℕ) :
    Progress told d₀ { d with cpus := cpus, level := level } :=
  ⟨h.answers, h.saved, h.running, h.restart, h.stops⟩

theorem Progress.stop (h : Progress told d₀ d) (again : Bool) :
    Progress told d₀ { d with running := false, restart := d.restart || again } where
  answers := h.answers
  saved := h.saved
  running := by simp
  restart hr := by simp [h.restart hr]
  stops _ := .inr rfl

end Progress

section Answers

variable (D : Type) [Doubles D]

/-- An answer that fits its buffer and is empty or a whole object. -/
def Complete (buf : Bytes) (t : CString) : Prop := t.chars.length < buf.length ∧
  (t.chars = [] ∨ ∃ ms : List (CString × Value D), cjsonParse t = .ok (objectOf ms))

variable {D} {buf : Bytes}

theorem complete_empty (hbuf : buf ≠ []) : Complete D buf (word "") :=
  ⟨List.length_pos_iff.mpr hbuf, .inl rfl⟩

theorem complete_printed {ms : List (CString × Value D)} {n : ℕ} (h : Sendable (objectOf ms) n)
    (hn : n ≤ nestingLimit) (hroom : (objectOf ms).text.length+2 ≤ buf.length) :
    Complete D buf (printed _ h.readable) := by
  refine ⟨?_, .inr ⟨ms, sendable_parse h hn⟩⟩
  show (objectOf ms).text.length < buf.length
  omega

theorem ok_complete (hbuf : buf ≠ []) (hsize : buf.length ≤ intMax) :
    Yields (Complete D buf) (rssCtrlRespOk D buf) := by
  rw [resp_ok buf hsize, yields_ok]
  split
  next hroom => exact complete_printed ok_sendable (by decide) (by rw [← okObject, ok_length]; exact hroom)
  next => exact complete_empty hbuf

theorem error_complete (hbuf : buf ≠ []) (hsize : buf.length ≤ intMax) (reason : CString) :
    Yields (Complete D buf) (rssCtrlRespError D buf reason) := by
  rw [resp_error buf reason hsize, yields_ok]
  split
  next hroom => exact complete_printed (error_sendable reason) (by decide) hroom
  next => exact complete_empty hbuf

theorem json_complete (hbuf : buf ≠ []) (hsize : buf.length ≤ intMax)
    {ms : List (CString × Value D)} {n : ℕ} (h : Sendable (objectOf ms) n) (hn : n ≤ nestingLimit) :
    Yields (Complete D buf) (rssCtrlRespJson buf (objectOf ms)) := by
  rw [resp_json h hn buf hsize]
  exact yields_ite (fun hroom => complete_printed h hn hroom)
    fun _ => error_complete hbuf hsize _

end Answers

section Commands

variable (D : Type) [Doubles D]

def Handles (buf : Bytes) (told : Prop) (d₀ : Daemon) (plain : Prop)
    (r : Option CString × Daemon) : Prop :=
  (∀ t ∈ r.1, t.chars.length < buf.length ∧ (plain ∨ Complete D buf t)) ∧ Progress told d₀ r.2

variable {D} {buf : Bytes} {told plain : Prop} {d₀ d : Daemon}

theorem reply_handles {answer : Attempt CString} (h : Yields (Complete D buf) answer)
    (hd : Progress told d₀ d) : Yields (Handles D buf told d₀ plain) (reply answer d) := by
  rw [reply, yields_bind]
  refine h.mono fun t ht => ⟨fun u hu => ?_, hd⟩
  rw [← Option.mem_some_iff.mp hu]
  exact ⟨ht.1, .inr ht⟩

theorem text_handles (hbuf : buf ≠ []) (text : CString) (hd : Progress told d₀ d) (hplain : plain) :
    Yields (Handles D buf told d₀ plain) (replyText buf text d) := by
  refine ⟨fun u hu => ?_, hd⟩
  rw [← Option.mem_some_iff.mp hu, rssCtrlResp, if_neg hbuf]
  have hpos := List.length_pos_iff.mpr hbuf
  have hfits := (rssStrlcpy buf.length text).fits
  exact ⟨Nat.lt_of_le_of_lt hfits (by omega), .inl hplain⟩

theorem nothing_handles (hbuf : buf ≠ []) (hd : Progress told d₀ d) :
    Yields (Handles D buf told d₀ plain) (replyNothing buf d) := by
  rw [replyNothing, if_neg hbuf]
  refine ⟨fun u hu => ?_, hd⟩
  rw [← Option.mem_some_iff.mp hu]
  exact ⟨List.length_pos_iff.mpr hbuf, .inr (complete_empty hbuf)⟩

theorem section_sendable (sec : CString) (pairs : List (CString × CString)) :
    Sendable (sectionObject D sec pairs) 2 := by
  refine object_sendable fun m hm => ?_
  simp only [List.mem_cons, List.not_mem_nil, or_false] at hm
  rcases hm with rfl | rfl | rfl
  · exact string_sendable _ 1
  · exact string_sendable _ 1
  · refine object_sendable fun m hm => ?_
    obtain ⟨kv, _, rfl⟩ := List.mem_map.mp hm
    exact string_sendable _ 0

theorem listed_small {ncpus : ℤ} {cpus : ℕ → Bool} {i : ℕ} (h : i ∈ cpusListed ncpus cpus) :
    IsInt (i : ℤ) := by
  have hi := (List.mem_filter.mp h).2
  have hlt : i < cpuSetSize := of_decide_eq_true (Bool.and_eq_true_iff.mp hi).1
  unfold cpuSetSize at hlt
  exact ⟨by omega, by omega⟩

theorem affinity_sendable [LawfulDoubles D] (env : Answers) (cpus : ℕ → Bool) :
    Sendable (affinityObject D env cpus) 2 := by
  refine object_sendable fun m hm => ?_
  simp only [List.mem_cons, List.not_mem_nil, or_false] at hm
  rcases hm with rfl | rfl | rfl | rfl | rfl
  · exact string_sendable _ 1
  · exact int_sendable env.ncpus.2 1
  · refine array_sendable fun v hv => ?_
    obtain ⟨i, hi, rfl⟩ := List.mem_map.mp hv
    exact int_sendable (listed_small hi) 0
  · exact string_sendable _ 1
  · exact int_sendable env.priority.2 1

theorem get_unchanged (sec key : CString) (cfg : Config) :
    (rssConfigGetStr sec key none cfg).2 = cfg := by
  unfold rssConfigGetStr
  split <;> rfl

theorem config_get_section (hbuf : buf ≠ []) (hsize : buf.length ≤ intMax) (root : Value D)
    (hd : Progress told d₀ d) : Yields (Handles D buf told d₀ plain) (configGetSection buf root d) := by
  unfold configGetSection
  split
  · exact reply_handles (json_complete hbuf hsize (section_sendable _ _) (by decide)) hd
  · exact reply_handles (error_complete hbuf hsize _) hd

theorem config_get (hbuf : buf ≠ []) (root : Value D) (hd : Progress told d₀ d) (hplain : plain) :
    Yields (Handles D buf told d₀ plain) (configGet buf root d) := by
  unfold configGet
  split
  next sec key _ _ =>
    dsimp only
    rw [get_unchanged]
    split
    · exact text_handles hbuf _ hd hplain
    · exact nothing_handles hbuf hd
  · exact nothing_handles hbuf hd

theorem config_save (hbuf : buf ≠ []) (hsize : buf.length ≤ intMax) (env : Answers)
    (ha : told → env.save.accessOk = true) (hd : Progress told d₀ d) :
    Yields (Handles D buf told d₀ plain) (configSave D env buf d) :=
  yields_ite (fun _ => reply_handles (ok_complete hbuf hsize) (hd.saving ha))
    fun _ => reply_handles (error_complete hbuf hsize _) (hd.saving ha)

theorem set_affinity (hbuf : buf ≠ []) (hsize : buf.length ≤ intMax) (env : Answers)
    (root : Value D) (hd : Progress told d₀ d) :
    Yields (Handles D buf told d₀ plain) (setAffinity env buf root d) := by
  unfold setAffinity
  split
  · refine yields_ite (fun _ => ?_) fun _ => yields_ite (fun _ => ?_) fun _ => ?_
    · exact reply_handles (error_complete hbuf hsize _) hd
    · exact reply_handles (error_complete hbuf hsize _) hd
    · split
      · exact reply_handles (error_complete hbuf hsize _) hd
      · exact reply_handles (ok_complete hbuf hsize) (hd.adjust _ d.level)
  · exact reply_handles (error_complete hbuf hsize _) hd

theorem get_affinity [LawfulDoubles D] (hbuf : buf ≠ []) (hsize : buf.length ≤ intMax)
    (env : Answers) (hd : Progress told d₀ d) :
    Yields (Handles D buf told d₀ plain) (getAffinity D env buf d) := by
  unfold getAffinity
  split
  · exact reply_handles (error_complete hbuf hsize _) hd
  · exact reply_handles (json_complete hbuf hsize (affinity_sendable env d.cpus) (by decide)) hd

theorem set_log_level (hbuf : buf ≠ []) (hsize : buf.length ≤ intMax) (root : Value D)
    (hd : Progress told d₀ d) : Yields (Handles D buf told d₀ plain) (setLogLevel buf root d) := by
  unfold setLogLevel
  split
  · exact reply_handles (ok_complete hbuf hsize) (hd.adjust d.cpus _)
  · exact reply_handles (error_complete hbuf hsize _) hd

def plainCommands : List CString :=
  [word "config-get", word "restart", word "shutdown", word "get-log-level"]

variable (D) in
def AsksPlain (request : CString) : Prop := ∃ (root : Value D) (cmd : CString),
  cjsonParse request = .ok root ∧ stringItem root (word "cmd") = some cmd ∧ cmd ∈ plainCommands

theorem parsed_item [LawfulDoubles D] (text : CString) :
    (parsedItem text : Attempt (Option (Value D))) = .ok none ∨
      ∃ v : Value D, cjsonParse text = .ok v ∧ parsedItem text = .ok (some v) := by
  rcases parse_contained (D := D) (text.chars ++ [0]) with h | ⟨v, hv, _⟩
  · left
    rw [parsedItem, cjsonParse, h]
    rfl
  · refine .inr ⟨v, hv, ?_⟩
    rw [parsedItem, cjsonParse, hv]
    rfl

theorem command_handled [LawfulDoubles D] (hbuf : buf ≠ []) (hsize : buf.length ≤ intMax)
    (env : Answers) (ha : told → env.save.accessOk = true) (root : Value D) (cmd : CString)
    (hd : Progress told d₀ d) (hplain : cmd ∈ plainCommands → plain) :
    Yields (Handles D buf told d₀ plain) (handleCommand env buf root cmd d) := by
  unfold handleCommand
  refine yields_ite (fun _ => config_get_section hbuf hsize root hd) fun _ => ?_
  refine yields_ite (fun h => config_get hbuf root hd (hplain (h ▸ by decide))) fun _ => ?_
  refine yields_ite (fun _ => config_save hbuf hsize env ha hd) fun _ => ?_
  refine yields_ite (fun _ => set_affinity hbuf hsize env root hd) fun _ => ?_
  refine yields_ite (fun _ => get_affinity hbuf hsize env hd) fun _ => ?_
  refine yields_ite (fun h => ?_) fun _ => ?_
  · have hstop := hd.stop true
    rw [Bool.or_true] at hstop
    exact text_handles hbuf _ hstop (hplain (h ▸ by decide))
  refine yields_ite (fun h => ?_) fun _ => ?_
  · have hstop := hd.stop false
    rw [Bool.or_false] at hstop
    exact text_handles hbuf _ hstop (hplain (h ▸ by decide))
  refine yields_ite (fun _ => set_log_level hbuf hsize root hd) fun _ => ?_
  refine yields_ite (fun h => text_handles hbuf _ hd (hplain (h ▸ by decide))) fun _ => ?_
  exact (yields_pure _).mpr ⟨fun t ht => absurd ht (by simp), hd⟩

theorem request_handled [LawfulDoubles D] (hbuf : buf ≠ []) (hsize : buf.length ≤ intMax)
    (env : Answers) (ha : told → env.save.accessOk = true) (request : CString)
    (hd : Progress told d₀ d) : Yields (Handles D buf told d₀ (AsksPlain D request))
      (rssCtrlHandleCommon D env buf request d) := by
  unfold rssCtrlHandleCommon
  rcases parsed_item (D := D) request with h | ⟨root, hroot, h⟩
  · rw [h, ok_bind]
    exact reply_handles (error_complete hbuf hsize _) hd
  · rw [h, ok_bind]
    dsimp only
    cases hcmd : stringItem root (word "cmd") with
    | none => exact (yields_pure _).mpr ⟨fun t ht => absurd ht (by simp), hd⟩
    | some cmd =>
      exact command_handled hbuf hsize env ha root cmd hd fun h => ⟨root, cmd, hroot, hcmd, h⟩

end Commands

section Runs

variable (D : Type) [Doubles D]

abbrev AnswerBuffer := {buf : Bytes // buf ≠ [] ∧ buf.length ≤ intMax}

inductive Event where
  | request (env : Answers) (buf : AnswerBuffer) (text : CString)
  | signal

def serveEvent (d : Daemon) : Event → Attempt Daemon
  | .request env buf text => do
    let r ← rssCtrlHandleCommon D env buf.1 text d
    pure r.2
  | .signal => pure { d with running := false }

/-- A save among these would find the file where it is there. -/
def Event.Told : Event → Prop
  | .request env _ _ => env.save.accessOk = true
  | .signal => True

theorem event_progress [LawfulDoubles D] {told : Prop} {d₀ d : Daemon} (e : Event)
    (ha : told → e.Told) (hd : Progress told d₀ d) :
    Yields (Progress told d₀) (serveEvent D d e) := by
  cases e with
  | request env buf text =>
    rw [serveEvent, yields_bind]
    exact (request_handled buf.2.1 buf.2.2 env ha text hd).mono fun r hr => hr.2
  | signal =>
    have hstop := hd.stop false
    rw [Bool.or_false] at hstop
    exact hstop

/-- Any sequence of requests and signals: the daemon reads and writes within
its memory, what the config answers stays the same, and a flag that stopped the
main loop is not taken back. The file is written once at most, unless a save is
told that a file is missing that is there. -/
theorem daemon_run [LawfulDoubles D] (events : List Event) (d : Daemon) :
    ∃ d', events.foldlM (serveEvent D) d = .ok d' ∧ Progress (∀ e ∈ events, e.Told) d d' := by
  have hall : Yields (Progress (∀ e ∈ events, e.Told) d) (events.foldlM (serveEvent D) d) :=
    yields_foldlM (fun _ e he hd => event_progress D e (fun h => h e he) hd) (progress_start _ d)
  obtain ⟨d', hrun, hd'⟩ := yields_iff.mp hall
  exact ⟨d', hrun, hd'⟩

def sampleDaemon : Daemon where
  cfg := rssConfigSetStr (word "video") (word "fps") (word "25")
    (rssConfigLoad (ascii "[video]\nfps = 30\ngop = 50\n"))
  file := some (ascii "[video]\nfps = 30\ngop = 50\n")
  cpus := fun _ => true
  level := 3
  running := true
  restart := false
  writes := 0

def sampleAnswers : Answers where
  save := ⟨true, true, true, true, true⟩
  ncpus := ⟨2, by decide⟩
  setFails := none
  getFails := none
  policy := 0
  priority := ⟨0, by decide⟩

def sampleBuffer : AnswerBuffer where
  val := List.replicate 128 0
  property := ⟨by simp, by rw [List.length_replicate]; decide⟩

def sampleRequest (cmd : String) : CString :=
  CString.at ([123, 34, 99, 109, 100, 34, 58, 34] ++ ascii cmd ++ [34, 125])

/-- Two saves with a broken request and a restart between them, and a signal. -/
theorem daemon_run_sample :
    let events := [.request sampleAnswers sampleBuffer (sampleRequest "config-save"),
      .request sampleAnswers sampleBuffer (CString.at (ascii "[]")),
      .request sampleAnswers sampleBuffer (sampleRequest "restart"),
      .request sampleAnswers sampleBuffer (sampleRequest "config-save"), .signal]
    ∃ d', events.foldlM (serveEvent WholeNumber) sampleDaemon = .ok d' ∧
      Progress True sampleDaemon d' := by
  intro events
  obtain ⟨d', hrun, hd'⟩ := daemon_run WholeNumber events sampleDaemon
  have htold : ∀ e ∈ events, e.Told := List.forall_mem_cons.mpr ⟨rfl,
    List.forall_mem_cons.mpr ⟨rfl, List.forall_mem_cons.mpr ⟨rfl,
      List.forall_mem_cons.mpr ⟨rfl, List.forall_mem_singleton.mpr trivial⟩⟩⟩⟩
  exact ⟨d', hrun, hd'.answers, fun _ => hd'.saved htold, hd'.running, hd'.restart, hd'.stops⟩

/-- One request of any text: it is not one of the common ones, or its answer
fits the buffer and, where it is not plain text, is empty or a whole object. -/
theorem any_request [LawfulDoubles D] (env : Answers) (buf : AnswerBuffer) (request : CString)
    (d : Daemon) : ∃ answer d', rssCtrlHandleCommon D env buf.1 request d = .ok (answer, d') ∧
      ∀ t ∈ answer, t.chars.length < buf.1.length ∧
        (AsksPlain D request ∨ Complete D buf.1 t) := by
  obtain ⟨r, hrun, hr⟩ := yields_iff.mp
    (request_handled (D := D) buf.2.1 buf.2.2 env (fun h => h) request
      (progress_start (env.save.accessOk = true) d))
  exact ⟨r.1, r.2, hrun, hr.1⟩

theorem any_request_sample :
    let request := CString.at (ascii "[1")
    ∃ answer d', rssCtrlHandleCommon WholeNumber sampleAnswers sampleBuffer.1 request sampleDaemon =
        .ok (answer, d') ∧
      ∀ t ∈ answer, t.chars.length < sampleBuffer.1.length ∧
        (AsksPlain WholeNumber request ∨ Complete WholeNumber sampleBuffer.1 t) :=
  any_request WholeNumber _ _ _ _

end Runs

end RaptorCommon.CtrlProtocol
