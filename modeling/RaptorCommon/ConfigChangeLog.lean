import RaptorCommon.ConfigPending
import RaptorCommon.ConfigSaveRun

/-!
# The pending changes and the log of the calls

A log of the calls and their answers keeps, since the last save that went
through, the last change of each key and the sections removed and not written
since. The changes a save would collect are those of the log, so nothing that
only reads, and nothing refused, can add one or lose one.
-/

set_option autoImplicit false

namespace RaptorCommon.ConfigChangeLog
open RaptorCommon.CText RaptorCommon.KeyedStore RaptorCommon.ConfigStore
open RaptorCommon.ConfigLoader RaptorCommon.ConfigEditor RaptorCommon.ConfigSave
open RaptorCommon.ConfigSettings RaptorCommon.ConfigInvariant RaptorCommon.ConfigMap
open RaptorCommon.ConfigBinding RaptorCommon.ConfigPlan RaptorCommon.ConfigPending
open RaptorCommon.AtomicWrite RaptorCommon.ConfigSaveRun RaptorCommon.IniSemantics

section Logs

/-- The values in force, the change each key awaits, none inside it for a
removal, and the sections whose headers await theirs. -/
structure ChangeLog where
  live : Settings Bytes Bytes Bytes
  change : Place → Option (Option Bytes)
  left : Bytes → Bool

def fileLog (text : Bytes) : ChangeLog := ⟨loadedMap text, fun _ => none, fun _ => false⟩

def ChangeLog.record (log : ChangeLog) (op : Op) (answer : Answer) : ChangeLog where
  live := mapStep log.live op
  change :=
    match normal op with
    | .setStr sec key v =>
      if sec.chars = [] then log.change
      else Function.update log.change (place sec key) (some (some (v.chars.take (maxVal-1))))
    | .unset sec key =>
      if answer = .bool true then Function.update log.change (place sec key) (some none)
      else log.change
    | .removeSection sec =>
      if answer = .bool true then
        fun q => if q.1 = foldCase sec.chars ∧ log.live q ≠ none then some none else log.change q
      else log.change
    | .save _ _ => if answer = .int 0 then fun _ => none else log.change
    | _ => log.change
  left :=
    match normal op with
    | .setStr sec _ _ =>
      if sec.chars = [] then log.left else Function.update log.left (foldCase sec.chars) false
    | .removeSection sec =>
      if answer = .bool true then Function.update log.left (foldCase sec.chars) true
      else log.left
    | .save _ _ => if answer = .int 0 then fun _ => false else log.left
    | _ => log.left

def transcript (longMax : ℕ) : Config → List Op → List (Op × Answer)
  | _, [] => []
  | cfg, op::ops =>
    (op, (step longMax cfg op).1) :: transcript longMax (step longMax cfg op).2 ops

def logAfter (log : ChangeLog) (calls : List (Op × Answer)) : ChangeLog :=
  calls.foldl (fun log call => log.record call.1 call.2) log

def changeLog (longMax : ℕ) (text : Bytes) (ops : List Op) : ChangeLog :=
  logAfter (fileLog text) (transcript longMax (rssConfigLoad text) ops)

/-- A section and, unless it is the section that goes, a key and its value;
without a value it is the key that goes. -/
abbrev Report := Bytes × Option (Bytes × Option Bytes)

def entryReport (e : ConfigEntry) : Bytes × Option Bytes :=
  (entryKey e, if e.removed then none else some e.value.chars)

def report (d : DirtyRef) : Report := (foldCase d.sec.chars, d.ent.map entryReport)

def reported (cfg : Config) : List Report := (collectDirty cfg).map report

def ChangeLog.Owes (log : ChangeLog) : Report → Prop
  | (s, none) => log.left s = true
  | (s, some (k, v)) => log.change (s, k) = some v

def Passive (op : Op) (answer : Answer) : Prop :=
  match normal op with
  | .getStr _ _ _ | .foreach _ | .foreachSection _ => True
  | .setStr sec _ _ => sec.chars = []
  | .unset _ _ | .removeSection _ => answer = .bool false
  | .save _ _ => answer ≠ .int 0
  | _ => False

/-- A save that only looks, returns 0 and touches no file. -/
def Idle (a : Answers) (path : Bytes) (files : Files) (cfg : Config) : Prop :=
  (∀ n, let m := saveAt a path files cfg n
    m.files = files ∧ m.cfg = cfg ∧
      (m.phase = .collecting ∨ m.phase = .checking ∨ m.phase = .returned 0)) ∧
  ∃ n, (saveAt a path files cfg n).phase = .returned 0

/-- The changes collected are those of the log, one for each name. -/
structure Accounts (log : ChangeLog) (cfg : Config) : Prop where
  once : ((collectDirty cfg).map refName).Nodup
  owed : ∀ r, r ∈ reported cfg ↔ log.Owes r
  dirty : rssConfigHasDirty cfg = true ↔ ∃ r, log.Owes r
  idle : (∀ r, ¬log.Owes r) → ∀ (a : Answers) (path : Bytes) (files : Files),
    a.accessOk = true → (files path).isSome → Idle a path files cfg

end Logs

section Entries

variable {cfg : Config} {sec key : CString}

def changeOf (e : ConfigEntry) : Option (Option Bytes) :=
  if e.dirty = true then some (if e.removed then none else some e.value.chars) else none

def owing (cfg : Config) : ChangeLog where
  live := settings cfg
  change q := (entryAt q cfg).bind changeOf
  left s := (flagsAt s cfg).2

abbrev Marked (q : Place) (e : ConfigEntry) : Prop := Pending (fun _ _ => True) q e

theorem default_change {q : Place} (key t : CString) {old : Option ConfigEntry}
    (hold : ∀ e ∈ old, Marked q e) (hdead : old.bind liveEntry = none) :
    changeOf (stored key t false true old) = old.bind changeOf := by
  cases old with
  | none => rfl
  | some e =>
    have he : liveEntry e = none := hdead
    have hpending := hold e rfl
    unfold Marked Pending at hpending
    unfold liveEntry liveField at he
    unfold stored changeOf
    cases hdirty : e.dirty <;> cases hd : e.defaulted <;> cases hr : e.removed <;>
      simp_all [overwriteEntry]

theorem write_change (key v : CString) (old : Option ConfigEntry) :
    changeOf (stored key v true false old) = some (some (v.chars.take (maxVal-1))) := by
  cases old with
  | none => rfl
  | some e => cases hd : e.dirty <;> simp [changeOf, stored, overwriteEntry, hd, rssStrlcpy]

theorem remove_change (e : ConfigEntry) :
    changeOf (removeEntry e) = if liveEntry e ≠ none then some none else changeOf e := by
  by_cases h : liveEntry e = none
  · rw [remove_dead h, if_neg (fun hne => hne h)]
  · have hlive : (e.defaulted || e.removed) = false := by
      have hsome := Option.isSome_iff_ne_none.mpr h
      rw [live_some, Bool.not_eq_true'] at hsome
      exact hsome
    rw [if_pos h, removeEntry, hlive]
    rfl

theorem removed_change (old : Option ConfigEntry) :
    (old.map removeEntry).bind changeOf =
      if old.bind liveEntry ≠ none then some none else old.bind changeOf := by
  cases old with
  | none => rfl
  | some e => exact remove_change e

end Entries

section Steps

variable {longMax : ℕ} {cfg : Config} {sec key : CString}

theorem owing_eq {after : Config} {log : ChangeLog} (hlive : settings after = log.live)
    (hchange : ∀ q, (entryAt q after).bind changeOf = log.change q)
    (hleft : ∀ s, (flagsAt s after).2 = log.left s) : owing after = log := by
  have hc : (owing after).change = log.change := funext hchange
  have hl : (owing after).left = log.left := funext hleft
  show ChangeLog.mk (settings after) (owing after).change (owing after).left = log
  rw [hlive, hc, hl]

theorem owing_get (h : Sound cfg) (hp : Holds Marked cfg) (hs : Fits sec) (hn : Fits key)
    (d : Option CString) {op : Op} (hop : normal op = .getStr sec key d) (answer : Answer) :
    owing (rssConfigGetStr sec key d cfg).2 = (owing cfg).record op answer := by
  refine owing_eq ?_ ?_ ?_
  · rw [settings_get_str h hs hn, ChangeLog.record, mapStep, hop]
    rfl
  · intro q
    simp only [ChangeLog.record, hop]
    rw [get_str_config h.toKeyed hs hn]
    cases d with
    | none => rfl
    | some t =>
      dsimp only
      split
      next hc => exact default_change key t (fun e he => hp q e he) hc.2
      next => rfl
  · intro s
    simp only [ChangeLog.record, hop]
    rw [get_str_flags h.toKeyed hs]
    rfl

theorem owing_set (h : Sound cfg) (hs : Fits sec) (hn : Fits key) (v : CString) {op : Op}
    (hop : normal op = .setStr sec key v) (answer : Answer) :
    owing (rssConfigSetStr sec key v cfg) = (owing cfg).record op answer := by
  refine owing_eq ?_ ?_ ?_
  · rw [settings_set_str h hs hn, ChangeLog.record, mapStep, hop]
    rfl
  · intro q
    simp only [ChangeLog.record, hop]
    rw [entry_at_set h.toKeyed hs hn]
    by_cases h0 : sec.chars = []
    · rw [if_neg (fun hc => hc.1 h0), if_pos h0]
      rfl
    · rw [if_neg h0]
      by_cases hq : q = place sec key
      · rw [if_pos ⟨h0, hq⟩, hq, Function.update_self, Option.bind_some, write_change]
      · rw [if_neg (fun hc => hq hc.2), Function.update_of_ne hq]
        rfl
  · intro s
    simp only [ChangeLog.record, hop]
    rw [flags_at_set h.toKeyed hs]
    by_cases h0 : sec.chars = []
    · rw [if_neg (fun hc => hc.1 h0), if_pos h0]
      rfl
    · rw [if_neg h0]
      by_cases hq : s = foldCase sec.chars
      · rw [if_pos ⟨h0, hq⟩, hq, Function.update_self]
      · rw [if_neg (fun hc => hq hc.2), Function.update_of_ne hq]
        rfl

theorem owing_unset (h : Sound cfg) :
    owing (rssConfigUnset sec key cfg).2 =
      (owing cfg).record (.unset sec key) (.bool (rssConfigUnset sec key cfg).1) := by
  have hanswer : (Answer.bool (rssConfigUnset sec key cfg).1 = .bool true) ↔
      settings cfg (place sec key) ≠ none := by
    rw [Answer.bool.injEq, unset_answer h.toKeyed, Option.isSome_iff_ne_none]
  refine owing_eq ?_ ?_ ?_
  · rw [settings_unset h]
    rfl
  · intro q
    simp only [ChangeLog.record, normal]
    rw [entry_at_unset h.toKeyed]
    by_cases hq : q = place sec key
    · rw [if_pos hq, removed_change, hq]
      by_cases hlive : settings cfg (place sec key) ≠ none
      · rw [if_pos (hanswer.mpr hlive), Function.update_self]
        exact if_pos hlive
      · rw [if_neg (fun hc => hlive (hanswer.mp hc))]
        exact if_neg hlive
    · rw [if_neg hq]
      split
      · rw [Function.update_of_ne hq]
        rfl
      · rfl
  · intro s
    rw [flags_at_unset h.toKeyed]
    rfl

theorem owing_remove (h : Sound cfg) :
    owing (rssConfigRemoveSection sec cfg).2 =
      (owing cfg).record (.removeSection sec) (.bool (rssConfigRemoveSection sec cfg).1) := by
  have hlive : settings (rssConfigRemoveSection sec cfg).2 =
      mapStep (settings cfg) (.removeSection sec) := by
    rw [settings_remove h]
    rfl
  refine owing_eq hlive ?_ ?_
  · intro q
    simp only [ChangeLog.record, normal]
    cases hf : (rssConfigRemoveSection sec cfg).1 with
    | false =>
      rw [(remove_not_found h.toKeyed hf).1]
      rfl
    | true =>
      rw [entry_at_remove_found h.toKeyed hf, if_pos rfl]
      by_cases hq : q.1 = foldCase sec.chars
      · rw [if_pos hq, removed_change]
        simp only [hq, true_and]
        rfl
      · rw [if_neg hq, if_neg (fun hc => hq hc.1)]
        rfl
  · intro s
    simp only [ChangeLog.record, normal]
    rw [flags_at_remove h.toKeyed]
    cases hf : (rssConfigRemoveSection sec cfg).1 with
    | false => rfl
    | true =>
      rw [if_pos rfl]
      by_cases hq : s = foldCase sec.chars
      · rw [if_pos ⟨rfl, hq⟩, hq, Function.update_self]
      · rw [if_neg (fun hc => hq hc.2), Function.update_of_ne hq]
        rfl

end Steps

section Collecting

variable {cfg : Config}

theorem removal_reported (h : Sound cfg) (s : Bytes) :
    (s, none) ∈ reported cfg ↔ (owing cfg).left s = true := by
  have hleaving : (owing cfg).left s = true ↔ leavingIn (collectDirty cfg) s = true := by
    rw [dirty_leaving h.toKeyed]
    constructor
    · intro hl
      exact Prod.ext (h.leaving_gone s hl) hl
    · intro hl
      exact congrArg Prod.snd hl
  rw [hleaving, leavingIn, List.any_eq_true]
  constructor
  · intro hr
    obtain ⟨d, hd, hreport⟩ := List.mem_map.mp hr
    have hent : d.ent = none := Option.map_eq_none_iff.mp (congrArg Prod.snd hreport)
    have hsec : foldCase d.sec.chars = s := congrArg Prod.fst hreport
    exact ⟨d, hd, by simp [hent, inSection, hsec]⟩
  · rintro ⟨d, hd, hp⟩
    rw [Bool.and_eq_true, Option.isNone_iff_eq_none, inSection, decide_eq_true_eq] at hp
    refine List.mem_map.mpr ⟨d, hd, ?_⟩
    rw [report, hp.1, hp.2]
    rfl

theorem owing_change (cfg : Config) (q : Place) (v : Option Bytes) :
    (owing cfg).change q = some v ↔
      ∃ e, (entryAt q cfg = some e ∧ e.dirty = true) ∧ (entryReport e).2 = v := by
  show (entryAt q cfg).bind changeOf = some v ↔ _
  rw [Option.bind_eq_some_iff]
  constructor
  · rintro ⟨e, he, hv⟩
    rw [changeOf] at hv
    split at hv
    next hdirty => exact ⟨e, ⟨he, hdirty⟩, Option.some.inj hv⟩
    next => cases hv
  · rintro ⟨e, ⟨he, hdirty⟩, hv⟩
    exact ⟨e, he, (if_pos hdirty).trans (congrArg some hv)⟩

theorem change_reported (h : Sound cfg) (s k : Bytes) (v : Option Bytes) :
    (s, some (k, v)) ∈ reported cfg ↔ (owing cfg).change (s, k) = some v := by
  rw [owing_change]
  constructor
  · intro hr
    obtain ⟨d, hd, hreport⟩ := List.mem_map.mp hr
    obtain ⟨e, hent, he⟩ := Option.map_eq_some_iff.mp (congrArg Prod.snd hreport)
    have hsec : foldCase d.sec.chars = s := congrArg Prod.fst hreport
    have hkey : entryKey e = k := congrArg Prod.fst he
    have hplace : (foldCase d.sec.chars, entryKey e) = (s, k) := by rw [hsec, hkey]
    exact ⟨e, (dirty_entry h.toKeyed _ e).mp ⟨d, hd, hent, hplace⟩, congrArg Prod.snd he⟩
  · rintro ⟨e, hat, hv⟩
    obtain ⟨d, hd, hent, hplace⟩ := (dirty_entry h.toKeyed _ e).mpr hat
    refine List.mem_map.mpr ⟨d, hd, ?_⟩
    have hkey : entryReport e = (k, v) := Prod.ext (congrArg Prod.snd hplace) hv
    rw [report, hent, Option.map_some, hkey]
    exact congrArg (·, some (k, v)) (congrArg Prod.fst hplace)

theorem reported_owed (h : Sound cfg) (r : Report) : r ∈ reported cfg ↔ (owing cfg).Owes r := by
  obtain ⟨s, ent⟩ := r
  cases ent with
  | none => exact removal_reported h s
  | some kv => exact change_reported h s kv.1 kv.2

theorem has_dirty_iff (cfg : Config) : rssConfigHasDirty cfg = true ↔ collectDirty cfg ≠ [] := by
  rw [rssConfigHasDirty, List.any_eq_true]
  constructor
  · rintro ⟨s, hs, hd⟩
    rcases Bool.or_eq_true_iff.mp hd with hd | hd
    · obtain ⟨hremoved, hdirty⟩ := (Bool.and_eq_true_iff).mp hd
      exact List.ne_nil_of_mem ((mem_dirty _).mpr ⟨s, hs, Or.inl ⟨hremoved, hdirty, rfl⟩⟩)
    · obtain ⟨e, he, hdirty⟩ := List.any_eq_true.mp hd
      exact List.ne_nil_of_mem ((mem_dirty _).mpr ⟨s, hs, Or.inr ⟨e, he, hdirty, rfl⟩⟩)
  · intro hne
    obtain ⟨d, hd⟩ := List.exists_mem_of_ne_nil _ hne
    obtain ⟨s, hs, ⟨hremoved, hdirty, -⟩ | ⟨e, he, hdirty, -⟩⟩ := (mem_dirty d).mp hd
    · exact ⟨s, hs, by rw [hremoved, hdirty]; rfl⟩
    · exact ⟨s, hs, Bool.or_eq_true_iff.mpr (Or.inr (List.any_eq_true.mpr ⟨e, he, hdirty⟩))⟩

theorem collected_iff (h : Sound cfg) : collectDirty cfg ≠ [] ↔ ∃ r, (owing cfg).Owes r := by
  constructor
  · intro hne
    obtain ⟨d, hd⟩ := List.exists_mem_of_ne_nil _ hne
    exact ⟨report d, (reported_owed h _).mp (List.mem_map_of_mem hd)⟩
  · rintro ⟨r, hr⟩
    obtain ⟨d, hd, -⟩ := List.mem_map.mp ((reported_owed h r).mpr hr)
    exact List.ne_nil_of_mem hd

theorem idle_save (hnone : collectDirty cfg = []) {a : Answers} {path : Bytes} {files : Files}
    (hacc : a.accessOk = true) (hfile : (files path).isSome) : Idle a path files cfg := by
  have hsecond : saveStep a path ⟨files, cfg, .collecting⟩ = ⟨files, cfg, .checking⟩ :=
    if_neg (fun hc => hc.1 hnone)
  have hthird : saveStep a path ⟨files, cfg, .checking⟩ = ⟨files, cfg, .returned 0⟩ :=
    if_pos ⟨hnone, hacc, hfile⟩
  have hend (n : ℕ) : saveAt a path files cfg (n+2) = ⟨files, cfg, .returned 0⟩ := by
    rw [saveAt, Function.iterate_add_apply]
    show (saveStep a path)^[n] (saveStep a path (saveStep a path ⟨files, cfg, .collecting⟩)) = _
    rw [hsecond, hthird]
    exact Function.iterate_fixed rfl n
  refine ⟨fun n => ?_, 2, congrArg Moment.phase (hend 0)⟩
  match n with
  | 0 => exact ⟨rfl, rfl, Or.inl rfl⟩
  | 1 =>
    have hone : saveAt a path files cfg 1 = ⟨files, cfg, .checking⟩ := hsecond
    rw [hone]
    exact ⟨rfl, rfl, Or.inr (Or.inl rfl)⟩
  | n+2 =>
    rw [hend n]
    exact ⟨rfl, rfl, Or.inr (Or.inr rfl)⟩

theorem accounts_owing (h : Sound cfg) : Accounts (owing cfg) cfg where
  once := dirty_distinct h.toKeyed
  owed := reported_owed h
  dirty := by rw [has_dirty_iff, collected_iff h]
  idle hempty _ _ _ hacc hfile := by
    apply idle_save _ hacc hfile
    by_contra hne
    obtain ⟨r, hr⟩ := (collected_iff h).mp hne
    exact hempty r hr

end Collecting

section Runs

variable {longMax : ℕ} {cfg : Config} {text : Bytes} {ops : List Op}

theorem save_clears (env : SaveEnv) (cfg : Config) (file : Option Bytes) :
    ((rssConfigSave env cfg file).ret = 0 ∧
      ((rssConfigSave env cfg file).cfg = clearDirty cfg ∨
        (rssConfigSave env cfg file).cfg = cfg ∧ collectDirty cfg = [])) ∨
    ((rssConfigSave env cfg file).ret = -1 ∧ (rssConfigSave env cfg file).cfg = cfg) := by
  unfold rssConfigSave
  dsimp only
  split_ifs with halloc hnone
  · exact Or.inr ⟨rfl, rfl⟩
  · exact Or.inl ⟨rfl, Or.inr ⟨rfl, hnone.1⟩⟩
  all_goals
    split
    next => exact Or.inl ⟨rfl, Or.inl rfl⟩
    next => exact Or.inr ⟨rfl, rfl⟩

theorem owing_clear (cfg : Config) :
    owing (clearDirty cfg) = ⟨settings cfg, fun _ => none, fun _ => false⟩ := by
  refine owing_eq settings_clear ?_ ?_
  · intro q
    rw [entry_at_clear]
    cases entryAt q cfg <;> rfl
  · intro s
    rw [flags_at_clear]

theorem owing_nothing (h : Sound cfg) (hnone : collectDirty cfg = []) :
    owing cfg = ⟨settings cfg, fun _ => none, fun _ => false⟩ := by
  have hempty (r : Report) : ¬(owing cfg).Owes r := fun hr =>
    (collected_iff h).mpr ⟨r, hr⟩ hnone
  refine owing_eq rfl ?_ ?_
  · intro q
    cases hq : (owing cfg).change q with
    | none => exact hq
    | some v => exact absurd hq (hempty (q.1, some (q.2, v)))
  · intro s
    cases hs : (owing cfg).left s with
    | false => exact hs
    | true => exact absurd hs (hempty (s, none))

theorem owing_save (h : Sound cfg) (env : SaveEnv) (file : Option Bytes) :
    owing (rssConfigSave env cfg file).cfg =
      (owing cfg).record (.save env file) (.int (rssConfigSave env cfg file).ret) := by
  rcases save_clears env cfg file with ⟨hret, hcfg | ⟨hcfg, hnone⟩⟩ | ⟨hret, hcfg⟩
  · rw [hret, hcfg, owing_clear]
    rfl
  · rw [hret, hcfg, owing_nothing h hnone]
    rfl
  · rw [hret, hcfg]
    rfl

/-- One call moves the log a config stands for as it moves the log. -/
theorem owing_step {op : Op} (h : Sound cfg) (hp : Holds Marked cfg) (hn : NamesFit op) :
    owing (step longMax cfg op).2 = (owing cfg).record op (step longMax cfg op).1 := by
  have hget {sec key : CString} {d : Option CString} (hop : normal op = .getStr sec key d) :
      owing (step longMax cfg op).2 = (owing cfg).record op (step longMax cfg op).1 := by
    have hfit := normal_fits hn hop
    rw [← step_normal, hop]
    exact owing_get h hp (hfit sec (by simp [opNames])) (hfit key (by simp [opNames])) d hop _
  have hset {sec key v : CString} (hop : normal op = .setStr sec key v) :
      owing (step longMax cfg op).2 = (owing cfg).record op (step longMax cfg op).1 := by
    have hfit := normal_fits hn hop
    rw [← step_normal, hop]
    exact owing_set h (hfit sec (by simp [opNames])) (hfit key (by simp [opNames])) v hop _
  cases op with
  | getStr sec key d => exact hget rfl
  | getInt sec key d => exact hget rfl
  | getBool sec key d => exact hget rfl
  | setStr sec key v => exact hset rfl
  | setInt sec key v => exact hset rfl
  | setBool sec key v => exact hset rfl
  | unset sec key => exact owing_unset h
  | removeSection sec => exact owing_remove h
  | foreach sec => rfl
  | foreachSection pfx => rfl
  | save env file => exact owing_save h env file

theorem writes_any (op : Op) : Writes (fun _ _ _ => True) op := by
  unfold Writes
  split <;> trivial

theorem owing_run (h : Sound cfg) (hp : Holds Marked cfg) (hn : ∀ op ∈ ops, NamesFit op) :
    owing (run longMax cfg ops) = logAfter (owing cfg) (transcript longMax cfg ops) := by
  induction ops generalizing cfg with
  | nil => rfl
  | cons op ops ih =>
    have hop := hn op (by simp)
    rw [transcript, logAfter, List.foldl_cons, ← owing_step h hp hop]
    exact ih (sound_step h hop)
      (kept_step (pending_kept fun _ _ => True) h.toKeyed hop (writes_any op) hp)
      (fun o ho => hn o (by simp [ho]))

theorem owing_load (hf : FileFits text) : owing (rssConfigLoad text) = fileLog text := by
  refine owing_eq (load_settings hf) ?_ ?_
  · intro q
    cases he : entryAt q (rssConfigLoad text) with
    | none => rfl
    | some e =>
      rw [Option.bind_some, changeOf, (load_fresh hf q e he).1]
      rfl
  · intro s
    rw [load_file_lines, (loaded_file hf).unflagged]
    rfl

theorem marked_load (hf : FileFits text) : Holds Marked (rssConfigLoad text) := by
  intro q e he hdirty
  rw [(load_fresh hf q e he).1] at hdirty
  cases hdirty

theorem marked_run (hf : FileFits text) (hn : ∀ op ∈ ops, NamesFit op) :
    Holds Marked (run longMax (rssConfigLoad text) ops) :=
  kept_run (pending_kept fun _ _ => True) (load_sound hf) hn (fun op _ => writes_any op)
    (marked_load hf)

theorem change_log_run (hf : FileFits text) (hn : ∀ op ∈ ops, NamesFit op) :
    owing (run longMax (rssConfigLoad text) ops) = changeLog longMax text ops := by
  rw [owing_run (load_sound hf) (marked_load hf) hn, owing_load hf]
  rfl

theorem passive_owes {log : ChangeLog} {op : Op} {answer : Answer} (h : Passive op answer)
    (r : Report) : (log.record op answer).Owes r ↔ log.Owes r := by
  have hsame : (log.record op answer).change = log.change ∧ (log.record op answer).left = log.left := by
    unfold Passive at h
    cases hop : normal op with
    | setStr sec key v =>
      rw [hop] at h
      simp only [ChangeLog.record, hop]
      exact ⟨if_pos h, if_pos h⟩
    | unset sec key =>
      rw [hop] at h
      have hanswer : answer = .bool false := h
      simp [ChangeLog.record, hop, hanswer]
    | removeSection sec =>
      rw [hop] at h
      have hanswer : answer = .bool false := h
      simp [ChangeLog.record, hop, hanswer]
    | save env file =>
      rw [hop] at h
      simp only [ChangeLog.record, hop]
      exact ⟨if_neg h, if_neg h⟩
    | _ => simp [ChangeLog.record, hop]
  obtain ⟨s, ent⟩ := r
  cases ent with
  | none => rw [ChangeLog.Owes, ChangeLog.Owes, hsame.2]
  | some kv =>
    obtain ⟨k, v⟩ := kv
    rw [ChangeLog.Owes, ChangeLog.Owes, hsame.1]

/-- Along every run the changes collected are those the log kept, and a call
that is no accepted change leaves them as they are. -/
theorem changes_accounted (longMax : ℕ) (text : Bytes) (ops : List Op) (hf : FileFits text)
    (hn : ∀ op ∈ ops, NamesFit op) :
    Accounts (changeLog longMax text ops) (run longMax (rssConfigLoad text) ops) ∧
    ∀ op, NamesFit op → Passive op (step longMax (run longMax (rssConfigLoad text) ops) op).1 →
      ∀ r, r ∈ reported (step longMax (run longMax (rssConfigLoad text) ops) op).2 ↔
        r ∈ reported (run longMax (rssConfigLoad text) ops) := by
  have hsound : Sound (run longMax (rssConfigLoad text) ops) := sound_run (load_sound hf) hn
  constructor
  · rw [← change_log_run hf hn]
    exact accounts_owing hsound
  · intro op hop hpassive r
    rw [reported_owed (sound_step hsound hop), reported_owed hsound,
      owing_step hsound (marked_run hf hn) hop]
    exact passive_owes hpassive r

/-- A key set, another read, and one unset. -/
theorem changes_accounted_sample :
    let text := ascii "[s]\nk = 1\n"
    let ops : List Op := [.setStr (literal "s") (literal "j") (literal "2"),
      .getStr (literal "s") (literal "i") (some (literal "9")), .unset (literal "s") (literal "k")]
    Accounts (changeLog 2147483647 text ops) (run 2147483647 (rssConfigLoad text) ops) :=
  (changes_accounted 2147483647 _ _ (by decide +kernel) (by decide)).1

end Runs

end RaptorCommon.ConfigChangeLog
