import RaptorCommon.ConfigInvariant

/-!
# The map a config stands for

A config is meant to be a finite map from section and key, without their
spelling, to a value. Loading inserts the bindings of the file in order, a
write inserts, an unset and a section removal delete, and nothing else
touches the map. Every getter answers from the map or with its own default.
-/

set_option autoImplicit false

namespace RaptorCommon.ConfigMap
open RaptorCommon.CText RaptorCommon.KeyedStore RaptorCommon.ConfigStore
open RaptorCommon.ConfigSave RaptorCommon.ConfigSettings RaptorCommon.ConfigLoader
open RaptorCommon.ConfigGrammar RaptorCommon.ConfigInvariant RaptorCommon.IniSemantics

section Loading

def itemOf : Line → Item Bytes Bytes Bytes
  | .ignored => .inert
  | .header name => .header (foldCase name)
  | .binding key value => .binding (foldCase key) (value.take (maxVal-1))

def loadedMap (text : Bytes) : Settings Bytes Bytes Bytes :=
  (((fileLines text).map itemOf).foldl interpret ([], fun _ => none)).2

def lineNames : Line → List Bytes
  | .ignored => []
  | .header name => [name]
  | .binding key _ => [key]

/-- The section names and keys on the accepted lines fit their fields. -/
def FileFits (text : Bytes) : Prop :=
  ∀ line ∈ fileLines text, ∀ name ∈ lineNames line, name.length ≤ 63

instance (text : Bytes) : Decidable (FileFits text) :=
  inferInstanceAs (Decidable (∀ line ∈ _, ∀ name ∈ _, _ ≤ _))

def lineTexts : Line → List Bytes
  | .ignored => []
  | .header name => [name]
  | .binding key value => [key, value]

theorem line_texts_mem {line : Bytes} {t : Bytes} (ht : t ∈ lineTexts (parseLine line)) {c : Byte}
    (hc : c ∈ t) : c ∈ line := by
  cases h : parseLine line with
  | ignored => simp [h, lineTexts] at ht
  | header name =>
    obtain ⟨lead, inner, rest, rfl, -, -, rfl⟩ := parse_header_parts h
    rw [h, lineTexts, List.mem_singleton] at ht
    subst ht
    have := trim_mem hc
    simp [headerShape, this]
  | binding key value =>
    obtain ⟨lead, pad, rest, rfl, -, -, -, -, -, -, rfl⟩ := parse_binding_parts h
    rw [h, lineTexts] at ht
    rcases List.mem_pair.mp ht with rfl | rfl
    · simp [keyShape, hc]
    · have := loaded_mem hc
      simp [keyShape, this]

theorem lines_read_mem {fuel : ℕ} {text : Bytes} {line : Line} (h : line ∈ linesRead fuel text) :
    ∃ s, line = parsed s := by
  induction fuel generalizing text with
  | zero => simp [linesRead] at h
  | succ fuel ih =>
    rw [linesRead] at h
    split at h
    · simp at h
    · rcases List.mem_cons.mp h with h | h
      · exact ⟨_, h⟩
      · exact ih h

theorem file_line_nul_free {text : Bytes} {line : Line} (h : line ∈ fileLines text) :
    ∀ t ∈ lineTexts line, 0 ∉ t := by
  obtain ⟨s, rfl⟩ := lines_read_mem h
  intro t ht h0
  cases s with
  | none => simp [parsed, lineTexts] at ht
  | some s => exact s.nul_free (line_texts_mem ht h0)

def Fresh (_ : Place) (e : ConfigEntry) : Prop :=
  e.dirty = false ∧ e.defaulted = false ∧ e.removed = false

structure Loaded (st : LoadState) (mem : Bytes × Settings Bytes Bytes Bytes) : Prop where
  keyed : Keyed st.cfg
  fresh : Holds Fresh st.cfg
  unflagged : ∀ s, flagsAt s st.cfg = (false, false)
  current : foldCase st.current.chars = mem.1
  settings : settings st.cfg = mem.2

theorem loaded_start : Loaded loadStart ([], fun _ => none) where
  keyed := keyed_nil
  fresh q e h := by simp [loadStart, entryAt, sectionAt, fetch] at h
  unflagged s := rfl
  current := rfl
  settings := rfl

theorem loaded_step {st : LoadState} {mem : Bytes × Settings Bytes Bytes Bytes} {line : Line}
    (h : Loaded st mem) (hf : ∀ name ∈ lineNames line, name.length ≤ 63)
    (hz : ∀ t ∈ lineTexts line, 0 ∉ t) :
    Loaded (loadParsed st line) (interpret mem (itemOf line)) := by
  cases line with
  | ignored => exact h
  | header name =>
    have hz' : (CString.at name).chars = name := at_nul_free (hz name (by simp [lineTexts]))
    have hn : (rssStrlcpy maxSecn (CString.at name)).chars = name := by
      rw [strlcpy_of_fits, hz']
      rw [hz']
      exact hf name (by simp [lineNames])
    exact { h with current := congrArg foldCase hn }
  | binding key value =>
    have hkey : (CString.at key).chars = key := at_nul_free (hz key (by simp [lineTexts]))
    have hval : (CString.at value).chars = value := at_nul_free (hz value (by simp [lineTexts]))
    have hs : Fits st.current.str := st.current.fits
    have hn : Fits (CString.at key) := by
      rw [Fits, hkey]
      exact hf key (by simp [lineNames])
    have hat : ∀ q, entryAt q (loadParsed st (.binding key value)).cfg =
        if q = place st.current.str (CString.at key) then
          some (stored (CString.at key) (CString.at value) false false (entryAt q st.cfg))
        else entryAt q st.cfg :=
      entry_at_store id h.keyed hs hn (fun _ => rfl) (fun _ => rfl)
    have hplace : place st.current.str (CString.at key) = (mem.1, foldCase key) := by
      rw [place, hkey]
      exact congrArg (·, foldCase key) h.current
    refine ⟨keyed_store id h.keyed hs hn (fun _ => rfl) (fun _ => rfl), ?_, ?_, h.current, ?_⟩
    · intro q e he
      have he := (hat q).symm.trans he
      split at he
      · rw [← Option.some.inj he]
        cases hq : entryAt q st.cfg with
        | none => exact ⟨rfl, rfl, rfl⟩
        | some x => exact ⟨by simp [stored, overwriteEntry, (h.fresh q x hq).1], rfl, rfl⟩
      · exact h.fresh q e he
    · intro s
      exact (flags_at_add h.keyed hs s).trans (h.unflagged s)
    · funext q
      refine (congrArg (·.bind liveEntry) (hat q)).trans ?_
      rw [hplace]
      by_cases hq : q = (mem.1, foldCase key)
      · rw [if_pos hq, Option.bind_some, stored_write_live, hval, hq]
        simp [itemOf, interpret]
      · rw [if_neg hq]
        refine (congrFun h.settings q).trans ?_
        simp [itemOf, interpret, Function.update_of_ne hq]

theorem loaded_lines {st : LoadState} {mem : Bytes × Settings Bytes Bytes Bytes}
    (lines : List Line) (h : Loaded st mem)
    (hf : ∀ line ∈ lines, ∀ name ∈ lineNames line, name.length ≤ 63)
    (hz : ∀ line ∈ lines, ∀ t ∈ lineTexts line, 0 ∉ t) :
    Loaded (lines.foldl loadParsed st) ((lines.map itemOf).foldl interpret mem) := by
  induction lines generalizing st mem with
  | nil => exact h
  | cons line lines ih =>
    exact ih (loaded_step h (hf line (by simp)) (hz line (by simp)))
      (fun l hl => hf l (by simp [hl])) (fun l hl => hz l (by simp [hl]))

theorem loaded_file {text : Bytes} (hf : FileFits text) :
    Loaded ((fileLines text).foldl loadParsed loadStart)
      (((fileLines text).map itemOf).foldl interpret ([], fun _ => none)) :=
  loaded_lines _ loaded_start hf fun _ hl => file_line_nul_free hl

theorem load_settings {text : Bytes} (hf : FileFits text) :
    settings (rssConfigLoad text) = loadedMap text := by
  rw [load_file_lines, (loaded_file hf).settings, loadedMap]

theorem load_sound {text : Bytes} (hf : FileFits text) : Sound (rssConfigLoad text) := by
  have h := loaded_file hf
  rw [load_file_lines]
  refine ⟨h.keyed, fun q e hg => ?_, fun s hl => ?_, by rw [h.unflagged]⟩
  · rw [h.unflagged] at hg
    cases hg
  · rw [h.unflagged] at hl
    cases hl

theorem load_fresh {text : Bytes} (hf : FileFits text) : Holds Fresh (rssConfigLoad text) := by
  rw [load_file_lines]
  exact (loaded_file hf).fresh

end Loading

section Refinement

def mapStep (m : Settings Bytes Bytes Bytes) (op : Op) : Settings Bytes Bytes Bytes :=
  match normal op with
  | .setStr sec key value =>
    if sec.chars = [] then m
    else Function.update m (place sec key) (some (value.chars.take (maxVal-1)))
  | .unset sec key => Function.update m (place sec key) none
  | .removeSection sec =>
    if sec.chars = [] then m else fun q => if q.1 = foldCase sec.chars then none else m q
  | _ => m

def MapAnswer (longMax : ℕ) (m : Settings Bytes Bytes Bytes) : Op → Answer → Prop
  | .getStr sec key d, answer => ∃ v, answer = .str v ∧
      v.map CString.chars = (m (place sec key)).or (d.map (fun t => t.chars.take (maxVal-1)))
  | .getInt sec key d, answer =>
      answer = .int (((m (place sec key)).bind (strtol longMax)).elim d toInt)
  | .getBool sec key d, answer =>
      answer = .bool (((m (place sec key)).bind parseBool).getD d)
  | .unset sec key, answer => answer = .bool (m (place sec key)).isSome
  | _, _ => True

variable {longMax : ℕ} {cfg : Config}

theorem settings_get_str {sec key : CString} (h : Sound cfg) (hs : Fits sec) (hn : Fits key)
    (d : Option CString) : settings (rssConfigGetStr sec key d cfg).2 = settings cfg := by
  funext q
  rw [settings, get_str_config h.toKeyed hs hn]
  cases d with
  | none => rfl
  | some t =>
    dsimp only
    split
    next hc =>
      rw [hc.2, Option.bind_some]
      exact stored_default_live hc.2
    next => rfl

theorem settings_set_str {sec key v : CString} (h : Sound cfg) (hs : Fits sec) (hn : Fits key) :
    settings (rssConfigSetStr sec key v cfg) = if sec.chars = [] then settings cfg
      else Function.update (settings cfg) (place sec key) (some (v.chars.take (maxVal-1))) := by
  funext q
  rw [settings, entry_at_set h.toKeyed hs hn]
  by_cases h0 : sec.chars = []
  · simp [h0, settings]
  · rw [if_neg h0]
    by_cases hq : q = place sec key
    · rw [if_pos ⟨h0, hq⟩, hq, Function.update_self, Option.bind_some, stored_write_live]
    · rw [if_neg (fun hc => hq hc.2), Function.update_of_ne hq]
      rfl

theorem removed_live (e : Option ConfigEntry) : (e.map removeEntry).bind liveEntry = none := by
  cases e with
  | none => rfl
  | some e => exact remove_live e

theorem settings_unset {sec key : CString} (h : Sound cfg) :
    settings (rssConfigUnset sec key cfg).2 =
      Function.update (settings cfg) (place sec key) none := by
  funext q
  rw [settings, entry_at_unset h.toKeyed]
  by_cases hq : q = place sec key
  · rw [if_pos hq, hq, Function.update_self, removed_live]
  · rw [if_neg hq, Function.update_of_ne hq]
    rfl

theorem settings_remove {sec : CString} (h : Sound cfg) :
    settings (rssConfigRemoveSection sec cfg).2 = if sec.chars = [] then settings cfg
      else fun q => if q.1 = foldCase sec.chars then none else settings cfg q := by
  funext q
  rw [settings, entry_at_remove h]
  by_cases h0 : sec.chars = []
  · simp [h0, settings]
  · rw [if_neg h0]
    by_cases hq : q.1 = foldCase sec.chars
    · rw [if_pos ⟨h0, hq⟩, removed_live, if_pos hq]
    · rw [if_neg (fun hc => hq hc.2), if_neg hq]
      rfl

theorem settings_clear : settings (clearDirty cfg) = settings cfg := by
  funext q
  rw [settings, entry_at_clear, Option.bind_map]
  rfl

theorem map_step_quiet {op : Op} (hop : Quiet op) (m : Settings Bytes Bytes Bytes) :
    mapStep m op = m := by
  cases op <;> first | rfl | exact hop.elim

/-- One call acts on the map the config stands for. -/
theorem settings_step {op : Op} (h : Sound cfg) (hn : NamesFit op) :
    settings (step longMax cfg op).2 = mapStep (settings cfg) op := by
  have hc := step_change longMax cfg op
  generalize (step longMax cfg op).2 = after at hc ⊢
  cases hc with
  | get sec key d hop =>
    have hfit := normal_fits hn hop
    rw [settings_get_str h (hfit sec (by simp [opNames])) (hfit key (by simp [opNames])), mapStep,
      hop]
  | set sec key v hop =>
    have hfit := normal_fits hn hop
    rw [settings_set_str h (hfit sec (by simp [opNames])) (hfit key (by simp [opNames])), mapStep,
      hop]
  | unset sec key hop => rw [settings_unset h, mapStep, hop]
  | remove sec hop => rw [settings_remove h, mapStep, hop]
  | settle hop => rw [settings_clear, map_step_quiet hop]
  | same hop => rw [map_step_quiet hop]

theorem get_str_none (h : Sound cfg) (sec key : CString) :
    ((rssConfigGetStr sec key none cfg).1.map CString.chars = settings cfg (place sec key)) ∧
      (rssConfigGetStr sec key none cfg).2 = cfg := by
  have hl := lookup_settings h.toKeyed sec key
  unfold rssConfigGetStr
  cases hv : lookupValue sec key cfg with
  | some v =>
    rw [hv] at hl
    exact ⟨hl, rfl⟩
  | none =>
    rw [hv] at hl
    exact ⟨hl, rfl⟩

theorem get_int_answer (h : Sound cfg) (sec key : CString) (d : ℤ) :
    (rssConfigGetInt longMax sec key d cfg).1 =
      ((settings cfg (place sec key)).bind (strtol longMax)).elim d toInt := by
  obtain ⟨ha, -⟩ := get_str_none h sec key
  rw [rssConfigGetInt, ← ha]
  cases rssConfigGetStr sec key none cfg with
  | mk v c => cases v <;> rfl

theorem get_bool_answer (h : Sound cfg) (sec key : CString) (d : Bool) :
    (rssConfigGetBool sec key d cfg).1 =
      ((settings cfg (place sec key)).bind parseBool).getD d := by
  obtain ⟨ha, -⟩ := get_str_none h sec key
  rw [rssConfigGetBool, ← ha]
  cases rssConfigGetStr sec key none cfg with
  | mk v c => cases v <;> rfl

theorem step_answer {op : Op} (h : Sound cfg) (hn : NamesFit op) :
    MapAnswer longMax (settings cfg) op (step longMax cfg op).1 := by
  cases op with
  | getStr sec key d =>
    refine ⟨_, rfl, ?_⟩
    rw [get_str_answer h.toKeyed (hn key (by simp [opNames]))]
    cases settings cfg (place sec key) <;> rfl
  | getInt sec key d => exact congrArg Answer.int (get_int_answer h sec key d)
  | getBool sec key d => exact congrArg Answer.bool (get_bool_answer h sec key d)
  | unset sec key => exact congrArg Answer.bool (unset_answer h.toKeyed)
  | _ => trivial

theorem settings_run {ops : List Op} (h : Sound cfg) (hn : ∀ op ∈ ops, NamesFit op) :
    settings (run longMax cfg ops) = ops.foldl mapStep (settings cfg) :=
  run_simulates (fun _ _ => settings_step) h hn

/-- Along every run the config is its map, and each call answers from it. -/
theorem config_refines_map (longMax : ℕ) (text : Bytes) (ops : List Op) (hf : FileFits text)
    (hn : ∀ op ∈ ops, NamesFit op) :
    settings (run longMax (rssConfigLoad text) ops) = ops.foldl mapStep (loadedMap text) ∧
    ∀ before op after, ops = before ++ op::after →
      MapAnswer longMax (before.foldl mapStep (loadedMap text)) op
        (step longMax (run longMax (rssConfigLoad text) before) op).1 := by
  have hs := load_sound hf
  refine ⟨by rw [settings_run hs hn, load_settings hf], ?_⟩
  rintro before op after rfl
  have hb : ∀ o ∈ before, NamesFit o := fun o ho => hn o (by simp [ho])
  rw [← load_settings hf, ← settings_run hs hb]
  exact step_answer (sound_run hs hb) (hn op (by simp))

/-- A default read twice around an unset, and a section removed. -/
theorem config_refines_map_run :
    let text := ascii "[a]\nk = 1\n[b]\nk = 2\n"
    let ops : List Op := [.getInt (literal "A") (literal "k") 7, .unset (literal "a") (literal "K"),
      .getStr (literal "a") (literal "k") (some (literal "9")), .removeSection (literal "b")]
    settings (run 2147483647 (rssConfigLoad text) ops) = ops.foldl mapStep (loadedMap text) :=
  (config_refines_map 2147483647 _ _ (by decide +kernel) (by decide)).1

end Refinement

end RaptorCommon.ConfigMap
