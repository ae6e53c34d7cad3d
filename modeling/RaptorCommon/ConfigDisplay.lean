import RaptorCommon.ConfigMap

/-!
# What the section display shows

The display is meant to show what readers resolved: the values in force and,
at the other keys, the default that the last reader fell back on. A default
resolved for a key that was taken out before is stored, but the walk still
skips the key.
-/

set_option autoImplicit false

namespace RaptorCommon.ConfigDisplay
open RaptorCommon.CText RaptorCommon.KeyedStore RaptorCommon.ConfigStore
open RaptorCommon.ConfigSave RaptorCommon.ConfigSettings RaptorCommon.ConfigLoader
open RaptorCommon.ConfigInvariant RaptorCommon.ConfigMap RaptorCommon.IniSemantics

section Reference

/-- The values in force, the defaults that lookups fell back on since the key
was last written or taken out, and the keys taken out and not written again. -/
structure Display where
  live : Settings Bytes Bytes Bytes
  fallback : Settings Bytes Bytes Bytes
  gone : Place → Bool

def Display.record (d : Display) (op : Op) : Display where
  live := mapStep d.live op
  fallback :=
    match normal op with
    | .getStr sec key (some t) =>
      if d.live (place sec key) = none
      then Function.update d.fallback (place sec key) (some (t.chars.take (maxVal-1)))
      else d.fallback
    | .setStr sec key _ =>
      if sec.chars = [] then d.fallback else Function.update d.fallback (place sec key) none
    | .unset sec key =>
      if d.live (place sec key) = none then d.fallback
      else Function.update d.fallback (place sec key) none
    | _ => d.fallback
  gone :=
    match normal op with
    | .setStr sec key _ =>
      if sec.chars = [] then d.gone else Function.update d.gone (place sec key) false
    | .unset sec key =>
      if d.live (place sec key) = none then d.gone
      else Function.update d.gone (place sec key) true
    | .removeSection sec =>
      if sec.chars = [] then d.gone
      else fun q => d.gone q || (q.1 = foldCase sec.chars ∧ d.live q ≠ none)
    | _ => d.gone

def fileDisplay (text : Bytes) : Display := ⟨loadedMap text, fun _ => none, fun _ => false⟩

def display (text : Bytes) (ops : List Op) : Display := ops.foldl Display.record (fileDisplay text)

/-- The walk over a section visits each key at most once: the keys a lookup
without a default answers, with the answer, the others with the default last
fallen back on, and nothing else. -/
structure Displays (d : Display) (sec : CString) (cfg : Config) : Prop where
  once : ((rssConfigForeach sec cfg).map (fun p => foldCase p.1.chars)).Nodup
  agrees : ∀ (key : CString) (v : Bytes),
    (∃ p ∈ rssConfigForeach sec cfg, foldCase p.1.chars = foldCase key.chars ∧ p.2.chars = v) ↔
      ((rssConfigGetStr sec key none cfg).1.map CString.chars).or
        (d.fallback (place sec key)) = some v

end Reference

section Walk

variable {cfg : Config} {sec : CString}

theorem foreach_stands (hk : Keyed cfg) (hstands : (flagsAt (foldCase sec.chars) cfg).1 = false) :
    rssConfigForeach sec cfg =
      ((((sectionAt (foldCase sec.chars) cfg).map ConfigSection.entries).getD []).filter
        (fun e => e.removed = false)).map (fun e => (e.key.str, e.value.str)) := by
  have hkey : ∀ s : ConfigSection,
      decide (sameName s.name.chars sec.chars ∧ s.removed = false) = true →
        sectionKey s = foldCase sec.chars := by
    intro s h
    have hsame := (of_decide_eq_true h).1
    simpa [sameName, sectionKey] using hsame
  rw [rssConfigForeach, filter_keyed hk.sections hkey]
  cases h : sectionAt (foldCase sec.chars) cfg with
  | none =>
    rw [sectionAt] at h
    rw [h]
    rfl
  | some s =>
    have hremoved : s.removed = false := by
      rw [flagsAt, h] at hstands
      exact hstands
    have hname : sameName s.name.chars sec.chars = true := by
      simpa [sameName, sectionKey] using fetch_key h
    rw [sectionAt] at h
    rw [h, Option.filter_some, if_pos (decide_eq_true ⟨hname, hremoved⟩)]
    simp

theorem visited_iff (hk : Keyed cfg) (hstands : (flagsAt (foldCase sec.chars) cfg).1 = false)
    (key : CString) (v : Bytes) :
    (∃ p ∈ rssConfigForeach sec cfg, foldCase p.1.chars = foldCase key.chars ∧ p.2.chars = v) ↔
      ∃ e, entryAt (place sec key) cfg = some e ∧ e.removed = false ∧ e.value.chars = v := by
  rw [foreach_stands hk hstands, entryAt, place]
  cases h : sectionAt (foldCase sec.chars) cfg with
  | none => simp
  | some s =>
    show (∃ p ∈ (s.entries.filter _).map _, _) ↔
      ∃ e, fetch entryKey (foldCase key.chars) s.entries = some e ∧ _
    constructor
    · rintro ⟨p, hp, hname, hv⟩
      obtain ⟨e, he, rfl⟩ := List.mem_map.mp hp
      obtain ⟨hmem, hremoved⟩ := List.mem_filter.mp he
      have hfetch := fetch_of_mem (section_entries hk h) hmem
      rw [show entryKey e = foldCase key.chars from hname] at hfetch
      exact ⟨e, hfetch, of_decide_eq_true hremoved, hv⟩
    · rintro ⟨e, he, hremoved, hv⟩
      have hname : foldCase e.key.str.chars = foldCase key.chars :=
        show entryKey e = foldCase key.chars from fetch_key he
      refine ⟨(e.key.str, e.value.str), List.mem_map.mpr ⟨e, ?_, rfl⟩, hname, hv⟩
      exact List.mem_filter.mpr ⟨fetch_mem he, decide_eq_true hremoved⟩

theorem walk_once (hk : Keyed cfg) (hstands : (flagsAt (foldCase sec.chars) cfg).1 = false) :
    ((rssConfigForeach sec cfg).map (fun p => foldCase p.1.chars)).Nodup := by
  rw [foreach_stands hk hstands, List.map_map]
  cases h : sectionAt (foldCase sec.chars) cfg with
  | none => exact List.nodup_nil
  | some s =>
    have hunique : (s.entries.map entryKey).Nodup := section_entries hk h
    exact hunique.sublist (List.filter_sublist.map entryKey)

end Walk

section Refinement

def fallbackOf (e : ConfigEntry) : Option Bytes :=
  if e.defaulted = true then some e.value.chars else none

def goneEntry (e : Option ConfigEntry) : Bool := (e.map ConfigEntry.removed).getD false

def displayed (cfg : Config) : Display where
  live := settings cfg
  fallback q := (entryAt q cfg).bind fallbackOf
  gone q := goneEntry (entryAt q cfg)

variable {longMax : ℕ} {cfg : Config} {sec key : CString}

theorem live_fallback {e : ConfigEntry} (h : liveEntry e ≠ none) : fallbackOf e = none := by
  unfold liveEntry liveField at h
  unfold fallbackOf
  cases hd : e.defaulted with
  | false => rfl
  | true => simp [hd] at h

theorem live_only {e : Option ConfigEntry} (h : e.bind liveEntry ≠ none) :
    e.bind fallbackOf = none := by
  cases e with
  | none => rfl
  | some e => exact live_fallback h

theorem remove_fallback (e : ConfigEntry) : fallbackOf (removeEntry e) = fallbackOf e := by
  unfold removeEntry
  split <;> rfl

theorem remove_gone (e : ConfigEntry) :
    (removeEntry e).removed = (e.removed || decide (liveEntry e ≠ none)) := by
  unfold removeEntry liveEntry liveField
  cases hd : e.defaulted <;> cases hr : e.removed <;> simp [hr]

theorem default_fallback (key t : CString) {old : Option ConfigEntry}
    (h : old.bind liveEntry = none) :
    fallbackOf (stored key t false true old) = some (t.chars.take (maxVal-1)) ∧
      (stored key t false true old).removed = goneEntry old := by
  cases old with
  | none => exact ⟨rfl, rfl⟩
  | some e =>
    have he : liveEntry e = none := h
    unfold liveEntry liveField at he
    refine ⟨?_, rfl⟩
    unfold stored fallbackOf
    cases hd : e.defaulted <;> cases hr : e.removed <;> simp_all [overwriteEntry, rssStrlcpy]

theorem write_fallback (key v : CString) (old : Option ConfigEntry) :
    fallbackOf (stored key v true false old) = none ∧
      (stored key v true false old).removed = false := by
  cases old <;> exact ⟨rfl, rfl⟩

theorem removed_fallback (old : Option ConfigEntry) :
    (old.map removeEntry).bind fallbackOf = old.bind fallbackOf := by
  cases old with
  | none => rfl
  | some e => exact remove_fallback e

theorem removed_gone (old : Option ConfigEntry) :
    goneEntry (old.map removeEntry) = (goneEntry old || decide (old.bind liveEntry ≠ none)) := by
  cases old with
  | none => rfl
  | some e => exact remove_gone e

def Reflects (d : Display) (q : Place) (e : Option ConfigEntry) : Prop :=
  e.bind fallbackOf = d.fallback q ∧ goneEntry e = d.gone q

theorem displayed_eq {after : Config} {d : Display} (hlive : settings after = d.live)
    (h : ∀ q, Reflects d q (entryAt q after)) : displayed after = d := by
  have hfallback : (displayed after).fallback = d.fallback := funext fun q => (h q).1
  have hgone : (displayed after).gone = d.gone := funext fun q => (h q).2
  show Display.mk (settings after) (displayed after).fallback (displayed after).gone = d
  rw [hlive, hfallback, hgone]

theorem reflects_get (h : Sound cfg) (hs : Fits sec) (hn : Fits key) (d : Option CString)
    {op : Op} (hop : normal op = .getStr sec key d) (q : Place) :
    Reflects ((displayed cfg).record op) q (entryAt q (rssConfigGetStr sec key d cfg).2) := by
  rw [get_str_config h.toKeyed hs hn]
  cases d with
  | none =>
    simp only [Reflects, Display.record, hop]
    exact ⟨rfl, rfl⟩
  | some t =>
    simp only [Reflects, Display.record, hop]
    by_cases hq : q = place sec key
    · subst hq
      by_cases hmiss : settings cfg (place sec key) = none
      · obtain ⟨hshown, hgone⟩ := default_fallback key t hmiss
        rw [if_pos ⟨rfl, hmiss⟩, show (displayed cfg).live (place sec key) = none from hmiss,
          if_pos rfl, Function.update_self]
        exact ⟨hshown, hgone⟩
      · rw [if_neg (fun hc => hmiss hc.2), if_neg (show (displayed cfg).live _ ≠ none from hmiss)]
        exact ⟨rfl, rfl⟩
    · rw [if_neg (fun hc => hq hc.1)]
      split
      · rw [Function.update_of_ne hq]
        exact ⟨rfl, rfl⟩
      · exact ⟨rfl, rfl⟩

theorem reflects_set (h : Sound cfg) (hs : Fits sec) (hn : Fits key) (v : CString)
    {op : Op} (hop : normal op = .setStr sec key v) (q : Place) :
    Reflects ((displayed cfg).record op) q (entryAt q (rssConfigSetStr sec key v cfg)) := by
  rw [entry_at_set h.toKeyed hs hn]
  simp only [Reflects, Display.record, hop]
  by_cases h0 : sec.chars = []
  · rw [if_neg (fun hc => hc.1 h0), if_pos h0, if_pos h0]
    exact ⟨rfl, rfl⟩
  · rw [if_neg h0, if_neg h0]
    by_cases hq : q = place sec key
    · rw [if_pos ⟨h0, hq⟩, hq, Function.update_self, Function.update_self]
      exact write_fallback key v _
    · rw [if_neg (fun hc => hq hc.2), Function.update_of_ne hq, Function.update_of_ne hq]
      exact ⟨rfl, rfl⟩

theorem reflects_unset (h : Sound cfg) {op : Op} (hop : normal op = .unset sec key) (q : Place) :
    Reflects ((displayed cfg).record op) q (entryAt q (rssConfigUnset sec key cfg).2) := by
  rw [entry_at_unset h.toKeyed]
  simp only [Reflects, Display.record, hop]
  by_cases hq : q = place sec key
  · subst hq
    rw [if_pos rfl, removed_fallback, removed_gone]
    by_cases hlive : settings cfg (place sec key) = none
    · rw [if_pos (show (displayed cfg).live _ = none from hlive),
        if_pos (show (displayed cfg).live _ = none from hlive)]
      refine ⟨rfl, ?_⟩
      rw [show (entryAt (place sec key) cfg).bind liveEntry = none from hlive]
      exact Bool.or_false _
    · rw [if_neg (show (displayed cfg).live _ ≠ none from hlive),
        if_neg (show (displayed cfg).live _ ≠ none from hlive), Function.update_self,
        Function.update_self]
      refine ⟨live_only hlive, ?_⟩
      rw [decide_eq_true (show (entryAt (place sec key) cfg).bind liveEntry ≠ none from hlive)]
      exact Bool.or_true _
  · rw [if_neg hq]
    split
    · exact ⟨rfl, rfl⟩
    · rw [Function.update_of_ne hq, Function.update_of_ne hq]
      exact ⟨rfl, rfl⟩

theorem reflects_remove (h : Sound cfg) {op : Op} (hop : normal op = .removeSection sec)
    (q : Place) :
    Reflects ((displayed cfg).record op) q (entryAt q (rssConfigRemoveSection sec cfg).2) := by
  rw [entry_at_remove h]
  simp only [Reflects, Display.record, hop]
  by_cases h0 : sec.chars = []
  · rw [if_neg (fun hc => hc.1 h0), if_pos h0]
    exact ⟨rfl, rfl⟩
  · rw [if_neg h0]
    by_cases hq : q.1 = foldCase sec.chars
    · rw [if_pos ⟨h0, hq⟩, removed_fallback, removed_gone]
      refine ⟨rfl, ?_⟩
      simp only [hq, true_and]
      rfl
    · rw [if_neg (fun hc => hq hc.2)]
      refine ⟨rfl, ?_⟩
      simp only [hq, false_and, decide_false, Bool.or_false]
      rfl

theorem record_quiet {op : Op} (hop : Quiet op) (d : Display) : d.record op = d := by
  cases op <;> first | rfl | exact hop.elim

theorem displayed_step {op : Op} (h : Sound cfg) (hn : NamesFit op) :
    displayed (step longMax cfg op).2 = (displayed cfg).record op := by
  have hlive : settings (step longMax cfg op).2 = mapStep (settings cfg) op := settings_step h hn
  have hc := step_change longMax cfg op
  generalize (step longMax cfg op).2 = after at hlive hc ⊢
  apply displayed_eq hlive
  intro q
  cases hc with
  | get sec key d hop =>
    have hfit := normal_fits hn hop
    exact reflects_get h (hfit sec (by simp [opNames])) (hfit key (by simp [opNames])) d hop q
  | set sec key v hop =>
    have hfit := normal_fits hn hop
    exact reflects_set h (hfit sec (by simp [opNames])) (hfit key (by simp [opNames])) v hop q
  | unset sec key hop => exact reflects_unset h hop q
  | remove sec hop => exact reflects_remove h hop q
  | settle hop =>
    rw [entry_at_clear, record_quiet hop]
    cases h : entryAt q cfg <;> simp only [Reflects, displayed, h] <;> exact ⟨rfl, rfl⟩
  | same hop =>
    rw [record_quiet hop]
    exact ⟨rfl, rfl⟩

theorem displayed_run {ops : List Op} (h : Sound cfg) (hn : ∀ op ∈ ops, NamesFit op) :
    displayed (run longMax cfg ops) = ops.foldl Display.record (displayed cfg) :=
  run_simulates (fun _ _ => displayed_step) h hn

theorem displayed_load {text : Bytes} (hf : FileFits text) :
    displayed (rssConfigLoad text) = fileDisplay text := by
  apply displayed_eq (load_settings hf)
  intro q
  cases he : entryAt q (rssConfigLoad text) with
  | none => exact ⟨rfl, rfl⟩
  | some e =>
    obtain ⟨-, hdefaulted, hremoved⟩ := load_fresh hf q e he
    have hno : fallbackOf e = none := by
      rw [fallbackOf, hdefaulted]
      rfl
    exact ⟨hno, hremoved⟩

/-- The config of a run stands for the reference after the same calls. -/
theorem display_run {longMax : ℕ} {text : Bytes} {ops : List Op} (hf : FileFits text)
    (hn : ∀ op ∈ ops, NamesFit op) :
    displayed (run longMax (rssConfigLoad text) ops) = display text ops := by
  rw [displayed_run (load_sound hf) hn, displayed_load hf]
  rfl

end Refinement

section Showing

variable {cfg : Config} {sec : CString}

theorem entry_shown (e : ConfigEntry) (v : Bytes) (h : ¬(e.removed = true ∧ (fallbackOf e).isSome)) :
    (e.removed = false ∧ e.value.chars = v) ↔ (liveEntry e).or (fallbackOf e) = some v := by
  unfold fallbackOf at h
  unfold liveEntry liveField fallbackOf
  cases hd : e.defaulted <;> cases hr : e.removed <;> simp_all

theorem displays_iff (h : Sound cfg) (hstands : (flagsAt (foldCase sec.chars) cfg).1 = false) :
    Displays (displayed cfg) sec cfg ↔ ∀ key : CString,
      ¬((displayed cfg).gone (place sec key) = true ∧
        ((displayed cfg).fallback (place sec key)).isSome) := by
  have hagrees (key : CString) (v : Bytes) :
      ((∃ p ∈ rssConfigForeach sec cfg, foldCase p.1.chars = foldCase key.chars ∧ p.2.chars = v) ↔
        ((rssConfigGetStr sec key none cfg).1.map CString.chars).or
          ((displayed cfg).fallback (place sec key)) = some v) ↔
      ((∃ e, entryAt (place sec key) cfg = some e ∧ e.removed = false ∧ e.value.chars = v) ↔
        ((entryAt (place sec key) cfg).bind liveEntry).or
          ((entryAt (place sec key) cfg).bind fallbackOf) = some v) := by
    rw [visited_iff h.toKeyed hstands, (get_str_none h sec key).1]
    rfl
  constructor
  · rintro hdisplay key ⟨hgone, hfallback⟩
    cases he : entryAt (place sec key) cfg with
    | none =>
      simp only [displayed, he] at hgone
      cases hgone
    | some e =>
      simp only [displayed, he, Option.bind_some] at hgone hfallback
      -- the reference shows something here, and the walk skips the entry
      have hsome : ((liveEntry e).or (fallbackOf e)).isSome := by simp [hfallback]
      obtain ⟨v, hv⟩ := Option.isSome_iff_exists.mp hsome
      have hvisit := (hagrees key v).mp (hdisplay.agrees key v)
      rw [he] at hvisit
      obtain ⟨e', he', hremoved, -⟩ := hvisit.mpr hv
      rw [← Option.some.inj he'] at hremoved
      exact absurd (hremoved.symm.trans hgone) Bool.false_ne_true
  · intro hkeys
    refine ⟨walk_once h.toKeyed hstands, fun key v => (hagrees key v).mpr ?_⟩
    have hkey := hkeys key
    simp only [displayed] at hkey
    cases he : entryAt (place sec key) cfg with
    | none => simp
    | some e =>
      rw [he] at hkey
      have hshown := entry_shown e v hkey
      simpa using hshown

/-- The display of a section that stands is right exactly when no key of it
fell back on a default after it was taken out and before it was written
again. -/
theorem section_display_iff (longMax : ℕ) (text : Bytes) (ops : List Op) (sec : CString)
    (hf : FileFits text) (hn : ∀ op ∈ ops, NamesFit op)
    (hstands : (flagsAt (foldCase sec.chars) (run longMax (rssConfigLoad text) ops)).1 = false) :
    Displays (display text ops) sec (run longMax (rssConfigLoad text) ops) ↔
      ∀ key : CString, ¬((display text ops).gone (place sec key) = true ∧
        ((display text ops).fallback (place sec key)).isSome) := by
  rw [← @display_run longMax text ops hf hn]
  exact displays_iff (sound_run (load_sound hf) hn) hstands

/-- A value in force beside a default just resolved. -/
theorem section_display_sample :
    let text := ascii "[s]\nk = 1\n"
    let ops : List Op := [.getStr (literal "s") (literal "j") (some (literal "9"))]
    Displays (display text ops) (literal "s") (run 2147483647 (rssConfigLoad text) ops) := by
  intro text ops
  refine (section_display_iff 2147483647 text ops (literal "s") (by decide +kernel) (by decide)
    (by decide +kernel)).mpr ?_
  rintro key ⟨hgone, -⟩
  cases hgone

/-- An unset key that a reader resolves again does not come back. -/
theorem section_display_skips :
    let text := ascii "[s]\nk = 1\n"
    let ops : List Op := [.unset (literal "s") (literal "k"),
      .getStr (literal "s") (literal "k") (some (literal "9"))]
    let cfg := run 2147483647 (rssConfigLoad text) ops
    FileFits text ∧ (∀ op ∈ ops, NamesFit op) ∧ (flagsAt (ascii "s") cfg).1 = false ∧
      rssConfigForeach (literal "s") cfg = [] ∧ ¬Displays (display text ops) (literal "s") cfg := by
  intro text ops cfg
  have hempty : rssConfigForeach (literal "s") cfg = [] := by decide +kernel
  refine ⟨by decide +kernel, by decide, by decide +kernel, hempty, ?_⟩
  intro h
  have hshown : ((rssConfigGetStr (literal "s") (literal "k") none cfg).1.map CString.chars).or
      ((display text ops).fallback (place (literal "s") (literal "k"))) = some (ascii "9") := by
    decide +kernel
  obtain ⟨p, hp, -⟩ := (h.agrees (literal "k") (ascii "9")).mpr hshown
  rw [hempty] at hp
  cases hp

end Showing

end RaptorCommon.ConfigDisplay
