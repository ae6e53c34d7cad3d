import RaptorCommon.ConfigSave
import RaptorCommon.IniSemantics

/-!
# What a configuration says at each place

A place is a section and a key without their spelling. Each operation is
described once by the entry and the section it leaves at every place; the
settings a config answers and the changes it owes are read off from those.
-/

set_option autoImplicit false

namespace RaptorCommon.ConfigSettings
open RaptorCommon.CText RaptorCommon.KeyedStore RaptorCommon.ConfigStore
open RaptorCommon.ConfigSave RaptorCommon.IniSemantics

abbrev Place := Bytes × Bytes

def place (sec key : CString) : Place := (foldCase sec.chars, foldCase key.chars)

abbrev sectionAt (s : Bytes) (cfg : Config) : Option ConfigSection := fetch sectionKey s cfg

def entryAt (q : Place) (cfg : Config) : Option ConfigEntry :=
  (sectionAt q.1 cfg).bind (fun s => fetch entryKey q.2 s.entries)

def liveField (e : ConfigEntry) : Option (Field maxVal) :=
  if e.defaulted = false ∧ e.removed = false then some e.value else none

def liveEntry (e : ConfigEntry) : Option Bytes := (liveField e).map Field.chars

def settings (cfg : Config) : Settings Bytes Bytes Bytes := fun q => (entryAt q cfg).bind liveEntry

def sectionFlags (s : ConfigSection) : Bool × Bool := (s.removed, s.dirty)

/-- Whether a section is taken out, and whether the file still shows it. -/
def flagsAt (s : Bytes) (cfg : Config) : Bool × Bool :=
  ((sectionAt s cfg).map sectionFlags).getD (false, false)

/-- Names are found by their spelling-free key, each at most once. -/
structure Keyed (cfg : Config) : Prop where
  sections : Unique sectionKey cfg
  entries : ∀ s ∈ cfg, Unique entryKey s.entries

def Fits (name : CString) : Prop := name.chars.length ≤ 63

instance (name : CString) : Decidable (Fits name) := inferInstanceAs (Decidable (_ ≤ _))

theorem keyed_nil : Keyed [] := ⟨List.nodup_nil, by simp⟩

theorem section_entries {cfg : Config} (hk : Keyed cfg) {s : Bytes} {x : ConfigSection}
    (h : sectionAt s cfg = some x) : Unique entryKey x.entries := hk.entries x (fetch_mem h)

theorem found_entries {cfg : Config} (hk : Keyed cfg) (name : CString) :
    Unique entryKey (foundSection name cfg).entries := by
  unfold foundSection
  cases h : fetch sectionKey (foldCase name.chars) cfg with
  | some s => exact section_entries hk h
  | none => exact List.nodup_nil

theorem found_section (name : CString) (cfg : Config) (k : Bytes) :
    fetch entryKey k (foundSection name cfg).entries =
      entryAt (foldCase name.chars, k) cfg := by
  unfold foundSection entryAt sectionAt
  cases h : fetch sectionKey (foldCase name.chars) cfg <;> simp [emptySection, fetch]

theorem entry_at_iff {cfg : Config} (hk : Keyed cfg) (q : Place) (e : ConfigEntry) :
    entryAt q cfg = some e ↔
      ∃ s ∈ cfg, sectionKey s = q.1 ∧ e ∈ s.entries ∧ entryKey e = q.2 := by
  rw [entryAt, Option.bind_eq_some_iff]
  constructor
  · rintro ⟨s, hs, he⟩
    exact ⟨s, fetch_mem hs, fetch_key hs, fetch_mem he, fetch_key he⟩
  · rintro ⟨s, hs, h1, he, h2⟩
    refine ⟨s, ?_, ?_⟩
    · rw [← h1]
      exact fetch_of_mem hk.sections hs
    · rw [← h2]
      exact fetch_of_mem (hk.entries s hs) he

section Use

variable {name : CString} {use : ConfigSection → ConfigSection} {cfg : Config}

theorem empty_key (hn : Fits name) : sectionKey (emptySection name) = foldCase name.chars := by
  rw [sectionKey, emptySection, strlcpy_of_fits name hn]

theorem section_at_use (hk : Keyed cfg) (hn : Fits name)
    (hu : ∀ s, sectionKey (use s) = sectionKey s) (j : Bytes) :
    sectionAt j (findOrCreateSection name use cfg) =
      if j = foldCase name.chars then some (use (foundSection name cfg))
      else sectionAt j cfg := by
  have hnew : sectionKey (use (emptySection name)) = foldCase name.chars :=
    (hu _).trans (empty_key hn)
  rw [sectionAt, findOrCreateSection, fetch_upsert hnew hu hk.sections]
  congr 2
  unfold foundSection
  cases fetch sectionKey (foldCase name.chars) cfg <;> rfl

theorem entry_at_use (hk : Keyed cfg) (hn : Fits name)
    (hu : ∀ s, sectionKey (use s) = sectionKey s) (q : Place) :
    entryAt q (findOrCreateSection name use cfg) =
      if q.1 = foldCase name.chars then fetch entryKey q.2 (use (foundSection name cfg)).entries
      else entryAt q cfg := by
  rw [entryAt, section_at_use hk hn hu]
  split <;> rfl

theorem keyed_use (hk : Keyed cfg) (hn : Fits name)
    (hu : ∀ s, sectionKey (use s) = sectionKey s)
    (he : ∀ s, Unique entryKey s.entries → Unique entryKey (use s).entries) :
    Keyed (findOrCreateSection name use cfg) := by
  refine ⟨unique_upsert ((hu _).trans (empty_key hn)) hu hk.sections, fun s hs => ?_⟩
  rcases upsert_mem hs with h | rfl | ⟨b, hb, -, rfl⟩
  · exact hk.entries s h
  · exact he _ List.nodup_nil
  · exact he b (hk.entries b hb)

end Use

section Store

variable {cfg : Config} {sec key value : CString} {dirty defaulted : Bool}

theorem new_key (hn : Fits key) :
    entryKey (newEntry key value dirty defaulted) = foldCase key.chars := by
  rw [entryKey, newEntry, strlcpy_of_fits key hn]

theorem overwrite_key (e : ConfigEntry) :
    entryKey (overwriteEntry value dirty defaulted e) = entryKey e := rfl

def stored (key value : CString) (dirty defaulted : Bool) (old : Option ConfigEntry) :
    ConfigEntry :=
  old.elim (newEntry key value dirty defaulted) (overwriteEntry value dirty defaulted)

theorem add_entry_get (hn : Fits key) {s : ConfigSection} (hs : Unique entryKey s.entries)
    (k : Bytes) :
    fetch entryKey k (addEntryEx key value dirty defaulted s).entries =
      if k = foldCase key.chars then
        some (stored key value dirty defaulted (fetch entryKey (foldCase key.chars) s.entries))
      else fetch entryKey k s.entries :=
  fetch_upsert (new_key hn) overwrite_key hs k

theorem add_entry_unique (hn : Fits key) {s : ConfigSection} (hs : Unique entryKey s.entries) :
    Unique entryKey (addEntryEx key value dirty defaulted s).entries :=
  unique_upsert (new_key hn) overwrite_key hs

/-- Storing through a section pointer writes one place. The caller may change
the flags of the section on the way. -/
theorem entry_at_store (flag : ConfigSection → ConfigSection) (hk : Keyed cfg) (hs : Fits sec)
    (hn : Fits key) (hf : ∀ s, sectionKey (flag s) = sectionKey s)
    (he : ∀ s, (flag s).entries = s.entries) (q : Place) :
    entryAt q (findOrCreateSection sec
        (fun s => addEntryEx key value dirty defaulted (flag s)) cfg) =
      if q = place sec key then some (stored key value dirty defaulted (entryAt q cfg))
      else entryAt q cfg := by
  have hu : Unique entryKey (flag (foundSection sec cfg)).entries := by
    rw [he]
    exact found_entries hk sec
  have hname : ∀ s, sectionKey (addEntryEx key value dirty defaulted (flag s)) = sectionKey s := hf
  rw [entry_at_use hk hs hname]
  by_cases h1 : q.1 = foldCase sec.chars
  · rw [if_pos h1, add_entry_get hn hu, he, found_section, found_section, ← h1]
    by_cases h2 : q.2 = foldCase key.chars
    · have hq : q = place sec key := Prod.ext h1 h2
      rw [if_pos h2, if_pos hq, ← h2]
    · have hq : q ≠ place sec key := fun h => h2 (congrArg Prod.snd h)
      rw [if_neg h2, if_neg hq]
  · have hq : q ≠ place sec key := fun h => h1 (congrArg Prod.fst h)
    rw [if_neg h1, if_neg hq]

theorem keyed_store (flag : ConfigSection → ConfigSection) (hk : Keyed cfg) (hs : Fits sec)
    (hn : Fits key) (hf : ∀ s, sectionKey (flag s) = sectionKey s)
    (he : ∀ s, (flag s).entries = s.entries) :
    Keyed (findOrCreateSection sec
      (fun s => addEntryEx key value dirty defaulted (flag s)) cfg) := by
  refine keyed_use hk hs (fun s => hf s) fun s hu => add_entry_unique hn ?_
  rw [he]
  exact hu

theorem flags_at_add (hk : Keyed cfg) (hs : Fits sec) (s : Bytes) :
    flagsAt s (findOrCreateSection sec (addEntryEx key value dirty defaulted) cfg) =
      flagsAt s cfg := by
  have hname : ∀ s, sectionKey (addEntryEx key value dirty defaulted s) = sectionKey s :=
    fun _ => rfl
  have hflags : ∀ x, sectionFlags (addEntryEx key value dirty defaulted x) = sectionFlags x :=
    fun _ => rfl
  simp only [flagsAt, section_at_use hk hs hname]
  by_cases hj : s = foldCase sec.chars
  · rw [if_pos hj, Option.map_some, Option.getD_some, hflags, foundSection, hj, sectionAt]
    cases fetch sectionKey (foldCase sec.chars) cfg <;> rfl
  · rw [if_neg hj]

theorem keyed_set (hk : Keyed cfg) (hs : Fits sec) (hn : Fits key) :
    Keyed (rssConfigSetStr sec key value cfg) := by
  unfold rssConfigSetStr
  split
  · exact hk
  · exact keyed_store reviveSection hk hs hn (fun _ => rfl) (fun _ => rfl)

theorem entry_at_set (hk : Keyed cfg) (hs : Fits sec) (hn : Fits key) (q : Place) :
    entryAt q (rssConfigSetStr sec key value cfg) =
      if sec.chars ≠ [] ∧ q = place sec key
      then some (stored key value true false (entryAt q cfg)) else entryAt q cfg := by
  unfold rssConfigSetStr
  by_cases h : sec.chars = []
  · simp [h]
  · rw [if_neg h, entry_at_store reviveSection hk hs hn (fun _ => rfl) (fun _ => rfl)]
    simp [h]

theorem flags_at_set (hk : Keyed cfg) (hs : Fits sec) (s : Bytes) :
    flagsAt s (rssConfigSetStr sec key value cfg) =
      if sec.chars ≠ [] ∧ s = foldCase sec.chars then (false, false) else flagsAt s cfg := by
  unfold rssConfigSetStr
  by_cases h : sec.chars = []
  · simp [h]
  · have hname : ∀ s, sectionKey (addEntryEx key value true false (reviveSection s)) =
        sectionKey s := fun _ => rfl
    rw [if_neg h, flagsAt, section_at_use hk hs hname]
    by_cases hj : s = foldCase sec.chars <;>
      simp [h, hj, addEntryEx, reviveSection, sectionFlags, flagsAt]

end Store

section Lookup

variable {cfg : Config} {sec key : CString}

theorem lookup_value (hk : Keyed cfg) :
    lookupValue sec key cfg = (entryAt (place sec key) cfg).bind liveField := by
  have hs : ∀ s, sectionKey s ≠ foldCase sec.chars →
      (if sameName s.name.chars sec.chars then liveValue key s.entries else none) = none := by
    intro s h
    rw [if_neg]
    simpa [sameName, sectionKey] using h
  have he : ∀ e : ConfigEntry, entryKey e ≠ foldCase key.chars →
      (if sameName e.key.chars key.chars ∧ e.defaulted = false ∧ e.removed = false
        then some e.value else none) = none := by
    intro e h
    rw [if_neg]
    rintro ⟨h1, -⟩
    exact h (by simpa [sameName, entryKey] using h1)
  rw [lookupValue, find_some_keyed hk.sections hs, entryAt]
  cases h : sectionAt (foldCase sec.chars) cfg with
  | none => simp [place, h]
  | some s =>
    have hn : sameName s.name.chars sec.chars = true := by
      simpa [sameName, sectionKey] using fetch_key h
    simp only [place, h, Option.bind_some, hn, if_true]
    rw [liveValue, find_some_keyed (section_entries hk h) he]
    cases h' : fetch entryKey (foldCase key.chars) s.entries with
    | none => rfl
    | some e =>
      have hm : sameName e.key.chars key.chars = true := by
        simpa [sameName, entryKey] using fetch_key h'
      simp [liveField, hm]

theorem lookup_settings (hk : Keyed cfg) (sec key : CString) :
    (lookupValue sec key cfg).map Field.chars = settings cfg (place sec key) := by
  rw [lookup_value hk, settings, Option.map_bind]
  rfl

/-- The config a getter leaves: a default is stored only where no value is. -/
theorem get_str_config (hk : Keyed cfg) (hs : Fits sec) (hn : Fits key) (d : Option CString)
    (q : Place) :
    entryAt q (rssConfigGetStr sec key d cfg).2 =
      match d with
      | some t => if q = place sec key ∧ settings cfg q = none
          then some (stored key t false true (entryAt q cfg)) else entryAt q cfg
      | none => entryAt q cfg := by
  have hl := lookup_settings hk sec key
  unfold rssConfigGetStr
  cases hv : lookupValue sec key cfg with
  | some v =>
    rw [hv] at hl
    cases d with
    | none => rfl
    | some t =>
      have hne : ¬(q = place sec key ∧ settings cfg q = none) := by
        rintro ⟨rfl, h⟩
        rw [h] at hl
        cases hl
      simp only [if_neg hne]
  | none =>
    rw [hv] at hl
    cases d with
    | none => rfl
    | some t =>
      refine (entry_at_store id hk hs hn (fun _ => rfl) (fun _ => rfl) q).trans ?_
      by_cases hq : q = place sec key
      · subst hq
        simp [← hl]
      · simp [hq]

theorem get_str_keyed (hk : Keyed cfg) (hs : Fits sec) (hn : Fits key) (d : Option CString) :
    Keyed (rssConfigGetStr sec key d cfg).2 := by
  unfold rssConfigGetStr
  cases lookupValue sec key cfg with
  | some v => exact hk
  | none =>
    cases d with
    | none => exact hk
    | some t => exact keyed_store id hk hs hn (fun _ => rfl) (fun _ => rfl)

theorem get_str_flags (hk : Keyed cfg) (hs : Fits sec) (d : Option CString) (s : Bytes) :
    flagsAt s (rssConfigGetStr sec key d cfg).2 = flagsAt s cfg := by
  unfold rssConfigGetStr
  cases lookupValue sec key cfg with
  | some v => rfl
  | none =>
    cases d with
    | none => rfl
    | some t => exact flags_at_add hk hs s

theorem get_str_answer (hk : Keyed cfg) (hn : Fits key) (d : Option CString) :
    (rssConfigGetStr sec key d cfg).1.map CString.chars =
      match settings cfg (place sec key) with
      | some v => some v
      | none => d.map (fun t => t.chars.take (maxVal-1)) := by
  have hl := lookup_settings hk sec key
  unfold rssConfigGetStr
  cases hv : lookupValue sec key cfg with
  | some v =>
    rw [hv] at hl
    rw [← hl]
    rfl
  | none =>
    rw [hv] at hl
    rw [← hl]
    cases d with
    | none => rfl
    | some t =>
      have hp : (fun e : ConfigEntry => sameName e.key.chars key.chars) =
          fun e => decide (entryKey e = foldCase key.chars) := rfl
      have hf : fetch entryKey (foldCase key.chars)
          (addEntryDefault key t (foundSection sec cfg)).entries =
          some (stored key t false true
            (fetch entryKey (foldCase key.chars) (foundSection sec cfg).entries)) := by
        rw [addEntryDefault, add_entry_get hn (found_entries hk sec), if_pos rfl]
      rw [fetch] at hf
      simp only [hp, hf, Option.map_some, Option.getD_some]
      cases fetch entryKey (foldCase key.chars) (foundSection sec cfg).entries <;> rfl

end Lookup

section Removal

variable {cfg : Config} {sec key : CString}

theorem remove_key (e : ConfigEntry) : entryKey (removeEntry e) = entryKey e := by
  unfold removeEntry
  split <;> rfl

theorem remove_live (e : ConfigEntry) : liveEntry (removeEntry e) = none := by
  unfold removeEntry liveEntry liveField
  cases hd : e.defaulted <;> cases hr : e.removed <;> simp [hd, hr]

theorem remove_dead {e : ConfigEntry} (h : liveEntry e = none) : removeEntry e = e := by
  unfold liveEntry liveField at h
  unfold removeEntry
  cases hd : e.defaulted <;> cases hr : e.removed <;> simp_all

theorem live_some {e : ConfigEntry} :
    (liveEntry e).isSome = !(e.defaulted || e.removed) := by
  unfold liveEntry liveField
  cases e.defaulted <;> cases e.removed <;> rfl

theorem unset_entry (e : ConfigEntry) (h : entryKey e = foldCase key.chars) :
    unsetEntry key e = some ((liveEntry e).isSome, removeEntry e) := by
  rw [unsetEntry, if_pos h, live_some, removeEntry]
  cases e.defaulted || e.removed <;> rfl

theorem entry_at_put {s : Bytes} {x : ConfigSection} (hx : sectionKey x = s) (q : Place) :
    entryAt q (put sectionKey s x cfg) =
      if q.1 = s then (sectionAt s cfg).bind (fun _ => fetch entryKey q.2 x.entries)
      else entryAt q cfg := by
  rw [entryAt, sectionAt, fetch_put hx]
  by_cases h : q.1 = s
  · rw [if_pos h, if_pos h]
    cases hs : fetch sectionKey s cfg <;> simp [sectionAt, hs]
  · rw [if_neg h, if_neg h]
    rfl

theorem flags_at_put {s : Bytes} {x : ConfigSection} (hx : sectionKey x = s) (j : Bytes) :
    flagsAt j (put sectionKey s x cfg) =
      if j = s ∧ (sectionAt s cfg).isSome then sectionFlags x else flagsAt j cfg := by
  rw [flagsAt, sectionAt, fetch_put hx]
  by_cases h : j = s
  · subst h
    cases hs : fetch sectionKey j cfg <;> simp [flagsAt, sectionAt, hs]
  · simp [h, flagsAt]

theorem unset_cases (hk : Keyed cfg) (sec key : CString) :
    (entryAt (place sec key) cfg = none ∧ rssConfigUnset sec key cfg = (false, cfg)) ∨
    ∃ s e, sectionAt (foldCase sec.chars) cfg = some s ∧
      fetch entryKey (foldCase key.chars) s.entries = some e ∧
      rssConfigUnset sec key cfg = ((liveEntry e).isSome,
        put sectionKey (foldCase sec.chars)
          { s with entries := put entryKey (foldCase key.chars) (removeEntry e) s.entries } cfg) := by
  have hs : ∀ s, sectionKey s ≠ foldCase sec.chars → unsetSection sec key s = none :=
    fun s h => if_neg h
  have he : ∀ e, entryKey e ≠ foldCase key.chars → unsetEntry key e = none :=
    fun e h => if_neg h
  unfold rssConfigUnset
  rw [update_first_keyed hk.sections hs]
  cases h : fetch sectionKey (foldCase sec.chars) cfg with
  | none => exact Or.inl ⟨by simp [entryAt, place, sectionAt, h], rfl⟩
  | some s =>
    rw [Option.bind_some, unsetSection, if_pos (fetch_key h),
      update_first_keyed (section_entries hk h) he]
    cases h' : fetch entryKey (foldCase key.chars) s.entries with
    | none => exact Or.inl ⟨by simp [entryAt, place, sectionAt, h, h'], rfl⟩
    | some e =>
      refine Or.inr ⟨s, e, h, h', ?_⟩
      rw [Option.bind_some, unset_entry e (fetch_key h')]
      rfl

theorem unset_answer (hk : Keyed cfg) :
    (rssConfigUnset sec key cfg).1 = (settings cfg (place sec key)).isSome := by
  rcases unset_cases hk sec key with ⟨h, hu⟩ | ⟨s, e, hs, he, hu⟩
  · rw [hu, settings, h]
    rfl
  · have h : entryAt (place sec key) cfg = some e := by simp [entryAt, place, hs, he]
    rw [hu, settings, h]
    rfl

theorem unset_keyed (hk : Keyed cfg) : Keyed (rssConfigUnset sec key cfg).2 := by
  rcases unset_cases hk sec key with ⟨-, hu⟩ | ⟨s, e, hs, he, hu⟩
  · rw [hu]
    exact hk
  · rw [hu]
    refine ⟨unique_put (show sectionKey s = _ from fetch_key hs) hk.sections, fun x hx => ?_⟩
    rcases mem_put hx with rfl | ⟨hx, -⟩
    · exact unique_put ((remove_key e).trans (fetch_key he)) (section_entries hk hs)
    · exact hk.entries x hx

theorem entry_at_unset (hk : Keyed cfg) (q : Place) :
    entryAt q (rssConfigUnset sec key cfg).2 =
      if q = place sec key then (entryAt q cfg).map removeEntry else entryAt q cfg := by
  rcases unset_cases hk sec key with ⟨h, hu⟩ | ⟨s, e, hs, he, hu⟩
  · rw [hu]
    split
    next hq => rw [hq, h]; rfl
    next => rfl
  · have hkey : entryKey (removeEntry e) = foldCase key.chars :=
      (remove_key e).trans (fetch_key he)
    have hsec : sectionKey { s with
        entries := put entryKey (foldCase key.chars) (removeEntry e) s.entries } =
      foldCase sec.chars := show sectionKey s = _ from fetch_key hs
    rw [hu, entry_at_put hsec, hs]
    by_cases h1 : q.1 = foldCase sec.chars
    · have hq : entryAt q cfg = fetch entryKey q.2 s.entries := by rw [entryAt, h1, hs]; rfl
      rw [if_pos h1, Option.bind_some, fetch_put hkey, he, hq]
      by_cases h2 : q.2 = foldCase key.chars
      · rw [if_pos h2, if_pos (Prod.ext h1 h2), h2, he]
        rfl
      · rw [if_neg h2, if_neg (fun h => h2 (congrArg Prod.snd h))]
    · rw [if_neg h1, if_neg (fun h => h1 (congrArg Prod.fst h))]

theorem flags_at_unset (hk : Keyed cfg) (j : Bytes) :
    flagsAt j (rssConfigUnset sec key cfg).2 = flagsAt j cfg := by
  rcases unset_cases hk sec key with ⟨-, hu⟩ | ⟨s, e, hs, he, hu⟩
  · rw [hu]
  · have hsec : sectionKey { s with
        entries := put entryKey (foldCase key.chars) (removeEntry e) s.entries } =
      foldCase sec.chars := show sectionKey s = _ from fetch_key hs
    rw [hu, flags_at_put hsec, hs]
    by_cases hj : j = foldCase sec.chars
    · rw [if_pos ⟨hj, rfl⟩, flagsAt, hj, hs]
      rfl
    · rw [if_neg (fun h => hj h.1)]

theorem remove_cases (hk : Keyed cfg) (sec : CString) :
    ((sec.chars = [] ∨ sectionAt (foldCase sec.chars) cfg = none ∨
        (flagsAt (foldCase sec.chars) cfg).1 = true) ∧
      rssConfigRemoveSection sec cfg = (false, cfg)) ∨
    ∃ s, sec.chars ≠ [] ∧ sectionAt (foldCase sec.chars) cfg = some s ∧ s.removed = false ∧
      rssConfigRemoveSection sec cfg =
        (true, put sectionKey (foldCase sec.chars) (emptiedSection s) cfg) := by
  have hs : ∀ s, sectionKey s ≠ foldCase sec.chars → removeSection sec s = none :=
    fun s h => if_neg (fun hc => h hc.1)
  unfold rssConfigRemoveSection
  by_cases h0 : sec.chars = []
  · exact Or.inl ⟨Or.inl h0, if_pos h0⟩
  rw [if_neg h0, update_first_keyed hk.sections hs]
  cases h : fetch sectionKey (foldCase sec.chars) cfg with
  | none => exact Or.inl ⟨Or.inr (Or.inl h), rfl⟩
  | some s =>
    by_cases hr : s.removed = false
    · refine Or.inr ⟨s, h0, h, hr, ?_⟩
      rw [Option.bind_some, removeSection, if_pos ⟨fetch_key h, hr⟩]
      rfl
    · refine Or.inl ⟨Or.inr (Or.inr ?_), ?_⟩
      · rw [flagsAt, sectionAt, h]
        simpa [sectionFlags] using hr
      · rw [Option.bind_some, removeSection, if_neg (fun hc => hr hc.2)]
        rfl

theorem emptied_key {s : ConfigSection} {j : Bytes} (hs : sectionAt j cfg = some s) :
    sectionKey (emptiedSection s) = j := show sectionKey s = j from fetch_key hs

theorem remove_keyed (hk : Keyed cfg) : Keyed (rssConfigRemoveSection sec cfg).2 := by
  rcases remove_cases hk sec with ⟨-, hr⟩ | ⟨s, -, hs, -, hr⟩
  · rw [hr]
    exact hk
  · rw [hr]
    refine ⟨unique_put (emptied_key hs) hk.sections, fun x hx => ?_⟩
    rcases mem_put hx with rfl | ⟨hx, -⟩
    · exact (unique_map remove_key).mpr (section_entries hk hs)
    · exact hk.entries x hx

theorem flags_at_remove (hk : Keyed cfg) (j : Bytes) :
    flagsAt j (rssConfigRemoveSection sec cfg).2 =
      if (rssConfigRemoveSection sec cfg).1 ∧ j = foldCase sec.chars then (true, true)
      else flagsAt j cfg := by
  rcases remove_cases hk sec with ⟨-, hr⟩ | ⟨s, -, hs, -, hr⟩
  · simp [hr]
  · rw [hr, flags_at_put (emptied_key hs), hs]
    simp [sectionFlags, emptiedSection]

theorem entry_at_remove_found (hk : Keyed cfg) (hf : (rssConfigRemoveSection sec cfg).1 = true)
    (q : Place) :
    entryAt q (rssConfigRemoveSection sec cfg).2 =
      if q.1 = foldCase sec.chars then (entryAt q cfg).map removeEntry else entryAt q cfg := by
  rcases remove_cases hk sec with ⟨-, hr⟩ | ⟨s, -, hs, -, hr⟩
  · rw [hr] at hf
    cases hf
  · rw [hr, entry_at_put (emptied_key hs), hs]
    by_cases h : q.1 = foldCase sec.chars
    · rw [if_pos h, if_pos h, Option.bind_some, entryAt, h, hs]
      exact fetch_map remove_key q.2 s.entries
    · rw [if_neg h, if_neg h]

theorem remove_not_found (hk : Keyed cfg) (hf : (rssConfigRemoveSection sec cfg).1 = false) :
    (rssConfigRemoveSection sec cfg).2 = cfg ∧
      (sec.chars = [] ∨ sectionAt (foldCase sec.chars) cfg = none ∨
        (flagsAt (foldCase sec.chars) cfg).1 = true) := by
  rcases remove_cases hk sec with ⟨h, hr⟩ | ⟨s, -, hs, -, hr⟩
  · exact ⟨by rw [hr], h⟩
  · rw [hr] at hf
    cases hf

end Removal

section Settling

theorem clean_key (e : ConfigEntry) : entryKey (cleanEntry e) = entryKey e := rfl

theorem clean_section_key (s : ConfigSection) : sectionKey (cleanSection s) = sectionKey s := rfl

theorem entry_at_clear (q : Place) (cfg : Config) :
    entryAt q (clearDirty cfg) = (entryAt q cfg).map cleanEntry := by
  rw [entryAt, sectionAt, clearDirty, fetch_map clean_section_key, entryAt, sectionAt]
  cases fetch sectionKey q.1 cfg with
  | none => rfl
  | some s => exact fetch_map clean_key q.2 s.entries

theorem flags_at_clear (j : Bytes) (cfg : Config) :
    flagsAt j (clearDirty cfg) = ((flagsAt j cfg).1, false) := by
  rw [flagsAt, sectionAt, clearDirty, fetch_map clean_section_key, flagsAt, sectionAt]
  cases fetch sectionKey j cfg <;> rfl

theorem keyed_clear {cfg : Config} (hk : Keyed cfg) : Keyed (clearDirty cfg) := by
  refine ⟨(unique_map clean_section_key).mpr hk.sections, fun s hs => ?_⟩
  obtain ⟨t, ht, rfl⟩ := List.mem_map.mp hs
  exact (unique_map clean_key).mpr (hk.entries t ht)

theorem save_config (env : SaveEnv) (cfg : Config) (file : Option Bytes) :
    (rssConfigSave env cfg file).cfg = cfg ∨
      (rssConfigSave env cfg file).cfg = clearDirty cfg ∧ (rssConfigSave env cfg file).ret = 0 := by
  unfold rssConfigSave
  dsimp only
  split_ifs
  · exact Or.inl rfl
  · exact Or.inl rfl
  all_goals
    split
    next => exact Or.inr ⟨rfl, rfl⟩
    next => exact Or.inl rfl

end Settling

end RaptorCommon.ConfigSettings
