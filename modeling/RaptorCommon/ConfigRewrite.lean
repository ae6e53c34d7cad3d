import RaptorCommon.ConfigRoundTrip

/-!
# A whole config written over a file

A save that cannot read the file writes its config over it. The new text
answers as the config does with its sections arranged as their lines are read:
a global section counts to the section above it, and a full header takes the
first entry under it along. The rest of the old file is spared where the config
holds it.
-/

set_option autoImplicit false

namespace RaptorCommon.ConfigRewrite
open RaptorCommon.CText RaptorCommon.ConfigStore RaptorCommon.ConfigLoader
open RaptorCommon.ConfigWriter RaptorCommon.ConfigSave RaptorCommon.ConfigSettings
open RaptorCommon.ConfigGrammar RaptorCommon.ConfigInvariant RaptorCommon.ConfigMap
open RaptorCommon.ConfigPending RaptorCommon.ConfigFullWrite RaptorCommon.ConfigStored
open RaptorCommon.ConfigSaving RaptorCommon.ConfigRoundTrip RaptorCommon.IniSemantics

section Arranged

def trimmedField {size : ℕ} (f : Field size) : Field size :=
  rssStrlcpy size (CString.at (rssTrim f.chars))

def readEntry (e : ConfigEntry) : ConfigEntry :=
  { e with key := trimmedField e.key, value := trimmedField e.value }

/-- The sections oldest first, each named after the last header above it. -/
def arrange : Extent → Field maxSecn → List ConfigSection → List ConfigSection
  | _, _, [] => []
  | x, above, s::rest =>
    let name := if s.name.chars = [] then above else trimmedField s.name
    let entries := ((keptEntries x s).map readEntry).filter (fun e => e.key.chars ≠ [])
    { s with name := name, entries := entries.reverse }::arrange (sectionEnd x s) name rest

def arranged (cfg : Config) : Config :=
  (arrange startExtent (rssStrlcpy maxSecn (CString.at [])) (writtenSections cfg)).reverse

variable {cfg : Config} {x : Extent} {q : Place}

theorem trimmed_field {size : ℕ} (f : Field size) : (trimmedField f).chars = rssTrim f.chars := by
  have hz : 0 ∉ rssTrim f.chars := fun h => f.nul_free (trim_mem h)
  have hfit := (trim_length f.chars).trans f.fits
  show (CString.at (rssTrim f.chars)).chars.take (size-1) = _
  rw [at_nul_free hz, List.take_of_length_le hfit]

theorem entries_arranged (name : Field maxSecn) (es : List ConfigEntry) :
    valuesAt q (foldCase name.chars) (es.map entryItem) =
        (((((es.map readEntry).filter (fun e => e.key.chars ≠ [])).map
          (fun e => ((foldCase name.chars, entryKey e), e.value.chars))).filter
            (fun w => w.1 = q)).map Prod.snd) ∧
      ∀ cur, endSection cur (es.map entryItem) = cur := by
  induction es with
  | nil => exact ⟨rfl, fun _ => rfl⟩
  | cons e es ih =>
    obtain ⟨hvals, hend⟩ := ih
    have hkey : (readEntry e).key.chars = rssTrim e.key.chars := trimmed_field e.key
    have hvalue : (readEntry e).value.chars = rssTrim e.value.chars := trimmed_field e.value
    rw [List.map_cons, List.map_cons, entryItem, List.filter_cons, hkey]
    by_cases hne : rssTrim e.key.chars = []
    · rw [if_pos hne, if_neg (by simp [hne])]
      exact ⟨hvals, hend⟩
    · rw [if_neg hne, if_pos (by simp [hne])]
      refine ⟨?_, hend⟩
      rw [valuesAt, hvals, List.map_cons, List.filter_cons, entryKey, hkey, hvalue]
      by_cases hq : (foldCase name.chars, foldCase (rssTrim e.key.chars)) = q
      · rw [if_pos hq, if_pos (by simpa using hq), List.map_cons]
      · rw [if_neg hq, if_neg (by simpa using hq)]

theorem saved_arranged (s : ConfigSection) (name : Field maxSecn) :
    savedEntries { s with
        name := name
        entries := (((keptEntries x s).map readEntry).filter (fun e => e.key.chars ≠ [])).reverse } =
      ((keptEntries x s).map readEntry).filter (fun e => e.key.chars ≠ []) := by
  rw [savedEntries, List.filter_reverse, List.reverse_reverse, List.filter_eq_self]
  intro e he
  obtain ⟨e', he', rfl⟩ := List.mem_map.mp (List.mem_of_mem_filter he)
  have hlive := (mem_saved.mp (kept_saved he')).2
  exact decide_eq_true hlive

theorem sections_arranged (above : Field maxSecn) (ss : List ConfigSection) :
    valuesAt q (foldCase above.chars) (textItems x ss) =
      ((liveEntries (arrange x above ss)).filter (fun w => w.1 = q)).map Prod.snd := by
  induction ss generalizing x above with
  | nil => rfl
  | cons s ss ih =>
    rw [textItems, arrange, liveEntries, List.flatMap_cons, saved_arranged, List.filter_append,
      List.map_append, ← liveEntries, ← ih, values_append, sectionItems]
    by_cases hs : s.name.chars = []
    · have hfull : headerFull x s.name.chars = false := decide_eq_false fun hc => hc.1 hs
      have hkept : keptEntries x s = savedEntries s := by rw [keptEntries, hfull]; rfl
      obtain ⟨hvals, hend⟩ := entries_arranged (q := q) above (savedEntries s)
      rw [if_pos hs, if_pos hs, hvals, hend, hkept]
      rfl
    · obtain ⟨hvals, hend⟩ := entries_arranged (q := q) (trimmedField s.name) (keptEntries x s)
      rw [trimmed_field] at hvals
      have hhead : ∀ pre : List (Item Bytes Bytes Bytes), (pre = [] ∨ pre = [.inert]) →
          valuesAt q (foldCase above.chars) (pre ++ .header (foldCase (rssTrim s.name.chars))::
              (keptEntries x s).map entryItem) =
            valuesAt q (foldCase (rssTrim s.name.chars)) ((keptEntries x s).map entryItem) ∧
          endSection (foldCase above.chars) (pre ++ .header (foldCase (rssTrim s.name.chars))::
              (keptEntries x s).map entryItem) = foldCase (rssTrim s.name.chars) := by
        rintro pre (rfl | rfl) <;> exact ⟨rfl, hend _⟩
      obtain ⟨hfirst, hlast⟩ := hhead (if 0 < x.length then [.inert] else []) (by split <;> simp)
      rw [if_neg hs, if_neg hs, hfirst, hlast, hvals, ← trimmed_field s.name]
      rfl

/-- The text of a config answers as the config does once it is arranged. -/
theorem rewritten_answer (h : Storable cfg) (sec key : CString) :
    fileAnswer (configText cfg) sec key = configAnswer (arranged cfg) sec key := by
  have hlive : liveEntries (writtenSections (arranged cfg)) = liveEntries
      (arrange startExtent (rssStrlcpy maxSecn (CString.at [])) (writtenSections cfg)) := by
    rw [writtenSections, live_written, arranged, List.reverse_reverse]
  rw [written_answer h, config_answer, hlive, newest, ← List.getLast?_map, ← sections_arranged]
  rfl

theorem faithful_arranged (h : Storable cfg) (hf : Faithful cfg) (sec key : CString) :
    configAnswer (arranged cfg) sec key = configAnswer cfg sec key := by
  rw [← rewritten_answer h, faithful_answers h hf]

end Arranged

section Settling

/-- The rest of a file is in the config, and writing the whole of it keeps what
it owes. -/
structure HoldsRest (cfg : Config) (text : Bytes) : Prop where
  rest : ∀ sec key, owed cfg (place sec key) = none →
    configAnswer (arranged cfg) sec key = fileAnswer text sec key
  own : ∀ sec key, owed cfg (place sec key) ≠ none →
    configAnswer (arranged cfg) sec key = configAnswer cfg sec key

variable {cfg : Config} {A : Place → Bytes → Prop} {text : Bytes}

theorem owed_answer (hs : Sound cfg) (hp : Holds (Pending A) cfg) {sec key : CString}
    {o : Option Bytes} (h : owed cfg (place sec key) = some o) : configAnswer cfg sec key = o := by
  rw [configAnswer, (get_str_none hs sec key).1]
  generalize place sec key = q at h ⊢
  unfold settings
  unfold owed at h
  cases he : entryAt q cfg with
  | none =>
    rw [he] at h
    split at h
    · exact Option.some.inj h
    · cases h
  | some e =>
    rw [he] at h
    split at h
    next hf =>
      rw [← Option.some.inj h]
      exact hs.gone_dead q e (congrArg Prod.fst hf) he
    next =>
      cases hd : e.dirty <;> cases hr : e.removed <;> simp [owedEntry, hd, hr] at h
      · obtain ⟨hdef, -⟩ := hp q e he hd hr
        simp [liveEntry, liveField, hdef, hr, h]
      · simp [liveEntry, liveField, hr, h]

theorem rewritten_settled (hs : Sound cfg) (hp : Holds (Pending A) cfg) (ht : Storable cfg) :
    (∀ sec key, fileAnswer (configText cfg) sec key =
      (owed cfg (place sec key)).getD (fileAnswer text sec key)) ↔ HoldsRest cfg text := by
  constructor
  · intro hall
    refine ⟨fun sec key ho => ?_, fun sec key ho => ?_⟩
    · rw [← rewritten_answer ht, hall, ho]
      rfl
    · obtain ⟨o, ho⟩ := Option.ne_none_iff_exists'.mp ho
      rw [← rewritten_answer ht, hall, ho, owed_answer hs hp ho]
      rfl
  · intro h sec key
    rw [rewritten_answer ht]
    cases ho : owed cfg (place sec key) with
    | none => exact h.rest sec key ho
    | some o => rw [h.own sec key (by simp [ho]), owed_answer hs hp ho]; rfl

theorem good_well_formed {op : Op} (h : GoodOp op) : SetWellFormed op := by
  have hnames : ∀ {s k : CString}, GoodNames s k → SetNames s k := fun hn =>
    ⟨hn.sec.trimmed, hn.sec.no_newline, hn.sec.no_bracket, hn.key⟩
  cases op with
  | setStr sec key v => exact ⟨hnames h.1, h.2.value⟩
  | setInt sec key n => exact hnames h
  | setBool sec key b => exact hnames h
  | _ => trivial

def staleStart : Bytes := ascii "[a]\nk = 1\n"

def staleText : Bytes := ascii "[a]\nk = 1\n[b]\nm = 3\n"

def staleOps : List Op :=
  [.setStr (CString.at (ascii "a")) (CString.at (ascii "k")) (CString.at (ascii "2"))]

end Settling

end RaptorCommon.ConfigRewrite
