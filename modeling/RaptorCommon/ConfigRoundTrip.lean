import RaptorCommon.ConfigStored

/-!
# A whole configuration written and loaded again

The global section has no header, so its keys are read back as global only
from the top of the file, and a full header swallows the first key of its
section. Apart from these and from texts cut right behind white space, the
file answers every lookup as the config did.
-/

set_option autoImplicit false

namespace RaptorCommon.ConfigRoundTrip
open RaptorCommon.CText RaptorCommon.KeyedStore RaptorCommon.ConfigStore
open RaptorCommon.ConfigLoader RaptorCommon.ConfigWriter RaptorCommon.ConfigSave
open RaptorCommon.ConfigSettings RaptorCommon.ConfigGrammar RaptorCommon.ConfigInvariant
open RaptorCommon.ConfigMap RaptorCommon.ConfigFullWrite RaptorCommon.ConfigStored
open RaptorCommon.ConfigEditedText RaptorCommon.ConfigPlan RaptorCommon.ConfigSaving
open RaptorCommon.IniSemantics RaptorCommon.LineText RaptorCommon.ConfigEditor

section Lookups

def newest (q : Place) (ws : List (Place × Bytes)) : Option Bytes :=
  ((ws.filter (fun w => w.1 = q)).getLast?).map Prod.snd

theorem newest_append (q : Place) (a b : List (Place × Bytes)) :
    newest q (a++b) = (newest q b).or (newest q a) := by
  rw [newest, newest, newest, List.filter_append, List.getLast?_append, Option.map_or]

def entryAtPlace (s : ConfigSection) (e : ConfigEntry) : Place × Bytes :=
  ((sectionKey s, entryKey e), e.value.chars)

def liveEntries (ss : List ConfigSection) : List (Place × Bytes) :=
  ss.flatMap (fun s => (savedEntries s).map (entryAtPlace s))

theorem find_some_cons {α β : Type*} (f : α → Option β) (a : α) (l : List α) :
    (a::l).findSome? f = (f a).or (l.findSome? f) := by
  rw [List.findSome?_cons]
  cases f a <;> rfl

theorem newest_section (s : ConfigSection) (sec key : CString) :
    newest (place sec key) ((savedEntries s).map (entryAtPlace s)) =
      (if sameName s.name.chars sec.chars then liveValue key s.entries else none).map
        Field.chars := by
  have hsec : sameName s.name.chars sec.chars = true ↔ sectionKey s = foldCase sec.chars := by
    rw [sameName, decide_eq_true_eq, sectionKey]
  by_cases hs : sectionKey s = foldCase sec.chars
  · rw [if_pos (hsec.mpr hs), savedEntries]
    generalize s.entries = es
    induction es with
    | nil => rfl
    | cons e es ih =>
      have hlive : liveValue key (e::es) = (if sameName e.key.chars key.chars = true ∧
          e.defaulted = false ∧ e.removed = false then some e.value else none).or
          (liveValue key es) := by
        exact find_some_cons _ e es
      rw [hlive, Option.map_or, ← ih, List.filter_cons]
      by_cases hl : e.defaulted = false ∧ e.removed = false
      · rw [if_pos (by simpa using hl), List.reverse_cons, List.map_append, newest_append]
        congr 1
        by_cases hk : entryKey e = foldCase key.chars
        · have hk' : sameName e.key.chars key.chars = true := decide_eq_true hk
          rw [if_pos ⟨hk', hl⟩]
          simp [newest, entryAtPlace, place, hs, hk]
        · have hk' : sameName e.key.chars key.chars = false := decide_eq_false hk
          rw [if_neg (by simp [hk'])]
          simp [newest, entryAtPlace, place, hk]
      · rw [if_neg (by simpa using hl), if_neg (fun hc => hl hc.2)]
        rfl
  · rw [if_neg (fun h => hs (hsec.mp h)), newest, List.filter_eq_nil_iff.mpr]
    · rfl
    · intro w hw
      obtain ⟨e, -, rfl⟩ := List.mem_map.mp hw
      simp [entryAtPlace, place, hs]

theorem live_written (ss : List ConfigSection) :
    liveEntries (ss.filter (fun s => savedEntries s ≠ [])) = liveEntries ss := by
  induction ss with
  | nil => rfl
  | cons s ss ih =>
    by_cases hs : savedEntries s = [] <;> simp_all [liveEntries]

theorem lookup_newest (sec key : CString) (cfg : Config) :
    (lookupValue sec key cfg).map Field.chars =
      newest (place sec key) (liveEntries (writtenSections cfg)) := by
  rw [writtenSections, live_written]
  induction cfg with
  | nil => rfl
  | cons s cfg ih =>
    rw [List.reverse_cons, liveEntries, List.flatMap_append, newest_append,
      List.flatMap_singleton, newest_section, ← liveEntries, ← ih, lookupValue, find_some_cons,
      Option.map_or]
    rfl

def configAnswer (cfg : Config) (sec key : CString) : Option Bytes :=
  (rssConfigGetStr sec key none cfg).1.map CString.chars

theorem config_answer (cfg : Config) (sec key : CString) :
    configAnswer cfg sec key = newest (place sec key) (liveEntries (writtenSections cfg)) := by
  rw [← lookup_newest, configAnswer, rssConfigGetStr]
  cases lookupValue sec key cfg <;> rfl

end Lookups

section Reading

def entryKept (s : ConfigSection) (e : ConfigEntry) : Place × Bytes :=
  ((sectionKey s, entryKey e), rssTrim e.value.chars)

/-- The live entries that no full header swallows, as they are read back. -/
def readBack : Extent → List ConfigSection → List (Place × Bytes)
  | _, [] => []
  | x, s::rest => (keptEntries x s).map (entryKept s) ++ readBack (sectionEnd x s) rest

structure Legible (s : ConfigSection) : Prop where
  name : Trimmed s.name.chars
  keys : ∀ e ∈ savedEntries s, Trimmed e.key.chars ∧ e.key.chars ≠ []

variable {s : ConfigSection} {ss : List ConfigSection} {x : Extent} {q : Place}

theorem kept_saved {e : ConfigEntry} (h : e ∈ keptEntries x s) : e ∈ savedEntries s := by
  unfold keptEntries at h
  split at h
  · exact List.mem_of_mem_tail h
  · exact h

theorem entries_values {es : List ConfigEntry}
    (h : ∀ e ∈ es, Trimmed e.key.chars ∧ e.key.chars ≠ []) :
    valuesAt q (sectionKey s) (es.map entryItem) =
        ((es.map (entryKept s)).filter (fun w => w.1 = q)).map Prod.snd ∧
      ∀ cur, endSection cur (es.map entryItem) = cur := by
  induction es with
  | nil => exact ⟨rfl, fun _ => rfl⟩
  | cons e es ih =>
    obtain ⟨ht, hne⟩ := h e (by simp)
    obtain ⟨hvals, hend⟩ := ih fun y hy => h y (by simp [hy])
    have hitem : entryItem e = .binding (entryKey e) (rssTrim e.value.chars) := by
      rw [entryItem, ht, if_neg hne]
      rfl
    rw [List.map_cons, List.map_cons, hitem]
    refine ⟨?_, fun cur => hend cur⟩
    rw [valuesAt, hvals, List.filter_cons]
    by_cases hq : (sectionKey s, entryKey e) = q
    · have hk : decide ((entryKept s e).1 = q) = true := decide_eq_true hq
      rw [if_pos hq, hk, if_pos rfl, List.map_cons]
      rfl
    · have hk : decide ((entryKept s e).1 = q) = false := decide_eq_false hq
      rw [if_neg hq, hk]
      rfl

theorem named_values (h : Legible s) (hn : s.name.chars ≠ []) (cur : Bytes) :
    valuesAt q cur (sectionItems x s) =
      (((keptEntries x s).map (entryKept s)).filter (fun w => w.1 = q)).map Prod.snd := by
  have hkeys : ∀ e ∈ keptEntries x s, Trimmed e.key.chars ∧ e.key.chars ≠ [] :=
    fun e he => h.keys e (kept_saved he)
  rw [sectionItems, if_neg hn, h.name, ← (entries_values hkeys).1]
  split <;> rfl

theorem sections_values (h : ∀ s ∈ ss, Legible s) (hn : ∀ s ∈ ss, s.name.chars ≠ [])
    (cur : Bytes) : valuesAt q cur (textItems x ss) =
      ((readBack x ss).filter (fun w => w.1 = q)).map Prod.snd := by
  induction ss generalizing x cur with
  | nil => rfl
  | cons s ss ih =>
    rw [textItems, values_append, named_values (h s (by simp)) (hn s (by simp)),
      ih (fun t ht => h t (by simp [ht])) (fun t ht => hn t (by simp [ht])), readBack,
      List.filter_append, List.map_append]

/-- Where only the first section may be global, the text is read back. -/
theorem text_values (h : ∀ s ∈ ss, Legible s) (hn : ∀ s ∈ ss.tail, s.name.chars ≠ []) :
    valuesAt q [] (textItems x ss) =
      ((readBack x ss).filter (fun w => w.1 = q)).map Prod.snd := by
  cases ss with
  | nil => rfl
  | cons s ss =>
    by_cases hs : s.name.chars = []
    · have hfull : headerFull x s.name.chars = false := decide_eq_false fun hc => hc.1 hs
      have hkept : keptEntries x s = savedEntries s := by rw [keptEntries, hfull]; rfl
      have hkey : sectionKey s = [] := by rw [sectionKey, hs]; rfl
      obtain ⟨hvals, hend⟩ := entries_values (q := q) (s := s) (h s (by simp)).keys
      rw [hkey] at hvals
      rw [textItems, sectionItems, if_pos hs, values_append, hvals, hend, readBack, hkept,
        sections_values (fun t (ht : t ∈ ss) => h t (List.mem_cons_of_mem s ht)) hn,
        List.filter_append, List.map_append]
    · refine sections_values h (fun t ht => ?_) []
      rcases List.mem_cons.mp ht with rfl | ht
      · exact hs
      · exact hn t ht

end Reading

section RoundTrip

/-- When a config is read back as it was: its names end without white space
and its keys have names; the global section, if it has live keys, is the first
of the sections that have some; and for no place does the newest value end in
white space or get lost to a full header. -/
structure Faithful (cfg : Config) : Prop where
  legible : ∀ s ∈ writtenSections cfg, Legible s
  global_first : ∀ s ∈ (writtenSections cfg).tail, s.name.chars ≠ []
  survives : ∀ w ∈ liveEntries (writtenSections cfg),
    newest w.1 (readBack startExtent (writtenSections cfg)) =
      newest w.1 (liveEntries (writtenSections cfg))

variable {cfg : Config}

theorem newest_none {q : Place} {ws : List (Place × Bytes)} (h : ∀ w ∈ ws, w.1 ≠ q) :
    newest q ws = none := by
  rw [newest, List.filter_eq_nil_iff.mpr fun w hw => by simpa using h w hw]
  rfl

theorem read_back_live {x : Extent} {ss : List ConfigSection} {w : Place × Bytes}
    (h : w ∈ readBack x ss) : ∃ v ∈ liveEntries ss, v.1 = w.1 := by
  induction ss generalizing x with
  | nil => simp [readBack] at h
  | cons s ss ih =>
    rw [readBack] at h
    rw [liveEntries, List.flatMap_cons]
    rcases List.mem_append.mp h with h | h
    · obtain ⟨e, he, rfl⟩ := List.mem_map.mp h
      exact ⟨entryAtPlace s e, List.mem_append_left _ (List.mem_map_of_mem (kept_saved he)), rfl⟩
    · obtain ⟨v, hv, hq⟩ := ih h
      exact ⟨v, List.mem_append_right _ hv, hq⟩

theorem written_stored (h : Storable cfg) : ∀ s ∈ writtenSections cfg, StoredSection s := by
  intro s hs
  obtain ⟨hmem, hne⟩ := List.mem_filter.mp hs
  have hs' : s ∈ cfg := List.mem_reverse.mp hmem
  obtain ⟨e, he⟩ := List.exists_mem_of_ne_nil _ (of_decide_eq_true hne)
  exact ⟨(h s hs' e he).1, fun x hx => (h s hs' x hx).2⟩

/-- What the file answers: the last value that its text binds to the place. -/
theorem written_answer (h : Storable cfg) (sec key : CString) :
    fileAnswer (configText cfg) sec key =
      (valuesAt (place sec key) [] (textItems startExtent (writtenSections cfg))).getLast? := by
  obtain ⟨hf, hitems⟩ := config_text_items (written_stored h)
  rw [file_answer hf, loaded_map_values, hitems]

theorem faithful_answers (h : Storable cfg) (hf : Faithful cfg) (sec key : CString) :
    fileAnswer (configText cfg) sec key = configAnswer cfg sec key := by
  rw [written_answer h, text_values hf.legible hf.global_first, config_answer, List.getLast?_map]
  change newest (place sec key) (readBack startExtent (writtenSections cfg)) = _
  by_cases hlive : ∃ w ∈ liveEntries (writtenSections cfg), w.1 = place sec key
  · obtain ⟨w, hw, hq⟩ := hlive
    rw [← hq]
    exact hf.survives w hw
  · rw [newest_none fun w hw hq => hlive ⟨w, hw, hq⟩, newest_none fun w hw hq => hlive ?_]
    obtain ⟨v, hv, hvw⟩ := read_back_live hw
    exact ⟨v, hv, hvw.trans hq⟩

theorem values_source {q : Place} {cur : Bytes} {items : List (Item Bytes Bytes Bytes)}
    (h : valuesAt q cur items ≠ []) :
    (∃ v, Item.binding q.2 v ∈ items) ∧ (q.1 = cur ∨ Item.header q.1 ∈ items) := by
  induction items generalizing cur with
  | nil => exact absurd rfl h
  | cons y items ih =>
    cases y with
    | inert =>
      obtain ⟨⟨v, hv⟩, hs⟩ := ih h
      exact ⟨⟨v, by simp [hv]⟩, hs.imp_right fun hm => by simp [hm]⟩
    | header s =>
      obtain ⟨⟨v, hv⟩, hs⟩ := ih h
      refine ⟨⟨v, by simp [hv]⟩, Or.inr ?_⟩
      rcases hs with rfl | hm
      · simp
      · simp [hm]
    | binding k v =>
      by_cases hq : (cur, k) = q
      · subst hq
        exact ⟨⟨v, by simp⟩, Or.inl rfl⟩
      · rw [valuesAt, if_neg hq] at h
        obtain ⟨⟨u, hu⟩, hs⟩ := ih h
        exact ⟨⟨u, by simp [hu]⟩, hs.imp_right fun hm => by simp [hm]⟩

theorem text_item {x : Extent} {ss : List ConfigSection} {y : Item Bytes Bytes Bytes}
    (h : y ∈ textItems x ss) : y = .inert ∨
      (∃ s ∈ ss, s.name.chars ≠ [] ∧ y = .header (foldCase (rssTrim s.name.chars))) ∨
      ∃ s ∈ ss, ∃ e ∈ savedEntries s, y = entryItem e := by
  induction ss generalizing x with
  | nil => simp [textItems] at h
  | cons s ss ih =>
    rw [textItems] at h
    rcases List.mem_append.mp h with h | h
    · unfold sectionItems at h
      split at h
      · obtain ⟨e, he, rfl⟩ := List.mem_map.mp h
        exact Or.inr (Or.inr ⟨s, by simp, e, he, rfl⟩)
      next hn =>
        rcases List.mem_append.mp h with h | h
        · split at h
          · exact Or.inl (List.mem_singleton.mp h)
          · simp at h
        · rcases List.mem_cons.mp h with rfl | h
          · exact Or.inr (Or.inl ⟨s, by simp, hn, rfl⟩)
          · obtain ⟨e, he, rfl⟩ := List.mem_map.mp h
            exact Or.inr (Or.inr ⟨s, by simp, e, kept_saved he, rfl⟩)
    · rcases ih h with h | ⟨t, ht, h⟩ | ⟨t, ht, h⟩
      · exact Or.inl h
      · exact Or.inr (Or.inl ⟨t, by simp [ht], h⟩)
      · exact Or.inr (Or.inr ⟨t, by simp [ht], h⟩)

theorem text_binding {x : Extent} {ss : List ConfigSection} {k v : Bytes}
    (h : Item.binding k v ∈ textItems x ss) : Trimmed k ∧ k ≠ [] := by
  rcases text_item h with h | ⟨s, -, -, h⟩ | ⟨s, -, e, -, h⟩
  · cases h
  · cases h
  · unfold entryItem at h
    split at h
    · cases h
    next hne =>
      obtain ⟨rfl, -⟩ := Item.binding.inj h
      exact ⟨(trimmed_foldCase _).mpr (trimmed_trim _), fun h0 => hne (List.map_eq_nil_iff.mp h0)⟩

theorem text_header {x : Extent} {ss : List ConfigSection} {k : Bytes}
    (h : Item.header k ∈ textItems x ss) :
    ∃ s ∈ ss, s.name.chars ≠ [] ∧ k = foldCase (rssTrim s.name.chars) := by
  rcases text_item h with h | ⟨s, hs, hn, h⟩ | ⟨s, -, e, -, h⟩
  · cases h
  · exact ⟨s, hs, hn, Item.header.inj h⟩
  · unfold entryItem at h
    split at h <;> cases h

theorem answers_source (h : Storable cfg)
    (hall : ∀ sec key, fileAnswer (configText cfg) sec key = configAnswer cfg sec key)
    {s : ConfigSection} (hs : s ∈ writtenSections cfg) {e : ConfigEntry}
    (he : e ∈ savedEntries s) :
    valuesAt (sectionKey s, entryKey e) [] (textItems startExtent (writtenSections cfg)) ≠ [] := by
  intro h0
  have ha := hall s.name.str e.key.str
  rw [written_answer h, config_answer] at ha
  have hq : place s.name.str e.key.str = (sectionKey s, entryKey e) := rfl
  rw [hq, h0, List.getLast?_nil] at ha
  have hmem : entryAtPlace s e ∈ liveEntries (writtenSections cfg) :=
    List.mem_flatMap.mpr ⟨s, hs, List.mem_map_of_mem he⟩
  have hf : entryAtPlace s e ∈ (liveEntries (writtenSections cfg)).filter
      (fun w => w.1 = (sectionKey s, entryKey e)) :=
    List.mem_filter.mpr ⟨hmem, decide_eq_true rfl⟩
  have hlast := List.getLast?_eq_none_iff.mp (Option.map_eq_none_iff.mp ha.symm)
  rw [hlast] at hf
  cases hf

theorem answers_legible (h : Storable cfg)
    (hall : ∀ sec key, fileAnswer (configText cfg) sec key = configAnswer cfg sec key) :
    ∀ s ∈ writtenSections cfg, Legible s := by
  intro s hs
  have hsource := fun (e : ConfigEntry) (he : e ∈ savedEntries s) =>
    values_source (answers_source h hall hs he)
  have hne : savedEntries s ≠ [] := of_decide_eq_true (List.mem_filter.mp hs).2
  obtain ⟨e, he⟩ := List.exists_mem_of_ne_nil _ hne
  constructor
  · rcases (hsource e he).2 with h0 | hm
    · have hnil : s.name.chars = [] := List.map_eq_nil_iff.mp h0
      rw [hnil]
      rfl
    · obtain ⟨t, -, -, hk⟩ := text_header hm
      have ht : Trimmed (sectionKey s) := by
        rw [show sectionKey s = _ from hk]
        exact (trimmed_foldCase _).mpr (trimmed_trim _)
      exact (trimmed_foldCase _).mp ht
  · intro e he
    obtain ⟨v, hv⟩ := (hsource e he).1
    obtain ⟨ht, hk⟩ := text_binding hv
    exact ⟨(trimmed_foldCase _).mp ht, fun h0 => hk (by rw [entryKey, h0]; rfl)⟩

theorem answers_global (h : Tidy cfg)
    (hall : ∀ sec key, fileAnswer (configText cfg) sec key = configAnswer cfg sec key) :
    ∀ s ∈ (writtenSections cfg).tail, s.name.chars ≠ [] := by
  intro s hs hname
  have hleg := answers_legible h.storable hall
  cases hw : writtenSections cfg with
  | nil => rw [hw] at hs; cases hs
  | cons t ss =>
    rw [hw, List.tail_cons] at hs
    have hmem : s ∈ writtenSections cfg := by rw [hw]; exact List.mem_cons_of_mem t hs
    -- the first section is not the global one
    have hfirst : t.name.chars ≠ [] := by
      intro h0
      have hsub : ((t::ss).map (fun s => s.name.chars)).Sublist
          (cfg.reverse.map (fun s => s.name.chars)) := by
        rw [← hw]
        exact List.filter_sublist.map _
      have htwo : 2 ≤ ((t::ss).map (fun s => s.name.chars)).count [] := by
        have hin : ([] : Bytes) ∈ ss.map (fun s => s.name.chars) :=
          List.mem_map.mpr ⟨s, hs, hname⟩
        have := List.count_pos_iff.mpr hin
        rw [List.map_cons, h0, List.count_cons_self]
        omega
      have hle := hsub.count_le ([] : Bytes)
      have hone := h.one_global
      rw [globals] at hone
      rw [List.map_reverse, List.count_reverse] at hle
      omega
    have hne : savedEntries s ≠ [] := of_decide_eq_true (List.mem_filter.mp hmem).2
    obtain ⟨e, he⟩ := List.exists_mem_of_ne_nil _ hne
    have hval := answers_source h.storable hall hmem he
    have hkey : sectionKey s = [] := by rw [sectionKey, hname]; rfl
    rw [hkey, hw, textItems, sectionItems, if_neg hfirst, (hleg t (by simp [hw])).name] at hval
    have hhead : ∀ k ∈ (t::ss), k.name.chars ≠ [] → foldCase (rssTrim k.name.chars) ≠ [] := by
      intro k hk hkn h0
      rw [(hleg k (by rw [hw]; exact hk)).name] at h0
      exact hkn (List.map_eq_nil_iff.mp h0)
    have hval : valuesAt (([] : Bytes), entryKey e) (foldCase t.name.chars)
        ((keptEntries startExtent t).map entryItem ++ textItems (sectionEnd startExtent t) ss) ≠ [] :=
      hval
    rcases (values_source hval).2 with h0 | hm
    · exact hfirst (List.map_eq_nil_iff.mp h0.symm)
    · rcases List.mem_append.mp hm with hm | hm
      · obtain ⟨y, -, hy⟩ := List.mem_map.mp hm
        unfold entryItem at hy
        split at hy <;> cases hy
      · obtain ⟨k, hk, hkn, h0⟩ := text_header hm
        exact hhead k (List.mem_cons_of_mem t hk) hkn h0.symm

theorem answers_faithful (h : Tidy cfg)
    (hall : ∀ sec key, fileAnswer (configText cfg) sec key = configAnswer cfg sec key) :
    Faithful cfg := by
  have hleg := answers_legible h.storable hall
  have hglob := answers_global h hall
  refine ⟨hleg, hglob, fun w hw => ?_⟩
  obtain ⟨s, hs, hw⟩ := List.mem_flatMap.mp hw
  obtain ⟨e, he, rfl⟩ := List.mem_map.mp hw
  have ha := hall s.name.str e.key.str
  rw [written_answer h.storable, text_values hleg hglob, config_answer, List.getLast?_map] at ha
  exact ha

/-- Saved where no file exists, a reachable config is read back exactly when it
is faithful. -/
theorem full_write_round_trip (longMax : ℕ) (text : Bytes) (ops : List Op) (env : SaveEnv)
    (hz : 0 ∉ text) (hg : ∀ op ∈ ops, SetWellFormed op) :
    let cfg := run longMax (rssConfigLoad text) ops
    let saved := rssConfigSave env cfg none
    saved.ret = 0 → ∃ text', saved.file = some text' ∧
      ((∀ sec key, fileAnswer text' sec key = configAnswer cfg sec key) ↔ Faithful cfg) := by
  intro cfg saved hret
  have ht : Tidy cfg := tidy_run (tidy_load hz) hg
  refine ⟨configText cfg, ?_, answers_faithful ht, faithful_answers ht.storable⟩
  have hnone : ¬(collectDirty cfg = [] ∧ env.accessOk = true ∧
      (none : Option Bytes).isSome = true) := fun h => by cases h.2.2
  have hread : (if env.readOk = true then (none : Option Bytes) else none) = none := by
    split <;> rfl
  simp only [saved, rssConfigSave, if_neg hnone, hread, configWrite] at hret ⊢
  split at hret
  next => cases hret
  next hrefs =>
    rw [if_neg hrefs]
    by_cases hw : (cfg = [] ∨ env.buildOk = true) ∧ env.writeOk = true
    · rw [if_pos hw]
    · rw [if_neg hw] at hret
      cases hret

/-- A key set in a new section and one unset. -/
theorem full_write_round_trip_run :
    let cfg := run 2147483647 (rssConfigLoad (ascii "g = 0\n[a]\nk = 1\n"))
      [.setStr (literal "b") (literal "m") (literal "2"), .unset (literal "a") (literal "k")]
    let saved := rssConfigSave ⟨true, true, true, true, true⟩ cfg none
    ∃ text', saved.file = some text' ∧
      ((∀ sec key, fileAnswer text' sec key = configAnswer cfg sec key) ↔ Faithful cfg) := by
  refine full_write_round_trip 2147483647 _ _ _ (by decide) ?_ (by decide +kernel)
  have hset : ∀ sec key v : CString, SetNames sec key → PlainValue v.chars →
      SetWellFormed (.setStr sec key v) := fun _ _ _ h1 h2 => ⟨h1, h2⟩
  intro op ho
  simp only [List.mem_cons, List.not_mem_nil, or_false] at ho
  rcases ho with rfl | rfl
  · exact hset _ _ _ ⟨by decide, by decide, by decide, ⟨by decide, by decide, by decide, by decide⟩⟩
      (plain_of_solid (by decide))
  · trivial

/-- A global key below a named section is written into that section. -/
theorem global_key_moves :
    let cfg := rssConfigLoad (ascii "[a]\nk = 1\n[]\ng = 2\n")
    let saved := rssConfigSave ⟨true, true, true, true, true⟩ cfg none
    saved.ret = 0 ∧ ∃ text', saved.file = some text' ∧
      configAnswer cfg (literal "") (literal "g") = some (ascii "2") ∧
      fileAnswer text' (literal "") (literal "g") = none ∧
      fileAnswer text' (literal "a") (literal "g") = some (ascii "2") :=
  ⟨by decide +kernel, ascii "[a]\nk = 1\ng = 2\n", by decide +kernel, by decide +kernel,
    by decide +kernel, by decide +kernel⟩

end RoundTrip

end RaptorCommon.ConfigRoundTrip
