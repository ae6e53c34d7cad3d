import RaptorCommon.ConfigEditedText
import RaptorCommon.ConfigInvariant

/-!
# What a config owes its file

The pending changes are read off the places of a config: a set key owes its
value, an unset key its absence, a removed section the absence of all its
keys. In every reachable config they fit together, so a save turns them into
the settings of the file.
-/

set_option autoImplicit false

namespace RaptorCommon.ConfigPending
open RaptorCommon.CText RaptorCommon.KeyedStore RaptorCommon.ConfigStore
open RaptorCommon.ConfigLoader RaptorCommon.ConfigSave RaptorCommon.ConfigEditor
open RaptorCommon.ConfigSettings RaptorCommon.ConfigGrammar RaptorCommon.ConfigInvariant
open RaptorCommon.ConfigMap RaptorCommon.ConfigLineView RaptorCommon.ConfigBinding
open RaptorCommon.ConfigPlan RaptorCommon.ConfigRevision RaptorCommon.ConfigEditedText

section Spelling

theorem section_name_fold {s : Bytes} : SectionName (foldCase s) ↔ SectionName s := by
  have hb := mem_foldCase_mark rbracket (by decide) s
  have hn := mem_foldCase_mark newline (by decide) s
  constructor
  · intro h
    exact ⟨fun h0 => h.nonempty (by rw [h0]; rfl), (trimmed_foldCase s).mp h.trimmed,
      fun hm => h.no_bracket (hb.mpr hm), fun hm => h.no_newline (hn.mpr hm)⟩
  · intro h
    exact ⟨fun h0 => h.nonempty (List.map_eq_nil_iff.mp h0), (trimmed_foldCase s).mpr h.trimmed,
      fun hm => h.no_bracket (hb.mp hm), fun hm => h.no_newline (hn.mp hm)⟩

theorem key_start_fold {k : Bytes} : KeyStart (foldCase k) ↔ KeyStart k := by
  have h1 := toLower_mark hashMark (by decide)
  have h2 := toLower_mark semicolon (by decide)
  have h3 := toLower_mark lbracket (by decide)
  cases k with
  | nil => exact Iff.rfl
  | cons c k => simp [KeyStart, foldCase, h1, h2, h3]

theorem key_text_fold {k : Bytes} : KeyText (foldCase k) ↔ KeyText k := by
  have he := mem_foldCase_mark equals (by decide) k
  have hn := mem_foldCase_mark newline (by decide) k
  constructor
  · intro h
    exact ⟨(trimmed_foldCase k).mp h.trimmed, fun hm => h.no_equals (he.mpr hm),
      fun hm => h.no_newline (hn.mpr hm), key_start_fold.mp h.start⟩
  · intro h
    exact ⟨(trimmed_foldCase k).mpr h.trimmed, fun hm => h.no_equals (he.mp hm),
      fun hm => h.no_newline (hn.mp hm), key_start_fold.mpr h.start⟩

end Spelling

section Changes

variable {cfg : Config}

theorem mem_dirty (d : DirtyRef) : d ∈ collectDirty cfg ↔ ∃ s ∈ cfg,
    (s.removed = true ∧ s.dirty = true ∧ d = newRef s.name none) ∨
      ∃ e ∈ s.entries, e.dirty = true ∧ d = newRef s.name (some e) := by
  rw [collectDirty, List.mem_reverse, List.mem_flatMap]
  constructor
  · rintro ⟨s, hs, hd⟩
    refine ⟨s, hs, ?_⟩
    rcases List.mem_append.mp hd with hd | hd
    · split at hd
      next hc => exact Or.inl ⟨(Bool.and_eq_true .. ▸ hc).1, (Bool.and_eq_true .. ▸ hc).2,
          List.mem_singleton.mp hd⟩
      next => simp at hd
    · obtain ⟨e, he, rfl⟩ := List.mem_map.mp hd
      obtain ⟨he, hdirty⟩ := List.mem_filter.mp he
      exact Or.inr ⟨e, he, hdirty, rfl⟩
  · rintro ⟨s, hs, ⟨h1, h2, rfl⟩ | ⟨e, he, h1, rfl⟩⟩
    · exact ⟨s, hs, by simp [sectionRefs, h1, h2]⟩
    · refine ⟨s, hs, List.mem_append_right _ (List.mem_map.mpr ⟨e, ?_, rfl⟩)⟩
      exact List.mem_filter.mpr ⟨he, h1⟩

theorem dirty_entry (hk : Keyed cfg) (q : Place) (e : ConfigEntry) :
    (∃ d ∈ collectDirty cfg, d.ent = some e ∧ (foldCase d.sec.chars, entryKey e) = q) ↔
      entryAt q cfg = some e ∧ e.dirty = true := by
  rw [entry_at_iff hk]
  constructor
  · rintro ⟨d, hd, he, rfl⟩
    obtain ⟨s, hs, ⟨-, -, rfl⟩ | ⟨x, hx, hdirty, rfl⟩⟩ := (mem_dirty d).mp hd
    · cases he
    · obtain rfl : x = e := Option.some.inj he
      exact ⟨⟨s, hs, rfl, hx, rfl⟩, hdirty⟩
  · rintro ⟨⟨s, hs, h1, he, h2⟩, hdirty⟩
    refine ⟨newRef s.name (some e), (mem_dirty _).mpr ⟨s, hs, Or.inr ⟨e, he, hdirty, rfl⟩⟩, rfl, ?_⟩
    exact Prod.ext h1 h2

theorem dirty_gone (hk : Keyed cfg) (q : Place) :
    goneIn (collectDirty cfg) q = true ↔
      ∃ e, entryAt q cfg = some e ∧ e.dirty = true ∧ e.removed = true := by
  rw [goneIn, List.any_eq_true]
  constructor
  · rintro ⟨d, hd, hp⟩
    rw [Bool.and_eq_true, inSection, decide_eq_true_eq] at hp
    cases he : d.ent with
    | none => rw [he] at hp; cases hp.2
    | some e =>
      rw [he, Option.any_some, Bool.and_eq_true, decide_eq_true_eq] at hp
      have := (dirty_entry hk q e).mp ⟨d, hd, he, Prod.ext hp.1 hp.2.2⟩
      exact ⟨e, this.1, this.2, hp.2.1⟩
  · rintro ⟨e, he, hdirty, hrem⟩
    obtain ⟨d, hd, hde, rfl⟩ := (dirty_entry hk q e).mpr ⟨he, hdirty⟩
    exact ⟨d, hd, by simp [inSection, hde, hrem]⟩

theorem dirty_leaving (hk : Keyed cfg) (s : Bytes) :
    leavingIn (collectDirty cfg) s = true ↔ flagsAt s cfg = (true, true) := by
  have hflags : flagsAt s cfg = (true, true) ↔
      ∃ x ∈ cfg, sectionKey x = s ∧ x.removed = true ∧ x.dirty = true := by
    rw [flagsAt]
    constructor
    · intro h
      cases hx : sectionAt s cfg with
      | none => rw [hx] at h; cases h
      | some x =>
        rw [hx] at h
        have h : (x.removed, x.dirty) = (true, true) := h
        exact ⟨x, fetch_mem hx, fetch_key hx, congrArg Prod.fst h, congrArg Prod.snd h⟩
    · rintro ⟨x, hx, rfl, h1, h2⟩
      rw [sectionAt, fetch_of_mem hk.sections hx, Option.map_some, Option.getD_some,
        sectionFlags, h1, h2]
  rw [hflags, leavingIn, List.any_eq_true]
  constructor
  · rintro ⟨d, hd, hp⟩
    rw [Bool.and_eq_true, Option.isNone_iff_eq_none, inSection, decide_eq_true_eq] at hp
    obtain ⟨x, hx, ⟨h1, h2, rfl⟩ | ⟨e, he, h1, rfl⟩⟩ := (mem_dirty d).mp hd
    · exact ⟨x, hx, hp.2, h1, h2⟩
    · cases hp.1
  · rintro ⟨x, hx, rfl, h1, h2⟩
    exact ⟨newRef x.name none, (mem_dirty _).mpr ⟨x, hx, Or.inl ⟨h1, h2, rfl⟩⟩,
      by simp [newRef, inSection, sectionKey]⟩

theorem top_stays (hs : Sound cfg) : leavingIn (collectDirty cfg) [] = false := by
  by_contra hl
  have hflags := (dirty_leaving hs.toKeyed []).mp (by simpa using hl)
  have hg := hs.global_stays
  rw [hflags] at hg
  cases hg

theorem dirty_new (d : DirtyRef) (hd : d ∈ collectDirty cfg) : d = newRef d.sec d.ent := by
  obtain ⟨s, -, ⟨-, -, rfl⟩ | ⟨e, -, -, rfl⟩⟩ := (mem_dirty d).mp hd <;> rfl

theorem section_names (s : ConfigSection) (hs : Unique entryKey s.entries) :
    ((sectionRefs s).map refName).Nodup := by
  have hmap : ((s.entries.filter (fun e => e.dirty)).map
      (fun e => newRef s.name (some e))).map refName =
      ((s.entries.filter (fun e => e.dirty)).map entryKey).map
        (fun k => (sectionKey s, some k)) := by
    rw [List.map_map, List.map_map]
    rfl
  have hkeys : (((s.entries.filter (fun e => e.dirty)).map entryKey).map
      (fun k => (sectionKey s, some k))).Nodup :=
    ((List.filter_sublist.map entryKey).nodup hs).map fun a b h =>
      Option.some.inj (congrArg Prod.snd h)
  rw [sectionRefs, List.map_append, hmap]
  split
  · refine List.nodup_cons.mpr ⟨fun hm => ?_, hkeys⟩
    obtain ⟨k, -, hk⟩ := List.mem_map.mp hm
    exact absurd (congrArg Prod.snd hk) (by simp [refName, newRef])
  · exact hkeys

theorem section_ref_name {s : ConfigSection} {d : DirtyRef} (hd : d ∈ sectionRefs s) :
    (refName d).1 = sectionKey s := by
  rcases List.mem_append.mp hd with hd | hd
  · split at hd
    · rw [List.mem_singleton.mp hd]
      rfl
    · simp at hd
  · obtain ⟨e, -, rfl⟩ := List.mem_map.mp hd
    rfl

theorem dirty_distinct (hk : Keyed cfg) : ((collectDirty cfg).map refName).Nodup := by
  rw [collectDirty, List.map_reverse, List.nodup_reverse, List.map_flatMap]
  obtain ⟨hs, he⟩ := hk
  induction cfg with
  | nil => exact List.nodup_nil
  | cons s cfg ih =>
    obtain ⟨hn, hs⟩ := List.nodup_cons.mp hs
    rw [List.flatMap_cons]
    refine (section_names s (he s (by simp))).append (ih hs fun x hx => he x (by simp [hx])) ?_
    intro name h1 h2
    obtain ⟨d, hd, rfl⟩ := List.mem_map.mp h1
    obtain ⟨x, hx, h2⟩ := List.mem_flatMap.mp h2
    obtain ⟨r, hr, hrd⟩ := List.mem_map.mp h2
    refine hn ?_
    rw [← section_ref_name hd, ← hrd, section_ref_name hr]
    exact List.mem_map_of_mem hx

end Changes

section Orders

/-- A set key that has not reached the file is live and meets a condition on
its place and value. -/
def Pending (A : Place → Bytes → Prop) (q : Place) (e : ConfigEntry) : Prop :=
  e.dirty = true → e.removed = false → e.defaulted = false ∧ A q e.value.chars

theorem pending_kept_of {A : Place → Bytes → Prop} {W : CString → CString → CString → Prop}
    (hA : ∀ sec key v, sec.chars ≠ [] → W sec key v → A (place sec key) (v.chars.take (maxVal-1))) :
    Kept (Pending A) W where
  shown sec key d old hdead h hd hr := by
    cases old with
    | none => cases hd
    | some e =>
      have hd' : e.dirty = true := by simpa [stored, overwriteEntry] using hd
      obtain ⟨hdef, -⟩ := h e rfl hd' hr
      have hrem : e.removed = false := hr
      simp [liveEntry, liveField, hdef, hrem] at hdead
  written sec key v old hne hw _ _ _ := by
    cases old <;> exact ⟨rfl, hA sec key v hne hw⟩
  removed q e h hd hr := by
    unfold removeEntry at hd hr ⊢
    split at hr
    next hc =>
      rw [if_pos hc] at hd ⊢
      exact h hd hr
    next => cases hr
  settled q e _ hd _ := by cases hd

theorem pending_kept (A : Place → Bytes → Prop) :
    Kept (Pending A) (fun sec key v => A (place sec key) (v.chars.take (maxVal-1))) :=
  pending_kept_of fun _ _ _ _ h => h

structure Enterable (q : Place) (v : Bytes) : Prop where
  sec : SectionName q.1
  key : KeyText q.2
  value : Contained v

variable {cfg : Config} {A : Place → Bytes → Prop}

/-- The changes of a reachable config fit together. -/
theorem dirty_orderly (hs : Sound cfg) (hp : Holds (Pending A) cfg)
    (hA : ∀ q v, A q v → Enterable q v) : Orderly (collectDirty cfg) := by
  have hk := hs.toKeyed
  have hentry : ∀ d ∈ collectDirty cfg, ∀ e ∈ d.ent,
      entryAt (foldCase d.sec.chars, entryKey e) cfg = some e ∧ e.dirty = true :=
    fun d hd e he => (dirty_entry hk _ e).mp ⟨d, hd, he, rfl⟩
  have hline : ∀ d ∈ collectDirty cfg, ∀ e ∈ d.ent, e.removed = false →
      Enterable (foldCase d.sec.chars, entryKey e) e.value.chars := by
    intro d hd e he hr
    obtain ⟨hat, hdirty⟩ := hentry d hd e he
    exact hA _ _ (hp _ e hat hdirty hr).2
  refine ⟨dirty_distinct hk, fun d hd he h0 => ?_, fun d hd e he hl => ?_,
    fun d hd e he hr => ?_, fun d hd e he hr => ?_, fun d hd e he hr => ?_⟩
  · have hleave := leaving_of_header hd he
    have h0 : foldCase d.sec.chars = [] := by rw [h0]; rfl
    rw [h0, top_stays hs] at hleave
    cases hleave
  · obtain ⟨hat, hdirty⟩ := hentry d hd e he
    have hflags := (dirty_leaving hk _).mp hl
    have hdead := hs.gone_dead _ e (by rw [hflags]) hat
    by_contra hrem
    obtain ⟨hdef, -⟩ := hp _ e hat hdirty (by simpa using hrem)
    have hrem : e.removed = false := by simpa using hrem
    simp [liveEntry, liveField, hdef, hrem] at hdead
  · exact section_name_fold.mp (hline d hd e he hr).sec
  · exact key_text_fold.mp (hline d hd e he hr).key
  · exact (hline d hd e he hr).value

end Orders

end RaptorCommon.ConfigPending
