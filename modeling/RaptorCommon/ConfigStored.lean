import RaptorCommon.ConfigFullWrite
import RaptorCommon.ConfigSaving

/-!
# What a reachable config can put on lines

Names and values are cut to their fields, and names given to a lookup are not
checked at all, so entries of one spelling may stand more than once. Still,
whatever the calls, the live entries hold texts that a line can carry, and
only one section is global.
-/

set_option autoImplicit false

namespace RaptorCommon.ConfigStored
open RaptorCommon.CText RaptorCommon.KeyedStore RaptorCommon.ConfigStore
open RaptorCommon.ConfigLoader RaptorCommon.ConfigWriter RaptorCommon.ConfigSave
open RaptorCommon.ConfigSettings RaptorCommon.ConfigGrammar RaptorCommon.ConfigInvariant
open RaptorCommon.ConfigMap RaptorCommon.ConfigFullWrite RaptorCommon.ConfigLineView
open RaptorCommon.LineText RaptorCommon.ConfigPending RaptorCommon.ConfigEditedText

section Texts

variable {s t : Bytes}

theorem led_take (h : Led s) (n : ℕ) : Led (s.take n) := by
  cases n with
  | zero => nofun
  | succ n => cases s <;> exact h

theorem led_fold (hst : foldCase s = foldCase t) (h : Led s) : Led t := by
  cases s with
  | nil =>
    have ht : t = [] := List.map_eq_nil_iff.mp hst.symm
    rw [ht]
    nofun
  | cons c s =>
    cases t with
    | nil => nofun
    | cons d t =>
      have hcd : toLower c = toLower d := (List.cons.inj hst).1
      have hc : isSpace c = false := h c rfl
      intro x hx
      rw [← Option.some.inj hx, ← toLower_space, ← hcd, toLower_space, hc]

theorem mark_fold (m : Byte)
    (hm : m ∈ [newline, hashMark, semicolon, equals, lbracket, rbracket])
    (hst : foldCase s = foldCase t) (h : m ∉ s) : m ∉ t := by
  rwa [← mem_foldCase_mark m hm, ← hst, mem_foldCase_mark m hm]

theorem stored_name_take (h : StoredName s) (n : ℕ) : StoredName (s.take n) where
  led := led_take h.led n
  no_bracket hm := h.no_bracket (List.mem_of_mem_take hm)
  no_newline hm := h.no_newline (List.mem_of_mem_take hm)

theorem stored_name_fold (hst : foldCase s = foldCase t) (h : StoredName s) : StoredName t where
  led := led_fold hst h.led
  no_bracket := mark_fold rbracket (by simp) hst h.no_bracket
  no_newline := mark_fold newline (by simp) hst h.no_newline

theorem stored_key_take (h : StoredKey s) (n : ℕ) : StoredKey (s.take n) where
  led := led_take h.led n
  no_equals hm := h.no_equals (List.mem_of_mem_take hm)
  no_newline hm := h.no_newline (List.mem_of_mem_take hm)
  start := by
    cases n with
    | zero => nofun
    | succ n =>
      have hs := h.start
      cases s <;> exact hs

theorem stored_key_fold (hst : foldCase s = foldCase t) (h : StoredKey s) : StoredKey t where
  led := led_fold hst h.led
  no_equals := mark_fold equals (by simp) hst h.no_equals
  no_newline := mark_fold newline (by simp) hst h.no_newline
  start := by
    rw [← key_start_fold, ← hst, key_start_fold]
    exact h.start

theorem stored_value_take (h : StoredValue s) (n : ℕ) : StoredValue (s.take n) where
  no_marker := by
    have hall := h.no_marker
    rw [← List.take_append_drop n s] at hall
    exact no_marker_left hall
  no_newline hm := h.no_newline (List.mem_of_mem_take hm)

theorem trimmed_led (h : Trimmed s) : Led s := by
  cases s with
  | nil => nofun
  | cons c s =>
    intro x hx
    rw [← Option.some.inj hx]
    exact trimmed_head h

end Texts

section Storable

/-- The live entries hold what a line can carry, and so do their sections. -/
def Storable (cfg : Config) : Prop :=
  ∀ s ∈ cfg, ∀ e ∈ savedEntries s, StoredName s.name.chars ∧ StoredEntry e

theorem mem_saved {s : ConfigSection} {e : ConfigEntry} :
    e ∈ savedEntries s ↔ e ∈ s.entries ∧ e.defaulted = false ∧ e.removed = false := by
  simp [savedEntries]

variable {cfg : Config} {sec key value : CString}

theorem lookup_none (h : lookupValue sec key cfg = none) {s : ConfigSection} (hs : s ∈ cfg)
    (hsec : sectionKey s = foldCase sec.chars) {e : ConfigEntry} (he : e ∈ s.entries)
    (hkey : entryKey e = foldCase key.chars) : e.defaulted = true ∨ e.removed = true := by
  have hs' : sameName s.name.chars sec.chars = true := decide_eq_true hsec
  have he' : sameName e.key.chars key.chars = true := decide_eq_true hkey
  have hsome := List.findSome?_eq_none_iff.mp h s hs
  rw [if_pos hs', liveValue, List.findSome?_eq_none_iff] at hsome
  have hlive := hsome e he
  cases hd : e.defaulted with
  | true => exact Or.inl rfl
  | false =>
    cases hr : e.removed with
    | true => exact Or.inr rfl
    | false =>
      rw [if_pos ⟨he', hd, hr⟩] at hlive
      cases hlive

theorem storable_get (h : Storable cfg) (d : Option CString) :
    Storable (rssConfigGetStr sec key d cfg).2 := by
  unfold rssConfigGetStr
  cases hl : lookupValue sec key cfg with
  | some v => exact h
  | none =>
    cases d with
    | none => exact h
    | some t =>
      intro s hs e he
      obtain ⟨he, hd, hr⟩ := mem_saved.mp he
      have hnew : ∀ es : List ConfigEntry, (∀ x ∈ es, entryKey x = foldCase key.chars →
          x.defaulted = true ∨ x.removed = true) →
          e ∈ upsert entryKey (foldCase key.chars) (overwriteEntry t false true)
            (newEntry key t false true) es → e ∈ es := by
        intro es hdead hmem
        rcases upsert_mem hmem with hmem | rfl | ⟨x, hx, hk, rfl⟩
        · exact hmem
        · cases hd
        · -- the entry was not live, and showing a default leaves it so
          have hd' : (x.defaulted || x.removed) = false := hd
          rcases hdead x hx hk with h0 | h0 <;> simp [h0] at hd'
      rcases upsert_mem hs with hs | rfl | ⟨b, hb, hk, rfl⟩
      · exact h s hs e (mem_saved.mpr ⟨he, hd, hr⟩)
      · have hmem := hnew [] nofun he
        simp at hmem
      · have hmem := hnew b.entries (fun x hx hkx => lookup_none hl hb hk hx hkx) he
        exact h b hb e (mem_saved.mpr ⟨hmem, hd, hr⟩)

theorem storable_store {dirty : Bool} {g : ConfigSection → ConfigSection}
    (hg : ∀ s, (g s).name = s.name ∧ (g s).entries = s.entries) (h : Storable cfg)
    (hs : StoredName sec.chars) (hk : StoredKey key.chars) (hv : StoredValue value.chars) :
    Storable (findOrCreateSection sec (fun s => addEntryEx key value dirty false (g s)) cfg) := by
  have hentry : ∀ es : List ConfigEntry, (∀ e ∈ es, e.defaulted = false ∧ e.removed = false →
      StoredEntry e) → ∀ e ∈ upsert entryKey (foldCase key.chars) (overwriteEntry value dirty false)
        (newEntry key value dirty false) es, e.defaulted = false ∧ e.removed = false →
      StoredEntry e := by
    intro es hes e he hlive
    rcases upsert_mem he with he | rfl | ⟨x, hx, hkx, rfl⟩
    · exact hes e he hlive
    · exact ⟨stored_key_take hk _, stored_value_take hv _⟩
    · exact ⟨stored_key_fold hkx.symm hk, stored_value_take hv _⟩
  intro s hs' e he
  obtain ⟨he, hlive⟩ := mem_saved.mp he
  rcases upsert_mem hs' with hs' | rfl | ⟨b, hb, hkb, rfl⟩
  · exact h s hs' e (mem_saved.mpr ⟨he, hlive⟩)
  · refine ⟨?_, hentry _ ?_ e he hlive⟩
    · show StoredName (g (emptySection sec)).name.chars
      rw [(hg _).1]
      exact stored_name_take hs _
    · rw [(hg _).2]
      nofun
  · refine ⟨?_, hentry _ ?_ e he hlive⟩
    · show StoredName (g b).name.chars
      rw [(hg b).1]
      exact stored_name_fold hkb.symm hs
    · rw [(hg b).2]
      exact fun x hx hl => (h b hb x (mem_saved.mpr ⟨hx, hl⟩)).2

structure Shrunk (a b : ConfigSection) : Prop where
  name : a.name = b.name
  saved : ∀ e ∈ savedEntries a, ∃ x ∈ savedEntries b, e.key = x.key ∧ e.value = x.value

theorem shrunk_refl (s : ConfigSection) : Shrunk s s := ⟨rfl, fun e he => ⟨e, he, rfl, rfl⟩⟩

theorem storable_shrunk {after : Config} (h : Storable cfg)
    (ha : ∀ a ∈ after, ∃ b ∈ cfg, Shrunk a b) : Storable after := by
  intro a haa e he
  obtain ⟨b, hb, hshrunk⟩ := ha a haa
  obtain ⟨x, hx, hkey, hvalue⟩ := hshrunk.saved e he
  obtain ⟨hname, hentry⟩ := h b hb x hx
  refine ⟨hshrunk.name ▸ hname, ⟨?_, ?_⟩⟩
  · rw [hkey]
    exact hentry.key
  · rw [hvalue]
    exact hentry.value

theorem shrunk_unset {s t : ConfigSection} {b : Bool} (h : unsetSection sec key s = some (b, t)) :
    Shrunk t s := by
  unfold unsetSection at h
  split at h
  · obtain ⟨r, hr, heq⟩ := Option.map_eq_some_iff.mp h
    obtain ⟨-, rfl⟩ := Prod.mk.inj heq
    refine ⟨rfl, fun e he => ?_⟩
    obtain ⟨he, hd, hrem⟩ := mem_saved.mp he
    rcases update_first_mem hr e he with he | ⟨x, hx, hu⟩
    · exact ⟨e, mem_saved.mpr ⟨he, hd, hrem⟩, rfl, rfl⟩
    · unfold unsetEntry at hu
      split at hu
      · split at hu
        next hdead =>
          obtain ⟨-, rfl⟩ := Prod.mk.inj (Option.some.inj hu)
          simp [hd, hrem] at hdead
        next =>
          obtain ⟨-, rfl⟩ := Prod.mk.inj (Option.some.inj hu)
          cases hrem
      · cases hu
  · cases h

theorem storable_unset (h : Storable cfg) : Storable (rssConfigUnset sec key cfg).2 := by
  refine storable_shrunk h fun a ha => ?_
  unfold rssConfigUnset at ha
  cases hu : updateFirst (unsetSection sec key) cfg with
  | none =>
    rw [hu] at ha
    exact ⟨a, ha, shrunk_refl a⟩
  | some r =>
    rw [hu] at ha
    rcases update_first_mem hu a ha with ha | ⟨b, hb, hub⟩
    · exact ⟨a, ha, shrunk_refl a⟩
    · exact ⟨b, hb, shrunk_unset hub⟩

theorem remove_not_live (e : ConfigEntry) :
    ¬((removeEntry e).defaulted = false ∧ (removeEntry e).removed = false) := by
  cases hd : e.defaulted <;> cases hr : e.removed <;> simp [removeEntry, hd, hr]

theorem emptied_saved (s : ConfigSection) : savedEntries (emptiedSection s) = [] := by
  refine List.eq_nil_iff_forall_not_mem.mpr fun e he => ?_
  obtain ⟨he, hlive⟩ := mem_saved.mp he
  obtain ⟨x, -, rfl⟩ := List.mem_map.mp he
  exact remove_not_live x hlive

theorem storable_remove (h : Storable cfg) : Storable (rssConfigRemoveSection sec cfg).2 := by
  refine storable_shrunk h fun a ha => ?_
  unfold rssConfigRemoveSection at ha
  split at ha
  · exact ⟨a, ha, shrunk_refl a⟩
  · cases hu : updateFirst (removeSection sec) cfg with
    | none =>
      rw [hu] at ha
      exact ⟨a, ha, shrunk_refl a⟩
    | some r =>
      rw [hu] at ha
      rcases update_first_mem hu a ha with ha | ⟨b, hb, hub⟩
      · exact ⟨a, ha, shrunk_refl a⟩
      · unfold removeSection at hub
        split at hub
        · obtain ⟨-, rfl⟩ := Prod.mk.inj (Option.some.inj hub)
          exact ⟨b, hb, rfl, by simp [emptied_saved]⟩
        · cases hub

theorem storable_clear (h : Storable cfg) : Storable (clearDirty cfg) := by
  refine storable_shrunk h fun a ha => ?_
  obtain ⟨b, hb, rfl⟩ := List.mem_map.mp ha
  refine ⟨b, hb, rfl, fun e he => ?_⟩
  obtain ⟨he, hd, hr⟩ := mem_saved.mp he
  obtain ⟨x, hx, rfl⟩ := List.mem_map.mp he
  exact ⟨x, mem_saved.mpr ⟨hx, hd, hr⟩, rfl, rfl⟩

end Storable

section Global

def globals (cfg : Config) : ℕ := (cfg.map (fun s => s.name.chars)).count []

variable {cfg : Config} {name : CString} {use : ConfigSection → ConfigSection}

theorem update_first_names {β : Type*} {g : ConfigSection → Option (β × ConfigSection)}
    (hg : ∀ s r, g s = some r → r.2.name = s.name) {r : β × Config}
    (h : updateFirst g cfg = some r) :
    r.2.map (fun s => s.name.chars) = cfg.map (fun s => s.name.chars) := by
  induction cfg generalizing r with
  | nil => cases h
  | cons s cfg ih =>
    rw [updateFirst] at h
    cases hs : g s with
    | some a =>
      rw [hs] at h
      rw [← Option.some.inj h, List.map_cons, List.map_cons, hg s a hs]
    | none =>
      rw [hs] at h
      obtain ⟨a, ha, rfl⟩ := Option.map_eq_some_iff.mp h
      rw [List.map_cons, List.map_cons, ih ha]

theorem globals_use (hu : ∀ s, (use s).name = s.name) (h : globals cfg ≤ 1) :
    globals (findOrCreateSection name use cfg) ≤ 1 := by
  unfold findOrCreateSection upsert
  split
  next r hr =>
    have hnames := update_first_names (fun s r hs => by
      split at hs
      · rw [← Option.some.inj hs]
        exact hu s
      · cases hs) hr
    rwa [globals, hnames]
  next hnone =>
    have hnew : (use (emptySection name)).name.chars = name.chars.take (maxSecn-1) := by
      rw [hu]
      rfl
    rw [globals, List.map_cons, hnew]
    by_cases hn : name.chars = []
    · have hzero : (cfg.map (fun s => s.name.chars)).count [] = 0 := by
        rw [List.count_eq_zero]
        intro hm
        obtain ⟨s, hs, hname⟩ := List.mem_map.mp hm
        have hno := update_first_none.mp hnone s hs
        rw [if_pos (by rw [sectionKey, hname, hn])] at hno
        cases hno
      rw [hn, List.take_nil, List.count_cons_self, hzero]
    · have hne : name.chars.take (maxSecn-1) ≠ [] := by
        cases hc : name.chars with
        | nil => exact absurd hc hn
        | cons c s => exact List.cons_ne_nil c _
      rw [List.count_cons_of_ne hne]
      exact h

theorem globals_same {after : Config}
    (ha : after.map (fun s => s.name.chars) = cfg.map (fun s => s.name.chars))
    (h : globals cfg ≤ 1) : globals after ≤ 1 := by
  rwa [globals, ha]

end Global

section Runs

/-- Arguments a caller sets: trimmed and on one line, without the marks of the
grammar. They may be empty or longer than their fields. -/
structure SetNames (sec key : CString) : Prop where
  sec_trimmed : Trimmed sec.chars
  sec_line : newline ∉ sec.chars
  sec_bracket : rbracket ∉ sec.chars
  key_text : KeyText key.chars

def SetWellFormed : Op → Prop
  | .setStr sec key value => SetNames sec key ∧ PlainValue value.chars
  | .setInt sec key _ | .setBool sec key _ => SetNames sec key
  | _ => True

structure Tidy (cfg : Config) : Prop where
  storable : Storable cfg
  one_global : globals cfg ≤ 1

variable {cfg : Config}

theorem key_text_stored {k : Bytes} (h : KeyText k) : StoredKey k :=
  ⟨trimmed_led h.trimmed, h.no_equals, h.no_newline, h.start⟩

theorem tidy_get {sec key : CString} (h : Tidy cfg) (d : Option CString) :
    Tidy (rssConfigGetStr sec key d cfg).2 := by
  refine ⟨storable_get h.storable d, ?_⟩
  unfold rssConfigGetStr
  cases lookupValue sec key cfg with
  | some v => exact h.one_global
  | none =>
    cases d with
    | none => exact h.one_global
    | some t => exact globals_use (fun _ => rfl) h.one_global

theorem tidy_set {sec key v : CString} (h : Tidy cfg) (hn : SetNames sec key)
    (hv : PlainValue v.chars) : Tidy (rssConfigSetStr sec key v cfg) := by
  rw [rssConfigSetStr]
  split
  · exact h
  · exact ⟨storable_store (fun _ => ⟨rfl, rfl⟩) h.storable
      ⟨trimmed_led hn.sec_trimmed, hn.sec_bracket, hn.sec_line⟩ (key_text_stored hn.key_text)
      ⟨hv.no_marker, hv.no_newline⟩, globals_use (fun _ => rfl) h.one_global⟩

theorem tidy_unset {sec key : CString} (h : Tidy cfg) : Tidy (rssConfigUnset sec key cfg).2 := by
  refine ⟨storable_unset h.storable, ?_⟩
  unfold rssConfigUnset
  cases hu : updateFirst (unsetSection sec key) cfg with
  | none => exact h.one_global
  | some r =>
    exact globals_same (update_first_names (fun s r hs => (shrunk_unset hs).name) hu) h.one_global

theorem tidy_remove {sec : CString} (h : Tidy cfg) : Tidy (rssConfigRemoveSection sec cfg).2 := by
  refine ⟨storable_remove h.storable, ?_⟩
  unfold rssConfigRemoveSection
  split
  · exact h.one_global
  · cases hu : updateFirst (removeSection sec) cfg with
    | none => exact h.one_global
    | some r =>
      refine globals_same (update_first_names (fun s r hs => ?_) hu) h.one_global
      unfold removeSection at hs
      split at hs
      · rw [← Option.some.inj hs]
        rfl
      · cases hs

theorem tidy_clear (h : Tidy cfg) : Tidy (clearDirty cfg) := by
  refine ⟨storable_clear h.storable, globals_same ?_ h.one_global⟩
  rw [clearDirty, List.map_map]
  rfl

theorem normal_well_formed {op : Op} {sec key v : CString} (hg : SetWellFormed op)
    (hop : normal op = .setStr sec key v) : SetNames sec key ∧ PlainValue v.chars := by
  cases op with
  | setStr s k t =>
    obtain ⟨rfl, rfl, rfl⟩ := Op.setStr.inj hop
    exact hg
  | setInt s k n =>
    obtain ⟨rfl, rfl, rfl⟩ := Op.setStr.inj hop
    exact ⟨hg, (ConfigSaving.decimal_good n).value⟩
  | setBool s k b =>
    obtain ⟨rfl, rfl, rfl⟩ := Op.setStr.inj hop
    exact ⟨hg, (ConfigSaving.bool_good b).value⟩
  | _ => cases hop

theorem tidy_step {longMax : ℕ} {op : Op} (h : Tidy cfg) (hg : SetWellFormed op) :
    Tidy (step longMax cfg op).2 := by
  have hc := step_change longMax cfg op
  generalize (step longMax cfg op).2 = after at hc ⊢
  cases hc with
  | get sec key d hop => exact tidy_get h d
  | set sec key v hop =>
    obtain ⟨hn, hv⟩ := normal_well_formed hg hop
    exact tidy_set h hn hv
  | unset sec key hop => exact tidy_unset h
  | remove sec hop => exact tidy_remove h
  | settle hop => exact tidy_clear h
  | same hop => exact h

structure Loading (st : LoadState) : Prop where
  tidy : Tidy st.cfg
  current : StoredName st.current.chars

theorem loading_start : Loading loadStart where
  tidy := ⟨nofun, by decide⟩
  current := ⟨nofun, nofun, nofun⟩

theorem loading_piece {st : LoadState} {raw : Bytes} (h : Loading st) (hz : 0 ∉ raw)
    (hn : newline ∉ raw) : Loading (loadParsed st (pieceLine raw)) := by
  rw [pieceLine]
  split
  · have htexts : ∀ t ∈ lineTexts (parseLine raw), 0 ∉ t ∧ newline ∉ t := fun t ht =>
      ⟨fun h0 => hz (line_texts_mem ht h0), fun h0 => hn (line_texts_mem ht h0)⟩
    cases hp : parseLine raw with
    | ignored => exact h
    | header name =>
      rw [hp] at htexts
      obtain ⟨lead, inner, rest, -, -, hb, rfl⟩ := parse_header_parts hp
      obtain ⟨h0, hline⟩ := htexts (rssTrim inner) (by simp [lineTexts])
      have hname : StoredName (rssTrim inner) :=
        ⟨trimmed_led (trimmed_trim inner), fun hm => hb (trim_mem hm), hline⟩
      refine ⟨h.tidy, ?_⟩
      show StoredName ((CString.at (rssTrim inner)).chars.take (maxSecn-1))
      rw [at_nul_free h0]
      exact stored_name_take hname _
    | binding k v =>
      rw [hp] at htexts
      obtain ⟨lead, pad, rest, -, -, -, -, ht, he, hs, rfl⟩ := parse_binding_parts hp
      obtain ⟨hk0, hkline⟩ := htexts k (by simp [lineTexts])
      obtain ⟨hv0, hvline⟩ := htexts (loadedValue rest) (by simp [lineTexts])
      refine ⟨⟨storable_store (fun _ => ⟨rfl, rfl⟩) h.tidy.storable h.current ?_ ?_,
        globals_use (fun _ => rfl) h.tidy.one_global⟩, h.current⟩
      · rw [at_nul_free hk0]
        exact ⟨trimmed_led ht, he, hkline, hs⟩
      · rw [at_nul_free hv0]
        exact ⟨loaded_no_marker rest, hvline⟩
  · exact h

theorem tidy_load {text : Bytes} (hz : 0 ∉ text) : Tidy (rssConfigLoad text) := by
  have hraw : ∀ raw ∈ pieces newline text, 0 ∉ raw ∧ newline ∉ raw := fun raw hr =>
    ⟨fun h0 => hz (pieces_subset newline text raw hr 0 h0),
      pieces_separator_free newline text raw hr⟩
  have hload : ∀ (raws : List Bytes) (st : LoadState), Loading st →
      (∀ raw ∈ raws, 0 ∉ raw ∧ newline ∉ raw) →
      Loading ((raws.map pieceLine).foldl loadParsed st) := by
    intro raws
    induction raws with
    | nil => exact fun st h _ => h
    | cons raw raws ih =>
      intro st h hall
      obtain ⟨h0, hn⟩ := hall raw (by simp)
      exact ih _ (loading_piece h h0 hn) fun r hr => hall r (by simp [hr])
  rw [load_file_lines, file_lines_pieces hz]
  exact (hload _ loadStart loading_start hraw).tidy

theorem tidy_run {longMax : ℕ} {ops : List Op} (h : Tidy cfg) (hg : ∀ op ∈ ops, SetWellFormed op) :
    Tidy (run longMax cfg ops) := by
  induction ops generalizing cfg with
  | nil => exact h
  | cons op ops ih =>
    exact ih (tidy_step h (hg op (by simp))) fun o ho => hg o (by simp [ho])

end Runs

end RaptorCommon.ConfigStored
