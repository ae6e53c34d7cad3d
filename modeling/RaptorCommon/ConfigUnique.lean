import RaptorCommon.ConfigInvariant
import RaptorCommon.ConfigLineSequence

/-!
# Names that are not unique

Names are stored cut to their fields but looked for as they are given. So a
name that does not fit is never found, and entering it once more stores its
cut form a second time. Along a load and a run of calls names stay unique
exactly when nothing that does not fit is entered beside its own cut form.
-/

set_option autoImplicit false

namespace RaptorCommon.ConfigUnique
open RaptorCommon.CText RaptorCommon.KeyedStore RaptorCommon.ConfigStore
open RaptorCommon.ConfigSave RaptorCommon.ConfigSettings RaptorCommon.ConfigLoader
open RaptorCommon.ConfigInvariant RaptorCommon.ConfigLineSequence

def cutKey (name : CString) : Bytes := foldCase (name.chars.take 63)

/-- A name that fits, or whose cut form is not among the keys. -/
def Apart (name : CString) (keys : List Bytes) : Prop := Fits name ∨ cutKey name ∉ keys

def Enters (sec key : CString) (cfg : Config) : Prop :=
  Apart sec (cfg.map sectionKey) ∧ Apart key ((foundSection sec cfg).entries.map entryKey)

theorem fits_cut {name : CString} (h : Fits name) : cutKey name = foldCase name.chars := by
  rw [cutKey, List.take_of_length_le h]

theorem fits_of_found {name : CString} {keys : List Bytes}
    (hkeys : ∀ k ∈ keys, k.length ≤ 63) (h : foldCase name.chars ∈ keys) : Fits name := by
  have := hkeys _ h
  rwa [foldCase_length] at this

theorem apart_iff {name : CString} {keys : List Bytes} (hkeys : ∀ k ∈ keys, k.length ≤ 63) :
    (foldCase name.chars ∈ keys ∨ cutKey name ∉ keys) ↔ Apart name keys := by
  constructor
  · rintro (h | h)
    · exact Or.inl (fits_of_found hkeys h)
    · exact Or.inr h
  · rintro (h | h)
    · rw [fits_cut h]
      exact Decidable.em _
    · exact Or.inr h

theorem section_key_length (cfg : Config) : ∀ k ∈ cfg.map sectionKey, k.length ≤ 63 := by
  intro k hk
  obtain ⟨s, -, rfl⟩ := List.mem_map.mp hk
  rw [sectionKey, foldCase_length]
  exact s.name.fits

theorem entry_key_length (es : List ConfigEntry) : ∀ k ∈ es.map entryKey, k.length ≤ 63 := by
  intro k hk
  obtain ⟨e, -, rfl⟩ := List.mem_map.mp hk
  rw [entryKey, foldCase_length]
  exact e.key.fits

section Entering

variable {cfg : Config} {sec key value : CString} {dirty defaulted : Bool}

theorem add_unique_iff {s : ConfigSection} (hs : Unique entryKey s.entries) :
    Unique entryKey (addEntryEx key value dirty defaulted s).entries ↔
      Apart key (s.entries.map entryKey) :=
  (unique_upsert_iff overwrite_key hs).trans (apart_iff (entry_key_length s.entries))

theorem unique_of_add {s : ConfigSection}
    (h : Unique entryKey (addEntryEx key value dirty defaulted s).entries) :
    Unique entryKey s.entries := unique_of_upsert overwrite_key h

theorem entered_sections (use : ConfigSection → ConfigSection) (hk : Keyed cfg) :
    (∀ s ∈ findOrCreateSection sec use cfg, s ∈ cfg ∨ s = use (foundSection sec cfg)) ∧
      use (foundSection sec cfg) ∈ findOrCreateSection sec use cfg := by
  unfold findOrCreateSection foundSection
  rw [upsert_keyed use _ hk.sections]
  cases hf : fetch sectionKey (foldCase sec.chars) cfg with
  | some s =>
    refine ⟨fun t ht => ?_, ?_⟩
    · rcases mem_put ht with rfl | ⟨ht, -⟩
      · exact Or.inr rfl
      · exact Or.inl ht
    · refine List.mem_map.mpr ⟨s, fetch_mem hf, ?_⟩
      rw [if_pos (fetch_key hf)]
      rfl
  | none =>
    refine ⟨fun t ht => ?_, List.mem_cons_self⟩
    rcases List.mem_cons.mp ht with rfl | ht
    · exact Or.inr rfl
    · exact Or.inl ht

variable (flag : ConfigSection → ConfigSection) (hf : ∀ s, sectionKey (flag s) = sectionKey s)
  (he : ∀ s, (flag s).entries = s.entries)

include hf he in
theorem keyed_enter_iff (hk : Keyed cfg) :
    Keyed (findOrCreateSection sec
      (fun s => addEntryEx key value dirty defaulted (flag s)) cfg) ↔ Enters sec key cfg := by
  have hu : ∀ s, sectionKey (addEntryEx key value dirty defaulted (flag s)) = sectionKey s := hf
  obtain ⟨honly, hthere⟩ := entered_sections
    (fun s => addEntryEx key value dirty defaulted (flag s)) hk
  have hsec : Unique sectionKey (findOrCreateSection sec
      (fun s => addEntryEx key value dirty defaulted (flag s)) cfg) ↔
      Apart sec (cfg.map sectionKey) := by
    refine (unique_upsert_iff hu hk.sections).trans ?_
    rw [hu]
    exact apart_iff (section_key_length cfg)
  have hent : Unique entryKey (addEntryEx key value dirty defaulted
      (flag (foundSection sec cfg))).entries ↔
      Apart key ((flag (foundSection sec cfg)).entries.map entryKey) :=
    add_unique_iff (by rw [he]; exact found_entries hk sec)
  rw [he] at hent
  constructor
  · intro h
    exact ⟨hsec.mp h.sections, hent.mp (h.entries _ hthere)⟩
  · rintro ⟨hs, hn⟩
    refine ⟨hsec.mpr hs, fun s hs => ?_⟩
    rcases honly s hs with hs | rfl
    · exact hk.entries s hs
    · exact hent.mpr hn

include hf he in
theorem keyed_of_enter
    (h : Keyed (findOrCreateSection sec
      (fun s => addEntryEx key value dirty defaulted (flag s)) cfg)) : Keyed cfg := by
  have hu : ∀ s, sectionKey (addEntryEx key value dirty defaulted (flag s)) = sectionKey s := hf
  refine ⟨unique_of_upsert hu h.sections, fun s hs => ?_⟩
  by_contra hdup
  have hkeep : ∀ s, ¬Unique entryKey s.entries →
      ¬Unique entryKey (addEntryEx key value dirty defaulted (flag s)).entries := by
    intro s hs hadd
    have := unique_of_add hadd
    rw [he] at this
    exact hs this
  have hkept : ∃ t ∈ findOrCreateSection sec
      (fun s => addEntryEx key value dirty defaulted (flag s)) cfg, ¬Unique entryKey t.entries :=
    upsert_keeps hkeep ⟨s, hs, hdup⟩
  obtain ⟨t, ht, htdup⟩ := hkept
  exact htdup (h.entries t ht)

end Entering

section Loading

def FileApart (text : Bytes) : Prop :=
  ∀ before b after, loaderBindings text = before ++ b::after →
    Enters b.sec.str b.key (before.foldl bindIn [])

theorem keyed_binds_iff {cfg : Config} (bs : List Binding) :
    Keyed (bs.foldl bindIn cfg) ↔ Keyed cfg ∧ ∀ before b after, bs = before ++ b::after →
      Enters b.sec.str b.key (before.foldl bindIn cfg) := by
  induction bs generalizing cfg with
  | nil => exact ⟨fun h => ⟨h, fun before b after h => by simp at h⟩, fun h => h.1⟩
  | cons a bs ih =>
    have hstep : Keyed cfg → (Keyed (bindIn cfg a) ↔ Enters a.sec.str a.key cfg) :=
      keyed_enter_iff id (fun _ => rfl) (fun _ => rfl)
    rw [List.foldl_cons, ih]
    constructor
    · rintro ⟨hk, hrest⟩
      have hk0 : Keyed cfg := keyed_of_enter id (fun _ => rfl) (fun _ => rfl) hk
      refine ⟨hk0, fun before b after h => ?_⟩
      cases before with
      | nil =>
        cases (List.cons.inj h).1
        exact (hstep hk0).mp hk
      | cons x before =>
        obtain ⟨rfl, htail⟩ := List.cons.inj h
        exact hrest before b after htail
    · rintro ⟨hk0, hall⟩
      refine ⟨(hstep hk0).mpr (hall [] a bs rfl), fun before b after h => ?_⟩
      exact hall (a::before) b after (by rw [h]; rfl)

theorem keyed_load_iff (text : Bytes) : Keyed (rssConfigLoad text) ↔ FileApart text := by
  rw [load_bindings, keyed_binds_iff]
  exact ⟨fun h => h.2, fun h => ⟨keyed_nil, h⟩⟩

end Loading

section Calls

variable {longMax : ℕ} {cfg : Config}

/-- A call enters no name beside its own cut form. -/
def OpApart (cfg : Config) (op : Op) : Prop :=
  match normal op with
  | .getStr sec key (some _) => Enters sec key cfg
  | .setStr sec key _ => sec.chars ≠ [] → Enters sec key cfg
  | _ => True

theorem lookup_fits {sec key : CString} {v : CText.Field maxVal}
    (h : lookupValue sec key cfg = some v) : Fits sec ∧ Fits key := by
  obtain ⟨s, hs, hv⟩ := List.exists_of_findSome?_eq_some h
  split at hv
  · rename_i hname
    obtain ⟨e, he, hv⟩ := List.exists_of_findSome?_eq_some hv
    split at hv
    · rename_i hkey
      have hname := congrArg List.length (of_decide_eq_true hname)
      have hkey := congrArg List.length (of_decide_eq_true hkey.1)
      rw [foldCase_length, foldCase_length] at hname hkey
      have h1 : s.name.chars.length ≤ 63 := s.name.fits
      have h2 : e.key.chars.length ≤ 63 := e.key.fits
      exact ⟨by unfold Fits; omega, by unfold Fits; omega⟩
    · cases hv
  · cases hv

theorem keyed_get_iff (hk : Keyed cfg) (sec key d : CString) :
    Keyed (rssConfigGetStr sec key (some d) cfg).2 ↔ Enters sec key cfg := by
  unfold rssConfigGetStr
  cases hl : lookupValue sec key cfg with
  | some v =>
    obtain ⟨hs, hn⟩ := lookup_fits hl
    exact iff_of_true hk ⟨Or.inl hs, Or.inl hn⟩
  | none => exact keyed_enter_iff id (fun _ => rfl) (fun _ => rfl) hk

theorem keyed_set_iff (hk : Keyed cfg) (sec key v : CString) :
    Keyed (rssConfigSetStr sec key v cfg) ↔ (sec.chars ≠ [] → Enters sec key cfg) := by
  unfold rssConfigSetStr
  split_ifs with h
  · exact iff_of_true hk fun h0 => absurd h h0
  · exact (keyed_enter_iff reviveSection (fun _ => rfl) (fun _ => rfl) hk).trans
      ⟨fun h _ => h, fun h' => h' h⟩

/-- One call keeps names unique exactly when it enters none beside its cut form. -/
theorem keyed_step_iff (hk : Keyed cfg) (op : Op) :
    Keyed (step longMax cfg op).2 ↔ OpApart cfg op := by
  unfold OpApart
  have hc := step_change longMax cfg op
  generalize (step longMax cfg op).2 = after at hc ⊢
  cases hc with
  | get sec key d hop =>
    rw [hop]
    cases d with
    | none =>
      refine iff_of_true ?_ trivial
      unfold rssConfigGetStr
      cases lookupValue sec key cfg <;> exact hk
    | some d => exact keyed_get_iff hk sec key d
  | set sec key v hop =>
    rw [hop]
    exact keyed_set_iff hk sec key v
  | unset sec key hop =>
    rw [hop]
    exact iff_of_true (unset_keyed hk) trivial
  | remove sec hop =>
    rw [hop]
    exact iff_of_true (remove_keyed hk) trivial
  | settle hop =>
    have hq : (match normal op with
        | .getStr sec key (some _) => Enters sec key cfg
        | .setStr sec key _ => sec.chars ≠ [] → Enters sec key cfg
        | _ => True) := by
      cases op <;> first | exact trivial | cases hop
    exact iff_of_true (keyed_clear hk) hq
  | same hop =>
    have hq : (match normal op with
        | .getStr sec key (some _) => Enters sec key cfg
        | .setStr sec key _ => sec.chars ≠ [] → Enters sec key cfg
        | _ => True) := by
      cases op <;> first | exact trivial | cases hop
    exact iff_of_true hk hq

end Calls

section Size

variable {longMax : ℕ} {cfg : Config} {sec key : CString}

def storeSize (cfg : Config) : ℕ := cfg.length+(cfg.map (fun s => s.entries.length)).sum

def opPlace (op : Op) : Option (CString × CString) :=
  match normal op with
  | .getStr sec key _ | .setStr sec key _ | .unset sec key => some (sec, key)
  | _ => none

def StoredAt (sec key : CString) (cfg : Config) : Prop :=
  ∃ s ∈ cfg, sectionKey s = cutKey sec ∧ cutKey key ∈ s.entries.map entryKey

theorem size_of_map {cfg cfg' : Config}
    (h : cfg'.map (fun s => s.entries.length) = cfg.map (fun s => s.entries.length)) :
    storeSize cfg' = storeSize cfg := by
  have hlen := congrArg List.length h
  rw [List.length_map, List.length_map] at hlen
  rw [storeSize, storeSize, h, hlen]

theorem stored_found (hk : Keyed cfg) (hin : Enters sec key cfg) (hst : StoredAt sec key cfg) :
    foldCase sec.chars ∈ cfg.map sectionKey ∧
      foldCase key.chars ∈ (foundSection sec cfg).entries.map entryKey := by
  obtain ⟨s, hs, hsec, hkey⟩ := hst
  have hmem : cutKey sec ∈ cfg.map sectionKey := hsec ▸ List.mem_map_of_mem hs
  have hfits : Fits sec := hin.1.resolve_right fun h => h hmem
  rw [fits_cut hfits] at hmem hsec
  have hfound : foundSection sec cfg = s := by
    rw [foundSection, ← hsec, fetch_of_mem hk.sections hs]
    rfl
  refine ⟨hmem, ?_⟩
  have hent := hin.2
  rw [hfound] at hent ⊢
  have hfitk : Fits key := hent.resolve_right fun h => h hkey
  rwa [fits_cut hfitk] at hkey

theorem enter_size {value : CString} {dirty defaulted : Bool}
    (flag : ConfigSection → ConfigSection) (he : ∀ s, (flag s).entries = s.entries)
    (hk : Keyed cfg) (hin : Enters sec key cfg) (hst : StoredAt sec key cfg) :
    storeSize (findOrCreateSection sec
      (fun s => addEntryEx key value dirty defaulted (flag s)) cfg) = storeSize cfg := by
  obtain ⟨hsec, hkey⟩ := stored_found hk hin hst
  apply size_of_map
  apply upsert_map_present hsec
  intro s hs hs0
  have hfound : foundSection sec cfg = s := by
    rw [foundSection, ← hs0, fetch_of_mem hk.sections hs]
    rfl
  rw [hfound, ← he s] at hkey
  have hkeys : ((addEntryEx key value dirty defaulted (flag s)).entries.map entryKey) =
      (flag s).entries.map entryKey :=
    upsert_map_present hkey fun a _ _ => overwrite_key a
  have hlen := congrArg List.length hkeys
  rwa [List.length_map, List.length_map, he] at hlen

theorem unset_size : storeSize (rssConfigUnset sec key cfg).2 = storeSize cfg := by
  unfold rssConfigUnset
  cases hu : updateFirst (unsetSection sec key) cfg with
  | none => rfl
  | some r =>
    apply size_of_map
    refine update_first_map (fun s x hx => ?_) hu
    unfold unsetSection at hx
    split_ifs at hx
    obtain ⟨y, hy, rfl⟩ := Option.map_eq_some_iff.mp hx
    have hkeys : y.2.map entryKey = s.entries.map entryKey := by
      refine update_first_map (fun e z hz => ?_) hy
      unfold unsetEntry at hz
      split_ifs at hz
      all_goals
        cases hz
        rfl
    have hlen := congrArg List.length hkeys
    rwa [List.length_map, List.length_map] at hlen

theorem step_size (hk : Keyed cfg) {op : Op} (hop : OpApart cfg op)
    (hpl : opPlace op = some (sec, key)) (hst : StoredAt sec key cfg) :
    storeSize (step longMax cfg op).2 = storeSize cfg := by
  unfold OpApart at hop
  unfold opPlace at hpl
  have hc := step_change longMax cfg op
  generalize (step longMax cfg op).2 = after at hc ⊢
  cases hc with
  | get s k d h =>
    rw [h] at hop hpl
    cases hpl
    cases d with
    | none =>
      unfold rssConfigGetStr
      cases lookupValue sec key cfg <;> rfl
    | some d =>
      unfold rssConfigGetStr
      cases lookupValue sec key cfg with
      | some v => rfl
      | none => exact enter_size id (fun _ => rfl) hk hop hst
  | set s k v h =>
    rw [h] at hop hpl
    cases hpl
    unfold rssConfigSetStr
    split_ifs with h0
    · rfl
    · exact enter_size reviveSection (fun _ => rfl) hk (hop h0) hst
  | unset s k h =>
    rw [h] at hpl
    cases hpl
    exact unset_size
  | remove s h =>
    rw [h] at hpl
    cases hpl
  | settle h =>
    exfalso
    cases op <;> first | exact h | exact nomatch hpl
  | same h => rfl

theorem unset_gone (hk : Keyed cfg) :
    (rssConfigGetStr sec key none (rssConfigUnset sec key cfg).2).1 = none := by
  have hset : settings (rssConfigUnset sec key cfg).2 (place sec key) = none := by
    rw [settings, entry_at_unset hk, if_pos rfl]
    cases entryAt (place sec key) cfg with
    | none => rfl
    | some e => exact remove_live e
  rw [← lookup_settings (unset_keyed hk)] at hset
  unfold rssConfigGetStr
  rw [Option.map_eq_none_iff.mp hset]

end Size

section Runs

variable {longMax : ℕ}

theorem keyed_prefixes_iff {cfg : Config} (ops : List Op) :
    (∀ before after, ops = before ++ after → Keyed (run longMax cfg before)) ↔
      Keyed cfg ∧ ∀ before op after, ops = before ++ op::after →
        OpApart (run longMax cfg before) op := by
  constructor
  · intro h
    refine ⟨h [] ops rfl, fun before op after hops => ?_⟩
    have hnext := h (before ++ [op]) after (by rw [hops]; simp)
    rw [run_snoc] at hnext
    exact (keyed_step_iff (h before (op::after) hops) op).mp hnext
  · rintro ⟨hk, hall⟩ before after hops
    induction before using List.reverseRecOn generalizing after with
    | nil => exact hk
    | append_singleton before op ih =>
      have hops' : ops = before ++ op::after := by rw [hops]; simp
      rw [run_snoc]
      exact (keyed_step_iff (ih (op::after) hops') op).mpr (hall before op after hops')

/-- Of each name there is one, whenever one looks; naming it again makes no
other, and a key that was unset is gone. -/
structure OneOfEach (longMax : ℕ) (text : Bytes) (ops : List Op) : Prop where
  unique : ∀ before after, ops = before ++ after →
    Keyed (run longMax (rssConfigLoad text) before)
  steady : ∀ before op after, ops = before ++ op::after → ∀ sec key,
    opPlace op = some (sec, key) → StoredAt sec key (run longMax (rssConfigLoad text) before) →
      storeSize (run longMax (rssConfigLoad text) (before ++ [op])) =
        storeSize (run longMax (rssConfigLoad text) before)
  unset_gone : ∀ before sec key after, ops = before ++ .unset sec key::after →
    (step longMax (run longMax (rssConfigLoad text) before) (.unset sec key)).1 = .bool true →
      (step longMax (run longMax (rssConfigLoad text) (before ++ [.unset sec key]))
        (.getStr sec key none)).1 = .str none

/-- A load and a run keep one of each name exactly when neither enters a name
that does not fit beside its cut form. -/
theorem one_of_each_iff (longMax : ℕ) (text : Bytes) (ops : List Op) :
    OneOfEach longMax text ops ↔ FileApart text ∧ ∀ before op after, ops = before ++ op::after →
      OpApart (run longMax (rssConfigLoad text) before) op := by
  constructor
  · intro h
    obtain ⟨hk, hall⟩ := (keyed_prefixes_iff ops).mp h.unique
    exact ⟨(keyed_load_iff text).mp hk, hall⟩
  · rintro ⟨hfile, hall⟩
    have hkeyed := (keyed_prefixes_iff ops).mpr ⟨(keyed_load_iff text).mpr hfile, hall⟩
    refine ⟨hkeyed, ?_, ?_⟩
    · intro before op after hops sec key hpl hst
      rw [run_snoc]
      exact step_size (hkeyed before (op::after) hops) (hall before op after hops) hpl hst
    · intro before sec key after hops _
      rw [run_snoc]
      exact congrArg Answer.str (unset_gone (hkeyed before (_::after) hops))

/-- A key of 64 characters set twice. -/
theorem long_key_doubles : ¬OneOfEach 0 []
    [.setStr (literal "s") ⟨List.replicate 64 107, by decide⟩ (literal "1"),
      .setStr (literal "s") ⟨List.replicate 64 107, by decide⟩ (literal "2")] := by
  intro h
  have hk := (h.unique _ [] (List.append_nil _).symm).entries
  revert hk
  unfold KeyedStore.Unique
  decide +kernel

end Runs

end RaptorCommon.ConfigUnique
