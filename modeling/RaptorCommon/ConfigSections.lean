import RaptorCommon.ConfigMap

/-!
# Configured and looked-up sections

A section is configured by a key line of the file or by an accepted write.
Removal and the section walk are meant to know only those. A getter that
stores its default for a section nobody configured creates that section, and
nothing in the config tells it from the others afterwards.
-/

set_option autoImplicit false

namespace RaptorCommon.ConfigSections
open RaptorCommon.CText RaptorCommon.KeyedStore RaptorCommon.ConfigStore
open RaptorCommon.ConfigSave RaptorCommon.ConfigSettings RaptorCommon.ConfigLoader
open RaptorCommon.ConfigInvariant RaptorCommon.ConfigMap RaptorCommon.IniSemantics

section Histories

def boundSections : Bytes → List Line → List Bytes
  | _, [] => []
  | current, .ignored::lines => boundSections current lines
  | _, .header name::lines => boundSections (foldCase name) lines
  | current, .binding _ _::lines => current :: boundSections current lines

/-- The sections the file or a write configured, and those of them that no
removal took out since. -/
structure History where
  configured : Bytes → Bool
  present : Bytes → Bool

def fileHistory (text : Bytes) : History where
  configured s := s ∈ boundSections [] (fileLines text)
  present s := s ∈ boundSections [] (fileLines text)

def History.record (h : History) (op : Op) : History :=
  match normal op with
  | .setStr sec _ _ =>
    if sec.chars = [] then h
    else ⟨Function.update h.configured (foldCase sec.chars) true,
      Function.update h.present (foldCase sec.chars) true⟩
  | .removeSection sec =>
    if sec.chars = [] then h
    else { h with present := Function.update h.present (foldCase sec.chars) false }
  | _ => h

def history (text : Bytes) (ops : List Op) : History := ops.foldl History.record (fileHistory text)

/-- Removal answers by the history. A section nothing configured is not
removed, and no walk visits it. -/
structure Faithful (h : History) (cfg : Config) : Prop where
  answer : ∀ sec, sec.chars ≠ [] →
    (rssConfigRemoveSection sec cfg).1 = h.present (foldCase sec.chars)
  refused : ∀ sec : CString, h.configured (foldCase sec.chars) = false →
    (rssConfigRemoveSection sec cfg).1 = false ∧
      rssConfigHasDirty (rssConfigRemoveSection sec cfg).2 = rssConfigHasDirty cfg
  unvisited : ∀ sec : CString, h.configured (foldCase sec.chars) = false →
    ∀ pfx, ∀ name ∈ rssConfigForeachSection pfx cfg, foldCase name.chars ≠ foldCase sec.chars

def LooksKnown (h : History) (op : Op) : Prop :=
  ∀ sec key d, normal op = .getStr sec key (some d) → h.configured (foldCase sec.chars) = true

end Histories

section Sections

variable {cfg : Config} {sec key : CString}

theorem remove_answer (hk : Keyed cfg) :
    (rssConfigRemoveSection sec cfg).1 = true ↔ sec.chars ≠ [] ∧
      (sectionAt (foldCase sec.chars) cfg).isSome ∧
      (flagsAt (foldCase sec.chars) cfg).1 = false := by
  rcases remove_cases hk sec with ⟨hwhy, hr⟩ | ⟨s, h0, hs, hremoved, hr⟩
  · rw [hr]
    constructor
    · intro h
      cases h
    · rintro ⟨h0, hs, hflag⟩
      rcases hwhy with h | h | h
      · exact absurd h h0
      · rw [h] at hs
        cases hs
      · rw [h] at hflag
        cases hflag
  · have hflags : flagsAt (foldCase sec.chars) cfg = sectionFlags s := by rw [flagsAt, hs]; rfl
    rw [hr, hflags, hs]
    exact ⟨fun _ => ⟨h0, rfl, hremoved⟩, fun _ => rfl⟩

theorem visited_section (hk : Keyed cfg) {pfx name : CString}
    (h : name ∈ rssConfigForeachSection pfx cfg) :
    (sectionAt (foldCase name.chars) cfg).isSome := by
  obtain ⟨s, hs, rfl⟩ := List.mem_map.mp h
  have hfetch := fetch_of_mem hk.sections (List.mem_of_mem_filter hs)
  exact Option.isSome_of_eq_some hfetch

theorem section_visited {s : Bytes} {x : ConfigSection} (hs : sectionAt s cfg = some x)
    (hflag : (flagsAt s cfg).1 = false) :
    ∃ name ∈ rssConfigForeachSection (CString.at []) cfg, foldCase name.chars = s := by
  have hremoved : x.removed = false := by
    rw [flagsAt, hs] at hflag
    exact hflag
  have hname : foldCase x.name.str.chars = s := show sectionKey x = s from fetch_key hs
  refine ⟨x.name.str, List.mem_map.mpr ⟨x, List.mem_filter.mpr ⟨fetch_mem hs, ?_⟩, rfl⟩, hname⟩
  rw [decide_eq_true_eq]
  exact ⟨rfl, hremoved⟩

theorem section_after_use (use : ConfigSection → ConfigSection) (hk : Keyed cfg) (hs : Fits sec)
    (hu : ∀ x, sectionKey (use x) = sectionKey x) (s : Bytes) :
    (sectionAt s (findOrCreateSection sec use cfg)).isSome ↔
      s = foldCase sec.chars ∨ (sectionAt s cfg).isSome := by
  rw [section_at_use hk hs hu]
  by_cases h : s = foldCase sec.chars
  · rw [if_pos h]
    exact ⟨fun _ => Or.inl h, fun _ => rfl⟩
  · rw [if_neg h]
    exact ⟨Or.inr, fun h' => h'.resolve_left h⟩

theorem section_after_get (hk : Keyed cfg) (hs : Fits sec) (t : CString) (s : Bytes) :
    (sectionAt s (rssConfigGetStr sec key (some t) cfg).2).isSome ↔
      s = foldCase sec.chars ∨ (sectionAt s cfg).isSome := by
  unfold rssConfigGetStr
  cases hv : lookupValue sec key cfg with
  | some v =>
    have hsec : (sectionAt (foldCase sec.chars) cfg).isSome := by
      rw [lookup_value hk, entryAt] at hv
      cases h : sectionAt (place sec key).1 cfg with
      | none =>
        rw [h] at hv
        cases hv
      | some x => exact Option.isSome_of_eq_some h
    constructor
    · exact Or.inr
    · rintro (rfl | h)
      · exact hsec
      · exact h
  | none =>
    exact section_after_use (addEntryDefault key t) hk hs (fun _ => rfl) s

theorem section_after_set (hk : Keyed cfg) (hs : Fits sec) (v : CString) (s : Bytes) :
    (sectionAt s (rssConfigSetStr sec key v cfg)).isSome ↔
      (sec.chars ≠ [] ∧ s = foldCase sec.chars) ∨ (sectionAt s cfg).isSome := by
  unfold rssConfigSetStr
  by_cases h0 : sec.chars = []
  · rw [if_pos h0]
    exact ⟨Or.inr, fun h => h.resolve_left (fun h' => h'.1 h0)⟩
  · have hadd := section_after_use
      (fun x => addEntryEx key v true false (reviveSection x)) hk hs (fun _ => rfl) s
    rw [if_neg h0, hadd]
    exact ⟨fun h => h.imp_left (fun hc => ⟨h0, hc⟩), fun h => h.imp_left And.right⟩

theorem section_after_put {x : ConfigSection} {j : Bytes} (hx : sectionKey x = j) (s : Bytes) :
    (sectionAt s (put sectionKey j x cfg)).isSome = (sectionAt s cfg).isSome := by
  rw [sectionAt, fetch_put hx]
  by_cases h : s = j
  · rw [if_pos h, h, Option.isSome_map]
  · rw [if_neg h]

theorem section_after_unset (hk : Keyed cfg) (s : Bytes) :
    (sectionAt s (rssConfigUnset sec key cfg).2).isSome = (sectionAt s cfg).isSome := by
  rcases unset_cases hk sec key with ⟨-, hu⟩ | ⟨x, e, hx, -, hu⟩
  · rw [hu]
  · have hkey : sectionKey { x with
        entries := put entryKey (foldCase key.chars) (removeEntry e) x.entries } =
      foldCase sec.chars := show sectionKey x = _ from fetch_key hx
    rw [hu]
    exact section_after_put hkey s

theorem section_after_remove (hk : Keyed cfg) (s : Bytes) :
    (sectionAt s (rssConfigRemoveSection sec cfg).2).isSome = (sectionAt s cfg).isSome := by
  rcases remove_cases hk sec with ⟨-, hr⟩ | ⟨x, -, hx, -, hr⟩
  · rw [hr]
  · rw [hr]
    exact section_after_put (emptied_key hx) s

theorem section_after_clear (s : Bytes) :
    (sectionAt s (clearDirty cfg)).isSome = (sectionAt s cfg).isSome := by
  rw [sectionAt, clearDirty, fetch_map clean_section_key]
  exact Option.isSome_map

end Sections

section Tracking

structure Tracked (h : History) (cfg : Config) : Prop where
  known : ∀ s, (sectionAt s cfg).isSome = h.configured s
  held : ∀ s, h.present s = (h.configured s && !(flagsAt s cfg).1)

variable {longMax : ℕ} {cfg : Config} {sec key : CString} {h : History}

theorem faithful_of_tracked (hk : Keyed cfg) (ht : Tracked h cfg) : Faithful h cfg := by
  have hanswer : ∀ sec, sec.chars ≠ [] →
      (rssConfigRemoveSection sec cfg).1 = h.present (foldCase sec.chars) := by
    intro sec h0
    rw [Bool.eq_iff_iff, remove_answer hk, ht.known, ht.held, Bool.and_eq_true, Bool.not_eq_true']
    exact ⟨And.right, fun hc => ⟨h0, hc⟩⟩
  have habsent : ∀ sec : CString, h.configured (foldCase sec.chars) = false →
      (rssConfigRemoveSection sec cfg).1 = false := by
    intro sec hc
    rw [Bool.eq_false_iff, ne_eq, remove_answer hk, ht.known, hc]
    rintro ⟨-, h', -⟩
    cases h'
  constructor
  case answer => exact hanswer
  case refused =>
    intro sec hc
    have hr := habsent sec hc
    rw [(remove_not_found hk hr).1]
    exact ⟨hr, rfl⟩
  case unvisited =>
    intro sec hc pfx name hname hsame
    have hsec := visited_section hk hname
    rw [hsame, ht.known, hc] at hsec
    cases hsec

theorem tracked_get (hk : Keyed cfg) (hs : Fits sec) (d : Option CString)
    (hlook : ∀ t, d = some t → h.configured (foldCase sec.chars) = true) (ht : Tracked h cfg) :
    Tracked h (rssConfigGetStr sec key d cfg).2 where
  known s := by
    cases d with
    | none =>
      unfold rssConfigGetStr
      cases lookupValue sec key cfg <;> exact ht.known s
    | some t =>
      rw [Bool.eq_iff_iff, section_after_get hk hs, ht.known]
      constructor
      · rintro (rfl | hc)
        · exact hlook t rfl
        · exact hc
      · exact Or.inr
  held s := by
    rw [get_str_flags hk hs]
    exact ht.held s

theorem tracked_set {v : CString} {op : Op} (hk : Keyed cfg) (hs : Fits sec)
    (hop : normal op = .setStr sec key v) (ht : Tracked h cfg) :
    Tracked (h.record op) (rssConfigSetStr sec key v cfg) := by
  rw [History.record, hop]
  dsimp only
  by_cases h0 : sec.chars = []
  · rw [if_pos h0, rssConfigSetStr, if_pos h0]
    exact ht
  · rw [if_neg h0]
    constructor
    case known =>
      intro s
      rw [Bool.eq_iff_iff, section_after_set hk hs, ht.known]
      by_cases hq : s = foldCase sec.chars
      · simp [hq, h0]
      · simp [hq]
    case held =>
      intro s
      rw [flags_at_set hk hs]
      by_cases hq : s = foldCase sec.chars
      · simp [hq, h0]
      · simp [hq, ht.held s]

theorem tracked_unset (hk : Keyed cfg) (ht : Tracked h cfg) :
    Tracked h (rssConfigUnset sec key cfg).2 where
  known s := by rw [section_after_unset hk, ht.known]
  held s := by rw [flags_at_unset hk, ht.held]

theorem tracked_remove {op : Op} (hk : Keyed cfg) (hop : normal op = .removeSection sec)
    (ht : Tracked h cfg) : Tracked (h.record op) (rssConfigRemoveSection sec cfg).2 := by
  rw [History.record, hop]
  dsimp only
  by_cases h0 : sec.chars = []
  · rw [if_pos h0, rssConfigRemoveSection, if_pos h0]
    exact ht
  · rw [if_neg h0]
    constructor
    case known =>
      intro s
      rw [section_after_remove hk, ht.known]
    case held =>
      intro s
      have hfound (hc : h.configured (foldCase sec.chars) = true)
          (hf : (flagsAt (foldCase sec.chars) cfg).1 = false) :
          (rssConfigRemoveSection sec cfg).1 = true :=
        (remove_answer hk).mpr ⟨h0, (ht.known _).trans hc, hf⟩
      rw [flags_at_remove hk]
      show Function.update h.present (foldCase sec.chars) false s = (h.configured s && _)
      by_cases hq : s = foldCase sec.chars
      · -- found or not, what is left of the section is not present
        rw [hq, Function.update_self]
        cases hc : h.configured (foldCase sec.chars) with
        | false => rfl
        | true =>
          cases hf : (flagsAt (foldCase sec.chars) cfg).1 with
          | true =>
            split
            next => rfl
            next =>
              rw [hf]
              rfl
          | false =>
            rw [if_pos ⟨hfound hc hf, rfl⟩]
            rfl
      · rw [Function.update_of_ne hq, if_neg (fun hc => hq hc.2)]
        exact ht.held s

theorem tracked_clear (ht : Tracked h cfg) : Tracked h (clearDirty cfg) where
  known s := by rw [section_after_clear, ht.known]
  held s := by rw [flags_at_clear, ht.held]

theorem record_get {op : Op} {d : Option CString} (hop : normal op = .getStr sec key d) :
    h.record op = h := by rw [History.record, hop]

theorem record_unset {op : Op} (hop : normal op = .unset sec key) : h.record op = h := by
  rw [History.record, hop]

theorem record_quiet {op : Op} (hop : Quiet op) : h.record op = h := by
  cases op <;> first | rfl | exact hop.elim

theorem tracked_step {op : Op} (hk : Keyed cfg) (hn : NamesFit op) (hlook : LooksKnown h op)
    (ht : Tracked h cfg) : Tracked (h.record op) (step longMax cfg op).2 := by
  have hc := step_change longMax cfg op
  generalize (step longMax cfg op).2 = after at hc ⊢
  cases hc with
  | get sec key d hop =>
    have hfit := normal_fits hn hop
    rw [record_get hop]
    refine tracked_get hk (hfit sec (by simp [opNames])) d ?_ ht
    rintro t rfl
    exact hlook sec key t hop
  | set sec key v hop =>
    have hfit := normal_fits hn hop
    exact tracked_set hk (hfit sec (by simp [opNames])) hop ht
  | unset sec key hop =>
    rw [record_unset hop]
    exact tracked_unset hk ht
  | remove sec hop => exact tracked_remove hk hop ht
  | settle hop =>
    rw [record_quiet hop]
    exact tracked_clear ht
  | same hop =>
    rw [record_quiet hop]
    exact ht

end Tracking

section Loading

theorem sections_loaded {st : LoadState} {mem : Bytes × Settings Bytes Bytes Bytes}
    (lines : List Line) (h : Loaded st mem)
    (hf : ∀ line ∈ lines, ∀ name ∈ lineNames line, name.length ≤ 63)
    (hz : ∀ line ∈ lines, ∀ t ∈ lineTexts line, 0 ∉ t) (s : Bytes) :
    (sectionAt s (lines.foldl loadParsed st).cfg).isSome ↔
      s ∈ boundSections mem.1 lines ∨ (sectionAt s st.cfg).isSome := by
  induction lines generalizing st mem with
  | nil => simp [boundSections]
  | cons line lines ih =>
    have hstep := loaded_step h (hf line (by simp)) (hz line (by simp))
    rw [List.foldl_cons, ih hstep (fun l hl => hf l (by simp [hl])) (fun l hl => hz l (by simp [hl]))]
    cases line with
    | ignored => rfl
    | header name => rfl
    | binding key value =>
      have hfits : Fits st.current.str := st.current.fits
      have hadd := section_after_use (addEntry (CString.at key) (CString.at value)) h.keyed
        hfits (fun _ => rfl) s
      have hcur : foldCase st.current.str.chars = mem.1 := h.current
      rw [hcur] at hadd
      show _ ∨ (sectionAt s (findOrCreateSection st.current.str _ st.cfg)).isSome ↔ _
      rw [hadd, boundSections, List.mem_cons]
      show s ∈ boundSections mem.1 lines ∨ _ ↔ _
      tauto

theorem tracked_load {text : Bytes} (hf : FileFits text) :
    Tracked (fileHistory text) (rssConfigLoad text) := by
  have hknown : ∀ s, (sectionAt s (rssConfigLoad text)).isSome = (fileHistory text).configured s := by
    intro s
    have h := sections_loaded (fileLines text) loaded_start hf (fun _ hl => file_line_nul_free hl) s
    rw [← load_file_lines] at h
    rw [Bool.eq_iff_iff, h]
    simp [fileHistory, loadStart, sectionAt, fetch]
  refine ⟨hknown, fun s => ?_⟩
  rw [load_file_lines, (loaded_file hf).unflagged]
  exact (Bool.and_true _).symm

end Loading

section Runs

variable {longMax : ℕ} {text : Bytes} {ops : List Op}

theorem history_snoc (text : Bytes) (before : List Op) (op : Op) :
    history text (before++[op]) = (history text before).record op := by
  rw [history, List.foldl_append]
  rfl

theorem tracked_run (hf : FileFits text) (hn : ∀ op ∈ ops, NamesFit op)
    (hlook : ∀ before op, before++[op] <+: ops → LooksKnown (history text before) op) :
    Tracked (history text ops) (run longMax (rssConfigLoad text) ops) := by
  refine run_rec (P := fun before cfg => Tracked (history text before) cfg) (load_sound hf) hn
    (tracked_load hf) ?_
  intro before op hpre hsound hfit ht
  rw [history_snoc]
  exact tracked_step hsound.toKeyed hfit (hlook before op hpre) ht

theorem looks_known_of_faithful {cfg : Config} {h : History} {op : Op} (hs : Sound cfg)
    (hn : NamesFit op) (ht : Tracked h cfg)
    (hafter : Faithful (h.record op) (step longMax cfg op).2) : LooksKnown h op := by
  intro sec key t hop
  by_contra hunknown
  rw [Bool.not_eq_true] at hunknown
  have hfit : Fits sec := normal_fits hn hop sec (by simp [opNames])
  have hcfg : (step longMax cfg op).2 = (rssConfigGetStr sec key (some t) cfg).2 := by
    rw [← step_normal, hop]
    rfl
  rw [hcfg, record_get hop] at hafter
  have hmade : (sectionAt (foldCase sec.chars) (rssConfigGetStr sec key (some t) cfg).2).isSome :=
    (section_after_get hs.toKeyed hfit t (foldCase sec.chars)).mpr (Or.inl rfl)
  obtain ⟨x, hx⟩ := Option.isSome_iff_exists.mp hmade
  have hstays : (flagsAt (foldCase sec.chars) (rssConfigGetStr sec key (some t) cfg).2).1 = false := by
    have hnone := ht.known (foldCase sec.chars)
    rw [hunknown, Option.isSome_eq_false_iff, Option.isNone_iff_eq_none] at hnone
    rw [get_str_flags hs.toKeyed hfit, flagsAt, hnone]
    rfl
  obtain ⟨name, hvisit, hname⟩ := section_visited hx hstays
  exact hafter.unvisited sec hunknown _ name hvisit hname

/-- Removal and the section walk know the configured sections and no others
along a run exactly when every lookup that would store a default names a
configured section. -/
theorem sections_faithful_iff (longMax : ℕ) (text : Bytes) (ops : List Op) (hf : FileFits text)
    (hn : ∀ op ∈ ops, NamesFit op) :
    (∀ before, before <+: ops →
      Faithful (history text before) (run longMax (rssConfigLoad text) before)) ↔
    ∀ before op, before++[op] <+: ops → LooksKnown (history text before) op := by
  constructor
  · intro hfaithful
    induction ops using List.reverseRecOn with
    | nil =>
      intro before op hpre
      have hlen := hpre.length_le
      simp at hlen
    | append_singleton ops last ih =>
      have hfit : ∀ op ∈ ops, NamesFit op := fun o ho => hn o (List.mem_append_left _ ho)
      have hearlier := ih hfit
        (fun before hpre => hfaithful before (hpre.trans (List.prefix_append ops [last])))
      intro before op hpre
      rcases List.prefix_concat_iff.mp hpre with hlast | hpre
      · obtain ⟨rfl, rfl⟩ := List.append_singleton_inj.mp hlast
        have hafter := hfaithful (before++[op]) List.prefix_rfl
        rw [history_snoc, run_snoc] at hafter
        exact looks_known_of_faithful (sound_run (load_sound hf) hfit) (hn op (by simp))
          (tracked_run hf hfit hearlier) hafter
      · exact hearlier before op hpre
  · intro hlook before hpre
    have hfit : ∀ op ∈ before, NamesFit op := fun op ho => hn op (hpre.subset ho)
    exact faithful_of_tracked (sound_run (load_sound hf) hfit).toKeyed
      (tracked_run hf hfit (fun b op hb => hlook b op (hb.trans hpre)))

/-- A section that is read and then removed by its reader. -/
theorem sections_faithful_sample :
    let text := ascii "[osd]\nk = 1\n"
    let ops : List Op := [.getInt (literal "OSD") (literal "size") 24, .removeSection (literal "osd")]
    ∀ before, before <+: ops →
      Faithful (history text before) (run 2147483647 (rssConfigLoad text) before) := by
  intro text ops
  refine (sections_faithful_iff 2147483647 text ops (by decide +kernel) (by decide)).mpr ?_
  intro before op hpre sec key t hop
  have hops : ops = [ops[0]]++[ops[1]] := rfl
  rw [hops] at hpre
  rcases List.prefix_concat_iff.mp hpre with hlast | hpre
  · obtain ⟨-, rfl⟩ := List.append_singleton_inj.mp hlast
    cases hop
  · have hone : [ops[0]] = []++[ops[0]] := rfl
    rw [hone] at hpre
    rcases List.prefix_concat_iff.mp hpre with hfirst | hpre
    · obtain ⟨rfl, rfl⟩ := List.append_singleton_inj.mp hfirst
      cases hop
      decide +kernel
    · have hlen := hpre.length_le
      simp at hlen

/-- A getter with a default makes a section of nothing, and its removal
succeeds. -/
theorem section_looked_up :
    let op : Op := .getInt (literal "osd") (literal "size") 24
    FileFits [] ∧ NamesFit op ∧
      (rssConfigRemoveSection (literal "osd") (run 2147483647 (rssConfigLoad []) [op])).1 = true ∧
      ¬Faithful (history [] [op]) (run 2147483647 (rssConfigLoad []) [op]) := by
  intro op
  have hremoved : (rssConfigRemoveSection (literal "osd")
      (run 2147483647 (rssConfigLoad []) [op])).1 = true := by decide +kernel
  refine ⟨by decide, by decide, hremoved, ?_⟩
  intro h
  have hanswer := h.answer (literal "osd") (by decide)
  rw [hremoved] at hanswer
  revert hanswer
  decide +kernel

end Runs

end RaptorCommon.ConfigSections
