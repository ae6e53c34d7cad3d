import RaptorCommon.ConfigPending

/-!
# A save edits in what the config owes

Whatever the file has become since it was loaded, saving into it changes the
answers of the places the config has changes for, and of no others.
-/

set_option autoImplicit false

namespace RaptorCommon.ConfigSaving
open RaptorCommon.CText RaptorCommon.ConfigStore RaptorCommon.ConfigLoader
open RaptorCommon.ConfigWriter RaptorCommon.ConfigSave RaptorCommon.ConfigEditor
open RaptorCommon.ConfigSettings RaptorCommon.ConfigGrammar RaptorCommon.ConfigInvariant
open RaptorCommon.ConfigMap RaptorCommon.ConfigBinding RaptorCommon.ConfigLineView
open RaptorCommon.ConfigRevision RaptorCommon.ConfigEditedText RaptorCommon.ConfigPending

section Owing

def owedEntry (e : ConfigEntry) : Option (Option Bytes) :=
  if e.dirty then some (if e.removed then none else some e.value.chars) else none

/-- What a config owes its file at a place: nothing, the absence of a value,
or a value. -/
def owed (cfg : Config) (q : Place) : Option (Option Bytes) :=
  if flagsAt q.1 cfg = (true, true) then some none else (entryAt q cfg).bind owedEntry

/-- What a save that could read its file leaves there: the edited text, or the
file as it was where nothing is pending. -/
def EditedOrKept (cfg : Config) (text text' : Bytes) : Prop :=
  text' = editedText (collectDirty cfg) text ∨ collectDirty cfg = [] ∧ text' = text

variable {cfg : Config} {A : Place → Bytes → Prop} {text text' : Bytes}

theorem owed_none (hk : Keyed cfg) {q : Place} (h : owed cfg q = none) :
    leavingIn (collectDirty cfg) q.1 = false ∧ goneIn (collectDirty cfg) q = false ∧
      ∀ d ∈ collectDirty cfg, ∀ e ∈ d.ent, (foldCase d.sec.chars, entryKey e) ≠ q := by
  unfold owed at h
  split at h
  · cases h
  next hf =>
    have hclean : ∀ e, entryAt q cfg = some e → e.dirty = false := by
      intro e he
      rw [he] at h
      by_contra hd
      simp [owedEntry, show e.dirty = true by simpa using hd] at h
    refine ⟨?_, ?_, fun d hd e he heq => ?_⟩
    · by_contra hl
      exact hf ((dirty_leaving hk q.1).mp (by simpa using hl))
    · by_contra hg
      obtain ⟨e, he, hd, -⟩ := (dirty_gone hk q).mp (by simpa using hg)
      rw [hclean e he] at hd
      cases hd
    · obtain ⟨hat, hdirty⟩ := (dirty_entry hk q e).mp ⟨d, hd, he, heq⟩
      rw [hclean e hat] at hdirty
      cases hdirty

theorem owed_absent (hk : Keyed cfg) {q : Place} (h : owed cfg q = some none) :
    leavingIn (collectDirty cfg) q.1 = true ∨ goneIn (collectDirty cfg) q = true := by
  unfold owed at h
  split at h
  next hf => exact Or.inl ((dirty_leaving hk q.1).mpr hf)
  next =>
    cases he : entryAt q cfg with
    | none => rw [he] at h; cases h
    | some e =>
      rw [he] at h
      cases hd : e.dirty <;> cases hr : e.removed <;> simp [owedEntry, hd, hr] at h
      exact Or.inr ((dirty_gone hk q).mpr ⟨e, he, hd, hr⟩)

theorem owed_value (hk : Keyed cfg) {q : Place} {v : Bytes} (h : owed cfg q = some (some v)) :
    ∃ d ∈ collectDirty cfg, ∃ e ∈ d.ent, e.removed = false ∧
      (foldCase d.sec.chars, entryKey e) = q ∧ e.value.chars = v := by
  unfold owed at h
  split at h
  · cases h
  · cases he : entryAt q cfg with
    | none => rw [he] at h; cases h
    | some e =>
      rw [he] at h
      cases hd : e.dirty <;> cases hr : e.removed <;> simp [owedEntry, hd, hr] at h
      obtain ⟨d, hmem, hde, hq⟩ := (dirty_entry hk q e).mpr ⟨he, hd⟩
      exact ⟨d, hmem, e, hde, hr, hq, h⟩

theorem nothing_dirty (hk : Keyed cfg) (h : collectDirty cfg = []) (q : Place) :
    owed cfg q = none := by
  cases ho : owed cfg q with
  | none => rfl
  | some o =>
    cases o with
    | none =>
      have hn := owed_absent hk ho
      simp [h, leavingIn, goneIn] at hn
    | some v =>
      obtain ⟨d, hd, -⟩ := owed_value hk ho
      simp [h] at hd

theorem nothing_owed (hk : Keyed cfg) (h : ∀ q, owed cfg q = none) : collectDirty cfg = [] := by
  refine List.eq_nil_iff_forall_not_mem.mpr fun d hd => ?_
  cases he : d.ent with
  | none =>
    have hleaving : leavingIn (collectDirty cfg) (foldCase d.sec.chars) = true :=
      List.any_eq_true.mpr ⟨d, hd, by simp [he, inSection]⟩
    have ho := h (foldCase d.sec.chars, [])
    rw [owed, if_pos ((dirty_leaving hk _).mp hleaving)] at ho
    cases ho
  | some e =>
    obtain ⟨hat, hdirty⟩ := (dirty_entry hk _ e).mp ⟨d, hd, he, rfl⟩
    have ho := h (foldCase d.sec.chars, entryKey e)
    unfold owed at ho
    split at ho
    · cases ho
    · simp [hat, owedEntry, hdirty] at ho

theorem clear_owes (cfg : Config) (q : Place) : owed (clearDirty cfg) q = none := by
  rw [owed, flags_at_clear, if_neg (by simp), entry_at_clear]
  cases entryAt q cfg <;> rfl

theorem owed_unflagged {q : Place} (h : flagsAt q.1 cfg = (false, false)) :
    owed cfg q = (entryAt q cfg).bind owedEntry := by
  rw [owed, h, if_neg (by decide)]

theorem fresh_owes {cfg : Config} (hf : ∀ s, flagsAt s cfg = (false, false))
    (h : Holds Fresh cfg) (q : Place) : owed cfg q = none := by
  rw [owed_unflagged (hf q.1)]
  cases he : entryAt q cfg with
  | none => rfl
  | some e => simp [owedEntry, (h q e he).1]

theorem load_unflagged {text : Bytes} (hf : FileFits text) (s : Bytes) :
    flagsAt s (rssConfigLoad text) = (false, false) := by
  rw [load_file_lines]
  exact (loaded_file hf).unflagged s

theorem owed_set {cfg : Config} {sec key : CString} (value : CString) (hs : Sound cfg)
    (hun : ∀ s, flagsAt s cfg = (false, false)) (hsec : Fits sec) (hkey : Fits key)
    (hne : sec.chars ≠ []) (q : Place) :
    owed (rssConfigSetStr sec key value cfg) q = if q = place sec key
      then some (some (value.chars.take (maxVal-1))) else owed cfg q := by
  have hflags : flagsAt q.1 (rssConfigSetStr sec key value cfg) = (false, false) := by
    rw [flags_at_set hs.toKeyed hsec]
    split
    · rfl
    · exact hun q.1
  rw [owed_unflagged hflags, owed_unflagged (hun q.1), entry_at_set hs.toKeyed hsec hkey]
  by_cases hq : q = place sec key
  · rw [if_pos ⟨hne, hq⟩, if_pos hq]
    cases entryAt q cfg <;> simp [owedEntry, stored, newEntry, overwriteEntry, rssStrlcpy]
  · rw [if_neg (fun h => hq h.2), if_neg hq]

structure Legible (q : Place) (v : Bytes) : Prop where
  key_nonempty : q.2 ≠ []
  value : PlainValue v
  nonempty : v ≠ []

structure Settled (cfg : Config) (text text' : Bytes) : Prop where
  nul_free : 0 ∉ text'
  fits : FileFits text'
  kept : ∀ q, owed cfg q = none → loadedMap text' q = loadedMap text q
  absent : ∀ q, owed cfg q = some none → loadedMap text' q = none
  written : ∀ q v, owed cfg q = some (some v) → Legible q v → loadedMap text' q = some v

theorem saved_settled (hs : Sound cfg) (hp : Holds (Pending A) cfg)
    (hA : ∀ q v, A q v → Enterable q v) (hz : 0 ∉ text) (hf : FileFits text)
    (h : EditedOrKept cfg text text') : Settled cfg text text' := by
  have hk := hs.toKeyed
  rcases h with rfl | ⟨h0, rfl⟩
  · have hr := edited_revised (dirty_orderly hs hp hA) dirty_new hz hf
    refine ⟨hr.nul_free, hr.fits, fun q hq => ?_, fun q hq => ?_, fun q v hq hv => ?_⟩
    · obtain ⟨h1, h2, h3⟩ := owed_none hk hq
      exact hr.frame q h1 h2 fun d hd e he _ => h3 d hd e he
    · exact hr.erased q (owed_absent hk hq)
    · obtain ⟨d, hd, e, he, hrem, rfl, rfl⟩ := owed_value hk hq
      refine hr.live d hd e he hrem ⟨fun h0 => hv.key_nonempty ?_, hv.value, hv.nonempty⟩
      show entryKey e = []
      rw [entryKey, h0]
      rfl
  · have hnone := nothing_dirty hk h0
    refine ⟨hz, hf, fun _ _ => rfl, fun q hq => ?_, fun q v hq => ?_⟩
    all_goals
      rw [hnone] at hq
      cases hq

/-- With these answers the whole config is written over the file that is
there. -/
def Rewrites (env : SaveEnv) (cfg : Config) : Prop :=
  env.readOk = false ∧ (collectDirty cfg = [] → env.accessOk = false) ∧
    (collectDirty cfg ≠ [] → env.refsAlloc = true) ∧ (cfg = [] ∨ env.buildOk = true) ∧
    env.writeOk = true

def Edits (env : SaveEnv) : Prop :=
  env.refsAlloc = true ∧ env.readOk = true ∧ env.buildOk = true ∧ env.writeOk = true

inductive SaveEnd (env : SaveEnv) (cfg : Config) (text : Bytes) : SaveResult → Prop where
  | failed (h : ¬Rewrites env cfg) : SaveEnd env cfg text ⟨-1, cfg, some text⟩
  | settled {cfg' : Config} {text' : Bytes} (h : ¬Rewrites env cfg)
      (hedits : collectDirty cfg ≠ [] → Edits env) (hfile : EditedOrKept cfg text text')
      (hcfg : cfg' = clearDirty cfg ∨ collectDirty cfg = [] ∧ cfg' = cfg) :
      SaveEnd env cfg text ⟨0, cfg', some text'⟩
  | rewritten (h : Rewrites env cfg) :
      SaveEnd env cfg text ⟨0, clearDirty cfg, some (configText cfg)⟩

theorem save_end (env : SaveEnv) (cfg : Config) (text : Bytes) :
    SaveEnd env cfg text (rssConfigSave env cfg (some text)) := by
  unfold rssConfigSave
  dsimp only
  split_ifs with hrefs hidle hread
  · refine .failed fun hw => ?_
    rw [hw.2.2.1 hrefs.1] at hrefs
    cases hrefs.2
  · refine .settled (fun hw => ?_) (fun hd => absurd hidle.1 hd) (.inr ⟨hidle.1, rfl⟩)
      (.inr ⟨hidle.1, rfl⟩)
    rw [hw.2.1 hidle.1] at hidle
    cases hidle.2.1
  · have hno : ¬Rewrites env cfg := fun hw => Bool.false_ne_true (hw.1.symm.trans hread)
    simp only [configWriteSurgical]
    cases hgo : env.buildOk && env.writeOk with
    | true =>
      obtain ⟨hbuild, hwrite⟩ := Bool.and_eq_true_iff.mp hgo
      refine .settled hno (fun hd => ⟨?_, hread, hbuild, hwrite⟩) (.inl rfl) (.inl rfl)
      by_contra hr
      exact hrefs ⟨hd, by simpa using hr⟩
    | false => exact .failed hno
  · simp only [configWrite]
    by_cases hw : (cfg = [] ∨ env.buildOk = true) ∧ env.writeOk = true
    · rw [if_pos hw]
      refine .rewritten ⟨by simpa using hread, fun h0 => ?_, fun h0 => ?_, hw.1, hw.2⟩
      · by_contra ha
        exact hidle ⟨h0, by simpa using ha, rfl⟩
      · by_contra hr
        exact hrefs ⟨h0, by simpa using hr⟩
    · rw [if_neg hw]
      exact .failed fun h => hw h.2.2.2

theorem read_settles {env : SaveEnv} (h : env.readOk = true) (cfg : Config) : ¬Rewrites env cfg :=
  fun hw => Bool.false_ne_true (hw.1.symm.trans h)

theorem save_edits {env : SaveEnv} (h : Edits env) (hd : collectDirty cfg ≠ []) :
    rssConfigSave env cfg (some text) =
      ⟨0, clearDirty cfg, some (editedText (collectDirty cfg) text)⟩ := by
  obtain ⟨hrefs, hread, hbuild, hwrite⟩ := h
  simp [rssConfigSave, configWriteSurgical, hd, hrefs, hread, hbuild, hwrite]

theorem save_rewrites {env : SaveEnv} (h : Rewrites env cfg) :
    rssConfigSave env cfg (some text) = ⟨0, clearDirty cfg, some (configText cfg)⟩ := by
  have hend := save_end env cfg text
  generalize rssConfigSave env cfg (some text) = saved at hend ⊢
  cases hend with
  | failed hno => exact absurd h hno
  | settled hno _ _ _ => exact absurd h hno
  | rewritten _ => rfl

end Owing

section Runs

structure GoodNames (s k : CString) : Prop where
  sec : SectionName s.chars
  key : KeyText k.chars
  key_nonempty : k.chars ≠ []

structure GoodValue (v : CString) : Prop where
  value : PlainValue v.chars
  nonempty : v.chars ≠ []
  fits : v.chars.length ≤ 255

def GoodOp : Op → Prop
  | .setStr sec key value => GoodNames sec key ∧ GoodValue value
  | .setInt sec key _ | .setBool sec key _ => GoodNames sec key
  | _ => True

def SolidText (v : Bytes) : Prop := ∀ c ∈ v, isSpace c = false ∧ c ≠ hashMark

instance (v : Bytes) : Decidable (SolidText v) := List.decidableBAll _ v

theorem plain_of_solid {v : Bytes} (h : SolidText v) : PlainValue v where
  trimmed := by
    have hlead : v.dropWhile isSpace = v := by
      cases v with
      | nil => rfl
      | cons c v => simp [(h c (by simp)).1]
    rw [Trimmed, rssTrim, hlead]
    rcases List.eq_nil_or_concat v with rfl | ⟨w, c, rfl⟩
    · rfl
    · have := rdropWhile_solid isSpace w [] c (h c (by simp)).1
      simpa using this
  no_marker a b c hv := absurd rfl (h hashMark (by simp [hv])).2
  no_newline hn := absurd (h newline hn).1 (by decide)

theorem decimal_good (n : ℤ) : GoodValue (decimal n) where
  value := plain_of_solid fun c hc => by
    rcases decimal_chars n c hc with rfl | ⟨d, hd, rfl⟩
    · decide
    · interval_cases d <;> decide
  nonempty h := by
    have h : decimalText n = [] := h
    unfold decimalText at h
    rw [List.take_eq_nil_iff] at h
    rcases h with h | h
    · cases h
    · rw [List.append_eq_nil_iff] at h
      by_cases h0 : n = 0
      · simp [h0] at h
      · have hd : Nat.digits 10 n.natAbs ≠ [] := Nat.digits_ne_nil_iff_ne_zero.mpr (by omega)
        simp [h0] at h
  fits := by
    have : (decimalText n).length ≤ 31 := List.length_take_le ..
    exact this.trans (by decide)

theorem bool_good (b : Bool) : GoodValue (boolText b) where
  value := plain_of_solid (by cases b <;> decide)
  nonempty := by cases b <;> decide
  fits := by cases b <;> decide

def Writable (q : Place) (v : Bytes) : Prop := Enterable q v ∧ Legible q v

theorem good_writable {sec key v : CString} (hn : GoodNames sec key) (hv : GoodValue v) :
    Writable (place sec key) (v.chars.take (maxVal-1)) := by
  have hfit : v.chars.take (maxVal-1) = v.chars := List.take_of_length_le hv.fits
  rw [hfit]
  refine ⟨⟨section_name_fold.mpr hn.sec, key_text_fold.mpr hn.key, contained_line hv.value.no_newline⟩,
    fun h0 => hn.key_nonempty (List.map_eq_nil_iff.mp h0), hv.value, hv.nonempty⟩

theorem good_writes {op : Op} (h : GoodOp op) :
    Writes (fun sec key v => Writable (place sec key) (v.chars.take (maxVal-1))) op := by
  cases op with
  | setStr sec key v => exact good_writable h.1 h.2
  | setInt sec key n => exact good_writable h (decimal_good n)
  | setBool sec key b => exact good_writable h (bool_good b)
  | _ => trivial

theorem fresh_pending {A : Place → Bytes → Prop} {cfg : Config} (h : Holds Fresh cfg) :
    Holds (Pending A) cfg := by
  intro q e he hd
  rw [(h q e he).1] at hd
  cases hd

theorem run_pending (longMax : ℕ) {start : Bytes} {ops : List Op} (hf : FileFits start)
    (hn : ∀ op ∈ ops, NamesFit op) (hg : ∀ op ∈ ops, GoodOp op) :
    Holds (Pending Writable) (run longMax (rssConfigLoad start) ops) :=
  kept_run (pending_kept Writable) (load_sound hf) hn (fun op ho => good_writes (hg op ho))
    (fresh_pending (load_fresh hf))

def fileAnswer (text : Bytes) (sec key : CString) : Option Bytes :=
  (rssConfigGetStr sec key none (rssConfigLoad text)).1.map CString.chars

theorem file_answer {text : Bytes} (hf : FileFits text) (sec key : CString) :
    fileAnswer text sec key = loadedMap text (place sec key) := by
  rw [fileAnswer, (get_str_none (load_sound hf) sec key).1, load_settings hf]

theorem owed_writable {cfg : Config} (hp : Holds (Pending Writable) cfg) {q : Place} {v : Bytes}
    (h : owed cfg q = some (some v)) : Legible q v := by
  unfold owed at h
  split at h
  · cases h
  · cases he : entryAt q cfg with
    | none => rw [he] at h; cases h
    | some e =>
      rw [he] at h
      cases hd : e.dirty <;> cases hr : e.removed <;> simp [owedEntry, hd, hr] at h
      rw [← h]
      exact (hp q e he hd hr).2.2

/-- A save that succeeds without rewriting the file settles what the config
owes and leaves every other answer of the file, whatever the file is by now. -/
theorem run_settles (longMax : ℕ) {start text text' : Bytes} {ops : List Op}
    (hstart : FileFits start) (hn : ∀ op ∈ ops, NamesFit op) (hg : ∀ op ∈ ops, GoodOp op)
    (hz : 0 ∉ text) (hf : FileFits text)
    (h : EditedOrKept (run longMax (rssConfigLoad start) ops) text text') (sec key : CString) :
    fileAnswer text' sec key = (owed (run longMax (rssConfigLoad start) ops)
      (place sec key)).getD (fileAnswer text sec key) := by
  have hp := run_pending longMax hstart hn hg
  have hs := saved_settled (sound_run (load_sound hstart) hn) hp (fun q v h => h.1) hz hf h
  rw [file_answer hs.fits, file_answer hf]
  cases ho : owed (run longMax (rssConfigLoad start) ops) (place sec key) with
  | none => exact hs.kept _ ho
  | some o =>
    cases o with
    | none => exact hs.absent _ ho
    | some v => exact hs.written _ v ho (owed_writable hp ho)

end Runs

end RaptorCommon.ConfigSaving
