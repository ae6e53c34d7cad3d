import RaptorCommon.ConfigSettings
import RaptorCommon.ConfigGrammar

/-!
# What holds of every reachable config

The operations on numbers and truth values are writes and lookups of their
texts, so every call is one of five kinds. A property of the entry at a place
holds along every run once each kind keeps it. Besides, names stay unique, a
removed section holds nothing live, and only a removed section is dirty.
-/

set_option autoImplicit false

namespace RaptorCommon.ConfigInvariant
open RaptorCommon.CText RaptorCommon.KeyedStore RaptorCommon.ConfigStore
open RaptorCommon.ConfigSave RaptorCommon.ConfigSettings RaptorCommon.ConfigLoader
open RaptorCommon.ConfigGrammar RaptorCommon.IniSemantics

section Calls

/-- The call with the same effect on the config whose argument is text. -/
def normal : Op → Op
  | .getInt sec key d => .getStr sec key (some (decimal d))
  | .getBool sec key d => .getStr sec key (some (boolText d))
  | .setInt sec key value => .setStr sec key (decimal value)
  | .setBool sec key value => .setStr sec key (boolText value)
  | op => op

theorem step_normal (longMax : ℕ) (cfg : Config) (op : Op) :
    (step longMax cfg (normal op)).2 = (step longMax cfg op).2 := by
  cases op with
  | getInt sec key d =>
    simp only [normal, step, rssConfigGetInt, rssConfigGetStr]
    cases lookupValue sec key cfg <;> rfl
  | getBool sec key d =>
    simp only [normal, step, rssConfigGetBool, rssConfigGetStr]
    cases lookupValue sec key cfg <;> rfl
  | _ => rfl

def opNames : Op → List CString
  | .getStr sec key _ | .getInt sec key _ | .getBool sec key _ => [sec, key]
  | .setStr sec key _ | .setInt sec key _ | .setBool sec key _ => [sec, key]
  | .unset sec key => [sec, key]
  | .removeSection sec | .foreach sec => [sec]
  | .foreachSection _ | .save _ _ => []

def NamesFit (op : Op) : Prop := ∀ name ∈ opNames op, Fits name

instance (op : Op) : Decidable (NamesFit op) := List.decidableBAll _ (opNames op)

theorem names_normal (op : Op) : opNames (normal op) = opNames op := by cases op <;> rfl

def Writes (W : CString → CString → CString → Prop) (op : Op) : Prop :=
  match normal op with
  | .setStr sec key value => W sec key value
  | _ => True

def Quiet : Op → Prop
  | .foreach _ | .foreachSection _ | .save _ _ => True
  | _ => False

inductive Change (cfg : Config) (op : Op) : Config → Prop where
  | get (sec key : CString) (d : Option CString)
      (hop : normal op = .getStr sec key d) : Change cfg op (rssConfigGetStr sec key d cfg).2
  | set (sec key v : CString)
      (hop : normal op = .setStr sec key v) : Change cfg op (rssConfigSetStr sec key v cfg)
  | unset (sec key : CString)
      (hop : normal op = .unset sec key) : Change cfg op (rssConfigUnset sec key cfg).2
  | remove (sec : CString)
      (hop : normal op = .removeSection sec) : Change cfg op (rssConfigRemoveSection sec cfg).2
  | settle (hop : Quiet op) : Change cfg op (clearDirty cfg)
  | same (hop : Quiet op) : Change cfg op cfg

theorem step_change (longMax : ℕ) (cfg : Config) (op : Op) :
    Change cfg op (step longMax cfg op).2 := by
  rw [← step_normal]
  cases op with
  | getStr sec key d => exact .get sec key d rfl
  | getInt sec key d => exact .get sec key _ rfl
  | getBool sec key d => exact .get sec key _ rfl
  | setStr sec key v => exact .set sec key v rfl
  | setInt sec key v => exact .set sec key _ rfl
  | setBool sec key v => exact .set sec key _ rfl
  | unset sec key => exact .unset sec key rfl
  | removeSection sec => exact .remove sec rfl
  | foreach sec => exact .same trivial
  | foreachSection pfx => exact .same trivial
  | save env file =>
    rcases save_config env cfg file with hc | ⟨hc, -⟩
    · have h : Change cfg (.save env file) cfg := .same trivial
      simpa [step, normal, hc] using h
    · have h : Change cfg (.save env file) (clearDirty cfg) := .settle trivial
      simpa [step, normal, hc] using h

theorem normal_fits {op op' : Op} (hn : NamesFit op) (hop : normal op = op') :
    ∀ name ∈ opNames op', Fits name := by
  rw [← hop, names_normal]
  exact hn

end Calls

section Entries

variable {cfg : Config} {sec key : CString}

def Holds (P : Place → ConfigEntry → Prop) (cfg : Config) : Prop :=
  ∀ q e, entryAt q cfg = some e → P q e

/-- What a property of entries needs to hold along every run. -/
structure Kept (P : Place → ConfigEntry → Prop) (W : CString → CString → CString → Prop) :
    Prop where
  shown : ∀ sec key d old, old.bind liveEntry = none → (∀ e ∈ old, P (place sec key) e) →
    P (place sec key) (stored key d false true old)
  written : ∀ sec key v old, sec.chars ≠ [] → W sec key v → (∀ e ∈ old, P (place sec key) e) →
    P (place sec key) (stored key v true false old)
  removed : ∀ q e, P q e → P q (removeEntry e)
  settled : ∀ q e, P q e → P q (cleanEntry e)

variable {P : Place → ConfigEntry → Prop} {W : CString → CString → CString → Prop}

theorem kept_get_str (hP : Kept P W) (hk : Keyed cfg) (hs : Fits sec) (hn : Fits key)
    (d : Option CString) (h : Holds P cfg) : Holds P (rssConfigGetStr sec key d cfg).2 := by
  intro q e he
  rw [get_str_config hk hs hn] at he
  cases d with
  | none => exact h q e he
  | some t =>
    dsimp only at he
    split at he
    next hc =>
      obtain ⟨rfl, hd⟩ := hc
      rw [← Option.some.inj he]
      exact hP.shown sec key t _ hd (fun x hx => h _ x hx)
    next => exact h q e he

theorem kept_set_str {v : CString} (hP : Kept P W) (hk : Keyed cfg) (hs : Fits sec)
    (hn : Fits key) (hw : W sec key v) (h : Holds P cfg) :
    Holds P (rssConfigSetStr sec key v cfg) := by
  intro q e he
  rw [entry_at_set hk hs hn] at he
  split at he
  next hc =>
    obtain ⟨h0, rfl⟩ := hc
    rw [← Option.some.inj he]
    exact hP.written sec key v _ h0 hw (fun x hx => h _ x hx)
  next => exact h q e he

theorem kept_map {f : ConfigEntry → ConfigEntry} {q : Place} {e : ConfigEntry}
    (hf : ∀ x, P q x → P q (f x)) (h : Holds P cfg) (he : (entryAt q cfg).map f = some e) :
    P q e := by
  obtain ⟨x, hx, rfl⟩ := Option.map_eq_some_iff.mp he
  exact hf x (h q x hx)

theorem kept_unset (hP : Kept P W) (hk : Keyed cfg) (h : Holds P cfg) :
    Holds P (rssConfigUnset sec key cfg).2 := by
  intro q e he
  rw [entry_at_unset hk] at he
  split at he
  · exact kept_map (hP.removed q) h he
  · exact h q e he

theorem kept_remove (hP : Kept P W) (hk : Keyed cfg) (h : Holds P cfg) :
    Holds P (rssConfigRemoveSection sec cfg).2 := by
  intro q e he
  cases hf : (rssConfigRemoveSection sec cfg).1 with
  | false =>
    rw [(remove_not_found hk hf).1] at he
    exact h q e he
  | true =>
    rw [entry_at_remove_found hk hf] at he
    split at he
    · exact kept_map (hP.removed q) h he
    · exact h q e he

theorem kept_clear (hP : Kept P W) (h : Holds P cfg) : Holds P (clearDirty cfg) := by
  intro q e he
  rw [entry_at_clear] at he
  exact kept_map (hP.settled q) h he

theorem kept_step {longMax : ℕ} {op : Op} (hP : Kept P W) (hk : Keyed cfg) (hn : NamesFit op)
    (hw : Writes W op) (h : Holds P cfg) : Holds P (step longMax cfg op).2 := by
  unfold Writes at hw
  have hc := step_change longMax cfg op
  generalize (step longMax cfg op).2 = after at hc ⊢
  cases hc with
  | get sec key d hop =>
    have hfit := normal_fits hn hop
    exact kept_get_str hP hk (hfit sec (by simp [opNames])) (hfit key (by simp [opNames])) d h
  | set sec key v hop =>
    have hfit := normal_fits hn hop
    rw [hop] at hw
    exact kept_set_str hP hk (hfit sec (by simp [opNames])) (hfit key (by simp [opNames])) hw h
  | unset sec key hop => exact kept_unset hP hk h
  | remove sec hop => exact kept_remove hP hk h
  | settle hop => exact kept_clear hP h
  | same hop => exact h

end Entries

section Flags

variable {cfg : Config} {sec key : CString}

/-- Names are unique, a removed section holds nothing live, a removal is all a
section owes, and the global section is never removed. -/
structure Sound (cfg : Config) : Prop extends Keyed cfg where
  gone_dead : ∀ q e, (flagsAt q.1 cfg).1 = true → entryAt q cfg = some e → liveEntry e = none
  leaving_gone : ∀ s, (flagsAt s cfg).2 = true → (flagsAt s cfg).1 = true
  global_stays : (flagsAt [] cfg).1 = false

theorem stored_default_live {key d : CString} {old : Option ConfigEntry}
    (h : old.bind liveEntry = none) : liveEntry (stored key d false true old) = none := by
  cases old with
  | none => rfl
  | some e =>
    have he : liveEntry e = none := h
    unfold liveEntry liveField at he
    unfold stored liveEntry liveField
    cases hd : e.defaulted <;> cases hr : e.removed <;> simp_all [overwriteEntry]

theorem stored_write_live (key v : CString) (dirty : Bool) (old : Option ConfigEntry) :
    liveEntry (stored key v dirty false old) = some (v.chars.take (maxVal-1)) := by
  cases old <;> rfl

theorem clean_live (e : ConfigEntry) : liveEntry (cleanEntry e) = liveEntry e := rfl

theorem sound_get_str (h : Sound cfg) (hs : Fits sec) (hn : Fits key) (d : Option CString) :
    Sound (rssConfigGetStr sec key d cfg).2 where
  toKeyed := get_str_keyed h.toKeyed hs hn d
  gone_dead q e hg he := by
    rw [get_str_flags h.toKeyed hs] at hg
    rw [get_str_config h.toKeyed hs hn] at he
    cases d with
    | none => exact h.gone_dead q e hg he
    | some t =>
      dsimp only at he
      split at he
      next hc =>
        rw [← Option.some.inj he]
        exact stored_default_live hc.2
      next => exact h.gone_dead q e hg he
  leaving_gone s hl := by
    rw [get_str_flags h.toKeyed hs] at hl ⊢
    exact h.leaving_gone s hl
  global_stays := by
    rw [get_str_flags h.toKeyed hs]
    exact h.global_stays

theorem sound_set_str (h : Sound cfg) (hs : Fits sec) (hn : Fits key) (v : CString) :
    Sound (rssConfigSetStr sec key v cfg) where
  toKeyed := keyed_set h.toKeyed hs hn
  gone_dead q e hg he := by
    rw [flags_at_set h.toKeyed hs] at hg
    rw [entry_at_set h.toKeyed hs hn] at he
    split at hg
    next => cases hg
    next hc =>
      rw [if_neg (fun hq => hc ⟨hq.1, congrArg Prod.fst hq.2⟩)] at he
      exact h.gone_dead q e hg he
  leaving_gone s hl := by
    rw [flags_at_set h.toKeyed hs] at hl ⊢
    split at hl
    next => cases hl
    next hc =>
      rw [if_neg hc]
      exact h.leaving_gone s hl
  global_stays := by
    rw [flags_at_set h.toKeyed hs]
    split
    · rfl
    · exact h.global_stays

theorem sound_unset (h : Sound cfg) : Sound (rssConfigUnset sec key cfg).2 where
  toKeyed := unset_keyed h.toKeyed
  gone_dead q e hg he := by
    rw [flags_at_unset h.toKeyed] at hg
    rw [entry_at_unset h.toKeyed] at he
    split at he
    next =>
      obtain ⟨x, -, rfl⟩ := Option.map_eq_some_iff.mp he
      exact remove_live x
    next => exact h.gone_dead q e hg he
  leaving_gone s hl := by
    rw [flags_at_unset h.toKeyed] at hl ⊢
    exact h.leaving_gone s hl
  global_stays := by
    rw [flags_at_unset h.toKeyed]
    exact h.global_stays

theorem entry_at_remove (h : Sound cfg) (q : Place) :
    entryAt q (rssConfigRemoveSection sec cfg).2 =
      if sec.chars ≠ [] ∧ q.1 = foldCase sec.chars then (entryAt q cfg).map removeEntry
      else entryAt q cfg := by
  cases hf : (rssConfigRemoveSection sec cfg).1 with
  | true =>
    have hne : sec.chars ≠ [] := fun h0 => by simp [rssConfigRemoveSection, h0] at hf
    rw [entry_at_remove_found h.toKeyed hf]
    simp [hne]
  | false =>
    obtain ⟨hc, hwhy⟩ := remove_not_found h.toKeyed hf
    rw [hc]
    split
    next hq =>
      cases he : entryAt q cfg with
      | none => rfl
      | some e =>
        rcases hwhy with h0 | h0 | h0
        · exact absurd h0 hq.1
        · rw [entryAt, hq.2, h0] at he
          cases he
        · rw [← hq.2] at h0
          rw [Option.map_some, remove_dead (h.gone_dead q e h0 he)]
    next => rfl

theorem sound_remove (h : Sound cfg) : Sound (rssConfigRemoveSection sec cfg).2 where
  toKeyed := remove_keyed h.toKeyed
  gone_dead q e hg he := by
    rw [flags_at_remove h.toKeyed] at hg
    rw [entry_at_remove h] at he
    split at he
    next =>
      obtain ⟨x, -, rfl⟩ := Option.map_eq_some_iff.mp he
      exact remove_live x
    next hq =>
      split at hg
      next hc =>
        have hne : sec.chars ≠ [] := fun h0 => by simp [rssConfigRemoveSection, h0] at hc
        exact absurd ⟨hne, hc.2⟩ hq
      next => exact h.gone_dead q e hg he
  leaving_gone s hl := by
    rw [flags_at_remove h.toKeyed] at hl ⊢
    split at hl
    next hc => rw [if_pos hc]
    next hc =>
      rw [if_neg hc]
      exact h.leaving_gone s hl
  global_stays := by
    rw [flags_at_remove h.toKeyed]
    split
    next hc =>
      have h0 : sec.chars = [] := List.map_eq_nil_iff.mp hc.2.symm
      simp [rssConfigRemoveSection, h0] at hc
    next => exact h.global_stays

theorem sound_clear (h : Sound cfg) : Sound (clearDirty cfg) where
  toKeyed := keyed_clear h.toKeyed
  gone_dead q e hg he := by
    rw [flags_at_clear] at hg
    rw [entry_at_clear] at he
    obtain ⟨x, hx, rfl⟩ := Option.map_eq_some_iff.mp he
    rw [clean_live]
    exact h.gone_dead q x hg hx
  leaving_gone s hl := by
    rw [flags_at_clear] at hl
    cases hl
  global_stays := by
    rw [flags_at_clear]
    exact h.global_stays

theorem sound_step {longMax : ℕ} {op : Op} (h : Sound cfg) (hn : NamesFit op) :
    Sound (step longMax cfg op).2 := by
  have hc := step_change longMax cfg op
  generalize (step longMax cfg op).2 = after at hc ⊢
  cases hc with
  | get sec key d hop =>
    have hfit := normal_fits hn hop
    exact sound_get_str h (hfit sec (by simp [opNames])) (hfit key (by simp [opNames])) d
  | set sec key v hop =>
    have hfit := normal_fits hn hop
    exact sound_set_str h (hfit sec (by simp [opNames])) (hfit key (by simp [opNames])) v
  | unset sec key hop => exact sound_unset h
  | remove sec hop => exact sound_remove h
  | settle hop => exact sound_clear h
  | same hop => exact h

end Flags

section Runs

variable {longMax : ℕ} {cfg : Config} {ops : List Op}

theorem sound_run (h : Sound cfg) (hn : ∀ op ∈ ops, NamesFit op) : Sound (run longMax cfg ops) := by
  induction ops generalizing cfg with
  | nil => exact h
  | cons op ops ih =>
    exact ih (sound_step h (hn op (by simp))) (fun o ho => hn o (by simp [ho]))

theorem kept_run {P : Place → ConfigEntry → Prop} {W : CString → CString → CString → Prop}
    (hP : Kept P W) (hs : Sound cfg) (hn : ∀ op ∈ ops, NamesFit op)
    (hw : ∀ op ∈ ops, Writes W op) (h : Holds P cfg) : Holds P (run longMax cfg ops) := by
  induction ops generalizing cfg with
  | nil => exact h
  | cons op ops ih =>
    exact ih (sound_step hs (hn op (by simp))) (fun o ho => hn o (by simp [ho]))
      (fun o ho => hw o (by simp [ho]))
      (kept_step hP hs.toKeyed (hn op (by simp)) (hw op (by simp)) h)

theorem run_rec {P : List Op → Config → Prop} (hs : Sound cfg) (hn : ∀ op ∈ ops, NamesFit op)
    (start : P [] cfg)
    (step : ∀ before op, before++[op] <+: ops → Sound (run longMax cfg before) → NamesFit op →
      P before (run longMax cfg before) →
      P (before++[op]) (step longMax (run longMax cfg before) op).2) :
    P ops (run longMax cfg ops) := by
  induction ops using List.reverseRecOn with
  | nil => exact start
  | append_singleton before op ih =>
    have hb : ∀ o ∈ before, NamesFit o := fun o ho => hn o (List.mem_append_left _ ho)
    have hbefore := ih hb (fun b o hpre =>
      step b o (hpre.trans (List.prefix_append before [op])))
    rw [run_snoc]
    exact step before op List.prefix_rfl (sound_run hs hb) (hn op (by simp)) hbefore

/-- A view of the config that each call moves as a record is moved ends where
the calls take the record. -/
theorem run_simulates {β : Type*} {view : Config → β} {record : β → Op → β}
    (hview : ∀ cfg op, Sound cfg → NamesFit op →
      view (step longMax cfg op).2 = record (view cfg) op)
    (hs : Sound cfg) (hn : ∀ op ∈ ops, NamesFit op) :
    view (run longMax cfg ops) = ops.foldl record (view cfg) := by
  induction ops generalizing cfg with
  | nil => rfl
  | cons op ops ih =>
    have hop := hn op (by simp)
    rw [List.foldl_cons, ← hview cfg op hs hop]
    exact ih (sound_step hs hop) (fun o ho => hn o (by simp [ho]))

end Runs

end RaptorCommon.ConfigInvariant
