import RaptorCommon.ConfigSaving
import RaptorCommon.WriteBack

/-!
# Daemons sharing one configuration file

Each process keeps the config it loaded at some earlier moment, sets keys of
its own in it and saves it into the shared file. The lock makes the reading,
editing and renaming of a save one step, which may also fail. However the
sets and saves interleave, the file refines a store with buffering writers.
-/

set_option autoImplicit false

namespace RaptorCommon.ConfigShared
open RaptorCommon.CText RaptorCommon.ConfigStore RaptorCommon.ConfigLoader
open RaptorCommon.ConfigSave RaptorCommon.ConfigEditor RaptorCommon.ConfigSettings
open RaptorCommon.ConfigInvariant RaptorCommon.ConfigMap RaptorCommon.ConfigPending
open RaptorCommon.ConfigGrammar RaptorCommon.ConfigSaving RaptorCommon.WriteBack

variable {ι : Type*} [DecidableEq ι]

inductive Action (ι : Type*) where
  | set (p : ι) (sec key value : CString)
  | save (p : ι) (env : SaveEnv)

/-- The file and the processes' configs. The history of the sets and of the
saves that succeeded, newest first, is kept for the statement alone. -/
structure World (ι : Type*) where
  file : Option Bytes
  cfgs : ι → Config
  history : History ι Place Bytes

def actStep (w : World ι) : Action ι → World ι
  | .set p sec key value =>
    { w with
      cfgs := Function.update w.cfgs p (rssConfigSetStr sec key value (w.cfgs p))
      history := .write p (place sec key) value.chars::w.history }
  | .save p env =>
    let saved := rssConfigSave env (w.cfgs p) w.file
    { file := saved.file
      cfgs := Function.update w.cfgs p saved.cfg
      history := if saved.ret = 0 then .flush p::w.history else w.history }

def runActions (w : World ι) (actions : List (Action ι)) : World ι := actions.foldl actStep w

def sharedStart (original : Bytes) (seen : ι → Bytes) : World ι :=
  ⟨some original, fun p => rssConfigLoad (seen p), []⟩

/-- A process sets well-formed pairs it owns and saves a file it can read. -/
def Allowed (owner : Place → Option ι) : Action ι → Prop
  | .set p sec key value => owner (place sec key) = some p ∧ Fits sec ∧ Fits key ∧
      GoodNames sec key ∧ GoodValue value
  | .save _ env => env.readOk = true

structure Refines (owner : Place → Option ι) (original : Bytes) (w : World ι) (text : Bytes) :
    Prop where
  file : w.file = some text
  nul_free : 0 ∉ text
  fits : FileFits text
  sound : ∀ p, Sound (w.cfgs p)
  pending : ∀ p, Holds (Pending Writable) (w.cfgs p)
  unflagged : ∀ p s, flagsAt s (w.cfgs p) = (false, false)
  owned : Owned owner w.history
  shared : loadedMap text = (after (loadedMap original) w.history).shared
  buffer : ∀ p q, owed (w.cfgs p) q =
    ((after (loadedMap original) w.history).buffer p q).map some

theorem refines_start (owner : Place → Option ι) {original : Bytes} {seen : ι → Bytes}
    (hz : 0 ∉ original) (hf : FileFits original) (hseen : ∀ p, FileFits (seen p)) :
    Refines owner original (sharedStart original seen) original where
  file := rfl
  nul_free := hz
  fits := hf
  sound p := load_sound (hseen p)
  pending p := fresh_pending (load_fresh (hseen p))
  unflagged p := load_unflagged (hseen p)
  owned := nofun
  shared := rfl
  buffer p := fresh_owes (load_unflagged (hseen p)) (load_fresh (hseen p))

variable {owner : Place → Option ι} {original text : Bytes} {w : World ι}

theorem update_all {P : Config → Prop} {cfgs : ι → Config} {p : ι} {cfg : Config}
    (hall : ∀ r, P (cfgs r)) (hnew : P cfg) (r : ι) : P (Function.update cfgs p cfg r) := by
  by_cases hr : r = p
  · rw [hr, Function.update_self]
    exact hnew
  · rw [Function.update_of_ne hr]
    exact hall r

theorem refines_set (h : Refines owner original w text) {p : ι} {sec key value : CString}
    (ha : Allowed owner (.set p sec key value)) :
    Refines owner original (actStep w (.set p sec key value)) text := by
  obtain ⟨hown, hsec, hkey, hnames, hvalue⟩ := ha
  have hflags : ∀ s, flagsAt s (rssConfigSetStr sec key value (w.cfgs p)) = (false, false) := by
    intro s
    rw [flags_at_set (h.sound p).toKeyed hsec]
    split
    · rfl
    · exact h.unflagged p s
  refine ⟨h.file, h.nul_free, h.fits, ?_, ?_, ?_, ?_, h.shared, ?_⟩
  · exact update_all h.sound (sound_set_str (h.sound p) hsec hkey value)
  · exact update_all h.pending (kept_set_str (pending_kept Writable)
      (h.sound p).toKeyed hsec hkey (good_writable hnames hvalue) (h.pending p))
  · exact update_all (P := fun c => ∀ s, flagsAt s c = (false, false)) h.unflagged hflags
  · intro r k v hm
    rcases List.mem_cons.mp hm with heq | hm
    · obtain ⟨rfl, rfl, rfl⟩ := Event.write.inj heq
      exact hown
    · exact h.owned r k v hm
  · intro r q
    have hold := h.buffer r q
    by_cases hr : r = p
    · subst hr
      have hset := owed_set value (h.sound r) (h.unflagged r) hsec hkey hnames.sec.nonempty q
      have htake : value.chars.take (maxVal-1) = value.chars := List.take_of_length_le hvalue.fits
      simp only [actStep, Function.update_self, hset, after, act, htake, hold]
      by_cases hq : q = place sec key
      · subst hq
        simp
      · simp [hq]
    · simpa [actStep, after, act, hr] using hold

theorem saved_config {cfg cfg' : Config} (hs : Sound cfg) (hp : Holds (Pending Writable) cfg)
    (hun : ∀ s, flagsAt s cfg = (false, false))
    (hcfg : cfg' = clearDirty cfg ∨ collectDirty cfg = [] ∧ cfg' = cfg) :
    Sound cfg' ∧ Holds (Pending Writable) cfg' ∧ (∀ s, flagsAt s cfg' = (false, false)) ∧
      ∀ q, owed cfg' q = none := by
  rcases hcfg with rfl | ⟨h0, rfl⟩
  · exact ⟨sound_clear hs, kept_clear (pending_kept Writable) hp,
      fun s => by rw [flags_at_clear, hun], clear_owes cfg⟩
  · exact ⟨hs, hp, hun, nothing_dirty hs.toKeyed h0⟩

/-- A save that succeeds is a flush, and one that fails is nothing. -/
theorem refines_save (h : Refines owner original w text) {p : ι} {env : SaveEnv}
    (ha : Allowed owner (.save p env)) :
    ∃ text', Refines owner original (actStep w (.save p env)) text' := by
  have hbuf := h.buffer p
  have hend := save_end env (w.cfgs p) text
  generalize hsaved : rssConfigSave env (w.cfgs p) (some text) = saved at hend
  have hact : actStep w (.save p env) = ⟨saved.file, Function.update w.cfgs p saved.cfg,
      if saved.ret = 0 then .flush p::w.history else w.history⟩ := by
    simp only [actStep, h.file, hsaved]
  rw [hact]
  cases hend with
  | rewritten hw => exact absurd hw (read_settles ha _)
  | failed =>
    refine ⟨text, ?_⟩
    rw [if_neg (show ¬(-1 : ℤ) = 0 by decide), Function.update_eq_self, ← h.file]
    exact h
  | @settled cfg' text' _ _ hfile hcfg =>
    have hs := saved_settled (h.sound p) (h.pending p) (fun q v hw => hw.1) h.nul_free h.fits hfile
    obtain ⟨hsound, hpending, hflags, howes⟩ :=
      saved_config (h.sound p) (h.pending p) (h.unflagged p) hcfg
    refine ⟨text', ?_⟩
    rw [if_pos rfl]
    refine ⟨rfl, hs.nul_free, hs.fits, update_all h.sound hsound, update_all h.pending hpending,
      update_all (P := fun c => ∀ s, flagsAt s c = (false, false)) h.unflagged hflags, ?_, ?_, ?_⟩
    · intro r k v hm
      rcases List.mem_cons.mp hm with heq | hm
      · cases heq
      · exact h.owned r k v hm
    · funext q
      simp only [after, act]
      rw [← h.shared]
      cases hb : (after (loadedMap original) w.history).buffer p q with
      | none =>
        have ho : owed (w.cfgs p) q = none := by rw [hbuf, hb]; rfl
        exact hs.kept q ho
      | some v =>
        have ho : owed (w.cfgs p) q = some (some v) := by rw [hbuf, hb]; rfl
        exact hs.written q v ho (owed_writable (h.pending p) ho)
    · intro r q
      by_cases hr : r = p
      · subst hr
        simp [after, act, howes]
      · simpa [after, act, hr] using h.buffer r q

theorem refines_run {actions : List (Action ι)} (h : Refines owner original w text)
    (ha : ∀ a ∈ actions, Allowed owner a) :
    ∃ text', Refines owner original (runActions w actions) text' := by
  induction actions generalizing w text with
  | nil => exact ⟨text, h⟩
  | cons a actions ih =>
    have hrest : ∀ b ∈ actions, Allowed owner b := fun b hb => ha b (by simp [hb])
    cases a with
    | set p sec key value =>
      exact ih (refines_set h (ha (.set p sec key value) (by simp))) hrest
    | save p env =>
      obtain ⟨text', h'⟩ := refines_save h (ha (.save p env) (by simp))
      exact ih h' hrest

/-- After every run the file answers, for an owned pair, what its owner last
set before its last successful save, and otherwise what it answered at first. -/
theorem shared_file_answers (owner : Place → Option ι) (original : Bytes) (seen : ι → Bytes)
    (actions : List (Action ι)) (hz : 0 ∉ original) (hf : FileFits original)
    (hseen : ∀ p, FileFits (seen p)) (ha : ∀ a ∈ actions, Allowed owner a) :
    let w := runActions (sharedStart original seen) actions
    ∃ text, w.file = some text ∧ ∀ sec key, fileAnswer text sec key =
      ((owner (place sec key)).bind (fun p => committed p (place sec key) w.history)).or
        (fileAnswer original sec key) := by
  obtain ⟨text, h⟩ := refines_run (refines_start owner hz hf hseen) ha
  refine ⟨text, h.file, fun sec key => ?_⟩
  rw [file_answer h.fits, file_answer hf, h.shared, after_shared h.owned]

/-- Two daemons with a key each in one section, saving after both have set. -/
theorem shared_file_answers_two :
    let owner : Place → Option Bool := fun q => if q.2 = ascii "k" then some true
      else if q.2 = ascii "m" then some false else none
    let actions : List (Action Bool) :=
      [.set true (literal "a") (literal "k") (literal "1"),
        .set false (literal "A") (literal "m") (literal "2"),
        .save false ⟨true, true, true, true, true⟩, .save true ⟨true, true, true, true, true⟩]
    let original := ascii "[b]\nk = 7\n"
    let w := runActions (sharedStart original (fun _ => original)) actions
    ∃ text, w.file = some text ∧ ∀ sec key, fileAnswer text sec key =
      ((owner (place sec key)).bind (fun p => committed p (place sec key) w.history)).or
        (fileAnswer original sec key) := by
  intro owner actions original w
  refine shared_file_answers owner original (fun _ => original) actions (by decide)
    (by decide +kernel) (fun _ => by decide +kernel) ?_
  have hnames : ∀ s k : CString, SectionName s.chars → KeyText k.chars → k.chars ≠ [] →
      GoodNames s k := fun s k h1 h2 h3 => ⟨h1, h2, h3⟩
  intro a ha
  simp only [actions, List.mem_cons, List.not_mem_nil, or_false] at ha
  rcases ha with rfl | rfl | rfl | rfl
  · exact ⟨by decide, by decide, by decide, hnames _ _ ⟨by decide, by decide, by decide, by decide⟩
      ⟨by decide, by decide, by decide, by decide⟩ (by decide),
      ⟨plain_of_solid (by decide), by decide, by decide⟩⟩
  · exact ⟨by decide, by decide, by decide, hnames _ _ ⟨by decide, by decide, by decide, by decide⟩
      ⟨by decide, by decide, by decide, by decide⟩ (by decide),
      ⟨plain_of_solid (by decide), by decide, by decide⟩⟩
  · rfl
  · rfl

/-- A key without a name is written as a line the loader skips, so its owner
does not find the value in the file. -/
theorem nameless_key_unread :
    let owner : Place → Option Unit := fun _ => some ()
    let key : CString := ⟨[], by decide⟩
    let original := ascii "[b]\nk = 7\n"
    let w := runActions (sharedStart original (fun _ => original))
      [.set () (literal "a") key (literal "v"), .save () ⟨true, true, true, true, true⟩]
    Trimmed key.chars ∧ newline ∉ key.chars ∧ equals ∉ key.chars ∧ ¬∃ text,
      w.file = some text ∧ ∀ sec key, fileAnswer text sec key =
        ((owner (place sec key)).bind (fun p => committed p (place sec key) w.history)).or
          (fileAnswer original sec key) := by
  intro owner key original w
  refine ⟨by decide, by decide, by decide, ?_⟩
  rintro ⟨text, hfile, hans⟩
  have hfile' : w.file = some (ascii "[b]\nk = 7\n\n[a]\n = v\n") := by decide +kernel
  rw [hfile'] at hfile
  cases hfile
  have hc : committed () (place (literal "a") key) w.history = some (ascii "v") := by
    decide +kernel
  have h := hans (literal "a") key
  simp only [owner, Option.bind_some, hc, Option.some_or] at h
  have hnone : fileAnswer (ascii "[b]\nk = 7\n\n[a]\n = v\n") (literal "a") key = none := by
    decide +kernel
  rw [hnone] at h
  cases h

end RaptorCommon.ConfigShared
