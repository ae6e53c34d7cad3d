import RaptorCommon.ConfigSaving
import RaptorCommon.ConfigLanding

/-!
# What a save leaves alone

Line by line of any file: which lines go, which are rewritten, what is added
below them and what follows at the end. All other lines are written again as
they were, in their order.
-/

set_option autoImplicit false

namespace RaptorCommon.ConfigFrame
open RaptorCommon.CText RaptorCommon.ConfigStore RaptorCommon.ConfigLoader
open RaptorCommon.ConfigSave RaptorCommon.ConfigWriter RaptorCommon.ConfigEditor
open RaptorCommon.ConfigSettings RaptorCommon.ConfigInvariant RaptorCommon.ConfigMap
open RaptorCommon.ConfigLineView RaptorCommon.ConfigBinding RaptorCommon.ConfigEmission
open RaptorCommon.ConfigPlan RaptorCommon.ConfigRevision RaptorCommon.ConfigEditedText
open RaptorCommon.ConfigPending RaptorCommon.ConfigSaving RaptorCommon.ConfigLanding
open RaptorCommon.LineText

section Changes

def Owes (cfg : Config) (q : Place) (e : ConfigEntry) : Prop :=
  entryAt q cfg = some e ∧ e.dirty = true ∧ (liveEntry e).isSome = true

def Unset (cfg : Config) (q : Place) : Prop :=
  ∃ e, entryAt q cfg = some e ∧ e.dirty = true ∧ e.removed = true

def Leaves (cfg : Config) (s : Bytes) : Prop := flagsAt s cfg = (true, true)

structure OneLine (q : Place) (v : Bytes) : Prop where
  named : q.1 ≠ []
  sec : newline ∉ q.1
  key : newline ∉ q.2
  value : newline ∉ v

variable {cfg : Config}

theorem owes_iff (hp : Holds (Pending OneLine) cfg) (q : Place) (e : ConfigEntry) :
    Owes cfg q e ↔ entryAt q cfg = some e ∧ e.dirty = true ∧ e.removed = false := by
  constructor
  · rintro ⟨hat, hd, hlive⟩
    rw [live_some] at hlive
    refine ⟨hat, hd, ?_⟩
    simp only [Bool.not_eq_true', Bool.or_eq_false_iff] at hlive
    exact hlive.2
  · rintro ⟨hat, hd, hr⟩
    refine ⟨hat, hd, ?_⟩
    rw [live_some, (hp q e hat hd hr).1, hr]
    rfl

theorem owes_one_line (hp : Holds (Pending OneLine) cfg) {q : Place} {e : ConfigEntry}
    (h : Owes cfg q e) : OneLine q e.value.chars := by
  obtain ⟨hat, hd, hr⟩ := (owes_iff hp q e).mp h
  exact (hp q e hat hd hr).2

theorem owes_key {q : Place} {e : ConfigEntry} (h : Owes cfg q e) : entryKey e = q.2 := by
  obtain ⟨s, -, he⟩ := Option.bind_eq_some_iff.mp h.1
  exact KeyedStore.fetch_key he

theorem owes_stays (hs : Sound cfg) {q : Place} {e : ConfigEntry} (h : Owes cfg q e) :
    ¬Unset cfg q ∧ ¬Leaves cfg q.1 := by
  constructor
  · rintro ⟨x, hx, -, hr⟩
    have hlive := h.2.2
    rw [Option.some.inj (h.1.symm.trans hx), live_some, hr, Bool.or_true] at hlive
    cases hlive
  · intro hl
    have hdead := hs.gone_dead q e (by rw [show flagsAt q.1 cfg = (true, true) from hl]) h.1
    have hlive := h.2.2
    rw [hdead] at hlive
    cases hlive

end Changes

section Binding

structure Placed (xs : List (Bytes × Bytes)) (d : DirtyRef) : Prop where
  replaceLine : d.replaceLine = (lastWhere (ownLine d) 0 xs).map Prod.fst
  cut : d.ent.isSome → ∀ r ∈ lastWhere (ownLine d) 0 xs,
    d.repKeyEnd = (classifyLine r.2.2).keyEnd ∧ d.repComOff = (classifyLine r.2.2).comOff
  appendLine : d.appendLine = (lastWhere (contentOf (foldCase d.sec.chars)) 0 xs).map Prod.fst
  secInFile : d.secInFile = xs.any (headerOf (foldCase d.sec.chars))
  done : d.done = true ↔ (∀ e ∈ d.ent, e.removed = true) ∧ d.replaceLine = none

theorem bound_ref_same (raws : List Bytes) (d : DirtyRef) :
    (boundRef raws d).sec = d.sec ∧ (boundRef raws d).ent = d.ent := by
  have hb := bind_all_landed raws start_section 0 d
  obtain ⟨b, hs⟩ := settle_same (bindAll 0 startSection d raws)
  rw [boundRef, hs]
  exact ⟨hb.sec, hb.ent⟩

theorem bound_ref_placed (raws : List Bytes) {d : DirtyRef} (hnew : d = newRef d.sec d.ent) :
    Placed (placedLines [] raws) (boundRef raws d) := by
  have hb := bind_all_landed raws start_section 0 d
  obtain ⟨b, hs⟩ := settle_same (bindAll 0 startSection d raws)
  obtain ⟨hsec, hent⟩ := bound_ref_same raws d
  have hown := own_congr hsec hent
  have hdone : (bindAll 0 startSection d raws).done = false := by
    rw [hb.done, hnew]
    rfl
  constructor
  · rw [hown, boundRef, hs]
    refine hb.replaceLine.trans ?_
    rw [hnew]
    simp [newRef]
  · intro he r hr
    rw [hent] at he
    rw [hown, Option.mem_def] at hr
    have hcut := hb.cut he
    rw [hr] at hcut
    rw [boundRef, hs]
    exact Prod.mk.inj hcut
  · rw [hsec, boundRef, hs]
    refine hb.appendLine.trans ?_
    rw [hnew]
    simp [newRef]
  · rw [hsec, boundRef, hs]
    refine hb.secInFile.trans ?_
    rw [hnew]
    simp [newRef]
  · have hrep : (boundRef raws d).replaceLine = (bindAll 0 startSection d raws).replaceLine := by
      rw [boundRef, hs]
    rw [hrep, hent, ← hb.ent]
    exact settle_done _ hdone

structure Bindings (cfg : Config) (xs : List (Bytes × Bytes)) (refs : List DirtyRef) : Prop where
  placed : ∀ d ∈ refs, Placed xs d
  distinct : (refs.map refName).Nodup
  owes : ∀ q e, Owes cfg q e ↔
    ∃ d ∈ refs, d.ent = some e ∧ e.removed = false ∧ (foldCase d.sec.chars, entryKey e) = q
  unset : ∀ q, Unset cfg q ↔ goneIn refs q = true
  leaves : ∀ s, Leaves cfg s ↔ leavingIn refs s = true

variable {cfg : Config}

theorem bindings (hs : Sound cfg) (hp : Holds (Pending OneLine) cfg) (raws : List Bytes) :
    Bindings cfg (placedLines [] raws) ((collectDirty cfg).map (boundRef raws)) where
  placed d' hd' := by
    obtain ⟨d, hd, rfl⟩ := List.mem_map.mp hd'
    exact bound_ref_placed raws (dirty_new d hd)
  distinct := by
    have hname : refName ∘ boundRef raws = refName := by
      funext d
      obtain ⟨hsec, hent⟩ := bound_ref_same raws d
      rw [Function.comp_apply, refName, refName, hsec, hent]
    rw [List.map_map, hname]
    exact dirty_distinct hs.toKeyed
  owes q e := by
    rw [owes_iff hp, ← and_assoc, ← dirty_entry hs.toKeyed]
    constructor
    · rintro ⟨⟨d, hd, he, hq⟩, hr⟩
      obtain ⟨hsec, hent⟩ := bound_ref_same raws d
      exact ⟨_, List.mem_map_of_mem hd, by rw [hent, he], hr, by rw [hsec, hq]⟩
    · rintro ⟨d', hd', he, hr, hq⟩
      obtain ⟨d, hd, rfl⟩ := List.mem_map.mp hd'
      obtain ⟨hsec, hent⟩ := bound_ref_same raws d
      exact ⟨⟨d, hd, by rw [← hent, he], by rw [← hsec, hq]⟩, hr⟩
  unset q := by
    rw [gone_map (bound_ref_same raws)]
    exact (dirty_gone hs.toKeyed q).symm
  leaves s := by
    rw [leaving_map (bound_ref_same raws)]
    exact (dirty_leaving hs.toKeyed s).symm

end Binding

section Lines

/-- The lines that go: those of a removed key, everything visible in a removed
section, and a blank line directly above its header. -/
inductive Goes (cfg : Config) (xs : List (Bytes × Bytes)) (l : ℕ) (x : Bytes × Bytes) : Prop where
  | key (q : Place) (hq : Unset cfg q) (hx : keyLineOf q x = true)
  | leaving (hs : Leaves cfg x.1) (hx : (classifyLine x.2).nonblank = true)
  | separator (y : Bytes × Bytes) (hy : xs[l+1]? = some y) (hs : Leaves cfg y.1)
      (hh : headerOf y.1 y = true) (hx : (classifyLine x.2).nonblank = false)

def rewrittenLine (raw : Bytes) (e : ConfigEntry) : Bytes :=
  replacementLine raw { newRef startSection (some e) with
    repKeyEnd := (classifyLine raw).keyEnd
    repComOff := (classifyLine raw).comOff } e

/-- What stands in the place of a line: nothing where it goes, the last line
of a live entry rewritten, and the line itself everywhere else. -/
inductive Stands (cfg : Config) (xs : List (Bytes × Bytes)) (l : ℕ) (x : Bytes × Bytes) :
    Option Bytes → Prop where
  | gone (hg : Goes cfg xs l x) : Stands cfg xs l x none
  | rewritten (hg : ¬Goes cfg xs l x) {q : Place} {e : ConfigEntry} (ho : Owes cfg q e)
      (hl : lastWhere (keyLineOf q) 0 xs = some (l, x)) :
      Stands cfg xs l x (some (rewrittenLine x.2 e))
  | kept (hg : ¬Goes cfg xs l x)
      (hl : ∀ q e, Owes cfg q e → lastWhere (keyLineOf q) 0 xs ≠ some (l, x)) :
      Stands cfg xs l x (some x.2)

/-- The entries written below a line: the live ones that have no line, below
the last visible line of their section. -/
structure Added (cfg : Config) (xs : List (Bytes × Bytes)) (l : ℕ) (es : List ConfigEntry) :
    Prop where
  mem : ∀ e, e ∈ es ↔ ∃ q x, Owes cfg q e ∧ lastWhere (keyLineOf q) 0 xs = none ∧
    lastWhere (contentOf q.1) 0 xs = some (l, x)
  once : (es.map entryKey).Nodup

variable {cfg : Config} {xs : List (Bytes × Bytes)} {refs : List DirtyRef} {l : ℕ}
  {x : Bytes × Bytes}

theorem own_entry {d : DirtyRef} {e : ConfigEntry} (he : d.ent = some e) :
    ownLine d = keyLineOf (foldCase d.sec.chars, entryKey e) := by
  rw [ownLine, he]

theorem own_header {d : DirtyRef} (he : d.ent = none) :
    ownLine d = headerOf (foldCase d.sec.chars) := by
  rw [ownLine, he]

theorem key_line_iff {q : Place} : keyLineOf q x = true ↔
    (classifyLine x.2).kind = .key ∧ (x.1, foldCase (classifyLine x.2).key.chars) = q := by
  simp only [keyLineOf, Bool.and_eq_true, decide_eq_true_eq, Prod.ext_iff]
  tauto

theorem header_of_iff {s : Bytes} : headerOf s x = true ↔
    x.1 = s ∧ (classifyLine x.2).kind = .header := by
  simp only [headerOf, Bool.and_eq_true, decide_eq_true_eq]

theorem drops_line_iff (h : Bindings cfg xs refs) : dropsLine refs x = true ↔
    (Leaves cfg x.1 ∧ (classifyLine x.2).nonblank = true) ∨
      ∃ q, Unset cfg q ∧ keyLineOf q x = true := by
  simp only [dropsLine, Bool.or_eq_true, Bool.and_eq_true, decide_eq_true_eq, h.leaves, h.unset,
    key_line_iff]
  constructor
  · rintro (hd | ⟨hk, hg⟩)
    · exact Or.inl hd
    · exact Or.inr ⟨_, hg, hk, rfl⟩
  · rintro (hd | ⟨q, hg, hk, rfl⟩)
    · exact Or.inl hd
    · exact Or.inr ⟨hk, hg⟩

theorem separators_at (zs : List (Bytes × Bool)) (l : ℕ) :
    (dropSeparators zs)[l]? = (zs[l]?).map (fun z => (z.1, z.2 || (zs[l+1]?).any (fun y =>
      y.2 && (classifyLine y.1).kind = .header && !(classifyLine z.1).nonblank))) := by
  induction zs generalizing l with
  | nil => simp [dropSeparators]
  | cons z zs ih =>
    obtain ⟨raw, b⟩ := z
    cases zs with
    | nil => cases l <;> simp [dropSeparators]
    | cons y zs =>
      cases l with
      | zero => simp [dropSeparators]
      | succ l =>
        rw [dropSeparators, List.getElem?_cons_succ, ih l]
        rfl

def flagged (refs : List DirtyRef) (xs : List (Bytes × Bytes)) : List (Bytes × Bool) :=
  dropSeparators (xs.map (fun x => (x.2, dropsLine refs x)))

theorem flagged_length (refs : List DirtyRef) (xs : List (Bytes × Bytes)) :
    (flagged refs xs).length = xs.length := by
  have hlen : ∀ zs : List (Bytes × Bool), (dropSeparators zs).length = zs.length := by
    intro zs
    induction zs with
    | nil => rfl
    | cons z zs ih => cases zs <;> simp_all [dropSeparators]
  rw [flagged, hlen, List.length_map]

theorem flagged_at (h : Bindings cfg xs refs) (hz : ∀ y ∈ xs, 0 ∉ y.2) (hx : xs[l]? = some x) :
    ∃ b, (flagged refs xs)[l]? = some (x.2, b) ∧ (b = true ↔ Goes cfg xs l x) := by
  rw [flagged, separators_at]
  simp only [List.getElem?_map, hx, Option.map_some]
  refine ⟨_, rfl, ?_⟩
  rw [Bool.or_eq_true, drops_line_iff h]
  constructor
  · rintro ((⟨hs, hn⟩ | ⟨q, hq, hk⟩) | ha)
    · exact .leaving hs hn
    · exact .key q hq hk
    · cases hy : xs[l+1]? with
      | none => simp [hy] at ha
      | some y =>
        simp only [hy, Option.map_some, Option.any_some, Bool.and_eq_true, Bool.not_eq_true',
          decide_eq_true_eq, drops_line_iff h] at ha
        obtain ⟨⟨hd, hh⟩, hn⟩ := ha
        rcases hd with ⟨hs, -⟩ | ⟨q, -, hk⟩
        · exact .separator y hy hs (header_of_iff.mpr ⟨rfl, hh⟩) hn
        · rw [key_line_iff, hh] at hk
          cases hk.1
  · rintro (⟨q, hq, hk⟩ | ⟨hs, hn⟩ | ⟨y, hy, hs, hh, hn⟩)
    · exact Or.inl (Or.inr ⟨q, hq, hk⟩)
    · exact Or.inl (Or.inl ⟨hs, hn⟩)
    · have hk := (header_of_iff.mp hh).2
      have hv := kind_nonblank (hz y (List.mem_of_getElem? hy)) (by simp [hk])
      refine Or.inr ?_
      simp only [hy, Option.map_some, Option.any_some, Bool.and_eq_true, Bool.not_eq_true',
        decide_eq_true_eq, drops_line_iff h]
      exact ⟨⟨Or.inl ⟨hs, hv⟩, hk⟩, hn⟩

theorem replacement_cut {raw : Bytes} {d : DirtyRef} {e : ConfigEntry}
    (hend : d.repKeyEnd = (classifyLine raw).keyEnd)
    (hcom : d.repComOff = (classifyLine raw).comOff) :
    replacementLine raw d e = rewrittenLine raw e := by
  unfold rewrittenLine replacementLine
  rw [hend, hcom]

theorem stands_at (h : Bindings cfg xs refs) (hz : 0 ∉ x.2) (hx : xs[l]? = some x) {b : Bool}
    (hb : b = true ↔ Goes cfg xs l x) :
    Stands cfg xs l x (if b then none else some (lineFor refs l x.2)) := by
  cases b with
  | true => exact .gone (hb.mp rfl)
  | false =>
    have hg : ¬Goes cfg xs l x := fun hg => by cases hb.mpr hg
    rw [if_neg (by simp), lineFor]
    cases hf : refs.find? (fun d => d.replaceLine = some l) with
    | none =>
      refine .kept hg fun q e ho hl => ?_
      obtain ⟨d, hd, he, -, rfl⟩ := (h.owes q e).mp ho
      have hrep := (h.placed d hd).replaceLine
      rw [own_entry he, hl] at hrep
      have hno := List.find?_eq_none.mp hf d hd
      rw [hrep] at hno
      simp at hno
    | some d =>
      have hd := List.mem_of_find?_eq_some hf
      have hl : d.replaceLine = some l := by simpa using List.find?_some hf
      rw [(h.placed d hd).replaceLine, Option.map_eq_some_iff] at hl
      obtain ⟨⟨m, y⟩, hlast, rfl⟩ := hl
      have hy := last_where_at hlast
      have hown := (last_where_some hlast).2.1
      obtain rfl : y = x := by
        rw [Nat.sub_zero, hx] at hy
        exact (Option.some.inj hy).symm
      cases he : d.ent with
      | none =>
        rw [own_header he, header_of_iff] at hown
        have hl : Leaves cfg y.1 := by
          rw [h.leaves, hown.1]
          exact leaving_of_header hd he
        exact absurd (.leaving hl (kind_nonblank hz (by simp [hown.2]))) hg
      | some e =>
        rw [own_entry he] at hlast hown
        have hlive : e.removed = false := by
          by_contra hr
          refine hg (.key _ ?_ hown)
          exact (h.unset _).mpr (gone_of_removed hd he (by simpa using hr))
        obtain ⟨hend, hcom⟩ := (h.placed d hd).cut (by rw [he]; rfl) (m, y)
          (by rw [own_entry he]; exact hlast)
        simp only [he, replacement_cut hend hcom]
        exact .rewritten hg ((h.owes _ e).mpr ⟨d, hd, he, hlive, rfl⟩) hlast

theorem owes_line_stays (hs : Sound cfg) (hz : 0 ∉ x.2) {q : Place} {e : ConfigEntry}
    (ho : Owes cfg q e) (hk : keyLineOf q x = true) : ¬Goes cfg xs l x := by
  obtain ⟨hset, hsec⟩ := owes_stays hs ho
  obtain ⟨hkind, hq⟩ := key_line_iff.mp hk
  rintro (⟨p, hp, hx⟩ | ⟨hl, -⟩ | ⟨y, -, -, -, hn⟩)
  · rw [← hq, (key_line_iff.mp hx).2] at hset
    exact hset hp
  · rw [← hq] at hsec
    exact hsec hl
  · rw [kind_nonblank hz (by simp [hkind])] at hn
    cases hn

theorem placed_pending {d : DirtyRef} (h : Placed xs d) {e : ConfigEntry} (he : d.ent = some e)
    (hr : d.replaceLine = none) : pendingRef d = true ↔ e.removed = false := by
  have hdone := h.done
  rw [he] at hdone
  simp only [Option.mem_some_iff, forall_eq', hr, and_true] at hdone
  rw [pendingRef, he, ← Bool.not_eq_true e.removed, ← hdone]
  simp

theorem append_due_iff {d : DirtyRef} : appendDue l d = true ↔
    pendingRef d = true ∧ d.replaceLine = none ∧ d.appendLine = some l := by
  rw [appendDue, decide_eq_true_eq]

theorem added_at (h : Bindings cfg xs refs) : Added cfg xs l (appendedAt refs l) where
  mem e := by
    rw [appendedAt, List.mem_filterMap]
    constructor
    · rintro ⟨d, hmem, he⟩
      obtain ⟨hd, hdue⟩ := List.mem_filter.mp hmem
      obtain ⟨hpend, hr, ha⟩ := append_due_iff.mp hdue
      have hp := h.placed d hd
      have hlive := (placed_pending hp he hr).mp hpend
      rw [hp.replaceLine, Option.map_eq_none_iff, own_entry he] at hr
      rw [hp.appendLine, Option.map_eq_some_iff] at ha
      obtain ⟨⟨m, y⟩, hlast, rfl⟩ := ha
      exact ⟨_, y, (h.owes _ e).mpr ⟨d, hd, he, hlive, rfl⟩, hr, hlast⟩
    · rintro ⟨q, y, ho, hr, hlast⟩
      obtain ⟨d, hd, he, hlive, rfl⟩ := (h.owes q e).mp ho
      have hp := h.placed d hd
      have hrep : d.replaceLine = none := by rw [hp.replaceLine, own_entry he, hr]; rfl
      have happ : d.appendLine = some l := by rw [hp.appendLine, hlast]; rfl
      have hdue := append_due_iff.mpr ⟨(placed_pending hp he hrep).mpr hlive, hrep, happ⟩
      exact ⟨d, List.mem_filter.mpr ⟨hd, hdue⟩, he⟩
  once := by
    -- what is added below one line is all of the line's section
    have hsec : ∀ d ∈ refs.filter (appendDue l), ∃ y, xs[l]? = some y ∧
        foldCase d.sec.chars = y.1 := by
      intro d hmem
      obtain ⟨hd, hdue⟩ := List.mem_filter.mp hmem
      have ha := (append_due_iff.mp hdue).2.2
      rw [(h.placed d hd).appendLine, Option.map_eq_some_iff] at ha
      obtain ⟨⟨m, y⟩, hlast, rfl⟩ := ha
      have hc := (last_where_some hlast).2.1
      simp only [contentOf, Bool.and_eq_true, decide_eq_true_eq] at hc
      exact ⟨y, by simpa using last_where_at hlast, hc.1.symm⟩
    refine group_keys (c := (xs[l]?.map Prod.fst).getD [])
      ((List.filter_sublist.map refName).nodup h.distinct) fun d hd _ => ?_
    obtain ⟨y, hy, hc⟩ := hsec d hd
    rw [hy, hc]
    rfl

theorem body_lines_range (refs : List DirtyRef) (l : ℕ) (marked : List (Bytes × Bool)) :
    bodyLines refs l marked = (List.range marked.length).flatMap (fun i =>
      (marked[i]?.map (fun z => blockLines refs (l+i) z.1 z.2)).getD []) := by
  induction marked generalizing l with
  | nil => rfl
  | cons z marked ih =>
    obtain ⟨raw, b⟩ := z
    rw [bodyLines, ih, List.length_cons, List.range_succ_eq_map, List.flatMap_cons,
      List.flatMap_map]
    have hl : ∀ i, l+1+i = l+i.succ := fun i => by omega
    simp only [List.getElem?_cons_zero, Option.map_some, Option.getD_some, Nat.add_zero,
      List.getElem?_cons_succ, hl]

end Lines

section NewSections

/-- A section written at the end of the file, with or without a blank line
above it. -/
structure NewSection where
  blank : Bool
  name : Field maxSecn
  entries : List ConfigEntry

def NewSection.lines (o : NewSection) : List Bytes :=
  (if o.blank then [[]] else []) ++ headerLine o.name.chars::o.entries.map entryLine

def NewSection.key (o : NewSection) : Bytes := foldCase o.name.chars

/-- The sections at the end of the file are those of the live entries whose
section has no header, each once and with just these entries. -/
structure Ending (cfg : Config) (xs : List (Bytes × Bytes)) (os : List NewSection) : Prop where
  missing : ∀ o ∈ os, o.key ≠ [] ∧ ∀ x ∈ xs, headerOf o.key x = false
  distinct : (os.map NewSection.key).Nodup
  mem : ∀ o ∈ os, ∀ e, e ∈ o.entries ↔ Owes cfg (o.key, entryKey e) e
  once : ∀ o ∈ os, o.entries ≠ [] ∧ (o.entries.map entryKey).Nodup
  all : ∀ q e, Owes cfg q e → (∀ x ∈ xs, headerOf q.1 x = false) → ∃ o ∈ os, o.key = q.1

def newSections (written : List (Field maxSecn)) (out : Bytes) : List DirtyRef → List NewSection
  | [] => []
  | d::rest =>
    if opensSection written d then
      let o := ⟨separator out ≠ [], d.sec, groupOf written d (d::rest)⟩
      o::newSections (d.sec::written) (out ++ joined newline o.lines) rest
    else newSections written out rest

theorem new_section_lines (written : List (Field maxSecn)) (out : Bytes) (refs : List DirtyRef) :
    newSectionLines written out refs = (newSections written out refs).flatMap NewSection.lines := by
  induction refs generalizing written out with
  | nil => rfl
  | cons d refs ih =>
    have hlines : sectionLines out d (groupOf written d (d::refs)) =
        NewSection.lines ⟨separator out ≠ [], d.sec, groupOf written d (d::refs)⟩ := by
      rw [sectionLines, NewSection.lines]
      by_cases hs : separator out = [] <;> simp [hs]
    rw [newSectionLines, newSections]
    split
    · dsimp only
      rw [List.flatMap_cons, ← hlines, ih]
    · exact ih written out

variable {written : List (Field maxSecn)} {out : Bytes} {refs : List DirtyRef}

theorem due_cons {w : Field maxSecn} {r : DirtyRef} : sectionDue (w::written) r = true ↔
    sectionDue written r = true ∧ foldCase w.chars ≠ foldCase r.sec.chars := by
  rw [due_iff, due_iff, List.forall_mem_cons]
  tauto

theorem new_sections_open {o : NewSection} (ho : o ∈ newSections written out refs) :
    ∃ d ∈ refs, Unplaced d ∧ sectionDue written d = true ∧ o.name = d.sec := by
  induction refs generalizing written out with
  | nil => cases ho
  | cons d refs ih =>
    rw [newSections] at ho
    split at ho
    next hd =>
      rcases List.mem_cons.mp ho with rfl | ho
      · obtain ⟨hu, hdue⟩ := opens_iff.mp hd
        exact ⟨d, by simp, hu, hdue, rfl⟩
      · obtain ⟨r, hr, hu, hdue, hn⟩ := ih ho
        exact ⟨r, by simp [hr], hu, (due_cons.mp hdue).1, hn⟩
    next =>
      obtain ⟨r, hr, h⟩ := ih ho
      exact ⟨r, by simp [hr], h⟩

theorem new_sections_all (out : Bytes) {d : DirtyRef} (hd : d ∈ refs) (hu : Unplaced d)
    (hdue : sectionDue written d = true) :
    ∃ o ∈ newSections written out refs, o.key = foldCase d.sec.chars := by
  induction refs generalizing written out with
  | nil => simp at hd
  | cons r refs ih =>
    rw [newSections]
    by_cases ho : opensSection written r = true
    · rw [if_pos ho]
      by_cases hsec : foldCase r.sec.chars = foldCase d.sec.chars
      · exact ⟨_, List.mem_cons_self .., hsec⟩
      · have hne : d ≠ r := fun h => hsec (by rw [h])
        obtain ⟨o, hmem, hk⟩ := ih _ ((List.mem_cons.mp hd).resolve_left hne)
          (due_cons.mpr ⟨hdue, hsec⟩)
        exact ⟨o, List.mem_cons_of_mem _ hmem, hk⟩
    · have hne : d ≠ r := fun h => ho (opens_iff.mpr (h ▸ ⟨hu, hdue⟩))
      rw [if_neg ho]
      exact ih out ((List.mem_cons.mp hd).resolve_left hne) hdue

theorem new_sections_distinct : ((newSections written out refs).map NewSection.key).Nodup := by
  induction refs generalizing written out with
  | nil => exact List.nodup_nil
  | cons d refs ih =>
    rw [newSections]
    split
    · dsimp only
      rw [List.map_cons, List.nodup_cons]
      refine ⟨fun hm => ?_, ih⟩
      obtain ⟨o, ho, hk⟩ := List.mem_map.mp hm
      obtain ⟨r, -, -, hdue, hn⟩ := new_sections_open ho
      rw [NewSection.key, hn] at hk
      exact (due_cons.mp hdue).2 hk.symm
    · exact ih

/-- A new section has every change that waits for it: the first one of them
opens it. -/
theorem new_sections_mem (htog : ∀ d ∈ refs, ∀ r ∈ refs,
      foldCase d.sec.chars = foldCase r.sec.chars → d.secInFile = r.secInFile)
    {o : NewSection} (ho : o ∈ newSections written out refs) (e : ConfigEntry) :
    e ∈ o.entries ↔ ∃ r ∈ refs, r.ent = some e ∧ sectionDue written r = true ∧
      foldCase r.sec.chars = o.key := by
  induction refs generalizing written out with
  | nil => cases ho
  | cons d refs ih =>
    have hrest := fun {w : List (Field maxSecn)} {t : Bytes} (h : o ∈ newSections w t refs) =>
      ih (fun a ha b hb => htog a (by simp [ha]) b (by simp [hb])) h
    rw [newSections] at ho
    split at ho
    next hopen =>
      rcases List.mem_cons.mp ho with rfl | ho
      · exact group_iff e
      · obtain ⟨r', -, -, hdue', hn⟩ := new_sections_open ho
        have hother : foldCase d.sec.chars ≠ o.key := by
          rw [NewSection.key, hn]
          exact (due_cons.mp hdue').2
        rw [hrest ho]
        constructor
        · rintro ⟨r, hr, he, hdue, hk⟩
          exact ⟨r, by simp [hr], he, (due_cons.mp hdue).1, hk⟩
        · rintro ⟨r, hr, he, hdue, hk⟩
          have hne : r ≠ d := fun h => hother (by rw [← h, hk])
          exact ⟨r, (List.mem_cons.mp hr).resolve_left hne, he,
            due_cons.mpr ⟨hdue, by rw [hk]; exact hother⟩, hk⟩
    next hopen =>
      rw [hrest ho]
      constructor
      · rintro ⟨r, hr, h⟩
        exact ⟨r, by simp [hr], h⟩
      · rintro ⟨r, hr, he, hdue, hk⟩
        refine ⟨r, (List.mem_cons.mp hr).resolve_left fun h => hopen ?_, he, hdue, hk⟩
        subst h
        obtain ⟨r', hr', ⟨hp', hf', hne'⟩, -, hn⟩ := new_sections_open ho
        rw [NewSection.key, hn] at hk
        refine opens_iff.mpr ⟨⟨(due_iff.mp hdue).1, ?_, fun h0 => hne' ?_⟩, hdue⟩
        · rw [htog r (by simp) r' (by simp [hr']) hk, hf']
        · rw [h0] at hk
          exact List.map_eq_nil_iff.mp hk.symm

theorem new_sections_once (hn : (refs.map refName).Nodup) {o : NewSection}
    (ho : o ∈ newSections written out refs) : (o.entries.map entryKey).Nodup := by
  induction refs generalizing written out with
  | nil => cases ho
  | cons d refs ih =>
    rw [newSections] at ho
    split at ho
    next =>
      rcases List.mem_cons.mp ho with rfl | ho
      · refine group_keys (c := foldCase d.sec.chars)
          ((List.filter_sublist.map refName).nodup hn) fun x hx _ => ?_
        simp only [List.mem_filter, Bool.and_eq_true, sameName, decide_eq_true_eq] at hx
        exact hx.2.2
      · exact ih (List.nodup_cons.mp hn).2 ho
    next => exact ih (List.nodup_cons.mp hn).2 ho

variable {cfg : Config} {raws : List Bytes} {after : List DirtyRef} {n : ℕ}

theorem absent_waits (h : Bindings cfg (placedLines [] raws) refs) {d d' : DirtyRef}
    (hd : d ∈ refs) (hl : Later n d d') (hfile : d.secInFile = false) (hne : d.sec.chars ≠ [])
    {e : ConfigEntry} (he : d.ent = some e) : pendingRef d' = true ↔ e.removed = false := by
  have hp := h.placed d hd
  have hs : ([] : Bytes) ≠ foldCase d.sec.chars := fun h0 => hne (List.map_eq_nil_iff.mp h0.symm)
  rw [hp.secInFile, List.any_eq_false] at hfile
  have habs := placed_lines_absent hs fun x hx => by simpa using hfile x hx
  have hrep : d.replaceLine = none := by
    rw [hp.replaceLine, Option.map_eq_none_iff, last_where_none]
    intro x hx
    by_contra ho
    exact habs x hx (own_section (by simpa using ho))
  have happ : d.appendLine = none := by
    rw [hp.appendLine, Option.map_eq_none_iff, last_where_none]
    intro x hx
    simp [contentOf, habs x hx]
  have hdone := hl.waiting hrep (by simp [happ])
  obtain ⟨b, rfl⟩ := hl.same
  rw [← placed_pending hp he hrep, pendingRef, pendingRef, hdone]

theorem after_together (h : Bindings cfg (placedLines [] raws) refs) (ha : Agrees n refs after) :
    ∀ d ∈ after, ∀ r ∈ after, foldCase d.sec.chars = foldCase r.sec.chars →
      d.secInFile = r.secInFile := by
  intro d' hd' r' hr' hsec
  obtain ⟨d, hd, hl⟩ := agrees_mem ha hd'
  obtain ⟨r, hr, hl'⟩ := agrees_mem ha hr'
  obtain ⟨b, rfl⟩ := hl.same
  obtain ⟨b', rfl⟩ := hl'.same
  have hsec : foldCase d.sec.chars = foldCase r.sec.chars := hsec
  show d.secInFile = r.secInFile
  rw [(h.placed d hd).secInFile, (h.placed r hr).secInFile, hsec]

theorem due_start (d : DirtyRef) : sectionDue [] d = true ↔ pendingRef d = true := by
  rw [due_iff]
  simp

theorem open_missing (h : Bindings cfg (placedLines [] raws) refs) (ha : Agrees n refs after)
    {o : NewSection} (ho : o ∈ newSections [] out after) :
    o.key ≠ [] ∧ ∀ x ∈ placedLines [] raws, headerOf o.key x = false := by
  obtain ⟨d', hd', ⟨-, hfile, hne⟩, -, hn⟩ := new_sections_open ho
  obtain ⟨d, hd, hl⟩ := agrees_mem ha hd'
  obtain ⟨b, rfl⟩ := hl.same
  have hfile : d.secInFile = false := hfile
  rw [(h.placed d hd).secInFile, List.any_eq_false] at hfile
  rw [NewSection.key, hn]
  exact ⟨fun h0 => hne (List.map_eq_nil_iff.mp h0), fun x hx => by simpa using hfile x hx⟩

theorem missing_owes (h : Bindings cfg (placedLines [] raws) refs) (ha : Agrees n refs after)
    {s : Bytes} (hs : s ≠ []) (hm : ∀ x ∈ placedLines [] raws, headerOf s x = false)
    (e : ConfigEntry) : Owes cfg (s, entryKey e) e ↔ ∃ r ∈ after, r.ent = some e ∧
      pendingRef r = true ∧ r.secInFile = false ∧ foldCase r.sec.chars = s := by
  have hfile : ∀ d ∈ refs, foldCase d.sec.chars = s →
      d.secInFile = false ∧ d.sec.chars ≠ [] := by
    intro d hd hsec
    refine ⟨?_, fun h0 => hs ?_⟩
    · rw [(h.placed d hd).secInFile, hsec, List.any_eq_false]
      exact fun x hx => by simp [hm x hx]
    · rw [← hsec, h0]
      rfl
  rw [h.owes]
  constructor
  · rintro ⟨d, hd, he, hr, hq⟩
    obtain ⟨hin, hne⟩ := hfile d hd (congrArg Prod.fst hq)
    obtain ⟨d', hd', hl⟩ := agrees_mem_left ha hd
    have hpend := (absent_waits h hd hl hin hne he).mpr hr
    obtain ⟨b, rfl⟩ := hl.same
    exact ⟨_, hd', he, hpend, hin, congrArg Prod.fst hq⟩
  · rintro ⟨r, hr, he, hpend, -, hsec⟩
    obtain ⟨d, hd, hl⟩ := agrees_mem ha hr
    obtain ⟨b, hb⟩ := hl.same
    have hsec' : foldCase d.sec.chars = s := by rw [← hsec, hb]
    have he' : d.ent = some e := by rw [← he, hb]
    obtain ⟨hin, hne⟩ := hfile d hd hsec'
    exact ⟨d, hd, he', (absent_waits h hd hl hin hne he').mp hpend, Prod.ext hsec' rfl⟩

theorem ending (out : Bytes) (hp : Holds (Pending OneLine) cfg) (h : Bindings cfg (placedLines [] raws) refs)
    (ha : Agrees n refs after) : Ending cfg (placedLines [] raws) (newSections [] out after) := by
  have hmem : ∀ o ∈ newSections [] out after, ∀ e, e ∈ o.entries ↔
      Owes cfg (o.key, entryKey e) e := by
    intro o ho e
    obtain ⟨hne, hm⟩ := open_missing h ha ho
    rw [new_sections_mem (after_together h ha) ho, missing_owes h ha hne hm]
    obtain ⟨d, hd, ⟨-, hfile, -⟩, -, hn⟩ := new_sections_open ho
    constructor
    · rintro ⟨r, hr, he, hdue, hk⟩
      refine ⟨r, hr, he, (due_start r).mp hdue, ?_, hk⟩
      rw [after_together h ha r hr d hd (by rw [hk, NewSection.key, hn]), hfile]
    · rintro ⟨r, hr, he, hpend, -, hk⟩
      exact ⟨r, hr, he, (due_start r).mpr hpend, hk⟩
  refine ⟨fun o ho => open_missing h ha ho, new_sections_distinct, hmem, fun o ho => ?_,
    fun q e ho hm => ?_⟩
  · refine ⟨?_, new_sections_once (by rw [agrees_names ha]; exact h.distinct) ho⟩
    obtain ⟨d, hd, ⟨hpend, -, -⟩, hdue, hn⟩ := new_sections_open ho
    obtain ⟨e, he⟩ : ∃ e, d.ent = some e := by
      rw [pendingRef, Bool.decide_and, Bool.and_eq_true, decide_eq_true_eq] at hpend
      exact Option.isSome_iff_exists.mp hpend.1
    have hin : e ∈ o.entries := (new_sections_mem (after_together h ha) ho e).mpr
      ⟨d, hd, he, hdue, by rw [NewSection.key, hn]⟩
    exact List.ne_nil_of_mem hin
  · have hne := (owes_one_line hp ho).named
    have hq : (q.1, entryKey e) = q := by rw [owes_key ho]
    rw [← hq, missing_owes h ha hne hm] at ho
    obtain ⟨r, hr, -, hpend, hfile, hsec⟩ := ho
    have hr0 : r.sec.chars ≠ [] := fun h0 => hne (by rw [← hsec, h0]; rfl)
    obtain ⟨o, ho, hk⟩ := new_sections_all out hr ⟨hpend, hfile, hr0⟩
      ((due_start r).mpr hpend)
    exact ⟨o, ho, hk.trans hsec⟩

end NewSections

section Frame

/-- A file and the text of it after a save: what stands for each line, what is
added below it, and the sections at the end. -/
structure Framed (cfg : Config) (text out : Bytes) (stand : ℕ → Option Bytes)
    (added : ℕ → List ConfigEntry) (os : List NewSection) : Prop where
  lines : pieces newline out = (List.range (pieces newline text).length).flatMap (fun l =>
    (stand l).toList ++ (added l).map entryLine) ++ os.flatMap NewSection.lines
  ended : out = joined newline (pieces newline out)
  stands : ∀ l x, (placedLines [] (pieces newline text))[l]? = some x →
    Stands cfg (placedLines [] (pieces newline text)) l x (stand l)
  added : ∀ l < (pieces newline text).length,
    Added cfg (placedLines [] (pieces newline text)) l (added l)
  live : ∀ q e r, Owes cfg q e → lastWhere (keyLineOf q) 0 (placedLines [] (pieces newline text)) =
    some r → ¬Goes cfg (placedLines [] (pieces newline text)) r.1 r.2
  ending : Ending cfg (placedLines [] (pieces newline text)) os

variable {cfg : Config} {xs : List (Bytes × Bytes)} {refs : List DirtyRef} {l : ℕ}
  {x : Bytes × Bytes}

theorem owes_plain (hp : Holds (Pending OneLine) cfg) {q : Place} {e : ConfigEntry}
    (h : Owes cfg q e) : newline ∉ e.key.chars ∧ newline ∉ e.value.chars := by
  have hl := owes_one_line hp h
  refine ⟨fun hm => hl.key ?_, hl.value⟩
  rw [← owes_key h]
  exact (mem_foldCase_mark newline (by decide) _).mpr hm

theorem entry_line_plain {e : ConfigEntry} (h : newline ∉ e.key.chars ∧ newline ∉ e.value.chars) :
    newline ∉ entryLine e := by
  simp [entryLine, ConfigGrammar.keyShape, h.1, h.2, show newline ≠ space by decide,
    show newline ≠ equals by decide]

theorem rewritten_plain {raw : Bytes} {e : ConfigEntry} (hraw : newline ∉ raw)
    (h : newline ∉ e.key.chars ∧ newline ∉ e.value.chars) : newline ∉ rewrittenLine raw e := by
  have htake : ∀ n, newline ∉ raw.take n := fun n hm => hraw (List.mem_of_mem_take hm)
  have hdrop : ∀ n, newline ∉ raw.drop n := fun n hm => hraw (List.mem_of_mem_drop hm)
  have h1 : newline ≠ space := by decide
  have h2 : newline ≠ equals := by decide
  have hkey : ∀ n, newline ∉ (if n > 0 then raw.take n else e.key.chars) := fun n => by
    split
    · exact htake n
    · exact h.1
  unfold rewrittenLine replacementLine
  dsimp only
  simp only [List.mem_append, List.mem_cons, not_or]
  refine ⟨⟨hkey _, h1, h2, h1, h.2⟩, ?_⟩
  cases (classifyLine raw).comOff with
  | none => simp
  | some off =>
    dsimp only
    split
    · simp
    · exact hdrop off

theorem stands_plain (hp : Holds (Pending OneLine) cfg) (hx : newline ∉ x.2) {o : Option Bytes}
    (h : Stands cfg xs l x o) : ∀ line ∈ o, newline ∉ line := by
  intro line hline
  cases h with
  | gone => cases hline
  | rewritten hg ho hl =>
    rw [← Option.some.inj hline]
    exact rewritten_plain hx (owes_plain hp ho)
  | kept hg hl =>
    rw [← Option.some.inj hline]
    exact hx

theorem added_plain (hp : Holds (Pending OneLine) cfg) {es : List ConfigEntry}
    (h : Added cfg xs l es) : ∀ e ∈ es, newline ∉ entryLine e := by
  intro e he
  obtain ⟨q, y, ho, -⟩ := (h.mem e).mp he
  exact entry_line_plain (owes_plain hp ho)

theorem ending_plain (hp : Holds (Pending OneLine) cfg) {os : List NewSection}
    (h : Ending cfg xs os) : ∀ o ∈ os, ∀ line ∈ o.lines, newline ∉ line := by
  intro o ho line hline
  have hentry : ∀ e ∈ o.entries, Owes cfg (o.key, entryKey e) e := fun e => (h.mem o ho e).mp
  rcases List.mem_append.mp hline with hline | hline
  · split at hline
    · rw [List.mem_singleton.mp hline]
      simp
    · cases hline
  · rcases List.mem_cons.mp hline with rfl | hline
    · obtain ⟨e, he⟩ := List.exists_mem_of_ne_nil _ (h.once o ho).1
      have hsec := (owes_one_line hp (hentry e he)).sec
      have hname : newline ∉ o.name.chars := fun hm =>
        hsec ((mem_foldCase_mark newline (by decide) _).mpr hm)
      simp [headerLine, hname, show newline ≠ lbracket by decide,
        show newline ≠ rbracket by decide]
    · obtain ⟨e, he, rfl⟩ := List.mem_map.mp hline
      exact entry_line_plain (owes_plain hp (hentry e he))

theorem joined_lines {ls : List Bytes} (h : ∀ line ∈ ls, newline ∉ line) :
    pieces newline (joined newline ls) = ls := by
  rw [pieces_joined, List.flatMap_congr fun line hl => parts_single (h line hl)]
  simp

def standFor (refs : List DirtyRef) (xs : List (Bytes × Bytes)) (l : ℕ) : Option Bytes :=
  (flagged refs xs)[l]?.bind (fun z => if z.2 then none else some (lineFor refs l z.1))

theorem body_frame (refs : List DirtyRef) (xs : List (Bytes × Bytes)) :
    bodyLines refs 0 (flagged refs xs) = (List.range xs.length).flatMap (fun l =>
      (standFor refs xs l).toList ++ (appendedAt refs l).map entryLine) := by
  rw [body_lines_range, flagged_length]
  refine List.flatMap_congr fun l hl => ?_
  have hlt : l < (flagged refs xs).length := by
    rw [flagged_length]
    exact List.mem_range.mp hl
  rw [standFor, List.getElem?_eq_getElem hlt, Option.map_some, Option.getD_some, Option.bind_some,
    Nat.zero_add, blockLines]
  split <;> rfl

theorem stand_for_stands (h : Bindings cfg xs refs) (hz : ∀ y ∈ xs, 0 ∉ y.2)
    (hx : xs[l]? = some x) : Stands cfg xs l x (standFor refs xs l) := by
  obtain ⟨b, hf, hb⟩ := flagged_at h hz hx
  rw [standFor, hf, Option.bind_some]
  exact stands_at h (hz x (List.mem_of_getElem? hx)) hx hb

theorem bound_top (hp : Holds (Pending OneLine) cfg) (h : Bindings cfg xs refs) (d : DirtyRef)
    (hd : d ∈ refs) : topDue d = false := by
  by_contra ht
  simp only [topDue, Bool.not_eq_false, decide_eq_true_eq] at ht
  obtain ⟨hpend, h0, hr, -⟩ := ht
  cases he : d.ent with
  | none => simp [pendingRef, he] at hpend
  | some e =>
    have hlive := (placed_pending (h.placed d hd) he hr).mp hpend
    have ho := (h.owes _ e).mpr ⟨d, hd, he, hlive, rfl⟩
    exact (owes_one_line hp ho).named (by rw [h0]; rfl)

/-- The flags of the pass over a text, read off its placed lines. -/
theorem pass_flagged (hs : Sound cfg) {text : Bytes} (hz : 0 ∉ text) :
    dropSeparators ((pieces newline text).zip
        (bindLines 0 startSection false (collectDirty cfg) (pieces newline text)).2) =
      flagged ((collectDirty cfg).map (boundRef (pieces newline text)))
        (placedLines [] (pieces newline text)) := by
  have hdrops := drops_line_map (bound_ref_same (pieces newline text)) (collectDirty cfg)
  have hflags := bind_lines_flags (fun raw hr h0 => hz (pieces_subset newline text raw hr 0 h0))
    start_section 0 (collectDirty cfg)
  have hzip : ((placedLines [] (pieces newline text)).map Prod.snd).zip
      ((placedLines [] (pieces newline text)).map (dropsLine (collectDirty cfg))) = _ := List.zip_map'
  rw [placed_lines_raw] at hzip
  rw [top_stays hs] at hflags
  rw [hflags, hzip, flagged, hdrops]

theorem written_plain (hp : Holds (Pending OneLine) cfg) (hb : Bindings cfg xs refs)
    (hline : ∀ y ∈ xs, 0 ∉ y.2 ∧ newline ∉ y.2) {os : List NewSection} (hend : Ending cfg xs os) :
    ∀ line ∈ bodyLines refs 0 (flagged refs xs) ++ os.flatMap NewSection.lines, newline ∉ line := by
  intro line hmem
  rw [body_frame] at hmem
  rcases List.mem_append.mp hmem with hmem | hmem
  · obtain ⟨l, hl, hmem⟩ := List.mem_flatMap.mp hmem
    have hlt := List.mem_range.mp hl
    have hstand := stand_for_stands hb (fun y hy => (hline y hy).1) (List.getElem?_eq_getElem hlt)
    rcases List.mem_append.mp hmem with hmem | hmem
    · exact stands_plain hp (hline _ (List.getElem_mem hlt)).2 hstand line
        (Option.mem_toList.mp hmem)
    · obtain ⟨e, he, rfl⟩ := List.mem_map.mp hmem
      exact added_plain hp (added_at hb) e he
  · obtain ⟨o, ho, hmem⟩ := List.mem_flatMap.mp hmem
    exact ending_plain hp hend o ho line hmem

theorem edited_frame (hs : Sound cfg) (hp : Holds (Pending OneLine) cfg) {text : Bytes}
    (hz : 0 ∉ text) : ∃ stand added os,
      Framed cfg text (editedText (collectDirty cfg) text) stand added os := by
  have hline : ∀ y ∈ placedLines [] (pieces newline text), 0 ∉ y.2 ∧ newline ∉ y.2 := by
    intro y hy
    have hr : y.2 ∈ pieces newline text := by
      rw [← placed_lines_raw [] (pieces newline text)]
      exact List.mem_map_of_mem hy
    exact ⟨fun h0 => hz (pieces_subset newline text _ hr 0 h0),
      pieces_separator_free newline text _ hr⟩
  have hb := bindings hs hp (pieces newline text)
  have hplan : (bindLines 0 startSection false (collectDirty cfg) (pieces newline text)).1.map
      settleRef = (collectDirty cfg).map (boundRef (pieces newline text)) := by
    rw [bind_lines_refs, List.map_map]
    rfl
  obtain ⟨out, after, hagree, htext⟩ :=
    edited_text_lines hplan (pass_flagged hs hz) (bound_top hp hb)
  generalize (collectDirty cfg).map (boundRef (pieces newline text)) = refs at hb hagree htext
  have hend := ending out hp hb hagree
  have hplain := written_plain hp hb hline hend
  have hlines := joined_lines hplain
  rw [← new_section_lines, ← htext] at hlines
  refine ⟨standFor refs (placedLines [] (pieces newline text)), appendedAt refs,
    newSections [] out after, ?_, ?_, fun l x hx => ?_, fun l _ => added_at hb, ?_, hend⟩
  · rw [hlines, body_frame, new_section_lines, placed_lines_length]
  · rw [hlines]
    exact htext
  · exact stand_for_stands hb (fun y hy => (hline y hy).1) hx
  · intro q e r ho hr
    obtain ⟨-, hk, hmem⟩ := last_where_some hr
    exact owes_line_stays hs (hline r.2 hmem).1 ho hk

end Frame

section Runs

def OneLineOp (op : Op) : Prop :=
  (∀ name ∈ opNames op, newline ∉ name.chars) ∧ Writes (fun _ _ v => newline ∉ v.chars) op

theorem one_line_writes {op : Op} (h : OneLineOp op) : Writes (fun sec key v =>
    newline ∉ sec.chars ∧ newline ∉ key.chars ∧ newline ∉ v.chars) op := by
  obtain ⟨hn, hw⟩ := h
  unfold Writes at hw ⊢
  rw [← names_normal] at hn
  cases hop : normal op with
  | setStr sec key v =>
    rw [hop] at hn hw
    exact ⟨hn sec (by simp [opNames]), hn key (by simp [opNames]), hw⟩
  | _ => trivial

theorem one_line_kept : Kept (Pending OneLine) (fun sec key v =>
    newline ∉ sec.chars ∧ newline ∉ key.chars ∧ newline ∉ v.chars) :=
  pending_kept_of fun sec key v hne ⟨hs, hk, hv⟩ =>
    { named := fun h => hne (List.map_eq_nil_iff.mp h)
      sec := fun h => hs ((mem_foldCase_mark newline (by decide) _).mp h)
      key := fun h => hk ((mem_foldCase_mark newline (by decide) _).mp h)
      value := fun h => hv (List.mem_of_mem_take h) }

/-- Whatever the file has become, an edit of it drops, rewrites and adds what
the config owes and writes every other line again as it was. -/
theorem surgical_frame (longMax : ℕ) (start text : Bytes) (ops : List Op)
    (hstart : FileFits start) (hn : ∀ op ∈ ops, NamesFit op) (hl : ∀ op ∈ ops, OneLineOp op)
    (hz : 0 ∉ text) : ∃ stand added os, Framed (run longMax (rssConfigLoad start) ops) text
      (editedText (collectDirty (run longMax (rssConfigLoad start) ops)) text) stand added os :=
  edited_frame (sound_run (load_sound hstart) hn)
    (kept_run one_line_kept (load_sound hstart) hn (fun op ho => one_line_writes (hl op ho))
      (fresh_pending (load_fresh hstart))) hz

def frameOps : List Op :=
  [.setStr (literal "video") (literal "fps") (literal "25"),
    .setStr (literal "video") (literal "gop") (literal "50"),
    .unset (literal "video") (literal "old"), .removeSection (literal "audio"),
    .setStr (literal "osd") (literal "text") (literal "on")]

def frameStart : Bytes := ascii "[video]\nfps = 15\nold = 2\n[audio]\nrate = 8\n"

def frameText : Bytes :=
  ascii "# top\n[video]\nfps = 20 # slow\n\nold = 7\n\n[audio]\nother = 2\n"

theorem surgical_frame_sample : ∃ stand added os,
    Framed (run 2147483647 (rssConfigLoad frameStart) frameOps) frameText
      (editedText (collectDirty (run 2147483647 (rssConfigLoad frameStart) frameOps)) frameText)
      stand added os := by
  refine surgical_frame 2147483647 frameStart frameText frameOps (by decide +kernel) (by decide) ?_
    (by decide)
  intro op ho
  simp only [frameOps, List.mem_cons, List.not_mem_nil, or_false] at ho
  rcases ho with rfl | rfl | rfl | rfl | rfl
  all_goals exact ⟨by decide, by first | trivial | (show newline ∉ _; decide)⟩

example :
    editedText (collectDirty (run 2147483647 (rssConfigLoad frameStart) frameOps)) frameText =
      ascii "# top\n[video]\nfps = 25 # slow\n\ngop = 50\n\n[osd]\ntext = on\n" := by
  decide +kernel

end Runs

end RaptorCommon.ConfigFrame
