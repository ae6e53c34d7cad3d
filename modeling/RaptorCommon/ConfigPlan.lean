import RaptorCommon.ConfigEmission

/-!
# The plan of an edit

Changes that fit together, bound to the lines of a file, make a plan. A plan
says which line each change replaces and after which line it is added, and
does so for every tail of the file by what is still ahead.
-/

set_option autoImplicit false

namespace RaptorCommon.ConfigPlan
open RaptorCommon.CText RaptorCommon.ConfigStore RaptorCommon.ConfigLoader
open RaptorCommon.ConfigWriter RaptorCommon.ConfigEditor RaptorCommon.ConfigMap
open RaptorCommon.ConfigLineView RaptorCommon.ConfigBinding RaptorCommon.ConfigEmission
open RaptorCommon.ConfigGrammar RaptorCommon.ConfigSettings RaptorCommon.IniSemantics
open RaptorCommon.LineText

section Plans

def refName (d : DirtyRef) : Bytes × Option Bytes := (foldCase d.sec.chars, d.ent.map entryKey)

/-- What makes the changes of a save fit together: one change for each name,
nothing live in a section that leaves, and values that stay in their lines. -/
structure Orderly (refs : List DirtyRef) : Prop where
  distinct : (refs.map refName).Nodup
  leaving_named : ∀ d ∈ refs, d.ent = none → d.sec.chars ≠ []
  leaving_dead : ∀ d ∈ refs, ∀ e ∈ d.ent, leavingIn refs (foldCase d.sec.chars) = true →
    e.removed = true
  section_name : ∀ d ∈ refs, ∀ e ∈ d.ent, e.removed = false → SectionName d.sec.chars
  key_text : ∀ d ∈ refs, ∀ e ∈ d.ent, e.removed = false → KeyText e.key.chars
  contained : ∀ d ∈ refs, ∀ e ∈ d.ent, e.removed = false → Contained e.value.chars

structure Plan (xs : List (Bytes × Bytes)) (refs : List DirtyRef) : Prop extends Orderly refs where
  replaceLine : ∀ d ∈ refs, d.replaceLine = (lastWhere (claims d) 0 xs).map Prod.fst
  cut : ∀ d ∈ refs, d.ent.isSome → ∀ r ∈ lastWhere (claims d) 0 xs,
    d.repKeyEnd = (classifyLine r.2.2).keyEnd ∧ d.repComOff = (classifyLine r.2.2).comOff
  appendLine : ∀ d ∈ refs, d.appendLine = (lastWhere (visibleIn d) 0 xs).map Prod.fst
  secInFile : ∀ d ∈ refs, d.secInFile = xs.any (headerIn d)
  done : ∀ d ∈ refs, d.done = true ↔ (∀ e ∈ d.ent, e.removed = true) ∧ d.replaceLine = none

def startSection : Field maxSecn := rssStrlcpy maxSecn (CString.at [])

theorem start_section : foldCase startSection.chars = [] := rfl

def boundRef (raws : List Bytes) (d : DirtyRef) : DirtyRef :=
  settleRef (bindAll 0 startSection d raws)

theorem settle_same (d : DirtyRef) : ∃ b, settleRef d = { d with done := b } := by
  unfold settleRef
  split
  · exact ⟨true, rfl⟩
  · exact ⟨d.done, rfl⟩

theorem settle_done (d : DirtyRef) (h : d.done = false) :
    (settleRef d).done = true ↔ (∀ e ∈ d.ent, e.removed = true) ∧ d.replaceLine = none := by
  unfold settleRef
  have hall : d.ent.all (fun e => e.removed) = true ↔ ∀ e ∈ d.ent, e.removed = true := by
    cases d.ent <;> simp
  split
  next hc => simpa [hall] using hc
  next hc => simpa [h, hall] using hc

theorem orderly_map {refs : List DirtyRef} {f : DirtyRef → DirtyRef} (h : Orderly refs)
    (hf : ∀ d, (f d).sec = d.sec ∧ (f d).ent = d.ent) : Orderly (refs.map f) := by
  have hname : ∀ d, refName (f d) = refName d := fun d => by rw [refName, refName, (hf d).1, (hf d).2]
  have hall : ∀ {P : DirtyRef → Prop}, (∀ d ∈ refs, P (f d)) → ∀ d ∈ refs.map f, P d := by
    intro P hp x hx
    obtain ⟨d, hd, rfl⟩ := List.mem_map.mp hx
    exact hp d hd
  constructor
  · rw [List.map_map, show refName ∘ f = refName from funext hname]
    exact h.distinct
  · refine hall fun d hd => ?_
    rw [(hf d).1, (hf d).2]
    exact h.leaving_named d hd
  · refine hall fun d hd => ?_
    rw [(hf d).1, (hf d).2, leaving_map hf]
    exact h.leaving_dead d hd
  · refine hall fun d hd => ?_
    rw [(hf d).1, (hf d).2]
    exact h.section_name d hd
  · refine hall fun d hd => ?_
    rw [(hf d).2]
    exact h.key_text d hd
  · refine hall fun d hd => ?_
    rw [(hf d).2]
    exact h.contained d hd

theorem bound_same {raws : List Bytes} (hraw : ∀ raw ∈ raws, PlainLine raw) (d : DirtyRef) :
    (boundRef raws d).sec = d.sec ∧ (boundRef raws d).ent = d.ent := by
  have hb := bind_all_bound hraw start_section 0 d
  obtain ⟨b, hs⟩ := settle_same (bindAll 0 startSection d raws)
  rw [boundRef, hs]
  exact ⟨hb.sec, hb.ent⟩

theorem orderly_plan {refs : List DirtyRef} {raws : List Bytes} (h : Orderly refs)
    (hnew : ∀ d ∈ refs, d = newRef d.sec d.ent) (hraw : ∀ raw ∈ raws, PlainLine raw) :
    Plan (underSections [] raws) (refs.map (boundRef raws)) := by
  have hb : ∀ d, Bound 0 (underSections [] raws) d (bindAll 0 startSection d raws) :=
    fun d => bind_all_bound hraw start_section 0 d
  have hs := fun d => settle_same (bindAll 0 startSection d raws)
  have hcl : ∀ d, claims (boundRef raws d) = claims d := fun d =>
    claims_congr (bound_same hraw d).1 (bound_same hraw d).2
  have hv : ∀ d, visibleIn (boundRef raws d) = visibleIn d := fun d =>
    visible_congr (bound_same hraw d).1
  have hh : ∀ d, headerIn (boundRef raws d) = headerIn d := fun d =>
    header_congr (bound_same hraw d).1
  refine ⟨orderly_map h (bound_same hraw), ?_, ?_, ?_, ?_, ?_⟩
  all_goals
    intro x hx
    obtain ⟨d, hd, rfl⟩ := List.mem_map.mp hx
    obtain ⟨b, hsd⟩ := hs d
    have hd0 := hnew d hd
  · rw [hcl, boundRef, hsd]
    refine (hb d).replaceLine.trans ?_
    rw [hd0]
    simp [newRef]
  · rw [hcl, (bound_same hraw d).2, boundRef, hsd]
    exact (hb d).cut
  · rw [hv, boundRef, hsd]
    refine (hb d).appendLine.trans ?_
    rw [hd0]
    simp [newRef]
  · rw [hh, boundRef, hsd]
    refine (hb d).secInFile.trans ?_
    rw [hd0]
    simp [newRef]
  · have hdone : (bindAll 0 startSection d raws).done = false := by
      rw [(hb d).done, hd0]
      rfl
    have hrep : (boundRef raws d).replaceLine = (bindAll 0 startSection d raws).replaceLine := by
      rw [boundRef, hsd]
    rw [hrep, (bound_same hraw d).2, ← (hb d).ent]
    exact settle_done _ hdone

end Plans

section Suffixes

structure Ahead (l : ℕ) (xs : List (Bytes × Bytes)) (d : DirtyRef) : Prop where
  replaceLine : ∃ early : Option ℕ, (∀ m ∈ early, m < l) ∧
    d.replaceLine = ((lastWhere (claims d) l xs).map Prod.fst).or early
  appendLine : ∃ early : Option ℕ, (∀ m ∈ early, m < l) ∧
    d.appendLine = ((lastWhere (visibleIn d) l xs).map Prod.fst).or early
  cut : d.ent.isSome → ∀ r ∈ lastWhere (claims d) l xs,
    d.repKeyEnd = (classifyLine r.2.2).keyEnd ∧ d.repComOff = (classifyLine r.2.2).comOff

theorem plan_ahead {xs : List (Bytes × Bytes)} {refs : List DirtyRef} (h : Plan xs refs)
    {d : DirtyRef} (hd : d ∈ refs) : Ahead 0 xs d where
  replaceLine := ⟨none, nofun, by rw [h.replaceLine d hd, Option.or_none]⟩
  appendLine := ⟨none, nofun, by rw [h.appendLine d hd, Option.or_none]⟩
  cut := h.cut d hd

variable {l : ℕ} {x : Bytes × Bytes} {xs : List (Bytes × Bytes)} {d : DirtyRef}

theorem early_step {p : Bytes × Bytes → Bool} {early n : Option ℕ} (he : ∀ m ∈ early, m < l)
    (hn : n = ((lastWhere p l (x::xs)).map Prod.fst).or early) :
    (∃ early : Option ℕ, (∀ m ∈ early, m < l+1) ∧
        n = ((lastWhere p (l+1) xs).map Prod.fst).or early) ∧
      (n = some l ↔ p x = true ∧ lastWhere p (l+1) xs = none) := by
  rw [lastWhere] at hn
  constructor
  · refine ⟨(if p x then some l else none).or early, fun m hm => ?_, ?_⟩
    · cases hp : p x <;> simp only [hp, if_true, Bool.false_eq_true, if_false, Option.none_or,
        Option.some_or, Option.mem_some_iff] at hm
      · have := he m hm
        omega
      · omega
    · rw [hn]
      cases lastWhere p (l+1) xs <;> cases p x <;> simp
  · rw [hn]
    cases hl : lastWhere p (l+1) xs with
    | some r =>
      have := (last_where_some hl).1
      have hne : r.1 ≠ l := by omega
      simp [hne]
    | none =>
      cases hp : p x with
      | true => simp
      | false =>
        simp only [Bool.false_eq_true, if_false, Option.or_none, Option.map_none, Option.none_or,
          false_and, iff_false]
        intro h0
        have := he l (by rw [h0]; rfl)
        omega

theorem ahead_step (h : Ahead l (x::xs) d) : Ahead (l+1) xs d := by
  obtain ⟨e1, he1, h1⟩ := h.replaceLine
  obtain ⟨e2, he2, h2⟩ := h.appendLine
  refine ⟨(early_step he1 h1).1, (early_step he2 h2).1, fun hs r hr => h.cut hs r ?_⟩
  rw [Option.mem_def] at hr ⊢
  rw [lastWhere, hr, Option.some_or]

theorem ahead_replace (h : Ahead l (x::xs) d) :
    d.replaceLine = some l ↔ claims d x = true ∧ lastWhere (claims d) (l+1) xs = none := by
  obtain ⟨early, he, hr⟩ := h.replaceLine
  exact (early_step he hr).2

theorem ahead_append (h : Ahead l (x::xs) d) :
    d.appendLine = some l ↔ visibleIn d x = true ∧ lastWhere (visibleIn d) (l+1) xs = none := by
  obtain ⟨early, he, hr⟩ := h.appendLine
  exact (early_step he hr).2

theorem ahead_cut (h : Ahead l (x::xs) d) (hs : d.ent.isSome) (hr : d.replaceLine = some l) :
    d.repKeyEnd = (classifyLine x.2).keyEnd ∧ d.repComOff = (classifyLine x.2).comOff := by
  obtain ⟨hc, hn⟩ := (ahead_replace h).mp hr
  refine h.cut hs (l, x) ?_
  rw [Option.mem_def, lastWhere, hn, if_pos hc]
  rfl

end Suffixes

section Entries

def entryItems (es : List ConfigEntry) : List (Item Bytes Bytes Bytes) :=
  es.flatMap (fun e => unitItems (entryLine e))

theorem inert_end {ys : List (Item Bytes Bytes Bytes)} (hy : ∀ y ∈ ys, y = .inert) (c : Bytes) :
    endSection c ys = c := by
  induction ys with
  | nil => rfl
  | cons y ys ih =>
    rw [hy y (by simp)]
    exact ih fun z hz => hy z (by simp [hz])

theorem inert_values {ys : List (Item Bytes Bytes Bytes)} (hy : ∀ y ∈ ys, y = .inert) (q : Place)
    (c : Bytes) : valuesAt q c ys = [] := by
  induction ys with
  | nil => rfl
  | cons y ys ih =>
    rw [hy y (by simp)]
    exact ih fun z hz => hy z (by simp [hz])

theorem values_cons (q : Place) (c : Bytes) (y : Item Bytes Bytes Bytes)
    (ys : List (Item Bytes Bytes Bytes)) :
    valuesAt q c (y::ys) = valuesAt q c [y] ++ valuesAt q (endSection c [y]) ys :=
  values_append q c [y] ys

theorem end_cons (c : Bytes) (y : Item Bytes Bytes Bytes) (ys : List (Item Bytes Bytes Bytes)) :
    endSection c (y::ys) = endSection (endSection c [y]) ys := end_section_append c [y] ys

theorem mild_end {k : Bytes} {ys : List (Item Bytes Bytes Bytes)} (h : Mild k ys) (c : Bytes) :
    endSection c ys = c := by
  obtain ⟨y, rest, rfl, hy, hrest⟩ := h
  rw [end_cons, inert_end hrest]
  rcases hy with rfl | ⟨v, rfl⟩ <;> rfl

theorem mild_other {k c : Bytes} {q : Place} {ys : List (Item Bytes Bytes Bytes)} (h : Mild k ys)
    (hq : (c, k) ≠ q) : valuesAt q c ys = [] := by
  obtain ⟨y, rest, rfl, hy, hrest⟩ := h
  rw [values_cons, inert_values hrest, List.append_nil]
  rcases hy with rfl | ⟨v, rfl⟩
  · rfl
  · simp [valuesAt, hq]

structure Solid (e : ConfigEntry) : Prop where
  key_text : KeyText e.key.chars
  contained : Contained e.value.chars

theorem solid_mild {e : ConfigEntry} (h : Solid e) : Mild (entryKey e) (unitItems (entryLine e)) :=
  entry_line_speaks h.key_text h.contained

variable {es : List ConfigEntry}

theorem entries_end (hk : ∀ e ∈ es, Solid e) (c : Bytes) : endSection c (entryItems es) = c := by
  induction es with
  | nil => rfl
  | cons e es ih =>
    rw [entryItems, List.flatMap_cons, end_section_append, mild_end (solid_mild (hk e (by simp)))]
    exact ih fun x hx => hk x (by simp [hx])

theorem entries_other (hk : ∀ e ∈ es, Solid e) {q : Place} {c : Bytes}
    (h : ∀ e ∈ es, (c, entryKey e) ≠ q) : valuesAt q c (entryItems es) = [] := by
  induction es with
  | nil => rfl
  | cons e es ih =>
    have hm := solid_mild (hk e (by simp))
    rw [entryItems, List.flatMap_cons, values_append, mild_end hm, mild_other hm (h e (by simp)),
      List.nil_append]
    exact ih (fun x hx => hk x (by simp [hx])) (fun x hx => h x (by simp [hx]))

theorem entries_own (hk : ∀ e ∈ es, Solid e) (hn : (es.map entryKey).Nodup)
    {e : ConfigEntry} (he : e ∈ es) (hr : Readable e) (c : Bytes) :
    valuesAt (c, entryKey e) c (entryItems es) = [e.value.chars] := by
  induction es with
  | nil => simp at he
  | cons x es ih =>
    obtain ⟨hx, hn⟩ := List.nodup_cons.mp hn
    have hk' : ∀ e ∈ es, Solid e := fun y hy => hk y (by simp [hy])
    have hm := solid_mild (hk x (by simp))
    rw [entryItems, List.flatMap_cons, values_append, mild_end hm]
    rcases List.mem_cons.mp he with rfl | he
    · have hrest : valuesAt (c, entryKey e) c (entryItems es) = [] := by
        refine entries_other hk' fun y hy h => hx ?_
        have hkey : entryKey y = entryKey e := congrArg Prod.snd h
        rw [← hkey]
        exact List.mem_map_of_mem hy
      rw [entryItems] at hrest
      rw [hrest, entry_line_value (hk e (by simp)).key_text hr]
      simp [valuesAt]
    · have hne : (c, entryKey x) ≠ (c, entryKey e) := by
        intro h
        have hkey : entryKey x = entryKey e := congrArg Prod.snd h
        exact hx (hkey ▸ List.mem_map_of_mem he)
      rw [mild_other hm hne, List.nil_append]
      exact ih hk' hn he

theorem group_keys {refs : List DirtyRef} {c : Bytes} (hn : (refs.map refName).Nodup)
    (hc : ∀ d ∈ refs, d.ent.isSome → foldCase d.sec.chars = c) :
    ((refs.filterMap (fun d => d.ent)).map entryKey).Nodup := by
  induction refs with
  | nil => exact List.nodup_nil
  | cons d refs ih =>
    obtain ⟨hd, hn⟩ := List.nodup_cons.mp hn
    have hrest := ih hn fun x hx => hc x (by simp [hx])
    cases he : d.ent with
    | none => simpa [he] using hrest
    | some e =>
      rw [List.filterMap_cons, he, List.map_cons, List.nodup_cons]
      refine ⟨fun hm => hd ?_, hrest⟩
      obtain ⟨x, hx, hkey⟩ := List.mem_map.mp hm
      obtain ⟨r, hr, hre⟩ := List.mem_filterMap.mp hx
      have hsec := (hc r (by simp [hr]) (by simp [hre])).trans (hc d (by simp) (by simp [he])).symm
      have hname : refName r = refName d := by
        rw [refName, refName, hre, he, hsec, Option.map_some, Option.map_some, hkey]
      rw [← hname]
      exact List.mem_map_of_mem hr

end Entries

section Appended

variable {xs rest : List (Bytes × Bytes)} {refs : List DirtyRef} {l : ℕ} {c raw : Bytes}

theorem live_pending (h : Plan xs refs) {d : DirtyRef} (hd : d ∈ refs) {e : ConfigEntry}
    (he : d.ent = some e) :
    pendingRef d = true ↔ ¬(e.removed = true ∧ d.replaceLine = none) := by
  have hdone := h.done d hd
  rw [he] at hdone
  simp only [Option.mem_some_iff, forall_eq'] at hdone
  rw [← hdone, pendingRef, he]
  simp

theorem appended_iff (h : Plan xs refs) (ha : ∀ d ∈ refs, Ahead l ((c, raw)::rest) d)
    (e : ConfigEntry) :
    e ∈ appendedAt refs l ↔ ∃ d ∈ refs, d.ent = some e ∧ e.removed = false ∧
      foldCase d.sec.chars = c ∧ d.replaceLine = none ∧ d.appendLine = some l := by
  rw [appendedAt, List.mem_filterMap]
  constructor
  · rintro ⟨d, hd, he⟩
    obtain ⟨hd, hdue⟩ := List.mem_filter.mp hd
    simp only [appendDue, Bool.decide_and, Bool.and_eq_true, decide_eq_true_eq] at hdue
    obtain ⟨hp, hr, hl⟩ := hdue
    have hlive := (live_pending h hd he).mp hp
    have hv := ((ahead_append (ha d hd)).mp hl).1
    simp only [visibleIn, inSection, Bool.and_eq_true, decide_eq_true_eq] at hv
    refine ⟨d, hd, he, ?_, hv.1, hr, hl⟩
    by_contra hrem
    exact hlive ⟨by simpa using hrem, hr⟩
  · rintro ⟨d, hd, he, hrem, -, hr, hl⟩
    refine ⟨d, List.mem_filter.mpr ⟨hd, ?_⟩, he⟩
    have hp : pendingRef d = true := (live_pending h hd he).mpr (by simp [hrem])
    simp [appendDue, hp, hr, hl]

theorem appended_solid (h : Plan xs refs) (ha : ∀ d ∈ refs, Ahead l ((c, raw)::rest) d) :
    ∀ e ∈ appendedAt refs l, Solid e := by
  intro e he
  obtain ⟨d, hd, hde, hrem, -⟩ := (appended_iff h ha e).mp he
  exact ⟨h.key_text d hd e hde hrem, h.contained d hd e hde hrem⟩

theorem appended_keys (h : Plan xs refs) (ha : ∀ d ∈ refs, Ahead l ((c, raw)::rest) d) :
    ((appendedAt refs l).map entryKey).Nodup := by
  refine group_keys (c := c) ((List.filter_sublist.map refName).nodup h.distinct) fun d hd he => ?_
  obtain ⟨hd, hdue⟩ := List.mem_filter.mp hd
  simp only [appendDue, Bool.decide_and, Bool.and_eq_true, decide_eq_true_eq] at hdue
  have hv := ((ahead_append (ha d hd)).mp hdue.2.2).1
  simp only [visibleIn, inSection, Bool.and_eq_true, decide_eq_true_eq] at hv
  exact hv.1

theorem appended_leaving (h : Plan xs refs) (ha : ∀ d ∈ refs, Ahead l ((c, raw)::rest) d)
    (hc : leavingIn refs c = true) : appendedAt refs l = [] := by
  refine List.eq_nil_iff_forall_not_mem.mpr fun e he => ?_
  obtain ⟨d, hd, hde, hrem, rfl, -⟩ := (appended_iff h ha e).mp he
  rw [h.leaving_dead d hd e hde hc] at hrem
  cases hrem

end Appended

end RaptorCommon.ConfigPlan
