import RaptorCommon.ConfigRevision

/-!
# Loading the edited text

The edited text is again a readable file. Loading it answers for every place:
nothing where a key or its section was taken out, the new value where a key
was set, and what the file answered before everywhere else.
-/

set_option autoImplicit false

namespace RaptorCommon.ConfigEditedText
open RaptorCommon.CText RaptorCommon.ConfigStore RaptorCommon.ConfigLoader
open RaptorCommon.ConfigWriter RaptorCommon.ConfigEditor RaptorCommon.ConfigMap
open RaptorCommon.ConfigLineView RaptorCommon.ConfigBinding RaptorCommon.ConfigEmission
open RaptorCommon.ConfigGrammar RaptorCommon.ConfigSettings RaptorCommon.IniSemantics
open RaptorCommon.LineText RaptorCommon.ConfigPlan RaptorCommon.ConfigRevision

section NewSections

def Unplaced (d : DirtyRef) : Prop :=
  pendingRef d = true ∧ d.secInFile = false ∧ d.sec.chars ≠ []

structure Opening (refs : List DirtyRef) : Prop where
  distinct : (refs.map refName).Nodup
  together : ∀ d ∈ refs, ∀ r ∈ refs, foldCase d.sec.chars = foldCase r.sec.chars →
    d.secInFile = r.secInFile
  section_name : ∀ d ∈ refs, Unplaced d → SectionName d.sec.chars
  key_text : ∀ d ∈ refs, Unplaced d → ∀ e ∈ d.ent, KeyText e.key.chars
  contained : ∀ d ∈ refs, Unplaced d → ∀ e ∈ d.ent, Contained e.value.chars

theorem opening_rest {d : DirtyRef} {refs : List DirtyRef} (h : Opening (d::refs)) :
    Opening refs where
  distinct := (List.nodup_cons.mp h.distinct).2
  together a ha b hb := h.together a (by simp [ha]) b (by simp [hb])
  section_name a ha := h.section_name a (by simp [ha])
  key_text a ha := h.key_text a (by simp [ha])
  contained a ha := h.contained a (by simp [ha])

variable {written : List (Field maxSecn)} {d : DirtyRef} {refs : List DirtyRef} {out : Bytes}

theorem due_iff : sectionDue written d = true ↔
    pendingRef d = true ∧ ∀ w ∈ written, foldCase w.chars ≠ foldCase d.sec.chars := by
  rw [sectionDue, decide_eq_true_eq]
  simp [sameName]

theorem opens_iff : opensSection written d = true ↔ Unplaced d ∧ sectionDue written d = true := by
  simp only [opensSection, Unplaced, sectionDue, Bool.and_eq_true, Bool.not_eq_true',
    decide_eq_true_eq, Bool.decide_and]
  tauto

theorem group_iff (e : ConfigEntry) :
    e ∈ groupOf written d refs ↔ ∃ r ∈ refs, r.ent = some e ∧ sectionDue written r = true ∧
      foldCase r.sec.chars = foldCase d.sec.chars := by
  simp only [groupOf, List.mem_filterMap, List.mem_filter, Bool.and_eq_true, sameName,
    decide_eq_true_eq]
  constructor
  · rintro ⟨r, ⟨hr, h1, h2⟩, he⟩
    exact ⟨r, hr, he, h1, h2⟩
  · rintro ⟨r, hr, he, h1, h2⟩
    exact ⟨r, ⟨hr, h1, h2⟩, he⟩

theorem group_unplaced (h : Opening (d::refs)) (ho : opensSection written d = true)
    {r : DirtyRef} (hr : r ∈ d::refs) (hdue : sectionDue written r = true)
    (hsec : foldCase r.sec.chars = foldCase d.sec.chars) : Unplaced r := by
  obtain ⟨⟨-, hfile, hne⟩, -⟩ := opens_iff.mp ho
  refine ⟨?_, ?_, ?_⟩
  · exact (due_iff.mp hdue).1
  · rw [h.together r hr d (by simp) hsec, hfile]
  · intro h0
    rw [h0] at hsec
    exact hne (List.map_eq_nil_iff.mp hsec.symm)

theorem group_solid (h : Opening (d::refs)) (ho : opensSection written d = true) :
    ∀ e ∈ groupOf written d (d::refs), Solid e := by
  intro e he
  obtain ⟨r, hr, hre, hdue, hsec⟩ := (group_iff e).mp he
  have hu := group_unplaced h ho hr hdue hsec
  exact ⟨h.key_text r hr hu e hre, h.contained r hr hu e hre⟩

theorem section_values (h : Opening (d::refs)) (ho : opensSection written d = true)
    (q : Place) (cur : Bytes) (es : List ConfigEntry) :
    valuesAt q cur ((sectionLines out d es).flatMap unitItems) =
      valuesAt q (foldCase d.sec.chars) (entryItems es) := by
  have hname := h.section_name d (by simp) (opens_iff.mp ho).1
  have hhead : unitItems (headerLine d.sec.chars) = [.header (foldCase d.sec.chars)] := by
    rw [unit_line (header_plain_line hname d.sec.fits d.sec.nul_free).no_newline,
      header_line_item hname d.sec.fits]
  rw [sectionLines, List.flatMap_append, List.flatMap_cons, hhead, List.flatMap_map]
  split <;> rfl

theorem due_written {w : Field maxSecn} {r : DirtyRef} (h : sectionDue (w::written) r = true) :
    sectionDue written r = true ∧ foldCase w.chars ≠ foldCase r.sec.chars := by
  obtain ⟨hp, hw⟩ := due_iff.mp h
  exact ⟨due_iff.mpr ⟨hp, fun v hv => hw v (by simp [hv])⟩, hw w (by simp)⟩

theorem new_sections_other (h : Opening refs) {q : Place}
    (hq : ∀ d ∈ refs, ∀ e ∈ d.ent, Unplaced d → sectionDue written d = true →
      (foldCase d.sec.chars, entryKey e) ≠ q) (cur : Bytes) :
    valuesAt q cur ((newSectionLines written out refs).flatMap unitItems) = [] := by
  induction refs generalizing written out cur with
  | nil => rfl
  | cons d refs ih =>
    rw [newSectionLines]
    by_cases ho : opensSection written d = true
    · have hgroup : valuesAt q (foldCase d.sec.chars)
          (entryItems (groupOf written d (d::refs))) = [] := by
        refine entries_other (group_solid h ho) fun e he => ?_
        obtain ⟨r, hr, hre, hdue, hsec⟩ := (group_iff e).mp he
        rw [← hsec]
        exact hq r hr e hre (group_unplaced h ho hr hdue hsec) hdue
      rw [if_pos ho]
      dsimp only
      rw [List.flatMap_append, values_append, section_values h ho, hgroup, List.nil_append]
      refine ih (opening_rest h) (fun r hr e he hu hdue => ?_) _
      exact hq r (by simp [hr]) e he hu (due_written hdue).1
    · rw [if_neg ho]
      exact ih (opening_rest h) (fun r hr => hq r (by simp [hr])) cur

theorem new_sections_live (h : Opening refs) {r : DirtyRef} {e : ConfigEntry} (hr : r ∈ refs)
    (he : r.ent = some e) (hu : Unplaced r) (hdue : sectionDue written r = true)
    (hread : Readable e) (cur : Bytes) :
    valuesAt (foldCase r.sec.chars, entryKey e) cur
      ((newSectionLines written out refs).flatMap unitItems) = [e.value.chars] := by
  induction refs generalizing written out cur with
  | nil => simp at hr
  | cons d refs ih =>
    rw [newSectionLines]
    by_cases ho : opensSection written d = true
    · rw [if_pos ho]
      dsimp only
      rw [List.flatMap_append, values_append, section_values h ho]
      by_cases hsec : foldCase r.sec.chars = foldCase d.sec.chars
      · have hmem : e ∈ groupOf written d (d::refs) := (group_iff e).mpr ⟨r, hr, he, hdue, hsec⟩
        have hkeys : ((groupOf written d (d::refs)).map entryKey).Nodup := by
          refine group_keys (c := foldCase d.sec.chars)
            ((List.filter_sublist.map refName).nodup h.distinct) fun x hx _ => ?_
          simp only [List.mem_filter, Bool.and_eq_true, sameName, decide_eq_true_eq] at hx
          exact hx.2.2
        have hrest : ∀ out' cur', valuesAt (foldCase d.sec.chars, entryKey e) cur'
            ((newSectionLines (d.sec::written) out' refs).flatMap unitItems) = [] :=
          fun out' => new_sections_other (opening_rest h) fun x hx y hy _ hd hq =>
            (due_written hd).2 (congrArg Prod.fst hq).symm
        rw [hsec, entries_own (group_solid h ho) hkeys hmem hread, hrest,
          List.append_nil]
      · have hne : r ≠ d := fun heq => hsec (by rw [heq])
        have hr' : r ∈ refs := (List.mem_cons.mp hr).resolve_left hne
        have hother : valuesAt (foldCase r.sec.chars, entryKey e) (foldCase d.sec.chars)
            (entryItems (groupOf written d (d::refs))) = [] :=
          entries_other (group_solid h ho)
            fun x hx hq => hsec (congrArg Prod.fst hq).symm
        rw [hother, List.nil_append]
        refine ih (opening_rest h) hr' ?_ _
        obtain ⟨hp, hw⟩ := due_iff.mp hdue
        refine due_iff.mpr ⟨hp, fun w hw' => ?_⟩
        rcases List.mem_cons.mp hw' with rfl | hw'
        · exact fun heq => hsec heq.symm
        · exact hw w hw'
    · have hne : r ≠ d := fun heq => ho (opens_iff.mpr (heq ▸ ⟨hu, hdue⟩))
      rw [if_neg ho]
      exact ih (opening_rest h) ((List.mem_cons.mp hr).resolve_left hne) hdue cur

theorem new_sections_plain (h : Opening refs) :
    ∀ line ∈ newSectionLines written out refs, PlainUnit line := by
  induction refs generalizing written out with
  | nil => simp [newSectionLines]
  | cons d refs ih =>
    rw [newSectionLines]
    by_cases ho : opensSection written d = true
    · rw [if_pos ho]
      intro line hline
      rcases List.mem_append.mp hline with hline | hline
      · rcases List.mem_append.mp hline with hline | hline
        · split at hline
          · simp at hline
          · rw [List.mem_singleton.mp hline]
            exact plain_unit ⟨by simp, by simp, by simp [pieceLine, parseLine, rssTrim, lineNames]⟩
        · rcases List.mem_cons.mp hline with rfl | hline
          · exact plain_unit (header_plain_line (h.section_name d (by simp) (opens_iff.mp ho).1)
              d.sec.fits d.sec.nul_free)
          · obtain ⟨e, he, rfl⟩ := List.mem_map.mp hline
            obtain ⟨h1, h2⟩ := group_solid h ho e he
            exact entry_plain_unit h1 h2
      · exact ih (opening_rest h) line hline
    · rw [if_neg ho]
      exact ih (opening_rest h)

end NewSections

section Files

theorem loaded_map_values (text : Bytes) (q : Place) :
    loadedMap text q = (valuesAt q [] ((fileLines text).map itemOf)).getLast? := by
  rw [loadedMap, interpret_answer, answer, Option.or_none]

theorem file_plain_lines {text : Bytes} (hz : 0 ∉ text) (hf : FileFits text) :
    ∀ raw ∈ pieces newline text, PlainLine raw := by
  intro raw hr
  refine ⟨fun h0 => hz (pieces_subset newline text raw hr 0 h0),
    pieces_separator_free newline text raw hr, ?_⟩
  apply hf
  rw [file_lines_pieces hz]
  exact List.mem_map_of_mem hr

theorem file_items {text : Bytes} (hz : 0 ∉ text) :
    (fileLines text).map itemOf = (pieces newline text).map lineItem := by
  rw [file_lines_pieces hz, List.map_map]
  rfl

theorem joined_file {units : List Bytes} (h : ∀ u ∈ units, PlainUnit u) :
    0 ∉ joined newline units ∧ FileFits (joined newline units) ∧
      (fileLines (joined newline units)).map itemOf = units.flatMap unitItems := by
  have hline : ∀ u ∈ units, ∀ line ∈ parts newline u, PlainLine line := h
  have hz : 0 ∉ joined newline units := fun h0 => by
    rcases joined_subset newline units 0 h0 with h0 | ⟨u, hu, h0⟩
    · exact absurd h0 (by decide)
    · obtain ⟨line, hl, h0⟩ := parts_mem newline u h0 (by decide)
      exact (hline u hu line hl).nul_free h0
  have hp := pieces_joined newline units
  refine ⟨hz, ?_, by rw [file_items hz, hp, List.map_flatMap]; rfl⟩
  intro line hl
  rw [file_lines_pieces hz, hp, List.map_flatMap] at hl
  obtain ⟨u, hu, hl⟩ := List.mem_flatMap.mp hl
  obtain ⟨raw, hr, rfl⟩ := List.mem_map.mp hl
  exact (hline u hu raw hr).names

end Files

section Plain

variable {xs rest : List (Bytes × Bytes)} {refs : List DirtyRef} {l : ℕ} {c raw : Bytes}

theorem block_plain (h : Plan xs refs) (ha : ∀ d ∈ refs, Ahead l ((c, raw)::rest) d)
    (hraw : PlainLine raw) {b : Bool} (hb : dropsAt refs (c, raw) = true → b = true) :
    ∀ line ∈ blockLines refs l raw b, PlainUnit line := by
  intro line hline
  rcases List.mem_append.mp hline with hline | hline
  · cases b with
    | true => simp at hline
    | false =>
      rw [if_neg (by simp), List.mem_singleton] at hline
      subst hline
      unfold lineFor
      cases hf : refs.find? (fun d => d.replaceLine = some l) with
      | none => exact plain_unit hraw
      | some d =>
        have hd := List.mem_of_find?_eq_some hf
        have hl : d.replaceLine = some l := by simpa using List.find?_some hf
        obtain ⟨hsec, ⟨he, -⟩ | ⟨e, v, he, hi⟩⟩ := claims_some ((ahead_replace (ha d hd)).mp hl).1
        · simpa [he] using plain_unit hraw
        · have hrem : e.removed = false := by
            by_contra hr
            have hg := gone_of_removed hd he (by simpa using hr)
            rw [hsec] at hg
            cases hb (by simp [dropsAt, hi, hg])
          obtain ⟨hend, hcom⟩ := ahead_cut (ha d hd) (by simp [he]) hl
          have hrep := replaced (d := d) hraw hi hend hcom (h.key_text d hd e he hrem)
            (h.contained d hd e he hrem)
          simpa [he] using hrep.plain
  · obtain ⟨e, he, rfl⟩ := List.mem_map.mp hline
    obtain ⟨d, hd, hde, hrem, -⟩ := (appended_iff h ha e).mp he
    exact entry_plain_unit (h.key_text d hd e hde hrem) (h.contained d hd e hde hrem)

theorem body_plain (h : Plan xs refs) {cur : Bytes} {raws : List Bytes}
    (hraw : ∀ raw ∈ raws, PlainLine raw) (ha : ∀ d ∈ refs, Ahead l (underSections cur raws) d) :
    ∀ line ∈ bodyLines refs l (marks refs cur raws), PlainUnit line := by
  induction raws generalizing l cur with
  | nil => simp [marks, underSections, dropSeparators, bodyLines]
  | cons raw raws ih =>
    obtain ⟨b, hm, hb, -⟩ := marks_cons refs cur raw raws
    rw [hm, bodyLines]
    intro line hline
    rcases List.mem_append.mp hline with hline | hline
    · exact block_plain h ha (hraw raw (by simp)) hb line hline
    · exact ih (fun r hr => hraw r (by simp [hr])) (fun d hd => ahead_step (ha d hd)) line hline

end Plain

section Whole

variable {refs : List DirtyRef} {text : Bytes}

theorem top_none {xs : List (Bytes × Bytes)} (h : Plan xs refs) (d : DirtyRef) (hd : d ∈ refs) :
    topDue d = false := by
  by_contra ht
  simp only [topDue, Bool.not_eq_false, decide_eq_true_eq] at ht
  obtain ⟨hp, hs, hr, -⟩ := ht
  cases he : d.ent with
  | none => simp [pendingRef, he] at hp
  | some e =>
    have hrem : e.removed = false := by
      by_contra hrem
      exact (live_pending h hd he).mp hp ⟨by simpa using hrem, hr⟩
    exact (h.section_name d hd e he hrem).nonempty hs

/-- The edited text is the lines of the body and of the new sections. -/
theorem edited_lines (h : Orderly refs) (hnew : ∀ d ∈ refs, d = newRef d.sec d.ent)
    (hz : 0 ∉ text) (hf : FileFits text) :
    let raws := pieces newline text
    let plan := refs.map (boundRef raws)
    ∃ out n after, Agrees n plan after ∧ editedText refs text =
      joined newline (bodyLines plan 0 (marks plan [] raws) ++ newSectionLines [] out after) := by
  intro raws plan
  have hraw := file_plain_lines hz hf
  have hplan : Plan (underSections [] raws) plan := orderly_plan h hnew hraw
  have hstart : leavingIn refs [] = false := by
    rw [leavingIn, List.any_eq_false]
    intro d hd hc
    simp only [Bool.and_eq_true, Option.isNone_iff_eq_none, inSection, decide_eq_true_eq] at hc
    exact h.leaving_named d hd hc.1 (List.map_eq_nil_iff.mp hc.2)
  have hdrops := bind_lines_drops hraw start_section 0 refs
  rw [hstart, ← drops_map (bound_same hraw) refs] at hdrops
  have hsettled : (bindLines 0 startSection false refs raws).1.map settleRef = plan := by
    rw [bind_lines_refs, List.map_map]
    rfl
  have hmarked : dropSeparators (raws.zip (bindLines 0 startSection false refs raws).2) =
      marks plan [] raws := by
    rw [hdrops]
    rfl
  obtain ⟨out, after, hagree, htext⟩ := edited_text_lines hsettled hmarked (top_none hplan)
  exact ⟨out, _, after, hagree, htext⟩

theorem agrees_mem {n : ℕ} {after : List DirtyRef} (h : Agrees n refs after) {d' : DirtyRef}
    (hd : d' ∈ after) : ∃ d ∈ refs, Later n d d' := by
  induction h with
  | nil => simp at hd
  | cons hl _ ih =>
    rcases List.mem_cons.mp hd with rfl | hd
    · exact ⟨_, by simp, hl⟩
    · obtain ⟨d, hd, hl⟩ := ih hd
      exact ⟨d, by simp [hd], hl⟩

theorem agrees_mem_left {n : ℕ} {after : List DirtyRef} (h : Agrees n refs after) {d : DirtyRef}
    (hd : d ∈ refs) : ∃ d' ∈ after, Later n d d' := by
  induction h with
  | nil => simp at hd
  | cons hl _ ih =>
    rcases List.mem_cons.mp hd with rfl | hd
    · exact ⟨_, by simp, hl⟩
    · obtain ⟨d', hd', hl⟩ := ih hd
      exact ⟨d', by simp [hd'], hl⟩

theorem agrees_names {n : ℕ} {after : List DirtyRef} (h : Agrees n refs after) :
    after.map refName = refs.map refName := by
  induction h with
  | nil => rfl
  | cons hl _ ih =>
    obtain ⟨b, rfl⟩ := hl.same
    rw [List.map_cons, List.map_cons, ih]
    rfl

variable {raws : List Bytes}

theorem section_absent (h : Plan (underSections [] raws) refs) {d : DirtyRef} (hd : d ∈ refs)
    (hfile : d.secInFile = false) (hne : d.sec.chars ≠ []) :
    ∀ x ∈ underSections [] raws, inSection d x.1 = false := by
  rw [h.secInFile d hd, List.any_eq_false] at hfile
  have hs : ([] : Bytes) ≠ foldCase d.sec.chars := fun h0 =>
    hne (List.map_eq_nil_iff.mp h0.symm)
  have habs := under_sections_header hs fun x hx hsec => by
    have := hfile x hx
    simpa [headerIn, inSection, hsec] using this
  intro x hx
  rw [inSection, decide_eq_false_iff_not]
  exact fun heq => habs x hx heq.symm

theorem absent_waits (h : Plan (underSections [] raws) refs) {n : ℕ} {d d' : DirtyRef}
    (hd : d ∈ refs) (hl : Later n d d') (hfile : d.secInFile = false) (hne : d.sec.chars ≠ []) :
    d.replaceLine = none ∧ d'.done = d.done := by
  have habs := section_absent h hd hfile hne
  have hrep : d.replaceLine = none := by
    rw [h.replaceLine d hd, last_where_none.mpr fun x hx => by simp [claims, habs x hx]]
    rfl
  have happ : d.appendLine = none := by
    rw [h.appendLine d hd, last_where_none.mpr fun x hx => by simp [visibleIn, habs x hx]]
    rfl
  exact ⟨hrep, hl.waiting hrep (by simp [happ])⟩

theorem unplaced_live (h : Plan (underSections [] raws) refs) {n : ℕ} {d d' : DirtyRef}
    (hd : d ∈ refs) (hl : Later n d d') (hu : Unplaced d') :
    ∀ e ∈ d'.ent, e.removed = false := by
  obtain ⟨hp, hfile, hne⟩ := hu
  obtain ⟨b, rfl⟩ := hl.same
  obtain ⟨hrep, hdone⟩ := absent_waits h hd hl hfile hne
  have hdone : b = d.done := hdone
  intro e he
  by_contra hrem
  refine (live_pending h hd he).mp ?_ ⟨by simpa using hrem, hrep⟩
  rwa [hdone] at hp

theorem after_opening (h : Plan (underSections [] raws) refs) {n : ℕ} {after : List DirtyRef}
    (ha : Agrees n refs after) : Opening after := by
  have hlive : ∀ d' ∈ after, Unplaced d' → ∃ d ∈ refs, ∃ e, d'.sec = d.sec ∧ d'.ent = some e ∧
      d.ent = some e ∧ e.removed = false := by
    intro d' hd' hu
    obtain ⟨d, hd, hl⟩ := agrees_mem ha hd'
    have hrem := unplaced_live h hd hl hu
    obtain ⟨b, rfl⟩ := hl.same
    cases he : d.ent with
    | none => exact absurd hu.1 (by simp [pendingRef, he])
    | some e => exact ⟨d, hd, e, rfl, rfl, he, hrem e he⟩
  constructor
  · rw [agrees_names ha]
    exact h.distinct
  · intro d' hd' r' hr' hsec
    obtain ⟨d, hd, hl⟩ := agrees_mem ha hd'
    obtain ⟨r, hr, hl'⟩ := agrees_mem ha hr'
    obtain ⟨b, rfl⟩ := hl.same
    obtain ⟨b', rfl⟩ := hl'.same
    have hp : headerIn d = headerIn r := by
      funext x
      have hsec : foldCase d.sec.chars = foldCase r.sec.chars := hsec
      rw [headerIn, headerIn, inSection, inSection, hsec]
    show d.secInFile = r.secInFile
    rw [h.secInFile d hd, h.secInFile r hr, hp]
  · intro d' hd' hu
    obtain ⟨d, hd, e, hs, -, he, hrem⟩ := hlive d' hd' hu
    rw [hs]
    exact h.section_name d hd e he hrem
  · intro d' hd' hu x hx
    obtain ⟨d, hd, e, -, he', he, hrem⟩ := hlive d' hd' hu
    rw [he', Option.mem_some_iff] at hx
    rw [← hx]
    exact h.key_text d hd e he hrem
  · intro d' hd' hu x hx
    obtain ⟨d, hd, e, -, he', he, hrem⟩ := hlive d' hd' hu
    rw [he', Option.mem_some_iff] at hx
    rw [← hx]
    exact h.contained d hd e he hrem

theorem after_live (h : Plan (underSections [] raws) refs) {n : ℕ} {after : List DirtyRef}
    (ha : Agrees n refs after) {d' : DirtyRef} (hd : d' ∈ after) (hu : Unplaced d')
    {e : ConfigEntry} (he : e ∈ d'.ent) :
    ∃ d ∈ refs, d.sec = d'.sec ∧ d.ent = some e ∧ e.removed = false ∧ d.secInFile = false := by
  obtain ⟨d, hmem, hl⟩ := agrees_mem ha hd
  have hrem := unplaced_live h hmem hl hu e he
  obtain ⟨b, rfl⟩ := hl.same
  exact ⟨d, hmem, rfl, he, hrem, hu.2.1⟩

theorem live_unplaced (h : Plan (underSections [] raws) refs) {n : ℕ} {d d' : DirtyRef}
    (hd : d ∈ refs) (hl : Later n d d') {e : ConfigEntry} (he : d.ent = some e)
    (hrem : e.removed = false) (hfile : d.secInFile = false) : Unplaced d' := by
  have hne := (h.section_name d hd e he hrem).nonempty
  obtain ⟨-, hdone⟩ := absent_waits h hd hl hfile hne
  obtain ⟨b, rfl⟩ := hl.same
  have hdone : b = d.done := hdone
  have hp : pendingRef d = true := (live_pending h hd he).mpr (by simp [hrem])
  exact ⟨by rw [hdone]; exact hp, hfile, hne⟩

/-- The last value a set key has in the body and the new sections. -/
theorem live_last (h : Plan (underSections [] raws) refs) {zs : List (Item Bytes Bytes Bytes)}
    (hraw : ∀ raw ∈ raws, PlainLine raw) (hb : Body refs 0 [] [] raws zs) {n : ℕ}
    {after : List DirtyRef} (ha : Agrees n refs after) {d : DirtyRef} (hd : d ∈ refs)
    {e : ConfigEntry} (he : d.ent = some e) (hrem : e.removed = false) (hr : Readable e)
    (out cur : Bytes) :
    (valuesAt (foldCase d.sec.chars, entryKey e) [] zs ++
      valuesAt (foldCase d.sec.chars, entryKey e) cur
        ((newSectionLines [] out after).flatMap unitItems)).getLast? = some e.value.chars := by
  have hopen := after_opening h ha
  cases hfile : d.secInFile with
  | true =>
    have hnew : valuesAt (foldCase d.sec.chars, entryKey e) cur
        ((newSectionLines [] out after).flatMap unitItems) = [] := by
      refine new_sections_other hopen (fun d' hd' x hx hu _ hq => ?_) cur
      obtain ⟨r, hr, hsec, hre, -, hrf⟩ := after_live h ha hd' hu hx
      have hsame : r = d := same_ref h hr hd (by
        rw [refName, refName, hre, he, hsec, Option.map_some, Option.map_some]
        exact congrArg (fun p : Place => (p.1, some p.2)) hq)
      rw [hsame, hfile] at hrf
      cases hrf
    rw [hnew, List.append_nil]
    cases hcl : lastWhere (claims d) 0 (underSections [] raws) with
    | some r => exact body_live_ahead h hb hd he hrem hr (by rw [hcl]; rfl)
    | none =>
      have hrep : d.replaceLine = none := by
        rw [h.replaceLine d hd, hcl]
        rfl
      have hvis : (lastWhere (visibleIn d) 0 (underSections [] raws)).isSome := by
        rw [Option.isSome_iff_ne_none, Ne, last_where_none]
        intro hall
        rw [h.secInFile d hd, List.any_eq_true] at hfile
        obtain ⟨x, hx, hh⟩ := hfile
        rw [headerIn, Bool.and_eq_true] at hh
        have hplain : PlainLine x.2 := hraw x.2 (by
          rw [← under_sections_lines [] raws]
          exact List.mem_map_of_mem hx)
        have hnb := line_nonblank hplain (fun hi => by rw [hi] at hh; cases hh.2)
        have := hall x hx
        rw [visibleIn, hh.1, hnb] at this
        cases this
      rw [body_live_past h hb hd he hrem hr hcl, if_pos ⟨hrep, hvis⟩]
      rfl
  | false =>
    have habs := section_absent h hd hfile (h.section_name d hd e he hrem).nonempty
    have hcl : lastWhere (claims d) 0 (underSections [] raws) = none :=
      last_where_none.mpr fun x hx => by simp [claims, habs x hx]
    have hvis : lastWhere (visibleIn d) 0 (underSections [] raws) = none :=
      last_where_none.mpr fun x hx => by simp [visibleIn, habs x hx]
    obtain ⟨d', hd', hl⟩ := agrees_mem_left ha hd
    have hu := live_unplaced h hd hl he hrem hfile
    rw [body_live_past h hb hd he hrem hr hcl, hvis]
    obtain ⟨b, rfl⟩ := hl.same
    have hdue : sectionDue [] { d with done := b } = true := due_iff.mpr ⟨hu.1, by simp⟩
    rw [new_sections_live hopen hd' he hu hdue hr cur]
    simp

/-- What an edit does to the settings of a file. -/
structure Revised (refs : List DirtyRef) (text text' : Bytes) : Prop where
  nul_free : 0 ∉ text'
  fits : FileFits text'
  erased : ∀ q : Place, leavingIn refs q.1 = true ∨ goneIn refs q = true →
    loadedMap text' q = none
  live : ∀ d ∈ refs, ∀ e ∈ d.ent, e.removed = false → Readable e →
    loadedMap text' (foldCase d.sec.chars, entryKey e) = some e.value.chars
  frame : ∀ q : Place, leavingIn refs q.1 = false → goneIn refs q = false →
    (∀ d ∈ refs, ∀ e ∈ d.ent, e.removed = false → (foldCase d.sec.chars, entryKey e) ≠ q) →
    loadedMap text' q = loadedMap text q

theorem edited_body (h : Orderly refs) (hnew : ∀ d ∈ refs, d = newRef d.sec d.ent)
    (hz : 0 ∉ text) (hf : FileFits text) :
    let raws := pieces newline text
    let plan := refs.map (boundRef raws)
    ∃ out n after zs, Agrees n plan after ∧ Body plan 0 [] [] raws zs ∧
      0 ∉ editedText refs text ∧ FileFits (editedText refs text) ∧
      ∀ q, ∃ cur, loadedMap (editedText refs text) q = (valuesAt q [] zs ++
        valuesAt q cur ((newSectionLines [] out after).flatMap unitItems)).getLast? := by
  intro raws plan
  obtain ⟨out, n, after, hagree, htext⟩ := edited_lines h hnew hz hf
  have hraw := file_plain_lines hz hf
  have hplan : Plan (underSections [] raws) plan := orderly_plan h hnew hraw
  have hahead : ∀ d ∈ plan, Ahead 0 (underSections [] raws) d := fun d hd => plan_ahead hplan hd
  have hplain : ∀ line ∈ bodyLines plan 0 (marks plan [] raws) ++ newSectionLines [] out after,
      PlainUnit line := by
    intro line hl
    rcases List.mem_append.mp hl with hl | hl
    · exact body_plain hplan hraw hahead line hl
    · exact new_sections_plain (after_opening hplan hagree) line hl
  obtain ⟨hz', hf', hitems⟩ := joined_file hplain
  rw [← htext] at hz' hf' hitems
  refine ⟨out, n, after, _, hagree, body_lines_body hplan hraw (Or.inl rfl) hahead, hz', hf',
    fun q => ?_⟩
  rw [loaded_map_values, hitems, List.flatMap_append, values_append]
  exact ⟨_, rfl⟩

theorem edited_revised (h : Orderly refs) (hnew : ∀ d ∈ refs, d = newRef d.sec d.ent)
    (hz : 0 ∉ text) (hf : FileFits text) : Revised refs text (editedText refs text) := by
  obtain ⟨out, n, after, zs, hagree, hbody, hz', hf', hvalues⟩ := edited_body h hnew hz hf
  have hraw := file_plain_lines hz hf
  have hsame := bound_same hraw
  have hplan := orderly_plan h hnew hraw
  -- nothing is written at a place without a set key, in the body or after it
  have hplace : ∀ q : Place, (∀ d ∈ refs, ∀ e ∈ d.ent, e.removed = false →
      (foldCase d.sec.chars, entryKey e) ≠ q) →
      ∀ d ∈ refs.map (boundRef (pieces newline text)), ∀ e ∈ d.ent, e.removed = false →
        (foldCase d.sec.chars, entryKey e) ≠ q := by
    intro q hfree r hr e he hrem
    obtain ⟨d, hd, rfl⟩ := List.mem_map.mp hr
    rw [(hsame d).1]
    rw [(hsame d).2] at he
    exact hfree d hd e he hrem
  have hother : ∀ q : Place, (∀ d ∈ refs, ∀ e ∈ d.ent, e.removed = false →
      (foldCase d.sec.chars, entryKey e) ≠ q) → ∀ cur,
      valuesAt q cur ((newSectionLines [] out after).flatMap unitItems) = [] := by
    intro q hfree
    refine new_sections_other (after_opening hplan hagree) fun d' hd' e he hu _ => ?_
    obtain ⟨r, hr, hsec, hre, hrem, -⟩ := after_live hplan hagree hd' hu he
    rw [← hsec]
    exact hplace q hfree r hr e hre hrem
  refine ⟨hz', hf', fun q hq => ?_, fun d hd e he hrem hr => ?_, fun q h1 h2 h3 => ?_⟩
  · have hq' := hq
    rw [← leaving_map hsame refs, ← gone_map hsame refs] at hq'
    have hfree : ∀ d ∈ refs, ∀ e ∈ d.ent, e.removed = false →
        (foldCase d.sec.chars, entryKey e) ≠ q := by
      rintro d hd e he hrem rfl
      have hmem := List.mem_map_of_mem (f := boundRef (pieces newline text)) hd
      have hs := live_stays hplan hmem ((hsame d).2.trans he) hrem
      rw [(hsame d).1] at hs
      rw [hs.1, hs.2] at hq'
      simp at hq'
    obtain ⟨cur, hv⟩ := hvalues q
    rw [hv, body_erased hplan hbody hq', hother q hfree]
    rfl
  · have hmem := List.mem_map_of_mem (f := boundRef (pieces newline text)) hd
    obtain ⟨cur, hv⟩ := hvalues (foldCase d.sec.chars, entryKey e)
    have hlast := live_last hplan hraw hbody hagree hmem ((hsame d).2.trans he) hrem hr out cur
    rw [(hsame d).1] at hlast
    rw [hv, hlast]
  · have h1' := h1
    have h2' := h2
    rw [← leaving_map hsame refs] at h1'
    rw [← gone_map hsame refs] at h2'
    obtain ⟨cur, hv⟩ := hvalues q
    rw [hv, body_frame hplan hbody h1' h2' (hplace q h3), hother q h3, List.append_nil,
      loaded_map_values, file_items hz]

end Whole

end RaptorCommon.ConfigEditedText
