import RaptorCommon.ConfigBinding

/-!
# The lines a save writes

Emission marks changes done as it goes, but a change is marked no earlier
than its own line. So what stands at each line is fixed by the binding pass,
and the text is a list of lines joined by newlines.
-/

set_option autoImplicit false

namespace RaptorCommon.ConfigEmission
open RaptorCommon.CText RaptorCommon.ConfigStore RaptorCommon.ConfigEditor
open RaptorCommon.ConfigWriter RaptorCommon.ConfigLineView RaptorCommon.LineText
open RaptorCommon.KeyedStore

section Progress

/-- A change in front of line `l` of the emission: marked done at most, and
not even that while it waits for a line ahead. -/
structure Later (l : ℕ) (d d' : DirtyRef) : Prop where
  same : ∃ b, d' = { d with done := b }
  waiting : d.replaceLine = none → (∀ m ∈ d.appendLine, l ≤ m) → d'.done = d.done

abbrev Agrees (l : ℕ) : List DirtyRef → List DirtyRef → Prop := List.Forall₂ (Later l)

theorem later_refl (l : ℕ) (d : DirtyRef) : Later l d d := ⟨⟨d.done, rfl⟩, fun _ _ => rfl⟩

theorem agrees_refl (l : ℕ) (refs : List DirtyRef) : Agrees l refs refs := by
  induction refs with
  | nil => exact .nil
  | cons d refs ih => exact .cons (later_refl l d) ih

variable {l : ℕ} {refs refs' : List DirtyRef}

def lineFor (refs : List DirtyRef) (l : ℕ) (raw : Bytes) : Bytes :=
  match refs.find? (fun d => d.replaceLine = some l) with
  | some d => match d.ent with
    | some e => replacementLine raw d e
    | none => raw
  | none => raw

theorem agrees_line (h : Agrees l refs refs') (m : ℕ) (raw : Bytes) :
    lineFor refs' m raw = lineFor refs m raw := by
  induction h with
  | nil => rfl
  | @cons d d' refs refs' hd _ ih =>
    obtain ⟨b, rfl⟩ := hd.same
    unfold lineFor at ih ⊢
    by_cases hm : d.replaceLine = some m
    · simp only [List.find?_cons, hm, decide_true]
      cases d.ent <;> rfl
    · simp only [List.find?_cons, hm, decide_false]
      exact ih

theorem agrees_mark (h : Agrees l refs refs') : Agrees l refs (markReplaced l refs') := by
  unfold markReplaced
  induction h with
  | nil => exact .nil
  | @cons d d' refs refs' hd hrest ih =>
    obtain ⟨b, rfl⟩ := hd.same
    by_cases hl : d.replaceLine = some l
    · simp only [updateFirst, if_pos hl]
      exact .cons ⟨⟨true, rfl⟩, fun hn => by rw [hn] at hl; cases hl⟩ hrest
    · simp only [updateFirst, if_neg hl]
      cases hu : updateFirst (fun d => if d.replaceLine = some l then
          some ((), { d with done := true }) else none) refs' with
      | none => exact .cons hd hrest
      | some r =>
        simp only [hu] at ih
        exact .cons hd ih

theorem emit_line_text (h : Agrees l refs refs') (raw : Bytes) (dropped : Bool) :
    (emitLine l refs' raw dropped).1 =
      joined newline (if dropped then [] else [lineFor refs l raw]) := by
  rw [← agrees_line h]
  unfold emitLine lineFor
  cases dropped with
  | true => rfl
  | false =>
    dsimp only
    cases refs'.find? (fun d => d.replaceLine = some l) with
    | none => rfl
    | some d => cases he : d.ent <;> simp [he, joined]

theorem emit_line_agrees (h : Agrees l refs refs') (raw : Bytes) (dropped : Bool) :
    Agrees l refs (emitLine l refs' raw dropped).2 := by
  unfold emitLine
  cases dropped with
  | true => exact agrees_mark h
  | false =>
    dsimp only
    cases refs'.find? (fun d => d.replaceLine = some l) with
    | none => exact h
    | some d =>
      cases he : d.ent with
      | none => simpa [he] using h
      | some e => simpa [he] using agrees_mark h

def appendedAt (refs : List DirtyRef) (l : ℕ) : List ConfigEntry :=
  (refs.filter (appendDue l)).filterMap (fun d => d.ent)

theorem refs_text (refs : List DirtyRef) :
    refs.flatMap refText = joined newline ((refs.filterMap (fun d => d.ent)).map entryLine) := by
  induction refs with
  | nil => rfl
  | cons d refs ih =>
    rw [List.flatMap_cons, ih, refText]
    cases he : d.ent with
    | none => simp [he]
    | some e => simp [he, joined, entry_text]

theorem later_append {d d' : DirtyRef} (h : Later l d d') : appendDue l d' = appendDue l d := by
  obtain ⟨b, rfl⟩ := h.same
  by_cases hr : d.replaceLine = none
  · by_cases ha : d.appendLine = some l
    · have hb : b = d.done := h.waiting hr fun m hm => by
        rw [ha] at hm
        rw [Option.mem_some_iff] at hm
        omega
      rw [hb]
    · simp [appendDue, ha]
  · simp [appendDue, hr]

theorem agrees_appended (h : Agrees l refs refs') : appendedAt refs' l = appendedAt refs l := by
  unfold appendedAt
  induction h with
  | nil => rfl
  | @cons d d' refs refs' hd _ ih =>
    have hdue := later_append hd
    obtain ⟨b, rfl⟩ := hd.same
    rw [List.filter_cons, List.filter_cons, hdue]
    split
    · rw [List.filterMap_cons, List.filterMap_cons, ih]
    · exact ih

theorem later_done {d d' : DirtyRef} (h : Later l d d') :
    Later (l+1) d (if appendDue l d' then { d' with done := true } else d') := by
  have hdue := later_append h
  obtain ⟨b, rfl⟩ := h.same
  by_cases ha : appendDue l d = true
  · rw [hdue, if_pos ha]
    refine ⟨⟨true, rfl⟩, fun hr hm => ?_⟩
    have hl : d.appendLine = some l := by
      simp only [appendDue, Bool.decide_and, Bool.and_eq_true, decide_eq_true_eq] at ha
      exact ha.2.2
    have := hm l hl
    omega
  · rw [hdue, if_neg ha]
    exact ⟨⟨b, rfl⟩, fun hr hm => h.waiting hr fun m hm' => by have := hm m hm'; omega⟩

theorem agrees_append (h : Agrees l refs refs') :
    Agrees (l+1) refs (emitDue (appendDue l) refs').2 := by
  unfold emitDue
  induction h with
  | nil => exact .nil
  | cons hd _ ih => exact .cons (later_done hd) ih

/-- The lines of the emission for a line of the file: the line, its
replacement or nothing, and the entries added after it. -/
def blockLines (refs : List DirtyRef) (l : ℕ) (raw : Bytes) (dropped : Bool) : List Bytes :=
  (if dropped then [] else [lineFor refs l raw]) ++ (appendedAt refs l).map entryLine

def bodyLines (refs : List DirtyRef) : ℕ → List (Bytes × Bool) → List Bytes
  | _, [] => []
  | l, (raw, dropped)::rest => blockLines refs l raw dropped ++ bodyLines refs (l+1) rest

theorem emit_lines_text (h : Agrees l refs refs') (marked : List (Bytes × Bool)) :
    (emitLines l refs' marked).1 = joined newline (bodyLines refs l marked) ∧
      Agrees (l+marked.length) refs (emitLines l refs' marked).2 := by
  induction marked generalizing l refs' with
  | nil => exact ⟨rfl, h⟩
  | cons x marked ih =>
    obtain ⟨raw, dropped⟩ := x
    have hline := emit_line_agrees h raw dropped
    obtain ⟨htext, hrest⟩ := ih (agrees_append hline)
    rw [emitLines]
    dsimp only
    constructor
    · have happ : (emitDue (appendDue l) (emitLine l refs' raw dropped).2).1 =
          joined newline ((appendedAt refs l).map entryLine) := by
        rw [emitDue]
        dsimp only
        rw [refs_text, ← agrees_appended hline]
        rfl
      rw [htext, emit_line_text h, happ, bodyLines, blockLines, joined_append, joined_append]
    · rw [List.length_cons, show l+(marked.length+1) = l+1+marked.length by omega]
      exact hrest

end Progress

section NewSections

def groupOf (written : List (Field maxSecn)) (d : DirtyRef) (refs : List DirtyRef) :
    List ConfigEntry :=
  (refs.filter (fun r => sectionDue written r && sameName r.sec.chars d.sec.chars)).filterMap
    (fun r => r.ent)

def opensSection (written : List (Field maxSecn)) (d : DirtyRef) : Bool :=
  sectionDue written d && !d.secInFile && decide (d.sec.chars ≠ [])

def sectionLines (out : Bytes) (d : DirtyRef) (group : List ConfigEntry) : List Bytes :=
  (if separator out = [] then [] else [[]]) ++ headerLine d.sec.chars::group.map entryLine

def newSectionLines (written : List (Field maxSecn)) (out : Bytes) : List DirtyRef → List Bytes
  | [] => []
  | d::rest =>
    if opensSection written d then
      let block := sectionLines out d (groupOf written d (d::rest))
      block ++ newSectionLines (d.sec::written) (out ++ joined newline block) rest
    else newSectionLines written out rest

theorem separator_text (out : Bytes) :
    separator out = joined newline (if separator out = [] then [] else [[]]) := by
  unfold separator
  split
  · rfl
  · split <;> rfl

theorem emit_new_sections_text (written : List (Field maxSecn)) (out : Bytes)
    (refs : List DirtyRef) :
    emitNewSections written out refs =
      out ++ joined newline (newSectionLines written out refs) := by
  induction refs generalizing written out with
  | nil => simp [emitNewSections, newSectionLines, joined]
  | cons d rest ih =>
    rw [emitNewSections, newSectionLines]
    by_cases ho : opensSection written d = true
    · have hc : sectionDue written d = true ∧ d.secInFile = false ∧ d.sec.chars ≠ [] := by
        simpa [opensSection, and_assoc] using ho
      have hblock : separator out ++ headerText d.sec.chars ++ ((d::rest).filter (fun r =>
            sectionDue written r ∧ sameName r.sec.chars d.sec.chars)).flatMap refText =
          joined newline (sectionLines out d (groupOf written d (d::rest))) := by
        rw [refs_text, sectionLines, joined_append, joined, ← separator_text, header_text]
        simp [groupOf]
      rw [if_pos hc, if_pos ho]
      dsimp only
      rw [ih, joined_append, ← hblock]
      simp
    · have hc : ¬(sectionDue written d = true ∧ d.secInFile = false ∧ d.sec.chars ≠ []) := by
        simpa [opensSection, and_assoc] using ho
      rw [if_neg hc, if_neg ho]
      exact ih written out

end NewSections

section Whole

theorem emit_due_none {due : DirtyRef → Bool} {refs : List DirtyRef}
    (h : ∀ d ∈ refs, due d = false) : emitDue due refs = ([], refs) := by
  have hf : refs.filter due = [] := List.filter_eq_nil_iff.mpr fun d hd => by simp [h d hd]
  have hm : refs.map (fun d => if due d then { d with done := true } else d) = refs := by
    conv_rhs => rw [← List.map_id refs]
    exact List.map_congr_left fun d hd => by simp [h d hd]
  rw [emitDue, hf, hm]
  rfl

theorem edited_text_lines {refs plan : List DirtyRef} {text : Bytes} {marked : List (Bytes × Bool)}
    (hplan : (bindLines 0 (rssStrlcpy maxSecn (CString.at [])) false refs
      (pieces newline text)).1.map settleRef = plan)
    (hmarked : dropSeparators ((pieces newline text).zip
      (bindLines 0 (rssStrlcpy maxSecn (CString.at [])) false refs (pieces newline text)).2) =
        marked)
    (htop : ∀ d ∈ plan, topDue d = false) :
    ∃ out after, Agrees marked.length plan after ∧ editedText refs text =
      joined newline (bodyLines plan 0 marked ++ newSectionLines [] out after) := by
  obtain ⟨hbody, hagree⟩ := emit_lines_text (agrees_refl 0 plan) marked
  rw [Nat.zero_add] at hagree
  refine ⟨(emitLines 0 plan marked).1, _, hagree, ?_⟩
  have htext : editedText refs text = emitNewSections []
      ((emitDue topDue plan).1 ++ (emitLines 0 (emitDue topDue plan).2 marked).1)
      (emitLines 0 (emitDue topDue plan).2 marked).2 := by
    rw [← hplan, ← hmarked]
    rfl
  rw [htext, emit_due_none htop]
  show emitNewSections [] (emitLines 0 plan marked).1 _ = _
  rw [emit_new_sections_text, joined_append, hbody]

end Whole

end RaptorCommon.ConfigEmission
