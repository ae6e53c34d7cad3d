import RaptorCommon.ConfigFrame

/-!
# How long an edited file can be

Every change pays for what it puts into the file, once: its entry, the line
it replaces or the section it opens. What is left of the changes not yet
settled only shrinks along the emission, and lines of the file pay for
themselves.
-/

set_option autoImplicit false

namespace RaptorCommon.ConfigBudget
open RaptorCommon.CText RaptorCommon.ConfigStore RaptorCommon.ConfigEditor
open RaptorCommon.ConfigWriter RaptorCommon.ConfigEmission RaptorCommon.LineText
open RaptorCommon.KeyedStore RaptorCommon.ConfigPlan RaptorCommon.ConfigFrame

abbrev perRef : ℕ := maxLine+maxVal+maxSecn+16

theorem per_ref : perRef = 848 := rfl

section Lengths

theorem entry_text_length (e : ConfigEntry) : (entryText e.key.chars e.value.chars).length ≤ 322 := by
  have hk : e.key.chars.length ≤ 63 := e.key.fits
  have hv : e.value.chars.length ≤ 255 := e.value.fits
  simp only [entryText, List.length_append, List.length_cons, List.length_nil]
  omega

theorem ref_text_length (d : DirtyRef) : (refText d).length ≤ 322 := by
  unfold refText
  cases d.ent with
  | none => exact Nat.zero_le 322
  | some e => exact entry_text_length e

theorem refs_text_length (refs : List DirtyRef) :
    (refs.flatMap refText).length ≤ 322*refs.length := by
  induction refs with
  | nil => exact Nat.zero_le _
  | cons d refs ih =>
    have hd := ref_text_length d
    rw [List.flatMap_cons, List.length_append, List.length_cons]
    omega

theorem header_text_length (d : DirtyRef) : (headerText d.sec.chars).length ≤ 66 := by
  have hs : d.sec.chars.length ≤ 63 := d.sec.fits
  simp only [headerText, List.length_append, List.length_cons, List.length_nil]
  omega

theorem separator_length (out : Bytes) : (separator out).length ≤ 1 := by
  unfold separator
  split
  · exact Nat.zero_le 1
  · split <;> simp

theorem replacement_length (raw : Bytes) (d : DirtyRef) (e : ConfigEntry) :
    (replacementLine raw d e).length < 576 := by
  have hM : maxLine = 512 := rfl
  have hk : e.key.chars.length ≤ 63 := e.key.fits
  have hv : e.value.chars.length ≤ 255 := e.value.fits
  have hfront : ∀ n : ℕ, (if n > 0 then raw.take n else e.key.chars).length ≤ max n 63 := by
    intro n
    split
    · exact (List.length_take_le n raw).trans (le_max_left n 63)
    · exact hk.trans (le_max_right n 63)
  obtain ⟨n, hn, hle, hshort⟩ : ∃ n,
      (if d.repKeyEnd+3+e.value.chars.length ≥ maxLine then 0 else d.repKeyEnd) = n ∧
        n ≤ d.repKeyEnd ∧ n+3+e.value.chars.length < maxLine := by
    refine ⟨_, rfl, ?_⟩
    split <;> omega
  have hn' := hfront n
  unfold replacementLine
  dsimp only
  rw [hn]
  simp only [List.length_append, List.length_cons]
  cases d.repComOff with
  | none =>
    simp only [ite_self, List.length_nil]
    omega
  | some off =>
    dsimp only
    by_cases hlong : d.repKeyEnd+3+e.value.chars.length+(raw.length-off) ≥ maxLine
    · rw [if_pos hlong, List.length_nil]
      omega
    · rw [if_neg hlong, List.length_drop]
      omega

end Lengths

section Once

/-- The changes that can still put something into the file. -/
def unsettled (refs : List DirtyRef) : ℕ := refs.countP (fun d => d.done = false)

def Waiting (l : ℕ) (refs : List DirtyRef) : Prop :=
  ∀ d ∈ refs, ∀ m ∈ d.replaceLine, l ≤ m → d.done = false

variable {l : ℕ} {refs : List DirtyRef} {due : DirtyRef → Bool}

theorem due_budget (hdue : ∀ d, due d = true → d.done = false) (refs : List DirtyRef) :
    (emitDue due refs).1.length+perRef*unsettled (emitDue due refs).2 ≤ perRef*unsettled refs := by
  unfold emitDue unsettled
  rw [per_ref]
  dsimp only
  induction refs with
  | nil => exact Nat.zero_le _
  | cons d refs ih =>
    rw [List.map_cons, List.countP_cons, List.countP_cons]
    cases hd : due d with
    | false =>
      rw [List.filter_cons_of_neg (by simp [hd])]
      simp only [Bool.false_eq_true, if_false]
      omega
    | true =>
      have htext := ref_text_length d
      rw [List.filter_cons_of_pos hd, List.flatMap_cons, List.length_append]
      simp only [hdue d hd, if_true, decide_true, Bool.true_eq_false, decide_false,
        Bool.false_eq_true, if_false]
      omega

theorem due_waiting (hdue : ∀ d, due d = true → d.replaceLine = none) (h : Waiting l refs) :
    Waiting l (emitDue due refs).2 := by
  intro d' hd' m hm hl
  obtain ⟨d, hd, rfl⟩ := List.mem_map.mp hd'
  by_cases hc : due d = true
  · rw [if_pos hc] at hm
    rw [hdue d hc] at hm
    cases hm
  · rw [if_neg hc] at hm ⊢
    exact h d hd m hm hl

theorem mark_cons (l : ℕ) (d : DirtyRef) (refs : List DirtyRef) :
    markReplaced l (d::refs) = if d.replaceLine = some l then { d with done := true }::refs
      else d::markReplaced l refs := by
  unfold markReplaced
  by_cases hl : d.replaceLine = some l
  · simp only [updateFirst, if_pos hl]
  · simp only [updateFirst, if_neg hl]
    cases updateFirst (fun d => if d.replaceLine = some l then
      some ((), { d with done := true }) else none) refs <;> rfl

theorem mark_waiting (h : Waiting l refs) : Waiting (l+1) (markReplaced l refs) := by
  induction refs with
  | nil => exact fun x hx => absurd hx List.not_mem_nil
  | cons d refs ih =>
    have hrest : Waiting l refs := fun x hx => h x (List.mem_cons_of_mem d hx)
    intro x hx m hm hl
    rw [mark_cons] at hx
    split at hx
    next hd =>
      rcases List.mem_cons.mp hx with rfl | hx
      · rw [hd, Option.mem_some_iff] at hm
        omega
      · exact hrest x hx m hm (by omega)
    next hd =>
      rcases List.mem_cons.mp hx with rfl | hx
      · exact h x List.mem_cons_self m hm (by omega)
      · exact ih hrest x hx m hm hl

theorem mark_unsettled (l : ℕ) (refs : List DirtyRef) :
    unsettled (markReplaced l refs) ≤ unsettled refs := by
  unfold unsettled
  induction refs with
  | nil => exact Nat.le_refl _
  | cons d refs ih =>
    rw [mark_cons]
    split
    · rw [List.countP_cons, List.countP_cons]
      simp
    · rw [List.countP_cons, List.countP_cons]
      omega

theorem mark_settles (h : Waiting l refs) {d : DirtyRef}
    (hfind : refs.find? (fun d => d.replaceLine = some l) = some d) :
    unsettled (markReplaced l refs)+1 = unsettled refs := by
  unfold unsettled
  induction refs with
  | nil => cases hfind
  | cons x refs ih =>
    rw [mark_cons]
    by_cases hx : x.replaceLine = some l
    · have hopen : x.done = false := h x List.mem_cons_self l hx (Nat.le_refl l)
      rw [if_pos hx, List.countP_cons, List.countP_cons]
      simp [hopen]
    · rw [List.find?_cons_of_neg (by simpa using hx)] at hfind
      have hrest := ih (fun y hy => h y (List.mem_cons_of_mem x hy)) hfind
      rw [if_neg hx, List.countP_cons, List.countP_cons]
      omega

theorem emit_line_waiting (h : Waiting l refs) (raw : Bytes) (dropped : Bool) :
    Waiting (l+1) (emitLine l refs raw dropped).2 := by
  have hkeep : Waiting (l+1) refs := fun d hd m hm hl => h d hd m hm (by omega)
  unfold emitLine
  dsimp only
  split
  · exact mark_waiting h
  · split
    · exact hkeep
    · split
      · exact hkeep
      · exact mark_waiting h

theorem emit_line_budget (h : Waiting l refs) (raw : Bytes) (dropped : Bool) :
    (emitLine l refs raw dropped).1.length+perRef*unsettled (emitLine l refs raw dropped).2 ≤
      raw.length+1+perRef*unsettled refs := by
  have hmark : perRef*unsettled (markReplaced l refs) ≤ perRef*unsettled refs :=
    Nat.mul_le_mul_left perRef (mark_unsettled l refs)
  unfold emitLine
  dsimp only
  split
  · dsimp only
    rw [List.length_nil]
    omega
  · split
    · dsimp only
      rw [List.length_append, List.length_singleton]
    next d hfind =>
      split
      · dsimp only
        rw [List.length_append, List.length_singleton]
      next e _ =>
        have hline := replacement_length raw d e
        have hone := mark_settles h hfind
        dsimp only
        rw [per_ref, List.length_append, List.length_singleton]
        omega

theorem append_due {l : ℕ} {d : DirtyRef} (h : appendDue l d = true) :
    d.done = false ∧ d.replaceLine = none := by
  simp only [appendDue, pendingRef, Bool.decide_and, Bool.and_eq_true, decide_eq_true_eq] at h
  exact ⟨h.1.2, h.2.1⟩

theorem top_due {d : DirtyRef} (h : topDue d = true) : d.done = false ∧ d.replaceLine = none := by
  simp only [topDue, pendingRef, Bool.decide_and, Bool.and_eq_true, decide_eq_true_eq] at h
  exact ⟨h.1.2, h.2.2.1⟩

/-- The lines of the file pay for themselves, the rest is paid by changes. -/
theorem emit_lines_budget (h : Waiting l refs) (marked : List (Bytes × Bool)) :
    (emitLines l refs marked).1.length+perRef*unsettled (emitLines l refs marked).2 ≤
      ((marked.map Prod.fst).map (fun raw => raw.length+1)).sum+perRef*unsettled refs := by
  induction marked generalizing l refs with
  | nil =>
    rw [emitLines]
    simp
  | cons x marked ih =>
    obtain ⟨raw, dropped⟩ := x
    have hline := emit_line_budget h raw dropped
    have hdue : ∀ d, appendDue l d = true → d.done = false ∧ d.replaceLine = none :=
      fun _ hd => append_due hd
    have hwait := due_waiting (fun d hd => (hdue d hd).2) (emit_line_waiting h raw dropped)
    have happ := due_budget (fun d hd => (hdue d hd).1) (emitLine l refs raw dropped).2
    have hrest := ih hwait
    rw [emitLines]
    dsimp only
    rw [List.map_cons, List.map_cons, List.sum_cons, List.length_append, List.length_append]
    dsimp only
    omega

end Once

section NewSections

theorem filter_parts {α : Type*} (p q : α → Bool) (l : List α) :
    (l.filter p).length = (l.filter (fun a => p a && q a)).length+
      (l.filter (fun a => p a && !q a)).length := by
  rw [List.length_eq_length_filter_add (l := l.filter p) q, List.filter_filter, List.filter_filter]
  simp only [Bool.and_comm]

theorem same_name_comm (a b : Bytes) : sameName a b = sameName b a := by
  unfold sameName
  rw [Bool.eq_iff_iff, decide_eq_true_eq, decide_eq_true_eq]
  exact eq_comm

theorem section_due_cons (w : Field maxSecn) (written : List (Field maxSecn)) (r : DirtyRef) :
    sectionDue (w::written) r = (sectionDue written r && !sameName r.sec.chars w.chars) := by
  rw [same_name_comm]
  unfold sectionDue
  rw [List.any_cons]
  cases pendingRef r <;> cases sameName w.chars r.sec.chars <;> simp

theorem emit_new_sections_budget (written : List (Field maxSecn)) (out : Bytes)
    (refs : List DirtyRef) :
    (emitNewSections written out refs).length ≤
      out.length+perRef*(refs.filter (sectionDue written)).length := by
  rw [per_ref]
  induction refs generalizing written out with
  | nil => simp [emitNewSections]
  | cons d rest ih =>
    rw [emitNewSections]
    split
    next hd =>
      have hown : sameName d.sec.chars d.sec.chars = true := by simp [sameName]
      have hparts := filter_parts (sectionDue written) (fun r => sameName r.sec.chars d.sec.chars)
        (d::rest)
      have hgone : (d::rest).filter (sectionDue (d.sec::written)) =
          rest.filter (sectionDue (d.sec::written)) :=
        List.filter_cons_of_neg (by rw [section_due_cons, hown]; simp)
      simp only [← section_due_cons, hgone] at hparts
      obtain ⟨entries, hentries⟩ : ∃ entries, (d::rest).filter (fun r =>
        decide (sectionDue written r = true ∧ sameName r.sec.chars d.sec.chars = true)) = entries :=
        ⟨_, rfl⟩
      have hmem : d ∈ entries := by
        rw [← hentries, List.mem_filter]
        simp [hd.1, hown]
      have hpos : 0 < entries.length := List.length_pos_of_mem hmem
      have htext := refs_text_length entries
      have hhead := header_text_length d
      have hsep := separator_length out
      simp only [Bool.decide_and, Bool.decide_eq_true] at hentries
      rw [hentries] at hparts
      have hrest := ih (d.sec::written) (out ++ separator out ++ headerText d.sec.chars ++
        entries.flatMap refText)
      simp only [List.length_append] at hrest
      dsimp only
      simp only [Bool.decide_and, Bool.decide_eq_true]
      rw [hentries]
      omega
    next hd =>
      have hrest := ih written out
      have hsub : (rest.filter (sectionDue written)).length ≤
          ((d::rest).filter (sectionDue written)).length :=
        (List.sublist_cons_self d rest).filter _ |>.length_le
      omega

end NewSections

section WholeText

/-- The number of lines: a last one may lack its newline. -/
def lineCount (text : Bytes) : ℕ :=
  text.count newline+(if text.getLast?.any (fun c => c ≠ newline) then 1 else 0)

def settledRefs (refs : List DirtyRef) (text : Bytes) : List DirtyRef :=
  (bindLines 0 (rssStrlcpy maxSecn (CString.at [])) false refs (pieces newline text)).1.map settleRef

def markedLines (refs : List DirtyRef) (text : Bytes) : List (Bytes × Bool) :=
  dropSeparators ((pieces newline text).zip
    (bindLines 0 (rssStrlcpy maxSecn (CString.at [])) false refs (pieces newline text)).2)

def topPass (refs : List DirtyRef) (text : Bytes) : Bytes × List DirtyRef :=
  emitDue topDue (settledRefs refs text)

def bodyPass (refs : List DirtyRef) (text : Bytes) : Bytes × List DirtyRef :=
  emitLines 0 (topPass refs text).2 (markedLines refs text)

theorem edited_passes (refs : List DirtyRef) (text : Bytes) : editedText refs text =
    emitNewSections [] ((topPass refs text).1 ++ (bodyPass refs text).1) (bodyPass refs text).2 :=
  rfl

theorem settled_bound (refs : List DirtyRef) (text : Bytes) :
    settledRefs refs text = refs.map (boundRef (pieces newline text)) := by
  rw [settledRefs, ConfigBinding.bind_lines_refs, List.map_map]
  rfl

theorem sum_succ (ls : List Bytes) :
    (ls.map (fun raw => raw.length+1)).sum = (ls.map List.length).sum+ls.length := by
  induction ls with
  | nil => rfl
  | cons l ls ih =>
    simp only [List.map_cons, List.sum_cons, List.length_cons, ih]
    omega

theorem bind_lines_length (l : ℕ) (cursec : Field maxSecn) (inRemoved : Bool)
    (refs : List DirtyRef) (raws : List Bytes) :
    (bindLines l cursec inRemoved refs raws).2.length = raws.length := by
  induction raws generalizing l cursec inRemoved refs with
  | nil => rfl
  | cons raw raws ih =>
    rw [bindLines]
    dsimp only
    rw [List.length_cons, ih, List.length_cons]

theorem drop_separators_lines (marked : List (Bytes × Bool)) :
    (dropSeparators marked).map Prod.fst = marked.map Prod.fst := by
  induction marked with
  | nil => rfl
  | cons x marked ih =>
    obtain ⟨raw, dropped⟩ := x
    cases marked with
    | nil => rfl
    | cons y marked =>
      obtain ⟨following, d⟩ := y
      rw [dropSeparators, List.map_cons, ih]
      rfl

theorem marked_lines (refs : List DirtyRef) (text : Bytes) :
    (markedLines refs text).map Prod.fst = pieces newline text := by
  rw [markedLines, drop_separators_lines, List.map_fst_zip]
  rw [bind_lines_length]

theorem settled_waiting {refs : List DirtyRef} (hnew : ∀ d ∈ refs, d = newRef d.sec d.ent)
    (text : Bytes) : Waiting 0 (settledRefs refs text) := by
  intro x hx m hm _
  rw [settled_bound] at hx
  obtain ⟨d, hd, rfl⟩ := List.mem_map.mp hx
  have hdone := (bound_ref_placed (pieces newline text) (hnew d hd)).done
  by_contra hc
  have hnone := (hdone.mp (by simpa using hc)).2
  rw [hnone] at hm
  cases hm

theorem section_due_open {written : List (Field maxSecn)} {refs : List DirtyRef} :
    (refs.filter (sectionDue written)).length ≤ unsettled refs := by
  rw [unsettled, List.countP_eq_length_filter]
  refine List.Sublist.length_le (List.monotone_filter_right refs fun d hd => ?_)
  simp only [sectionDue, pendingRef, Bool.decide_and, Bool.and_eq_true, decide_eq_true_eq] at hd
  exact decide_eq_true hd.1.2

theorem edited_length {refs : List DirtyRef} (hnew : ∀ d ∈ refs, d = newRef d.sec d.ent)
    (text : Bytes) :
    (editedText refs text).length ≤ text.length+lineCount text+perRef*refs.length := by
  have hdue : ∀ d, topDue d = true → d.done = false ∧ d.replaceLine = none :=
    fun _ hd => top_due hd
  have htop : (topPass refs text).1.length+perRef*unsettled (topPass refs text).2 ≤
      perRef*unsettled (settledRefs refs text) := due_budget (fun d hd => (hdue d hd).1) _
  have hwait : Waiting 0 (topPass refs text).2 :=
    due_waiting (fun d hd => (hdue d hd).2) (settled_waiting hnew text)
  have hbody : (bodyPass refs text).1.length+perRef*unsettled (bodyPass refs text).2 ≤
      ((pieces newline text).map (fun raw => raw.length+1)).sum+
        perRef*unsettled (topPass refs text).2 := by
    rw [← marked_lines refs text]
    exact emit_lines_budget hwait (markedLines refs text)
  rw [sum_succ, pieces_count] at hbody
  have hsizes := pieces_sizes newline text
  have hsections := emit_new_sections_budget []
    ((topPass refs text).1 ++ (bodyPass refs text).1) (bodyPass refs text).2
  have hopen : perRef*((bodyPass refs text).2.filter (sectionDue [])).length ≤
      perRef*unsettled (bodyPass refs text).2 := Nat.mul_le_mul_left perRef section_due_open
  have hall : perRef*unsettled (settledRefs refs text) ≤ perRef*refs.length := by
    refine Nat.mul_le_mul_left perRef (List.countP_le_length.trans ?_)
    rw [settled_bound, List.length_map]
  rw [edited_passes]
  rw [List.length_append] at hsections
  unfold lineCount
  omega

end WholeText

end RaptorCommon.ConfigBudget
