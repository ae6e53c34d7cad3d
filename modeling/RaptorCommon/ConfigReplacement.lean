import RaptorCommon.ConfigPending

/-!
# The line in place of a key line

The new line has the file's spelling of the key, the value and the comment
that was there, as far as they fit. The loader reads the value back unless it
is empty and a comment stays: then the comment is what it reads.
-/

set_option autoImplicit false

namespace RaptorCommon.ConfigReplacement
open RaptorCommon.CText RaptorCommon.ConfigStore RaptorCommon.ConfigLoader
open RaptorCommon.ConfigEditor RaptorCommon.ConfigGrammar RaptorCommon.ConfigLineView
open RaptorCommon.ConfigMap RaptorCommon.ConfigPending RaptorCommon.ConfigSettings

structure ReadsBack (e : ConfigEntry) (line : Bytes) : Prop where
  nul_free : 0 ∉ line
  no_newline : newline ∉ line
  short : line.length < maxLine
  bound : ∃ k v, pieceLine line = .binding k v ∧ foldCase k = entryKey e ∧
    (rssStrlcpy maxVal (CString.at v)).chars = e.value.chars

section Comments

theorem comment_value {w c : Bytes} (hw : ∀ d ∈ w, isBlank d = true) :
    loadedValue (space::(w ++ hashMark::c)) ≠ [] := by
  have hspace : AllSpace (space::w) := by
    intro d hd
    rcases List.mem_cons.mp hd with rfl | hd
    · decide
    · exact blank_space d (hw d hd)
  have htrim : rssTrim (space::(w ++ hashMark::c)) = hashMark::c.rdropWhile isSpace := by
    rw [← List.cons_append, trim_lead hspace, trim_visible c (by decide)]
  obtain ⟨t, ht⟩ : ∃ t, stripInlineComment (hashMark::c.rdropWhile isSpace) = hashMark::t := by
    rw [stripInlineComment]
    split
    · exact ⟨_, rfl⟩
    · exact ⟨_, rfl⟩
  rw [loadedValue, htrim, ht, trim_visible t (by decide)]
  exact List.cons_ne_nil _ _

theorem comment_stored {comment : Bytes} (hz : 0 ∉ comment) (ht : Tail comment)
    (hne : comment ≠ []) : (CString.at (loadedValue (space::comment))).chars.take (maxVal-1) ≠ [] := by
  rcases ht with h0 | ⟨w, c, rfl, hw, -⟩
  · exact absurd h0 hne
  · have hzero : 0 ∉ loadedValue (space::(w ++ hashMark::c)) := by
      intro h0
      rcases List.mem_cons.mp (loaded_mem h0) with h0 | h0
      · exact absurd h0 (by decide)
      · exact hz h0
    rw [at_nul_free hzero]
    intro htake
    rcases List.take_eq_nil_iff.mp htake with h0 | h0
    · exact absurd h0 (by decide)
    · exact comment_value hw h0

theorem kept_comment_empty {raw key : Bytes} {li : LineInfo} (hcut : KeyCut raw key li) (front : ℕ) :
    keptComment raw front li.comOff = [] ↔
      ∀ off ∈ li.comOff, maxLine ≤ front+(raw.length-off) := by
  unfold keptComment
  cases hoff : li.comOff with
  | none => simp
  | some off =>
    obtain ⟨w, c, hdrop, -, -⟩ := hcut.comment off hoff
    dsimp only
    rw [hdrop]
    constructor
    · intro h off' hoff'
      cases hoff'
      by_contra hshort
      rw [if_neg hshort] at h
      simp at h
    · intro h
      exact if_pos (h off rfl)

end Comments

section Replacement

variable {raw : Bytes} {e : ConfigEntry} {d : DirtyRef} {cursec : Field maxSecn}

theorem key_line_item (hz : 0 ∉ raw) (hk : (classifyLine raw).kind = .key) :
    ∃ k v, pieceLine raw = .binding k v := by
  have hl : raw.length < maxLine := by
    by_contra hl
    rw [(long_inert (not_lt.mp hl)).2] at hk
    cases hk
  have hread := same_reading hz hl
  rw [pieceLine, if_pos hl]
  cases hp : parseLine raw with
  | ignored =>
    rw [hread.inert hp] at hk
    cases hk
  | header name =>
    rw [(hread.header name hp).1] at hk
    cases hk
  | binding k v => exact ⟨k, v, rfl⟩

theorem owns_key_parts (hown : ownsKey (classifyLine raw) cursec d = true) (he : d.ent = some e) :
    (classifyLine raw).kind = .key ∧ entryKey e = foldCase (classifyLine raw).key.chars ∧
      ∀ l, (bindRef l (classifyLine raw) cursec d).repKeyEnd = (classifyLine raw).keyEnd ∧
        (bindRef l (classifyLine raw) cursec d).repComOff = (classifyLine raw).comOff := by
  have hparts := hown
  rw [ownsKey, decide_eq_true_eq, he] at hparts
  obtain ⟨hsec, hkind, hname⟩ := hparts
  refine ⟨hkind, of_decide_eq_true hname, ?_⟩
  intro l
  rw [bindRef, if_pos hsec, hown]
  exact ⟨rfl, rfl⟩

/-- What the loader makes of the new line: the key in either spelling, and a
value in front of the comment that stays. -/
theorem replacement_parse {l : ℕ} (hz : 0 ∉ raw) (hn : newline ∉ raw)
    (hfit : ∀ k v, pieceLine raw = .binding k v → k.length ≤ 63) (he : d.ent = some e)
    (hown : ownsKey (classifyLine raw) cursec d = true) :
    ∃ k comment, pieceLine (replacementLine raw (bindRef l (classifyLine raw) cursec d) e) =
        .binding k (loadedValue (space::e.value.chars ++ comment)) ∧ foldCase k = entryKey e ∧
      (replacementLine raw (bindRef l (classifyLine raw) cursec d) e).length < maxLine ∧
      KeyText e.key.chars ∧ Tail comment ∧ 0 ∉ comment ∧
      (e.value.chars = [] → (comment = [] ↔ ∀ off ∈ (classifyLine raw).comOff,
        maxLine ≤ (classifyLine raw).keyEnd+3+(raw.length-off))) := by
  obtain ⟨hkind, hname, hbound⟩ := owns_key_parts hown he
  obtain ⟨hend, hcom⟩ := hbound l
  obtain ⟨key0, value0, hpiece⟩ := key_line_item hz hkind
  have hraw : PlainLine raw := by
    refine ⟨hz, hn, ?_⟩
    intro name hmem
    rw [hpiece, lineNames, List.mem_singleton] at hmem
    rw [hmem]
    exact hfit key0 value0 hpiece
  have hitem : lineItem raw = .binding (foldCase key0) (value0.take (maxVal-1)) := by
    rw [lineItem, hpiece, itemOf]
  obtain ⟨-, hfold, key, hkey, hne, hlen, htrim, hequals, hstart, hcut⟩ := view_key hraw hitem
  obtain ⟨lead, k, comment, hline, hlead, hspell, htail, hshort, hsub, hsubc, hsubk, hkept⟩ :=
    replacement_shape (e := e) hcut hne hend hcom
  have hfolds : entryKey e = foldCase key := hname.trans (hfold.trans hkey.symm)
  have htext : KeyText key := ⟨htrim, hequals, fun h => hn (hsubk h), hstart⟩
  have htextE : KeyText e.key.chars := by
    apply key_text_fold.mp
    rw [show foldCase e.key.chars = foldCase key from hfolds]
    exact key_text_fold.mpr htext
  -- either spelling of the key can stand on a line
  have hk : KeyText k ∧ foldCase k = entryKey e := by
    rcases hspell with rfl | rfl
    · exact ⟨htext, hfolds.symm⟩
    · exact ⟨htextE, rfl⟩
  have hknil : k ≠ [] := by
    rintro rfl
    have h0 : foldCase key = [] := hfolds.symm.trans hk.2.symm
    exact hne (List.map_eq_nil_iff.mp h0)
  refine ⟨k, comment, ?_, hk.2, hshort, htextE, htail, fun h0 => hz (hsubc h0), ?_⟩
  · rw [pieceLine, if_pos hshort, hline, parse_key_line _ hlead space_pad hk.1.trimmed
      hk.1.no_equals hk.1.start, if_neg hknil]
  · intro hempty
    rw [hempty, List.length_nil, Nat.add_zero] at hkept
    rw [hkept, kept_comment_empty hcut]

/-- When the value can be read back from the line that takes the place of a
key line. -/
theorem replacement_reads_back {l : ℕ} (hz : 0 ∉ raw) (hn : newline ∉ raw)
    (hfit : ∀ k v, pieceLine raw = .binding k v → k.length ≤ 63) (he : d.ent = some e)
    (hown : ownsKey (classifyLine raw) cursec d = true) (hv : PlainValue e.value.chars) :
    ReadsBack e (replacementLine raw (bindRef l (classifyLine raw) cursec d) e) ↔
      e.value.chars ≠ [] ∨ ∀ off ∈ (classifyLine raw).comOff,
        maxLine ≤ (classifyLine raw).keyEnd+3+(raw.length-off) := by
  obtain ⟨k, comment, hparse, hfold, hshort, htext, htail, hzc, hgone⟩ :=
    replacement_parse (l := l) hz hn hfit he hown
  constructor
  · intro h
    by_contra hcond
    obtain ⟨hempty, hcomment⟩ := not_or.mp hcond
    have hempty : e.value.chars = [] := not_not.mp hempty
    rw [← hgone hempty] at hcomment
    obtain ⟨k', v, hbound, -, hstored⟩ := h.bound
    rw [hparse, hempty] at hbound
    obtain ⟨-, rfl⟩ := Line.binding.inj hbound
    exact comment_stored hzc htail hcomment (hstored.trans hempty)
  · intro h
    have hread : loadedValue (space::e.value.chars ++ comment) = e.value.chars := by
      apply tail_read hv htail
      by_cases hempty : e.value.chars = []
      · exact Or.inr ((hgone hempty).mpr (h.resolve_left (not_not.mpr hempty)))
      · exact Or.inl hempty
    rw [hread] at hparse
    refine ⟨replacement_without (by decide) hz e.key.nul_free e.value.nul_free,
      replacement_without (by decide) hn htext.no_newline hv.no_newline, hshort, k, _, hparse,
      hfold, ?_⟩
    rw [strlcpy_of_fits]
    · exact at_nul_free e.value.nul_free
    · rw [at_nul_free e.value.nul_free]
      exact e.value.fits

end Replacement

section Samples

def notedLine : Bytes := ascii "k = v # note"

def setSection : Field maxSecn := rssStrlcpy maxSecn (CString.at (ascii "s"))

def setEntry (value : CString) : ConfigEntry :=
  newEntry (CString.at (ascii "k")) value true false

def boundLine (value : CString) : Bytes :=
  replacementLine notedLine (bindRef 1 (classifyLine notedLine) setSection
    (newRef setSection (some (setEntry value)))) (setEntry value)

/-- An empty value in front of the old comment is read as the comment. -/
theorem replacement_reads_comment : boundLine (literal "") = ascii "k =  # note" ∧
    pieceLine (boundLine (literal "")) = .binding (ascii "k") (ascii "# note") ∧
    ¬ReadsBack (setEntry (literal "")) (boundLine (literal "")) := by
  have hpiece : pieceLine (boundLine (literal "")) = .binding (ascii "k") (ascii "# note") := by
    decide +kernel
  refine ⟨by decide +kernel, hpiece, ?_⟩
  intro h
  obtain ⟨k, v, hbound, -, hstored⟩ := h.bound
  rw [hpiece] at hbound
  obtain ⟨-, rfl⟩ := Line.binding.inj hbound
  exact absurd hstored (by decide +kernel)

theorem replacement_reads_value :
    ReadsBack (setEntry (literal "w")) (boundLine (literal "w")) := by
  have hplain : PlainValue (setEntry (literal "w")).value.chars := by
    refine ⟨by decide +kernel, ?_, by decide +kernel⟩
    exact (find_comment_none _).mp (by decide +kernel)
  have hpiece : pieceLine notedLine = .binding (ascii "k") (ascii "v") := by decide +kernel
  apply (replacement_reads_back (by decide +kernel) (by decide +kernel) _ rfl (by decide +kernel)
    hplain).mpr
  · exact Or.inl (by decide +kernel)
  · intro k v h
    rw [hpiece] at h
    obtain ⟨rfl, -⟩ := Line.binding.inj h
    decide

end Samples

end RaptorCommon.ConfigReplacement
