import RaptorCommon.ConfigRoundTrip

/-!
# The text a whole configuration should be

The text is put together from its sections: a header, the entries, and a blank
line between one section and the next. What is written is that text as long as
no header fills the buffer and the section without a header comes first.
-/

set_option autoImplicit false

namespace RaptorCommon.ConfigWholeText
open RaptorCommon.CText RaptorCommon.ConfigStore RaptorCommon.ConfigWriter
open RaptorCommon.ConfigLineView RaptorCommon.ConfigFullWrite RaptorCommon.ConfigRoundTrip
open RaptorCommon.LineText

def entriesText (s : ConfigSection) : Bytes :=
  (savedEntries s).flatMap fun e => entryText e.key.chars e.value.chars

def sectionText (s : ConfigSection) : Bytes :=
  (if s.name.chars = [] then [] else headerText s.name.chars) ++ entriesText s

/-- The sections in file order, a blank line between them. -/
def wholeText (ss : List ConfigSection) : Bytes := [newline].intercalate (ss.map sectionText)

def behind (ss : List ConfigSection) : Bytes := ss.flatMap fun s => newline::sectionText s

section Pieces

variable {x : Extent} {s : ConfigSection} {ss : List ConfigSection}

theorem behind_cons (s : ConfigSection) (ss : List ConfigSection) :
    behind (s::ss) = newline::sectionText s ++ behind ss := List.flatMap_cons

theorem whole_text_cons (s : ConfigSection) (ss : List ConfigSection) :
    wholeText (s::ss) = sectionText s ++ behind ss := by
  induction ss generalizing s with
  | nil => simp [wholeText, behind, List.intercalate]
  | cons t ss ih =>
    have hmore : wholeText (s::t::ss) = sectionText s ++ newline::wholeText (t::ss) := by
      simp [wholeText, List.intercalate, List.intersperse_cons_cons]
    rw [hmore, ih, behind_cons, List.cons_append]

theorem entries_joined (es : List ConfigEntry) : joined newline (es.map entryLine) =
    es.flatMap fun e => entryText e.key.chars e.value.chars := by
  induction es with
  | nil => rfl
  | cons e es ih =>
    rw [List.map_cons, joined, ih, List.flatMap_cons, entry_text, List.append_assoc]
    rfl

theorem text_cons (hs : savedEntries s ≠ []) : joined newline (textLines x (s::ss)) =
    headerBytes x s.name.chars ++ entriesText s ++ joined newline (textLines (sectionEnd x s) ss) := by
  rw [textLines, joined_append, ← written_text hs, entries_joined]
  rfl

theorem entries_end_length (x : Extent) (es : List ConfigEntry) :
    x.length+es.length ≤ (es.foldl entryEnd x).length := by
  induction es generalizing x with
  | nil => exact le_rfl
  | cons e es ih =>
    have hrest := ih (entryEnd x e)
    have hone : (entryEnd x e).length =
      x.length+(e.key.chars.length+e.value.chars.length+4) := rfl
    rw [List.foldl_cons, List.length_cons]
    omega

theorem section_end_length (hs : savedEntries s ≠ []) : 0 < (sectionEnd x s).length := by
  have hlen : 0 < (savedEntries s).length := List.length_pos_iff.mpr hs
  have hend := entries_end_length (headerEnd s.name.chars x) (savedEntries s)
  unfold sectionEnd
  omega

theorem entries_nul_free (s : ConfigSection) : 0 ∉ entriesText s := by
  intro h
  obtain ⟨e, -, he⟩ := List.mem_flatMap.mp h
  rw [entryText] at he
  have hk := e.key.nul_free
  have hv := e.value.nul_free
  simp only [List.mem_append, List.mem_cons, List.not_mem_nil, or_false] at he
  rcases he with (he | he | he | he | he) | he
  · exact hk he
  · exact absurd he (by decide)
  · exact absurd he (by decide)
  · exact absurd he (by decide)
  · exact hv he
  · exact absurd he (by decide)

theorem header_nul (x : Extent) (name : Field maxSecn) :
    0 ∈ headerBytes x name.chars ↔ headerFull x name.chars = true := by
  have hline : 0 ∉ headerLine name.chars := by
    have hname := name.nul_free
    simp only [headerLine, List.mem_append, List.mem_cons, List.not_mem_nil, or_false, not_or]
    exact ⟨⟨by decide, hname⟩, by decide⟩
  have hblank : (0 : Byte) ∉ (if 0 < x.length then [newline] else []) := by
    split <;> simp
    decide
  by_cases h0 : name.chars = []
  · have hno : ¬headerFull x name.chars = true := by
      simp [headerFull, h0]
    rw [headerBytes, if_pos h0]
    exact ⟨fun h => absurd h List.not_mem_nil, fun h => absurd h hno⟩
  · rw [headerBytes, if_neg h0, List.mem_append, List.mem_append, List.mem_singleton]
    by_cases hfull : headerFull x name.chars = true
    · rw [if_pos hfull]
      exact ⟨fun _ => hfull, fun _ => Or.inr rfl⟩
    · rw [if_neg hfull]
      constructor
      · rintro ((h | h) | h)
        · exact absurd h hblank
        · exact absurd h hline
        · exact absurd h (by decide)
      · exact fun h => absurd h hfull

def Roomy : Extent → List ConfigSection → Prop
  | _, [] => True
  | x, s::rest => headerFull x s.name.chars = false ∧ Roomy (sectionEnd x s) rest

theorem text_nul (hne : ∀ s ∈ ss, savedEntries s ≠ []) :
    0 ∉ joined newline (textLines x ss) ↔ Roomy x ss := by
  induction ss generalizing x with
  | nil => exact ⟨fun _ => trivial, fun _ => List.not_mem_nil⟩
  | cons s ss ih =>
    rw [text_cons (hne s (by simp)), List.mem_append, List.mem_append, not_or, not_or,
      ih fun t ht => hne t (by simp [ht]), header_nul, Roomy, Bool.not_eq_true]
    constructor
    · rintro ⟨⟨h, -⟩, hrest⟩
      exact ⟨h, hrest⟩
    · rintro ⟨h, hrest⟩
      exact ⟨⟨h, entries_nul_free s⟩, hrest⟩

theorem header_bytes_length (x : Extent) {name : Bytes} (h : name ≠ []) :
    (headerBytes x name).length = (headerText name).length+(if 0 < x.length then 1 else 0) := by
  rw [headerBytes, if_neg h, header_text]
  by_cases hx : 0 < x.length
  · simp [hx]
  · simp [hx]

/-- The sections behind the first take a byte more each, but for one without a header. -/
theorem behind_length (hx : 0 < x.length) (hne : ∀ s ∈ ss, savedEntries s ≠ []) :
    (joined newline (textLines x ss)).length+ss.countP (fun s => s.name.chars = []) =
      (behind ss).length := by
  induction ss generalizing x with
  | nil => rfl
  | cons s ss ih =>
    have hs := hne s (by simp)
    have hrest := ih (section_end_length (x := x) hs) fun t ht => hne t (by simp [ht])
    have hbehind : (behind (s::ss)).length = (sectionText s).length+1+(behind ss).length := by
      rw [behind_cons, List.length_append, List.length_cons]
    rw [text_cons hs, List.length_append, List.length_append, List.countP_cons, hbehind, sectionText,
      List.length_append]
    by_cases h0 : s.name.chars = []
    · rw [headerBytes, if_pos h0, if_pos h0, if_pos (decide_eq_true h0), List.length_nil]
      omega
    · have hhead := header_bytes_length x h0
      rw [if_pos hx] at hhead
      rw [if_neg h0, if_neg (by simpa using h0), hhead]
      omega

theorem header_whole {name : Bytes} (h : headerFull x name = false) (h0 : name ≠ []) :
    headerBytes x name = (if 0 < x.length then [newline] else []) ++ headerText name := by
  rw [headerBytes, if_neg h0, h, header_text, List.append_assoc]
  rfl

theorem behind_text (hx : 0 < x.length) (hne : ∀ s ∈ ss, savedEntries s ≠ [])
    (hroomy : Roomy x ss) (hnamed : ∀ s ∈ ss, s.name.chars ≠ []) :
    joined newline (textLines x ss) = behind ss := by
  induction ss generalizing x with
  | nil => rfl
  | cons s ss ih =>
    have hs := hne s (by simp)
    have h0 := hnamed s (by simp)
    have hrest := ih (section_end_length (x := x) hs) (fun t ht => hne t (by simp [ht])) hroomy.2
      fun t ht => hnamed t (by simp [ht])
    rw [text_cons hs, header_whole hroomy.1 h0, if_pos hx, hrest, behind_cons, sectionText,
      if_neg h0, List.append_assoc [newline]]
    rfl

theorem first_text (hs : savedEntries s ≠ []) (ss : List ConfigSection) :
    joined newline (textLines startExtent (s::ss)) =
      sectionText s ++ joined newline (textLines (sectionEnd startExtent s) ss) := by
  have hstart : ¬0 < startExtent.length := Nat.lt_irrefl 0
  rw [text_cons hs, sectionText]
  by_cases h0 : s.name.chars = []
  · rw [headerBytes, if_pos h0, if_pos h0]
  · have hfull : headerFull startExtent s.name.chars = false :=
      decide_eq_false fun h => hstart h.2.1
    rw [header_whole hfull h0, if_neg hstart, if_neg h0, List.nil_append]

end Pieces

/-- Every byte of the text is as it should be just where no header fills the
buffer and no section without a header comes behind another one. -/
theorem whole_text_written (cfg : Config) :
    (configText cfg = wholeText (writtenSections cfg) ∧ 0 ∉ configText cfg) ↔
      Roomy startExtent (writtenSections cfg) ∧
        ∀ s ∈ (writtenSections cfg).tail, s.name.chars ≠ [] := by
  have hne : ∀ s ∈ writtenSections cfg, savedEntries s ≠ [] := fun s hs =>
    of_decide_eq_true (List.mem_filter.mp hs).2
  rw [config_text_lines, text_nul hne, and_comm]
  apply and_congr_right
  intro hroomy
  generalize writtenSections cfg = ss at hne hroomy
  cases ss with
  | nil => exact ⟨fun _ s hs => absurd hs List.not_mem_nil, fun _ => rfl⟩
  | cons s ss =>
    have hs := hne s (by simp)
    have hend := section_end_length (x := startExtent) hs
    have hne' : ∀ t ∈ ss, savedEntries t ≠ [] := fun t ht => hne t (by simp [ht])
    rw [first_text hs, whole_text_cons, List.append_cancel_left_eq, List.tail_cons]
    constructor
    · intro h t ht h0
      have hlen := behind_length hend hne'
      rw [h] at hlen
      have hpos : 0 < ss.countP (fun s => s.name.chars = []) :=
        List.countP_pos_iff.mpr ⟨t, ht, decide_eq_true h0⟩
      omega
    · exact behind_text hend hne' hroomy.2

section Full

def longEntry (i : ℕ) : ConfigEntry :=
  newEntry (CString.at (List.replicate 62 107 ++ [UInt8.ofNat (97+i)]))
    (CString.at (List.replicate 255 118)) true false

/-- Twelve of the longest entries and a shorter one fill 4091 bytes with their header. -/
def longSection : ConfigSection :=
  { emptySection (CString.at (ascii "a")) with
    entries := newEntry (CString.at (ascii "l")) (CString.at (List.replicate 218 118)) true false::
      (List.range 12).reverse.map longEntry }

def lastSection : ConfigSection :=
  { emptySection (CString.at (ascii "b")) with
    entries := [newEntry (CString.at (ascii "k")) (CString.at (ascii "v")) true false] }

/-- The header of the second section ends at the capacity, and loses its newline. -/
theorem whole_text_full : headerFull (sectionEnd startExtent longSection) lastSection.name.chars ∧
    0 ∈ configText [lastSection, longSection] ∧
    ¬(configText [lastSection, longSection] = wholeText (writtenSections [lastSection, longSection]) ∧
      0 ∉ configText [lastSection, longSection]) := by
  have hhead : headerFull (sectionEnd startExtent longSection) lastSection.name.chars := by
    decide +kernel
  have hwritten : writtenSections [lastSection, longSection] = [longSection, lastSection] := by
    decide +kernel
  have hfull : ¬Roomy startExtent [longSection, lastSection] := by
    rintro ⟨-, h, -⟩
    rw [hhead] at h
    cases h
  have hnul : 0 ∈ configText [lastSection, longSection] := by
    by_contra h
    rw [config_text_lines, hwritten] at h
    apply hfull
    refine (text_nul ?_).mp h
    intro s hs
    rcases List.mem_pair.mp hs with rfl | rfl
    · exact List.reverse_ne_nil_iff.mpr (List.cons_ne_nil _ _)
    · exact List.reverse_ne_nil_iff.mpr (List.cons_ne_nil _ _)
  refine ⟨hhead, hnul, ?_⟩
  rintro ⟨-, h⟩
  exact h hnul

end Full

end RaptorCommon.ConfigWholeText
