import RaptorCommon.ConfigEditedText

/-!
# The text of a whole configuration

The writer checks the room for a header without the character that closes it
when a blank line goes in front, so a header may fill the buffer to its end.
The header's newline then gives way to the terminator, and the header and the
first entry after it stand on one line. Lengths alone decide where this
happens.
-/

set_option autoImplicit false

namespace RaptorCommon.ConfigFullWrite
open RaptorCommon.CText RaptorCommon.ConfigStore RaptorCommon.ConfigLoader
open RaptorCommon.ConfigWriter RaptorCommon.ConfigGrammar RaptorCommon.ConfigMap
open RaptorCommon.ConfigLineView RaptorCommon.ConfigEditedText RaptorCommon.ConfigSettings
open RaptorCommon.IniSemantics RaptorCommon.LineText

section Lengths

/-- How much the writer has written, and the room it has for it. -/
structure Extent where
  length : ℕ
  capacity : ℕ

def startExtent : Extent := ⟨0, 4096⟩

def grown (need : ℕ) (x : Extent) : Extent :=
  if need > x.capacity then { x with capacity := need+4096 } else x

def headerEnd (name : Bytes) (x : Extent) : Extent :=
  if name = [] then x
  else ⟨x.length+(if 0 < x.length then 1 else 0)+(name.length+3),
    (grown (x.length+name.length+4) x).capacity⟩

def entryEnd (x : Extent) (e : ConfigEntry) : Extent :=
  ⟨x.length+(e.key.chars.length+e.value.chars.length+4),
    (grown (x.length+e.key.chars.length+e.value.chars.length+8) x).capacity⟩

def sectionEnd (x : Extent) (s : ConfigSection) : Extent :=
  (savedEntries s).foldl entryEnd (headerEnd s.name.chars x)

/-- The header after `x` fills the buffer to its end. -/
def headerFull (x : Extent) (name : Bytes) : Bool :=
  name ≠ [] ∧ 0 < x.length ∧ x.length+name.length+4 = x.capacity

structure Sized (buf : OutBuf) (x : Extent) : Prop where
  length : buf.text.length = x.length
  size : buf.size = x.capacity

variable {buf : OutBuf} {x : Extent}

theorem snprintf_fits {s : Bytes} (h : buf.text.length+s.length < buf.size) :
    snprintf s buf = { buf with text := buf.text ++ s } := by
  unfold snprintf
  dsimp only
  rw [if_pos (by omega)]

theorem snprintf_full {s : Bytes} {c : Byte} (h : buf.text.length+(s.length+1) = buf.size) :
    snprintf (s++[c]) buf = { buf with text := buf.text ++ s ++ [0] } := by
  unfold snprintf
  dsimp only
  have hroom : buf.size-buf.text.length = s.length+1 := by omega
  rw [hroom, List.length_append, List.length_singleton, if_neg (by omega)]
  simp

theorem reserve_sized (need : ℕ) (h : Sized buf x) :
    Sized (reserve need buf) (grown need x) ∧ (reserve need buf).text = buf.text := by
  unfold reserve grown
  rw [h.size]
  split
  · exact ⟨⟨h.length, rfl⟩, rfl⟩
  · exact ⟨h, rfl⟩

theorem grown_room (need : ℕ) (x : Extent) : need ≤ (grown need x).capacity := by
  unfold grown
  split
  next => exact Nat.le_add_right need 4096
  next h => omega

theorem grown_full {need : ℕ} : need = (grown need x).capacity ↔ need = x.capacity := by
  unfold grown
  split
  next h =>
    dsimp only
    omega
  next => rfl

def headerBytes (x : Extent) (name : Bytes) : Bytes :=
  if name = [] then []
  else (if 0 < x.length then [newline] else []) ++
    headerLine name ++ [if headerFull x name then 0 else newline]

theorem header_line_length (name : Bytes) : (headerLine name).length = name.length+2 := by
  simp [headerLine]

theorem write_header (name : Bytes) (h : Sized buf x) :
    Sized (writeHeader name buf) (headerEnd name x) ∧
      (writeHeader name buf).text = buf.text ++ headerBytes x name := by
  by_cases h0 : name = []
  · rw [writeHeader, headerEnd, headerBytes, if_pos h0, if_pos h0, if_pos h0, List.append_nil]
    exact ⟨h, rfl⟩
  · obtain ⟨hres, htext⟩ := reserve_sized (buf.text.length+name.length+4) h
    have hneed := grown_room (x.length+name.length+4) x
    have hfull := @grown_full x (x.length+name.length+4)
    rw [h.length] at hres htext
    rw [writeHeader, if_neg h0, headerEnd, if_neg h0, headerBytes, if_neg h0, h.length]
    dsimp only
    rw [header_text]
    generalize reserve (x.length+name.length+4) buf = r at hres htext ⊢
    generalize grown (x.length+name.length+4) x = g at hres hneed hfull ⊢
    have hlen : r.text.length = x.length := by rw [htext, h.length]
    have hcap : r.size = g.capacity := hres.size
    have hline := header_line_length name
    by_cases hpos : 0 < x.length
    · rw [if_pos hpos, if_pos (by omega), if_pos hpos]
      by_cases hf : x.length+name.length+4 = x.capacity
      · have hwrite : snprintf (headerLine name ++ [newline])
            { r with text := r.text ++ [newline] } =
            { r with text := r.text ++ [newline] ++ headerLine name ++ [0] } := by
          refine snprintf_full ?_
          rw [List.length_append, List.length_singleton, hlen, hline, hcap, ← hfull.mpr hf]
          omega
        have hyes : headerFull x name = true := decide_eq_true ⟨h0, hpos, hf⟩
        rw [hwrite, if_pos hyes]
        refine ⟨⟨?_, hcap⟩, by simp [htext]⟩
        simp only [List.length_append, List.length_singleton, hlen, hline]
        omega
      · have hwrite : snprintf (headerLine name ++ [newline])
            { r with text := r.text ++ [newline] } =
            { r with text := r.text ++ [newline] ++ (headerLine name ++ [newline]) } := by
          refine snprintf_fits ?_
          have hne := fun heq => hf (hfull.mp heq)
          simp only [List.length_append, List.length_singleton, hlen, hline, hcap]
          omega
        have hno : headerFull x name = false := decide_eq_false fun hc => hf hc.2.2
        rw [hwrite, if_neg (by simp [hno])]
        refine ⟨⟨?_, hcap⟩, by simp [htext]⟩
        simp only [List.length_append, List.length_singleton, hlen, hline]
    · rw [if_neg hpos, if_neg (by omega), if_neg hpos]
      have hwrite : snprintf (headerLine name ++ [newline]) r =
          { r with text := r.text ++ (headerLine name ++ [newline]) } := by
        refine snprintf_fits ?_
        simp only [List.length_append, List.length_singleton, hlen, hline, hcap]
        omega
      have hno : headerFull x name = false := decide_eq_false fun hc => hpos hc.2.1
      rw [hwrite, if_neg (by simp [hno])]
      refine ⟨⟨?_, hcap⟩, by simp [htext]⟩
      simp only [List.length_append, List.length_singleton, hlen, hline]
      omega

theorem entry_text_length (e : ConfigEntry) : (entryText e.key.chars e.value.chars).length =
    e.key.chars.length+e.value.chars.length+4 := by
  simp [entryText]
  omega

theorem write_entry (e : ConfigEntry) (h : Sized buf x) :
    Sized (writeEntry buf e) (entryEnd x e) ∧
      (writeEntry buf e).text = buf.text ++ joined newline [entryLine e] := by
  obtain ⟨hres, htext⟩ := reserve_sized
    (buf.text.length+e.key.chars.length+e.value.chars.length+8) h
  have hneed := grown_room (x.length+e.key.chars.length+e.value.chars.length+8) x
  have hline := entry_text_length e
  rw [h.length] at hres htext
  rw [writeEntry, entryEnd, h.length]
  generalize reserve (x.length+e.key.chars.length+e.value.chars.length+8) buf = r at hres htext ⊢
  generalize grown (x.length+e.key.chars.length+e.value.chars.length+8) x = g at hres hneed ⊢
  have hlen : r.text.length = x.length := by rw [htext, h.length]
  have hcap : r.size = g.capacity := hres.size
  have hwrite : snprintf (entryText e.key.chars e.value.chars) r =
      { r with text := r.text ++ entryText e.key.chars e.value.chars } :=
    snprintf_fits (by omega)
  rw [hwrite]
  refine ⟨⟨?_, hcap⟩, ?_⟩
  · rw [List.length_append, hlen, hline]
  · rw [htext, entry_text, joined, joined]

theorem write_entries (es : List ConfigEntry) (h : Sized buf x) :
    Sized (es.foldl writeEntry buf) (es.foldl entryEnd x) ∧
      (es.foldl writeEntry buf).text = buf.text ++ joined newline (es.map entryLine) := by
  induction es generalizing buf x with
  | nil => exact ⟨h, by simp [joined]⟩
  | cons e es ih =>
    obtain ⟨hone, htext⟩ := write_entry e h
    obtain ⟨hall, hrest⟩ := ih hone
    refine ⟨hall, ?_⟩
    rw [List.foldl_cons, hrest, htext, List.append_assoc, ← joined_append]
    rfl

end Lengths

section Lines

/-- A full header runs into the line after it. -/
def headerLines (full : Bool) (head : Bytes) : List Bytes → List Bytes
  | [] => [head]
  | l::ls => if full then (head ++ 0::l)::ls else head::l::ls

def writtenLines (x : Extent) (s : ConfigSection) : List Bytes :=
  if s.name.chars = [] then (savedEntries s).map entryLine
  else (if 0 < x.length then [[]] else []) ++ headerLines (headerFull x s.name.chars)
    (headerLine s.name.chars) ((savedEntries s).map entryLine)

def writtenSections (cfg : Config) : List ConfigSection :=
  cfg.reverse.filter (fun s => savedEntries s ≠ [])

def textLines : Extent → List ConfigSection → List Bytes
  | _, [] => []
  | x, s::rest => writtenLines x s ++ textLines (sectionEnd x s) rest

variable {buf : OutBuf} {x : Extent}

theorem written_text {s : ConfigSection} (h : savedEntries s ≠ []) :
    headerBytes x s.name.chars ++ joined newline ((savedEntries s).map entryLine) =
      joined newline (writtenLines x s) := by
  rw [headerBytes, writtenLines]
  split
  · rfl
  · rw [joined_append]
    cases hs : savedEntries s with
    | nil => exact absurd hs h
    | cons e es =>
      rw [List.map_cons, headerLines]
      by_cases hx : 0 < x.length <;> cases headerFull x s.name.chars <;> simp [hx, joined]

theorem write_section {s : ConfigSection} (h : Sized buf x) (hs : savedEntries s ≠ []) :
    Sized (writeSection buf s) (sectionEnd x s) ∧
      (writeSection buf s).text = buf.text ++ joined newline (writtenLines x s) := by
  obtain ⟨hhead, htext⟩ := write_header s.name.chars h
  obtain ⟨hall, hrest⟩ := write_entries (savedEntries s) hhead
  rw [writeSection, if_neg hs]
  refine ⟨hall, ?_⟩
  rw [hrest, htext, List.append_assoc, written_text hs]

theorem write_sections (ss : List ConfigSection) (h : Sized buf x) :
    (ss.foldl writeSection buf).text =
      buf.text ++ joined newline (textLines x (ss.filter (fun s => savedEntries s ≠ []))) := by
  induction ss generalizing buf x with
  | nil => simp [textLines, joined]
  | cons s ss ih =>
    by_cases hs : savedEntries s = []
    · have hskip : writeSection buf s = buf := by rw [writeSection, if_pos hs]
      rw [List.foldl_cons, hskip, ih h, List.filter_cons, if_neg (by simp [hs])]
    · obtain ⟨hone, htext⟩ := write_section h hs
      rw [List.foldl_cons, ih hone, htext, List.filter_cons, if_pos (by simp [hs]), textLines,
        joined_append, List.append_assoc]

/-- The text of a config is its lines. -/
theorem config_text_lines (cfg : Config) :
    configText cfg = joined newline (textLines startExtent (writtenSections cfg)) := by
  have h : Sized ⟨[], 4096⟩ startExtent := ⟨rfl, rfl⟩
  exact write_sections cfg.reverse h

end Lines

section Items

def Led (s : Bytes) : Prop := ∀ c ∈ s.head?, isSpace c = false

/-- A section name that a header can carry, cut or not; the empty one is the
global section's. -/
structure StoredName (s : Bytes) : Prop where
  led : Led s
  no_bracket : rbracket ∉ s
  no_newline : newline ∉ s

structure StoredKey (k : Bytes) : Prop where
  led : Led k
  no_equals : equals ∉ k
  no_newline : newline ∉ k
  start : KeyStart k

structure StoredValue (v : Bytes) : Prop where
  no_marker : NoMarker v
  no_newline : newline ∉ v

structure StoredEntry (e : ConfigEntry) : Prop where
  key : StoredKey e.key.chars
  value : StoredValue e.value.chars

theorem led_trim {s : Bytes} (h : Led s) : ∃ b, s = rssTrim s ++ b ∧ AllSpace b := by
  obtain ⟨a, b, hs, ha, hb⟩ := trim_parts s
  cases a with
  | nil => exact ⟨b, hs, hb⟩
  | cons c a =>
    have hc := h c (by rw [hs]; simp)
    rw [ha c (by simp)] at hc
    cases hc

def entryItem (e : ConfigEntry) : Item Bytes Bytes Bytes :=
  if rssTrim e.key.chars = [] then .inert
  else .binding (foldCase (rssTrim e.key.chars)) (rssTrim e.value.chars)

theorem entry_parse {e : ConfigEntry} (h : StoredEntry e) :
    itemOf (parseLine (CString.at (entryLine e)).chars) = entryItem e ∧
      ∀ name ∈ lineNames (parseLine (CString.at (entryLine e)).chars), name.length ≤ 63 := by
  obtain ⟨b, hkey, hb⟩ := led_trim h.key.led
  have hsub : ∀ c ∈ rssTrim e.key.chars, c ∈ e.key.chars := fun c hc => trim_mem hc
  have hstart : KeyStart (rssTrim e.key.chars) := by
    intro c hc
    refine h.key.start c ?_
    rw [hkey]
    cases hk : rssTrim e.key.chars with
    | nil => rw [hk] at hc; cases hc
    | cons d k => simpa [hk] using hc
  have hshape : entryLine e =
      keyShape [] (rssTrim e.key.chars) (b++[space]) (space::e.value.chars) := by
    conv_lhs => rw [entryLine, hkey]
    simp [keyShape]
  have hpad : AllSpace (b++[space]) := fun c hc =>
    (List.mem_append.mp hc).elim (hb c) (space_pad c)
  have hval : loadedValue (space::e.value.chars) = rssTrim e.value.chars := by
    have htrim : rssTrim (space::e.value.chars) = rssTrim e.value.chars :=
      trim_lead space_pad e.value.chars
    rw [loadedValue, htrim, strip_plain (no_marker_trim h.value.no_marker)]
    exact trimmed_trim _
  have hparse := parse_key_line (space::e.value.chars) no_lead hpad (trimmed_trim e.key.chars)
    (fun hm => h.key.no_equals (hsub _ hm)) hstart
  have hfit : e.key.chars.length ≤ 63 := e.key.fits
  have hlen := trim_length e.key.chars
  rw [at_nul_free (entry_line_nul_free e), hshape, hparse, entryItem]
  split
  · exact ⟨rfl, by simp [lineNames]⟩
  · refine ⟨?_, fun name hn => ?_⟩
    · have hfits : (rssTrim e.value.chars).length ≤ maxVal-1 :=
        (trim_length _).trans e.value.fits
      rw [hval, itemOf, List.take_of_length_le hfits]
    · rw [List.mem_singleton.mp hn]
      omega

theorem header_parse {name : Field maxSecn} (h : StoredName name.chars) (tail : Bytes) :
    parseLine (CString.at (headerLine name.chars ++ 0::tail)).chars =
        .header (rssTrim name.chars) ∧
      parseLine (CString.at (headerLine name.chars)).chars = .header (rssTrim name.chars) := by
  have hz : 0 ∉ headerLine name.chars := by
    simp only [headerLine, List.cons_append, List.mem_cons, List.mem_append, List.not_mem_nil,
      or_false]
    rintro (h0 | h0 | h0)
    · exact absurd h0 (by decide)
    · exact name.nul_free h0
    · exact absurd h0 (by decide)
  have hparse := parse_header_line [] no_lead h.no_bracket
  have hshape : headerShape [] name.chars [] = headerLine name.chars := by
    simp [headerShape, headerLine]
  rw [hshape] at hparse
  rw [at_cut hz, at_nul_free hz]
  exact ⟨hparse, hparse⟩

structure Reads (line : Bytes) (item : Item Bytes Bytes Bytes) : Prop where
  no_newline : newline ∉ line
  short : line.length+1 < maxLine-1
  item : itemOf (parseLine (CString.at line).chars) = item
  names : ∀ name ∈ lineNames (parseLine (CString.at line).chars), name.length ≤ 63

theorem reads_file {lines : List Bytes} {items : List (Item Bytes Bytes Bytes)}
    (h : List.Forall₂ Reads lines items) :
    FileFits (joined newline lines) ∧ (fileLines (joined newline lines)).map itemOf = items := by
  have hall : ∀ l ∈ lines, ∃ y, Reads l y := by
    induction h with
    | nil => simp
    | @cons l y _ _ hy _ ih => exact List.forall_mem_cons.mpr ⟨⟨y, hy⟩, ih⟩
  have hlines : fileLines (joined newline lines) =
      lines.map (fun l => parseLine (CString.at l).chars) :=
    file_lines_joined fun l hl => by
      obtain ⟨y, hy⟩ := hall l hl
      exact ⟨hy.no_newline, hy.short⟩
  rw [FileFits, hlines]
  constructor
  · intro line hl
    obtain ⟨l, hmem, rfl⟩ := List.mem_map.mp hl
    obtain ⟨y, hy⟩ := hall l hmem
    exact hy.names
  · rw [List.map_map]
    clear hall hlines
    induction h with
    | nil => rfl
    | cons hy _ ih => rw [List.map_cons, ih, Function.comp_apply, hy.item]

theorem entry_reads {e : ConfigEntry} (h : StoredEntry e) : Reads (entryLine e) (entryItem e) where
  no_newline hm := by
    simp only [entryLine, keyShape, List.nil_append, List.mem_append, List.mem_cons,
      List.not_mem_nil, or_false] at hm
    rcases hm with (hm | hm) | hm | hm | hm
    · exact h.key.no_newline hm
    · exact absurd hm (by decide)
    · exact absurd hm (by decide)
    · exact absurd hm (by decide)
    · exact h.value.no_newline hm
  short := by
    have hM : maxLine = 512 := rfl
    have hk : e.key.chars.length ≤ 63 := e.key.fits
    have hv : e.value.chars.length ≤ 255 := e.value.fits
    simp only [entryLine, keyShape, List.length_append, List.length_cons, List.length_nil]
    omega
  item := (entry_parse h).1
  names := (entry_parse h).2

theorem entries_read {es : List ConfigEntry} (h : ∀ e ∈ es, StoredEntry e) :
    List.Forall₂ Reads (es.map entryLine) (es.map entryItem) := by
  induction es with
  | nil => exact .nil
  | cons e es ih => exact .cons (entry_reads (h e (by simp))) (ih fun x hx => h x (by simp [hx]))

theorem header_no_newline {name : Field maxSecn} (h : StoredName name.chars) :
    newline ∉ headerLine name.chars := by
  simp only [headerLine, List.cons_append, List.mem_cons, List.mem_append, List.not_mem_nil,
    or_false]
  rintro (hm | hm | hm)
  · exact absurd hm (by decide)
  · exact h.no_newline hm
  · exact absurd hm (by decide)

theorem header_reads {name : Field maxSecn} (h : StoredName name.chars) :
    Reads (headerLine name.chars) (.header (foldCase (rssTrim name.chars))) ∧
      ∀ e, StoredEntry e → Reads (headerLine name.chars ++ 0::entryLine e)
        (.header (foldCase (rssTrim name.chars))) := by
  have hM : maxLine = 512 := rfl
  have hn : name.chars.length ≤ 63 := name.fits
  have ht := trim_length name.chars
  have hlen := header_line_length name.chars
  have hparse := fun tail => header_parse h tail
  constructor
  · refine ⟨header_no_newline h, by omega, by rw [(hparse []).2]; rfl, ?_⟩
    rw [(hparse []).2]
    intro t ht'
    rw [List.mem_singleton.mp ht']
    omega
  · intro e he
    have hentry := (entry_reads he)
    have hk : e.key.chars.length ≤ 63 := e.key.fits
    have hv : e.value.chars.length ≤ 255 := e.value.fits
    have hel : (entryLine e).length = e.key.chars.length+e.value.chars.length+3 := by
      simp [entryLine, keyShape]
      omega
    refine ⟨fun hm => ?_, ?_, by rw [(hparse (entryLine e)).1]; rfl, ?_⟩
    · rcases List.mem_append.mp hm with hm | hm
      · exact header_no_newline h hm
      · rcases List.mem_cons.mp hm with hm | hm
        · exact absurd hm (by decide)
        · exact hentry.no_newline hm
    · rw [List.length_append, List.length_cons]
      omega
    · rw [(hparse (entryLine e)).1]
      intro t ht'
      rw [List.mem_singleton.mp ht']
      omega

theorem blank_reads : Reads [] .inert := ⟨by simp, by decide, rfl, by decide⟩

/-- The entries of a section that survive behind its header. -/
def keptEntries (x : Extent) (s : ConfigSection) : List ConfigEntry :=
  if headerFull x s.name.chars then (savedEntries s).tail else savedEntries s

def sectionItems (x : Extent) (s : ConfigSection) : List (Item Bytes Bytes Bytes) :=
  if s.name.chars = [] then (savedEntries s).map entryItem
  else (if 0 < x.length then [.inert] else []) ++
    .header (foldCase (rssTrim s.name.chars))::(keptEntries x s).map entryItem

def textItems : Extent → List ConfigSection → List (Item Bytes Bytes Bytes)
  | _, [] => []
  | x, s::rest => sectionItems x s ++ textItems (sectionEnd x s) rest

/-- A section whose live content can stand on lines. -/
structure StoredSection (s : ConfigSection) : Prop where
  name : StoredName s.name.chars
  entries : ∀ e ∈ savedEntries s, StoredEntry e

theorem section_reads (x : Extent) {s : ConfigSection} (h : StoredSection s) :
    List.Forall₂ Reads (writtenLines x s) (sectionItems x s) := by
  rw [writtenLines, sectionItems]
  split
  · exact entries_read h.entries
  · refine List.rel_append ?_ ?_
    · split
      · exact .cons blank_reads .nil
      · exact .nil
    · obtain ⟨hhead, hglued⟩ := header_reads h.name
      have hentries := h.entries
      rw [keptEntries]
      cases hs : savedEntries s with
      | nil => cases headerFull x s.name.chars <;> exact .cons hhead .nil
      | cons e es =>
        rw [hs] at hentries
        have hrest := entries_read fun y hy => hentries y (List.mem_cons_of_mem e hy)
        cases headerFull x s.name.chars with
        | true => exact .cons (hglued e (hentries e (by simp))) hrest
        | false => exact .cons hhead (.cons (entry_reads (hentries e (by simp))) hrest)

theorem text_reads (x : Extent) {ss : List ConfigSection} (h : ∀ s ∈ ss, StoredSection s) :
    List.Forall₂ Reads (textLines x ss) (textItems x ss) := by
  induction ss generalizing x with
  | nil => exact .nil
  | cons s ss ih =>
    exact List.rel_append (section_reads x (h s (by simp)))
      (ih (sectionEnd x s) fun t ht => h t (by simp [ht]))

/-- Loading the text of a config reads what its sections say. -/
theorem config_text_items {cfg : Config} (h : ∀ s ∈ writtenSections cfg, StoredSection s) :
    FileFits (configText cfg) ∧
      (fileLines (configText cfg)).map itemOf = textItems startExtent (writtenSections cfg) := by
  rw [config_text_lines]
  exact reads_file (text_reads startExtent h)

end Items

end RaptorCommon.ConfigFullWrite
