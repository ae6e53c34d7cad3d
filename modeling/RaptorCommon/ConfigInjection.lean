import RaptorCommon.ConfigFullWrite
import RaptorCommon.ConfigSaving

/-!
# What a value can do to the file around it

A value is pasted into a line of the file as it is. A newline in it ends that
line, and what follows stands in the file on lines of its own. The other
settings of every file are safe exactly when those lines say nothing and the
save edits the file it read.
-/

set_option autoImplicit false

namespace RaptorCommon.ConfigInjection
open RaptorCommon.CText RaptorCommon.KeyedStore RaptorCommon.ConfigStore
open RaptorCommon.ConfigLoader RaptorCommon.ConfigSave RaptorCommon.ConfigEditor
open RaptorCommon.ConfigSettings RaptorCommon.ConfigGrammar RaptorCommon.ConfigInvariant
open RaptorCommon.ConfigMap RaptorCommon.ConfigLineView RaptorCommon.ConfigPending
open RaptorCommon.ConfigSaving RaptorCommon.ConfigEditedText RaptorCommon.IniSemantics
open RaptorCommon.LineText RaptorCommon.ConfigEmission RaptorCommon.ConfigWriter
open RaptorCommon.ConfigFullWrite

/-- Names a caller may pass; both may be empty. -/
structure WellNamed (sec key : CString) : Prop where
  sec_trimmed : Trimmed sec.chars
  sec_line : newline ∉ sec.chars
  sec_bracket : rbracket ∉ sec.chars
  sec_fits : Fits sec
  key_text : KeyText key.chars
  key_fits : Fits key

/-- Whatever the file, setting the value and saving, with these answers of the
system, changes the answer of no other place. -/
def Undisturbed (value : CString) (env : SaveEnv) : Prop :=
  ∀ (text : Bytes) (sec key : CString), 0 ∉ text → FileFits text → WellNamed sec key →
    let saved := rssConfigSave env (rssConfigSetStr sec key value (rssConfigLoad text)) (some text)
    saved.ret = 0 → ∃ text', saved.file = some text' ∧
      ∀ s k, place s k ≠ place sec key → fileAnswer text' s k = fileAnswer text s k

/-- A change is edited into the file, on lines that say nothing else, and a
file without a change is not written over. -/
def Confined (value : CString) (env : SaveEnv) : Prop :=
  (env.refsAlloc = true → env.readOk = true ∧ Contained (value.chars.take (maxVal-1))) ∧
    (env.accessOk = true ∨ env.readOk = true)

section Contained

theorem set_pending {cfg : Config} {sec key value : CString} (hs : Sound cfg) (hf : Holds Fresh cfg)
    (hn : WellNamed sec key) (hne : sec.chars ≠ [])
    (hv : Contained (value.chars.take (maxVal-1))) :
    Holds (Pending Enterable) (rssConfigSetStr sec key value cfg) := by
  refine kept_set_str (pending_kept Enterable) hs.toKeyed hn.sec_fits hn.key_fits ?_
    (fresh_pending hf)
  have hsec : SectionName sec.chars := ⟨hne, hn.sec_trimmed, hn.sec_bracket, hn.sec_line⟩
  exact ⟨section_name_fold.mpr hsec, key_text_fold.mpr hn.key_text, hv⟩

theorem refused_set {sec key value : CString} (h : sec.chars = []) (cfg : Config) :
    rssConfigSetStr sec key value cfg = cfg := by
  rw [rssConfigSetStr, if_pos h]

theorem set_settled {text text' : Bytes} {sec key value : CString} (hz : 0 ∉ text)
    (hf : FileFits text) (hn : WellNamed sec key)
    (hv : sec.chars ≠ [] → Contained (value.chars.take (maxVal-1)))
    (h : EditedOrKept (rssConfigSetStr sec key value (rssConfigLoad text)) text text') {s k : CString}
    (hq : place s k ≠ place sec key) : fileAnswer text' s k = fileAnswer text s k := by
  have hs := load_sound hf
  have hclean := fresh_owes (load_unflagged hf) (load_fresh hf)
  by_cases hne : sec.chars = []
  · rw [refused_set hne] at h
    have hsettled := saved_settled hs (fresh_pending (load_fresh hf)) (fun q v h => h) hz hf h
    rw [file_answer hsettled.fits, file_answer hf]
    exact hsettled.kept _ (hclean _)
  · have hsettled := saved_settled (sound_set_str hs hn.sec_fits hn.key_fits value)
      (set_pending hs (load_fresh hf) hn hne (hv hne)) (fun q v h => h) hz hf h
    rw [file_answer hsettled.fits, file_answer hf]
    refine hsettled.kept _ ?_
    rw [owed_set value hs (load_unflagged hf) hn.sec_fits hn.key_fits hne, if_neg hq]
    exact hclean _

theorem loaded_clean {text : Bytes} (hf : FileFits text) :
    collectDirty (rssConfigLoad text) = [] :=
  nothing_owed (load_sound hf).toKeyed (fresh_owes (load_unflagged hf) (load_fresh hf))

theorem set_dirty {text : Bytes} {sec key value : CString} (hf : FileFits text)
    (hn : WellNamed sec key) (hne : sec.chars ≠ []) :
    collectDirty (rssConfigSetStr sec key value (rssConfigLoad text)) ≠ [] := by
  intro h0
  have hs := sound_set_str (load_sound hf) hn.sec_fits hn.key_fits value
  have ho := owed_set value (load_sound hf) (load_unflagged hf) hn.sec_fits hn.key_fits hne
    (place sec key)
  rw [if_pos rfl, nothing_dirty hs.toKeyed h0] at ho
  cases ho

theorem confined_undisturbed {value : CString} {env : SaveEnv}
    (h : env.buildOk = true → env.writeOk = true → Confined value env) : Undisturbed value env := by
  intro text sec key hz hf hn saved hret
  have hend := save_end env (rssConfigSetStr sec key value (rssConfigLoad text)) text
  change SaveEnd _ _ _ saved at hend
  generalize saved = r at hend hret ⊢
  cases hend with
  | failed => cases hret
  | settled _ hedits hfile _ =>
    refine ⟨_, rfl, fun s k hq => set_settled hz hf hn (fun hne => ?_) hfile hq⟩
    obtain ⟨hrefs, -, hbuild, hwrite⟩ := hedits (set_dirty hf hn hne)
    exact ((h hbuild hwrite).1 hrefs).2
  | rewritten hw =>
    obtain ⟨hread, hidle, hrefs, hbuild, hwrite⟩ := hw
    refine ⟨_, rfl, fun s k _ => ?_⟩
    rcases hbuild with hnil | hbuild
    · -- nothing was loaded and nothing is written
      have hne : sec.chars = [] := by
        by_contra hne
        exact set_dirty hf hn hne (by rw [hnil]; rfl)
      rw [refused_set hne] at hnil ⊢
      rw [fileAnswer, fileAnswer, hnil]
      rfl
    · exfalso
      obtain ⟨hset, hkept⟩ := h hbuild hwrite
      rw [hread] at hset hkept
      by_cases hne : sec.chars = []
      · rw [refused_set hne, loaded_clean hf] at hidle
        rw [hidle rfl] at hkept
        simp at hkept
      · cases (hset (hrefs (set_dirty hf hn hne))).1

end Contained

section Answered

def Answered (sec key : Bytes) (cfg : Config) : Prop :=
  ∃ s ∈ cfg, sectionKey s = sec ∧
    ∃ e ∈ s.entries, entryKey e = key ∧ e.defaulted = false ∧ e.removed = false

theorem answered_lookup {sec key : CString} {cfg : Config}
    (h : Answered (foldCase sec.chars) (foldCase key.chars) cfg) :
    (lookupValue sec key cfg).isSome := by
  obtain ⟨s, hs, hsec, e, he, hkey, hd, hr⟩ := h
  rw [lookupValue, List.findSome?_isSome_iff]
  have hs' : sameName s.name.chars sec.chars = true := decide_eq_true hsec
  have he' : sameName e.key.chars key.chars = true := decide_eq_true hkey
  refine ⟨s, hs, ?_⟩
  rw [if_pos hs', liveValue, List.findSome?_isSome_iff]
  refine ⟨e, he, ?_⟩
  rw [if_pos ⟨he', hd, hr⟩]
  rfl

variable {sec key : Bytes} {st : LoadState}

theorem answered_kept (line : Line) (h : Answered sec key st.cfg) :
    Answered sec key (loadParsed st line).cfg := by
  cases line with
  | ignored => exact h
  | header name => exact h
  | binding k v =>
    refine upsert_keeps (fun s hs => ⟨hs.1, upsert_keeps (fun e he => ?_) hs.2⟩) h
    exact ⟨he.1, rfl, rfl⟩

theorem answered_load (lines : List Line) (h : Answered sec key st.cfg) :
    Answered sec key (lines.foldl loadParsed st).cfg := by
  induction lines generalizing st with
  | nil => exact h
  | cons line lines ih => exact ih (answered_kept line h)

theorem answered_binding (k v : Bytes) :
    Answered (foldCase st.current.chars) (foldCase (rssStrlcpy maxKey (CString.at k)).chars)
      (loadParsed st (.binding k v)).cfg := by
  have hentry : ∀ es : List ConfigEntry, ∃ e ∈ upsert entryKey (foldCase (CString.at k).chars)
      (overwriteEntry (CString.at v) false false) (newEntry (CString.at k) (CString.at v) false false)
      es, entryKey e = foldCase (rssStrlcpy maxKey (CString.at k)).chars ∧
        e.defaulted = false ∧ e.removed = false := by
    intro es
    refine upsert_has (fun e he => ⟨?_, rfl, rfl⟩) ⟨rfl, rfl, rfl⟩
    have hlen := congrArg List.length he
    rw [entryKey, foldCase_length, foldCase_length] at hlen
    have hfit : e.key.chars.length ≤ maxKey-1 := e.key.fits
    rw [strlcpy_of_fits _ (by omega)]
    exact he
  have hname : foldCase (rssStrlcpy maxSecn st.current.str).chars = foldCase st.current.chars := by
    rw [strlcpy_of_fits _ st.current.fits]
    rfl
  exact upsert_has (fun s hs => ⟨hs, hentry s.entries⟩) ⟨hname, hentry []⟩

theorem current_kept {lines : List Line} (h : ∀ line ∈ lines, ∀ name, line ≠ .header name) :
    (lines.foldl loadParsed st).current = st.current := by
  induction lines generalizing st with
  | nil => rfl
  | cons line lines ih =>
    rw [List.foldl_cons, ih fun l hl => h l (by simp [hl])]
    cases line with
    | ignored => rfl
    | header name => exact absurd rfl (h _ (by simp) name)
    | binding k v => rfl

theorem current_set {lines : List Line} (st' : LoadState)
    (h : ∃ line ∈ lines, ∃ name, line = .header name) :
    (lines.foldl loadParsed st).current = (lines.foldl loadParsed st').current := by
  induction lines generalizing st st' with
  | nil => simp at h
  | cons line lines ih =>
    rw [List.foldl_cons, List.foldl_cons]
    by_cases hrest : ∃ line ∈ lines, ∃ name, line = .header name
    · exact ih _ hrest
    · have hno : ∀ l ∈ lines, ∀ name, l ≠ .header name := fun l hl name hn =>
        hrest ⟨l, hl, name, hn⟩
      obtain ⟨l, hl, name, rfl⟩ := h
      rcases List.mem_cons.mp hl with rfl | hl
      · rw [current_kept hno, current_kept hno]
        rfl
      · exact absurd rfl (hno _ hl name)

theorem answered_among (before after : List Line) (k v : Bytes) :
    Answered (foldCase (before.foldl loadParsed loadStart).current.chars)
      (foldCase (rssStrlcpy maxKey (CString.at k)).chars)
      ((before ++ .binding k v::after).foldl loadParsed loadStart).cfg := by
  rw [List.foldl_append, List.foldl_cons]
  exact answered_load after (answered_binding k v)

theorem answered_file {text : Bytes} (sec key : CString)
    (h : Answered (foldCase sec.chars) (foldCase key.chars)
      ((fileLines text).foldl loadParsed loadStart).cfg) : fileAnswer text sec key ≠ none := by
  rw [← load_file_lines] at h
  have hl := answered_lookup h
  rw [Option.isSome_iff_exists] at hl
  obtain ⟨v, hv⟩ := hl
  rw [fileAnswer, rssConfigGetStr, hv]
  simp

end Answered

section Sample

def sampleSec (alt : Bool) : CString := if alt then literal "t" else literal "s"

def sampleKey (alt : Bool) : CString := if alt then literal "m" else literal "k"

/-- A section with a commented key, and another key behind it or none. -/
def sampleText (altSec altKey more : Bool) : Bytes :=
  headerLine (sampleSec altSec).chars ++ newline::(sampleKey altKey).chars ++
    ascii " = 1 # ]=\n" ++ if more then ascii "o = 7\n" else []

variable (altSec altKey more : Bool) (value : CString)

def sampleEntry : ConfigEntry := newEntry (sampleKey altKey) value true false

theorem sample_dirty : collectDirty (rssConfigSetStr (sampleSec altSec) (sampleKey altKey) value
      (rssConfigLoad (sampleText altSec altKey more))) =
    [newRef (rssStrlcpy maxSecn (sampleSec altSec)) (some (sampleEntry altKey value))] := by
  cases altSec <;> cases altKey <;> cases more <;> rfl

def sampleRef : DirtyRef :=
  { newRef (rssStrlcpy maxSecn (sampleSec altSec)) (some (sampleEntry altKey value)) with
    replaceLine := some 1
    repKeyEnd := 1
    repComOff := some 5
    appendLine := some (if more then 2 else 1)
    secInFile := true }

def sampleComment : Bytes := ascii " # ]="

def sampleMarked : List (Bytes × Bool) :=
  (headerLine (sampleSec altSec).chars, false)::
    ((sampleKey altKey).chars ++ ascii " = 1 # ]=", false)::
    if more then [(ascii "o = 7", false)] else []

theorem sample_bound :
    let raws := pieces newline (sampleText altSec altKey more)
    let bound := bindLines 0 (rssStrlcpy maxSecn (CString.at [])) false
      [newRef (rssStrlcpy maxSecn (sampleSec altSec)) (some (sampleEntry altKey value))] raws
    bound.1.map settleRef = [sampleRef altSec altKey more value] ∧
      dropSeparators (raws.zip bound.2) = sampleMarked altSec altKey more := by
  cases altSec <;> cases altKey <;> cases more <;> exact ⟨rfl, rfl⟩

theorem sample_top : emitDue topDue [sampleRef altSec altKey more value] =
    ([], [sampleRef altSec altKey more value]) := by
  cases altSec <;> rfl

theorem sample_body :
    bodyLines [sampleRef altSec altKey more value] 0 (sampleMarked altSec altKey more) =
      headerLine (sampleSec altSec).chars::
        replacementLine ((sampleKey altKey).chars ++ ascii " = 1 # ]=")
          (sampleRef altSec altKey more value) (sampleEntry altKey value)::
        if more then [ascii "o = 7"] else [] := by
  cases more <;> rfl

theorem sample_edited :
    editedText [newRef (rssStrlcpy maxSecn (sampleSec altSec)) (some (sampleEntry altKey value))]
        (sampleText altSec altKey more) =
      joined newline (headerLine (sampleSec altSec).chars::
        replacementLine ((sampleKey altKey).chars ++ ascii " = 1 # ]=")
          (sampleRef altSec altKey more value) (sampleEntry altKey value)::
        if more then [ascii "o = 7"] else []) := by
  obtain ⟨hrefs, hmarked⟩ := sample_bound altSec altKey more value
  obtain ⟨hbody, hagree⟩ := emit_lines_text
    (agrees_refl 0 [sampleRef altSec altKey more value]) (sampleMarked altSec altKey more)
  have hnew : ∀ out, newSectionLines [] out
      (emitLines 0 [sampleRef altSec altKey more value] (sampleMarked altSec altKey more)).2 = [] := by
    intro out
    generalize (emitLines 0 [sampleRef altSec altKey more value]
      (sampleMarked altSec altKey more)).2 = after at hagree ⊢
    cases hagree with
    | cons hl hrest =>
      cases hrest
      obtain ⟨b, rfl⟩ := hl.same
      simp [newSectionLines, opensSection, sampleRef]
  rw [editedText]
  rw [hrefs, hmarked, sample_top, emit_new_sections_text]
  rw [hnew, hbody, sample_body]
  simp [joined]

theorem sample_line :
    replacementLine ((sampleKey altKey).chars ++ ascii " = 1 # ]=")
        (sampleRef altSec altKey more value) (sampleEntry altKey value) =
      (sampleKey altKey).chars ++ [space, equals, space] ++
        (value.chars.take (maxVal-1) ++ sampleComment) := by
  have hM : maxLine = 512 := rfl
  have hv : (value.chars.take (maxVal-1)).length ≤ 255 := List.length_take_le ..
  have hlong : ¬1+3+(value.chars.take (maxVal-1)).length+5 ≥ maxLine := by omega
  have hlong' : ¬1+3+(value.chars.take (maxVal-1)).length ≥ maxLine := by omega
  have hline : replacementLine ((sampleKey altKey).chars ++ ascii " = 1 # ]=")
        (sampleRef altSec altKey more value) (sampleEntry altKey value) =
      (if (if 1+3+(value.chars.take (maxVal-1)).length ≥ maxLine then 0 else 1) > 0 then
        ((sampleKey altKey).chars ++ ascii " = 1 # ]=").take
          (if 1+3+(value.chars.take (maxVal-1)).length ≥ maxLine then 0 else 1)
        else (sampleEntry altKey value).key.chars) ++
      space::equals::space::value.chars.take (maxVal-1) ++
      (if 1+3+(value.chars.take (maxVal-1)).length+5 ≥ maxLine then [] else sampleComment) := by
    cases altKey <;> rfl
  have hkey : ((sampleKey altKey).chars ++ ascii " = 1 # ]=").take 1 = (sampleKey altKey).chars := by
    cases altKey <;> rfl
  rw [hline, if_neg hlong, if_neg hlong', if_pos (by decide), hkey]
  simp

def sampleSaved : Bytes := editedText (collectDirty (rssConfigSetStr (sampleSec altSec)
  (sampleKey altKey) value (rssConfigLoad (sampleText altSec altKey more))))
  (sampleText altSec altKey more)

theorem sample_saved : sampleSaved altSec altKey more value =
    joined newline (headerLine (sampleSec altSec).chars::
      ((sampleKey altKey).chars ++ [space, equals, space] ++
        (value.chars.take (maxVal-1) ++ sampleComment))::
      if more then [ascii "o = 7"] else []) := by
  rw [sampleSaved, sample_dirty, sample_edited, sample_line]

theorem sample_nul_free : 0 ∉ sampleSaved altSec altKey more value := by
  rw [sample_saved]
  intro h0
  have hv : 0 ∉ value.chars.take (maxVal-1) := fun h => value.nul_free (List.mem_of_mem_take h)
  rcases joined_subset newline _ 0 h0 with h | ⟨line, hl, h⟩
  · exact absurd h (by decide)
  · rcases List.mem_cons.mp hl with rfl | hl
    · cases altSec <;> exact absurd h (by decide)
    · rcases List.mem_cons.mp hl with rfl | hl
      · rcases List.mem_append.mp h with h | h
        · cases altKey <;> exact absurd h (by decide)
        · rcases List.mem_append.mp h with h | h
          · exact hv h
          · exact absurd h (by decide)
      · cases more with
        | true =>
          rw [if_pos rfl, List.mem_singleton] at hl
          subst hl
          exact absurd h (by decide)
        | false => simp at hl

theorem sample_lines {a b : Bytes} {rest : List Bytes}
    (hp : parts newline (value.chars.take (maxVal-1)) = a::b::rest) :
    ∃ v, fileLines (sampleSaved altSec altKey more value) =
      .header (sampleSec altSec).chars::.binding (sampleKey altKey).chars v::
        (endWith (b::rest) sampleComment).map parseLine ++
        if more then [.binding (ascii "o") (ascii "7")] else [] := by
  have hM : maxLine = 512 := rfl
  have hv : (value.chars.take (maxVal-1)).length ≤ 255 := List.length_take_le ..
  have hc : newline ∉ sampleComment := by decide
  have hend : parts newline (value.chars.take (maxVal-1) ++ sampleComment) =
      a::endWith (b::rest) sampleComment := by
    rw [parts_append _ hc, hp]
    rfl
  have hshort : ∀ line ∈ a::endWith (b::rest) sampleComment, line.length ≤ 260 := by
    intro line hl
    rw [← hend] at hl
    refine (parts_length newline _ line hl).trans ?_
    rw [List.length_append]
    have hlen : sampleComment.length = 5 := by decide
    omega
  have hfront : newline ∉ (sampleKey altKey).chars ++ [space, equals, space] := by
    cases altKey <;> decide
  have hhead : newline ∉ headerLine (sampleSec altSec).chars := by cases altSec <;> decide
  have hheader : pieceLine (headerLine (sampleSec altSec).chars) =
      .header (sampleSec altSec).chars := by cases altSec <;> decide
  have hmore : ((if more then [ascii "o = 7"] else []).flatMap (parts newline)).map pieceLine =
      if more then [.binding (ascii "o") (ascii "7")] else [] := by cases more <;> decide
  have htail : (endWith (b::rest) sampleComment).map pieceLine =
      (endWith (b::rest) sampleComment).map parseLine := by
    refine List.map_congr_left fun line hl => ?_
    have := hshort line (by simp [hl])
    rw [pieceLine, if_pos (by omega)]
  have hkey : pieceLine ((sampleKey altKey).chars ++ [space, equals, space] ++ a) =
      .binding (sampleKey altKey).chars (loadedValue (space::a)) := by
    have hshape : (sampleKey altKey).chars ++ [space, equals, space] ++ a =
        keyShape [] (sampleKey altKey).chars [space] (space::a) := by simp [keyShape]
    have hk : KeyText (sampleKey altKey).chars ∧ (sampleKey altKey).chars.length = 1 := by
      cases altKey <;> exact ⟨⟨by decide, by decide, by decide, by decide⟩, by decide⟩
    have ha := hshort a (by simp)
    rw [pieceLine, if_pos (by simp [hk.2]; omega), hshape, parse_key_line _ no_lead space_pad
      hk.1.trimmed hk.1.no_equals hk.1.start, if_neg]
    intro h0
    rw [h0] at hk
    cases hk.2
  refine ⟨loadedValue (space::a), ?_⟩
  rw [file_lines_pieces (sample_nul_free altSec altKey more value), sample_saved, pieces_joined, List.flatMap_cons,
    List.flatMap_cons, parts_single hhead, parts_front hfront hend, List.map_append, List.map_append,
    hmore, List.map_cons, List.map_cons, hheader, hkey, htail]
  rfl

end Sample

section Escaping

theorem loud_tail {line : Bytes} (h : ¬Silent line) :
    parseLine (line++sampleComment) ≠ .ignored := by
  obtain ⟨a, b, hline, ha, -⟩ := trim_parts line
  cases hs : rssTrim line with
  | nil => exact absurd (by simp [Silent, hs]) h
  | cons c s =>
    have hc := trim_head hs
    have hmark : c ≠ hashMark ∧ c ≠ semicolon ∧ c ≠ equals := by
      refine ⟨?_, ?_, ?_⟩
      all_goals
        rintro rfl
        exact h (by simp [Silent, hs])
    have htrim : rssTrim (line++sampleComment) = c::(s++b ++ sampleComment) := by
      have hsolid := trim_solid (s++b ++ ascii " # ]") [] hc (by decide : isSpace equals = false)
      have hl : line ++ sampleComment = a ++ (c::(s++b ++ ascii " # ]") ++ [equals]) := by
        rw [hline, hs]
        simp [sampleComment, ascii]
      rw [hl, trim_lead ha, hsolid]
      simp [sampleComment, ascii]
    rw [parseLine, htrim]
    simp only [hmark.1, hmark.2.1, or_self, if_false]
    by_cases hb : c = lbracket
    · rw [if_pos hb]
      cases hcut : cutAt rbracket (s++b ++ sampleComment) with
      | none =>
        refine absurd ?_ (cutAt_none.mp hcut)
        exact List.mem_append_right _ (by decide)
      | some r => simp
    · rw [if_neg hb]
      cases hcut : cutAt equals (c::(s++b ++ sampleComment)) with
      | none =>
        refine absurd ?_ (cutAt_none.mp hcut)
        exact List.mem_append_right (c::(s++b)) (by decide)
      | some r =>
        obtain ⟨key, rest⟩ := r
        obtain ⟨hkey, -⟩ := cutAt_some hcut
        have hne : rssTrim key ≠ [] := by
          cases key with
          | nil => exact absurd (List.cons.inj hkey).1 hmark.2.2
          | cons d key =>
            obtain ⟨rfl, -⟩ := List.cons.inj hkey
            rw [trim_visible key hc]
            simp
        simp [hne]

theorem harmless_quiet {lines : List Bytes}
    (h : ∀ line ∈ endWith lines sampleComment, parseLine line = .ignored) : Harmless lines := by
  induction lines with
  | nil => trivial
  | cons line lines ih =>
    cases lines with
    | nil =>
      by_contra hl
      exact loud_tail hl (h _ (by simp [endWith]))
    | cons next rest =>
      rw [endWith, List.forall_mem_cons] at h
      exact ⟨h.1, ih h.2⟩

variable {env : SaveEnv}

variable {altSec altKey more : Bool} {value : CString}

theorem sample_readable : 0 ∉ sampleText altSec altKey more ∧
    FileFits (sampleText altSec altKey more) ∧
    WellNamed (sampleSec altSec) (sampleKey altKey) := by
  refine ⟨?_, ?_, ?_⟩
  · cases altSec <;> cases altKey <;> cases more <;> decide
  · cases altSec <;> cases altKey <;> cases more <;> decide +kernel
  · cases altSec <;> cases altKey <;> exact ⟨by decide, by decide, by decide, by decide,
      ⟨by decide, by decide, by decide, by decide⟩, by decide⟩

theorem sample_silent {sec key : CString}
    (hq : (foldCase (sampleSec altSec).chars, foldCase (sampleKey altKey).chars) ≠ place sec key)
    (hm : more = true → foldCase (sampleSec altSec).chars ≠ foldCase sec.chars) :
    fileAnswer (sampleText altSec altKey more) sec key = none := by
  have hitems : (fileLines (sampleText altSec altKey more)).map itemOf =
      .header (foldCase (sampleSec altSec).chars)::
        .binding (foldCase (sampleKey altKey).chars) (ascii "1")::
        if more then [.binding (ascii "o") (ascii "7")] else [] := by
    cases altSec <;> cases altKey <;> cases more <;> rfl
  rw [file_answer sample_readable.2.1, loaded_map_values, hitems]
  cases more with
  | false => simp [valuesAt, hq]
  | true =>
    have hother : (foldCase (sampleSec altSec).chars, ascii "o") ≠ place sec key := fun h =>
      hm rfl (congrArg Prod.fst h)
    simp [valuesAt, hq, hother]

theorem undisturbed_sample (h : Undisturbed value env) (he : Edits env) {sec key : CString}
    (hq : (foldCase (sampleSec altSec).chars, foldCase (sampleKey altKey).chars) ≠ place sec key)
    (hm : more = true → foldCase (sampleSec altSec).chars ≠ foldCase sec.chars) :
    fileAnswer (sampleSaved altSec altKey more value) sec key = none := by
  obtain ⟨hz, hf, hn⟩ := @sample_readable altSec altKey more
  have hdirty : collectDirty (rssConfigSetStr (sampleSec altSec) (sampleKey altKey) value
      (rssConfigLoad (sampleText altSec altKey more))) ≠ [] := by
    rw [sample_dirty]
    exact List.cons_ne_nil _ _
  obtain ⟨text', hfile, hkept⟩ := h _ _ _ hz hf hn (by rw [save_edits he hdirty])
  rw [save_edits he hdirty] at hfile
  rw [← sample_silent hq hm, ← hkept sec key hq.symm, ← Option.some.inj hfile]
  rfl

theorem undisturbed_header (h : Undisturbed value env) (he : Edits env) {a b : Bytes} {rest : List Bytes}
    (hp : parts newline (value.chars.take (maxVal-1)) = a::b::rest) :
    ∀ line ∈ (endWith (b::rest) sampleComment).map parseLine, ∀ name, line ≠ .header name := by
  intro line hl name hline
  set tail := (endWith (b::rest) sampleComment).map parseLine with htail
  -- the section the sample's last line falls into, and another one to start with
  let cur := (tail.foldl loadParsed loadStart).current
  let alt := decide (foldCase cur.chars = ascii "s")
  have hne : foldCase (sampleSec alt).chars ≠ foldCase cur.chars := by
    by_cases hs : foldCase cur.chars = ascii "s"
    · simp only [alt, hs]
      decide
    · simp only [alt, hs]
      exact fun h0 => hs h0.symm
  obtain ⟨v, hlines⟩ := sample_lines alt false true value hp
  have hans := answered_among (.header (sampleSec alt).chars::.binding (sampleKey false).chars v::tail)
    [] (ascii "o") (ascii "7")
  rw [show (Line.header (sampleSec alt).chars::.binding (sampleKey false).chars v::tail ++
    [.binding (ascii "o") (ascii "7")]) = fileLines (sampleSaved alt false true value) from
      hlines.symm] at hans
  have hcur : ((Line.header (sampleSec alt).chars::.binding (sampleKey false).chars v::tail).foldl
      loadParsed loadStart).current = cur := current_set _ ⟨line, hl, name, hline⟩
  rw [hcur] at hans
  refine answered_file cur.str (rssStrlcpy maxKey (CString.at (ascii "o"))).str hans ?_
  exact undisturbed_sample h he (fun hq => hne (congrArg Prod.fst hq)) (fun _ => hne)

theorem undisturbed_binding (h : Undisturbed value env) (he : Edits env) {a b : Bytes} {rest : List Bytes}
    (hp : parts newline (value.chars.take (maxVal-1)) = a::b::rest) :
    ∀ line ∈ (endWith (b::rest) sampleComment).map parseLine, ∀ k v, line ≠ .binding k v := by
  intro line hl k v hline
  have hno := undisturbed_header h he hp
  set tail := (endWith (b::rest) sampleComment).map parseLine with htail
  subst hline
  obtain ⟨before, after, hsplit⟩ := List.append_of_mem hl
  -- another key than the one the line binds
  let key := rssStrlcpy maxKey (CString.at k)
  let alt := decide (foldCase key.chars = ascii "k")
  have hne : foldCase (sampleKey alt).chars ≠ foldCase key.chars := by
    by_cases hs : foldCase key.chars = ascii "k"
    · simp only [alt, hs]
      decide
    · simp only [alt, hs]
      exact fun h0 => hs h0.symm
  obtain ⟨v0, hlines⟩ := sample_lines false alt false value hp
  have hans := answered_among
    (.header (sampleSec false).chars::.binding (sampleKey alt).chars v0::before) after k v
  have hfile : Line.header (sampleSec false).chars::.binding (sampleKey alt).chars v0::before ++
      .binding k v::after = fileLines (sampleSaved false alt false value) := by
    rw [hlines, ← htail, hsplit]
    simp
  have hcur : ((Line.header (sampleSec false).chars::.binding (sampleKey alt).chars v0::before).foldl
      loadParsed loadStart).current = rssStrlcpy maxSecn (CString.at (sampleSec false).chars) := by
    rw [List.foldl_cons, current_kept]
    · rfl
    · intro l hl
      rcases List.mem_cons.mp hl with rfl | hl
      · nofun
      · exact hno l (by simp [hsplit, hl])
  rw [hfile, hcur] at hans
  refine answered_file (sampleSec false) key.str hans ?_
  exact undisturbed_sample h he (fun hq => hne (congrArg Prod.snd hq)) nofun

theorem undisturbed_contained (h : Undisturbed value env) (he : Edits env) :
    Contained (value.chars.take (maxVal-1)) := by
  cases hp : parts newline (value.chars.take (maxVal-1)) with
  | nil => exact absurd hp (parts_nonempty newline _)
  | cons a rest =>
    rw [Contained, hp, List.tail_cons]
    cases rest with
    | nil => trivial
    | cons b rest =>
      refine harmless_quiet fun line hl => ?_
      have hmem := List.mem_map_of_mem (f := parseLine) hl
      cases hline : parseLine line with
      | ignored => rfl
      | header name => exact absurd hline (undisturbed_header h he hp _ hmem name)
      | binding k v => exact absurd hline (undisturbed_binding h he hp _ hmem k v)

end Escaping

section Unread

variable (value : CString)

/-- A global key under a section, which a whole write moves into it. -/
def moverText : Bytes := ascii "[a]\nk = 1\n[]\ng = 2\n"

theorem mover_readable : 0 ∉ moverText ∧ FileFits moverText :=
  ⟨by decide, by decide +kernel⟩

def movedText : Bytes :=
  configText (rssConfigSetStr (literal "b") (literal "m") value (rssConfigLoad moverText))

theorem moved_lines : movedText value = joined newline [ascii "[a]", ascii "k = 1", ascii "g = 2",
    [], ascii "[b]", ascii "m = " ++ value.chars.take (maxVal-1)] := by
  rw [movedText, config_text_lines]
  rfl

theorem moved_answered : fileAnswer (movedText value) (literal "a") (literal "g") ≠ none := by
  have hz : 0 ∉ movedText value := by
    rw [moved_lines]
    intro h0
    have hv : 0 ∉ value.chars.take (maxVal-1) := fun h => value.nul_free (List.mem_of_mem_take h)
    rcases joined_subset newline _ 0 h0 with h | ⟨line, hl, h⟩
    · exact absurd h (by decide)
    · simp only [List.mem_cons, List.not_mem_nil, or_false] at hl
      rcases hl with rfl | rfl | rfl | rfl | rfl | rfl
      case inr.inr.inr.inr.inr =>
        rcases List.mem_append.mp h with h | h
        · exact absurd h (by decide)
        · exact hv h
      all_goals exact absurd h (by decide)
  have hlines : ∃ after, fileLines (movedText value) =
      [.header (ascii "a"), .binding (ascii "k") (ascii "1")] ++
        .binding (ascii "g") (ascii "2")::after := by
    rw [file_lines_pieces hz, moved_lines, pieces_joined]
    exact ⟨_, rfl⟩
  obtain ⟨after, hlines⟩ := hlines
  have hans := answered_among [.header (ascii "a"), .binding (ascii "k") (ascii "1")] after
    (ascii "g") (ascii "2")
  rw [← hlines] at hans
  exact answered_file (literal "a") (literal "g") hans

variable {value} {env : SaveEnv}

theorem undisturbed_confined (h : Undisturbed value env) (hbuild : env.buildOk = true)
    (hwrite : env.writeOk = true) : Confined value env := by
  obtain ⟨hz, hf⟩ := mover_readable
  have hbefore : fileAnswer moverText (literal "a") (literal "g") = none := by decide +kernel
  have hkey : KeyText (literal "m").chars := ⟨by decide, by decide, by decide, by decide⟩
  have hread : env.refsAlloc = true → env.readOk = true := by
    intro hrefs
    by_contra hread
    have hn : WellNamed (literal "b") (literal "m") :=
      ⟨by decide, by decide, by decide, by decide, hkey, by decide⟩
    have hdirty : collectDirty (rssConfigSetStr (literal "b") (literal "m") value
        (rssConfigLoad moverText)) ≠ [] := set_dirty hf hn (by decide)
    have hrewrites : Rewrites env (rssConfigSetStr (literal "b") (literal "m") value
        (rssConfigLoad moverText)) :=
      ⟨by simpa using hread, fun h0 => absurd h0 hdirty, fun _ => hrefs, Or.inr hbuild, hwrite⟩
    obtain ⟨text', hfile, hkept⟩ := h moverText (literal "b") (literal "m") hz hf hn
      (by rw [save_rewrites hrewrites])
    rw [save_rewrites hrewrites] at hfile
    obtain rfl := Option.some.inj hfile
    exact moved_answered value ((hkept (literal "a") (literal "g") (by decide)).trans hbefore)
  refine ⟨fun hrefs => ⟨hread hrefs, ?_⟩, ?_⟩
  · exact undisturbed_contained h ⟨hrefs, hread hrefs, hbuild, hwrite⟩
  · by_contra hno
    have hn : WellNamed (literal "") (literal "m") :=
      ⟨by decide, by decide, by decide, by decide, hkey, by decide⟩
    have hset : rssConfigSetStr (literal "") (literal "m") value (rssConfigLoad moverText) =
        rssConfigLoad moverText := refused_set rfl _
    have hrewrites : Rewrites env (rssConfigLoad moverText) :=
      ⟨by simpa using fun h => hno (Or.inr h), fun _ => by simpa using fun h => hno (Or.inl h),
        fun hd => absurd (loaded_clean hf) hd, Or.inr hbuild, hwrite⟩
    obtain ⟨text', hfile, hkept⟩ := h moverText (literal "") (literal "m") hz hf hn
      (by rw [hset, save_rewrites hrewrites])
    rw [hset, save_rewrites hrewrites] at hfile
    obtain rfl := Option.some.inj hfile
    have hlost := (hkept (literal "a") (literal "g") (by decide)).trans hbefore
    have hmoved : fileAnswer (configText (rssConfigLoad moverText)) (literal "a") (literal "g") =
        some (ascii "2") := by decide +kernel
    rw [hmoved] at hlost
    cases hlost

/-- The settings around a value are safe in every file exactly when nothing can
be written or the change is edited in and the lines the value's first 255 bytes
hold after their first one say nothing. -/
theorem value_undisturbed_iff (value : CString) (env : SaveEnv) : Undisturbed value env ↔
    env.buildOk = false ∨ env.writeOk = false ∨ Confined value env := by
  constructor
  · intro h
    cases hbuild : env.buildOk with
    | false => exact Or.inl rfl
    | true =>
      cases hwrite : env.writeOk with
      | false => exact Or.inr (Or.inl rfl)
      | true => exact Or.inr (Or.inr (undisturbed_confined h hbuild hwrite))
  · rintro (h | h | h)
    · exact confined_undisturbed fun hbuild _ => by simp [h] at hbuild
    · exact confined_undisturbed fun _ hwrite => by simp [h] at hwrite
    · exact confined_undisturbed fun _ _ => h

/-- A second line in a value is a setting of its own. -/
theorem value_injects_key :
    let text := ascii "[a]\nk = 1\n"
    let saved := rssConfigSave ⟨true, true, true, true, true⟩
      (rssConfigSetStr (literal "a") (literal "k") (literal "1\nm = 2") (rssConfigLoad text))
      (some text)
    saved.ret = 0 ∧ ∃ text', saved.file = some text' ∧
      fileAnswer text (literal "a") (literal "m") = none ∧
      fileAnswer text' (literal "a") (literal "m") = some (ascii "2") := by
  exact ⟨by decide +kernel, ascii "[a]\nk = 1\nm = 2\n", by decide +kernel, by decide +kernel,
    by decide +kernel⟩

end Unread

end RaptorCommon.ConfigInjection
