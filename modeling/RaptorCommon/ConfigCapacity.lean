import RaptorCommon.BoundedOutput
import RaptorCommon.ConfigBudget

/-!
# The buffer of an edit

The edited text is built in a buffer whose size is one estimate made up
front. The pass is followed write by write: each copy and each `snprintf`
with the offset it is made at, line breaks put down one by one included.
-/

set_option autoImplicit false

namespace RaptorCommon.ConfigCapacity
open RaptorCommon.CText RaptorCommon.ConfigStore RaptorCommon.ConfigEditor
open RaptorCommon.ConfigWriter RaptorCommon.ConfigEmission RaptorCommon.LineText
open RaptorCommon.ConfigPlan RaptorCommon.ConfigLanding RaptorCommon.ConfigFrame
open RaptorCommon.ConfigBudget RaptorCommon.BoundedOutput
open RaptorCommon.TracedRun RaptorCommon.TracedRun.Run

section Pass

/-- The estimate before the conversion to `int`. -/
def estimate (text : Bytes) (ndirty : ℕ) : ℕ :=
  text.length+lineCount text+ndirty*(maxLine+maxVal+maxSecn+16)+16

def outCap (text : Bytes) (ndirty : ℕ) : ℤ := toInt (estimate text ndirty)

def newlineWrite : Write Byte := .copy [newline] 0 1

def refWrite (d : DirtyRef) : Write Byte := .print (refText d)

def dueWrites (due : DirtyRef → Bool) (refs : List DirtyRef) : List (Write Byte) :=
  (refs.filter due).map refWrite

def rawWrites (raw : Bytes) : List (Write Byte) := [.copy raw 0 raw.length, newlineWrite]

def replacementWrites (raw : Bytes) (d : DirtyRef) (e : ConfigEntry) : List (Write Byte) :=
  let vlen := e.value.chars.length
  let comlen := match d.repComOff with
    | some off => raw.length-off
    | none => 0
  let kept := if d.repKeyEnd+3+vlen+comlen ≥ maxLine then 0 else comlen
  let keylen := if d.repKeyEnd+3+vlen ≥ maxLine then 0 else d.repKeyEnd
  (if keylen > 0 then
      [.copy raw 0 keylen, .print (space::equals::space::e.value.chars)]
    else [.print (e.key.chars ++ space::equals::space::e.value.chars)]) ++
  (if kept > 0 then [.copy raw (d.repComOff.getD 0) kept] else []) ++ [newlineWrite]

def lineWrites (l : ℕ) (refs : List DirtyRef) (raw : Bytes) (dropped : Bool) :
    List (Write Byte) :=
  if dropped then []
  else match refs.find? (fun d => d.replaceLine = some l) with
    | none => rawWrites raw
    | some d => match d.ent with
      | none => rawWrites raw
      | some e => replacementWrites raw d e

def linesWrites (l : ℕ) (refs : List DirtyRef) : List (Bytes × Bool) → List (Write Byte)
  | [] => []
  | (raw, dropped)::rest =>
    let line := emitLine l refs raw dropped
    let appended := emitDue (appendDue l) line.2
    lineWrites l refs raw dropped ++ dueWrites (appendDue l) line.2 ++
      linesWrites (l+1) appended.2 rest

/-- The blank line is decided by the two cells in front of the offset. -/
def separatorWrites (b : Output Byte) : List (Write Byte) :=
  if b.off > 0 ∧ ¬(b.off > 1 ∧ b.cells[b.off-1]? = some newline ∧
    b.cells[b.off-2]? = some newline) then [newlineWrite] else []

def writeNewSections (written : List (Field maxSecn)) (b : Output Byte) :
    List DirtyRef → Run (ℕ × Write Byte) (Output Byte)
  | [] => pure b
  | d::rest =>
    if sectionDue written d ∧ d.secInFile = false ∧ d.sec.chars ≠ [] then do
      let entries := (d::rest).filter (fun r =>
        sectionDue written r ∧ sameName r.sec.chars d.sec.chars)
      let b ← writes 0 (separatorWrites b ++
        .print (headerText d.sec.chars)::entries.map refWrite) b
      writeNewSections (d.sec::written) b rest
    else writeNewSections written b rest

/-- What `malloc` returns: cells of any content. -/
def malloc (heap : ℕ → Byte) (size : ℕ) : List Byte := (List.range size).map heap

/-- `config_write_surgical` up to the hand-over of its buffer. -/
def writeSurgical (heap : ℕ → Byte) (text : Bytes) (refs : List DirtyRef) :
    Run (ℕ × Write Byte) (Output Byte) := do
  let cells := malloc heap (outCap text refs.length).toNat
  let b ← writes 0 (dueWrites topDue (settledRefs refs text)) ⟨cells, 0⟩
  let b ← writes 0 (linesWrites 0 (topPass refs text).2 (markedLines refs text)) b
  writeNewSections [] b (bodyPass refs text).2

end Pass

section Texts

theorem due_bytes (due : DirtyRef → Bool) (refs : List DirtyRef) :
    (dueWrites due refs).flatMap Write.bytes = (emitDue due refs).1 := by
  rw [dueWrites, List.flatMap_map]
  rfl

theorem raw_bytes (raw : Bytes) : (rawWrites raw).flatMap Write.bytes = raw ++ [newline] := by
  simp [rawWrites, newlineWrite, Write.bytes]

theorem kept_bytes (raw : Bytes) (off : ℕ) :
    (if raw.length-off > 0 then [Write.copy raw off (raw.length-off)] else []).flatMap
      Write.bytes = raw.drop off := by
  split
  next h =>
    rw [List.flatMap_singleton, Write.bytes]
    exact List.take_of_length_le (by rw [List.length_drop])
  next h =>
    rw [List.flatMap_nil, List.drop_of_length_le (by omega)]

theorem replacement_bytes (raw : Bytes) (d : DirtyRef) (e : ConfigEntry) :
    (replacementWrites raw d e).flatMap Write.bytes = replacementLine raw d e ++ [newline] := by
  have hfront : ∀ n : ℕ, (if n > 0 then
        [Write.copy raw 0 n, .print (space::equals::space::e.value.chars)]
      else [.print (e.key.chars ++ space::equals::space::e.value.chars)]).flatMap Write.bytes =
      (if n > 0 then raw.take n else e.key.chars) ++ space::equals::space::e.value.chars := by
    intro n
    split <;> simp [Write.bytes]
  unfold replacementWrites replacementLine
  dsimp only
  rw [List.flatMap_append, List.flatMap_append, hfront]
  have hend : [newlineWrite].flatMap Write.bytes = [newline] := rfl
  rw [hend]
  congr 2
  cases d.repComOff with
  | none => simp
  | some off =>
    dsimp only [Option.getD_some]
    split
    · rfl
    · exact kept_bytes raw off

theorem line_bytes (l : ℕ) (refs : List DirtyRef) (raw : Bytes) (dropped : Bool) :
    (lineWrites l refs raw dropped).flatMap Write.bytes = (emitLine l refs raw dropped).1 := by
  unfold lineWrites emitLine
  cases dropped with
  | true => rfl
  | false =>
    dsimp only
    cases refs.find? (fun d => d.replaceLine = some l) with
    | none => exact raw_bytes raw
    | some d =>
      dsimp only
      cases d.ent with
      | none => exact raw_bytes raw
      | some e => exact replacement_bytes raw d e

theorem lines_bytes (l : ℕ) (refs : List DirtyRef) (marked : List (Bytes × Bool)) :
    (linesWrites l refs marked).flatMap Write.bytes = (emitLines l refs marked).1 := by
  induction marked generalizing l refs with
  | nil => rfl
  | cons x marked ih =>
    obtain ⟨raw, dropped⟩ := x
    rw [linesWrites, emitLines]
    dsimp only
    rw [List.flatMap_append, List.flatMap_append, line_bytes, due_bytes, ih]

theorem last_two (out : Bytes) (c d : Byte) (h : 1 < out.length) :
    out.reverse.take 2 = [c, d] ↔
      out[out.length-1]? = some c ∧ out[out.length-2]? = some d := by
  have h0 : out.reverse[0]? = out[out.length-1]? := List.getElem?_reverse (by omega)
  have h1 : out.reverse[1]? = out[out.length-2]? := List.getElem?_reverse h
  rw [← h0, ← h1]
  have hlen : 1 < out.reverse.length := by rwa [List.length_reverse]
  match out.reverse, hlen with
  | x::y::t, _ => simp

variable {cap : ℕ} {out : Bytes} {b : Output Byte}

theorem separator_bytes (h : Shows cap out b) :
    (separatorWrites b).flatMap Write.bytes = separator out := by
  have hoff := h.off
  unfold separatorWrites separator
  by_cases hnil : out = []
  · rw [if_neg (by rw [hoff, hnil]; simp), if_pos hnil, List.flatMap_nil]
  have hpos : 0 < out.length := List.length_pos_of_ne_nil hnil
  have hsame : (b.off > 1 ∧ b.cells[b.off-1]? = some newline ∧ b.cells[b.off-2]? = some newline) ↔
      (1 < out.length ∧ out.reverse.take 2 = [newline, newline]) := by
    rw [hoff]
    refine and_congr_right fun hlong => ?_
    rw [last_two out newline newline hlong, shows_cell h (by omega), shows_cell h (by omega)]
  rw [if_neg hnil]
  by_cases htwo : 1 < out.length ∧ out.reverse.take 2 = [newline, newline]
  · rw [if_pos htwo, if_neg fun hc => hc.2 (hsame.mpr htwo), List.flatMap_nil]
  · rw [if_neg htwo, if_pos ⟨by omega, fun hc => htwo (hsame.mp hc)⟩]
    rfl

end Texts

section Sources

def CutsWithin (raw : Bytes) (d : DirtyRef) : Prop :=
  d.repKeyEnd ≤ raw.length ∧ ∀ off ∈ d.repComOff, off ≤ raw.length

theorem raw_inside (raw : Bytes) : ∀ w ∈ rawWrites raw, w.Inside := by
  intro w hw
  simp only [rawWrites, List.mem_cons, List.not_mem_nil, or_false] at hw
  rcases hw with rfl | rfl
  · exact Nat.le_of_eq (Nat.zero_add _)
  · exact Nat.le_refl _

theorem replacement_inside {raw : Bytes} {d : DirtyRef} (h : CutsWithin raw d) (e : ConfigEntry) :
    ∀ w ∈ replacementWrites raw d e, w.Inside := by
  obtain ⟨hend, hcom⟩ := h
  intro w hw
  unfold replacementWrites at hw
  dsimp only at hw
  rcases List.mem_append.mp hw with hw | hw
  · rcases List.mem_append.mp hw with hw | hw
    · obtain ⟨n, hn, hle⟩ : ∃ n, (if d.repKeyEnd+3+e.value.chars.length ≥ maxLine then 0
          else d.repKeyEnd) = n ∧ n ≤ d.repKeyEnd := ⟨_, rfl, by split <;> omega⟩
      rw [hn] at hw
      split at hw
      · simp only [List.mem_cons, List.not_mem_nil, or_false] at hw
        rcases hw with rfl | rfl
        · show 0+n ≤ raw.length
          omega
        · trivial
      · rw [List.mem_singleton.mp hw]
        trivial
    · cases hoff : d.repComOff with
      | none =>
        rw [hoff] at hw
        simp at hw
      | some off =>
        have hlast := hcom off hoff
        rw [hoff] at hw
        dsimp only [Option.getD_some] at hw
        by_cases hlong : d.repKeyEnd+3+e.value.chars.length+(raw.length-off) ≥ maxLine
        · rw [if_pos hlong, if_neg (Nat.lt_irrefl 0)] at hw
          cases hw
        · rw [if_neg hlong] at hw
          split at hw
          · rw [List.mem_singleton.mp hw]
            show off+(raw.length-off) ≤ raw.length
            omega
          · cases hw
  · rw [List.mem_singleton.mp hw]
    exact Nat.le_refl _

theorem due_inside (due : DirtyRef → Bool) (refs : List DirtyRef) :
    ∀ w ∈ dueWrites due refs, w.Inside := by
  intro w hw
  obtain ⟨d, -, rfl⟩ := List.mem_map.mp hw
  trivial

theorem lead_trim (s : Bytes) : (s.takeWhile isSpace).length+(rssTrim s).length ≤ s.length := by
  have hcut := congrArg List.length (List.takeWhile_append_dropWhile (p := isSpace) (l := s))
  have htrim := (List.rdropWhile_prefix isSpace (s.dropWhile isSpace)).length_le
  rw [List.length_append] at hcut
  unfold rssTrim
  omega

theorem back_blanks_le (copy : Bytes) (p : ℕ) : backBlanks copy p ≤ p := by
  induction p with
  | zero => exact Nat.le_refl 0
  | succ p ih =>
    rw [backBlanks]
    split
    · omega
    · exact Nat.le_refl _

theorem classify_within (raw : Bytes) : (classifyLine raw).keyEnd ≤ raw.length ∧
    ∀ off ∈ (classifyLine raw).comOff, off ≤ raw.length := by
  have hinert : (inertLine raw).keyEnd ≤ raw.length ∧
      ∀ off ∈ (inertLine raw).comOff, off ≤ raw.length := ⟨Nat.zero_le _, nofun⟩
  have hcopy : (CString.at raw).chars.length ≤ raw.length := (List.takeWhile_prefix _).length_le
  have hlead := lead_trim (CString.at raw).chars
  unfold classifyLine
  split
  · exact hinert
  dsimp only
  cases htrim : rssTrim (CString.at raw).chars with
  | nil => exact hinert
  | cons c s =>
    rw [htrim] at hlead
    dsimp only
    split
    · exact hinert
    split
    · cases cutAt rbracket s with
      | none => exact hinert
      | some r => exact hinert
    cases hcut : cutAt equals (c::s) with
    | none => exact hinert
    | some r =>
      obtain ⟨before, rest⟩ := r
      have hline := congrArg List.length (cutAt_some hcut).1
      simp only [List.length_append, List.length_cons] at hline hlead
      have hkey := trim_length before
      have hval := lead_trim rest
      dsimp only
      split
      · exact hinert
      refine ⟨?_, fun off hoff => ?_⟩
      · dsimp only
        omega
      · obtain ⟨p, hp, rfl⟩ := Option.mem_map.mp hoff
        obtain ⟨x, d, y, hsplit, rfl, -⟩ := ConfigGrammar.find_comment_some hp
        have hvallen := congrArg List.length hsplit
        simp only [List.length_append, List.length_cons] at hvallen
        refine (back_blanks_le _ _).trans ?_
        omega

def AllWithin (raws : List Bytes) (refs : List DirtyRef) : Prop :=
  ∀ d ∈ refs, d.ent.isSome → ∀ m ∈ d.replaceLine, ∀ raw ∈ raws[m]?, CutsWithin raw d

theorem bound_within (raws : List Bytes) {d : DirtyRef} (hnew : d = newRef d.sec d.ent)
    (he : (boundRef raws d).ent.isSome) {m : ℕ} (hm : (boundRef raws d).replaceLine = some m)
    {raw : Bytes} (hraw : raws[m]? = some raw) : CutsWithin raw (boundRef raws d) := by
  have hp := bound_ref_placed raws hnew
  rw [hp.replaceLine, Option.map_eq_some_iff] at hm
  obtain ⟨r, hr, rfl⟩ := hm
  have hat := last_where_at hr
  rw [Nat.sub_zero] at hat
  have hsame : r.2.2 = raw := by
    rw [← placed_lines_raw [] raws, List.getElem?_map, hat] at hraw
    exact Option.some.inj hraw
  obtain ⟨hend, hcom⟩ := hp.cut he r hr
  unfold CutsWithin
  rw [hend, hcom, hsame]
  exact classify_within raw

theorem within_done {raws : List Bytes} {refs refs' : List DirtyRef} (h : AllWithin raws refs)
    (hsame : ∀ d' ∈ refs', ∃ d ∈ refs, ∃ b, d' = { d with done := b }) :
    AllWithin raws refs' := by
  intro d' hd' he m hm raw hraw
  obtain ⟨d, hd, b, rfl⟩ := hsame d' hd'
  exact h d hd he m hm raw hraw

theorem due_within {raws : List Bytes} {refs : List DirtyRef} (h : AllWithin raws refs)
    (due : DirtyRef → Bool) : AllWithin raws (emitDue due refs).2 := by
  refine within_done h fun d' hd' => ?_
  obtain ⟨d, hd, rfl⟩ := List.mem_map.mp hd'
  refine ⟨d, hd, ?_⟩
  split
  · exact ⟨true, rfl⟩
  · exact ⟨d.done, rfl⟩

theorem agrees_mem {l : ℕ} {refs refs' : List DirtyRef} (h : Agrees l refs refs') :
    ∀ d' ∈ refs', ∃ d ∈ refs, ∃ b, d' = { d with done := b } := by
  induction h with
  | nil => exact fun d' hd' => absurd hd' List.not_mem_nil
  | @cons d x refs refs' hd _ ih =>
    intro d' hd'
    rcases List.mem_cons.mp hd' with rfl | hd'
    · exact ⟨d, List.mem_cons_self, hd.same⟩
    · obtain ⟨y, hy, hsame⟩ := ih d' hd'
      exact ⟨y, List.mem_cons_of_mem d hy, hsame⟩

theorem line_inside {raws : List Bytes} {refs : List DirtyRef} (h : AllWithin raws refs) {l : ℕ}
    {raw : Bytes} (hraw : raws[l]? = some raw) (dropped : Bool) :
    ∀ w ∈ lineWrites l refs raw dropped, w.Inside := by
  unfold lineWrites
  split
  · exact fun w hw => absurd hw List.not_mem_nil
  · split
    · exact raw_inside raw
    next d hfind =>
      have hrep : d.replaceLine = some l := by simpa using List.find?_some hfind
      split
      · exact raw_inside raw
      next e he =>
        refine replacement_inside ?_ e
        exact h d (List.mem_of_find?_eq_some hfind) (by rw [he]; rfl) l hrep raw hraw

theorem lines_inside {raws : List Bytes} {refs : List DirtyRef} (h : AllWithin raws refs) {l : ℕ}
    {marked : List (Bytes × Bool)} (hlines : raws.drop l = marked.map Prod.fst) :
    ∀ w ∈ linesWrites l refs marked, w.Inside := by
  induction marked generalizing l refs with
  | nil => exact fun w hw => absurd hw List.not_mem_nil
  | cons x marked ih =>
    obtain ⟨raw, dropped⟩ := x
    have hraw : raws[l]? = some raw := by
      have hfirst := congrArg (fun ls => ls[0]?) hlines
      simpa using hfirst
    have hrest : raws.drop (l+1) = marked.map Prod.fst := by
      rw [← List.drop_drop, hlines]
      rfl
    have hafter : AllWithin raws (emitLine l refs raw dropped).2 :=
      within_done h (agrees_mem (emit_line_agrees (agrees_refl l refs) raw dropped))
    intro w hw
    rw [linesWrites] at hw
    rcases List.mem_append.mp hw with hw | hw
    · rcases List.mem_append.mp hw with hw | hw
      · exact line_inside h hraw dropped w hw
      · exact due_inside _ _ w hw
    · exact ih (due_within hafter _) hrest w hw

end Sources

section Capacity

variable {cap : ℕ} {out : Bytes} {b : Output Byte}

theorem new_sections_extend (written : List (Field maxSecn)) (out : Bytes)
    (refs : List DirtyRef) : out.length ≤ (emitNewSections written out refs).length := by
  rw [emit_new_sections_text, List.length_append]
  exact Nat.le_add_right _ _

theorem new_sections_fit {written : List (Field maxSecn)} {refs : List DirtyRef}
    (h : Shows cap out b) (hroom : (emitNewSections written out refs).length < cap) :
    Meets (Fits cap) (Shows cap (emitNewSections written out refs))
      (writeNewSections written b refs) := by
  induction refs generalizing written out b with
  | nil =>
    rw [writeNewSections, meets_pure]
    exact h
  | cons d rest ih =>
    rw [emitNewSections] at hroom ⊢
    rw [writeNewSections]
    split
    next hd =>
      rw [if_pos hd] at hroom
      dsimp only at hroom ⊢
      obtain ⟨entries, hentries⟩ : ∃ entries, (d::rest).filter (fun r =>
        decide (sectionDue written r = true ∧ sameName r.sec.chars d.sec.chars = true)) = entries :=
        ⟨_, rfl⟩
      rw [hentries] at hroom ⊢
      have hbytes : (separatorWrites b ++ Write.print (headerText d.sec.chars)::
          entries.map refWrite).flatMap Write.bytes =
          separator out ++ headerText d.sec.chars ++ entries.flatMap refText := by
        have hmap : (entries.map refWrite).flatMap Write.bytes = entries.flatMap refText := by
          rw [List.flatMap_map]
          rfl
        rw [List.flatMap_append, separator_bytes h, List.flatMap_cons, hmap, List.append_assoc]
        rfl
      have hinside : ∀ w ∈ separatorWrites b ++ Write.print (headerText d.sec.chars)::
          entries.map refWrite, w.Inside := by
        intro w hw
        rcases List.mem_append.mp hw with hw | hw
        · unfold separatorWrites at hw
          split at hw
          · rw [List.mem_singleton.mp hw]
            exact Nat.le_refl 1
          · cases hw
        · rcases List.mem_cons.mp hw with rfl | hw
          · trivial
          · obtain ⟨r, -, rfl⟩ := List.mem_map.mp hw
            trivial
      have hhere := (new_sections_extend (d.sec::written) (out ++ separator out ++
        headerText d.sec.chars ++ entries.flatMap refText) rest).trans_lt hroom
      simp only [List.append_assoc] at hbytes hroom hhere ⊢
      rw [meets_bind]
      refine (writes_fit h hinside (by rw [hbytes]; exact hhere)).mono (fun _ he => he)
        fun b' hb' => ?_
      rw [hbytes] at hb'
      exact ih hb' hroom
    next hd =>
      rw [if_neg hd] at hroom
      exact ih h hroom

theorem collected_new (cfg : Config) : ∀ d ∈ collectDirty cfg, d = newRef d.sec d.ent := by
  intro d hd
  rw [collectDirty, List.mem_reverse, List.mem_flatMap] at hd
  obtain ⟨s, -, hd⟩ := hd
  rcases List.mem_append.mp hd with hd | hd
  · split at hd
    · rw [List.mem_singleton.mp hd]
      rfl
    · cases hd
  · obtain ⟨e, -, rfl⟩ := List.mem_map.mp hd
    rfl

theorem cap_of_estimate {text : Bytes} {n : ℕ} (h : estimate text n < 2^31) :
    outCap text n = estimate text n := by
  unfold outCap toInt
  generalize estimate text n = k at h ⊢
  exact Int.bmod_eq_of_le (by omega) (by omega)

theorem edited_room {refs : List DirtyRef} (hnew : ∀ d ∈ refs, d = newRef d.sec d.ent)
    (text : Bytes) : (editedText refs text).length < estimate text refs.length := by
  have hlen := edited_length hnew text
  rw [Nat.mul_comm] at hlen
  exact Nat.lt_of_le_of_lt hlen (Nat.lt_add_of_pos_right (by decide))

theorem settled_within {refs : List DirtyRef} (hnew : ∀ d ∈ refs, d = newRef d.sec d.ent)
    (text : Bytes) : AllWithin (pieces newline text) (settledRefs refs text) := by
  intro x hx he m hm raw hraw
  rw [settled_bound] at hx
  obtain ⟨d, hd, rfl⟩ := List.mem_map.mp hx
  exact bound_within (pieces newline text) (hnew d hd) he hm hraw

theorem pass_fits {refs : List DirtyRef} (hnew : ∀ d ∈ refs, d = newRef d.sec d.ent)
    (text : Bytes) (heap : ℕ → Byte) (hcap : (editedText refs text).length < cap)
    (hsize : (outCap text refs.length).toNat = cap) :
    Meets (Fits cap) (Shows cap (editedText refs text)) (writeSurgical heap text refs) := by
  have htop : ((topPass refs text).1 ++ (bodyPass refs text).1).length < cap :=
    (new_sections_extend [] _ (bodyPass refs text).2).trans_lt hcap
  have hfresh : Shows cap [] ⟨malloc heap cap, 0⟩ := by
    have hshows := shows_fresh (malloc heap cap)
    rwa [malloc, List.length_map, List.length_range] at hshows
  have htopBytes : (dueWrites topDue (settledRefs refs text)).flatMap Write.bytes =
      (topPass refs text).1 := due_bytes _ _
  have hbodyBytes : (linesWrites 0 (topPass refs text).2 (markedLines refs text)).flatMap
      Write.bytes = (bodyPass refs text).1 := lines_bytes _ _ _
  have hinside : ∀ w ∈ linesWrites 0 (topPass refs text).2 (markedLines refs text), w.Inside :=
    lines_inside (due_within (settled_within hnew text) topDue) (marked_lines refs text).symm
  unfold writeSurgical
  rw [hsize, meets_bind]
  refine (writes_fit hfresh (due_inside _ _) ?_).mono (fun _ he => he) fun b hb => ?_
  · rw [htopBytes, List.nil_append]
    rw [List.length_append] at htop
    omega
  rw [htopBytes, List.nil_append] at hb
  rw [meets_bind]
  refine (writes_fit hb hinside ?_).mono (fun _ he => he) fun b' hb' => ?_
  · rw [hbodyBytes]
    exact htop
  rw [hbodyBytes] at hb'
  exact new_sections_fit hb' hcap

/-- Every copy and every print of the pass, its terminator included, is within
the buffer, and the buffer ends up holding the edited text. -/
theorem every_write_fits (cfg : Config) (text : Bytes) (heap : ℕ → Byte)
    (hcap : estimate text (collectDirty cfg).length < 2^31) :
    Meets (fun p => p.2.Inside ∧ ((p.1+p.2.need : ℕ) : ℤ) ≤ outCap text (collectDirty cfg).length)
      (fun b => b.off = (editedText (collectDirty cfg) text).length ∧
        b.cells.take b.off = editedText (collectDirty cfg) text)
      (writeSurgical heap text (collectDirty cfg)) := by
  have hnew := collected_new cfg
  have hsize : (outCap text (collectDirty cfg).length).toNat =
      estimate text (collectDirty cfg).length := by
    rw [cap_of_estimate hcap, Int.toNat_natCast]
  refine (pass_fits hnew text heap (edited_room hnew text) hsize).mono (fun p hp => ?_)
    fun b hb => ⟨hb.off, by rw [hb.off]; exact hb.text⟩
  rw [cap_of_estimate hcap]
  exact ⟨hp.inside, Int.ofNat_le.mpr hp.room⟩

def sampleConfig : Config :=
  rssConfigSetStr (CString.at (ascii "osd")) (CString.at (ascii "text")) (CString.at (ascii "on"))
    (rssConfigSetStr (CString.at (ascii "video")) (CString.at (ascii "fps"))
      (CString.at (ascii "25")) [])

def sampleText : Bytes := ascii "[video]\nfps = 20 # slow\n"

theorem every_write_fits_sample :
    Meets (fun p => p.2.Inside ∧
        ((p.1+p.2.need : ℕ) : ℤ) ≤ outCap sampleText (collectDirty sampleConfig).length)
      (fun b => b.off = (editedText (collectDirty sampleConfig) sampleText).length ∧
        b.cells.take b.off = editedText (collectDirty sampleConfig) sampleText)
      (writeSurgical (fun _ => 0) sampleText (collectDirty sampleConfig)) :=
  every_write_fits sampleConfig sampleText (fun _ => 0) (by decide +kernel)

example : outCap sampleText (collectDirty sampleConfig).length = 1738 ∧
    (writeSurgical (fun _ => 0) sampleText (collectDirty sampleConfig)).touched.map
      (fun p => (p.1, p.2.need)) =
        [(0, 7), (7, 1), (8, 3), (11, 6), (16, 7), (23, 1), (24, 1), (25, 7), (31, 11)] := by
  decide +kernel

end Capacity

end RaptorCommon.ConfigCapacity
