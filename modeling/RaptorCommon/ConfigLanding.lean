import RaptorCommon.ConfigPlan

/-!
# Where changes land in any file

The editor reads a file by its own rules, names cut to their fields. In that
reading the binding pass is the same for every text: each change ends up with
the last line that is its own and the last visible line of its section, and a
line goes by its section and key alone.
-/

set_option autoImplicit false

namespace RaptorCommon.ConfigLanding
open RaptorCommon.CText RaptorCommon.ConfigStore RaptorCommon.ConfigEditor
open RaptorCommon.ConfigSettings RaptorCommon.ConfigLineView RaptorCommon.ConfigBinding
open RaptorCommon.ConfigPlan RaptorCommon.LineText

section Lines

def sectionAfter (cur raw : Bytes) : Bytes :=
  if (classifyLine raw).kind = .header then foldCase (classifyLine raw).sec.chars else cur

def placedLines (cur : Bytes) : List Bytes → List (Bytes × Bytes)
  | [] => []
  | raw::rest => (sectionAfter cur raw, raw)::placedLines (sectionAfter cur raw) rest

def headerOf (s : Bytes) (x : Bytes × Bytes) : Bool :=
  x.1 = s && (classifyLine x.2).kind = .header

def keyLineOf (q : Place) (x : Bytes × Bytes) : Bool :=
  x.1 = q.1 && (classifyLine x.2).kind = .key && foldCase (classifyLine x.2).key.chars = q.2

def contentOf (s : Bytes) (x : Bytes × Bytes) : Bool := x.1 = s && (classifyLine x.2).nonblank

/-- The lines a change is about: its section's headers where the section is
removed, the lines of its key otherwise. -/
def ownLine (d : DirtyRef) : Bytes × Bytes → Bool :=
  match d.ent with
  | none => headerOf (foldCase d.sec.chars)
  | some e => keyLineOf (foldCase d.sec.chars, entryKey e)

def dropsLine (refs : List DirtyRef) (x : Bytes × Bytes) : Bool :=
  leavingIn refs x.1 && (classifyLine x.2).nonblank ||
    ((classifyLine x.2).kind = .key && goneIn refs (x.1, foldCase (classifyLine x.2).key.chars))

theorem placed_lines_raw (cur : Bytes) (raws : List Bytes) :
    (placedLines cur raws).map Prod.snd = raws := by
  induction raws generalizing cur with
  | nil => rfl
  | cons raw raws ih => rw [placedLines, List.map_cons, ih]

theorem placed_lines_length (cur : Bytes) (raws : List Bytes) :
    (placedLines cur raws).length = raws.length := by
  rw [← List.length_map (f := Prod.snd), placed_lines_raw]

theorem placed_lines_absent {s cur : Bytes} {raws : List Bytes} (hc : cur ≠ s)
    (h : ∀ x ∈ placedLines cur raws, headerOf s x = false) :
    ∀ x ∈ placedLines cur raws, x.1 ≠ s := by
  induction raws generalizing cur with
  | nil => simp [placedLines]
  | cons raw raws ih =>
    have hhead := h (sectionAfter cur raw, raw) (by simp [placedLines])
    have hne : sectionAfter cur raw ≠ s := by
      intro hs
      unfold sectionAfter at hs
      split at hs
      next hk => simp [headerOf, sectionAfter, hk, hs] at hhead
      next => exact hc hs
    intro x hx
    rcases List.mem_cons.mp hx with rfl | hx
    · exact hne
    · exact ih hne (fun y hy => h y (by simp [placedLines, hy])) x hx

theorem kind_nonblank {raw : Bytes} (hz : 0 ∉ raw) (hk : (classifyLine raw).kind ≠ .inert) :
    (classifyLine raw).nonblank = true := by
  have hl : raw.length < maxLine := by
    by_contra hl
    exact hk (long_inert (by omega)).2
  have hr := same_reading hz hl
  rw [hr.nonblank]
  exact parsed_visible fun hp => hk (hr.inert hp)

end Lines

section Refs

structure Landed (l : ℕ) (xs : List (Bytes × Bytes)) (d d' : DirtyRef) : Prop where
  sec : d'.sec = d.sec
  ent : d'.ent = d.ent
  done : d'.done = d.done
  replaceLine : d'.replaceLine = ((lastWhere (ownLine d) l xs).map Prod.fst).or d.replaceLine
  cut : d.ent.isSome → (d'.repKeyEnd, d'.repComOff) = ((lastWhere (ownLine d) l xs).map
    (fun r => ((classifyLine r.2.2).keyEnd, (classifyLine r.2.2).comOff))).getD
      (d.repKeyEnd, d.repComOff)
  appendLine : d'.appendLine =
    ((lastWhere (contentOf (foldCase d.sec.chars)) l xs).map Prod.fst).or d.appendLine
  secInFile : d'.secInFile = (d.secInFile || xs.any (headerOf (foldCase d.sec.chars)))

variable {cursec : Field maxSecn} {cur : Bytes}

theorem section_step (raw : Bytes) (hc : foldCase cursec.chars = cur) :
    foldCase (if (classifyLine raw).kind = .header then (classifyLine raw).sec
      else cursec).chars = sectionAfter cur raw := by
  unfold sectionAfter
  split
  · rfl
  · exact hc

theorem owns_own (raw : Bytes) (hc : foldCase cursec.chars = cur) (d : DirtyRef) :
    (ownsHeader (classifyLine raw) cursec d || ownsKey (classifyLine raw) cursec d) =
      ownLine d (cur, raw) := by
  rw [ownsHeader, ownsKey, ownLine, sameName, hc]
  cases he : d.ent with
  | none => simp [headerOf, eq_comm]
  | some e => simp [keyLineOf, sameName, entryKey, eq_comm, Bool.and_assoc]

theorem owns_key_own (raw : Bytes) (hc : foldCase cursec.chars = cur) (d : DirtyRef) :
    ownsKey (classifyLine raw) cursec d = (ownLine d (cur, raw) && d.ent.isSome) := by
  rw [ownsKey, ownLine, sameName, hc]
  cases he : d.ent with
  | none => simp
  | some e => simp [keyLineOf, sameName, entryKey, eq_comm, Bool.and_assoc]

theorem own_congr {d d' : DirtyRef} (hs : d'.sec = d.sec) (he : d'.ent = d.ent) :
    ownLine d' = ownLine d := by
  rw [ownLine, ownLine, hs, he]

theorem own_section {d : DirtyRef} {x : Bytes × Bytes} (h : ownLine d x = true) :
    x.1 = foldCase d.sec.chars := by
  rw [ownLine] at h
  cases he : d.ent with
  | none =>
    simp only [he, headerOf, Bool.and_eq_true, decide_eq_true_eq] at h
    exact h.1
  | some e =>
    simp only [he, keyLineOf, Bool.and_eq_true, decide_eq_true_eq] at h
    exact h.1.1

theorem bind_ref_landed (raw : Bytes) (hc : foldCase cursec.chars = cur) (l : ℕ) (d : DirtyRef) :
    Landed l [(cur, raw)] d (bindRef l (classifyLine raw) cursec d) := by
  have hown := owns_own raw hc d
  have hkey := owns_key_own raw hc d
  unfold bindRef
  rw [hown, hkey, sameName, hc]
  by_cases hs : foldCase d.sec.chars = cur
  · simp only [hs, decide_true, if_true]
    constructor
    · rfl
    · rfl
    · rfl
    · cases ho : ownLine d (cur, raw) <;> simp [lastWhere, ho]
    · intro he
      cases ho : ownLine d (cur, raw) <;> simp [lastWhere, ho, he]
    · cases hn : (classifyLine raw).nonblank <;> simp [lastWhere, contentOf, hs, hn]
    · simp [headerOf, hs]
  · have ho : ownLine d (cur, raw) = false := by
      by_contra ho
      exact hs (own_section (by simpa using ho)).symm
    have hs' : ¬cur = foldCase d.sec.chars := fun h => hs h.symm
    simp only [hs, decide_false, Bool.false_eq_true, if_false]
    constructor <;> simp [lastWhere, ho, contentOf, headerOf, hs']

theorem landed_cons {l : ℕ} {x : Bytes × Bytes} {xs : List (Bytes × Bytes)} {d d' d'' : DirtyRef}
    (h : Landed l [x] d d') (h' : Landed (l+1) xs d' d'') : Landed l (x::xs) d d'' := by
  have hown := own_congr h.sec h.ent
  have hr := h'.replaceLine
  have hcut := h'.cut
  have ha := h'.appendLine
  have hin := h'.secInFile
  rw [hown, h.replaceLine] at hr
  rw [hown, h.ent] at hcut
  rw [h.sec, h.appendLine] at ha
  rw [h.sec, h.secInFile] at hin
  refine ⟨h'.sec.trans h.sec, h'.ent.trans h.ent, h'.done.trans h.done, ?_, ?_, ?_, ?_⟩
  · rw [hr, last_where_cons l x xs]
    cases lastWhere (ownLine d) (l+1) xs <;> simp
  · intro he
    rw [hcut he, h.cut he, last_where_cons l x xs]
    cases lastWhere (ownLine d) (l+1) xs <;> simp
  · rw [ha, last_where_cons l x xs]
    cases lastWhere (contentOf (foldCase d.sec.chars)) (l+1) xs <;> simp
  · rw [hin]
    simp [Bool.or_assoc]

theorem bind_all_landed (raws : List Bytes) (hc : foldCase cursec.chars = cur) (l : ℕ)
    (d : DirtyRef) : Landed l (placedLines cur raws) d (bindAll l cursec d raws) := by
  induction raws generalizing l cursec cur d with
  | nil => constructor <;> simp [bindAll, placedLines, lastWhere]
  | cons raw raws ih =>
    have hstep := section_step raw hc
    exact landed_cons (bind_ref_landed raw hstep l d) (ih hstep (l+1) _)

end Refs

section Drops

variable {cursec : Field maxSecn} {cur : Bytes}

theorem any_owns_header_placed (raw : Bytes) (refs : List DirtyRef) (hc : foldCase cursec.chars = cur) :
    refs.any (ownsHeader (classifyLine raw) cursec) =
      ((classifyLine raw).kind = .header && leavingIn refs cur) := by
  have hp : ownsHeader (classifyLine raw) cursec =
      fun d => decide ((classifyLine raw).kind = .header) && (d.ent.isNone && inSection d cur) := by
    funext d
    rw [ownsHeader, sameName, hc, inSection, Bool.eq_iff_iff]
    simp only [decide_eq_true_eq, Bool.and_eq_true, Option.isNone_iff_eq_none]
    tauto
  rw [hp, leavingIn]
  cases decide ((classifyLine raw).kind = .header) <;> simp

theorem any_drops_key_placed (raw : Bytes) (refs : List DirtyRef) (hc : foldCase cursec.chars = cur) :
    refs.any (dropsKey (classifyLine raw) cursec) = ((classifyLine raw).kind = .key &&
      goneIn refs (cur, foldCase (classifyLine raw).key.chars)) := by
  have hp : dropsKey (classifyLine raw) cursec = fun d =>
      decide ((classifyLine raw).kind = .key) && (inSection d cur && d.ent.any (fun e =>
        e.removed && entryKey e = foldCase (classifyLine raw).key.chars)) := by
    funext d
    rw [dropsKey, ownsKey, sameName, hc, inSection, Bool.eq_iff_iff]
    cases d.ent with
    | none => simp
    | some e =>
      have hk : foldCase e.key.chars = entryKey e := rfl
      simp only [Option.any_some, sameName, hk, decide_eq_true_eq, Bool.and_eq_true]
      tauto
  rw [hp, goneIn]
  cases decide ((classifyLine raw).kind = .key) <;> simp

theorem drops_line_map {f : DirtyRef → DirtyRef} (hf : ∀ d, (f d).sec = d.sec ∧ (f d).ent = d.ent)
    (refs : List DirtyRef) : dropsLine (refs.map f) = dropsLine refs := by
  funext x
  rw [dropsLine, dropsLine, leaving_map hf, gone_map hf]

theorem bind_lines_flags {raws : List Bytes} (hz : ∀ raw ∈ raws, 0 ∉ raw)
    (hc : foldCase cursec.chars = cur) (l : ℕ) (refs : List DirtyRef) :
    (bindLines l cursec (leavingIn refs cur) refs raws).2 =
      (placedLines cur raws).map (dropsLine refs) := by
  induction raws generalizing l cursec cur refs with
  | nil => rfl
  | cons raw raws ih =>
    have hstep := section_step raw hc
    have hhead := any_owns_header_placed raw refs hstep
    have hkey := any_drops_key_placed raw refs hstep
    have hsame := bind_ref_sec l (classifyLine raw)
      (if (classifyLine raw).kind = .header then (classifyLine raw).sec else cursec)
    -- under a header the flag is that of its section, elsewhere the old one
    have hin : ((decide ((classifyLine raw).kind ≠ .header) && leavingIn refs cur) ||
        (decide ((classifyLine raw).kind = .header) && leavingIn refs (sectionAfter cur raw))) =
        leavingIn refs (sectionAfter cur raw) := by
      by_cases hk : (classifyLine raw).kind = .header
      · simp [hk]
      · simp [hk, sectionAfter]
    have hrest := ih (fun r hr => hz r (by simp [hr])) hstep (l+1) (refs.map (bindRef l
      (classifyLine raw)
      (if (classifyLine raw).kind = .header then (classifyLine raw).sec else cursec)))
    rw [leaving_map hsame, drops_line_map hsame] at hrest
    rw [bindLines]
    dsimp only
    rw [hhead, hkey, hin, hrest, placedLines, List.map_cons]
    congr 1
    rw [dropsLine]
    by_cases hk : (classifyLine raw).kind = .header
    · have hnb := kind_nonblank (hz raw (by simp)) (by simp [hk])
      simp [hk, hnb]
    · simp [hk, Bool.or_comm]

end Drops

end RaptorCommon.ConfigLanding
