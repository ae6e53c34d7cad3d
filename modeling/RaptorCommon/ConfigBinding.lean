import RaptorCommon.ConfigLineView

/-!
# Where the changes of a save land

The binding pass treats every change on its own: it ends up with the last line
of its key, or of its section's header, and with the last visible line of its
section. Which lines go is settled by the section and key of the line alone.
-/

set_option autoImplicit false

namespace RaptorCommon.ConfigBinding
open RaptorCommon.CText RaptorCommon.ConfigStore RaptorCommon.ConfigLoader
open RaptorCommon.ConfigEditor RaptorCommon.ConfigMap RaptorCommon.ConfigLineView
open RaptorCommon.IniSemantics RaptorCommon.LineText RaptorCommon.ConfigSettings

section Lines

/-- The lines of a file, each with the section it stands in. A header stands
in the section it opens. -/
def underSections (cur : Bytes) : List Bytes → List (Bytes × Bytes)
  | [] => []
  | raw::rest =>
    let cur := endSection cur [lineItem raw]
    (cur, raw)::underSections cur rest

def isHeader : Item Bytes Bytes Bytes → Bool
  | .header _ => true
  | _ => false

def inSection (d : DirtyRef) (cur : Bytes) : Bool := foldCase d.sec.chars = cur

/-- The lines that are a change's own: the header of a removed section, the
lines of its key for an entry. -/
def claims (d : DirtyRef) (x : Bytes × Bytes) : Bool :=
  inSection d x.1 && match lineItem x.2, d.ent with
    | .header _, none => true
    | .binding k _, some e => entryKey e = k
    | _, _ => false

def visibleIn (d : DirtyRef) (x : Bytes × Bytes) : Bool :=
  inSection d x.1 && (classifyLine x.2).nonblank

def headerIn (d : DirtyRef) (x : Bytes × Bytes) : Bool := inSection d x.1 && isHeader (lineItem x.2)

theorem under_sections_header {s cur : Bytes} {raws : List Bytes} (hc : cur ≠ s)
    (h : ∀ x ∈ underSections cur raws, x.1 = s → isHeader (lineItem x.2) = false) :
    ∀ x ∈ underSections cur raws, x.1 ≠ s := by
  induction raws generalizing cur with
  | nil => simp [underSections]
  | cons raw raws ih =>
    have hne : endSection cur [lineItem raw] ≠ s := by
      intro he
      have hh := h (endSection cur [lineItem raw], raw) (by simp [underSections]) he
      cases hi : lineItem raw with
      | header t => rw [hi] at hh; cases hh
      | inert => rw [hi] at he; exact hc he
      | binding k v => rw [hi] at he; exact hc he
    intro x hx
    rcases List.mem_cons.mp hx with rfl | hx
    · exact hne
    · exact ih hne (fun y hy => h y (by simp [underSections, hy])) x hx

theorem under_sections_lines (cur : Bytes) (raws : List Bytes) :
    (underSections cur raws).map Prod.snd = raws := by
  induction raws generalizing cur with
  | nil => rfl
  | cons raw raws ih => simp [underSections, ih]

end Lines

section Refs

def bindAll (l : ℕ) (cursec : Field maxSecn) (d : DirtyRef) : List Bytes → DirtyRef
  | [] => d
  | raw::rest =>
    let li := classifyLine raw
    let cursec := if li.kind = .header then li.sec else cursec
    bindAll (l+1) cursec (bindRef l li cursec d) rest

theorem bind_lines_refs (l : ℕ) (cursec : Field maxSecn) (inRemoved : Bool)
    (refs : List DirtyRef) (raws : List Bytes) :
    (bindLines l cursec inRemoved refs raws).1 = refs.map (fun d => bindAll l cursec d raws) := by
  induction raws generalizing l cursec inRemoved refs with
  | nil => simp [bindLines, bindAll]
  | cons raw raws ih =>
    rw [bindLines]
    dsimp only
    rw [ih, List.map_map]
    rfl

structure Bound (l : ℕ) (xs : List (Bytes × Bytes)) (d d' : DirtyRef) : Prop where
  sec : d'.sec = d.sec
  ent : d'.ent = d.ent
  done : d'.done = d.done
  replaceLine : d'.replaceLine = ((lastWhere (claims d) l xs).map Prod.fst).or d.replaceLine
  cut : d.ent.isSome → ∀ r ∈ lastWhere (claims d) l xs,
    d'.repKeyEnd = (classifyLine r.2.2).keyEnd ∧ d'.repComOff = (classifyLine r.2.2).comOff
  uncut : lastWhere (claims d) l xs = none →
    d'.repKeyEnd = d.repKeyEnd ∧ d'.repComOff = d.repComOff
  appendLine : d'.appendLine = ((lastWhere (visibleIn d) l xs).map Prod.fst).or d.appendLine
  secInFile : d'.secInFile = (d.secInFile || xs.any (headerIn d))

variable {raw : Bytes} {cursec : Field maxSecn} {cur : Bytes}

theorem next_section (h : PlainLine raw) (hc : foldCase cursec.chars = cur) :
    foldCase (if (classifyLine raw).kind = .header then (classifyLine raw).sec
      else cursec).chars = endSection cur [lineItem raw] := by
  cases hi : lineItem raw with
  | inert => rw [if_neg (by rw [view_inert h hi]; nofun)]; exact hc
  | header s =>
    rw [if_pos (view_header h hi).1]
    exact (view_header h hi).2
  | binding k v => rw [if_neg (by rw [(view_key h hi).1]; nofun)]; exact hc

theorem same_section (d : DirtyRef) (hc : foldCase cursec.chars = cur) :
    sameName d.sec.chars cursec.chars = inSection d cur := by
  rw [sameName, inSection, hc]

theorem kind_header (h : PlainLine raw) :
    ((classifyLine raw).kind = .header) ↔ isHeader (lineItem raw) = true := by
  cases hi : lineItem raw with
  | inert => simp [view_inert h hi, isHeader]
  | header s => simp [(view_header h hi).1, isHeader]
  | binding k v => simp [(view_key h hi).1, isHeader]

theorem owns_header (h : PlainLine raw) (hc : foldCase cursec.chars = cur) (d : DirtyRef) :
    ownsHeader (classifyLine raw) cursec d =
      (inSection d cur && isHeader (lineItem raw) && d.ent.isNone) := by
  rw [Bool.eq_iff_iff]
  simp [ownsHeader, same_section d hc, kind_header h, and_assoc]

theorem owns_key (h : PlainLine raw) (hc : foldCase cursec.chars = cur) (d : DirtyRef) :
    ownsKey (classifyLine raw) cursec d = (claims d (cur, raw) && d.ent.isSome) := by
  rw [ownsKey, same_section d hc, claims]
  cases hi : lineItem raw with
  | inert => cases d.ent <;> simp [view_inert h hi]
  | header s => cases d.ent <;> simp [(view_header h hi).1]
  | binding k v =>
    obtain ⟨hk, hkey, -⟩ := view_key h hi
    cases he : d.ent with
    | none => simp
    | some e =>
      rw [Bool.eq_iff_iff]
      simp only [hk, sameName, hkey, Option.any_some, Option.isSome_some, Bool.and_true,
        Bool.and_eq_true, decide_eq_true_eq, true_and]
      rfl

theorem owns_claims (h : PlainLine raw) (hc : foldCase cursec.chars = cur) (d : DirtyRef) :
    (ownsHeader (classifyLine raw) cursec d || ownsKey (classifyLine raw) cursec d) =
      claims d (cur, raw) := by
  rw [owns_header h hc, owns_key h hc, claims]
  cases hi : lineItem raw <;> cases d.ent <;> simp [isHeader]

theorem bind_ref_bound (h : PlainLine raw) (hc : foldCase cursec.chars = cur) (l : ℕ)
    (d : DirtyRef) : Bound l [(cur, raw)] d (bindRef l (classifyLine raw) cursec d) := by
  have hown := owns_claims h hc d
  have hkey := owns_key h hc d
  have hhead : decide ((classifyLine raw).kind = .header) = isHeader (lineItem raw) := by
    rw [Bool.eq_iff_iff, decide_eq_true_iff]
    exact kind_header h
  have hfar : inSection d cur = false → claims d (cur, raw) = false := fun hf => by
    simp [claims, hf]
  unfold bindRef
  rw [same_section d hc, hown, hkey, hhead]
  cases hs : inSection d cur with
  | false =>
    constructor <;> simp [lastWhere, hfar hs, visibleIn, headerIn, hs]
  | true =>
    constructor
    · rfl
    · rfl
    · rfl
    · cases hcl : claims d (cur, raw) <;> simp [lastWhere, hcl]
    · intro he r hr
      simp only [lastWhere, Option.none_or, Option.mem_def] at hr
      cases hcl : claims d (cur, raw) with
      | false => simp [hcl] at hr
      | true =>
        simp only [hcl, if_true, Option.some.injEq] at hr
        subst hr
        simp [he]
    · intro hn
      cases hcl : claims d (cur, raw) with
      | false => simp
      | true => simp [lastWhere, hcl] at hn
    · cases hv : (classifyLine raw).nonblank <;> simp [lastWhere, visibleIn, hs, hv]
    · simp [headerIn, hs]

theorem claims_congr {d d' : DirtyRef} (hs : d'.sec = d.sec) (he : d'.ent = d.ent) :
    claims d' = claims d := by
  funext x
  rw [claims, claims, inSection, inSection, hs, he]

theorem visible_congr {d d' : DirtyRef} (hs : d'.sec = d.sec) : visibleIn d' = visibleIn d := by
  funext x
  rw [visibleIn, visibleIn, inSection, inSection, hs]

theorem header_congr {d d' : DirtyRef} (hs : d'.sec = d.sec) : headerIn d' = headerIn d := by
  funext x
  rw [headerIn, headerIn, inSection, inSection, hs]

theorem bound_cons {l : ℕ} {x : Bytes × Bytes} {xs : List (Bytes × Bytes)} {d d' d'' : DirtyRef}
    (h : Bound l [x] d d') (h' : Bound (l+1) xs d' d'') : Bound l (x::xs) d d'' := by
  have hcl := claims_congr h.sec h.ent
  have hv := visible_congr h.sec
  have hh := header_congr h.sec
  have hr := h'.replaceLine
  have ha := h'.appendLine
  have hcut := h'.cut
  have huncut := h'.uncut
  have hin := h'.secInFile
  rw [hcl, h.replaceLine] at hr
  rw [hv, h.appendLine] at ha
  rw [hcl, h.ent] at hcut
  rw [hcl] at huncut
  rw [hh, h.secInFile] at hin
  refine ⟨h'.sec.trans h.sec, h'.ent.trans h.ent, h'.done.trans h.done, ?_, ?_, ?_, ?_, ?_⟩
  · rw [hr, last_where_cons l x xs]
    cases lastWhere (claims d) (l+1) xs <;> simp
  · intro he r hmem
    rw [last_where_cons l x xs] at hmem
    cases hlast : lastWhere (claims d) (l+1) xs with
    | some s =>
      rw [hlast, Option.some_or] at hmem
      rw [← Option.some.inj hmem]
      exact hcut he s hlast
    | none =>
      rw [hlast, Option.none_or] at hmem
      rw [(huncut hlast).1, (huncut hlast).2]
      exact h.cut he r hmem
  · intro hn
    rw [last_where_cons l x xs, Option.or_eq_none_iff] at hn
    rw [(huncut hn.1).1, (huncut hn.1).2]
    exact h.uncut hn.2
  · rw [ha, last_where_cons l x xs]
    cases lastWhere (visibleIn d) (l+1) xs <;> simp
  · rw [hin]
    simp [Bool.or_assoc]

theorem bind_all_bound {raws : List Bytes} (h : ∀ raw ∈ raws, PlainLine raw)
    (hc : foldCase cursec.chars = cur) (l : ℕ) (d : DirtyRef) :
    Bound l (underSections cur raws) d (bindAll l cursec d raws) := by
  induction raws generalizing l cursec cur d with
  | nil => constructor <;> simp [bindAll, underSections, lastWhere]
  | cons raw raws ih =>
    have hraw := h raw (by simp)
    have hnext := next_section hraw hc
    exact bound_cons (bind_ref_bound hraw hnext l d)
      (ih (fun r hr => h r (by simp [hr])) hnext (l+1) _)

end Refs

section Drops

def leavingIn (refs : List DirtyRef) (s : Bytes) : Bool :=
  refs.any (fun d => d.ent.isNone && inSection d s)

def goneIn (refs : List DirtyRef) (q : Place) : Bool :=
  refs.any (fun d => inSection d q.1 && d.ent.any (fun e => e.removed && entryKey e = q.2))

/-- The lines that go: everything visible in a removed section, and every line
of an unset key. -/
def dropsAt (refs : List DirtyRef) (x : Bytes × Bytes) : Bool :=
  leavingIn refs x.1 && (classifyLine x.2).nonblank || match lineItem x.2 with
    | .binding k _ => goneIn refs (x.1, k)
    | _ => false

section Congruence

variable {f : DirtyRef → DirtyRef} (hf : ∀ d, (f d).sec = d.sec ∧ (f d).ent = d.ent)
  (refs : List DirtyRef)

include hf

theorem leaving_map (s : Bytes) : leavingIn (refs.map f) s = leavingIn refs s := by
  rw [leavingIn, leavingIn, List.any_map]
  congr 1
  funext d
  rw [Function.comp_apply, inSection, inSection, (hf d).1, (hf d).2]

theorem gone_map (q : Place) : goneIn (refs.map f) q = goneIn refs q := by
  rw [goneIn, goneIn, List.any_map]
  congr 1
  funext d
  rw [Function.comp_apply, inSection, inSection, (hf d).1, (hf d).2]

theorem drops_map : dropsAt (refs.map f) = dropsAt refs := by
  funext x
  rw [dropsAt, dropsAt, leaving_map hf]
  cases lineItem x.2 <;> simp only [gone_map hf]

end Congruence

theorem bind_ref_sec (l : ℕ) (li : LineInfo) (cursec : Field maxSecn) (d : DirtyRef) :
    (bindRef l li cursec d).sec = d.sec ∧ (bindRef l li cursec d).ent = d.ent := by
  unfold bindRef
  split <;> exact ⟨rfl, rfl⟩

variable {raw : Bytes} {cursec : Field maxSecn} {cur : Bytes}

theorem any_owns_header (refs : List DirtyRef) (h : PlainLine raw)
    (hc : foldCase cursec.chars = cur) :
    refs.any (ownsHeader (classifyLine raw) cursec) =
      (isHeader (lineItem raw) && leavingIn refs cur) := by
  have hp : ownsHeader (classifyLine raw) cursec =
      fun d => isHeader (lineItem raw) && (d.ent.isNone && inSection d cur) := by
    funext d
    rw [owns_header h hc]
    cases isHeader (lineItem raw) <;> cases inSection d cur <;> simp
  rw [hp, leavingIn]
  cases isHeader (lineItem raw) <;> simp

theorem any_drops_key (refs : List DirtyRef) (h : PlainLine raw)
    (hc : foldCase cursec.chars = cur) :
    refs.any (dropsKey (classifyLine raw) cursec) = match lineItem raw with
      | .binding k _ => goneIn refs (cur, k)
      | _ => false := by
  have hp : ∀ d, dropsKey (classifyLine raw) cursec d =
      (claims d (cur, raw) && d.ent.any (fun e => e.removed)) := by
    intro d
    rw [dropsKey, owns_key h hc]
    cases d.ent <;> simp
  cases hi : lineItem raw with
  | inert =>
    rw [List.any_eq_false]
    intro d _
    simp [hp, claims, hi]
  | header s =>
    rw [List.any_eq_false]
    intro d _
    cases he : d.ent <;> simp [hp, claims, hi, he]
  | binding k v =>
    dsimp only
    rw [goneIn]
    congr 1
    funext d
    rw [hp, claims, hi]
    cases he : d.ent with
    | none => simp
    | some e =>
      rw [Bool.eq_iff_iff]
      simp only [Option.any_some, Bool.and_eq_true, decide_eq_true_eq]
      tauto

theorem bind_lines_drops {raws : List Bytes} (h : ∀ raw ∈ raws, PlainLine raw)
    (hc : foldCase cursec.chars = cur) (l : ℕ) (refs : List DirtyRef) :
    (bindLines l cursec (leavingIn refs cur) refs raws).2 =
      (underSections cur raws).map (dropsAt refs) := by
  induction raws generalizing l cursec cur refs with
  | nil => rfl
  | cons raw raws ih =>
    have hraw := h raw (by simp)
    have hnext := next_section hraw hc
    have hhead := any_owns_header refs hraw hnext
    have hkey := any_drops_key refs hraw hnext
    have hkind : ((classifyLine raw).kind ≠ .header : Bool) = !isHeader (lineItem raw) := by
      rw [Bool.eq_iff_iff]
      simp [kind_header hraw]
    have hsame := bind_ref_sec l (classifyLine raw)
      (if (classifyLine raw).kind = .header then (classifyLine raw).sec else cursec)
    have hin : ((!isHeader (lineItem raw) && leavingIn refs cur) || (isHeader (lineItem raw) &&
        leavingIn refs (endSection cur [lineItem raw]))) =
        leavingIn refs (endSection cur [lineItem raw]) := by
      cases hi : lineItem raw <;> simp [isHeader, endSection]
    have hrest := ih (fun r hr => h r (by simp [hr])) hnext (l+1) (refs.map (bindRef l
      (classifyLine raw)
      (if (classifyLine raw).kind = .header then (classifyLine raw).sec else cursec)))
    rw [leaving_map hsame, drops_map hsame] at hrest
    rw [bindLines]
    dsimp only
    rw [hkind, hhead, hkey, hin, hrest, underSections, List.map_cons]
    congr 1
    rw [dropsAt]
    cases hi : lineItem raw with
    | header s =>
      have hnb := line_nonblank hraw (by simp [hi])
      simp [isHeader, hnb]
    | inert => simp [isHeader]
    | binding k v => simp [isHeader, Bool.or_comm]

end Drops

end RaptorCommon.ConfigBinding
