import RaptorCommon.ConfigPlan

/-!
# What the edited text says

The lines written for each line of the file are one of five kinds. From them
follows, place by place, what the edited text binds: nothing where a key or
its section was taken out, the new value last where a key was set, and
exactly the values of the file everywhere else.
-/

set_option autoImplicit false

namespace RaptorCommon.ConfigRevision
open RaptorCommon.CText RaptorCommon.ConfigStore RaptorCommon.ConfigLoader
open RaptorCommon.ConfigWriter RaptorCommon.ConfigEditor RaptorCommon.ConfigMap
open RaptorCommon.ConfigLineView RaptorCommon.ConfigBinding RaptorCommon.ConfigEmission
open RaptorCommon.ConfigGrammar RaptorCommon.ConfigSettings RaptorCommon.IniSemantics
open RaptorCommon.LineText RaptorCommon.ConfigPlan

section Blocks

inductive Block (refs : List DirtyRef) (l : ℕ) (c raw : Bytes) :
    List (Item Bytes Bytes Bytes) → Prop where
  | silent {ys : List (Item Bytes Bytes Bytes)} (hc : leavingIn refs c = true)
      (hy : ∀ y ∈ ys, y = .inert) : Block refs l c raw ys
  | kept (hc : leavingIn refs c = false)
      (hkeep : ∀ d ∈ refs, d.replaceLine ≠ some l)
      (hgone : ∀ k v, lineItem raw = .binding k v → goneIn refs (c, k) = false) :
      Block refs l c raw (lineItem raw::entryItems (appendedAt refs l))
  | blank (hc : leavingIn refs c = false) (hi : lineItem raw = .inert) :
      Block refs l c raw (entryItems (appendedAt refs l))
  | dropped (hc : leavingIn refs c = false) {k v : Bytes} (hi : lineItem raw = .binding k v)
      (hg : goneIn refs (c, k) = true) : Block refs l c raw (entryItems (appendedAt refs l))
  | replaced (hc : leavingIn refs c = false) {v : Bytes} {d : DirtyRef} {e : ConfigEntry}
      (hi : lineItem raw = .binding (entryKey e) v) (hd : d ∈ refs) (he : d.ent = some e)
      (hrem : e.removed = false) (hsec : foldCase d.sec.chars = c)
      (hl : d.replaceLine = some l) {ys : List (Item Bytes Bytes Bytes)}
      (hs : Mild (entryKey e) ys)
      (hv : Readable e → ys = [.binding (entryKey e) e.value.chars]) :
      Block refs l c raw (ys ++ entryItems (appendedAt refs l))

variable {xs rest : List (Bytes × Bytes)} {refs : List DirtyRef} {l : ℕ} {c raw : Bytes}

theorem claims_some {d : DirtyRef} (h : claims d (c, raw) = true) :
    foldCase d.sec.chars = c ∧ ((d.ent = none ∧ isHeader (lineItem raw) = true) ∨
      ∃ e v, d.ent = some e ∧ lineItem raw = .binding (entryKey e) v) := by
  rw [claims, Bool.and_eq_true, inSection, decide_eq_true_eq] at h
  refine ⟨h.1, ?_⟩
  cases hi : lineItem raw with
  | inert => rw [hi] at h; exact absurd h.2 (by simp)
  | header s =>
    cases he : d.ent with
    | none => exact Or.inl ⟨rfl, rfl⟩
    | some e => rw [hi, he] at h; exact absurd h.2 (by simp)
  | binding k v =>
    cases he : d.ent with
    | none => rw [hi, he] at h; exact absurd h.2 (by simp)
    | some e =>
      rw [hi, he] at h
      have hk : entryKey e = k := by simpa using h.2
      exact Or.inr ⟨e, v, rfl, by rw [hk]⟩

theorem claims_binding {d : DirtyRef} {e : ConfigEntry} {k v : Bytes} (he : d.ent = some e)
    (hi : lineItem raw = .binding k v) :
    claims d (c, raw) = true ↔ (c, k) = (foldCase d.sec.chars, entryKey e) := by
  rw [claims, he, hi, Prod.mk.injEq, Bool.and_eq_true, inSection, decide_eq_true_eq, eq_comm]
  simp only [decide_eq_true_eq, eq_comm (a := entryKey e)]

theorem leaving_of_header {d : DirtyRef} (hd : d ∈ refs) (he : d.ent = none) :
    leavingIn refs (foldCase d.sec.chars) = true := by
  rw [leavingIn, List.any_eq_true]
  exact ⟨d, hd, by simp [he, inSection]⟩

theorem gone_of_removed {d : DirtyRef} (hd : d ∈ refs) {e : ConfigEntry} (he : d.ent = some e)
    (hrem : e.removed = true) : goneIn refs (foldCase d.sec.chars, entryKey e) = true := by
  rw [goneIn, List.any_eq_true]
  exact ⟨d, hd, by simp [he, inSection, hrem]⟩

theorem line_for_cases (ha : ∀ d ∈ refs, Ahead l ((c, raw)::rest) d)
    (hc : leavingIn refs c = false) :
    (lineFor refs l raw = raw ∧ ∀ d ∈ refs, d.replaceLine ≠ some l) ∨
    ∃ d e v, d ∈ refs ∧ d.ent = some e ∧ d.replaceLine = some l ∧ foldCase d.sec.chars = c ∧
      lineItem raw = .binding (entryKey e) v ∧ lineFor refs l raw = replacementLine raw d e := by
  cases hf : refs.find? (fun d => d.replaceLine = some l) with
  | none =>
    refine Or.inl ⟨by rw [lineFor, hf], fun d hd => ?_⟩
    simpa using List.find?_eq_none.mp hf d hd
  | some d =>
    have hd := List.mem_of_find?_eq_some hf
    have hl : d.replaceLine = some l := by simpa using List.find?_some hf
    obtain ⟨hsec, ⟨he, -⟩ | ⟨e, v, he, hi⟩⟩ := claims_some ((ahead_replace (ha d hd)).mp hl).1
    · rw [← hsec, leaving_of_header hd he] at hc
      cases hc
    · exact Or.inr ⟨d, e, v, hd, he, hl, hsec, hi, by rw [lineFor, hf]; simp [he]⟩

theorem line_stays {b : Bool} (hnb : (classifyLine raw).nonblank = true)
    (hdrop : dropsAt refs (c, raw) = false)
    (hb : b = true → dropsAt refs (c, raw) = true ∨ (classifyLine raw).nonblank = false) :
    b = false := by
  rw [hdrop, hnb] at hb
  simpa using hb

theorem block_leaving (ha : ∀ d ∈ refs, Ahead l ((c, raw)::rest) d) (hraw : PlainLine raw)
    (hc : leavingIn refs c = true) {b : Bool} (hb : dropsAt refs (c, raw) = true → b = true)
    (y : Item Bytes Bytes Bytes) (hy : y ∈ if b then [] else unitItems (lineFor refs l raw)) :
    y = .inert := by
  cases b with
  | true => simp at hy
  | false =>
    have hi : lineItem raw = .inert := by
      by_contra hi
      have hnb := line_nonblank hraw hi
      cases hb (by simp [dropsAt, hc, hnb])
    have hno : refs.find? (fun d => d.replaceLine = some l) = none := by
      refine List.find?_eq_none.mpr fun d hd hl => ?_
      have hcl := ((ahead_replace (ha d hd)).mp (by simpa using hl)).1
      simp [claims, hi] at hcl
    have hline : lineFor refs l raw = raw := by rw [lineFor, hno]
    simpa [hline, unit_line hraw.no_newline, hi] using hy

theorem block_kind (h : Plan xs refs) (ha : ∀ d ∈ refs, Ahead l ((c, raw)::rest) d)
    (hraw : PlainLine raw) {b : Bool} (hb : dropsAt refs (c, raw) = true → b = true)
    (hb' : b = true → dropsAt refs (c, raw) = true ∨ (classifyLine raw).nonblank = false) :
    Block refs l c raw ((blockLines refs l raw b).flatMap unitItems) := by
  have hitems : (blockLines refs l raw b).flatMap unitItems =
      (if b then [] else unitItems (lineFor refs l raw)) ++ entryItems (appendedAt refs l) := by
    rw [blockLines, List.flatMap_append, List.flatMap_map]
    cases b <;> simp [entryItems]
  have hunit := unit_line hraw.no_newline
  rw [hitems]
  cases hc : leavingIn refs c with
  | true =>
    rw [appended_leaving h ha hc, entryItems, List.flatMap_nil, List.append_nil]
    exact .silent hc (block_leaving ha hraw hc hb)
  | false =>
    cases hi : lineItem raw with
    | inert =>
      cases b with
      | true => exact .blank hc hi
      | false =>
        rcases line_for_cases ha hc with ⟨hline, hkeep⟩ | ⟨d, e, v, -, -, -, -, hbind, -⟩
        · have hblock : Block refs l c raw _ := .kept hc hkeep (by simp [hi])
          simpa [hline, hunit] using hblock
        · rw [hi] at hbind
          cases hbind
    | header s =>
      have hnb := line_nonblank hraw (by simp [hi])
      have hb0 : b = false := line_stays hnb (by simp [dropsAt, hc, hi]) hb'
      rcases line_for_cases ha hc with ⟨hline, hkeep⟩ | ⟨d, e, v, -, -, -, -, hbind, -⟩
      · have hblock : Block refs l c raw _ := .kept hc hkeep (by simp [hi])
        simpa [hline, hunit, hb0] using hblock
      · rw [hi] at hbind
        cases hbind
    | binding k v =>
      have hnb := line_nonblank hraw (by simp [hi])
      cases hg : goneIn refs (c, k) with
      | true =>
        have hb1 : b = true := hb (by simp [dropsAt, hi, hg])
        rw [hb1]
        exact .dropped hc hi hg
      | false =>
        have hb0 : b = false := line_stays hnb (by simp [dropsAt, hc, hi, hg]) hb'
        rcases line_for_cases ha hc with ⟨hline, hkeep⟩ | ⟨d, e, v', hd, he, hl, hsec, hbind, hline⟩
        · have hblock : Block refs l c raw _ := .kept hc hkeep fun k' v' hbind => by
            rw [hi] at hbind
            rw [← (Item.binding.inj hbind).1, hg]
          simpa [hline, hunit, hb0] using hblock
        · have hk : k = entryKey e := by
            rw [hi] at hbind
            exact (Item.binding.inj hbind).1
          have hrem : e.removed = false := by
            by_contra hr
            have hgone := gone_of_removed hd he (by simpa using hr)
            rw [hsec, ← hk, hg] at hgone
            cases hgone
          obtain ⟨hend, hcom⟩ := ahead_cut (ha d hd) (by simp [he]) hl
          have hrep := replaced (d := d) hraw hbind hend hcom (h.key_text d hd e he hrem)
            (h.contained d hd e he hrem)
          have hblock := Block.replaced hc hbind hd he hrem hsec hl hrep.speaks hrep.value
          simpa [hline, hb0] using hblock

end Blocks

section BlockValues

variable {xs rest : List (Bytes × Bytes)} {refs : List DirtyRef} {l : ℕ} {cur cur' raw : Bytes}
  {ys : List (Item Bytes Bytes Bytes)}

/-- Below the header of a section that leaves, the written text is still in
the section before it; anywhere else the two agree. -/
def Synced (refs : List DirtyRef) (cur cur' : Bytes) : Prop :=
  cur' = cur ∨ leavingIn refs cur = true

theorem synced_end (hs : Synced refs cur cur') (x : Item Bytes Bytes Bytes)
    (hc : leavingIn refs (endSection cur [x]) = false) :
    endSection cur' [x] = endSection cur [x] := by
  have hsame : leavingIn refs cur = false → cur' = cur := fun hf => by
    rcases hs with h | h
    · exact h
    · rw [hf] at h
      cases h
  cases x with
  | inert => exact hsame hc
  | header s => rfl
  | binding k v => exact hsame hc

theorem synced_values (hs : Synced refs cur cur') (x : Item Bytes Bytes Bytes)
    (hc : leavingIn refs (endSection cur [x]) = false) (q : Place) :
    valuesAt q cur' [x] = valuesAt q cur [x] := by
  have he := synced_end hs x hc
  cases x with
  | inert => rfl
  | header s => rfl
  | binding k v =>
    have he : cur' = cur := he
    rw [he]

theorem synced_cursor (hs : Synced refs cur cur')
    (hc : leavingIn refs (endSection cur [lineItem raw]) = false)
    (hh : isHeader (lineItem raw) = false) :
    endSection cur [lineItem raw] = cur ∧ cur' = cur := by
  have he := synced_end hs (lineItem raw) hc
  cases hi : lineItem raw with
  | inert =>
    rw [hi] at he
    exact ⟨rfl, he⟩
  | header s =>
    rw [hi] at hh
    cases hh
  | binding k v =>
    rw [hi] at he
    exact ⟨rfl, he⟩

theorem values_binding (q : Place) (c k v : Bytes) :
    valuesAt q c [Item.binding (S := Bytes) k v] = if (c, k) = q then [v] else [] := rfl

theorem same_ref (h : Plan xs refs) {d d' : DirtyRef} (hd : d ∈ refs) (hd' : d' ∈ refs)
    (hn : refName d = refName d') : d = d' := List.inj_on_of_nodup_map h.distinct hd hd' hn

theorem live_stays (h : Plan xs refs) {d : DirtyRef} (hd : d ∈ refs) {e : ConfigEntry}
    (he : d.ent = some e) (hrem : e.removed = false) :
    leavingIn refs (foldCase d.sec.chars) = false ∧
      goneIn refs (foldCase d.sec.chars, entryKey e) = false := by
  constructor
  · by_contra hl
    rw [h.leaving_dead d hd e he (by simpa using hl)] at hrem
    cases hrem
  · by_contra hg
    have hg : goneIn refs (foldCase d.sec.chars, entryKey e) = true := by simpa using hg
    rw [goneIn, List.any_eq_true] at hg
    obtain ⟨d', hd', hp⟩ := hg
    rw [Bool.and_eq_true, inSection, decide_eq_true_eq] at hp
    obtain ⟨hsec, hany⟩ := hp
    cases he' : d'.ent with
    | none =>
      rw [he'] at hany
      cases hany
    | some e' =>
      rw [he', Option.any_some, Bool.and_eq_true, decide_eq_true_eq] at hany
      have hsame : d' = d := same_ref h hd' hd (by
        rw [refName, refName, he, he', hsec, Option.map_some, Option.map_some, hany.2])
      rw [hsame, he, Option.some.injEq] at he'
      rw [← he', hrem] at hany
      cases hany.1

variable (h : Plan xs refs) (hs : Synced refs cur cur')

include h hs

theorem block_end (ha : ∀ d ∈ refs, Ahead l ((endSection cur [lineItem raw], raw)::rest) d)
    (hb : Block refs l (endSection cur [lineItem raw]) raw ys) :
    Synced refs (endSection cur [lineItem raw]) (endSection cur' ys) := by
  have hend := entries_end (appended_solid h ha)
  cases hb with
  | silent hc hy => exact Or.inr hc
  | kept hc hkeep hgone =>
    refine Or.inl ?_
    rw [end_cons, hend]
    exact synced_end hs _ hc
  | blank hc hi =>
    refine Or.inl ?_
    rw [hend, ← synced_end hs _ hc, hi]
    rfl
  | dropped hc hi hg =>
    refine Or.inl ?_
    rw [hend, ← synced_end hs _ hc, hi]
    rfl
  | replaced hc hi hd he hrem hsec hl hy hv =>
    refine Or.inl ?_
    rw [end_section_append, mild_end hy, hend, ← synced_end hs _ hc, hi]
    rfl

omit hs in
theorem appended_other {c : Bytes} {q : Place} (ha : ∀ d ∈ refs, Ahead l ((c, raw)::rest) d)
    (hfree : ∀ d ∈ refs, ∀ e ∈ d.ent, e.removed = false →
      (foldCase d.sec.chars, entryKey e) ≠ q) :
    valuesAt q c (entryItems (appendedAt refs l)) = [] := by
  refine entries_other (appended_solid h ha) fun e he => ?_
  obtain ⟨d, hd, hde, hrem, hsec, -⟩ := (appended_iff h ha e).mp he
  rw [← hsec]
  exact hfree d hd e hde hrem

theorem block_frame {q : Place}
    (ha : ∀ d ∈ refs, Ahead l ((endSection cur [lineItem raw], raw)::rest) d)
    (hb : Block refs l (endSection cur [lineItem raw]) raw ys)
    (hleave : leavingIn refs q.1 = false) (hgone : goneIn refs q = false)
    (hfree : ∀ d ∈ refs, ∀ e ∈ d.ent, e.removed = false →
      (foldCase d.sec.chars, entryKey e) ≠ q) :
    valuesAt q cur' ys = valuesAt q cur [lineItem raw] := by
  have hother := appended_other h ha hfree
  cases hb with
  | silent hc hy =>
    rw [inert_values hy]
    cases hi : lineItem raw with
    | inert => rfl
    | header s => rfl
    | binding k v =>
      rw [hi] at hc
      have hne : (cur, k) ≠ q := by
        rintro rfl
        exact absurd (hc.symm.trans hleave) (by simp)
      rw [values_binding, if_neg hne]
  | kept hc hkeep hkept =>
    rw [values_cons, synced_end hs _ hc, hother, List.append_nil]
    exact synced_values hs _ hc q
  | blank hc hi =>
    obtain ⟨hcur, rfl⟩ := synced_cursor hs hc (by rw [hi]; rfl)
    rw [hcur] at hother
    rw [hother, hi]
    rfl
  | @dropped hc k v hi hg =>
    obtain ⟨hcur, rfl⟩ := synced_cursor hs hc (by rw [hi]; rfl)
    rw [hcur] at hother hg
    have hne : (cur', k) ≠ q := by
      rintro rfl
      exact absurd (hg.symm.trans hgone) (by simp)
    rw [hother, hi, values_binding, if_neg hne]
  | @replaced hc v d e hi hd he hrem hsec hl y hy hv =>
    obtain ⟨hcur, rfl⟩ := synced_cursor hs hc (by rw [hi]; rfl)
    rw [hcur] at hother hsec
    have hne : (cur', entryKey e) ≠ q := by
      rw [← hsec]
      exact hfree d hd e he hrem
    rw [values_append, mild_end hy, hother, mild_other hy hne, hi, values_binding, if_neg hne]
    rfl

theorem block_erased {q : Place}
    (ha : ∀ d ∈ refs, Ahead l ((endSection cur [lineItem raw], raw)::rest) d)
    (hb : Block refs l (endSection cur [lineItem raw]) raw ys)
    (hq : leavingIn refs q.1 = true ∨ goneIn refs q = true) : valuesAt q cur' ys = [] := by
  have hfree : ∀ d ∈ refs, ∀ e ∈ d.ent, e.removed = false →
      (foldCase d.sec.chars, entryKey e) ≠ q := by
    rintro d hd e he hrem rfl
    obtain ⟨h1, h2⟩ := live_stays h hd he hrem
    rw [h1, h2] at hq
    simp at hq
  have hother := appended_other h ha hfree
  cases hb with
  | silent hc hy => exact inert_values hy q cur'
  | kept hc hkeep hkept =>
    rw [values_cons, synced_end hs _ hc, hother, List.append_nil, synced_values hs _ hc]
    cases hi : lineItem raw with
    | inert => rfl
    | header s => rfl
    | binding k v =>
      have hg := hkept k v hi
      rw [hi] at hc hg
      have hne : (cur, k) ≠ q := by
        rintro rfl
        rcases hq with hq | hq
        · exact absurd (hq.symm.trans hc) (by simp)
        · exact absurd (hq.symm.trans hg) (by simp)
      rw [values_binding, if_neg hne]
  | blank hc hi =>
    obtain ⟨hcur, rfl⟩ := synced_cursor hs hc (by rw [hi]; rfl)
    rwa [hcur] at hother
  | dropped hc hi hg =>
    obtain ⟨hcur, rfl⟩ := synced_cursor hs hc (by rw [hi]; rfl)
    rwa [hcur] at hother
  | @replaced hc v d e hi hd he hrem hsec hl y hy hv =>
    obtain ⟨hcur, rfl⟩ := synced_cursor hs hc (by rw [hi]; rfl)
    rw [hcur] at hother hsec
    have hne : (cur', entryKey e) ≠ q := by
      rw [← hsec]
      exact hfree d hd e he hrem
    rw [values_append, mild_end hy, hother, mild_other hy hne]
    rfl

omit hs in
theorem appended_values {c : Bytes} (ha : ∀ d ∈ refs, Ahead l ((c, raw)::rest) d) {d : DirtyRef}
    (hd : d ∈ refs) {e : ConfigEntry} (he : d.ent = some e) (hrem : e.removed = false)
    (hr : Readable e) :
    valuesAt (foldCase d.sec.chars, entryKey e) c (entryItems (appendedAt refs l)) =
      if d.replaceLine = none ∧ d.appendLine = some l then [e.value.chars] else [] := by
  have htext := appended_solid h ha
  by_cases hdue : d.replaceLine = none ∧ d.appendLine = some l
  · have hv := ((ahead_append (ha d hd)).mp hdue.2).1
    simp only [visibleIn, inSection, Bool.and_eq_true, decide_eq_true_eq] at hv
    have hmem : e ∈ appendedAt refs l :=
      (appended_iff h ha e).mpr ⟨d, hd, he, hrem, hv.1, hdue.1, hdue.2⟩
    rw [if_pos hdue, hv.1]
    exact entries_own htext (appended_keys h ha) hmem hr c
  · rw [if_neg hdue]
    refine entries_other htext fun x hx heq => hdue ?_
    obtain ⟨r, hrm, hre, -, hsec, hr1, hr2⟩ := (appended_iff h ha x).mp hx
    have hname : refName r = refName d := by
      rw [refName, refName, hre, he, Option.map_some, Option.map_some, hsec]
      exact congrArg (fun p : Place => (p.1, some p.2)) heq
    rw [← same_ref h hrm hd hname]
    exact ⟨hr1, hr2⟩

omit h hs in
/-- The line a set key replaces is a line of that key in its section. -/
theorem replaces_own {c : Bytes} {d : DirtyRef} {e : ConfigEntry}
    (ha : Ahead l ((c, raw)::rest) d) (he : d.ent = some e) (hl : d.replaceLine = some l) :
    foldCase d.sec.chars = c ∧ ∃ v, lineItem raw = .binding (entryKey e) v := by
  obtain ⟨hsec, ⟨hn, -⟩ | ⟨x, v, hx, hbind⟩⟩ := claims_some ((ahead_replace ha).mp hl).1
  · rw [he] at hn
    cases hn
  · rw [he, Option.some.injEq] at hx
    exact ⟨hsec, v, hx ▸ hbind⟩

omit h hs in
/-- Under the header of a section that leaves nothing is written for a set key. -/
theorem silent_live {d : DirtyRef} {e : ConfigEntry}
    (ha : Ahead l ((endSection cur [lineItem raw], raw)::rest) d) (he : d.ent = some e)
    (hsec : foldCase d.sec.chars ≠ endSection cur [lineItem raw]) (hy : ∀ x ∈ ys, x = .inert) :
    valuesAt (foldCase d.sec.chars, entryKey e) cur' ys =
      (if d.replaceLine = some l then [e.value.chars]
        else valuesAt (foldCase d.sec.chars, entryKey e) cur [lineItem raw]) ++
      if d.replaceLine = none ∧ d.appendLine = some l then [e.value.chars] else [] := by
  have h1 : ¬d.replaceLine = some l := fun hl => hsec (replaces_own ha he hl).1
  have h2 : ¬(d.replaceLine = none ∧ d.appendLine = some l) := fun hl => by
    have hv := ((ahead_append ha).mp hl.2).1
    simp only [visibleIn, inSection, Bool.and_eq_true, decide_eq_true_eq] at hv
    exact hsec hv.1
  rw [inert_values hy, if_neg h1, if_neg h2]
  cases hi : lineItem raw with
  | inert => rfl
  | header s => rfl
  | binding k v =>
    rw [hi] at hsec
    have hne : (cur, k) ≠ (foldCase d.sec.chars, entryKey e) := fun hq =>
      hsec (congrArg Prod.fst hq).symm
    rw [values_binding, if_neg hne]
    rfl

/-- A set key's line is the new value's; every other line keeps the values it
had, and the value is added where it was due. -/
theorem block_live {d : DirtyRef} {e : ConfigEntry}
    (ha : ∀ d ∈ refs, Ahead l ((endSection cur [lineItem raw], raw)::rest) d)
    (hb : Block refs l (endSection cur [lineItem raw]) raw ys)
    (hd : d ∈ refs) (he : d.ent = some e) (hrem : e.removed = false) (hr : Readable e) :
    valuesAt (foldCase d.sec.chars, entryKey e) cur' ys =
      (if d.replaceLine = some l then [e.value.chars]
        else valuesAt (foldCase d.sec.chars, entryKey e) cur [lineItem raw]) ++
      if d.replaceLine = none ∧ d.appendLine = some l then [e.value.chars] else [] := by
  obtain ⟨hleave, hgone⟩ := live_stays h hd he hrem
  have happ := appended_values h ha hd he hrem hr
  -- the line of another key is not the one that is replaced
  have hother : ∀ k v, lineItem raw = .binding k v →
      (endSection cur [lineItem raw], k) ≠ (foldCase d.sec.chars, entryKey e) →
      ¬d.replaceLine = some l := by
    intro k v hi hne hl
    obtain ⟨hsec, v', hbind⟩ := replaces_own (ha d hd) he hl
    rw [hi] at hbind
    exact hne (Prod.ext hsec.symm (Item.binding.inj hbind).1)
  cases hb with
  | silent hc hy =>
    refine silent_live (ha d hd) he (fun hsec => ?_) hy
    rw [← hsec, hleave] at hc
    cases hc
  | kept hc hkeep hkept =>
    rw [values_cons, synced_end hs _ hc, happ, if_neg (hkeep d hd), synced_values hs _ hc]
  | blank hc hi =>
    obtain ⟨hcur, rfl⟩ := synced_cursor hs hc (by rw [hi]; rfl)
    have h1 : ¬d.replaceLine = some l := fun hl => by
      obtain ⟨-, v, hbind⟩ := replaces_own (ha d hd) he hl
      rw [hi] at hbind
      cases hbind
    rw [hcur] at happ
    rw [happ, if_neg h1, hi]
    rfl
  | @dropped hc k v hi hg =>
    obtain ⟨hcur, rfl⟩ := synced_cursor hs hc (by rw [hi]; rfl)
    rw [hcur] at happ hg hother
    have hne : (cur', k) ≠ (foldCase d.sec.chars, entryKey e) := fun hq => by
      rw [hq, hgone] at hg
      cases hg
    rw [happ, if_neg (hother k v hi hne), hi, values_binding, if_neg hne]
    rfl
  | @replaced hc v d' e' hi hd' he' hrem' hsec' hl' y hy hv =>
    obtain ⟨hcur, rfl⟩ := synced_cursor hs hc (by rw [hi]; rfl)
    rw [hcur] at happ hsec' hother
    rw [values_append, mild_end hy, happ]
    by_cases hsame : d' = d
    · subst hsame
      rw [he, Option.some.injEq] at he'
      subst he'
      rw [if_pos hl', hv hr, hsec', values_binding, if_pos rfl]
    · have hne : (cur', entryKey e') ≠ (foldCase d.sec.chars, entryKey e) := fun hq => by
        refine hsame (same_ref h hd' hd ?_)
        rw [refName, refName, he, he', Option.map_some, Option.map_some, hsec']
        exact congrArg (fun p : Place => (p.1, some p.2)) hq
      rw [mild_other hy hne, if_neg (hother (entryKey e') v hi hne), hi, values_binding, if_neg hne]

end BlockValues

section Bodies

def marks (refs : List DirtyRef) (cur : Bytes) (raws : List Bytes) : List (Bytes × Bool) :=
  dropSeparators (raws.zip ((underSections cur raws).map (dropsAt refs)))

theorem marks_cons (refs : List DirtyRef) (cur raw : Bytes) (rest : List Bytes) :
    ∃ b, marks refs cur (raw::rest) =
        (raw, b)::marks refs (endSection cur [lineItem raw]) rest ∧
      (dropsAt refs (endSection cur [lineItem raw], raw) = true → b = true) ∧
      (b = true → dropsAt refs (endSection cur [lineItem raw], raw) = true ∨
        (classifyLine raw).nonblank = false) := by
  cases rest with
  | nil => exact ⟨_, rfl, id, Or.inl⟩
  | cons next rest =>
    refine ⟨_, rfl, fun h => by simp [h], fun h => ?_⟩
    simp only [Bool.or_eq_true, Bool.and_eq_true, Bool.not_eq_true'] at h
    rcases h with h | h
    · exact Or.inl h
    · exact Or.inr h.2

inductive Body (refs : List DirtyRef) : ℕ → Bytes → Bytes → List Bytes →
    List (Item Bytes Bytes Bytes) → Prop where
  | nil (l : ℕ) (cur cur' : Bytes) : Body refs l cur cur' [] []
  | cons {l : ℕ} {cur cur' raw : Bytes} {raws : List Bytes}
      {ys zs : List (Item Bytes Bytes Bytes)} (hs : Synced refs cur cur')
      (ha : ∀ d ∈ refs, Ahead l (underSections cur (raw::raws)) d)
      (hb : Block refs l (endSection cur [lineItem raw]) raw ys)
      (hrest : Body refs (l+1) (endSection cur [lineItem raw]) (endSection cur' ys) raws zs) :
      Body refs l cur cur' (raw::raws) (ys++zs)

variable {xs : List (Bytes × Bytes)} {refs : List DirtyRef} {l : ℕ} {cur cur' : Bytes}
  {raws : List Bytes} {zs : List (Item Bytes Bytes Bytes)}

theorem body_lines_body (h : Plan xs refs) (hraw : ∀ raw ∈ raws, PlainLine raw)
    (hs : Synced refs cur cur') (ha : ∀ d ∈ refs, Ahead l (underSections cur raws) d) :
    Body refs l cur cur' raws ((bodyLines refs l (marks refs cur raws)).flatMap unitItems) := by
  induction raws generalizing l cur cur' with
  | nil => exact .nil l cur cur'
  | cons raw raws ih =>
    obtain ⟨b, hm, hb, hb'⟩ := marks_cons refs cur raw raws
    have hblock := block_kind h ha (hraw raw (by simp)) hb hb'
    rw [hm, bodyLines, List.flatMap_append]
    exact .cons hs ha hblock (ih (fun r hr => hraw r (by simp [hr])) (block_end h hs ha hblock)
      fun d hd => ahead_step (ha d hd))

theorem body_frame (h : Plan xs refs) {q : Place} (hb : Body refs l cur cur' raws zs)
    (hleave : leavingIn refs q.1 = false) (hgone : goneIn refs q = false)
    (hfree : ∀ d ∈ refs, ∀ e ∈ d.ent, e.removed = false →
      (foldCase d.sec.chars, entryKey e) ≠ q) :
    valuesAt q cur' zs = valuesAt q cur (raws.map lineItem) := by
  induction hb with
  | nil => rfl
  | cons hs ha hb _ ih =>
    rw [values_append, ih, List.map_cons, values_cons, block_frame h hs ha hb hleave hgone hfree]

theorem body_erased (h : Plan xs refs) {q : Place} (hb : Body refs l cur cur' raws zs)
    (hq : leavingIn refs q.1 = true ∨ goneIn refs q = true) : valuesAt q cur' zs = [] := by
  induction hb with
  | nil => rfl
  | cons hs ha hb _ ih => rw [values_append, ih, block_erased h hs ha hb hq, List.append_nil]

theorem unclaimed_values {d : DirtyRef} {e : ConfigEntry} {raw : Bytes} (he : d.ent = some e)
    (hc : claims d (endSection cur [lineItem raw], raw) = false) :
    valuesAt (foldCase d.sec.chars, entryKey e) cur [lineItem raw] = [] := by
  cases hi : lineItem raw with
  | inert => rfl
  | header s => rfl
  | binding k v =>
    have hne : (cur, k) ≠ (foldCase d.sec.chars, entryKey e) := fun hq => by
      rw [(claims_binding he hi).mpr (by rw [hi]; exact hq)] at hc
      cases hc
    rw [values_binding, if_neg hne]

/-- Past the last line of its key, a set key is written at most once, after
the last visible line of its section. -/
theorem body_live_past (h : Plan xs refs) (hb : Body refs l cur cur' raws zs) {d : DirtyRef}
    {e : ConfigEntry} (hd : d ∈ refs) (he : d.ent = some e) (hrem : e.removed = false)
    (hr : Readable e) (hn : lastWhere (claims d) l (underSections cur raws) = none) :
    valuesAt (foldCase d.sec.chars, entryKey e) cur' zs =
      if d.replaceLine = none ∧ (lastWhere (visibleIn d) l (underSections cur raws)).isSome
      then [e.value.chars] else [] := by
  induction hb with
  | nil => simp [valuesAt, underSections, lastWhere]
  | @cons l cur cur' raw raws ys zs hs ha hb _ ih =>
    rw [underSections, lastWhere, Option.or_eq_none_iff] at hn
    have hc : claims d (endSection cur [lineItem raw], raw) = false := by
      by_contra hc
      rw [if_pos (by simpa using hc)] at hn
      cases hn.2
    have h1 : ¬d.replaceLine = some l := fun hl => by
      rw [((ahead_replace (ha d hd)).mp hl).1] at hc
      cases hc
    rw [values_append, block_live h hs ha hb hd he hrem hr, if_neg h1, unclaimed_values he hc,
      List.nil_append, ih hn.1, underSections, lastWhere]
    have happ := ahead_append (ha d hd)
    by_cases hrep : d.replaceLine = none
    · cases hv : lastWhere (visibleIn d) (l+1) (underSections (endSection cur [lineItem raw]) raws) with
      | some r =>
        have h2 : d.appendLine ≠ some l := fun ha' => by
          rw [(happ.mp ha').2] at hv
          cases hv
        simp [hrep, h2]
      | none =>
        by_cases hvis : visibleIn d (endSection cur [lineItem raw], raw) = true
        · have h2 : d.appendLine = some l := happ.mpr ⟨hvis, hv⟩
          simp [hrep, h2, hvis]
        · have h2 : d.appendLine ≠ some l := fun ha' => hvis (happ.mp ha').1
          simp [hrep, h2, hvis]
    · simp [hrep]

/-- Where a key has a line ahead, the last value written for it is the new one. -/
theorem body_live_ahead (h : Plan xs refs) (hb : Body refs l cur cur' raws zs) {d : DirtyRef}
    {e : ConfigEntry} (hd : d ∈ refs) (he : d.ent = some e) (hrem : e.removed = false)
    (hr : Readable e) (hn : (lastWhere (claims d) l (underSections cur raws)).isSome) :
    (valuesAt (foldCase d.sec.chars, entryKey e) cur' zs).getLast? = some e.value.chars := by
  induction hb with
  | nil => simp [underSections, lastWhere] at hn
  | @cons l cur cur' raw raws ys zs hs ha hb hrest ih =>
    rw [values_append]
    cases hlast : lastWhere (claims d) (l+1) (underSections (endSection cur [lineItem raw]) raws) with
    | some r =>
      rw [hlast] at ih
      rw [List.getLast?_append, ih rfl]
      rfl
    | none =>
      rw [underSections, lastWhere, hlast, Option.none_or] at hn
      have hc : claims d (endSection cur [lineItem raw], raw) = true := by
        by_contra hc
        rw [if_neg hc] at hn
        cases hn
      have hl : d.replaceLine = some l := (ahead_replace (ha d hd)).mpr ⟨hc, hlast⟩
      rw [block_live h hs ha hb hd he hrem hr,
        body_live_past h hrest hd he hrem hr hlast]
      simp [hl]

end Bodies

end RaptorCommon.ConfigRevision
