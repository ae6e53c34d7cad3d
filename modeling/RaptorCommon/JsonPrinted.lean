import RaptorCommon.DecimalText
import RaptorCommon.JsonPrinter

/-!
# What the printer leaves in memory

A print without white space succeeds exactly where the text, its terminator
and one more byte fit, the nesting is within the limit and no number is longer
than its scratch buffer. It then leaves the text and a terminator in front of
memory it did not touch. In no case does it store outside the memory.
-/

set_option autoImplicit false

namespace RaptorCommon.JsonPrinted
open RaptorCommon.CText RaptorCommon.ConfigStore RaptorCommon.GuardedRun RaptorCommon.Json
open RaptorCommon.BoundedOutput RaptorCommon.JsonPrinter RaptorCommon.DecimalText

section Emitting

/-- A run from a buffer that appends a text, with more stored behind it, where
a condition and its room are there, and is refused elsewhere. -/
structure Emits (t : Attempt PrintBuffer) (p : PrintBuffer) (a z : Bytes) (need depth : ℕ)
    (c : Prop) : Prop where
  emitted : c → p.offset+need ≤ p.cells.length →
    t = .ok ⟨overwrite p.cells p.offset (a ++ z), p.offset+a.length, depth⟩
  refused : ¬(c ∧ p.offset+need ≤ p.cells.length) → t = refuse

/-- The same where the offset stays in front of the last part of the text. -/
structure Prints (t : Attempt PrintBuffer) (p : PrintBuffer) (a : Bytes) (depth : ℕ)
    (c : Prop) : Prop where
  printed : c → p.offset+a.length+2 ≤ p.cells.length → ∃ k ≤ a.length, 0 ∉ a.drop k ∧
    t = .ok ⟨overwrite p.cells p.offset (a ++ [0]), p.offset+k, depth⟩
  refused : ¬(c ∧ p.offset+a.length+2 ≤ p.cells.length) → t = refuse

variable {t : Attempt PrintBuffer} {p : PrintBuffer} {a b z w : Bytes} {n m d e : ℕ} {c c' : Prop}
  {f : PrintBuffer → Attempt PrintBuffer}

/-- Two appends in a row. The second one covers what the first stored behind
its text. -/
theorem Emits.bind (ht : Emits t p a z n d c) (hn : n ≤ a.length+m) (hz : z.length ≤ b.length+w.length)
    (hroom : a.length+z.length ≤ n) (hroom' : b.length+w.length ≤ m)
    (hf : ∀ q, q.cells.length = p.cells.length → q.offset = p.offset+a.length → q.depth = d →
      Emits (f q) q b w m e c') : Emits (t >>= f) p (a ++ b) w (a.length+m) e (c ∧ c') := by
  have hcells (h : p.offset+n ≤ p.cells.length) :
      (overwrite p.cells p.offset (a ++ z)).length = p.cells.length :=
    overwrite_length (by rw [List.length_append]; omega)
  constructor
  · intro hc hle
    have hfirst : p.offset+n ≤ p.cells.length := by omega
    have hq := hf ⟨overwrite p.cells p.offset (a ++ z), p.offset+a.length, d⟩ (hcells hfirst) rfl rfl
    rw [ht.emitted hc.1 hfirst, ok_bind, hq.emitted hc.2 (by rw [hcells hfirst]; dsimp only; omega)]
    dsimp only
    rw [overwrite_overwrite (by rw [List.length_append]; omega) (by rw [List.length_append]; exact hz),
      List.append_assoc, List.length_append, Nat.add_assoc]
  · intro hnot
    by_cases hfirst : c ∧ p.offset+n ≤ p.cells.length
    · have hq := hf ⟨overwrite p.cells p.offset (a ++ z), p.offset+a.length, d⟩ (hcells hfirst.2)
        rfl rfl
      rw [ht.emitted hfirst.1 hfirst.2, ok_bind]
      refine hq.refused fun hboth => hnot ⟨⟨hfirst.1, hboth.1⟩, ?_⟩
      have hle := hboth.2
      rw [hcells hfirst.2] at hle
      dsimp only at hle
      omega
    · rw [ht.refused hfirst, refuse_bind]

theorem Prints.update (ht : Prints t p a d c) :
    Emits (t >>= updateOffset) p a [0] (a.length+2) d c := by
  constructor
  · intro hc hle
    obtain ⟨k, hk, hnul, ht'⟩ := ht.printed hc (by omega)
    have hlen : (overwrite p.cells p.offset (a ++ [0])).length = p.cells.length :=
      overwrite_length (by rw [List.length_append, List.length_singleton]; omega)
    have hdrop : (overwrite p.cells p.offset (a ++ [0])).drop (p.offset+k) =
        a.drop k ++ 0::p.cells.drop (p.offset+(a ++ [0]).length) := by
      rw [overwrite_drop (by rw [List.length_append, List.length_singleton]; omega) (by omega),
        List.drop_append_of_le_length hk, List.append_assoc, List.singleton_append]
    have htext : ((overwrite p.cells p.offset (a ++ [0])).drop (p.offset+k)).takeWhile
        (fun c => decide (c ≠ 0)) = a.drop k := by
      rw [hdrop]
      exact at_cut hnul _
    rw [ht', ok_bind, updateOffset]
    dsimp only
    rw [htext, List.length_drop, hlen, if_pos (by omega), show p.offset+k+(a.length-k) =
      p.offset+a.length by omega]
    rfl
  · intro hnot
    rw [ht.refused fun h => hnot ⟨h.1, by omega⟩, refuse_bind]

theorem Emits.congr (ht : Emits t p a z n d c) (ha : a = b) (hn : n = m) (hc : c ↔ c') :
    Emits t p b z m d c' := by
  subst ha
  subst hn
  exact ⟨fun h => ht.emitted (hc.mpr h), fun h => ht.refused fun h' => h ⟨hc.mp h'.1, h'.2⟩⟩

end Emitting

section Stores

variable {p : PrintBuffer} {bytes : Bytes}

theorem ensure_room {n : ℕ} (hsize : p.cells.length ≤ intMax)
    (h : p.offset+n+1 ≤ p.cells.length) : ensure n p = .ok () := by
  rw [ensure, if_neg (by omega), if_neg (by omega), if_pos (by omega)]
  rfl

theorem ensure_full {n : ℕ} (h : ¬p.offset+n+1 ≤ p.cells.length) : ensure n p = refuse := by
  rw [ensure]
  split
  · rfl
  split
  · rfl
  · rw [if_neg (by omega)]

theorem write_room {start : ℕ} (h : start+bytes.length ≤ p.cells.length) :
    writeAt start bytes p = .ok { p with cells := overwrite p.cells start bytes } := if_pos h

def stored (n : ℕ) (a z : Bytes) (g : ℕ → ℕ) (p : PrintBuffer) : Attempt PrintBuffer := do
  ensure n p
  let q ← writeAt p.offset (a ++ z) p
  pure ⟨q.cells, q.offset+a.length, g q.depth⟩

theorem stored_emits {n : ℕ} {a z : Bytes} (g : ℕ → ℕ) (hsize : p.cells.length ≤ intMax)
    (hn : a.length+z.length ≤ n+1) :
    Emits (stored n a z g p) p a z (n+1) (g p.depth) True := by
  unfold stored
  constructor
  · intro _ hle
    rw [ensure_room hsize (by omega), ok_bind, write_room (by rw [List.length_append]; omega), ok_bind]
    rfl
  · intro hnot
    rw [ensure_full fun h => hnot ⟨trivial, by omega⟩, refuse_bind]

end Stores

section Tokens

variable {D : Type} [Doubles D] {p : PrintBuffer}

theorem word_prints {word : Bytes} (hsize : p.cells.length ≤ intMax) (hword : 0 ∉ word) :
    Prints (printWord word p) p word p.depth True := by
  constructor
  · intro _ hle
    refine ⟨0, Nat.zero_le _, hword, ?_⟩
    rw [printWord, ensure_room hsize (by omega), ok_bind,
      write_room (by rw [List.length_append, List.length_singleton]; omega)]
    rfl
  · intro hnot
    rw [printWord, ensure_full fun h => hnot ⟨trivial, by omega⟩, refuse_bind]

theorem number_prints {d : D} (hsize : p.cells.length ≤ intMax) :
    Prints (printNumber d p) p (numberText d) p.depth ((numberText d).length ≤ 25) := by
  constructor
  · intro hshort hle
    refine ⟨(numberText d).length, le_rfl, by simp, ?_⟩
    rw [printNumber, if_neg (by omega), ensure_room hsize (by omega), ok_bind,
      write_room (by rw [List.length_append, List.length_singleton]; omega), ok_bind]
    rfl
  · intro hnot
    rw [printNumber]
    split
    · rfl
    next hshort => rw [ensure_full fun h => hnot ⟨Nat.le_of_not_lt hshort, by omega⟩, refuse_bind]

theorem escape_length (c : Byte) : (escapeByte c).length = escapeCharacters c+1 := by
  revert c
  exact forall_byte (by decide +kernel)

theorem escape_unchanged (c : Byte) (h : escapeCharacters c = 0) : escapeByte c = [c] := by
  revert c
  exact forall_byte (by decide +kernel)

theorem escaped_length (s : Bytes) :
    (escaped s).length = s.length+(s.map escapeCharacters).sum := by
  induction s with
  | nil => rfl
  | cons c s ih =>
    have hsplit : escaped (c::s) = escapeByte c ++ escaped s := List.flatMap_cons
    rw [hsplit, List.length_append, ih, escape_length, List.length_cons, List.map_cons, List.sum_cons]
    omega

theorem escaped_unchanged (s : Bytes) (h : (s.map escapeCharacters).sum = 0) : escaped s = s := by
  induction s with
  | nil => rfl
  | cons c s ih =>
    rw [List.map_cons, List.sum_cons] at h
    have hsplit : escaped (c::s) = escapeByte c ++ escaped s := List.flatMap_cons
    rw [hsplit, escape_unchanged c (by omega), ih (by omega), List.singleton_append]

theorem stored_tail (c : Byte) :
    ∃ z : Bytes, escapeStored c = escapeByte c ++ z ∧ z.length ≤ 1 := by
  unfold escapeStored
  split
  · exact ⟨[0], rfl, le_rfl⟩
  · exact ⟨[], (List.append_nil _).symm, Nat.zero_le _⟩

/-- The copy and the closing quote; what a code point stored behind itself is
overwritten. -/
theorem copy_escaped (s : Bytes) (start : ℕ) (p : PrintBuffer)
    (h : start+(escaped s).length+2 ≤ p.cells.length) :
    (copyEscaped s start p >>= fun q => writeAt (start+(escaped s).length) [quote, 0] q) =
      .ok { p with cells := overwrite p.cells start (escaped s ++ [quote, 0]) } := by
  induction s generalizing start p with
  | nil =>
    rw [copyEscaped]
    exact write_room h
  | cons c s ih =>
    have hsplit : escaped (c::s) = escapeByte c ++ escaped s := List.flatMap_cons
    obtain ⟨z, hz, hzlen⟩ := stored_tail c
    rw [hsplit, List.length_append] at h
    have hstored : start+(escapeStored c).length ≤ p.cells.length := by
      rw [hz, List.length_append]
      omega
    rw [copyEscaped, write_room hstored, ok_bind, hsplit, List.length_append, ← Nat.add_assoc,
      ih _ _ (by rw [overwrite_length hstored]; omega)]
    dsimp only
    have htwo : (escaped s ++ [quote, 0]).length = (escaped s).length+2 := List.length_append
    rw [hz, overwrite_overwrite (by omega) (by omega), List.append_assoc]

theorem string_prints (input : CString) (hsize : p.cells.length ≤ intMax) :
    Prints (printStringPtr input p) p (stringText input.chars) p.depth True := by
  have hlen := escaped_length input.chars
  have htext : (stringText input.chars).length = (escaped input.chars).length+2 := by
    simp [stringText]
  constructor
  · intro _ hle
    refine ⟨0, Nat.zero_le _, string_nul_free input, ?_⟩
    rw [htext] at hle
    rw [printStringPtr, ensure_room hsize (by omega), ok_bind]
    split
    next hzero =>
      rw [write_room (by simp; omega), stringText, escaped_unchanged _ hzero, List.append_assoc]
      rfl
    · rw [write_room (by simp; omega), ok_bind]
      have hone : (overwrite p.cells p.offset [quote]).length = p.cells.length :=
        overwrite_length (by simp; omega)
      have hcopy := copy_escaped input.chars (p.offset+1)
        ⟨overwrite p.cells p.offset [quote], p.offset, p.depth⟩ (by rw [hone]; omega)
      rw [show p.offset+1+(escaped input.chars).length = p.offset+(input.chars.length+
        (input.chars.map escapeCharacters).sum)+1 by omega] at hcopy
      refine hcopy.trans ?_
      have hover : overwrite (overwrite p.cells p.offset ([quote] ++ [])) (p.offset+[quote].length)
          (escaped input.chars ++ [quote, 0]) =
          overwrite p.cells p.offset ([quote] ++ (escaped input.chars ++ [quote, 0])) :=
        overwrite_overwrite (by simp; omega) (by simp)
      rw [List.append_nil, List.length_singleton] at hover
      dsimp only
      rw [hover, stringText]
      simp
  · intro hnot
    rw [htext] at hnot
    rw [printStringPtr, ensure_full fun h => hnot ⟨trivial, by omega⟩, refuse_bind]

end Tokens

section Values

variable {D : Type} [Doubles D]

mutual

def Value.Short : Value D → Prop
  | .number d => (numberText d).length ≤ 25
  | .array items => Items.Short items
  | .object members => Members.Short members
  | _ => True

def Items.Short : Items D → Prop
  | .nil => True
  | .cons v rest => Value.Short v ∧ Items.Short rest

def Members.Short : Members D → Prop
  | .nil => True
  | .cons _ v rest => Value.Short v ∧ Members.Short rest

end

def ValuePrints (v : Value D) : Prop := ∀ p : PrintBuffer, p.cells.length ≤ intMax →
  p.depth ≤ nestingLimit →
  Prints (printValue v p) p v.text p.depth (p.depth+v.nesting ≤ nestingLimit ∧ Value.Short v)

def ItemsPrint (items : Items D) : Prop := ∀ p : PrintBuffer, p.cells.length ≤ intMax →
  p.depth ≤ nestingLimit → items ≠ .nil →
  Emits (printItems items p) p items.text [0] (items.text.length+2) p.depth
    (p.depth+items.nesting ≤ nestingLimit ∧ Items.Short items)

def MembersPrint (members : Members D) : Prop := ∀ p : PrintBuffer, p.cells.length ≤ intMax →
  p.depth ≤ nestingLimit → members ≠ .nil →
  Emits (printMembers members p) p members.text [0] (members.text.length+2) p.depth
    (p.depth+members.nesting ≤ nestingLimit ∧ Members.Short members)

theorem Prints.congr {t : Attempt PrintBuffer} {p : PrintBuffer} {a b : Bytes} {d e : ℕ}
    {c c' : Prop} (ht : Prints t p a d c) (ha : a = b) (hd : d = e) (hc : c ↔ c') :
    Prints t p b e c' := by
  subst ha
  subst hd
  exact ⟨fun h => ht.printed (hc.mpr h), fun h => ht.refused fun h' => h ⟨hc.mp h'.1, h'.2⟩⟩

theorem Emits.close {t : Attempt PrintBuffer} {p : PrintBuffer} {a z : Bytes} {n d : ℕ} {c : Prop}
    (e : Byte) (he : e ≠ 0) (hsize : p.cells.length ≤ intMax) (ht : Emits t p a z n d c)
    (hn : n ≤ a.length+3) (hz : z.length ≤ 2) (hroom : a.length+z.length ≤ n) :
    Prints (t >>= fun q => do
      ensure 2 q
      let q ← writeAt q.offset [e, 0] q
      pure { q with depth := q.depth-1 }) p (a ++ [e]) (d-1) c := by
  have htwo : (a ++ [e]).length = a.length+1 := List.length_append
  constructor
  · intro hc hle
    have hlen : (overwrite p.cells p.offset (a ++ z)).length = p.cells.length :=
      overwrite_length (by rw [List.length_append]; omega)
    refine ⟨a.length, by omega, ?_, ?_⟩
    · rw [List.drop_left]
      exact nul_cons he List.not_mem_nil
    · rw [ht.emitted hc (by omega), ok_bind,
        ensure_room (by rw [hlen]; exact hsize) (by rw [hlen]; dsimp only; omega), ok_bind,
        write_room (by rw [hlen]; simp only [List.length_cons, List.length_nil]; omega), ok_bind]
      dsimp only
      rw [overwrite_overwrite (by simp only [List.length_cons, List.length_nil]; omega) hz,
        List.append_assoc]
      rfl
  · intro hnot
    by_cases hfirst : c ∧ p.offset+n ≤ p.cells.length
    · have hlen : (overwrite p.cells p.offset (a ++ z)).length = p.cells.length :=
        overwrite_length (by rw [List.length_append]; omega)
      rw [ht.emitted hfirst.1 hfirst.2, ok_bind, ensure_full, refuse_bind]
      rw [hlen]
      dsimp only
      exact fun h => hnot ⟨hfirst.1, by omega⟩
    · rw [ht.refused hfirst, refuse_bind]

theorem Emits.nest (p : PrintBuffer) (inner : Bytes) (n nest : ℕ) (short : Prop)
    (print : PrintBuffer → Attempt PrintBuffer) (o e : Byte) (he : e ≠ 0)
    (hsize : p.cells.length ≤ intMax) (hn : n = 1 ∨ n = 2)
    (hinner : inner = [] ∧ print = pure ∧ nest = 0 ∧ short ∨
      ∀ q : PrintBuffer, q.cells.length ≤ intMax → q.depth ≤ nestingLimit →
        Emits (print q) q inner [0] (inner.length+2) q.depth (q.depth+nest ≤ nestingLimit ∧ short)) :
    Prints (if nestingLimit ≤ p.depth then refuse else do
      ensure n p
      let q ← writeAt p.offset [o] p
      let q ← print { q with offset := q.offset+1, depth := q.depth+1 }
      ensure 2 q
      let q ← writeAt q.offset [e, 0] q
      pure { q with depth := q.depth-1 }) p (o::inner ++ [e]) p.depth
        (p.depth+(nest+1) ≤ nestingLimit ∧ short) := by
  have hopen := stored_emits (p := p) (n := n) (a := [o]) (z := []) (fun d => d+1) hsize
    (by simp)
  unfold stored at hopen
  by_cases hdeep : nestingLimit ≤ p.depth
  · rw [if_pos hdeep]
    exact ⟨fun hc => absurd hc.1 (by omega), fun _ => rfl⟩
  · rw [if_neg hdeep]
    rcases hinner with ⟨rfl, rfl, rfl, hshort⟩ | hinner
    · have hclose := hopen.close e he hsize (by simp; omega) (by simp) (by simp)
      refine Prints.congr (d := p.depth+1-1) (c := True) ?_ rfl rfl ?_
      · simpa only [bind_assoc, pure_bind, List.append_nil, List.singleton_append,
          List.length_singleton] using hclose
      · simp only [true_iff]
        exact ⟨by omega, hshort⟩
    · have hboth := hopen.bind (f := print) (b := inner) (w := [0]) (by simp; omega) (by simp)
        (by simp) (by simp) fun q hq _ hd => hd ▸ hinner q (hq ▸ hsize) (by rw [hd]; omega)
      have hclose := hboth.close e he hsize (by simp; omega) (by simp) (by simp)
      refine Prints.congr (d := p.depth+1-1) (c := True ∧ p.depth+1+nest ≤ nestingLimit ∧ short)
        ?_ rfl rfl ?_
      · simpa only [bind_assoc, pure_bind, List.append_nil, List.singleton_append,
          List.length_singleton] using hclose
      · rw [true_and, Nat.add_right_comm, Nat.add_assoc]

theorem array_prints {items : Items D} (ih : ItemsPrint items) : ValuePrints (.array items) := by
  intro p hsize _
  rw [printValue, Value.text, Value.nesting, Value.Short]
  refine Emits.nest p items.text 1 items.nesting (Items.Short items) (printItems items) lbracket
    rbracket (by decide) hsize (.inl rfl) ?_
  cases items with
  | nil => exact .inl ⟨by rw [Items.text], funext fun q => by rw [printItems], by rw [Items.nesting],
      by rw [Items.Short]; trivial⟩
  | cons v items => exact .inr fun q hq hd => ih q hq hd (by simp)

theorem object_prints {members : Members D} (ih : MembersPrint members) :
    ValuePrints (.object members) := by
  intro p hsize _
  rw [printValue, Value.text, Value.nesting, Value.Short]
  refine Emits.nest p members.text 2 members.nesting (Members.Short members) (printMembers members)
    lbrace rbrace (by decide) hsize (.inr rfl) ?_
  cases members with
  | nil => exact .inl ⟨by rw [Members.text], funext fun q => by rw [printMembers],
      by rw [Members.nesting], by rw [Members.Short]; trivial⟩
  | cons k v members => exact .inr fun q hq hd => ih q hq hd (by simp)

theorem items_last {v : Value D} (ih : ValuePrints v) : ItemsPrint (.cons v .nil) := by
  intro p hsize hdepth _
  have hv := (ih p hsize hdepth).update
  rw [printItems, Items.text, Items.nesting, Items.nesting, Nat.max_zero, Items.Short, Items.Short]
  exact hv.congr rfl rfl (by simp)

theorem items_more {v w : Value D} {items : Items D} (ih : ValuePrints v)
    (ihs : ItemsPrint (.cons w items)) : ItemsPrint (.cons v (.cons w items)) := by
  intro p hsize hdepth _
  have hv := (ih p hsize hdepth).update
  have hcomma := hv.bind (f := stored 2 [comma] [0] id) (m := 3) (by simp) (by simp) (by simp)
    (by simp) fun q hq _ hd => hd ▸ stored_emits id (hq ▸ hsize) (by simp)
  have hrest := hcomma.bind (f := printItems (.cons w items)) (by simp; omega) (by simp) (by simp)
    (by simp) fun q hq _ hd => hd ▸ ihs q (hq ▸ hsize) (hd ▸ hdepth) (by simp)
  simp only [stored, bind_assoc, pure_bind] at hrest
  rw [printItems, Items.text, Items.nesting, Items.Short]
  refine hrest.congr (by simp) (by simp; omega) ?_
  simp only [and_true, id_eq, ← Nat.add_max_add_left, Nat.max_le]
  tauto

theorem stored_end : stored 1 [] [0] id = fun p => (do
    ensure 1 p
    writeAt p.offset [0] p) := by
  funext p
  show (ensure 1 p >>= fun _ => writeAt p.offset [0] p >>= pure) = _
  simp only [bind_pure]

theorem member_emits {k : CString} {v : Value D} (ih : ValuePrints v) {p : PrintBuffer}
    (hsize : p.cells.length ≤ intMax) (hdepth : p.depth ≤ nestingLimit) :
    Emits (printStringPtr k p >>= updateOffset >>= stored 1 [colon] [] id >>= fun q =>
      printValue v q >>= updateOffset) p (stringText k.chars ++ colon::v.text) [0]
      ((stringText k.chars ++ colon::v.text).length+2) p.depth
      (p.depth+v.nesting ≤ nestingLimit ∧ Value.Short v) := by
  have hkey := (string_prints k hsize).update
  have hcolon := hkey.bind (f := stored 1 [colon] [] id) (m := 2) (by simp) (by simp) (by simp)
    (by simp) fun q hq _ hd => hd ▸ stored_emits id (hq ▸ hsize) (by simp)
  have hval := hcolon.bind (f := fun q => printValue v q >>= updateOffset) (by simp; omega) (by simp)
    (by simp) (by simp) fun q hq _ hd => hd ▸ (ih q (hq ▸ hsize) (hd ▸ hdepth)).update
  exact hval.congr (by simp) (by simp; omega) (by simp)

theorem members_last {k : CString} {v : Value D} (ih : ValuePrints v) :
    MembersPrint (.cons k v .nil) := by
  intro p hsize hdepth _
  have hend := (member_emits (k := k) ih hsize hdepth).bind (f := stored 1 [] [0] id) (m := 2) (by simp)
    (by simp) (by simp) (by simp) fun q hq _ hd => hd ▸ stored_emits id (hq ▸ hsize) (by simp)
  simp only [stored_end] at hend
  simp only [stored, bind_assoc, pure_bind] at hend
  rw [printMembers, Members.text, Members.nesting, Members.nesting, Nat.max_zero, Members.Short,
    Members.Short]
  exact hend.congr (List.append_nil _) rfl (by simp)

theorem members_more {k l : CString} {v w : Value D} {members : Members D} (ih : ValuePrints v)
    (ihs : MembersPrint (.cons l w members)) : MembersPrint (.cons k v (.cons l w members)) := by
  intro p hsize hdepth _
  have hcomma := (member_emits (k := k) ih hsize hdepth).bind (f := stored 2 [comma] [0] id) (m := 3)
    (by simp) (by simp) (by simp) (by simp)
    fun q hq _ hd => hd ▸ stored_emits id (hq ▸ hsize) (by simp)
  have hrest := hcomma.bind (f := printMembers (.cons l w members)) (by simp; omega) (by simp)
    (by simp; omega) (by simp) fun q hq _ hd => hd ▸ ihs q (hq ▸ hsize) (hd ▸ hdepth) (by simp)
  simp only [stored, bind_assoc, pure_bind] at hrest
  rw [printMembers, Members.text, Members.nesting, Members.Short]
  refine hrest.congr (by simp) (by simp; omega) ?_
  simp only [and_true, id_eq, ← Nat.add_max_add_left, Nat.max_le]
  tauto

theorem plain_fits {d : ℕ} (h : d ≤ nestingLimit) : True ↔ d+0 ≤ nestingLimit ∧ True :=
  ⟨fun _ => ⟨h, trivial⟩, fun _ => trivial⟩

mutual

theorem value_prints : ∀ v : Value D, ValuePrints v
  | .null => fun p hsize hdepth => by
    rw [printValue, Value.text]
    exact (word_prints hsize (by decide)).congr rfl rfl (plain_fits hdepth)
  | .bool false => fun p hsize hdepth => by
    rw [printValue, Value.text]
    exact (word_prints hsize (by decide)).congr rfl rfl (plain_fits hdepth)
  | .bool true => fun p hsize hdepth => by
    rw [printValue, Value.text]
    exact (word_prints hsize (by decide)).congr rfl rfl (plain_fits hdepth)
  | .number _ => fun p hsize hdepth => by
    rw [printValue, Value.text]
    exact (number_prints hsize).congr rfl rfl (and_iff_right hdepth).symm
  | .string s => fun p hsize hdepth => by
    rw [printValue, Value.text]
    exact (string_prints s hsize).congr rfl rfl (plain_fits hdepth)
  | .array items => array_prints (items_print items)
  | .object members => object_prints (members_print members)

theorem items_print : ∀ items : Items D, ItemsPrint items
  | .nil => fun _ _ _ hne => absurd rfl hne
  | .cons v .nil => items_last (value_prints v)
  | .cons v (.cons w items) => items_more (value_prints v) (items_print (.cons w items))

theorem members_print : ∀ members : Members D, MembersPrint members
  | .nil => fun _ _ _ hne => absurd rfl hne
  | .cons _ v .nil => members_last (value_prints v)
  | .cons _ v (.cons l w members) => members_more (value_prints v) (members_print (.cons l w members))

end

/-- The print of a value into memory, exactly. -/
theorem printed_iff (v : Value D) (buffer : Bytes) (hsize : buffer.length ≤ intMax) :
    (v.nesting ≤ nestingLimit ∧ Value.Short v ∧ v.text.length+2 ≤ buffer.length →
      printPreallocated v buffer = .ok (v.text ++ 0::buffer.drop (v.text.length+1))) ∧
    (¬(v.nesting ≤ nestingLimit ∧ Value.Short v ∧ v.text.length+2 ≤ buffer.length) →
      printPreallocated v buffer = refuse) := by
  have hv := value_prints v ⟨buffer, 0, 0⟩ hsize (Nat.zero_le _)
  dsimp only at hv
  rw [Nat.zero_add] at hv
  constructor
  · rintro ⟨hnest, hshort, hroom⟩
    obtain ⟨k, _, _, ht⟩ := hv.printed ⟨hnest, hshort⟩ (by dsimp only; omega)
    rw [printPreallocated, ht, ok_bind]
    show Except.ok _ = Except.ok _
    rw [overwrite, List.take_zero, List.nil_append, Nat.zero_add, List.length_append,
      List.length_singleton, List.append_assoc, List.singleton_append]
  · intro hnot
    rw [printPreallocated, hv.refused fun h => hnot ⟨h.1.1, h.1.2, ?_⟩, refuse_bind]
    have hroom := h.2
    dsimp only at hroom
    omega

theorem printed_iff_sample :
    let v : Value WholeNumber := .string (CString.at [97, 34, 10])
    let buffer : Bytes := List.replicate 12 88
    (v.nesting ≤ nestingLimit ∧ Value.Short v ∧ v.text.length+2 ≤ buffer.length →
      printPreallocated v buffer = .ok (v.text ++ 0::buffer.drop (v.text.length+1))) ∧
    (¬(v.nesting ≤ nestingLimit ∧ Value.Short v ∧ v.text.length+2 ≤ buffer.length) →
      printPreallocated v buffer = refuse) :=
  printed_iff _ _ (by decide)

end Values

end RaptorCommon.JsonPrinted
