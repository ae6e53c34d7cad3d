import RaptorCommon.DecimalText
import RaptorCommon.JsonParser

/-!
# The parser stays within its memory

Whatever the bytes are, no read leaves the buffer, no rounds run out, and a
string never outgrows the memory measured for it. The measuring pass takes
escapes in pairs; the decoding pass can lose the pairing inside a malformed
UTF-16 literal, so what it stores is weighed against the pairs left.
-/

set_option autoImplicit false

namespace RaptorCommon.JsonBounds
open RaptorCommon.CText RaptorCommon.ConfigStore RaptorCommon.GuardedRun RaptorCommon.Json
open RaptorCommon.JsonParser RaptorCommon.DecimalText

variable {content : Bytes}

section Measuring

/-- The measuring pass from a position to the closing quote, by the pairs it
takes. -/
inductive Scan (content : Bytes) : ℕ → ℕ → ℕ → Prop where
  | closed {p : ℕ} (h : content[p]? = some quote) : Scan content p p 0
  | plain {p stop m : ℕ} {c : Byte} (h : content[p]? = some c) (hc : c ≠ quote ∧ c ≠ backslash)
      (rest : Scan content (p+1) stop m) : Scan content p stop m
  | pair {p stop m : ℕ} (h : content[p]? = some backslash) (rest : Scan content (p+2) stop m) :
      Scan content p stop (m+1)

theorem scan_stop {p stop m : ℕ} (h : Scan content p stop m) :
    content[stop]? = some quote ∧ p+2*m ≤ stop := by
  induction h with
  | closed h => exact ⟨h, by omega⟩
  | plain _ _ _ ih => exact ⟨ih.1, by omega⟩
  | pair _ _ ih => exact ⟨ih.1, by omega⟩

theorem stop_inside {p stop m : ℕ} (h : Scan content p stop m) : stop < content.length :=
  (List.getElem?_eq_some_iff.mp (scan_stop h).1).1

theorem closing_scan {n p skipped : ℕ} (hp : p ≤ content.length) (hn : content.length < p+n) :
    Within (fun r => ∃ m, r.2 = skipped+m ∧ Scan content p r.1 m)
      (closingQuote content n p skipped) := by
  induction n generalizing p skipped with
  | zero =>
    omega
  | succ n ih =>
    rw [closingQuote]
    refine within_ite (fun hlt => ?_) fun _ => within_refuse
    rw [within_bind]
    refine (within_cell hlt).mono fun c hc => ?_
    refine within_ite (fun hq => ?_) fun hq => within_ite (fun hb => ?_) fun hb => ?_
    · exact ⟨0, rfl, .closed (hq ▸ hc)⟩
    · refine within_ite (fun _ => within_refuse) fun hnext => ?_
      refine (ih (by omega) (by omega)).mono ?_
      rintro r ⟨m, hm, hscan⟩
      exact ⟨m+1, by omega, .pair (hb ▸ hc) hscan⟩
    · refine (ih (by omega) (by omega)).mono ?_
      rintro r ⟨m, hm, hscan⟩
      exact ⟨m, hm, .plain hc ⟨hq, hb⟩ hscan⟩

/-- The pairs left behind a position that may stand inside a pair. -/
def Remaining (content : Bytes) (p stop m : ℕ) : Prop :=
  Scan content p stop m ∨ Scan content (p+1) stop m

theorem remaining_room {p stop m : ℕ} (h : Remaining content p stop m) : p+2*m ≤ stop+1 := by
  rcases h with h | h
  · have := (scan_stop h).2
    omega
  · have := (scan_stop h).2
    omega

theorem remaining_advance {stop : ℕ} (k : ℕ) : ∀ {p m : ℕ}, p+k ≤ stop →
    (Scan content p stop m → ∃ m', Remaining content (p+k) stop m' ∧ 2*m ≤ 2*m'+k+1) ∧
      (Scan content (p+1) stop m → ∃ m', Remaining content (p+k) stop m' ∧ 2*m ≤ 2*m'+k) := by
  induction k with
  | zero => exact fun _ => ⟨fun h => ⟨_, .inl h, by omega⟩, fun h => ⟨_, .inr h, by omega⟩⟩
  | succ k ih =>
    intro p m hk
    have hnext : p+1+k ≤ stop := by omega
    rw [show p+(k+1) = p+1+k by omega]
    constructor
    · intro h
      cases h with
      | closed h => omega
      | plain _ _ rest =>
        obtain ⟨m', hm', hle⟩ := (ih hnext).1 rest
        exact ⟨m', hm', by omega⟩
      | pair _ rest =>
        obtain ⟨m', hm', hle⟩ := (ih hnext).2 rest
        exact ⟨m', hm', by omega⟩
    · intro h
      obtain ⟨m', hm', hle⟩ := (ih hnext).1 h
      exact ⟨m', hm', by omega⟩

theorem literal_advance {p stop m k : ℕ} (h : Remaining content p stop m) (hk : p+k ≤ stop) :
    ∃ m', Remaining content (p+k) stop m' ∧ 2*m ≤ 2*m'+k+1 := by
  rcases h with h | h
  · exact (remaining_advance k hk).1 h
  · obtain ⟨m', hm', hle⟩ := (remaining_advance k hk).2 h
    exact ⟨m', hm', by omega⟩

end Measuring

section Literals

theorem hex_digit_lt {c : Byte} {d : ℕ} (h : isHex c = some d) : d < 16 := by
  unfold isHex at h
  simp only [UInt8.le_iff_toNat_le] at h
  split at h
  next hc =>
    have hval := Option.some.inj h
    have h57 : c.toNat ≤ 57 := hc.2
    omega
  split at h
  next hc =>
    have hval := Option.some.inj h
    have h70 : c.toNat ≤ 70 := hc.2
    omega
  split at h
  next hc =>
    have hval := Option.some.inj h
    have h102 : c.toNat ≤ 102 := hc.2
    omega
  cases h

theorem hex_within {n p h : ℕ} (hp : p+(n+1) ≤ content.length) :
    Within (fun v => v < (h+16)*16^n) (hexFrom content p (n+1) h) := by
  induction n generalizing p h with
  | zero =>
    rw [hexFrom, within_bind]
    refine (within_cell (by omega)).mono fun c _ => ?_
    cases hd : isHex c with
    | none => exact (within_pure _).mpr (by omega)
    | some d =>
      have hlt := hex_digit_lt hd
      simp only [if_true, hexFrom, within_pure]
      omega
  | succ n ih =>
    rw [hexFrom, within_bind]
    refine (within_cell (by omega)).mono fun c _ => ?_
    cases hd : isHex c with
    | none =>
      refine (within_pure _).mpr ?_
      positivity
    | some d =>
      have hlt := hex_digit_lt hd
      dsimp only
      rw [if_neg (by omega)]
      refine (ih (by omega)).mono fun v hv => hv.trans_le ?_
      rw [Nat.shiftLeft_eq, pow_succ' 16 n, ← Nat.mul_assoc]
      exact Nat.mul_le_mul_right _ (by omega)

theorem hex4_within {p : ℕ} (hp : p+4 ≤ content.length) :
    Within (fun v => v < 0x10000) (parseHex4 content p) :=
  (hex_within hp).mono fun v hv => by simpa using hv

theorem tail_length (n codepoint : ℕ) : (tailBytes n codepoint).1.length = n := by
  induction n generalizing codepoint with
  | zero => rfl
  | succ n ih => rw [tailBytes, List.length_append, ih, List.length_singleton]

theorem encode_length (n mark codepoint : ℕ) :
    (encodeUtf8 (n+1) mark codepoint).length = n+1 := by
  rw [encodeUtf8, List.length_cons, Nat.add_sub_cancel, tail_length]

theorem utf8_length {codepoint : ℕ} {bytes : Bytes} (h : utf8Bytes codepoint = some bytes) :
    bytes.length ≤ 4 ∧ (codepoint < 0x10000 → bytes.length ≤ 3) := by
  unfold utf8Bytes at h
  split at h
  · rw [← Option.some.inj h, encode_length]
    omega
  split at h
  · rw [← Option.some.inj h, encode_length]
    omega
  split at h
  · rw [← Option.some.inj h, encode_length]
    omega
  split at h
  · rw [← Option.some.inj h, encode_length]
    omega
  cases h

theorem literal_within {first stop : ℕ} (hstop : stop < content.length) :
    Within (fun r => first+r.2 ≤ stop ∧ (r.2 = 6 ∧ r.1.length ≤ 3 ∨ r.2 = 12 ∧ r.1.length ≤ 4))
      (utf16Literal content first stop) := by
  unfold utf16Literal
  refine within_ite (fun _ => within_refuse) fun hroom => ?_
  rw [within_bind]
  refine (hex4_within (by omega)).mono fun firstCode hfirst => ?_
  refine within_ite (fun _ => within_refuse) fun _ => within_ite (fun _ => ?_) fun _ => ?_
  · refine within_ite (fun _ => within_refuse) fun hroom2 => ?_
    rw [within_bind]
    refine (within_cell (by omega)).mono fun c _ => ?_
    rw [within_bind]
    refine (within_cell (by omega)).mono fun d _ => ?_
    refine within_ite (fun _ => within_refuse) fun _ => ?_
    rw [within_bind]
    refine (hex4_within (by omega)).mono fun secondCode _ => ?_
    refine within_ite (fun _ => within_refuse) fun _ => ?_
    cases hu : utf8Bytes _ with
    | none => exact within_refuse
    | some bytes => exact ⟨by dsimp only; omega, .inr ⟨rfl, (utf8_length hu).1⟩⟩
  · cases hu : utf8Bytes firstCode with
    | none => exact within_refuse
    | some bytes => exact ⟨by dsimp only; omega, .inl ⟨rfl, (utf8_length hu).2 hfirst⟩⟩

end Literals

section Strings

theorem store_within {size : ℕ} {out bytes : Bytes} (h : out.length+bytes.length ≤ size) :
    store size out bytes = .ok (out ++ bytes) := if_pos h

theorem unescape_end {stop size n i : ℕ} {out : Bytes} (hi : stop ≤ i) (hn : 0 < n) :
    unescape content stop size n i out = .ok out := by
  cases n with
  | zero => omega
  | succ n =>
    rw [unescape, if_neg (by omega)]
    rfl

/-- An escape moves on to the pairs behind it, or past the closing quote when
the quote itself was taken for the second half of the escape. -/
theorem escape_advance {i stop m : ℕ} (h : Remaining content i stop m) (hi : i < stop)
    (hc : content[i]? = some backslash) : i+1 = stop ∧ m = 0 ∨
      i+2 ≤ stop ∧ ∃ m', Remaining content (i+2) stop m' ∧ m ≤ m'+1 := by
  rcases h with h | h
  · cases h with
    | closed h => omega
    | plain h hne _ => exact absurd (Option.some.inj (h.symm.trans hc)) hne.2
    | pair _ rest =>
      have := (scan_stop rest).2
      exact .inr ⟨by omega, _, .inl rest, le_rfl⟩
  · cases h with
    | closed _ => exact .inl ⟨rfl, rfl⟩
    | plain _ _ rest =>
      have := (scan_stop rest).2
      exact .inr ⟨by omega, m, .inl rest, by omega⟩
    | pair _ rest =>
      have := (scan_stop rest).2
      exact .inr ⟨by omega, _, .inr rest, le_rfl⟩

theorem unescape_within {stop size n i m : ℕ} {out : Bytes} (h : Remaining content i stop m)
    (hi : i ≤ stop) (hstop : stop < content.length) (hn : stop < i+n)
    (hroom : out.length+(stop-i)+2 ≤ size+m) :
    Within (fun o => o.length+1 ≤ size) (unescape content stop size n i out) := by
  induction n generalizing i m out with
  | zero => omega
  | succ n ih =>
    have hleft := remaining_room h
    rw [unescape]
    refine within_ite (fun hlt => ?_) fun _ => (within_pure _).mpr (by omega)
    rw [within_bind]
    refine (within_cell (by omega)).mono fun c hc => ?_
    refine within_ite (fun hplain => ?_) fun hback => ?_
    · rw [store_within (by rw [List.length_singleton]; omega)]
      have hrest : ∃ m', Remaining content (i+1) stop m' ∧ m ≤ m' := by
        rcases h with h | h
        · cases h with
          | closed h => omega
          | plain _ _ rest => exact ⟨m, .inl rest, le_rfl⟩
          | pair h _ => exact absurd (Option.some.inj (hc.symm.trans h)) hplain
        · exact ⟨m, .inl h, le_rfl⟩
      obtain ⟨m', hm', hle⟩ := hrest
      refine ih hm' (by omega) (by omega) ?_
      rw [List.length_append, List.length_singleton]
      omega
    · rw [within_bind]
      refine (within_cell (by omega)).mono fun e he => ?_
      cases hs : simpleEscape e with
      | some b =>
        have hb : c = backslash := by simpa using hback
        dsimp only
        rw [store_within (by rw [List.length_singleton]; omega)]
        rcases escape_advance h hlt (hb ▸ hc) with ⟨hend, hm⟩ | ⟨hnext, m', hm', hle⟩
        · show Within _ (unescape content stop size n (i+2) (out ++ [b]))
          rw [unescape_end (by omega) (by omega), within_ok, List.length_append,
            List.length_singleton]
          omega
        · refine ih hm' hnext (by omega) ?_
          rw [List.length_append, List.length_singleton]
          omega
      | none =>
        refine within_ite (fun _ => ?_) fun _ => within_refuse
        rw [within_bind]
        refine (literal_within hstop).mono fun r hr => ?_
        obtain ⟨hend, hsize⟩ := hr
        obtain ⟨m', hm', hle⟩ := literal_advance h hend
        have hleft' := remaining_room hm'
        rw [store_within (by omega)]
        refine ih hm' hend (by omega) ?_
        rw [List.length_append]
        omega

theorem parse_string_within {off : ℕ} (hoff : off < content.length) :
    Within (fun r => off < r.2 ∧ r.2 ≤ content.length) (parseString content off) := by
  unfold parseString
  rw [within_bind]
  refine (within_cell hoff).mono fun c _ => ?_
  refine within_ite (fun _ => within_refuse) fun _ => ?_
  rw [within_bind]
  refine (closing_scan hoff (by omega)).mono ?_
  rintro r ⟨m, hm, hscan⟩
  have hleft := (scan_stop hscan).2
  have hend := stop_inside hscan
  rw [within_bind]
  refine (unescape_within (.inl hscan) (by omega) hend (by omega) ?_).mono fun out hout => ?_
  · rw [List.length_nil]
    omega
  · rw [store_within (by rw [List.length_singleton]; exact hout)]
    exact ⟨by dsimp only; omega, by dsimp only; omega⟩

end Strings

section Values

variable {D : Type} [Doubles D]

theorem skip_spaces_within (n : ℕ) {off : ℕ} (hoff : off ≤ content.length) :
    off ≤ skipSpaces content n off ∧ skipSpaces content n off ≤ content.length := by
  induction n generalizing off with
  | zero => exact ⟨le_rfl, hoff⟩
  | succ n ih =>
    rw [skipSpaces]
    cases hc : content[off]? with
    | none => exact ⟨le_rfl, hoff⟩
    | some c =>
      have hlt := (List.getElem?_eq_some_iff.mp hc).1
      dsimp only
      split
      · have hrest : off+1 ≤ skipSpaces content n (off+1) ∧
            skipSpaces content n (off+1) ≤ content.length := ih hlt
        omega
      · exact ⟨le_rfl, hoff⟩

theorem skip_within (content : Bytes) (off : ℕ) : off ≤ skipWhitespace content off ∧
    (off ≤ content.length → skipWhitespace content off ≤ content.length) ∧
    (off < content.length → skipWhitespace content off < content.length) := by
  unfold skipWhitespace
  split
  · exact ⟨le_rfl, id, id⟩
  next hoff =>
    have hs := skip_spaces_within (content.length-off) (Nat.le_of_lt (Nat.lt_of_not_le hoff))
    dsimp only
    split
    · exact ⟨by omega, fun _ => by omega, fun _ => by omega⟩
    · exact ⟨hs.1, fun _ => hs.2, fun _ => by omega⟩

theorem accessible_lt {off : ℕ} {c : Byte} (h : accessible content off c = true) :
    off < content.length :=
  (List.getElem?_eq_some_iff.mp (of_decide_eq_true h)).1

theorem starts_lt {off : ℕ} {word : Bytes} (h : startsWith content off word = true) :
    off+word.length ≤ content.length ∨ word.length = 0 := by
  have hlen := congrArg List.length (of_decide_eq_true h)
  rw [List.length_take, List.length_drop] at hlen
  omega

/-- What holds of a parse at an offset: it ends behind it and in the buffer,
with a value nested no deeper than the limit. -/
def Parsed (content : Bytes) (depth off : ℕ) (nesting next : ℕ) : Prop :=
  off < next ∧ next ≤ content.length ∧ depth+nesting ≤ nestingLimit

theorem parse_number_within [LawfulDoubles D] {off : ℕ} (hoff : off ≤ content.length) :
    Within (fun r : D × ℕ => off < r.2 ∧ r.2 ≤ content.length) (parseNumber content off) := by
  unfold parseNumber
  cases hread : (Doubles.strtod ((content.drop off).takeWhile isNumeric) : Option (D × ℕ)) with
  | none => exact within_refuse
  | some r =>
    obtain ⟨d, n⟩ := r
    obtain ⟨hpos, hle⟩ := LawfulDoubles.consumed _ (d : D) n hread
    have htake := (List.takeWhile_prefix (l := content.drop off) isNumeric).length_le
    rw [List.length_drop] at htake
    exact ⟨by dsimp only; omega, by dsimp only; omega⟩

variable (D) in
structure InBounds (content : Bytes) (n : ℕ) : Prop where
  value : ∀ depth off, depth ≤ nestingLimit → 3*(content.length-off)+1 ≤ n →
    Within (fun r : Value D × ℕ => Parsed content depth off r.1.nesting r.2)
      (parseValue content n depth off)
  array : ∀ depth off, depth ≤ nestingLimit → off < content.length →
    3*(content.length-off) ≤ n →
    Within (fun r : Value D × ℕ => Parsed content depth off r.1.nesting r.2)
      (parseArray content n depth off)
  items : ∀ depth off, depth ≤ nestingLimit → off < content.length →
    3*(content.length-off) ≤ n+1 →
    Within (fun r : Items D × ℕ => Parsed content depth off r.1.nesting r.2)
      (parseItems content n depth off)
  object : ∀ depth off, depth ≤ nestingLimit → off < content.length →
    3*(content.length-off) ≤ n →
    Within (fun r : Value D × ℕ => Parsed content depth off r.1.nesting r.2)
      (parseObject content n depth off)
  members : ∀ depth off, depth ≤ nestingLimit → off < content.length →
    3*(content.length-off) ≤ n+1 →
    Within (fun r : Members D × ℕ => Parsed content depth off r.1.nesting r.2)
      (parseMembers content n depth off)

theorem value_in_bounds [LawfulDoubles D] {n : ℕ} (ih : InBounds D content n) (depth off : ℕ)
    (hd : depth ≤ nestingLimit) (hn : 3*(content.length-off)+1 ≤ n+1) :
    Within (fun r : Value D × ℕ => Parsed content depth off r.1.nesting r.2)
      (parseValue content (n+1) depth off) := by
  rw [parseValue]
  refine within_ite (fun h => ?_) fun _ => within_ite (fun h => ?_) fun _ =>
    within_ite (fun h => ?_) fun _ => ?_
  · have hin := (starts_lt h).resolve_right (by decide)
    exact ⟨Nat.lt_add_of_pos_right (by decide), hin, hd⟩
  · have hin := (starts_lt h).resolve_right (by decide)
    exact ⟨Nat.lt_add_of_pos_right (by decide), hin, hd⟩
  · have hin := (starts_lt h).resolve_right (by decide)
    exact ⟨Nat.lt_add_of_pos_right (by decide), hin, hd⟩
  cases hc : content[off]? with
  | none => exact within_refuse
  | some c =>
    have hoff := (List.getElem?_eq_some_iff.mp hc).1
    dsimp only
    refine within_ite (fun _ => ?_) fun _ => within_ite (fun _ => ?_) fun _ =>
      within_ite (fun _ => ?_) fun _ => within_ite (fun _ => ?_) fun _ => within_refuse
    · rw [within_bind]
      exact (parse_string_within hoff).mono fun r hr => ⟨hr.1, hr.2, hd⟩
    · rw [within_bind]
      exact (parse_number_within (Nat.le_of_lt hoff)).mono fun r hr => ⟨hr.1, hr.2, hd⟩
    · exact ih.array depth off hd hoff (by omega)
    · exact ih.object depth off hd hoff (by omega)

theorem array_in_bounds {n : ℕ} (ih : InBounds D content n) (depth off : ℕ)
    (hoff : off < content.length) (hn : 3*(content.length-off) ≤ n+1) :
    Within (fun r : Value D × ℕ => Parsed content depth off r.1.nesting r.2)
      (parseArray content (n+1) depth off) := by
  rw [parseArray]
  refine within_ite (fun _ => within_refuse) fun hdeep => ?_
  rw [within_bind]
  refine (within_cell hoff).mono fun c _ => within_ite (fun _ => within_refuse) fun _ => ?_
  have hskip := skip_within content (off+1)
  dsimp only
  refine within_ite (fun h => ?_) fun _ => within_ite (fun _ => within_refuse) fun hin => ?_
  · have hlt := accessible_lt h
    exact ⟨by dsimp only; omega, hlt, Nat.lt_of_not_le hdeep⟩
  · rw [within_bind]
    refine (ih.items (depth+1) _ (Nat.lt_of_not_le hdeep) (by omega) (by omega)).mono
      fun r hr => ?_
    obtain ⟨hnext, hend, hnest⟩ := hr
    refine ⟨by dsimp only; omega, hend, ?_⟩
    show depth+(r.1.nesting+1) ≤ nestingLimit
    omega

theorem items_in_bounds {n : ℕ} (ih : InBounds D content n) (depth off : ℕ)
    (hd : depth ≤ nestingLimit) (hoff : off < content.length)
    (hn : 3*(content.length-off) ≤ n+1+1) :
    Within (fun r : Items D × ℕ => Parsed content depth off r.1.nesting r.2)
      (parseItems content (n+1) depth off) := by
  have hskip := skip_within content (off+1)
  rw [parseItems, within_bind]
  refine (ih.value depth _ hd (by omega)).mono fun v hv => ?_
  obtain ⟨hnext, hend, hnest⟩ := hv
  have hskip2 := skip_within content v.2
  dsimp only
  refine within_ite (fun h => ?_) fun _ => within_ite (fun h => ?_) fun _ => within_refuse
  · rw [within_bind]
    have hlt := accessible_lt h
    refine (ih.items depth _ hd hlt (by omega)).mono fun r hr => ?_
    obtain ⟨hnext', hend', hnest'⟩ := hr
    refine ⟨by dsimp only; omega, hend', ?_⟩
    show depth+max v.1.nesting r.1.nesting ≤ nestingLimit
    omega
  · have hlt := accessible_lt h
    refine ⟨by dsimp only; omega, hlt, ?_⟩
    show depth+max v.1.nesting 0 ≤ nestingLimit
    omega

theorem object_in_bounds {n : ℕ} (ih : InBounds D content n) (depth off : ℕ)
    (hoff : off < content.length) (hn : 3*(content.length-off) ≤ n+1) :
    Within (fun r : Value D × ℕ => Parsed content depth off r.1.nesting r.2)
      (parseObject content (n+1) depth off) := by
  rw [parseObject]
  refine within_ite (fun _ => within_refuse) fun hdeep => within_ite (fun _ => ?_)
    fun _ => within_refuse
  have hskip := skip_within content (off+1)
  dsimp only
  refine within_ite (fun h => ?_) fun _ => within_ite (fun _ => within_refuse) fun hin => ?_
  · have hlt := accessible_lt h
    exact ⟨by dsimp only; omega, hlt, Nat.lt_of_not_le hdeep⟩
  · rw [within_bind]
    refine (ih.members (depth+1) _ (Nat.lt_of_not_le hdeep) (by omega) (by omega)).mono
      fun r hr => ?_
    obtain ⟨hnext, hend, hnest⟩ := hr
    refine ⟨by dsimp only; omega, hend, ?_⟩
    show depth+(r.1.nesting+1) ≤ nestingLimit
    omega

theorem members_in_bounds {n : ℕ} (ih : InBounds D content n) (depth off : ℕ)
    (hd : depth ≤ nestingLimit) (hn : 3*(content.length-off) ≤ n+1+1) :
    Within (fun r : Members D × ℕ => Parsed content depth off r.1.nesting r.2)
      (parseMembers content (n+1) depth off) := by
  rw [parseMembers]
  refine within_ite (fun _ => within_refuse) fun hmore => ?_
  have hskip := skip_within content (off+1)
  rw [within_bind]
  refine (parse_string_within (hskip.2.2 (by omega))).mono fun key hkey => ?_
  have hskip2 := skip_within content key.2
  refine within_ite (fun _ => ?_) fun _ => within_refuse
  have hskip3 := skip_within content (skipWhitespace content key.2+1)
  rw [within_bind]
  refine (ih.value depth _ hd (by omega)).mono fun v hv => ?_
  obtain ⟨hnext, hend, hnest⟩ := hv
  have hskip4 := skip_within content v.2
  dsimp only
  refine within_ite (fun h => ?_) fun _ => within_ite (fun h => ?_) fun _ => within_refuse
  · rw [within_bind]
    have hlt := accessible_lt h
    refine (ih.members depth _ hd hlt (by omega)).mono fun r hr => ?_
    obtain ⟨hnext', hend', hnest'⟩ := hr
    refine ⟨by dsimp only; omega, hend', ?_⟩
    show depth+max v.1.nesting r.1.nesting ≤ nestingLimit
    omega
  · have hlt := accessible_lt h
    refine ⟨by dsimp only; omega, hlt, ?_⟩
    show depth+max v.1.nesting 0 ≤ nestingLimit
    omega

theorem in_bounds [LawfulDoubles D] (content : Bytes) (n : ℕ) : InBounds D content n := by
  induction n with
  | zero => constructor <;> intro depth off <;> omega
  | succ n ih =>
    exact ⟨value_in_bounds ih, fun depth off _ => array_in_bounds ih depth off,
      items_in_bounds ih, fun depth off _ => object_in_bounds ih depth off,
      fun depth off hd _ => members_in_bounds ih depth off hd⟩

/-- The parser stays inside any buffer and ends, and what it accepts is nested
no deeper than the limit. -/
theorem parse_contained [LawfulDoubles D] (content : Bytes) :
    (parseBuffer content : Attempt (Value D)) = refuse ∨
      ∃ v : Value D, parseBuffer content = .ok v ∧ v.nesting ≤ nestingLimit := by
  have hall : Within (fun v : Value D => v.nesting ≤ nestingLimit) (parseBuffer content) := by
    unfold parseBuffer
    refine within_ite (fun _ => within_refuse) fun _ => ?_
    rw [within_bind]
    refine ((in_bounds content (rounds content)).value 0 _ (Nat.zero_le _) ?_).mono fun r hr => ?_
    · unfold rounds
      omega
    · have hnest := hr.2.2
      rwa [Nat.zero_add] at hnest
  cases hp : (parseBuffer content : Attempt (Value D)) with
  | ok v => exact .inr ⟨v, rfl, hall.value hp⟩
  | error e =>
    rw [hp] at hall
    exact .inl (congrArg Except.error hall)

theorem parse_contained_sample :
    (parseBuffer (ascii "[1,true") : Attempt (Value WholeNumber)) = refuse ∨
      ∃ v : Value WholeNumber, parseBuffer (ascii "[1,true") = .ok v ∧ v.nesting ≤ nestingLimit :=
  parse_contained (ascii "[1,true")

end Values

end RaptorCommon.JsonBounds
