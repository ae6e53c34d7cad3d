import RaptorCommon.JsonBounds

/-!
# The spellings of a string

The text between two quotes is a row of pieces: a byte, a pair behind a
backslash, or a code of four digits. The parser passes over it twice, once to
measure it and once to store it. What it stores is what the pieces mean, and it
refuses the rows that mean nothing. Every text of Unicode characters has many
spellings; all are read as its UTF-8.
-/

set_option autoImplicit false

namespace RaptorCommon.JsonSpelling
open RaptorCommon.CText RaptorCommon.ConfigStore RaptorCommon.GuardedRun RaptorCommon.Json
open RaptorCommon.JsonParser

section Positions

variable {content : Bytes} {off : ℕ}

theorem at_head {c : Byte} {t : Bytes} (h : content.drop off = c::t) :
    content[off]? = some c := by
  rw [← List.head?_drop, h, List.head?_cons]

theorem drop_behind {a b : Bytes} (h : content.drop off = a ++ b) :
    content.drop (off+a.length) = b := by
  rw [← List.drop_drop, h, List.drop_left]

theorem drop_one {c : Byte} {t : Bytes} (h : content.drop off = c::t) :
    content.drop (off+1) = t := drop_behind (a := [c]) h

theorem room_behind {a b : Bytes} (h : content.drop off = a ++ b) (ha : a ≠ []) :
    off+a.length+b.length = content.length := by
  have hlen := congrArg List.length h
  have hpos := List.length_pos_iff.mpr ha
  rw [List.length_drop, List.length_append] at hlen
  omega

end Positions

section Pieces

inductive Piece where
  | raw (c : Byte)
  | pair (e : Byte)
  | code (a b c d : Byte)
  deriving DecidableEq

def Piece.text : Piece → Bytes
  | .raw c => [c]
  | .pair e => [backslash, e]
  | .code a b c d => [backslash, 117, a, b, c, d]

abbrev Plain (c : Byte) : Prop := c ≠ quote ∧ c ≠ backslash

/-- The piece is told from its neighbours: only a code follows `\u`. -/
def Piece.Lexed : Piece → Prop
  | .raw c => Plain c
  | .pair e => e ≠ 117
  | .code a b c d => Plain a ∧ Plain b ∧ Plain c ∧ Plain d

instance : DecidablePred Piece.Lexed
  | .raw c => inferInstanceAs (Decidable (Plain c))
  | .pair e => inferInstanceAs (Decidable (e ≠ 117))
  | .code a b c d => inferInstanceAs (Decidable (Plain a ∧ Plain b ∧ Plain c ∧ Plain d))

def Piece.escapes : Piece → ℕ
  | .raw _ => 0
  | _ => 1

def texts (ps : List Piece) : Bytes := ps.flatMap Piece.text

def escapes (ps : List Piece) : ℕ := (ps.map Piece.escapes).sum

/-- Four digits in hexadecimal; zero where one of them is none. -/
def hexCode (a b c d : Byte) : ℕ :=
  match isHex a, isHex b, isHex c, isHex d with
  | some p, some q, some r, some s => ((p*16+q)*16+r)*16+s
  | _, _, _, _ => 0

abbrev High (v : ℕ) : Prop := 0xD800 ≤ v ∧ v ≤ 0xDBFF

abbrev Low (v : ℕ) : Prop := 0xDC00 ≤ v ∧ v ≤ 0xDFFF

def joined (high low : ℕ) : ℕ := 0x10000+(high-0xD800)*0x400+(low-0xDC00)

def character (v : ℕ) : Bytes := String.utf8EncodeChar (Char.ofNat v)

/-- What a row of pieces stands for. A pair that is no escape and half of a
surrogate pair stand for nothing. -/
def meaning : List Piece → Option Bytes
  | [] => some []
  | .raw c::rest => (meaning rest).map (c::·)
  | .pair e::rest => (simpleEscape e).bind fun b => (meaning rest).map (b::·)
  | .code a b c d::rest =>
    if Low (hexCode a b c d) then none
    else if High (hexCode a b c d) then
      match rest with
      | .code a' b' c' d'::rest =>
        if Low (hexCode a' b' c' d') then
          (meaning rest).map (character (joined (hexCode a b c d) (hexCode a' b' c' d')) ++ ·)
        else none
      | _ => none
    else (meaning rest).map (character (hexCode a b c d) ++ ·)

theorem meaning_low {a b c d : Byte} (rest : List Piece) (h : Low (hexCode a b c d)) :
    meaning (.code a b c d::rest) = none := by
  rw [meaning.eq_def]
  exact if_pos h

theorem meaning_single {a b c d : Byte} (rest : List Piece) (hl : ¬Low (hexCode a b c d))
    (hh : ¬High (hexCode a b c d)) : meaning (.code a b c d::rest) =
      (meaning rest).map (character (hexCode a b c d) ++ ·) := by
  rw [meaning.eq_def]
  exact (if_neg hl).trans (if_neg hh)

theorem meaning_pair {a b c d a' b' c' d' : Byte} (rest : List Piece)
    (hl : ¬Low (hexCode a b c d)) (hh : High (hexCode a b c d)) :
    meaning (.code a b c d::.code a' b' c' d'::rest) = if Low (hexCode a' b' c' d') then
      (meaning rest).map (character (joined (hexCode a b c d) (hexCode a' b' c' d')) ++ ·)
      else none := by
  rw [meaning]
  exact (if_neg hl).trans (if_pos hh)

theorem meaning_lone {a b c d : Byte} {rest : List Piece} (hl : ¬Low (hexCode a b c d))
    (hh : High (hexCode a b c d)) (h : ∀ a b c d ps, rest = .code a b c d::ps → False) :
    meaning (.code a b c d::rest) = none := by
  rw [meaning.eq_def]
  refine (if_neg hl).trans ((if_pos hh).trans ?_)
  split
  next a b c d ps => exact (h a b c d ps rfl).elim
  next => rfl

end Pieces

section Characters

theorem mask_tail (n : ℕ) : (n ||| 0x80) &&& 0xBF = n%0x40+0x80 := by
  have hbyte : ∀ r < 256, (r ||| 0x80) &&& 0xBF = r%0x40+0x80 := by decide +kernel
  have hlow : (n ||| 0x80) &&& 0xBF = ((n%256 ||| 0x80) &&& 0xBF)%256 := by
    rw [show 256 = 2^8 by decide, Nat.and_mod_two_pow, Nat.or_mod_two_pow, Nat.mod_mod,
      ← Nat.or_mod_two_pow, ← Nat.and_mod_two_pow]
    exact (Nat.mod_eq_of_lt (Nat.lt_of_le_of_lt Nat.and_le_right (by decide))).symm
  rw [hlow, hbyte _ (Nat.mod_lt _ (by decide))]
  omega

theorem mask_head {mark : ℕ} (r : ℕ) (h : mark = 0xC0 ∧ r < 32 ∨ mark = 0xE0 ∧ r < 16 ∨
    mark = 0xF0 ∧ r < 8) : (r ||| mark) &&& 0xFF = r+mark := by
  have htwo : ∀ r < 32, (r ||| 0xC0) &&& 0xFF = r+0xC0 := by decide +kernel
  have hthree : ∀ r < 16, (r ||| 0xE0) &&& 0xFF = r+0xE0 := by decide +kernel
  have hfour : ∀ r < 8, (r ||| 0xF0) &&& 0xFF = r+0xF0 := by decide +kernel
  rcases h with ⟨rfl, hr⟩ | ⟨rfl, hr⟩ | ⟨rfl, hr⟩
  · exact htwo r hr
  · exact hthree r hr
  · exact hfour r hr

theorem char_number {v : ℕ} (h : v.isValidChar) : (Char.ofNat v).toNat = v := by
  rw [Char.ofNat, dif_pos h]
  rfl

theorem utf8_character {v : ℕ} (h : v.isValidChar) : utf8Bytes v = some (character v) := by
  have hv : (Char.ofNat v).val.toNat = v := char_number h
  have hlt : v < 0x110000 := by
    rcases h with h | h <;> omega
  have hsix : v >>> 6 = v/64 := Nat.shiftRight_eq_div_pow v 6
  have htwelve : v >>> 6 >>> 6 = v/4096 := by
    rw [← Nat.shiftRight_add, Nat.shiftRight_eq_div_pow]
  have heighteen : v >>> 6 >>> 6 >>> 6 = v/262144 := by
    rw [← Nat.shiftRight_add, ← Nat.shiftRight_add, Nat.shiftRight_eq_div_pow]
  rw [utf8Bytes, character, String.utf8EncodeChar, hv]
  by_cases h1 : v < 0x80
  · rw [if_pos h1, if_pos (by omega)]
    show some [UInt8.ofNat (v &&& 0x7F)] = _
    rw [show 0x7F = 2^7-1 by decide, Nat.and_two_pow_sub_one_eq_mod, Nat.mod_eq_of_lt (by omega)]
  rw [if_neg h1, if_neg (by omega : ¬v ≤ 0x7f)]
  by_cases h2 : v < 0x800
  · rw [if_pos h2, if_pos (by omega)]
    show some [UInt8.ofNat ((v >>> 6 ||| 0xC0) &&& 0xFF), UInt8.ofNat ((v ||| 0x80) &&& 0xBF)] = _
    rw [mask_tail, hsix, mask_head _ (.inl ⟨rfl, by omega⟩),
      Nat.mod_eq_of_lt (by omega : v/64 < 0x20)]
  rw [if_neg h2, if_neg (by omega : ¬v ≤ 0x7ff)]
  by_cases h3 : v < 0x10000
  · rw [if_pos h3, if_pos (by omega)]
    show some [UInt8.ofNat ((v >>> 6 >>> 6 ||| 0xE0) &&& 0xFF),
      UInt8.ofNat ((v >>> 6 ||| 0x80) &&& 0xBF), UInt8.ofNat ((v ||| 0x80) &&& 0xBF)] = _
    rw [mask_tail, mask_tail, htwelve, hsix, mask_head _ (.inr (.inl ⟨rfl, by omega⟩)),
      Nat.mod_eq_of_lt (by omega : v/4096 < 0x10)]
  · rw [if_neg h3, if_pos (by omega), if_neg (by omega)]
    show some [UInt8.ofNat ((v >>> 6 >>> 6 >>> 6 ||| 0xF0) &&& 0xFF),
      UInt8.ofNat ((v >>> 6 >>> 6 ||| 0x80) &&& 0xBF),
      UInt8.ofNat ((v >>> 6 ||| 0x80) &&& 0xBF), UInt8.ofNat ((v ||| 0x80) &&& 0xBF)] = _
    rw [mask_tail, mask_tail, mask_tail, heighteen, htwelve, hsix,
      mask_head _ (.inr (.inr ⟨rfl, by omega⟩)), Nat.mod_eq_of_lt (by omega : v/262144 < 0x08)]

theorem character_length (v : ℕ) : (character v).length ≤ 4 := by
  rw [character, String.length_utf8EncodeChar]
  exact Char.utf8Size_le_four _

theorem code_lt (a b c d : Byte) : hexCode a b c d < 0x10000 := by
  unfold hexCode
  split
  next hp hq hr hs =>
    have hp := JsonBounds.hex_digit_lt hp
    have hq := JsonBounds.hex_digit_lt hq
    have hr := JsonBounds.hex_digit_lt hr
    have hs := JsonBounds.hex_digit_lt hs
    omega
  next => decide

theorem joined_valid {v w : ℕ} (hv : High v) (hw : Low w) : (joined v w).isValidChar := by
  right
  unfold joined
  omega

end Characters

section Literals

variable {content t : Bytes} {p : ℕ} {a b c d : Byte}

theorem hex_step {n v : ℕ} (h : content.drop p = a::t) : hexFrom content p (n+1) v =
    match isHex a with
    | none => .ok 0
    | some x => hexFrom content (p+1) n (if n = 0 then v+x else (v+x) <<< 4) := by
  rw [hexFrom, cell_some (at_head h), ok_bind]
  rfl

theorem hex_read (h : content.drop p = a::b::c::d::t) :
    parseHex4 content p = .ok (hexCode a b c d) := by
  rw [parseHex4, hex_step h, hexCode]
  cases isHex a with
  | none => rfl
  | some w =>
  simp only
  rw [hex_step (drop_one h)]
  cases isHex b with
  | none => rfl
  | some x =>
  simp only
  rw [hex_step (drop_one (drop_one h))]
  cases isHex c with
  | none => rfl
  | some y =>
  simp only
  rw [hex_step (drop_one (drop_one (drop_one h)))]
  cases isHex d with
  | none => rfl
  | some z =>
    show Except.ok _ = Except.ok _
    congr 1
    simp only [Nat.shiftLeft_eq, if_true, if_neg (by decide : ¬(3 = 0)),
      if_neg (by decide : ¬(2 = 0)), if_neg (by decide : ¬(1 = 0))]
    omega

theorem joined_bits {v w : ℕ} (hv : High v) (hw : Low w) :
    0x10000+(((v &&& 0x3FF) <<< 10) ||| (w &&& 0x3FF)) = joined v w := by
  have hmask : ∀ n, n &&& 0x3FF = n%0x400 := fun n => Nat.and_two_pow_sub_one_eq_mod n 10
  rw [hmask, hmask, ← Nat.shiftLeft_add_eq_or_of_lt (Nat.mod_lt w (by decide) : w%0x400 < 2^10),
    Nat.shiftLeft_eq]
  unfold joined
  omega

theorem literal_low {stop : ℕ} (h : content.drop p = backslash::117::a::b::c::d::t)
    (hp : p+6 ≤ stop) (hv : Low (hexCode a b c d)) : utf16Literal content p stop = refuse := by
  rw [utf16Literal, if_neg (by omega), hex_read (drop_one (drop_one h)), ok_bind, if_pos hv]

theorem literal_single {stop : ℕ} (h : content.drop p = backslash::117::a::b::c::d::t)
    (hp : p+6 ≤ stop) (hl : ¬Low (hexCode a b c d)) (hh : ¬High (hexCode a b c d)) :
    utf16Literal content p stop = .ok (character (hexCode a b c d), 6) := by
  have hlt := code_lt a b c d
  rw [utf16Literal, if_neg (by omega), hex_read (drop_one (drop_one h)), ok_bind, if_neg hl,
    if_neg hh, utf8_character (by unfold Nat.isValidChar; omega)]
  rfl

theorem literal_pair {a' b' c' d' : Byte} {stop : ℕ}
    (h : content.drop p = backslash::117::a::b::c::d::backslash::117::a'::b'::c'::d'::t)
    (hp : p+12 ≤ stop) (hh : High (hexCode a b c d)) : utf16Literal content p stop =
      if Low (hexCode a' b' c' d') then
        .ok (character (joined (hexCode a b c d) (hexCode a' b' c' d')), 12)
      else refuse := by
  have hsecond : content.drop (p+6) = backslash::117::a'::b'::c'::d'::t :=
    drop_behind (a := [backslash, 117, a, b, c, d]) h
  rw [utf16Literal, if_neg (by omega), hex_read (drop_one (drop_one h)), ok_bind,
    if_neg (by omega), if_pos hh]
  dsimp only
  rw [if_neg (by omega), cell_some (at_head hsecond), ok_bind,
    cell_some (at_head (drop_one hsecond)), ok_bind, if_neg (by simp),
    hex_read (drop_one (drop_one hsecond)), ok_bind]
  by_cases hw : Low (hexCode a' b' c' d')
  · rw [if_pos hw, if_neg (by omega), joined_bits hh hw, utf8_character (joined_valid hh hw)]
    rfl
  · rw [if_neg hw, if_pos (by omega)]

theorem literal_lone {stop : ℕ}
    (h : content.drop p = backslash::117::a::b::c::d::t) (hp : p+6 ≤ stop)
    (hh : High (hexCode a b c d)) (ht : p+12 ≤ stop → ∃ x y u, t = x::y::u ∧
      (x ≠ backslash ∨ y ≠ 117)) : utf16Literal content p stop = refuse := by
  rw [utf16Literal, if_neg (by omega), hex_read (drop_one (drop_one h)), ok_bind,
    if_neg (by omega), if_pos hh]
  dsimp only
  by_cases hroom : stop-(p+6) < 6
  · rw [if_pos hroom]
  · obtain ⟨x, y, u, rfl, hne⟩ := ht (by omega)
    have hsecond : content.drop (p+6) = x::y::u :=
      drop_behind (a := [backslash, 117, a, b, c, d]) h
    rw [if_neg hroom, cell_some (at_head hsecond), ok_bind, cell_some (at_head (drop_one hsecond)),
      ok_bind, if_pos hne]

end Literals

section Measured

variable {content rest : Bytes}

theorem closing_plain {c : Byte} {t : Bytes} {n p skipped : ℕ} (h : content.drop p = c::t)
    (hc : Plain c) :
    closingQuote content (n+1) p skipped = closingQuote content n (p+1) skipped := by
  have hroom := room_behind (a := [c]) h (List.cons_ne_nil _ _)
  rw [List.length_singleton] at hroom
  rw [closingQuote, if_pos (by omega), cell_some (at_head h), ok_bind, if_neg hc.1, if_neg hc.2]

theorem closing_pair {e : Byte} {t : Bytes} {n p skipped : ℕ}
    (h : content.drop p = backslash::e::t) :
    closingQuote content (n+1) p skipped = closingQuote content n (p+2) (skipped+1) := by
  have hroom := room_behind (a := [backslash, e]) h (List.cons_ne_nil _ _)
  rw [List.length_cons, List.length_singleton] at hroom
  rw [closingQuote, if_pos (by omega), cell_some (at_head h)]
  exact if_neg (by omega)

@[simp] theorem texts_cons (q : Piece) (ps : List Piece) : texts (q::ps) = q.text ++ texts ps := rfl

@[simp] theorem escapes_cons (q : Piece) (ps : List Piece) :
    escapes (q::ps) = q.escapes+escapes ps := by
  rw [escapes, List.map_cons, List.sum_cons, escapes]

theorem texts_append (ps qs : List Piece) : texts (ps ++ qs) = texts ps ++ texts qs :=
  List.flatMap_append

theorem escapes_append (ps qs : List Piece) : escapes (ps ++ qs) = escapes ps+escapes qs := by
  rw [escapes, List.map_append, List.sum_append, escapes, escapes]

theorem raw_length (c : Byte) (ps : List Piece) :
    (texts (.raw c::ps)).length = (texts ps).length+1 := rfl

theorem pair_length (e : Byte) (ps : List Piece) :
    (texts (.pair e::ps)).length = (texts ps).length+2 := rfl

theorem code_length (a b c d : Byte) (ps : List Piece) :
    (texts (.code a b c d::ps)).length = (texts ps).length+6 := rfl

theorem raw_escapes (c : Byte) (ps : List Piece) : escapes (.raw c::ps) = escapes ps :=
  (escapes_cons _ ps).trans (Nat.zero_add _)

theorem pair_escapes (e : Byte) (ps : List Piece) : escapes (.pair e::ps) = escapes ps+1 :=
  (escapes_cons _ ps).trans (Nat.add_comm _ _)

theorem code_escapes (a b c d : Byte) (ps : List Piece) :
    escapes (.code a b c d::ps) = escapes ps+1 :=
  (escapes_cons _ ps).trans (Nat.add_comm _ _)

theorem escapes_le (ps : List Piece) : escapes ps ≤ (texts ps).length := by
  induction ps with
  | nil => exact le_rfl
  | cons q ps ih =>
    rw [escapes_cons, texts_cons, List.length_append]
    refine Nat.add_le_add ?_ ih
    cases q <;> simp [Piece.escapes, Piece.text]

/-- The measuring pass stops at the quote behind the pieces and counts their
escapes. -/
theorem closing_pieces (ps : List Piece) (n p skipped : ℕ) (hlex : ∀ q ∈ ps, q.Lexed)
    (h : content.drop p = texts ps ++ quote::rest) (hn : (texts ps).length < n) :
    closingQuote content n p skipped = .ok (p+(texts ps).length, skipped+escapes ps) := by
  induction ps generalizing n p skipped with
  | nil =>
    obtain ⟨n, rfl⟩ := Nat.exists_eq_add_one_of_ne_zero (Nat.ne_zero_of_lt hn)
    have hroom := room_behind (a := [quote]) h (List.cons_ne_nil _ _)
    rw [List.length_singleton] at hroom
    rw [closingQuote, if_pos (by omega), cell_some (at_head h)]
    rfl
  | cons q ps ih =>
    have hq := hlex q List.mem_cons_self
    have hps : ∀ r ∈ ps, r.Lexed := fun r hr => hlex r (List.mem_cons_of_mem q hr)
    rw [texts_cons, List.append_assoc] at h
    have hbehind := drop_behind h
    cases q with
    | raw c =>
      rw [raw_length] at hn
      obtain ⟨n, rfl⟩ : ∃ k, n = k+1 := ⟨n-1, by omega⟩
      rw [closing_plain h hq, ih n (p+1) skipped hps hbehind (by omega), raw_length, raw_escapes,
        Nat.add_assoc, Nat.add_comm 1]
    | pair e =>
      rw [pair_length] at hn
      obtain ⟨n, rfl⟩ : ∃ k, n = k+1 := ⟨n-1, by omega⟩
      rw [closing_pair h, ih n (p+2) (skipped+1) hps hbehind (by omega), pair_length, pair_escapes,
        Nat.add_assoc p, Nat.add_comm 2, Nat.add_assoc skipped, Nat.add_comm 1]
    | code a b c d =>
      rw [code_length] at hn
      obtain ⟨n, rfl⟩ : ∃ k, n = k+5 := ⟨n-5, by omega⟩
      have ha : content.drop (p+2) = a::b::c::d::(texts ps ++ quote::rest) := drop_one (drop_one h)
      rw [closing_pair h, closing_plain ha hq.1, closing_plain (drop_one ha) hq.2.1,
        closing_plain (drop_one (drop_one ha)) hq.2.2.1,
        closing_plain (drop_one (drop_one (drop_one ha))) hq.2.2.2,
        ih n (p+2+1+1+1+1) (skipped+1) hps hbehind (by omega), code_length, code_escapes,
        Nat.add_assoc skipped, Nat.add_comm 1]
      congr 2
      omega

end Measured

section Stored

variable {content rest : Bytes}

def answer {α : Type} : Option α → Attempt α
  | some a => .ok a
  | none => refuse

theorem store_room {size : ℕ} {out : Bytes} (bytes : Bytes) (h : out.length+bytes.length ≤ size) :
    store size out bytes = .ok (out ++ bytes) := if_pos h

theorem unescape_plain {stop size n p : ℕ} {c : Byte} {t out : Bytes} (h : content.drop p = c::t)
    (hb : c ≠ backslash) (hp : p < stop) : unescape content stop size (n+1) p out =
      store size out [c] >>= fun out => unescape content stop size n (p+1) out := by
  rw [unescape, if_pos hp, cell_some (at_head h), ok_bind, if_pos hb]

theorem unescape_pair {stop size n p : ℕ} {e : Byte} {t out : Bytes}
    (h : content.drop p = backslash::e::t) (he : e ≠ 117) (hp : p < stop) :
    unescape content stop size (n+1) p out = answer (simpleEscape e) >>= fun b =>
      store size out [b] >>= fun out => unescape content stop size n (p+2) out := by
  rw [unescape, if_pos hp, cell_some (at_head h), ok_bind, if_neg (by simp),
    cell_some (at_head (drop_one h)), ok_bind]
  cases simpleEscape e with
  | none => exact if_neg he
  | some b => rfl

theorem unescape_code {stop size n p : ℕ} {t out : Bytes}
    (h : content.drop p = backslash::117::t) (hp : p < stop) :
    unescape content stop size (n+1) p out =
      utf16Literal content p stop >>= fun literal => store size out literal.1 >>= fun out =>
        unescape content stop size n (p+literal.2) out := by
  rw [unescape, if_pos hp, cell_some (at_head h), ok_bind, if_neg (by simp),
    cell_some (at_head (drop_one h)), ok_bind]
  exact if_pos rfl

theorem answer_append (out bytes : Bytes) (o : Option Bytes) :
    answer (o.map (out ++ bytes ++ ·)) = answer ((o.map (bytes ++ ·)).map (out ++ ·)) := by
  rw [Option.map_map]
  congr 2
  funext t
  exact List.append_assoc out bytes t

/-- The storing pass stands before the pieces, with fuel for them and room for
what they stand for. -/
structure Ahead (content rest : Bytes) (stop size : ℕ) (ps : List Piece) (n p : ℕ) (out : Bytes) :
    Prop where
  lexed : ∀ q ∈ ps, q.Lexed
  placed : content.drop p = texts ps ++ quote::rest
  ends : stop = p+(texts ps).length
  fuel : (texts ps).length < n
  room : out.length+(texts ps).length ≤ size+escapes ps

namespace Ahead

variable {stop size n p : ℕ} {front ps : List Piece} {out bytes : Bytes}

theorem fuel_left (h : Ahead content rest stop size ps n p out) : ∃ k, n = k+1 :=
  Nat.exists_eq_add_one_of_ne_zero (Nat.ne_zero_of_lt h.fuel)

theorem within (front : List Piece) (h : Ahead content rest stop size (front ++ ps) n p out) :
    p+(texts front).length ≤ stop := by
  have hends := h.ends
  rw [texts_append, List.length_append] at hends
  omega

theorem behind (h : Ahead content rest stop size (front ++ ps) (n+1) p out) (hfront : front ≠ [])
    (hbytes : bytes.length+escapes front ≤ (texts front).length) :
    Ahead content rest stop size ps n (p+(texts front).length) (out ++ bytes) := by
  obtain ⟨hlex, hplaced, hends, hfuel, hroom⟩ := h
  obtain ⟨q, qs, rfl⟩ := List.exists_cons_of_ne_nil hfront
  have hpos : 0 < (texts (q::qs)).length := by
    cases q <;> simp [Piece.text]
  rw [texts_append, List.append_assoc] at hplaced
  rw [texts_append, List.length_append] at hends hfuel hroom
  rw [escapes_append] at hroom
  refine ⟨fun r hr => hlex r (List.mem_append_right _ hr), drop_behind hplaced, by omega,
    by omega, ?_⟩
  rw [List.length_append]
  omega

theorem stored (front : List Piece) (bytes : Bytes)
    (h : Ahead content rest stop size (front ++ ps) (n+1) p out) (hfront : front ≠ [])
    (hbytes : bytes.length+escapes front ≤ (texts front).length)
    (hturn : unescape content stop size (n+1) p out = store size out bytes >>= fun out =>
      unescape content stop size n (p+(texts front).length) out)
    (hothers : ∀ n p out, Ahead content rest stop size ps n p out →
      unescape content stop size n p out = answer ((meaning ps).map (out ++ ·))) :
    unescape content stop size (n+1) p out =
      answer (((meaning ps).map (bytes ++ ·)).map (out ++ ·)) := by
  have hroom := h.room
  have hle := escapes_le ps
  rw [texts_append, List.length_append, escapes_append] at hroom
  rw [hturn, store_room bytes (by omega), ok_bind, hothers _ _ _ (h.behind hfront hbytes)]
  exact answer_append out bytes (meaning ps)

theorem no_second {a b c d : Byte}
    (h : Ahead content rest stop size (.code a b c d::ps) n p out)
    (hlone : ∀ a b c d qs, ps = .code a b c d::qs → False) (hp : p+12 ≤ stop) :
    ∃ x y u, texts ps ++ quote::rest = x::y::u ∧ (x ≠ backslash ∨ y ≠ 117) := by
  have hends := h.ends
  rw [code_length] at hends
  cases ps with
  | nil => exact absurd hends (by show ¬stop = p+(0+6); omega)
  | cons q qs =>
    have hq := h.lexed q (List.mem_cons_of_mem _ List.mem_cons_self)
    cases q with
    | raw c =>
      obtain ⟨y, u, hu⟩ : ∃ y u, texts qs ++ quote::rest = y::u :=
        List.exists_cons_of_ne_nil (by simp)
      exact ⟨c, y, u, by rw [← hu]; rfl, .inl hq.2⟩
    | pair e => exact ⟨backslash, e, _, rfl, .inr hq⟩
    | code a b c d => exact (hlone a b c d qs rfl).elim

end Ahead

/-- The storing pass leaves what the pieces mean. -/
theorem unescape_pieces (ps : List Piece) (n p stop size : ℕ) (out : Bytes)
    (h : Ahead content rest stop size ps n p out) :
    unescape content stop size n p out = answer ((meaning ps).map (out ++ ·)) := by
  induction ps using meaning.induct generalizing n p out with
  | case1 =>
    obtain ⟨n, rfl⟩ := h.fuel_left
    rw [unescape, if_neg (by rw [h.ends]; exact Nat.lt_irrefl p), meaning, Option.map_some,
      List.append_nil]
    rfl
  | case2 c ps ih =>
    obtain ⟨n, rfl⟩ := h.fuel_left
    have hraw := h.lexed _ List.mem_cons_self
    exact h.stored [.raw c] [c] (List.cons_ne_nil _ _) le_rfl
      (unescape_plain h.placed hraw.2 (h.within [.raw c])) ih
  | case3 e ps ih =>
    obtain ⟨n, rfl⟩ := h.fuel_left
    have hwithin : p+1 < stop := h.within [.pair e]
    have hturn : unescape content stop size (n+1) p out = answer (simpleEscape e) >>= fun b =>
        store size out [b] >>= fun out => unescape content stop size n (p+2) out :=
      unescape_pair h.placed (h.lexed _ List.mem_cons_self) (Nat.lt_of_succ_lt hwithin)
    rw [meaning]
    cases hb : simpleEscape e with
    | none =>
      rw [hturn, hb]
      rfl
    | some b =>
      rw [hb, answer, ok_bind] at hturn
      exact h.stored [.pair e] [b] (List.cons_ne_nil _ _) le_rfl hturn ih
  | case4 a b c d ps hl =>
    obtain ⟨n, rfl⟩ := h.fuel_left
    have hwithin : p+6 ≤ stop := h.within [.code a b c d]
    rw [unescape_code h.placed (by omega), literal_low h.placed (by omega) hl, meaning_low ps hl]
    rfl
  | case5 a b c d hl hh a' b' c' d' ps hw ih =>
    obtain ⟨n, rfl⟩ := h.fuel_left
    have hwithin : p+12 ≤ stop := h.within [.code a b c d, .code a' b' c' d']
    have hlen := character_length (joined (hexCode a b c d) (hexCode a' b' c' d'))
    rw [meaning_pair ps hl hh, if_pos hw]
    have hbytes : (character (joined (hexCode a b c d) (hexCode a' b' c' d'))).length+
        escapes [.code a b c d, .code a' b' c' d'] ≤
          (texts [.code a b c d, .code a' b' c' d']).length := show _+2 ≤ 12 by omega
    have htwelve : (texts [.code a b c d, .code a' b' c' d']).length = 12 := rfl
    refine h.stored [.code a b c d, .code a' b' c' d']
      (character (joined (hexCode a b c d) (hexCode a' b' c' d'))) (List.cons_ne_nil _ _) hbytes
      ?_ ih
    rw [htwelve, unescape_code h.placed (by omega), literal_pair h.placed (by omega) hh, if_pos hw, ok_bind]
  | case6 a b c d hl hh a' b' c' d' ps hw =>
    obtain ⟨n, rfl⟩ := h.fuel_left
    have hwithin : p+12 ≤ stop := h.within [.code a b c d, .code a' b' c' d']
    rw [unescape_code h.placed (by omega), literal_pair h.placed (by omega) hh, if_neg hw,
      meaning_pair ps hl hh, if_neg hw]
    rfl
  | case7 a b c d ps hl hh hlone =>
    obtain ⟨n, rfl⟩ := h.fuel_left
    have hwithin : p+6 ≤ stop := h.within [.code a b c d]
    rw [unescape_code h.placed (by omega), literal_lone h.placed (by omega) hh (h.no_second hlone),
      refuse_bind, meaning_lone hl hh hlone]
    rfl
  | case8 a b c d ps hl hh ih =>
    obtain ⟨n, rfl⟩ := h.fuel_left
    have hwithin : p+6 ≤ stop := h.within [.code a b c d]
    have hlen := character_length (hexCode a b c d)
    rw [meaning_single ps hl hh]
    refine h.stored [.code a b c d] _ (List.cons_ne_nil _ _) (show _+1 ≤ 6 by omega) ?_ ih
    rw [unescape_code h.placed (by omega), literal_single h.placed (by omega) hl hh, ok_bind]
    rfl

theorem meaning_length {ps : List Piece} {bytes : Bytes} (h : meaning ps = some bytes) :
    bytes.length+escapes ps ≤ (texts ps).length := by
  induction ps using meaning.induct generalizing bytes with
  | case1 =>
    rw [← Option.some.inj h]
    exact le_rfl
  | case2 c ps ih =>
    obtain ⟨t, ht, rfl⟩ := Option.map_eq_some_iff.mp h
    have hle := ih ht
    rw [raw_length, raw_escapes, List.length_cons]
    omega
  | case3 e ps ih =>
    obtain ⟨b, _, hb⟩ := Option.bind_eq_some_iff.mp h
    obtain ⟨t, ht, rfl⟩ := Option.map_eq_some_iff.mp hb
    have hle := ih ht
    rw [pair_length, pair_escapes, List.length_cons]
    omega
  | case4 a b c d ps hl => rw [meaning_low ps hl] at h; cases h
  | case5 a b c d hl hh a' b' c' d' ps hw ih =>
    rw [meaning_pair ps hl hh, if_pos hw] at h
    obtain ⟨t, ht, rfl⟩ := Option.map_eq_some_iff.mp h
    have hle := ih ht
    have hlen := character_length (joined (hexCode a b c d) (hexCode a' b' c' d'))
    simp only [code_length, code_escapes, List.length_append]
    omega
  | case6 a b c d hl hh a' b' c' d' ps hw =>
    rw [meaning_pair ps hl hh, if_neg hw] at h
    cases h
  | case7 a b c d ps hl hh hlone => rw [meaning_lone hl hh hlone] at h; cases h
  | case8 a b c d ps hl hh ih =>
    rw [meaning_single ps hl hh] at h
    obtain ⟨t, ht, rfl⟩ := Option.map_eq_some_iff.mp h
    have hle := ih ht
    have hlen := character_length (hexCode a b c d)
    simp only [code_length, code_escapes, List.length_append]
    omega

/-- A string is read as what its pieces mean, up to the first NUL, and refused
where they mean nothing. -/
theorem string_pieces (ps : List Piece) {off : ℕ} (hlex : ∀ q ∈ ps, q.Lexed)
    (h : content.drop off = quote::texts ps ++ quote::rest) : parseString content off =
      answer ((meaning ps).map fun bytes =>
        (CString.at (bytes ++ [0]), off+(texts ps).length+2)) := by
  have hroom := room_behind (a := quote::texts ps) h (List.cons_ne_nil _ _)
  rw [List.length_cons] at hroom
  have hle := escapes_le ps
  have hclose := closing_pieces ps (content.length+1) (off+1) 0 hlex (drop_one h) (by omega)
  have hun := unescape_pieces ps (content.length+1) (off+1) (off+1+(texts ps).length)
    (off+1+(texts ps).length-off-(0+escapes ps)+1) []
    ⟨hlex, drop_one h, rfl, by omega, by rw [List.length_nil]; omega⟩
  rw [parseString, cell_some (at_head h), ok_bind, if_neg (by simp), hclose, ok_bind]
  simp only [hun]
  cases hm : meaning ps with
  | none => rfl
  | some bytes =>
    have hlen := meaning_length hm
    rw [Option.map_some, answer, ok_bind, List.nil_append,
      store_room [0] (by rw [List.length_singleton]; omega), ok_bind, Option.map_some, answer]
    show Except.ok _ = Except.ok _
    congr 2
    omega

theorem at_chars (s : CString) (tail : Bytes) : CString.at (s.chars ++ 0::tail) = s := by
  have hcut := at_cut s.nul_free tail
  cases s with
  | mk chars nul_free =>
    unfold CString.at at hcut ⊢
    simp only [CString.mk.injEq]
    exact hcut

end Stored

section Unicode

/-- The ways to write a character: its UTF-8, a short escape, its code, or the
codes of a surrogate pair. -/
inductive Spells : Char → List Piece → Prop where
  | plain {c : Char} (hq : c ≠ '"') (hb : c ≠ '\\') :
      Spells c ((String.utf8EncodeChar c).map .raw)
  | pair {e b : Byte} (h : simpleEscape e = some b) : Spells (Char.ofNat b.toNat) [.pair e]
  | code {a b c d : Byte} (hl : ¬Low (hexCode a b c d)) (hh : ¬High (hexCode a b c d)) :
      Spells (Char.ofNat (hexCode a b c d)) [.code a b c d]
  | surrogates {a b c d a' b' c' d' : Byte} (hh : High (hexCode a b c d))
      (hw : Low (hexCode a' b' c' d')) :
      Spells (Char.ofNat (joined (hexCode a b c d) (hexCode a' b' c' d')))
        [.code a b c d, .code a' b' c' d']

inductive Spelling : List Char → List Piece → Prop where
  | nil : Spelling [] []
  | cons {c : Char} {cs : List Char} {ps qs : List Piece} (hc : c ≠ '\x00') (hps : Spells c ps)
      (hqs : Spelling cs qs) : Spelling (c::cs) (ps ++ qs)

theorem utf8_ascii {c : Char} {b : Byte} (hb : b ∈ String.utf8EncodeChar c) (h : b < 128) :
    b.toNat = c.toNat := by
  have hc : c.val.toNat = c.toNat := rfl
  have htail : ∀ n m : ℕ, n < 128 → 128 ≤ m → m+n < 256 → b = UInt8.ofNat (n+m) → False := by
    rintro n m _ hm hlt rfl
    have hnat := UInt8.lt_iff_toNat_lt.mp h
    rw [UInt8.toNat_ofNat_of_lt' (show n+m < 256 from by omega)] at hnat
    have h128 : (128 : Byte).toNat = 128 := rfl
    omega
  unfold String.utf8EncodeChar at hb
  simp only at hb
  split at hb
  next hle =>
    have hlt : c.val.toNat < 256 := by omega
    rw [List.mem_singleton.mp hb, UInt8.toNat_ofNat_of_lt' hlt, hc]
  split at hb
  next =>
    simp only [List.mem_cons, List.not_mem_nil, or_false] at hb
    rcases hb with hb | hb <;> exact (htail _ _ (by omega) (by omega) (by omega) hb).elim
  split at hb
  next =>
    simp only [List.mem_cons, List.not_mem_nil, or_false] at hb
    rcases hb with hb | hb | hb <;> exact (htail _ _ (by omega) (by omega) (by omega) hb).elim
  next =>
    simp only [List.mem_cons, List.not_mem_nil, or_false] at hb
    rcases hb with hb | hb | hb | hb <;> exact (htail _ _ (by omega) (by omega) (by omega) hb).elim

theorem utf8_avoids {c k : Char} {b : Byte} (hk : k.toNat = b.toNat) (h : b < 128) (hc : c ≠ k) :
    b ∉ String.utf8EncodeChar c := by
  intro hb
  exact hc (Char.toNat_inj.mp ((utf8_ascii hb h).symm.trans hk.symm))

theorem character_ascii {b : Byte} (h : b < 128) : character b.toNat = [b] := by
  have hlt : b.toNat < 128 := UInt8.lt_iff_toNat_lt.mp h
  have hv : (Char.ofNat b.toNat).val.toNat = b.toNat := char_number (.inl (by omega))
  rw [character, String.utf8EncodeChar, hv, if_pos (by omega), UInt8.ofNat_toNat]

theorem escape_ascii {e b : Byte} (h : simpleEscape e = some b) : b < 128 := by
  unfold simpleEscape at h
  split at h
  next => cases h; decide
  split at h
  next => cases h; decide
  split at h
  next => cases h; decide
  split at h
  next => cases h; decide
  split at h
  next => cases h; decide
  split at h
  next he =>
    cases h
    rcases he with rfl | rfl | rfl <;> decide
  next => cases h

theorem hex_plain {c : Byte} {d : ℕ} (h : isHex c = some d) : Plain c := by
  constructor
  · rintro rfl
    cases h
  · rintro rfl
    cases h

theorem code_lexed {a b c d : Byte} (h : hexCode a b c d ≠ 0) : (Piece.code a b c d).Lexed := by
  unfold hexCode at h
  split at h
  next hp hq hr hs => exact ⟨hex_plain hp, hex_plain hq, hex_plain hr, hex_plain hs⟩
  next => exact absurd rfl h

theorem spells_lexed {c : Char} {ps : List Piece} (h : Spells c ps) (hc : c ≠ '\x00') :
    ∀ q ∈ ps, q.Lexed := by
  cases h with
  | plain hq hb =>
    intro q hmem
    obtain ⟨b, hb', rfl⟩ := List.mem_map.mp hmem
    constructor
    · rintro rfl
      exact utf8_avoids rfl (by decide) hq hb'
    · rintro rfl
      exact utf8_avoids rfl (by decide) hb hb'
  | pair h =>
    intro q hmem
    rw [List.mem_singleton.mp hmem]
    rintro rfl
    cases h
  | code hl hh =>
    intro q hmem
    rw [List.mem_singleton.mp hmem]
    refine code_lexed fun h0 => hc ?_
    rw [h0]
  | surrogates hh hw =>
    refine List.forall_mem_cons.mpr ⟨code_lexed (by omega), List.forall_mem_cons.mpr
      ⟨code_lexed (by omega), fun q hq => absurd hq List.not_mem_nil⟩⟩

theorem meaning_raw (bytes : Bytes) (rest : List Piece) :
    meaning (bytes.map .raw ++ rest) = (meaning rest).map (bytes ++ ·) := by
  induction bytes with
  | nil => exact Option.map_id'.symm
  | cons b bytes ih =>
    rw [List.map_cons, List.cons_append, meaning, ih, Option.map_map]
    rfl

theorem spells_meaning {c : Char} {ps : List Piece} (h : Spells c ps) (rest : List Piece) :
    meaning (ps ++ rest) = (meaning rest).map (String.utf8EncodeChar c ++ ·) := by
  cases h with
  | plain hq hb => exact meaning_raw _ rest
  | pair h =>
    rw [List.cons_append, List.nil_append, meaning, h, Option.bind_some,
      show String.utf8EncodeChar (Char.ofNat _) = character _ from rfl,
      character_ascii (escape_ascii h)]
    rfl
  | code hl hh => exact meaning_single rest hl hh
  | surrogates hh hw => exact (meaning_pair rest (by omega) hh).trans (if_pos hw)

def utf8 (cs : List Char) : Bytes := cs.flatMap String.utf8EncodeChar

theorem spelling_lexed {cs : List Char} {ps : List Piece} (h : Spelling cs ps) :
    ∀ q ∈ ps, q.Lexed := by
  induction h with
  | nil => exact fun q hq => absurd hq List.not_mem_nil
  | cons hc hps hqs ih =>
    exact fun q hq => (List.mem_append.mp hq).elim (spells_lexed hps hc q) (ih q)

theorem spelling_meaning {cs : List Char} {ps : List Piece} (h : Spelling cs ps) :
    meaning ps = some (utf8 cs) := by
  induction h with
  | nil => rfl
  | cons hc hps hqs ih =>
    rw [spells_meaning hps, ih]
    rfl

theorem spelling_nul_free {cs : List Char} {ps : List Piece} (h : Spelling cs ps) :
    0 ∉ utf8 cs := by
  induction h with
  | nil => exact List.not_mem_nil
  | cons hc hps hqs ih =>
    exact fun hmem => (List.mem_append.mp hmem).elim (utf8_avoids rfl (by decide) hc) ih

/-- However a text is spelled, it is read as its UTF-8. -/
theorem spelled_read {cs : List Char} {ps : List Piece} (h : Spelling cs ps) {content rest : Bytes}
    {off : ℕ} (hdrop : content.drop off = quote::texts ps ++ quote::rest) :
    parseString content off =
      .ok (⟨utf8 cs, spelling_nul_free h⟩, off+(texts ps).length+2) := by
  rw [string_pieces ps (spelling_lexed h) hdrop, spelling_meaning h, Option.map_some, answer,
    at_chars ⟨utf8 cs, spelling_nul_free h⟩ []]

def sampleText : Bytes := ascii "[\"\\u00E9\\ud83d\\uDE00\\/\"]"

def samplePieces : List Piece :=
  [.code 48 48 69 57, .code 100 56 51 100, .code 68 69 48 48, .pair 47]

theorem sample_spelling : Spelling ['é', '😀', '/'] samplePieces := by
  have hcode : hexCode 48 48 69 57 = 0xE9 := by decide
  have hpair : joined (hexCode 100 56 51 100) (hexCode 68 69 48 48) = 0x1F600 := by decide
  have hfirst : Spells 'é' [.code 48 48 69 57] := by
    have h := @Spells.code 48 48 69 57 (by decide) (by decide)
    rwa [hcode] at h
  have hsecond : Spells '😀' [.code 100 56 51 100, .code 68 69 48 48] := by
    have h := @Spells.surrogates 100 56 51 100 68 69 48 48 (by decide) (by decide)
    rwa [hpair] at h
  have hthird : Spells '/' [.pair 47] := @Spells.pair 47 47 rfl
  exact .cons (by decide) hfirst (.cons (by decide) hsecond (.cons (by decide) hthird .nil))

theorem spelled_read_sample : ∃ h : 0 ∉ utf8 ['é', '😀', '/'],
    parseString sampleText 1 = .ok (⟨utf8 ['é', '😀', '/'], h⟩, 23) := by
  have hdrop : sampleText.drop 1 = quote::texts samplePieces ++ quote::[93] := by decide
  exact ⟨spelling_nul_free sample_spelling, spelled_read sample_spelling hdrop⟩

end Unicode

end RaptorCommon.JsonSpelling
