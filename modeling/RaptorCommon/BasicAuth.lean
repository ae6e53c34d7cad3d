import RaptorCommon.Base64
import RaptorCommon.HttpAuth
import RaptorCommon.LineText

/-!
# Who is let in

A request is let in exactly when its first authorization line decodes, within
the buffer, to the user and the password around the first colon.
-/

set_option autoImplicit false

namespace RaptorCommon.BasicAuth
open RaptorCommon.CText RaptorCommon.LineText RaptorCommon.BitString RaptorCommon.Base64
open RaptorCommon.HttpAuth

section Decoding

variable {c : Byte} {text rest : Bytes}

theorem chars_symbols : b64Chars = symbols := rfl

theorem sextet_lt {i : ℕ} (h : sextet c = some i) : i < 64 := by
  rw [sextet] at h
  obtain ⟨hlt, -⟩ := List.idxOf?_eq_some_iff.mp h
  rwa [symbols_length] at hlt

theorem table_some {i : ℕ} (h : sextet c = some i) : b64Table c = i.toUInt8 := by
  rw [sextet, ← chars_symbols] at h
  rw [b64Table, h]

theorem table_none (h : sextet c = none) : b64Table c = 0xFF := by
  rw [sextet, ← chars_symbols] at h
  rw [b64Table, h]

theorem table_symbol {i : ℕ} (h : i < 64) : i.toUInt8 ≠ 0xFF := by
  have hall : ∀ i : Fin 64, i.val.toUInt8 ≠ 0xFF := by decide
  exact hall ⟨i, h⟩

theorem sextets_skip (hc : c ≠ padding) (h : sextet c = none) :
    sextets (c::rest) = sextets rest := by
  unfold sextets
  rw [List.takeWhile_cons_of_pos (by simpa using hc), List.filterMap_cons_none h]

theorem sextets_take {i : ℕ} (hc : c ≠ padding) (h : sextet c = some i) :
    sextets (c::rest) = i::sextets rest := by
  unfold sextets
  rw [List.takeWhile_cons_of_pos (by simpa using hc), List.filterMap_cons_some h]

theorem buf_bits (buf : UInt32) {i bits : ℕ} (hi : i < 64) (hb : bits < 8) :
    digits (bits+6) (buf <<< 6 ||| i.toUInt8.toUInt32).toNat =
      digits bits buf.toNat ++ digits 6 i := by
  have hv : i.toUInt8.toUInt32.toNat = i := by
    rw [UInt8.toNat_toUInt32]
    exact Nat.mod_eq_of_lt (by omega)
  have hbit : ∀ j < 32, (buf <<< 6 ||| i.toUInt8.toUInt32).toNat.testBit j =
      ((decide (6 ≤ j) && buf.toNat.testBit (j-6)) || i.testBit j) := by
    intro j hj
    rw [UInt32.toNat_or, Nat.testBit_or, hv, UInt32.toNat_shiftLeft, Nat.testBit_mod_two_pow,
      decide_eq_true hj, Bool.true_and]
    exact congrArg (· || _) (Nat.testBit_shiftLeft ..)
  rw [digits_append]
  congr 1
  · apply digits_congr
    intro j hj
    have hhigh : i.testBit (j+6) = false :=
      Nat.testBit_lt_two_pow (hi.trans_le (Nat.pow_le_pow_right (by decide) (by omega) : 2^6 ≤ _))
    rw [Nat.testBit_div_two_pow, hbit _ (by omega), hhigh, Bool.or_false,
      decide_eq_true (by omega), Bool.true_and, Nat.add_sub_cancel]
  · apply digits_congr
    intro j hj
    rw [hbit _ (by omega), decide_eq_false (by omega), Bool.false_and, Bool.false_or]

theorem buf_byte (buf : UInt32) {bits : ℕ} (hb : bits < 8) :
    digits (8+bits) buf.toNat =
      byteBits (buf >>> (UInt32.ofNat bits)).toUInt8 ++ digits bits buf.toNat := by
  rw [digits_append]
  congr 1
  have hshift : (UInt32.ofNat bits).toNat % 32 = bits := by
    rw [UInt32.toNat_ofNat']
    omega
  have hval : (buf >>> (UInt32.ofNat bits)).toUInt8.toNat = buf.toNat/2^bits%2^8 := by
    rw [UInt32.toNat_toUInt8, UInt32.toNat_shiftRight, hshift, Nat.shiftRight_eq_div_pow]
  rw [byteBits, hval]
  exact (digits_mod le_rfl).symm

/-- The rest of the input gives the bytes of its bits behind those held, where
they fit. -/
theorem decode_loop (outMax : ℕ) (s : DecodeState) (text : Bytes) (hb : s.bits < 8)
    (hout : s.out.length ≤ outMax) :
    (decodeLoop outMax s text).map DecodeState.out =
      let more := octets (digits s.bits s.buf.toNat ++ (sextets text).flatMap (digits 6))
      if s.out.length+more.length ≤ outMax then some (s.out ++ more) else none := by
  have hnone : ∀ s : DecodeState, s.bits < 8 → s.out.length ≤ outMax → some s.out =
      let more := octets (digits s.bits s.buf.toNat ++ ([] : List ℕ).flatMap (digits 6))
      if s.out.length+more.length ≤ outMax then some (s.out ++ more) else none := by
    intro s hb hout
    rw [List.flatMap_nil, List.append_nil, octets_short (by rwa [digits_length])]
    simp [hout]
  induction text generalizing s with
  | nil => exact hnone s hb hout
  | cons c rest ih =>
    rw [decodeLoop]
    by_cases hc : c = 61
    · rw [if_pos hc, hc, show sextets (61::rest) = [] from sextets_padding rest]
      exact hnone s hb hout
    · rw [if_neg hc]
      dsimp only
      cases hs : sextet c with
      | none =>
        rw [if_pos (table_none hs), sextets_skip hc hs]
        exact ih s hb hout
      | some i =>
        have hi := sextet_lt hs
        rw [table_some hs, if_neg (table_symbol hi), sextets_take hc hs, List.flatMap_cons,
          ← List.append_assoc, ← buf_bits s.buf hi hb]
        generalize s.buf <<< 6 ||| i.toUInt8.toUInt32 = buf
        by_cases h8 : 8 ≤ s.bits+6
        · obtain ⟨left, hleft⟩ : ∃ left, s.bits+6 = 8+left := ⟨s.bits+6-8, by omega⟩
          have hl : left < 8 := by omega
          rw [if_pos h8, hleft, buf_byte buf hl, List.append_assoc, octets_byte]
          simp only [Nat.add_sub_cancel_left, List.length_cons]
          by_cases hfull : outMax ≤ s.out.length
          · rw [if_pos hfull, if_neg (by omega)]
            rfl
          · rw [if_neg hfull, ih ⟨_, buf, left⟩ hl (by simp; omega)]
            simp only [List.length_append, List.length_cons, List.length_nil, List.append_assoc,
              List.cons_append, List.nil_append]
            congr 2
            omega
        · rw [if_neg h8]
          exact ih ⟨s.out, buf, s.bits+6⟩ (by simp; omega) hout

theorem decode_base64 (input : Bytes) (outMax : ℕ) :
    rssBase64Decode input outMax =
      if (decoded input).length ≤ outMax then some (decoded input) else none := by
  rw [rssBase64Decode, decode_loop outMax _ input (by decide) (by simp)]
  simp [digits, decoded]

end Decoding

section Comparing

theorem zero_padded_length {s : Bytes} (h : s.length ≤ 255) : (zeroPadded s).length = 256 := by
  rw [zeroPadded, List.length_append, List.length_replicate]
  omega

theorem diff_zero (pairs : List (Byte × Byte)) (d : Byte) :
    pairs.foldl (fun diff c => diff ||| (c.1 ^^^ c.2)) d = 0 ↔
      d = 0 ∧ ∀ c ∈ pairs, c.1 = c.2 := by
  induction pairs generalizing d with
  | nil => simp
  | cons c pairs ih =>
    rw [List.foldl_cons, ih, UInt8.or_eq_zero_iff, UInt8.xor_eq_zero_iff]
    simp [and_assoc]

theorem zip_equal {s t : Bytes} (h : s.length = t.length) :
    (∀ c ∈ s.zip t, c.1 = c.2) ↔ s = t := by
  induction s generalizing t with
  | nil => simp [List.eq_nil_of_length_eq_zero h.symm]
  | cons a s ih =>
    cases t with
    | nil => simp at h
    | cons b t =>
      simp only [List.zip_cons_cons, List.mem_cons, forall_eq_or_imp, List.cons.injEq]
      rw [ih (by simpa using h)]

theorem padded_equal {a b : Bytes} (ha : 0 ∉ a) (hb : 0 ∉ b) (h : zeroPadded a = zeroPadded b) :
    a = b := by
  have hcut : ∀ {s : Bytes}, 0 ∉ s → (zeroPadded s).takeWhile (· ≠ 0) = s := by
    intro s hs
    rw [zeroPadded, List.takeWhile_append_of_pos]
    · cases 256-s.length with
      | zero => simp
      | succ n => rw [List.replicate_succ, List.takeWhile_cons_of_neg (by simp), List.append_nil]
    · intro c hc
      have hne : c ≠ 0 := fun h0 => hs (h0 ▸ hc)
      simpa using hne
  rw [← hcut ha, ← hcut hb, h]

theorem secure_compare (a b : CString) :
    rssSecureCompare a b = true ↔ a.chars = b.chars ∧ a.chars.length ≤ 255 := by
  unfold rssSecureCompare
  split_ifs with hlong
  · refine iff_of_false (by simp) ?_
    rintro ⟨heq, hlen⟩
    rw [← heq] at hlong
    omega
  · rw [not_or, not_lt, not_lt] at hlong
    rw [decide_eq_true_iff, diff_zero,
      zip_equal ((zero_padded_length hlong.1).trans (zero_padded_length hlong.2).symm)]
    constructor
    · rintro ⟨-, h⟩
      exact ⟨padded_equal a.nul_free b.nul_free h, hlong.1⟩
    · rintro ⟨h, -⟩
      exact ⟨rfl, by rw [h]⟩

end Comparing

section Searching

def isAuthLine (line : Bytes) : Bool := startsWithNeedle line

/-- What stands behind the header on the first such line, up to a space or the
line's end. -/
def headerToken (request : Bytes) : Option Bytes :=
  ((parts newline request).find? isAuthLine).map fun line =>
    (line.drop needle.length).takeWhile inToken

def firstLine (text : Bytes) : Bytes := text.takeWhile (· ≠ newline)

theorem first_line_newline (text : Bytes) : firstLine (newline::text) = [] := rfl

theorem first_line_cons {c : Byte} (h : c ≠ newline) (text : Bytes) :
    firstLine (c::text) = c::firstLine text :=
  List.takeWhile_cons_of_pos (by simpa using h)

theorem first_line_split (text : Bytes) :
    text = firstLine text ∨ ∃ rest, text = firstLine text ++ newline::rest := by
  induction text with
  | nil => exact .inl rfl
  | cons c text ih =>
    by_cases hc : c = newline
    · rw [hc, first_line_newline]
      exact .inr ⟨text, rfl⟩
    · rw [first_line_cons hc]
      rcases ih with h | ⟨rest, h⟩
      · exact .inl (congrArg _ h)
      · exact .inr ⟨rest, congrArg _ h⟩

theorem parts_head (text : Bytes) : ∃ ls, parts newline text = firstLine text::ls := by
  induction text with
  | nil => exact ⟨[], rfl⟩
  | cons c text ih =>
    obtain ⟨ls, hls⟩ := ih
    rw [parts_cons]
    split_ifs with hc
    · exact ⟨parts newline text, by rw [hc, first_line_newline]⟩
    · exact ⟨ls, by rw [hls, first_line_cons hc]; rfl⟩

theorem needle_plain : newline ∉ foldCase needle := by decide

theorem starts_length {text : Bytes} (h : startsWithNeedle text = true) :
    needle.length ≤ text.length := by
  have hlen := congrArg List.length (of_decide_eq_true h)
  rw [foldCase_length, foldCase_length, List.length_take] at hlen
  omega

theorem starts_line (text : Bytes) :
    startsWithNeedle text = startsWithNeedle (firstLine text) := by
  rcases first_line_split text with h | ⟨rest, h⟩
  · rw [← h]
  · generalize firstLine text = line at h ⊢
    rw [h]
    by_cases hlen : needle.length ≤ line.length
    · unfold startsWithNeedle
      rw [List.take_append_of_le_length hlen]
    · have hshort : startsWithNeedle line = false :=
        Bool.eq_false_iff.mpr fun hs => hlen (starts_length hs)
      rw [hshort]
      apply decide_eq_false
      intro hover
      apply needle_plain
      rw [← hover, mem_foldCase_mark newline (by simp), List.take_append,
        List.take_of_length_le (by omega)]
      apply List.mem_append_right
      obtain ⟨n, hn⟩ : ∃ n, needle.length-line.length = n+1 :=
        ⟨needle.length-line.length-1, by omega⟩
      rw [hn, List.take_succ_cons]
      exact List.mem_cons_self

theorem token_line {text : Bytes} (n : ℕ) (hn : n ≤ (firstLine text).length) :
    (text.drop n).takeWhile inToken = ((firstLine text).drop n).takeWhile inToken := by
  rcases first_line_split text with h | ⟨rest, h⟩
  · rw [← h]
  · generalize firstLine text = line at h hn ⊢
    rw [h, List.drop_append_of_le_length hn]
    induction line.drop n with
    | nil => rw [List.nil_append, List.takeWhile_cons_of_neg (by decide), List.takeWhile_nil]
    | cons c tail ih =>
      rw [List.cons_append, List.takeWhile_cons, List.takeWhile_cons, ih]

theorem find_auth_later (text : Bytes) :
    (findAuth false text).map (List.takeWhile inToken) =
        (((parts newline text).tail).find? isAuthLine).map
          (fun line => (line.drop needle.length).takeWhile inToken) ∧
      (findAuth true text).map (List.takeWhile inToken) = headerToken text := by
  induction text with
  | nil => exact ⟨rfl, by decide⟩
  | cons c text ih =>
    obtain ⟨hlater, hstart⟩ := ih
    have hnext : (findAuth (c = newline) text).map (List.takeWhile inToken) =
        (((parts newline (c::text)).tail).find? isAuthLine).map
          (fun line => (line.drop needle.length).takeWhile inToken) := by
      rw [parts_cons]
      by_cases hc : c = newline
      · rw [decide_eq_true hc, if_pos hc, hstart]
        rfl
      · rw [decide_eq_false hc, if_neg hc, hlater]
        cases hp : parts newline text with
        | nil => exact absurd hp (parts_nonempty newline text)
        | cons l ls => rfl
    refine ⟨by simpa only [findAuth, Bool.false_and, Bool.false_eq_true, if_false] using hnext, ?_⟩
    obtain ⟨ls, hls⟩ := parts_head (c::text)
    rw [hls, List.tail_cons] at hnext
    rw [headerToken, hls, List.find?_cons, isAuthLine, ← starts_line, findAuth, Bool.true_and]
    cases hm : startsWithNeedle (c::text) with
    | true =>
      have hlen : needle.length ≤ (firstLine (c::text)).length :=
        starts_length (starts_line (c::text) ▸ hm)
      rw [if_pos rfl, Option.map_some, Option.map_some, token_line _ hlen]
    | false =>
      rw [if_neg Bool.false_ne_true, hnext]

theorem find_auth (request : Bytes) :
    (findAuth true request).map (List.takeWhile inToken) = headerToken request :=
  (find_auth_later request).2

end Searching

section Access

variable {request user pass : CString}

/-- The text, cut at its first NUL, is the two strings around its first colon. -/
def SplitsInto (text user pass : Bytes) : Prop :=
  text.takeWhile (· ≠ 0) = user ++ colon::pass ∧ colon ∉ user

theorem split_colon {user : Bytes} (pass : Bytes) (h : colon ∉ user) :
    (user ++ colon::pass).takeWhile (· ≠ colon) = user ∧
      ((user ++ colon::pass).dropWhile (· ≠ colon)).tail = pass := by
  have hpos : ∀ c ∈ user, decide (c ≠ colon) = true := fun c hc =>
    decide_eq_true fun h0 => h (h0 ▸ hc)
  constructor
  · rw [List.takeWhile_append_of_pos hpos, List.takeWhile_cons_of_neg (by simp), List.append_nil]
  · rw [List.dropWhile_append_of_pos hpos, List.dropWhile_cons_of_neg (by simp), List.tail_cons]

theorem split_unique {u p user pass : Bytes} {text : Bytes} (h : SplitsInto text u p)
    (h' : SplitsInto text user pass) : u = user ∧ p = pass := by
  have hu := split_colon p h.2
  have hu' := split_colon pass h'.2
  rw [← h.1] at hu
  rw [← h'.1] at hu'
  exact ⟨hu.1.symm.trans hu'.1, hu.2.symm.trans hu'.2⟩

theorem split_credentials (text : Bytes) :
    (∃ u p : CString, splitCredentials text = some (u, p) ∧ SplitsInto text u.chars p.chars) ∨
      splitCredentials text = none ∧ ∀ user pass, ¬SplitsInto text user pass := by
  unfold splitCredentials
  dsimp only
  split_ifs with hc
  · refine .inl ⟨_, _, rfl, ?_, ?_⟩
    · have hsplit := List.takeWhile_append_dropWhile (p := fun c => decide (c ≠ colon))
        (l := (CString.at text).chars)
      have hne : (CString.at text).chars.dropWhile (fun c => decide (c ≠ colon)) ≠ [] := by
        intro h0
        rw [List.dropWhile_eq_nil_iff] at h0
        simpa using h0 colon hc
      have hhead := List.head_dropWhile_not (fun c => decide (c ≠ colon)) hne
      rw [decide_eq_false_iff_not, not_not] at hhead
      rw [← List.cons_head_tail hne, hhead] at hsplit
      exact hsplit.symm
    · intro hmem
      simpa using List.mem_takeWhile_imp hmem
  · refine .inr ⟨rfl, fun user pass h => hc ?_⟩
    show colon ∈ text.takeWhile _
    rw [h.1]
    simp

def Authorized (request user pass : Bytes) : Prop :=
  ∃ token, headerToken request = some token ∧ 1 ≤ (decoded token).length ∧
    (decoded token).length ≤ 255 ∧ SplitsInto (decoded token) user pass

theorem split_length {text user pass : Bytes} (h : SplitsInto text user pass) :
    user.length+pass.length+1 ≤ text.length := by
  have hle := (List.takeWhile_prefix (l := text) (fun c => decide (c ≠ 0))).length_le
  rw [h.1, List.length_append, List.length_cons] at hle
  omega

theorem check_authorized (request pass : CString) (hu : user.chars ≠ []) :
    rssHttpCheckBasicAuth request user pass = true ↔
      Authorized request.chars user.chars pass.chars := by
  have hfind := find_auth request.chars
  unfold rssHttpCheckBasicAuth Authorized
  rw [if_neg hu]
  cases hf : findAuth true request.chars with
  | none =>
    rw [hf, Option.map_none] at hfind
    simp [← hfind]
  | some auth =>
    rw [hf, Option.map_some] at hfind
    rw [← hfind]
    dsimp only
    generalize auth.takeWhile inToken = token
    simp only [Option.some.injEq, exists_eq_left', decode_base64]
    split_ifs with hlen
    · dsimp only
      split_ifs with h0
      · refine iff_of_false (by simp) ?_
        rintro ⟨hpos, -⟩
        rw [h0] at hpos
        exact absurd hpos (by decide)
      · have hpos : 1 ≤ (decoded token).length := List.length_pos_iff.mpr h0
        rcases split_credentials (decoded token) with ⟨u, p, hs, hinto⟩ | ⟨hs, hnot⟩
        · have hfit := split_length hinto
          rw [hs]
          show (rssSecureCompare u user && rssSecureCompare p pass) = true ↔ _
          rw [Bool.and_eq_true, secure_compare, secure_compare]
          constructor
          · rintro ⟨⟨hu', -⟩, hp', -⟩
            exact ⟨hpos, hlen, hu' ▸ hp' ▸ hinto⟩
          · rintro ⟨-, -, hinto'⟩
            obtain ⟨hu', hp'⟩ := split_unique hinto hinto'
            exact ⟨⟨hu', by omega⟩, hp', by omega⟩
        · rw [hs]
          exact iff_of_false (by simp) fun h => hnot _ _ h.2.2
    · exact iff_of_false (by simp) fun h => hlen h.2.1

theorem splits_encoded {user pass : CString} (hc : colon ∉ user.chars) :
    SplitsInto (user.chars ++ colon::pass.chars) user.chars pass.chars := by
  refine ⟨?_, hc⟩
  rw [List.takeWhile_eq_self_iff]
  intro c hmem
  have hne : c ≠ 0 := by
    rintro rfl
    simp only [List.mem_append, List.mem_cons] at hmem
    rcases hmem with h | h | h
    · exact user.nul_free h
    · exact absurd h (by decide)
    · exact pass.nul_free h
  exact decide_eq_true hne

/-- Who is let in, and what of it holds for a user without a colon. -/
structure AccessExact (request user pass : CString) : Prop where
  exact_when : rssHttpCheckBasicAuth request user pass = true ↔
    Authorized request.chars user.chars pass.chars
  accepts : colon ∉ user.chars → user.chars.length+pass.chars.length ≤ 254 →
    headerToken request.chars = some (encode (user.chars ++ colon::pass.chars)) →
      rssHttpCheckBasicAuth request user pass = true
  rejects : ∀ token, headerToken request.chars = some token →
    ¬SplitsInto (decoded token) user.chars pass.chars →
      rssHttpCheckBasicAuth request user pass = false

theorem access_exact (request user pass : CString) (hu : user.chars ≠ []) :
    AccessExact request user pass := by
  have hiff := check_authorized request pass hu
  refine ⟨hiff, ?_, ?_⟩
  · intro hc hlen htoken
    refine hiff.mpr ⟨_, htoken, ?_⟩
    rw [decoded_encode, List.length_append, List.length_cons]
    exact ⟨by omega, by omega, splits_encoded hc⟩
  · intro token htoken hnot
    rw [Bool.eq_false_iff, Ne, hiff]
    rintro ⟨token', htoken', -, -, hinto⟩
    rw [htoken] at htoken'
    cases htoken'
    exact hnot hinto

/-- `admin:secret`, in the second line. -/
theorem access_exact_admin : AccessExact
    ⟨ascii "GET / HTTP/1.1\r\nauthorization: basic YWRtaW46c2VjcmV0\r\n", by decide⟩
    ⟨ascii "admin", by decide⟩ ⟨ascii "secret", by decide⟩ :=
  access_exact _ _ _ (by decide)

end Access

end RaptorCommon.BasicAuth
