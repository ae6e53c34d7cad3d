import Mathlib.Data.List.GetD
import RaptorCommon.Sha512Standard

/-!
# A digest fed in pieces

The context stands for the message read so far: its hash for the whole blocks,
its sixteen words for the bytes since, zero behind them. However a message is
cut, its digest is the standard's.
-/

set_option autoImplicit false

namespace RaptorCommon.Sha512Stream
open RaptorCommon.CText
open RaptorCommon.Sha512
open RaptorCommon.Sha512Standard
open RaptorCommon.BlockStream

section Words

theorem byteAt_drop (s : Bytes) (k i : ℕ) : byteAt (s.drop k) i = byteAt s (k+i) := by
  rw [byteAt, byteAt, List.getD_eq_getElem?_getD, List.getD_eq_getElem?_getD,
    List.getElem?_drop]

theorem byteAt_past {s : Bytes} {i : ℕ} (h : s.length ≤ i) : byteAt s i = 0 := by
  rw [byteAt, List.getD_eq_getElem?_getD, List.getElem?_eq_none h]
  rfl

theorem byteAt_append_left {s c : Bytes} {i : ℕ} (h : i < s.length) :
    byteAt (s ++ c) i = byteAt s i := by
  rw [byteAt, byteAt, List.getD_eq_getElem?_getD, List.getD_eq_getElem?_getD,
    List.getElem?_append_left h]

theorem load64Be_congr {s s' : Bytes} (h : ∀ i < 8, byteAt s i = byteAt s' i) :
    load64Be s = load64Be s' := by
  simp only [load64Be, h 0 (by decide), h 1 (by decide), h 2 (by decide), h 3 (by decide),
    h 4 (by decide), h 5 (by decide), h 6 (by decide), h 7 (by decide)]

theorem load64Be_snoc (s : Bytes) (b : Byte) (h : s.length < 8) :
    load64Be (s ++ [b]) = load64Be s ||| b.toBitVec.setWidth 64 <<< (8*(7-s.length)) := by
  have hb : byteAt (s ++ [b]) s.length = b.toBitVec.setWidth 64 := by
    simp [byteAt]
  have hleft : ∀ i < s.length, byteAt (s ++ [b]) i = byteAt s i :=
    fun i hi => byteAt_append_left hi
  have hright : ∀ i, s.length < i → byteAt (s ++ [b]) i = 0 :=
    fun i hi => byteAt_past (by rw [List.length_append]; exact hi)
  have hpast : ∀ i, s.length ≤ i → byteAt s i = 0 := fun i hi => byteAt_past hi
  generalize s.length = n at *
  interval_cases n <;> simp [load64Be, hb, hleft, hright, hpast]

@[simp] theorem words_length (n : ℕ) (s : Bytes) : (words n s).length = n := by
  induction n generalizing s with
  | zero => rfl
  | succ n ih => rw [words, List.length_cons, ih]

theorem words_getElem (n j : ℕ) (s : Bytes) (h : j < (words n s).length) :
    (words n s)[j] = load64Be (s.drop (8*j)) := by
  induction n generalizing s j with
  | zero => exact absurd h (Nat.not_lt_zero j)
  | succ n ih =>
    cases j with
    | zero => rfl
    | succ j =>
      simp only [words, List.getElem_cons_succ]
      rw [ih, List.drop_drop, show 8+8*j = 8*(j+1) by omega]

theorem words_zeros (n k : ℕ) (s : Bytes) : words n (s ++ List.replicate k 0) = words n s := by
  have hb : ∀ i, byteAt (s ++ List.replicate k 0) i = byteAt s i := by
    intro i
    by_cases hi : i < s.length
    · exact byteAt_append_left hi
    · rw [byteAt_past (s := s) (Nat.not_lt.mp hi), byteAt, List.getD_eq_getElem?_getD,
        List.getElem?_append_right (Nat.not_lt.mp hi), List.getElem?_replicate]
      split <;> rfl
  refine List.ext_getElem (by simp) (fun j h h' => ?_)
  rw [words_getElem, words_getElem]
  exact load64Be_congr (fun i _ => by rw [byteAt_drop, byteAt_drop, hb])

theorem words_append (n : ℕ) (s c : Bytes) (hc : s.length%8 + c.length ≤ 8) :
    words n (s ++ c) =
      (words n s).set (s.length/8) (load64Be ((s ++ c).drop (8*(s.length/8)))) := by
  refine List.ext_getElem (by simp) (fun j h h' => ?_)
  rw [List.getElem_set, words_getElem, words_getElem]
  split
  case isTrue hj => rw [hj]
  case isFalse hj =>
    refine load64Be_congr (fun i hi => ?_)
    rw [byteAt_drop, byteAt_drop]
    by_cases hin : 8*j+i < s.length
    · exact byteAt_append_left hin
    · rw [byteAt_past (by rw [List.length_append]; omega), byteAt_past (by omega)]

theorem words_snoc (n : ℕ) (s : Bytes) (b : Byte) :
    words n (s ++ [b]) = (words n s).set (s.length/8)
      ((words n s).getD (s.length/8) 0 ||| b.toBitVec.setWidth 64 <<< (8*(7-s.length%8))) := by
  by_cases hn : s.length/8 < n
  · have hlen : (s.drop (8*(s.length/8))).length = s.length%8 := by
      rw [List.length_drop]
      omega
    have hget : (words n s).getD (s.length/8) 0 = load64Be (s.drop (8*(s.length/8))) := by
      rw [List.getD_eq_getElem _ _ (by simpa using hn), words_getElem]
    rw [words_append n s [b] (by simp; omega), hget,
      List.drop_append_of_le_length (by omega), load64Be_snoc _ _ (by rw [hlen]; omega), hlen]
  · rw [List.set_eq_of_length_le (by simpa using hn), words_append n s [b] (by simp; omega),
      List.set_eq_of_length_le (by simpa using hn)]

theorem load64Be_take (s : Bytes) : load64Be (s.take 8) = load64Be s := by
  refine load64Be_congr (fun i hi => ?_)
  rw [byteAt, byteAt, List.getD_eq_getElem?_getD, List.getD_eq_getElem?_getD,
    List.getElem?_take_of_lt hi]

theorem load64BeBuf_words (n : ℕ) (s c : Bytes) (k : ℕ) (hs : s.length%8 = 0)
    (hk : 8*k ≤ c.length) :
    load64BeBuf (words n s) (s.length/8) c k = words n (s ++ c.take (8*k)) := by
  induction k with
  | zero => rw [Nat.mul_zero, List.take_zero, List.append_nil]; rfl
  | succ k ih =>
    have hlen : (s ++ c.take (8*k)).length = s.length+8*k := by
      rw [List.length_append, List.length_take, Nat.min_eq_left (by omega)]
    have hword : 8*((s ++ c.take (8*k)).length/8) = (s ++ c.take (8*k)).length := by omega
    have hindex : s.length/8+k = (s ++ c.take (8*k)).length/8 := by omega
    have hstep := words_append n (s ++ c.take (8*k)) ((c.drop (8*k)).take 8)
      (by rw [hlen, List.length_take]; omega)
    rw [hword, List.drop_left, load64Be_take, List.append_assoc, ← List.take_add] at hstep
    rw [load64BeBuf, List.range_succ, List.foldl_append, Nat.mul_succ, hstep, ← ih (by omega),
      ← hindex, Nat.mul_comm 8 k]
    rfl

end Words

section Size

def sizeOf (x : Word × Word) : ℕ := x.1.toNat*2^64 + x.2.toNat

theorem sha512Incr_sizeOf (x : Word × Word) (y : Word) :
    sizeOf (sha512Incr x y) = (sizeOf x + y.toNat)%2^128 := by
  have h1 := x.1.isLt
  have h2 := x.2.isLt
  have h3 := y.isLt
  have hlow : (x.2 + y).toNat = (x.2.toNat + y.toNat)%2^64 := BitVec.toNat_add _ _
  have hhigh : (x.1 + 1).toNat = (x.1.toNat + 1)%2^64 := BitVec.toNat_add _ _
  unfold sha512Incr
  split
  case isTrue h =>
    have hlt : (x.2 + y).toNat < y.toNat := h
    simp only [sizeOf, hhigh]
    omega
  case isFalse h =>
    have hge : ¬(x.2 + y).toNat < y.toNat := h
    simp only [sizeOf]
    omega

theorem compress_inputSize (ctx : Sha512Ctx) : (sha512Compress ctx).inputSize = ctx.inputSize := by
  unfold sha512Compress
  generalize List.foldl laterRounds _ _ = s
  rfl

end Size

section Indices

theorem and_seven (n : ℕ) : n &&& 7 = n%8 := Nat.and_two_pow_sub_one_eq_mod n 3

theorem and_block (n : ℕ) : n &&& 127 = n%128 := Nat.and_two_pow_sub_one_eq_mod n 7

theorem shift_word (n : ℕ) : n >>> 3 = n/8 := Nat.shiftRight_eq_div_pow n 3

theorem unshift_word (n : ℕ) : n <<< 3 = 8*n := by rw [Nat.shiftLeft_eq, Nat.mul_comm]

theorem align_word : ∀ x < 128, align x 8 = (8-x%8)%8 := by decide +kernel

theorem align_block : ∀ x < 129, align x 128 = (128-x%128)%128 := by decide +kernel

end Indices

/-- The context holds the hash of whole blocks and the bytes since. -/
structure Buffered (ctx : Sha512Ctx) (done tail : Bytes) : Prop where
  whole : 128 ∣ done.length
  fits : tail.length ≤ 128
  hash : ctx.hash = chain 128 block initialHash done
  input : ctx.input = words 16 tail
  size : sizeOf ctx.inputSize = 8*done.length%2^128
  idx : ctx.inputIdx = tail.length

variable {ctx : Sha512Ctx} {done tail : Bytes}

theorem buffered_init : Buffered cryptoSha512Init [] [] where
  whole := by decide
  fits := by decide
  hash := by rw [chain_nil]; rfl
  input := by decide
  size := by decide
  idx := rfl

theorem setByte_buffered (b : Byte) (h : Buffered ctx done tail) (hlt : tail.length < 128) :
    Buffered { sha512SetInput ctx b with inputIdx := ctx.inputIdx+1 } done (tail ++ [b]) where
  whole := h.whole
  fits := by rw [List.length_append]; exact hlt
  hash := h.hash
  input := by
    simp only [sha512SetInput]
    rw [h.idx, h.input, shift_word, and_seven, words_snoc]
  size := h.size
  idx := by rw [List.length_append, ← h.idx]; rfl

theorem setBytes_buffered (m : Bytes) (h : Buffered ctx done tail)
    (hfit : tail.length + m.length ≤ 128) : Buffered (setBytes ctx m) done (tail ++ m) := by
  induction m generalizing ctx tail with
  | nil => rw [List.append_nil]; exact h
  | cons b m ih =>
    rw [List.length_cons] at hfit
    rw [List.append_cons]
    exact ih (setByte_buffered b h (by omega))
      (by rw [List.length_append, List.length_singleton]; omega)

theorem setWords_buffered (m : Bytes) (n : ℕ) (h : Buffered ctx done tail)
    (htail : tail.length%8 = 0) (hfit : tail.length + 8*n ≤ 128) (hm : 8*n ≤ m.length) :
    Buffered (setWords ctx m n) done (tail ++ m.take (8*n)) where
  whole := h.whole
  fits := by rw [List.length_append, List.length_take]; omega
  hash := h.hash
  input := by
    rw [setWords, h.input, h.idx, shift_word, load64BeBuf_words 16 tail m n htail hm]
  size := h.size
  idx := by
    rw [List.length_append, List.length_take, Nat.min_eq_left hm, ← h.idx]
    simp only [setWords, unshift_word]

theorem setWords_zero (ctx : Sha512Ctx) (m : Bytes) : setWords ctx m 0 = ctx := rfl

variable (ctx) in
theorem endBlock_buffered {b : Bytes} (hwhole : 128 ∣ done.length) (hb : b.length = 128)
    (hhash : ctx.hash = chain 128 block initialHash done) (hinput : ctx.input = words 16 b)
    (hsize : sizeOf ctx.inputSize = 8*done.length%2^128) :
    Buffered (endBlock ctx) (done ++ b) [] where
  whole := by rw [List.length_append, hb]; omega
  fits := Nat.zero_le _
  hash := by
    rw [chain_snoc block initialHash (by decide) done b hwhole hb, ← hhash]
    exact compress_block { ctx with inputSize := sha512Incr ctx.inputSize 1024 } b hinput
  input := by
    have hlen := compress_length { ctx with inputSize := sha512Incr ctx.inputSize 1024 }
      (by rw [hinput, words_length])
    simp only [endBlock, zeroWords]
    rw [List.drop_of_length_le (Nat.le_of_eq hlen)]
    rfl
  size := by
    have hincr : (endBlock ctx).inputSize = sha512Incr ctx.inputSize 1024 := by
      rw [endBlock, compress_inputSize]
    have hbits : (1024 : Word).toNat = 1024 := by decide
    rw [hincr, sha512Incr_sizeOf, hbits, hsize, List.length_append, hb]
    omega
  idx := rfl

theorem alignWord_buffered (m : Bytes) (h : Buffered ctx done tail) (hlt : tail.length < 128) :
    ∃ c, m = c ++ (alignWord ctx m).2 ∧ Buffered (alignWord ctx m).1 done (tail ++ c) ∧
      ((tail ++ c).length%8 = 0 ∨ (alignWord ctx m).2 = []) := by
  simp only [alignWord, and_seven, h.idx, align_word _ hlt]
  split
  case isTrue hodd =>
    refine ⟨m.take _, (List.take_append_drop _ m).symm, setBytes_buffered _ h ?_, ?_⟩
    · rw [List.length_take]
      omega
    · by_cases hm : (8-tail.length%8)%8 ≤ m.length
      · left
        rw [Nat.min_eq_left hm, List.length_append, List.length_take, Nat.min_eq_left hm]
        omega
      · right
        rw [Nat.min_eq_right (by omega), List.drop_length]
  case isFalse heven =>
    refine ⟨[], rfl, by rw [List.append_nil]; exact h, Or.inl ?_⟩
    rw [List.append_nil]
    exact not_not.mp heven

/-- The held bytes make whole blocks, or the message is nearly used up. -/
def Placed (tail m : Bytes) : Prop :=
  tail.length%128 = 0 ∨ m.length < 8 ∧ tail.length + m.length < 128

theorem alignBlock_buffered (m : Bytes) (h : Buffered ctx done tail)
    (hm : tail.length%8 = 0 ∨ m = []) :
    ∃ c, m = c ++ (alignBlock ctx m).2 ∧ Buffered (alignBlock ctx m).1 done (tail ++ c) ∧
      Placed (tail ++ c) (alignBlock ctx m).2 := by
  have hfits := h.fits
  simp only [alignBlock, and_block, h.idx, align_block _ (show tail.length < 129 by omega),
    shift_word, unshift_word]
  split
  case isTrue hpart =>
    cases hm with
    | inl heven =>
      generalize hn : min ((128-tail.length%128)%128) m.length/8 = n
      have hnm : 8*n ≤ m.length := by omega
      have hlen : (tail ++ m.take (8*n)).length = tail.length + 8*n := by
        rw [List.length_append, List.length_take, Nat.min_eq_left hnm]
      refine ⟨m.take (8*n), (List.take_append_drop _ m).symm,
        setWords_buffered m n h heven (by omega) hnm, ?_⟩
      rw [Placed, hlen, List.length_drop]
      omega
    | inr hnil =>
      subst hnil
      rw [List.length_nil, Nat.min_zero, Nat.zero_div, setWords_zero]
      refine ⟨[], rfl, by rw [List.append_nil]; exact h, Or.inr ⟨by simp, ?_⟩⟩
      rw [List.append_nil, List.drop_nil, List.length_nil]
      omega
  case isFalse hwhole =>
    refine ⟨[], rfl, by rw [List.append_nil]; exact h, Or.inl ?_⟩
    rw [List.append_nil]
    exact not_not.mp hwhole

theorem compressFull_buffered {m : Bytes} (h : Buffered ctx done tail) (hp : Placed tail m) :
    ∃ done' tail', done ++ tail = done' ++ tail' ∧ Buffered (compressFull ctx) done' tail' ∧
      (tail' = [] ∨ m.length < 8 ∧ tail'.length + m.length < 128) := by
  unfold compressFull
  split
  case isTrue hfull =>
    exact ⟨done ++ tail, [], (List.append_nil _).symm,
      endBlock_buffered ctx h.whole (by rw [← h.idx, hfull]) h.hash h.input h.size, Or.inl rfl⟩
  case isFalse hpart =>
    have hfits := h.fits
    rw [h.idx] at hpart
    refine ⟨done, tail, rfl, h, hp.imp_left (fun hzero => ?_)⟩
    exact List.length_eq_zero_iff.mp (by omega)

theorem blockStep_buffered {m : Bytes} (h : Buffered ctx done []) (hm : 128 ≤ m.length) :
    Buffered (blockStep (ctx, m)).1 (done ++ m.take 128) [] := by
  have hinput : load64BeBuf ctx.input 0 m 16 = words 16 (m.take 128) := by
    rw [h.input]
    exact load64BeBuf_words 16 [] m 16 rfl hm
  have hlen : (m.take 128).length = 128 := by rw [List.length_take, Nat.min_eq_left hm]
  simp only [blockStep, hinput]
  exact endBlock_buffered { ctx with input := words 16 (m.take 128) } h.whole hlen h.hash rfl
    h.size

theorem wholeBlocks_run (m : Bytes) (h : Buffered ctx done []) (n : ℕ)
    (hn : 128*n ≤ m.length) :
    ∃ c, (List.range n).foldl (fun s _ => blockStep s) (ctx, m) = (c, m.drop (128*n)) ∧
      Buffered c (done ++ m.take (128*n)) [] := by
  induction n with
  | zero => exact ⟨ctx, by simp, by simpa using h⟩
  | succ n ih =>
    obtain ⟨c, hrun, hc⟩ := ih (by omega)
    have hnext := blockStep_buffered hc (show 128 ≤ (m.drop (128*n)).length by
      rw [List.length_drop]; omega)
    rw [List.append_assoc, ← List.take_add] at hnext
    refine ⟨_, ?_, hnext⟩
    rw [List.range_succ, List.foldl_append, hrun, List.foldl_cons, List.foldl_nil, Nat.mul_succ,
      ← List.drop_drop]
    rfl

theorem wholeBlocks_buffered (m : Bytes) (h : Buffered ctx done tail)
    (hp : tail = [] ∨ m.length < 8 ∧ tail.length + m.length < 128) :
    ∃ done' m', done ++ tail ++ m = done' ++ tail ++ m' ∧ (wholeBlocks ctx m).2 = m' ∧
      Buffered (wholeBlocks ctx m).1 done' tail ∧
      (tail = [] ∧ m'.length < 128 ∨ m'.length < 8 ∧ tail.length + m'.length < 128) := by
  have hcount : m.length >>> 7 = m.length/128 := Nat.shiftRight_eq_div_pow m.length 7
  rw [wholeBlocks, hcount]
  cases hp with
  | inl hnil =>
    subst hnil
    obtain ⟨c, hrun, hc⟩ := wholeBlocks_run m h (m.length/128) (by omega)
    refine ⟨done ++ m.take (128*(m.length/128)), m.drop (128*(m.length/128)), ?_,
      congrArg Prod.snd hrun, ?_, Or.inl ⟨rfl, by rw [List.length_drop]; omega⟩⟩
    · rw [List.append_nil, List.append_nil, List.append_assoc, List.take_append_drop]
    · rw [congrArg Prod.fst hrun]
      exact hc
  | inr hshort =>
    rw [Nat.div_eq_of_lt (by omega)]
    exact ⟨done, m, rfl, rfl, h, Or.inr hshort⟩

theorem remaining_buffered (m : Bytes) (h : Buffered ctx done tail)
    (hp : tail = [] ∧ m.length < 128 ∨ m.length < 8 ∧ tail.length + m.length < 128) :
    Buffered (remaining ctx m) done (tail ++ m) := by
  unfold remaining
  split
  case isTrue hm =>
    have hwords : Buffered (setWords ctx m (m.length/8)) done
        (tail ++ m.take (8*(m.length/8))) := by
      cases hp with
      | inl hnil =>
        refine setWords_buffered m _ h (by rw [hnil.1]; rfl) ?_ (by omega)
        rw [hnil.1, List.length_nil]
        omega
      | inr hshort =>
        rw [Nat.div_eq_of_lt hshort.1, setWords_zero]
        simpa using h
    have hidx : ctx.inputIdx >>> 3 = 0 ∨ m.length/8 = 0 := by
      rw [shift_word, h.idx]
      cases hp with
      | inl hnil => rw [hnil.1]; exact Or.inl rfl
      | inr hshort => exact Or.inr (Nat.div_eq_of_lt hshort.1)
    have hload : load64BeBuf ctx.input 0 m (m.length/8) =
        load64BeBuf ctx.input (ctx.inputIdx >>> 3) m (m.length/8) := by
      cases hidx with
      | inl hzero => rw [hzero]
      | inr hzero => rw [hzero]; rfl
    have hbytes := setBytes_buffered (m.drop (8*(m.length/8))) hwords (by
      rw [List.length_append, List.length_take, List.length_drop]
      have hshort : tail.length + m.length ≤ 128 := by
        cases hp with
        | inl hnil => rw [hnil.1, List.length_nil]; omega
        | inr hshort => omega
      omega)
    rw [List.append_assoc, List.take_append_drop] at hbytes
    rw [setWords, unshift_word, ← hload] at hbytes
    simp only [shift_word, unshift_word]
    exact hbytes
  case isFalse hm =>
    have hnil : m = [] := List.length_eq_zero_iff.mp (not_not.mp hm)
    rw [hnil, List.append_nil]
    exact h

def Read (ctx : Sha512Ctx) (message : Bytes) : Prop :=
  ∃ done tail, message = done ++ tail ∧ tail.length < 128 ∧ Buffered ctx done tail

theorem update_read {message : Bytes} (h : Read ctx message) (m : Bytes) :
    Read (cryptoSha512Update ctx m) (message ++ m) := by
  obtain ⟨done, tail, rfl, hlt, hb⟩ := h
  unfold cryptoSha512Update
  split
  case isTrue hm =>
    rw [List.length_eq_zero_iff.mp hm, List.append_nil]
    exact ⟨done, tail, rfl, hlt, hb⟩
  case isFalse hm =>
    obtain ⟨c, hc, hb, heven⟩ := alignWord_buffered m hb hlt
    obtain ⟨d, hd, hb, hp⟩ := alignBlock_buffered _ hb heven
    obtain ⟨done', tail', hsame, hb, hp⟩ := compressFull_buffered hb hp
    obtain ⟨done'', m', hrest, hm', hb, hp⟩ := wholeBlocks_buffered _ hb hp
    refine ⟨done'', tail' ++ m', ?_, ?_, ?_⟩
    · rw [← List.append_assoc, ← hrest, ← hsame]
      conv_lhs => rw [hc, hd]
      simp only [List.append_assoc]
    · rw [List.length_append]
      cases hp with
      | inl hnil => rw [hnil.1, List.length_nil]; omega
      | inr hshort => omega
    · have hlast := remaining_buffered m' hb hp
      rw [← hm'] at hlast ⊢
      exact hlast

/-- However a message comes in pieces, the context stands for it. -/
theorem updates_read {message : Bytes} (h : Read ctx message) (pieces : List Bytes) :
    Read (pieces.foldl cryptoSha512Update ctx) (message ++ pieces.flatten) := by
  induction pieces generalizing ctx message with
  | nil => rw [List.flatten_nil, List.append_nil]; exact h
  | cons m pieces ih =>
    rw [List.flatten_cons, ← List.append_assoc]
    exact ih (update_read h m)

theorem init_read : Read cryptoSha512Init [] :=
  ⟨[], [], rfl, by decide, buffered_init⟩

section Final

theorem getLsbD_byteMask (i : ℕ) : (255 : Word).getLsbD i = decide (i < 8) := by
  change (BitVec.ofNat 64 (2^8-1)).getLsbD i = _
  rw [BitVec.getLsbD_ofNat, Nat.testBit_two_pow_sub_one]
  by_cases hi : i < 8
  · simp [hi, show i < 64 by omega]
  · simp [hi]

theorem byte_or_low (x : Word) (n : ℕ) :
    (x >>> n &&& 255) <<< n ||| (x.setWidth n).setWidth 64 = (x.setWidth (n+8)).setWidth 64 := by
  refine BitVec.eq_of_getLsbD_eq (fun k hk => ?_)
  simp only [BitVec.getLsbD_or, BitVec.getLsbD_shiftLeft, BitVec.getLsbD_and,
    BitVec.getLsbD_ushiftRight, BitVec.getLsbD_setWidth, getLsbD_byteMask, hk, decide_true,
    Bool.true_and]
  by_cases hlow : k < n
  · simp [hlow, show k < n+8 by omega]
  · have hadd : n + (k-n) = k := by omega
    by_cases hbyte : k < n+8
    · simp [hlow, hbyte, hadd, show k-n < 8 by omega]
    · simp [hlow, hbyte, show ¬k-n < 8 by omega]

theorem load64Be_split {s : Bytes} {x : Word}
    (h : ∀ i < 8, byteAt s i = x >>> (8*(7-i)) &&& 255) : load64Be s = x := by
  have hlast : byteAt s 7 = (x.setWidth 8).setWidth 64 := by
    have hzero := byte_or_low x 0
    have hnone : (x.setWidth 0).setWidth 64 = 0 := by
      rw [BitVec.eq_nil (x.setWidth 0)]
      rfl
    rw [hnone] at hzero
    rw [h 7 (by decide), ← hzero]
    simp
  simp only [load64Be, BitVec.or_assoc]
  rw [hlast, h 0 (by decide), h 1 (by decide), h 2 (by decide), h 3 (by decide),
    h 4 (by decide), h 5 (by decide), h 6 (by decide), byte_or_low x 8, byte_or_low x 16,
    byte_or_low x 24, byte_or_low x 32, byte_or_low x 40, byte_or_low x 48, byte_or_low x 56]
  simp

theorem byteAt_lengthBytes (n : ℕ) {i : ℕ} (hi : i < 16) :
    byteAt (lengthBytes n) i = BitVec.ofNat 64 (n/256^(15-i)%256) := by
  have hget : (lengthBytes n).getD i 0 = UInt8.ofNat (n/256^(15-i)) := by
    rw [List.getD_eq_getElem _ _ (by simpa [lengthBytes] using hi)]
    simp [lengthBytes]
  rw [byteAt, hget]
  refine BitVec.eq_of_toNat_eq ?_
  rw [BitVec.toNat_setWidth, BitVec.toNat_ofNat]
  rfl

theorem byte_of_word (x : Word) (k : ℕ) :
    x >>> (8*k) &&& 255 = BitVec.ofNat 64 (x.toNat/256^k%256) := by
  refine BitVec.eq_of_toNat_eq ?_
  have hbase : 2^(8*k) = 256^k := Nat.pow_mul 2 8 k
  have hand : ∀ a, a &&& 255 = a%256 := fun a => Nat.and_two_pow_sub_one_eq_mod a 8
  rw [BitVec.toNat_and, BitVec.toNat_ushiftRight, Nat.shiftRight_eq_div_pow, hbase,
    BitVec.toNat_ofNat, show (255 : Word).toNat = 255 from rfl, hand]
  omega

theorem lengthBytes_words {x : Word × Word} {n : ℕ} (h : sizeOf x = n%2^128) :
    words 2 (lengthBytes n) = [x.1, x.2] := by
  have h1 := x.1.isLt
  have h2 := x.2.isLt
  rw [sizeOf] at h
  have hhigh : load64Be (lengthBytes n) = x.1 := by
    refine load64Be_split (fun i hi => ?_)
    rw [byteAt_lengthBytes n (by omega), byte_of_word]
    congr 1
    interval_cases i <;> simp only [Nat.reduceSub, Nat.reducePow] <;> omega
  have hlow : load64Be ((lengthBytes n).drop 8) = x.2 := by
    refine load64Be_split (fun i hi => ?_)
    rw [byteAt_drop, byteAt_lengthBytes n (by omega), byte_of_word]
    congr 1
    interval_cases i <;> simp only [Nat.reduceSub, Nat.reduceAdd, Nat.reducePow] <;> omega
  rw [words, words, words, hhigh, hlow]

theorem words_add (n k : ℕ) (s c : Bytes) (hs : s.length = 8*n) :
    words (n+k) (s ++ c) = words n s ++ words k c := by
  induction n generalizing s with
  | zero =>
    rw [List.length_eq_zero_iff.mp (show s.length = 0 by omega), Nat.zero_add]
    rfl
  | succ n ih =>
    have hfront : load64Be (s ++ c) = load64Be s :=
      load64Be_congr (fun i hi => byteAt_append_left (by omega))
    rw [Nat.add_right_comm, words, words, hfront, List.drop_append_of_le_length (by omega),
      ih (s.drop 8) (by rw [List.length_drop]; omega), List.cons_append]

theorem words_last (s c : Bytes) (hs : s.length = 112) {x : Word × Word}
    (hc : words 2 c = [x.1, x.2]) (input : List Word) (hinput : input.length = 16)
    (hfront : input.take 14 = words 14 s) :
    (input.set 14 x.1).set 15 x.2 = words 16 (s ++ c) := by
  rw [words_add 14 2 s c hs, hc, ← hfront]
  have hlen : (input.take 14).length = 14 := by rw [List.length_take, hinput]; rfl
  have hfirst : input.set 14 x.1 = input.take 14 ++ (x.1 :: input.drop 15) := by
    rw [List.set_eq_take_append_cons_drop, if_pos (by omega)]
  have hrest : (input.drop 15).length = 1 := by rw [List.length_drop, hinput]
  obtain ⟨y, hy⟩ := List.length_eq_one_iff.mp hrest
  rw [hfirst, hy, List.set_append_right _ _ (by omega), hlen]
  rfl

theorem words_take (s : Bytes) (hs : s.length = 112) : (words 16 s).take 14 = words 14 s := by
  have hsplit : words 16 (s ++ []) = words 14 s ++ words 2 [] := words_add 14 2 s [] hs
  rw [List.append_nil] at hsplit
  rw [hsplit, List.take_left' (words_length 14 s)]

theorem zeroWords_take (input : List Word) :
    (zeroWords 14 input).take 14 = words 14 (List.replicate 112 0) := by
  rw [zeroWords, List.take_left' List.length_replicate, ← List.nil_append (List.replicate 112 0),
    words_zeros]
  rfl

theorem padding_split (whole : 128 ∣ done.length) (hlt : tail.length < 128) :
    tail ++ padding (done ++ tail).length =
      (tail ++ [128]) ++ List.replicate ((239-tail.length)%128) 0 ++
        lengthBytes (8*(done ++ tail).length) := by
  have hmod : (done ++ tail).length%128 = tail.length := by
    rw [List.length_append]
    omega
  rw [padding, hmod, List.append_assoc, List.append_assoc]
  rfl

/-- With the mark set and the size counted, the hash is that of the padded message. -/
theorem lastBlocks_hash (whole : 128 ∣ done.length) (hlt : tail.length < 128)
    (hhash : ctx.hash = chain 128 block initialHash done)
    (hinput : ctx.input = words 16 (tail ++ [128])) (hidx : ctx.inputIdx = tail.length)
    (hsize : sizeOf ctx.inputSize = 8*(done ++ tail).length%2^128) :
    (lastBlocks ctx).hash =
      chain 128 block initialHash (done ++ (tail ++ padding (done ++ tail).length)) := by
  have hlength := lengthBytes_words hsize
  have hbytes : (lengthBytes (8*(done ++ tail).length)).length = 16 := by simp [lengthBytes]
  rw [padding_split whole hlt]
  unfold lastBlocks
  split
  case isTrue hbig =>
    rw [hidx] at hbig
    have hzeros : List.replicate ((239-tail.length)%128) (0 : Byte) =
        List.replicate (127-tail.length) 0 ++ List.replicate 112 0 := by
      rw [← List.replicate_add]
      congr 1
      omega
    have hblock : (tail ++ [128] ++ List.replicate (127-tail.length) (0 : Byte)).length = 128 := by
      simp
      omega
    have hfull : ctx.input = words 16 (tail ++ [128] ++ List.replicate (127-tail.length) 0) := by
      rw [words_zeros, hinput]
    have hlen := compress_length ctx (by rw [hinput, words_length])
    have hzero : (zeroWords 14 (sha512Compress ctx).input).length = 16 := by
      rw [zeroWords, List.length_append, List.length_replicate, List.length_drop, hlen]
    have hlast := words_last (List.replicate 112 0) (lengthBytes (8*(done ++ tail).length))
      List.length_replicate hlength _ hzero (zeroWords_take _)
    have hpenultimate : (sha512Compress ctx).hash = chain 128 block initialHash
        (done ++ (tail ++ [128] ++ List.replicate (127-tail.length) 0)) := by
      rw [chain_snoc block initialHash (by decide) done _ whole hblock, ← hhash]
      exact compress_block ctx _ hfull
    rw [hzeros, ← List.append_assoc (tail ++ [128]), List.append_assoc, ← List.append_assoc done,
      chain_snoc block initialHash (by decide) _ _
        (by rw [List.length_append, hblock]; omega)
        (by rw [List.length_append, List.length_replicate, hbytes]), ← hpenultimate]
    simp only [compress_inputSize]
    exact compress_block _ _ hlast
  case isFalse hsmall =>
    rw [hidx] at hsmall
    have hzeros : (239-tail.length)%128 = 111-tail.length := by omega
    have hfront : (tail ++ [128] ++ List.replicate (111-tail.length) (0 : Byte)).length = 112 := by
      simp
      omega
    have hfull : ctx.input = words 16 (tail ++ [128] ++ List.replicate (111-tail.length) 0) := by
      rw [words_zeros, hinput]
    have hlast := words_last _ (lengthBytes (8*(done ++ tail).length)) hfront hlength ctx.input
      (by rw [hfull, words_length]) (by rw [hfull, words_take _ hfront])
    rw [hzeros, chain_snoc block initialHash (by decide) done _ whole
      (by rw [List.length_append, hfront, hbytes]), ← hhash]
    exact compress_block _ _ hlast

theorem zero_start (h : Buffered ctx done tail) :
    (if ctx.inputIdx = 0 then { ctx with input := zeroWords 16 ctx.input } else ctx) = ctx := by
  split
  case isTrue hzero =>
    have hnil : tail = [] := List.length_eq_zero_iff.mp (h.idx ▸ hzero)
    have hinput : zeroWords 16 ctx.input = ctx.input := by rw [h.input, hnil]; rfl
    rw [hinput]
  case isFalse => rfl

theorem final_digest {message : Bytes} (h : Read ctx message) :
    cryptoSha512Final ctx = digest message := by
  obtain ⟨done, tail, rfl, hlt, hb⟩ := h
  have hmark := (setByte_buffered 128 hb hlt).input
  have hbits : (BitVec.ofNat 64 (ctx.inputIdx*8)).toNat = 8*tail.length := by
    rw [hb.idx, BitVec.toNat_ofNat]
    omega
  have hsize : sizeOf (sha512Incr ctx.inputSize (BitVec.ofNat 64 (ctx.inputIdx*8))) =
      8*(done ++ tail).length%2^128 := by
    rw [sha512Incr_sizeOf, hbits, hb.size, List.length_append]
    omega
  simp only [cryptoSha512Final]
  rw [zero_start hb, digest, List.append_assoc]
  congr 1
  exact lastBlocks_hash hb.whole hlt hb.hash hmark hb.idx hsize

end Final

/-- A message in any pieces has the standard's digest. -/
theorem pieces_digest (pieces : List Bytes) :
    cryptoSha512Final (pieces.foldl cryptoSha512Update cryptoSha512Init) =
      digest pieces.flatten := by
  have hread := updates_read init_read pieces
  rw [List.nil_append] at hread
  exact final_digest hread

/-- The fingerprint of a key begins the standard's digest of its public half. -/
theorem fingerprint_digest (publicHalf : Bytes) :
    fingerprint publicHalf = (digest publicHalf).take 8 := by
  rw [fingerprint, cryptoSha512, final_digest (update_read init_read publicHalf), List.nil_append]

/-- The digest that the standard's own example has for three letters. -/
example : fingerprint (ascii "abc") = [221, 175, 53, 161, 147, 97, 122, 186] := by decide +kernel

end RaptorCommon.Sha512Stream
