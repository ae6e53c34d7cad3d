import Mathlib.Tactic.IntervalCases
import Mathlib.Tactic.Ring
import RaptorCommon.BlockStream
import RaptorCommon.Sha512

/-!
# SHA-512 as its standard has it

The standard spreads a block to a schedule of eighty words and pads the message
once, at its end. `sha512_compress` keeps sixteen words, the last of the
schedule at every round.
-/

set_option autoImplicit false

namespace RaptorCommon.Sha512Standard
open RaptorCommon.CText
open RaptorCommon.Sha512
open RaptorCommon.BlockStream

def sum0 (x : Word) : Word := x.rotateRight 28 ^^^ x.rotateRight 34 ^^^ x.rotateRight 39
def sum1 (x : Word) : Word := x.rotateRight 14 ^^^ x.rotateRight 18 ^^^ x.rotateRight 41
def sigma0 (x : Word) : Word := x.rotateRight 1 ^^^ x.rotateRight 8 ^^^ x >>> 7
def sigma1 (x : Word) : Word := x.rotateRight 19 ^^^ x.rotateRight 61 ^^^ x >>> 6

/-- The first words of a string of bytes, each big endian; a missing byte is zero. -/
def words : ℕ → Bytes → List Word
  | 0, _ => []
  | n+1, s => load64Be s :: words n (s.drop 8)

def schedule (m : List Word) (t : ℕ) : Word :=
  if t < 16 then m.getD t 0
  else sigma1 (schedule m (t-2)) + schedule m (t-7) + sigma0 (schedule m (t-15)) +
    schedule m (t-16)

def standardRound (m : List Word) (v : Vars) (t : ℕ) : Vars :=
  let t1 := v.h + sum1 v.e + ((v.e &&& v.f) ^^^ (~~~v.e &&& v.g)) +
    roundConstants.getD t 0 + schedule m t
  let t2 := sum0 v.a + ((v.a &&& v.b) ^^^ (v.a &&& v.c) ^^^ (v.b &&& v.c))
  ⟨t1 + t2, v.a, v.b, v.c, v.d + t1, v.e, v.f, v.g⟩

def block (hash : List Word) (b : Bytes) : List Word :=
  addHash hash ((List.range 80).foldl (standardRound (words 16 b)) (Vars.load hash))

def lengthBytes (n : ℕ) : Bytes :=
  (List.range 16).map (fun i => UInt8.ofNat (n / 256^(15-i)))

def padding (size : ℕ) : Bytes :=
  128 :: List.replicate ((239-size%128)%128) 0 ++ lengthBytes (8*size)

def digest (message : Bytes) : Bytes :=
  (chain 128 block initialHash (message ++ padding message.length)).flatMap store64Be

theorem rot_rotateRight (x : Word) (c : ℕ) (h : c < 64) : rot x c = x.rotateRight c := by
  rw [rot, BitVec.rotateRight_def, Nat.mod_eq_of_lt h]

theorem bigSigma0_sum0 (x : Word) : bigSigma0 x = sum0 x := by
  simp [bigSigma0, sum0, rot_rotateRight]

theorem bigSigma1_sum1 (x : Word) : bigSigma1 x = sum1 x := by
  simp [bigSigma1, sum1, rot_rotateRight]

theorem litSigma0_sigma0 (x : Word) : litSigma0 x = sigma0 x := by
  simp [litSigma0, sigma0, rot_rotateRight]

theorem litSigma1_sigma1 (x : Word) : litSigma1 x = sigma1 x := by
  simp [litSigma1, sigma1, rot_rotateRight]

theorem schedule_first (m : List Word) {t : ℕ} (h : t < 16) : schedule m t = m.getD t 0 := by
  rw [schedule, if_pos h]

theorem schedule_later (m : List Word) {t : ℕ} (h : 16 ≤ t) :
    schedule m t = sigma1 (schedule m (t-2)) + schedule m (t-7) + sigma0 (schedule m (t-15)) +
      schedule m (t-16) := by
  rw [schedule, if_neg (Nat.not_lt.mpr h)]

theorem round_standard (m : List Word) (v : Vars) (t : ℕ) :
    Sha512.round v (roundConstants.getD t 0 + schedule m t) = standardRound m v t := by
  have ht : bigSigma1 v.e + ch v.e v.f v.g + v.h + (roundConstants.getD t 0 + schedule m t) =
      v.h + sum1 v.e + ((v.e &&& v.f) ^^^ (~~~v.e &&& v.g)) + roundConstants.getD t 0 +
        schedule m t := by
    rw [bigSigma1_sum1, ch]
    ac_rfl
  rw [Sha512.round, ht, bigSigma0_sum0, maj]
  rfl

section Window

/-- The sixteen words hold the schedule's last before `t`, each at its index's
remainder. -/
def Window (m input : List Word) (t : ℕ) : Prop :=
  input.length = 16 ∧ ∀ k, k < t → t ≤ k+16 → input.getD (k%16) 0 = schedule m k

variable {m input : List Word}

theorem window_first (h : m.length = 16) : Window m m 16 := by
  refine ⟨h, fun k hk _ => ?_⟩
  rw [schedule_first m hk, Nat.mod_eq_of_lt hk]

theorem back_index {j k : ℕ} (hj : j < 16) (hk : k < 16) : back j k = (j+(16-k))%16 := by
  interval_cases j <;> interval_cases k <;> decide

theorem getD_set (l : List Word) (i k : ℕ) (w : Word) (hi : i < l.length) :
    (l.set i w).getD k 0 = if k = i then w else l.getD k 0 := by
  rw [List.getD_eq_getElem?_getD, List.getD_eq_getElem?_getD, List.getElem?_set]
  by_cases hk : i = k
  · subst hk
    simp [hi]
  · rw [if_neg hk, if_neg (Ne.symm hk)]

theorem extend_set {j : ℕ} (hj : j < input.length) (h7 : back j 7 ≠ j) (h15 : back j 15 ≠ j) :
    extend input j = input.set j (input.getD j 0 + litSigma1 (input.getD (back j 2) 0) +
      litSigma0 (input.getD (back j 15) 0) + input.getD (back j 7) 0) := by
  have hs : ∀ w k, (input.set j w).getD k 0 = if k = j then w else input.getD k 0 :=
    fun w k => getD_set input j k w hj
  simp only [extend, List.set_set, hs, if_pos, h7, h15, if_false]

theorem window_extend {t : ℕ} (ht : 16 ≤ t) (h : Window m input t) :
    Window m (extend input (t%16)) (t+1) ∧
      (extend input (t%16)).getD (t%16) 0 = schedule m t := by
  obtain ⟨hlen, hold⟩ := h
  have hj : t%16 < 16 := Nat.mod_lt _ (by decide)
  have old : ∀ k, 0 < k → k < 16 → input.getD (back (t%16) k) 0 = schedule m (t-k) := by
    intro k hk hk'
    rw [back_index hj hk', ← hold (t-k) (by omega) (by omega)]
    congr 1
    omega
  have hself : input.getD (t%16) 0 = schedule m (t-16) := by
    rw [← hold (t-16) (by omega) (by omega)]
    congr 1
    omega
  have hval : extend input (t%16) = input.set (t%16) (schedule m t) := by
    rw [extend_set (by omega) (by rw [back_index hj (by decide)]; omega)
        (by rw [back_index hj (by decide)]; omega),
      hself, old 2 (by decide) (by decide), old 7 (by decide) (by decide),
      old 15 (by decide) (by decide), litSigma1_sigma1, litSigma0_sigma0, schedule_later m ht]
    congr 1
    ac_rfl
  have hget : ∀ k, (extend input (t%16)).getD k 0 =
      if k = t%16 then schedule m t else input.getD k 0 := by
    intro k
    rw [hval, getD_set _ _ _ _ (by omega)]
  refine ⟨⟨by rw [hval, List.length_set, hlen], fun k hk hk' => ?_⟩, ?_⟩
  · rw [hget]
    by_cases hkt : k = t
    · rw [hkt, if_pos rfl]
    · rw [if_neg (by omega)]
      exact hold k (by omega) (by omega)
  · rw [hget, if_pos rfl]

/-- The rounds of one pass over the sixteen words. -/
theorem pass_standard {t : ℕ} {v : Vars} (n : ℕ) (hn : n ≤ 16) (ht : 16 ≤ t) (h16 : 16 ∣ t)
    (h : Window m input t) :
    Window m ((List.range n).foldl (laterRound t) (input, v)).1 (t+n) ∧
      ((List.range n).foldl (laterRound t) (input, v)).2 =
        (List.range' t n).foldl (standardRound m) v := by
  induction n with
  | zero => exact ⟨h, rfl⟩
  | succ n ih =>
    obtain ⟨hwin, hvars⟩ := ih (by omega)
    rw [List.range_succ, List.foldl_append, List.range'_concat, List.foldl_append]
    obtain ⟨hnext, hword⟩ := window_extend (show 16 ≤ t+n by omega) hwin
    have hidx : (t+n)%16 = n := by omega
    rw [hidx] at hnext hword
    refine ⟨hnext, ?_⟩
    simp only [List.foldl_cons, List.foldl_nil, laterRound]
    rw [hword, round_standard, hvars, Nat.one_mul]

theorem first_standard (v : Vars) :
    firstRounds m v = (List.range 16).foldl (standardRound m) v := by
  refine List.foldl_ext _ _ v (fun v j hj => ?_)
  rw [← schedule_first m (List.mem_range.mp hj), round_standard]

end Window

theorem passes_standard (m : List Word) (n : ℕ) (s : List Word × Vars) (t : ℕ) (ht : 16 ≤ t)
    (h16 : 16 ∣ t) (h : Window m s.1 t) :
    Window m (((List.range n).map (fun i => t+16*i)).foldl laterRounds s).1 (t+16*n) ∧
      (((List.range n).map (fun i => t+16*i)).foldl laterRounds s).2 =
        (List.range' t (16*n)).foldl (standardRound m) s.2 := by
  induction n generalizing s t with
  | zero => exact ⟨h, rfl⟩
  | succ n ih =>
    have hpass : Window m (laterRounds s t).1 (t+16) ∧
        (laterRounds s t).2 = (List.range' t 16).foldl (standardRound m) s.2 :=
      pass_standard 16 (le_refl 16) ht h16 h
    have hnext : (List.range n).map ((fun i => t+16*i) ∘ Nat.succ) =
        (List.range n).map (fun i => t+16+16*i) :=
      List.map_congr_left (fun i _ => by simp only [Function.comp]; omega)
    obtain ⟨hwin, hvars⟩ := ih (laterRounds s t) (t+16) (by omega) (by omega) hpass.1
    rw [List.range_succ_eq_map, List.map_cons, List.map_map, List.foldl_cons, hnext,
      Nat.mul_zero, Nat.add_zero, show 16*(n+1) = 16+16*n by omega, ← Nat.add_assoc,
      ← List.range'_append_1, List.foldl_append, ← hpass.2]
    exact ⟨hwin, hvars⟩

theorem rounds_standard (m : List Word) (h : m.length = 16) (v : Vars) :
    Window m ([16, 32, 48, 64].foldl laterRounds (m, firstRounds m v)).1 80 ∧
      ([16, 32, 48, 64].foldl laterRounds (m, firstRounds m v)).2 =
        (List.range 80).foldl (standardRound m) v := by
  have hsplit : List.range 80 = List.range 16 ++ List.range' 16 (16*4) := by decide
  rw [hsplit, List.foldl_append, ← first_standard]
  exact passes_standard m 4 (m, firstRounds m v) 16 (le_refl 16) (dvd_refl 16) (window_first h)

/-- A full block is compressed as the standard's block. -/
theorem compress_block (ctx : Sha512Ctx) (b : Bytes) (h : ctx.input = words 16 b) :
    (sha512Compress ctx).hash = block ctx.hash b := by
  have hlen : ctx.input.length = 16 := by rw [h]; rfl
  rw [block, ← h, ← (rounds_standard ctx.input hlen (Vars.load ctx.hash)).2]
  rfl

theorem compress_length (ctx : Sha512Ctx) (h : ctx.input.length = 16) :
    (sha512Compress ctx).input.length = 16 :=
  (rounds_standard ctx.input h (Vars.load ctx.hash)).1.1

end RaptorCommon.Sha512Standard
