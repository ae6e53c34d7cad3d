import RaptorCommon.Json

/-!
# Decimal texts read back

The text of an `int` in decimal is a sign and at most ten digits, and reading
the digits gives the number. Both readers of the library are covered: `strtol`
on a whole text, and a conversion that stops behind the digits. With the
second, whole numbers are a platform for the numbers of JSON.
-/

set_option autoImplicit false

namespace RaptorCommon.DecimalText
open RaptorCommon.CText RaptorCommon.ConfigStore RaptorCommon.Json

section Digits

theorem digit_toNat {d : ℕ} (h : d < 10) : (digitByte d).toNat = 48+d := by
  rw [digitByte, UInt8.toNat_ofNat']
  omega

theorem digit_value {d : ℕ} (h : d < 10) : digitOf 10 (digitByte d) = some d := by
  have hd := digit_toNat h
  have hrange : (48 : Byte) ≤ digitByte d ∧ digitByte d ≤ 57 := by
    rw [UInt8.le_iff_toNat_le, UInt8.le_iff_toNat_le, hd]
    exact ⟨Nat.le_add_right 48 d, by show 48+d ≤ 57; omega⟩
  rw [digitOf, digitValue, if_pos hrange, hd, Nat.add_sub_cancel_left, Option.filter_some]
  simp [h]

def digitsText (n : ℕ) : Bytes := if n = 0 then [48] else (Nat.digits 10 n).reverse.map digitByte

theorem digits_first (n : ℕ) :
    ∃ d < 10, (n ≠ 0 → d ≠ 0) ∧ ∃ rest, digitsText n = digitByte d::rest := by
  unfold digitsText
  split
  next h => exact ⟨0, by decide, fun hne => absurd h hne, [], rfl⟩
  next h =>
    have hne : Nat.digits 10 n ≠ [] := Nat.digits_ne_nil_iff_ne_zero.mpr h
    refine ⟨(Nat.digits 10 n).getLast hne, Nat.digits_lt_base (by decide) (List.getLast_mem hne),
      fun _ => Nat.getLast_digit_ne_zero 10 h, (Nat.digits 10 n).dropLast.reverse.map digitByte, ?_⟩
    conv_lhs => rw [← List.dropLast_append_getLast hne]
    rw [List.reverse_append, List.reverse_singleton, List.singleton_append, List.map_cons]

theorem digits_decimal (n : ℕ) : ∀ c ∈ digitsText n, ∃ d < 10, c = digitByte d := by
  intro c hc
  unfold digitsText at hc
  split at hc
  · exact ⟨0, by decide, List.mem_singleton.mp hc⟩
  · obtain ⟨d, hd, rfl⟩ := List.mem_map.mp hc
    exact ⟨d, Nat.digits_lt_base (by decide) (List.mem_reverse.mp hd), rfl⟩

theorem digits_short {n : ℕ} (h : n < 10^10) : (digitsText n).length ≤ 10 := by
  unfold digitsText
  split
  · decide
  · rw [List.length_map, List.length_reverse]
    exact (Nat.digits_length_le_iff (by decide) n).mpr h

theorem digits_fold (acc : ℕ) (ds : List ℕ) (hds : ∀ d ∈ ds, d < 10) (rest : Bytes)
    (hrest : ∀ c ∈ rest.head?, digitOf 10 c = none) :
    digitsValue 10 acc (ds.map digitByte ++ rest) = ds.foldl (fun a d => a*10+d) acc := by
  induction ds generalizing acc with
  | nil =>
    cases rest with
    | nil => rfl
    | cons c rest => rw [List.map_nil, List.nil_append, digitsValue, hrest c rfl]; rfl
  | cons d ds ih =>
    rw [List.map_cons, List.cons_append, digitsValue, digit_value (hds d List.mem_cons_self),
      List.foldl_cons]
    exact ih _ fun e he => hds e (List.mem_cons_of_mem d he)

theorem digits_read (n : ℕ) (rest : Bytes) (hrest : ∀ c ∈ rest.head?, digitOf 10 c = none) :
    digitsValue 10 0 (digitsText n ++ rest) = n := by
  unfold digitsText
  split
  next h =>
    rw [h]
    exact digits_fold 0 [0] (by decide) rest hrest
  · rw [digits_fold 0 _ (fun d hd => Nat.digits_lt_base (by decide) (List.mem_reverse.mp hd))
      rest hrest, List.foldl_reverse]
    have hfold := Nat.ofDigits_eq_foldr (α := ℕ) 10 (Nat.digits 10 n)
    rw [Nat.ofDigits_digits] at hfold
    conv_rhs => rw [hfold]
    congr 1
    funext d a
    rw [Nat.cast_id, Nat.mul_comm, Nat.add_comm]

end Digits

section Signed

theorem int_abs {i : ℤ} (h : IsInt i) : i.natAbs < 10^10 := by
  obtain ⟨hlo, hhi⟩ := h
  omega

theorem decimal_text {i : ℤ} (h : IsInt i) :
    decimalText i = (if i < 0 then [45] else []) ++ digitsText i.natAbs := by
  have hshort := digits_short (int_abs h)
  have hsign : (if i < 0 then [(45 : Byte)] else []).length ≤ 1 := by split <;> simp
  have hdigits : (if i = 0 then [(48 : Byte)] else
      (Nat.digits 10 i.natAbs).reverse.map digitByte) = digitsText i.natAbs := by
    simp only [digitsText, Int.natAbs_eq_zero]
  unfold decimalText
  rw [hdigits, List.take_of_length_le]
  rw [List.length_append]
  omega

theorem decimal_short {i : ℤ} (h : IsInt i) : (decimalText i).length ≤ 11 := by
  have hshort := digits_short (int_abs h)
  rw [decimal_text h, List.length_append]
  split
  · simp only [List.length_singleton]
    omega
  · simp only [List.length_nil]
    omega

theorem base_text (n : ℕ) :
    numberBase (digitsText n) = (if n = 0 then 8 else 10, digitsText n) := by
  by_cases hn : n = 0
  · rw [hn]
    rfl
  · obtain ⟨d, hd, hne, rest, hrest⟩ := digits_first n
    have h48 : digitByte d ≠ 48 := fun h48 => by
      have hval := digit_toNat hd
      rw [h48] at hval
      exact hne hn (by simpa using hval)
    rw [hrest, if_neg hn]
    exact numberBase.eq_3 _ (fun x e t hc => h48 (List.cons.inj hc).1)
      fun t hc => h48 (List.cons.inj hc).1

theorem sign_text {i : ℤ} (h : IsInt i) :
    signOf ((decimalText i).dropWhile isSpace) = (decide (i < 0), digitsText i.natAbs) := by
  rw [decimal_text h]
  split
  next hneg =>
    rw [decide_eq_true hneg]
    rfl
  next hpos =>
    obtain ⟨d, hd, _, rest, hrest⟩ := digits_first i.natAbs
    have hspace : isSpace (digitByte d) = false := by
      interval_cases d <;> rfl
    rw [decide_eq_false hpos, List.nil_append, hrest, List.dropWhile_cons_of_neg (by simp [hspace])]
    interval_cases d <;> rfl

theorem strtol_decimal {longMax : ℕ} (hlong : 2^31-1 ≤ longMax) {i : ℤ} (h : IsInt i) :
    strtol longMax (decimalText i) = some i := by
  obtain ⟨d, hd, hne, rest, hrest⟩ := digits_first i.natAbs
  have hread : digitsValue (if i.natAbs = 0 then 8 else 10) 0 (digitsText i.natAbs) = i.natAbs := by
    split
    next hzero =>
      rw [hzero]
      rfl
    · have hnil : digitsText i.natAbs = digitsText i.natAbs ++ [] := (List.append_nil _).symm
      rw [hnil]
      exact digits_read _ [] (by simp)
  have hfirst : ∃ v, digitOf (if i.natAbs = 0 then 8 else 10) (digitByte d) = some v := by
    split
    next hzero =>
      have hd0 : digitByte d = 48 := by
        rw [hzero] at hrest
        exact (List.cons.inj hrest).1.symm
      rw [hd0]
      exact ⟨0, rfl⟩
    · exact ⟨d, digit_value hd⟩
  obtain ⟨v, hv⟩ := hfirst
  obtain ⟨hlo, hhi⟩ := h
  unfold strtol
  rw [sign_text ⟨hlo, hhi⟩]
  simp only [base_text]
  rw [hread]
  rw [hrest]
  simp only [hv, decide_eq_true_eq]
  congr 1
  split
  · rw [Nat.min_eq_left (by omega)]
    omega
  · rw [Nat.min_eq_left (by omega)]
    omega

end Signed

section WholeNumbers

/-- A platform whose doubles are whole numbers. -/
structure WholeNumber where
  value : ℤ
  deriving DecidableEq

def isDecimal (c : Byte) : Bool := 48 ≤ c ∧ c ≤ 57

def readWhole (s : Bytes) : Option (WholeNumber × ℕ) :=
  let signed := signOf s
  let ds := signed.2.takeWhile isDecimal
  let n : ℤ := digitsValue 10 0 ds
  if ds = [] then none
  else some (⟨if signed.1 then -n else n⟩, s.length-signed.2.length+ds.length)

instance : Doubles WholeNumber where
  ofInt i := ⟨i⟩
  valueInt d := d.value
  castInt d := d.value
  finite _ := true
  integral _ := true
  otherText _ := []
  strtod := readWhole

theorem decimal_digits (n : ℕ) : ∀ c ∈ digitsText n, isDecimal c = true := by
  intro c hc
  obtain ⟨d, hd, rfl⟩ := digits_decimal n c hc
  interval_cases d <;> rfl

theorem sign_read {i : ℤ} (h : IsInt i) :
    signOf (decimalText i) = (decide (i < 0), digitsText i.natAbs) := by
  have hspace : (decimalText i).dropWhile isSpace = decimalText i := by
    obtain ⟨d, hd, _, rest, hrest⟩ := digits_first i.natAbs
    rw [decimal_text h, hrest]
    split
    · rfl
    · interval_cases d <;> rfl
  rw [← sign_text h, hspace]

theorem sign_length (s : Bytes) : (signOf s).2.length ≤ s.length := by
  unfold signOf
  split <;> simp

theorem read_consumed (s : Bytes) (d : WholeNumber) (n : ℕ) (h : readWhole s = some (d, n)) :
    0 < n ∧ n ≤ s.length := by
  have hsign := sign_length s
  have htake := (List.takeWhile_prefix (l := (signOf s).2) isDecimal).length_le
  unfold readWhole at h
  dsimp only at h
  split at h
  · cases h
  next hne =>
    have hpos := List.length_pos_iff.mpr hne
    have hn := congrArg Prod.snd (Option.some.inj h)
    dsimp only at hn
    omega

theorem read_whole {i : ℤ} (h : IsInt i) :
    readWhole (decimalText i) = some (⟨i⟩, (decimalText i).length) := by
  have hds : (digitsText i.natAbs).takeWhile isDecimal = digitsText i.natAbs :=
    List.takeWhile_eq_self_iff.mpr (decimal_digits i.natAbs)
  obtain ⟨d, hd, _, rest, hrest⟩ := digits_first i.natAbs
  have hne : digitsText i.natAbs ≠ [] := hrest ▸ List.cons_ne_nil _ _
  have hread := digits_read i.natAbs [] (by simp)
  have hlen := sign_length (decimalText i)
  rw [List.append_nil] at hread
  unfold readWhole
  rw [sign_read h] at hlen ⊢
  dsimp only at hlen
  simp only [hds, if_neg hne, hread, decide_eq_true_eq]
  congr 2
  · congr 1
    split
    · omega
    · omega
  · omega

instance : LawfulDoubles WholeNumber where
  consumed := read_consumed
  finite_int _ _ := rfl
  integral_int _ _ := rfl
  value_int _ _ := rfl
  cast_int _ _ := rfl
  read_int _ := read_whole

end WholeNumbers

end RaptorCommon.DecimalText
