import Mathlib.Data.Nat.Log
import RaptorCommon.Gregorian
import RaptorCommon.TimeText

/-!
# Numbers and times written as text

The decimal conversions of `strftime` and `snprintf`, and `gmtime_r`, which
counts the days since the epoch off the calendar. What is written is read
back.
-/

set_option autoImplicit false

namespace RaptorCommon.TimePrint
open RaptorCommon.CText RaptorCommon.TimeText RaptorCommon.Gregorian

section Printing

def digit (d : ℕ) : Byte := UInt8.ofNat (48+d)

def lastDigits : ℕ → ℕ → Bytes
  | 0, _ => []
  | width+1, n => lastDigits width (n/10) ++ [digit (n%10)]

/-- A `%0*u` conversion: all the digits, and zeros in front of too few. -/
def padded (width n : ℕ) : Bytes := lastDigits (max width (Nat.log 10 n+1)) n

/-- The UTC time `gmtime_r` makes of the seconds. -/
def gmtime (seconds : ℕ) : Tm :=
  let date := Date.tomorrow^[seconds/86400] epoch
  { year := date.year-1900
    mon := date.month-1
    mday := date.day
    hour := (seconds%86400/3600 : ℕ)
    min := (seconds%3600/60 : ℕ)
    sec := (seconds%60 : ℕ) }

/-- `strftime` of the format "%Y:%m:%d %H:%M:%S". -/
def dateText (tm : Tm) : Bytes :=
  padded 1 (tm.year+1900).toNat ++ [58] ++ padded 2 (tm.mon+1).toNat ++ [58] ++
    padded 2 tm.mday.toNat ++ [32] ++ padded 2 tm.hour.toNat ++ [58] ++ padded 2 tm.min.toNat ++
    [58] ++ padded 2 tm.sec.toNat

end Printing

section Digits

theorem digit_toNat {d : ℕ} (h : d < 10) : (digit d).toNat = 48+d := by
  rw [digit, UInt8.toNat_ofNat']
  omega

theorem digit_is_digit {d : ℕ} (h : d < 10) : isDigit (digit d) = true := by
  have hnat := digit_toNat h
  refine decide_eq_true ⟨UInt8.le_iff_toNat_le.mpr ?_, UInt8.le_iff_toNat_le.mpr ?_⟩
  · rw [hnat]
    exact Nat.le_add_right 48 d
  · rw [hnat]
    show 48+d ≤ 57
    omega

@[simp] theorem last_digits_length (width n : ℕ) : (lastDigits width n).length = width := by
  induction width generalizing n with
  | zero => rfl
  | succ width ih => rw [lastDigits, List.length_append, ih, List.length_singleton]

theorem last_digits_digits (width n : ℕ) : ∀ c ∈ lastDigits width n, isDigit c = true := by
  induction width generalizing n with
  | zero => exact fun c h => absurd h List.not_mem_nil
  | succ width ih =>
    intro c hc
    rcases List.mem_append.mp hc with hc | hc
    · exact ih _ c hc
    · rw [List.mem_singleton.mp hc]
      exact digit_is_digit (Nat.mod_lt n (by decide))

theorem last_digits_value (width n : ℕ) : digitsValue (lastDigits width n) = (n%10^width : ℕ) := by
  induction width generalizing n with
  | zero => rw [pow_zero, Nat.mod_one]; rfl
  | succ width ih =>
    have hfold : digitsValue (lastDigits width (n/10) ++ [digit (n%10)]) =
        10*digitsValue (lastDigits width (n/10))+((digit (n%10)).toNat-48 : ℤ) := by
      unfold digitsValue
      rw [List.foldl_append]
      rfl
    rw [lastDigits, hfold, ih, digit_toNat (Nat.mod_lt n (by decide)), pow_succ', Nat.mod_mul]
    push_cast
    ring

theorem padded_fits {width n : ℕ} (hw : 0 < width) (h : n < 10^width) :
    padded width n = lastDigits width n := by
  have hlog : Nat.log 10 n < width := Nat.log_lt_of_lt_pow' (Nat.ne_of_gt hw) h
  rw [padded, Nat.max_eq_left hlog]

end Digits

section Reading

theorem digit_plain {c : Byte} (h : isDigit c = true) : isSpace c = false ∧ c ≠ 45 ∧ c ≠ 43 := by
  obtain ⟨hlo, hhi⟩ := of_decide_eq_true h
  rw [UInt8.le_iff_toNat_le] at hlo hhi
  have h48 : (48 : Byte).toNat = 48 := rfl
  have h57 : (57 : Byte).toNat = 57 := rfl
  refine ⟨decide_eq_false ?_, ?_, ?_⟩
  · rintro (rfl | ⟨-, h13⟩)
    · exact absurd hlo (by decide)
    · have hle := UInt8.le_iff_toNat_le.mp h13
      have h13' : (13 : Byte).toNat = 13 := rfl
      omega
  · rintro rfl
    exact absurd hlo (by decide)
  · rintro rfl
    exact absurd hlo (by decide)

theorem scan_digits {width : ℕ} {ds : Bytes} (hlen : ds.length = width) (hpos : 0 < width)
    (hds : ∀ c ∈ ds, isDigit c = true) (rest : Bytes) :
    scanDigits width (ds ++ rest) = some (digitsValue ds, rest) := by
  have hne : ds ≠ [] := by
    rintro rfl
    exact absurd hlen (Nat.ne_of_lt hpos)
  have htake : (ds ++ rest).take width = ds := by rw [← hlen, List.take_left]
  rw [scanDigits, htake, List.takeWhile_eq_self_iff.mpr hds, if_neg hne, List.drop_left]

theorem digits_head {width : ℕ} (hpos : 0 < width) (n : ℕ) :
    ∃ c ds, lastDigits width n = c::ds ∧ isDigit c = true := by
  obtain ⟨c, ds, hcons⟩ : ∃ c ds, lastDigits width n = c::ds :=
    List.exists_cons_of_length_pos (by rwa [last_digits_length])
  exact ⟨c, ds, hcons, last_digits_digits width n c (by simp [hcons])⟩

theorem digits_kept {width : ℕ} (hpos : 0 < width) (n : ℕ) (rest : Bytes) :
    (lastDigits width n ++ rest).dropWhile isSpace = lastDigits width n ++ rest := by
  obtain ⟨c, ds, hcons, hc⟩ := digits_head hpos n
  rw [hcons, List.cons_append, List.dropWhile_cons, (digit_plain hc).1]
  rfl

theorem scan_number {width n : ℕ} (hpos : 0 < width) (h : n < 10^width) (rest : Bytes) :
    scanInt width (lastDigits width n ++ rest) = some ((n : ℤ), rest) := by
  have hdigits := scan_digits (last_digits_length width n) hpos (last_digits_digits width n) rest
  rw [last_digits_value, Nat.mod_eq_of_lt h] at hdigits
  have hkept := digits_kept hpos n rest
  obtain ⟨c, ds, hcons, hc⟩ := digits_head hpos n
  rw [hcons] at hdigits hkept ⊢
  rw [scanInt, hkept]
  split
  · rename_i hhead
    exact absurd (List.cons.inj hhead).1 (digit_plain hc).2.1
  · rename_i hhead
    exact absurd (List.cons.inj hhead).1 (digit_plain hc).2.2
  · exact hdigits

end Reading

section Calendar

theorem padded_year {y : ℕ} (h : 1000 ≤ y ∧ y < 10000) : padded 1 y = lastDigits 4 y := by
  have hlog : Nat.log 10 y = 3 := (Nat.log_eq_iff (.inl (by decide))).mpr h
  rw [padded, hlog]
  rfl

theorem timegm_date (d : Date) (hour min sec : ℤ) :
    timegm ⟨d.year-1900, d.month-1, d.day, hour, min, sec⟩ =
      86400*d.number+3600*hour+60*min+sec := by
  have hmonth := d.month_range
  unfold timegm daysToMonth Date.number
  dsimp only
  have hdiv : ((d.month : ℤ)-1)/12 = 0 := by omega
  have hmod : ((d.month : ℤ)-1)%12 = d.month-1 := by omega
  rw [hdiv, hmod]
  split <;> split <;> omega

/-- `timegm` gives back the seconds `gmtime_r` was given. -/
theorem timegm_gmtime (seconds : ℕ) : timegm (gmtime seconds) = seconds := by
  have hnumber : (Date.tomorrow^[seconds/86400] epoch).number = (seconds/86400 : ℕ) := by
    rw [after_number]
    exact Int.zero_add _
  rw [gmtime, timegm_date, hnumber]
  omega

theorem gmtime_fields {seconds : ℕ} (h : seconds < 253402300800) :
    ∃ year mon mday hour min sec : ℕ, (1000 ≤ year ∧ year < 10000) ∧ mon < 100 ∧ mday < 100 ∧
      hour < 100 ∧ min < 100 ∧ sec < 100 ∧
      gmtime seconds = ⟨(year : ℤ)-1900, (mon : ℤ)-1, mday, hour, min, sec⟩ := by
  have hdate : ∃ date, date = Date.tomorrow^[seconds/86400] epoch := ⟨_, rfl⟩
  obtain ⟨date, hdate⟩ := hdate
  have hnumber : date.number = (seconds/86400 : ℕ) := by
    rw [hdate, after_number]
    exact Int.zero_add _
  have hlo : 1970 ≤ date.year := hdate ▸ after_year (seconds/86400) epoch
  have hhi : date.year < 10000 := by
    by_contra hfar
    have hdays := number_far (Int.not_lt.mp hfar)
    omega
  have hmonth := date.month_range
  have hday := date.day_range.2
  have hlength : monthDays date.year date.month ≤ 31 := month_days_le _ _
  refine ⟨date.year.toNat, date.month, date.day, seconds%86400/3600, seconds%3600/60, seconds%60,
    by omega, by omega, by omega, by omega, by omega, by omega, ?_⟩
  rw [gmtime, ← hdate]
  have hyear : ((date.year.toNat : ℕ) : ℤ) = date.year := Int.toNat_of_nonneg (by omega)
  rw [hyear]

end Calendar

end RaptorCommon.TimePrint
