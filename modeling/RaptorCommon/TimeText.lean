import RaptorCommon.CText

/-!
# Numbers and times read from text

The decimal conversions of `sscanf` with a field width, and `timegm` on the
proleptic Gregorian calendar.
-/

set_option autoImplicit false

namespace RaptorCommon.TimeText
open RaptorCommon.CText

def isDigit (c : Byte) : Bool := 48 ≤ c ∧ c ≤ 57

def digitsValue (s : Bytes) : ℤ := s.foldl (fun v c => 10*v+(c.toNat-48 : ℤ)) 0

def scanDigits (width : ℕ) (s : Bytes) : Option (ℤ × Bytes) :=
  let ds := (s.take width).takeWhile isDigit
  if ds = [] then none else some (digitsValue ds, s.drop ds.length)

/-- A `%d` or `%u` conversion; a sign counts toward the width. -/
def scanInt (width : ℕ) (s : Bytes) : Option (ℤ × Bytes) :=
  match s.dropWhile isSpace with
  | 45::rest => (scanDigits (width-1) rest).map fun r => (-r.1, r.2)
  | 43::rest => scanDigits (width-1) rest
  | rest => scanDigits width rest

inductive Directive where
  | int (width : ℕ)
  | char (c : Byte)
  | space
  deriving DecidableEq, Repr

/-- The values `sscanf` converts before the first mismatch. -/
def scan : List Directive → Bytes → List ℤ
  | [], _ => []
  | .int width::format, s =>
    match scanInt width s with
    | some (v, rest) => v::scan format rest
    | none => []
  | .char c::format, s =>
    match s with
    | x::rest => if x = c then scan format rest else []
    | [] => []
  | .space::format, s => scan format (s.dropWhile isSpace)

structure Tm where
  year : ℤ
  mon : ℤ
  mday : ℤ
  hour : ℤ
  min : ℤ
  sec : ℤ
  deriving DecidableEq, Repr

def daysToMonth (year mon : ℤ) : ℤ :=
  -- years are counted from March, so that the leap day ends one
  let y := if mon < 2 then year-1 else year
  let m := if mon < 2 then mon+10 else mon-2
  365*y+y/4-y/100+y/400+(153*m+2)/5-719468

/-- `timegm`, fields out of range included. -/
def timegm (tm : Tm) : ℤ :=
  let year := tm.year+1900+tm.mon/12
  86400*(daysToMonth year (tm.mon%12)+tm.mday-1)+3600*tm.hour+60*tm.min+tm.sec

example : timegm ⟨126, 6, 17, 6, 24, 1⟩ = 1784269441 := by decide

end RaptorCommon.TimeText
