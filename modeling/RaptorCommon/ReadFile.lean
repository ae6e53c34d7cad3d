import RaptorCommon.CText

/-!
# Reading a whole file

`rss_read_file` doubles its buffer until a read finds nothing more. What the
system answers is given beforehand, one round of the loop after another. The
sums are sums of `int`; a buffer whose size came out negative is never had.
-/

set_option autoImplicit false

namespace RaptorCommon.ReadFile
open RaptorCommon.CText

def intMax : ℤ := 2147483647

def toInt (n : ℤ) : ℤ := (n+2147483648) % 4294967296 - 2147483648

/-- A read that finds something takes at least one byte. -/
inductive ReadAnswer where
  | got (more : ℕ)
  | interrupted
  | failed
  deriving DecidableEq, Repr

/-- The answers of one round: the reallocation, where it asks for one, and the
read. -/
structure ReadRound where
  reallocOk : Bool
  read : ReadAnswer
  deriving DecidableEq, Repr

structure ReadAnswers where
  openOk : Bool
  statSize : Option ℤ
  mallocOk : Bool
  rounds : List ReadRound
  deriving DecidableEq, Repr

def roomFor (reallocOk : Bool) (capacity : ℤ) (total : ℕ) : Option ℤ :=
  if capacity-1 ≤ total then
    if reallocOk ∧ 0 < toInt (2*capacity) then some (toInt (2*capacity)) else none
  else some capacity

def chunk (text buf : Bytes) (capacity : ℤ) (more : ℕ) : Bytes :=
  (text.drop buf.length).take (min (more+1) (capacity-1-buf.length).toNat)

/-- The loop of `rss_read_file`; none while it has not returned. -/
def readLoop (text : Bytes) : List ReadRound → ℤ → Bytes → Option (Option Bytes)
  | [], _, _ => none
  | round::rest, capacity, buf =>
    match roomFor round.reallocOk capacity buf.length with
    | none => some none
    | some capacity =>
      match round.read with
      | .interrupted => readLoop text rest capacity buf
      | .failed => some none
      | .got more =>
        if chunk text buf capacity more = [] then some (some buf)
        else readLoop text rest capacity (buf++chunk text buf capacity more)

/-- Files under `/proc` report the size zero. -/
def firstCapacity (size : ℤ) : ℤ := if 0 < size then toInt (toInt size+1) else 4096

def rssReadFile (a : ReadAnswers) (text : Bytes) : Option (Option Bytes) :=
  match (if a.openOk then a.statSize else none) with
  | none => some none
  | some size =>
    if a.mallocOk ∧ 0 < firstCapacity size then readLoop text a.rounds (firstCapacity size) []
    else some none

section Whole

variable {text buf : Bytes} {capacity capacity' : ℤ}

theorem to_int_le (n : ℤ) : toInt n ≤ intMax := by
  unfold toInt intMax
  omega

theorem first_capacity_le (size : ℤ) : firstCapacity size ≤ intMax := by
  unfold firstCapacity
  split
  · exact to_int_le _
  · decide

theorem room_left {ok : Bool} {total : ℕ} (hpos : 0 < capacity) (hle : capacity ≤ intMax)
    (ht : total < capacity) (h : roomFor ok capacity total = some capacity') :
    0 < capacity' ∧ capacity' ≤ intMax ∧ total+1 < capacity' := by
  unfold roomFor at h
  split at h
  next hfull =>
    split at h
    next hmem =>
      obtain rfl := Option.some.inj h
      refine ⟨hmem.2, to_int_le _, ?_⟩
      have hgrown := hmem.2
      -- twice an int that stays positive did not wrap
      unfold toInt intMax at *
      omega
    next => cases h
  next hroom =>
    obtain rfl := Option.some.inj h
    exact ⟨hpos, hle, by omega⟩

theorem chunk_nil (more : ℕ) (hroom : (buf.length : ℤ)+1 < capacity)
    (h : chunk text buf capacity more = []) : text.drop buf.length = [] := by
  rcases List.take_eq_nil_iff.mp h with h0 | h0
  · omega
  · exact h0

theorem chunk_length (more : ℕ) (hroom : (buf.length : ℤ)+1 < capacity) :
    ((buf++chunk text buf capacity more).length : ℤ) < capacity := by
  have hle := List.length_take_le (min (more+1) (capacity-1-buf.length).toNat)
    (text.drop buf.length)
  rw [List.length_append]
  unfold chunk
  omega

theorem chunk_follows (more : ℕ) (h : buf <+: text) : buf++chunk text buf capacity more <+: text := by
  obtain ⟨tail, rfl⟩ := h
  rw [chunk, List.drop_left]
  exact (List.prefix_append_right_inj buf).mpr (List.take_prefix ..)

/-- The loop returns the whole file or nothing. -/
theorem loop_whole {rounds : List ReadRound} {r : Option Bytes} (hpos : 0 < capacity)
    (hle : capacity ≤ intMax) (hbuf : buf <+: text) (hlen : (buf.length : ℤ) < capacity)
    (h : readLoop text rounds capacity buf = some r) : r = none ∨ r = some text := by
  induction rounds generalizing capacity buf with
  | nil => cases h
  | cons round rest ih =>
    rw [readLoop] at h
    cases hroom : roomFor round.reallocOk capacity buf.length with
    | none =>
      rw [hroom] at h
      exact Or.inl (Option.some.inj h).symm
    | some grown =>
      obtain ⟨hpos', hle', hleft⟩ := room_left hpos hle hlen hroom
      rw [hroom] at h
      cases hread : round.read with
      | interrupted =>
        simp only [hread] at h
        exact ih hpos' hle' hbuf (by omega) h
      | failed =>
        simp only [hread] at h
        exact Or.inl (Option.some.inj h).symm
      | got more =>
        simp only [hread] at h
        split at h
        next hend =>
          have hrest := chunk_nil more hleft hend
          obtain ⟨tail, rfl⟩ := hbuf
          rw [List.drop_left] at hrest
          rw [hrest, List.append_nil]
          exact Or.inr (Option.some.inj h).symm
        next => exact ih hpos' hle' (chunk_follows more hbuf) (chunk_length more hleft) h

theorem read_whole {a : ReadAnswers} {r : Option Bytes} (h : rssReadFile a text = some r) :
    r = none ∨ r = some text := by
  unfold rssReadFile at h
  split at h
  next => exact Or.inl (Option.some.inj h).symm
  next size _ =>
    split at h
    next hcap => exact loop_whole hcap.2 (first_capacity_le size) List.nil_prefix hcap.2 h
    next => exact Or.inl (Option.some.inj h).symm

end Whole

section Progress

def ReadRound.completes (round : ReadRound) : Bool := round.read != .interrupted

theorem loop_returns {text buf : Bytes} {rounds : List ReadRound} {capacity : ℤ}
    (h : text.length-buf.length < rounds.countP ReadRound.completes) :
    (readLoop text rounds capacity buf).isSome := by
  induction rounds generalizing capacity buf with
  | nil => cases h
  | cons round rest ih =>
    rw [readLoop]
    cases roomFor round.reallocOk capacity buf.length with
    | none => rfl
    | some grown =>
      rw [List.countP_cons] at h
      cases hread : round.read with
      | interrupted =>
        have hc : round.completes = false := by simp [ReadRound.completes, hread]
        simp only [hc] at h
        exact ih h
      | failed => rfl
      | got more =>
        show (if chunk text buf grown more = [] then some (some buf) else _).isSome = true
        split
        · rfl
        next hmore =>
          have hgot : 0 < (chunk text buf grown more).length := List.length_pos_iff.mpr hmore
          have hleft : (chunk text buf grown more).length ≤ text.length-buf.length := by
            rw [← List.length_drop]
            exact List.length_take_le' ..
          refine ih ?_
          rw [List.length_append]
          split at h <;> omega

/-- Interrupted reads apart, a file is read in as many rounds as it has bytes
and one more. -/
theorem read_returns {a : ReadAnswers} {text : Bytes}
    (h : text.length < a.rounds.countP ReadRound.completes) : (rssReadFile a text).isSome := by
  unfold rssReadFile
  split
  · rfl
  · split
    · exact loop_returns h
    · rfl

end Progress

end RaptorCommon.ReadFile
