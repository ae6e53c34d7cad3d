import Mathlib.Data.List.DropRight
import Mathlib.Tactic.Common

/-!
# C text and the string helpers of rss_util

A string argument is its bytes before the terminator. A character array of
the structures holds a terminated string that fits it, so neither a NUL byte
nor an overlong text can be stored. Character classes are those of the C
locale.
-/

set_option autoImplicit false

namespace RaptorCommon.CText

abbrev Byte := UInt8
abbrev Bytes := List UInt8

def ascii (s : String) : Bytes := s.toList.map (fun c => c.toNat.toUInt8)

abbrev newline : Byte := 10
abbrev space : Byte := 32
abbrev tab : Byte := 9
abbrev hashMark : Byte := 35
abbrev semicolon : Byte := 59
abbrev equals : Byte := 61
abbrev lbracket : Byte := 91
abbrev rbracket : Byte := 93

/-- `isspace` of the C locale. -/
def isSpace (c : Byte) : Bool := c = space ∨ 9 ≤ c ∧ c ≤ 13

def isBlank (c : Byte) : Bool := c = space ∨ c = tab

def toLower (c : Byte) : Byte := if 65 ≤ c ∧ c ≤ 90 then c+32 else c

def foldCase (s : Bytes) : Bytes := s.map toLower

/-- `strcasecmp(a, b) == 0`. -/
def sameName (a b : Bytes) : Bool := foldCase a = foldCase b

structure CString where
  chars : Bytes
  nul_free : 0 ∉ chars
  deriving DecidableEq

/-- The string a pointer into memory designates. -/
def CString.at (memory : Bytes) : CString where
  chars := memory.takeWhile (fun c => c ≠ 0)
  nul_free h := by simpa using List.mem_takeWhile_imp h

/-- The contents of a `char` array of the given size. -/
structure Field (size : ℕ) where
  chars : Bytes
  nul_free : 0 ∉ chars
  fits : chars.length ≤ size-1
  deriving DecidableEq

def rssStrlcpy (size : ℕ) (src : CString) : Field size where
  chars := src.chars.take (size-1)
  nul_free h := src.nul_free (List.mem_of_mem_take h)
  fits := List.length_take_le _ _

def Field.str {size : ℕ} (f : Field size) : CString := ⟨f.chars, f.nul_free⟩

def rssTrim (s : Bytes) : Bytes := (s.dropWhile isSpace).rdropWhile isSpace

/-- `strchr` and the two strings on either side of the character it finds. -/
def cutAt (c : Byte) : Bytes → Option (Bytes × Bytes)
  | [] => none
  | d::s => if d = c then some ([], s) else (cutAt c s).map (fun r => (d::r.1, r.2))

theorem strlcpy_of_fits {size : ℕ} (src : CString) (h : src.chars.length ≤ size-1) :
    (rssStrlcpy size src).chars = src.chars := List.take_of_length_le h

theorem at_nul_free {memory : Bytes} (h : 0 ∉ memory) : (CString.at memory).chars = memory := by
  refine List.takeWhile_eq_self_iff.mpr fun c hc => ?_
  simpa using fun h0 : c = 0 => h (h0 ▸ hc)

theorem at_cut {a : Bytes} (h : 0 ∉ a) (tail : Bytes) : (CString.at (a ++ 0::tail)).chars = a := by
  have hall : ∀ c ∈ a, decide (c ≠ 0) = true := fun c hc => by
    simpa using fun h0 : c = 0 => h (h0 ▸ hc)
  show (a ++ 0::tail).takeWhile (fun c => decide (c ≠ 0)) = a
  rw [List.takeWhile_append_of_pos hall, List.takeWhile_cons_of_neg (by simp), List.append_nil]

/-- A statement about every byte is checked on the 256 of them. -/
theorem forall_byte {P : Byte → Prop} (h : ∀ n : Fin 256, P (UInt8.ofNat n)) (c : Byte) : P c := by
  have hc := h ⟨c.toNat, c.toNat_lt⟩
  simpa using hc

theorem toLower_space (c : Byte) : isSpace (toLower c) = isSpace c := by
  revert c
  exact forall_byte (by decide +kernel)

theorem toLower_mark (m : Byte) (hm : m ∈ [newline, hashMark, semicolon, equals, lbracket, rbracket])
    (c : Byte) : toLower c = m ↔ c = m := by
  simp only [List.mem_cons, List.not_mem_nil, or_false] at hm
  revert c
  rcases hm with rfl | rfl | rfl | rfl | rfl | rfl <;> exact forall_byte (by decide +kernel)

theorem mem_foldCase_mark (m : Byte)
    (hm : m ∈ [newline, hashMark, semicolon, equals, lbracket, rbracket]) (s : Bytes) :
    m ∈ foldCase s ↔ m ∈ s := by
  simp [foldCase, toLower_mark m hm]

@[simp] theorem foldCase_length (s : Bytes) : (foldCase s).length = s.length := List.length_map _

theorem cutAt_front (c : Byte) (a s : Bytes) (ha : c ∉ a) : cutAt c (a ++ c::s) = some (a, s) := by
  induction a with
  | nil => simp [cutAt]
  | cons d a ih =>
    have hd : d ≠ c := fun h => ha (by simp [h])
    have ht : c ∉ a := fun h => ha (by simp [h])
    simp [cutAt, hd, ih ht]

theorem cutAt_some {c : Byte} {s a b : Bytes} (h : cutAt c s = some (a, b)) :
    s = a ++ c::b ∧ c ∉ a := by
  induction s generalizing a with
  | nil => simp [cutAt] at h
  | cons d s ih =>
    by_cases hd : d = c
    · simp only [cutAt, if_pos hd, Option.some.injEq, Prod.mk.injEq] at h
      simp [← h.1, ← h.2, hd]
    · simp only [cutAt, if_neg hd, Option.map_eq_some_iff] at h
      obtain ⟨⟨a', b'⟩, hr, hp⟩ := h
      simp only [Prod.mk.injEq] at hp
      obtain ⟨rfl, rfl⟩ := hp
      obtain ⟨rfl, hn⟩ := ih hr
      exact ⟨rfl, by simpa [Ne.symm hd] using hn⟩

theorem cutAt_none {c : Byte} {s : Bytes} : cutAt c s = none ↔ c ∉ s := by
  induction s with
  | nil => simp [cutAt]
  | cons d s ih =>
    by_cases hd : d = c
    · simp [cutAt, hd]
    · simp [cutAt, hd, ih, Ne.symm hd]

section Trim

def AllSpace (s : Bytes) : Prop := ∀ c ∈ s, isSpace c = true

def Trimmed (s : Bytes) : Prop := rssTrim s = s

instance (s : Bytes) : Decidable (AllSpace s) := List.decidableBAll _ s
instance (s : Bytes) : Decidable (Trimmed s) := inferInstanceAs (Decidable (_ = _))

theorem rdropWhile_solid (p : Byte → Bool) (a s : Bytes) (d : Byte) (hd : p d = false) :
    (a ++ d::s).rdropWhile p = a ++ d::s.rdropWhile p := by
  simp only [List.rdropWhile, List.reverse_append, List.reverse_cons, List.append_assoc,
    List.dropWhile_append, List.singleton_append]
  split
  next h =>
    have he : s.reverse.dropWhile p = [] := List.isEmpty_iff.mp h
    simp [he, hd]
  next => simp

theorem rdropWhile_all {p : Byte → Bool} {a b : Bytes} (hb : ∀ c ∈ b, p c = true) :
    (a ++ b).rdropWhile p = a.rdropWhile p := by
  have he : b.reverse.dropWhile p = [] :=
    List.dropWhile_eq_nil_iff.mpr (fun c hc => hb c (List.mem_reverse.mp hc))
  simp [List.rdropWhile, List.dropWhile_append, he]

theorem trim_lead {a : Bytes} (ha : AllSpace a) (s : Bytes) : rssTrim (a++s) = rssTrim s := by
  have he : a.dropWhile isSpace = [] := List.dropWhile_eq_nil_iff.mpr ha
  simp [rssTrim, List.dropWhile_append, he]

theorem trim_trail {b : Bytes} (hb : AllSpace b) (s : Bytes) : rssTrim (s++b) = rssTrim s := by
  have he : b.dropWhile isSpace = [] := List.dropWhile_eq_nil_iff.mpr hb
  rw [rssTrim, List.dropWhile_append]
  split
  next h => simp [rssTrim, he, List.isEmpty_iff.mp h]
  next => exact rdropWhile_all hb

theorem trim_solid {c d : Byte} (a s : Bytes) (hc : isSpace c = false) (hd : isSpace d = false) :
    rssTrim (c::a ++ d::s) = c::a ++ d::s.rdropWhile isSpace := by
  have h : (c::a ++ d::s).dropWhile isSpace = c::a ++ d::s := by simp [hc]
  rw [rssTrim, h, rdropWhile_solid isSpace (c::a) s d hd]

theorem trim_visible {c : Byte} (s : Bytes) (hc : isSpace c = false) :
    rssTrim (c::s) = c::s.rdropWhile isSpace := by
  have h : (c::s).dropWhile isSpace = c::s := by simp [hc]
  rw [rssTrim, h]
  exact rdropWhile_solid isSpace [] s c hc

theorem trim_parts (s : Bytes) :
    ∃ a b, s = a ++ rssTrim s ++ b ∧ AllSpace a ∧ AllSpace b := by
  refine ⟨s.takeWhile isSpace, (s.dropWhile isSpace).rtakeWhile isSpace, ?_, ?_, ?_⟩
  · rw [rssTrim, List.append_assoc, List.rdropWhile_append_rtakeWhile,
      List.takeWhile_append_dropWhile]
  · exact fun c hc => List.mem_takeWhile_imp hc
  · exact fun c hc => List.mem_rtakeWhile_imp hc

theorem trim_head {s t : Bytes} {c : Byte} (h : rssTrim s = c::t) : isSpace c = false := by
  by_contra hc
  have hs : isSpace c = true := by simpa using hc
  obtain ⟨a, ha⟩ : ∃ a, s.dropWhile isSpace = c::a := by
    have hp : rssTrim s <+: s.dropWhile isSpace := List.rdropWhile_prefix isSpace _
    rw [h] at hp
    obtain ⟨r, hr⟩ := hp
    exact ⟨t++r, by simpa using hr.symm⟩
  have := List.head_dropWhile_not isSpace (by rw [ha]; simp)
  simp [ha, hs] at this

theorem trimmed_trim (s : Bytes) : Trimmed (rssTrim s) := by
  cases h : rssTrim s with
  | nil => rfl
  | cons c t =>
    have hc := trim_head h
    have hr : (c::t).rdropWhile isSpace = c::t := by
      rw [← h, rssTrim]
      exact List.rdropWhile_idempotent isSpace _
    rw [Trimmed, rssTrim]
    simp only [List.dropWhile_cons, hc, Bool.false_eq_true, if_false]
    exact hr

theorem trim_mem {s : Bytes} {c : Byte} (h : c ∈ rssTrim s) : c ∈ s := by
  obtain ⟨a, b, hs, -, -⟩ := trim_parts s
  rw [hs]
  simp [h]

theorem trim_length (s : Bytes) : (rssTrim s).length ≤ s.length := by
  obtain ⟨a, b, hs, -, -⟩ := trim_parts s
  conv_rhs => rw [hs]
  simp
  omega

theorem trimmed_head {c : Byte} {t : Bytes} (h : Trimmed (c::t)) : isSpace c = false :=
  trim_head (s := c::t) h

theorem trimmed_last {c : Byte} {t : Bytes} (h : Trimmed (t++[c])) : isSpace c = false := by
  by_contra hc
  have hs : isSpace c = true := by simpa using hc
  have ht : rssTrim (t++[c]) = rssTrim t := trim_trail (by simpa [AllSpace] using hs) t
  have hl := trim_length t
  rw [← ht, h, List.length_append, List.length_singleton] at hl
  omega

theorem trim_foldCase (s : Bytes) : rssTrim (foldCase s) = foldCase (rssTrim s) := by
  have hc : isSpace ∘ toLower = isSpace := funext toLower_space
  simp only [rssTrim, foldCase, List.rdropWhile, List.dropWhile_map, hc, ← List.map_reverse]

theorem trimmed_foldCase (s : Bytes) : Trimmed (foldCase s) ↔ Trimmed s := by
  constructor
  · intro h
    rw [Trimmed, trim_foldCase] at h
    have hl := congrArg List.length h
    rw [foldCase_length, foldCase_length] at hl
    obtain ⟨a, b, hs, -, -⟩ := trim_parts s
    have hn := congrArg List.length hs
    simp only [List.length_append] at hn
    have ha : a = [] := List.eq_nil_of_length_eq_zero (by omega)
    have hb : b = [] := List.eq_nil_of_length_eq_zero (by omega)
    rw [ha, hb, List.nil_append, List.append_nil] at hs
    exact hs.symm
  · intro h
    rw [Trimmed, trim_foldCase, h]

end Trim

end RaptorCommon.CText
