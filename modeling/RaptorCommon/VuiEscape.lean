import RaptorCommon.CText

/-!
# Emulation prevention

In a NAL two zero bytes are never followed by a byte up to 2: an escape byte 3
goes in front of every byte up to 3 that two zeros precede. Unescaping looks
at the escaped bytes only and takes out just what escaping put in.
-/

set_option autoImplicit false

namespace RaptorCommon.VuiEscape
open RaptorCommon.CText

/-- The loop of `vui_unescape`, with the two bytes before. -/
def unescapeBytes : Option Byte → Option Byte → Bytes → Bytes
  | _, _, [] => []
  | before, last, c::rest =>
    if c = 3 ∧ last = some 0 ∧ before = some 0 ∧ rest.head?.any (· ≤ 3) then
      unescapeBytes last (some c) rest
    else c::unescapeBytes last (some c) rest

/-- The output stops at the capacity. -/
def vuiUnescape (src : Bytes) (cap : ℕ) : Bytes := (unescapeBytes none none src).take cap

/-- The loop of `vui_escape`, with the zeros in front. -/
def escapeBytes : ℕ → Bytes → Bytes
  | _, [] => []
  | zeros, c::rest =>
    if 2 ≤ zeros ∧ c ≤ 3 then 3::c::escapeBytes (if c = 0 then 1 else 0) rest
    else c::escapeBytes (if c = 0 then zeros+1 else 0) rest

def vuiEscape (src : Bytes) (cap : ℕ) : Bytes :=
  if (escapeBytes 0 src).length ≤ cap then escapeBytes 0 src else []

theorem unescape_length (before last : Option Byte) (src : Bytes) :
    (unescapeBytes before last src).length ≤ src.length := by
  induction src generalizing before last with
  | nil => exact le_rfl
  | cons c rest ih =>
    have hrest := ih last (some c)
    rw [unescapeBytes]
    split <;> simp only [List.length_cons] <;> omega

section RoundTrip

structure Counts (zeros : ℕ) (before last : Option Byte) : Prop where
  one : 1 ≤ zeros ↔ last = some 0
  two : 2 ≤ zeros ↔ last = some 0 ∧ before = some 0

theorem counts_next {zeros : ℕ} {before last : Option Byte} (h : Counts zeros before last)
    (c : Byte) : Counts (if c = 0 then zeros+1 else 0) last (some c) := by
  have hone := h.one
  by_cases hc : c = 0
  · subst hc
    constructor
    · simp
    · simp [← hone]
  · constructor <;> simp [hc]

theorem counts_escaped (c : Byte) : Counts (if c = 0 then 1 else 0) (some 3) (some c) := by
  by_cases hc : c = 0
  · subst hc
    constructor <;> simp
  · constructor <;> simp [hc]

/-- Unescaping takes out what escaping put in, and nothing else. -/
theorem unescape_escape {zeros : ℕ} {before last : Option Byte} (h : Counts zeros before last)
    (src : Bytes) : unescapeBytes before last (escapeBytes zeros src) = src := by
  induction src generalizing zeros before last with
  | nil => rfl
  | cons c rest ih =>
    rw [escapeBytes]
    split
    next hc =>
      obtain ⟨hl, hb⟩ := h.two.mp hc.1
      rw [unescapeBytes, if_pos ⟨rfl, hl, hb, by simpa using hc.2⟩, unescapeBytes,
        if_neg (by simp), ih (counts_escaped c)]
    next hc =>
      have hkeep : ¬(c = 3 ∧ last = some 0 ∧ before = some 0 ∧
          (escapeBytes (if c = 0 then zeros+1 else 0) rest).head?.any (· ≤ 3)) := by
        rintro ⟨rfl, hl, hb, -⟩
        exact hc ⟨h.two.mpr ⟨hl, hb⟩, by decide⟩
      rw [unescapeBytes, if_neg hkeep, ih (counts_next h c)]

end RoundTrip

section StartCodes

/-- No byte up to 2 after two zeros, counting from some zeros in front. -/
def Guarded : ℕ → Bytes → Prop
  | _, [] => True
  | zeros, c::rest => ¬(2 ≤ zeros ∧ c ≤ 2) ∧ Guarded (if c = 0 then zeros+1 else 0) rest

theorem escape_guarded (zeros : ℕ) (src : Bytes) : Guarded zeros (escapeBytes zeros src) := by
  induction src generalizing zeros with
  | nil => exact trivial
  | cons c rest ih =>
    rw [escapeBytes]
    split
    · refine ⟨?_, ?_, ih _⟩
      · rintro ⟨-, h3⟩
        exact absurd h3 (by decide)
      · rintro ⟨h2, -⟩
        rw [if_neg (by decide)] at h2
        omega
    next hc =>
      refine ⟨?_, ih _⟩
      rintro ⟨h2, hle⟩
      exact hc ⟨h2, UInt8.le_trans hle (by decide)⟩

theorem guarded_code {zeros : ℕ} {front back : Bytes} {c : Byte}
    (h : Guarded zeros (front ++ 0::0::c::back)) : 2 < c := by
  induction front generalizing zeros with
  | nil =>
    by_contra hc
    refine h.2.2.1 ⟨?_, UInt8.not_lt.mp hc⟩
    simp
  | cons d front ih => exact ih h.2

end StartCodes

section Capacity

/-- `vui_escape` with the bytes written so far: the length returned, and the
destination. -/
def escapeInto (cap : ℕ) : ℕ → Bytes → Bytes → ℕ × Bytes
  | _, dst, [] => (dst.length, dst)
  | zeros, dst, c::rest =>
    if 2 ≤ zeros ∧ c ≤ 3 then
      if cap ≤ dst.length then (0, dst)
      else if cap ≤ dst.length+1 then (0, dst++[3])
      else escapeInto cap (if c = 0 then 1 else 0) (dst++[3, c]) rest
    else if cap ≤ dst.length then (0, dst)
    else escapeInto cap (if c = 0 then zeros+1 else 0) (dst++[c]) rest

def unescapeInto (cap : ℕ) : Option Byte → Option Byte → Bytes → Bytes → Bytes
  | _, _, dst, [] => dst
  | before, last, dst, c::rest =>
    if cap ≤ dst.length then dst
    else if c = 3 ∧ last = some 0 ∧ before = some 0 ∧ rest.head?.any (· ≤ 3) then
      unescapeInto cap last (some c) dst rest
    else unescapeInto cap last (some c) (dst++[c]) rest

theorem escape_into_fits {cap zeros : ℕ} {dst src : Bytes}
    (h : dst.length+(escapeBytes zeros src).length ≤ cap) :
    escapeInto cap zeros dst src =
      (dst.length+(escapeBytes zeros src).length, dst ++ escapeBytes zeros src) := by
  induction src generalizing zeros dst with
  | nil => rw [escapeInto, escapeBytes, List.length_nil, Nat.add_zero, List.append_nil]
  | cons c rest ih =>
    rw [escapeBytes] at h ⊢
    rw [escapeInto]
    split at h
    next hc =>
      simp only [List.length_cons] at h
      have hrest := @ih (if c = 0 then 1 else 0) (dst++[3, c])
        (by simp only [List.length_append, List.length_cons, List.length_nil]; omega)
      rw [if_pos hc, if_pos hc, if_neg (by omega), if_neg (by omega), hrest]
      simp only [List.length_append, List.length_cons, List.length_nil, List.append_assoc,
        List.cons_append, List.nil_append, Prod.mk.injEq, and_true]
      omega
    next hc =>
      simp only [List.length_cons] at h
      have hrest := @ih (if c = 0 then zeros+1 else 0) (dst++[c])
        (by simp only [List.length_append, List.length_cons, List.length_nil]; omega)
      rw [if_neg hc, if_neg hc, if_neg (by omega), hrest]
      simp only [List.length_append, List.length_cons, List.length_nil, List.append_assoc,
        List.cons_append, List.nil_append, Prod.mk.injEq, and_true]
      omega

theorem escape_into_full {cap zeros : ℕ} {dst src : Bytes} (hdst : dst.length ≤ cap)
    (h : cap < dst.length+(escapeBytes zeros src).length) :
    (escapeInto cap zeros dst src).1 = 0 := by
  induction src generalizing zeros dst with
  | nil =>
    rw [escapeBytes, List.length_nil] at h
    omega
  | cons c rest ih =>
    rw [escapeBytes] at h
    rw [escapeInto]
    split at h
    next hc =>
      simp only [List.length_cons] at h
      rw [if_pos hc]
      split
      · rfl
      split
      · rfl
      · apply ih
        · simp only [List.length_append, List.length_cons, List.length_nil]
          omega
        · simp only [List.length_append, List.length_cons, List.length_nil]
          omega
    next hc =>
      simp only [List.length_cons] at h
      rw [if_neg hc]
      split
      · rfl
      · apply ih
        · simp only [List.length_append, List.length_cons, List.length_nil]
          omega
        · simp only [List.length_append, List.length_cons, List.length_nil]
          omega

theorem unescape_into (cap : ℕ) (before last : Option Byte) {dst : Bytes} (hdst : dst.length ≤ cap)
    (src : Bytes) : unescapeInto cap before last dst src =
      (dst ++ unescapeBytes before last src).take cap := by
  induction src generalizing before last dst with
  | nil => rw [unescapeInto, unescapeBytes, List.append_nil, List.take_of_length_le hdst]
  | cons c rest ih =>
    rw [unescapeInto, unescapeBytes]
    split
    next hfull =>
      have hlen : dst.length = cap := by omega
      rw [← hlen, List.take_left]
    next hroom =>
      split
      · exact ih last (some c) hdst
      · rw [ih last (some c) (by rw [List.length_append, List.length_singleton]; omega),
          List.append_assoc, List.singleton_append]

/-- What the loops return and write is what the edits take. -/
theorem vui_escape_into (src : Bytes) (cap : ℕ) :
    vuiEscape src cap = (escapeInto cap 0 [] src).2.take (escapeInto cap 0 [] src).1 := by
  unfold vuiEscape
  split
  next hfits =>
    rw [escape_into_fits (by simpa using hfits), List.length_nil, Nat.zero_add, List.nil_append,
      List.take_length]
  next hlong =>
    have hzero : (escapeInto cap 0 [] src).1 = 0 := by
      apply escape_into_full (Nat.zero_le cap)
      rw [List.length_nil, Nat.zero_add]
      exact not_le.mp hlong
    rw [hzero, List.take_zero]

theorem vui_unescape_into (src : Bytes) (cap : ℕ) :
    vuiUnescape src cap = unescapeInto cap none none [] src := by
  have hdst : ([] : Bytes).length ≤ cap := Nat.zero_le cap
  rw [unescape_into cap none none hdst, List.nil_append, vuiUnescape]

end Capacity

section Marks

def markedEscape : ℕ → Bytes → List (Byte × Bool)
  | _, [] => []
  | zeros, c::rest =>
    if 2 ≤ zeros ∧ c ≤ 3 then (3, true)::(c, false)::markedEscape (if c = 0 then 1 else 0) rest
    else (c, false)::markedEscape (if c = 0 then zeros+1 else 0) rest

theorem marked_bytes (zeros : ℕ) (src : Bytes) :
    (markedEscape zeros src).map Prod.fst = escapeBytes zeros src := by
  induction src generalizing zeros with
  | nil => rfl
  | cons c rest ih =>
    rw [markedEscape, escapeBytes]
    split
    · rw [List.map_cons, List.map_cons, ih]
    · rw [List.map_cons, ih]

theorem marked_source (zeros : ℕ) (src : Bytes) :
    ((markedEscape zeros src).filter (fun m => !m.2)).map Prod.fst = src := by
  induction src generalizing zeros with
  | nil => rfl
  | cons c rest ih =>
    rw [markedEscape]
    split
    · rw [List.filter_cons_of_neg (by decide), List.filter_cons_of_pos (by rfl), List.map_cons, ih]
    · rw [List.filter_cons_of_pos (by rfl), List.map_cons, ih]

/-- After two zeros a 3 is one that was put in, counting from some zeros in front. -/
def Inserted : ℕ → List (Byte × Bool) → Prop
  | _, [] => True
  | zeros, m::rest =>
    (2 ≤ zeros → m.1 = 3 → m.2 = true) ∧ Inserted (if m.1 = 0 then zeros+1 else 0) rest

theorem escape_inserted (zeros : ℕ) (src : Bytes) : Inserted zeros (markedEscape zeros src) := by
  induction src generalizing zeros with
  | nil => exact trivial
  | cons c rest ih =>
    rw [markedEscape]
    split
    · refine ⟨fun _ _ => rfl, ?_, ih _⟩
      intro h2
      rw [if_neg (by decide)] at h2
      omega
    next hc =>
      refine ⟨?_, ih _⟩
      intro h2 h3
      exfalso
      apply hc
      refine ⟨h2, ?_⟩
      show c ≤ 3
      rw [show c = 3 from h3]
      decide

theorem inserted_code {zeros : ℕ} {front back : List (Byte × Bool)} {m m' m'' : Bool}
    (h : Inserted zeros (front ++ (0, m)::(0, m')::(3, m'')::back)) : m'' = true := by
  induction front generalizing zeros with
  | nil =>
    refine h.2.2.1 ?_ rfl
    simp
  | cons d front ih => exact ih h.2

end Marks

/-- Escaping, with its capacity, is undone by unescaping, makes no start code,
and shows 00 00 03 only where it put the 3. -/
theorem escape_round_trip (x : Bytes) :
    (∀ cap, (escapeBytes 0 x).length ≤ cap →
      escapeInto cap 0 [] x = ((escapeBytes 0 x).length, escapeBytes 0 x)) ∧
    (∀ cap, cap < (escapeBytes 0 x).length → (escapeInto cap 0 [] x).1 = 0) ∧
    (∀ cap, x.length ≤ cap → unescapeInto cap none none [] (escapeBytes 0 x) = x) ∧
    (∀ front c back, escapeBytes 0 x = front ++ 0::0::c::back → 2 < c) ∧
    (markedEscape 0 x).map Prod.fst = escapeBytes 0 x ∧
    ((markedEscape 0 x).filter (fun m => !m.2)).map Prod.fst = x ∧
    ∀ front m m' m'' back,
      markedEscape 0 x = front ++ (0, m)::(0, m')::(3, m'')::back → m'' = true := by
  have hcounts : Counts 0 none none := by constructor <;> simp
  refine ⟨?_, ?_, ?_, ?_, marked_bytes 0 x, marked_source 0 x, ?_⟩
  · intro cap hcap
    rw [escape_into_fits (by simpa using hcap), List.length_nil, Nat.zero_add, List.nil_append]
  · intro cap hcap
    apply escape_into_full (Nat.zero_le cap)
    rwa [List.length_nil, Nat.zero_add]
  · intro cap hcap
    rw [← vui_unescape_into, vuiUnescape, unescape_escape hcounts, List.take_of_length_le hcap]
  · intro front c back hcode
    have hguarded := escape_guarded 0 x
    rw [hcode] at hguarded
    exact guarded_code hguarded
  · intro front m m' m'' back hcode
    have hinserted := escape_inserted 0 x
    rw [hcode] at hinserted
    exact inserted_code hinserted

end RaptorCommon.VuiEscape
