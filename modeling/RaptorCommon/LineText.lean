import Mathlib.Algebra.GroupWithZero.Nat
import Mathlib.Data.List.DropRight

/-!
# Text cut at a separator

A text over any alphabet is read as the list of its pieces between
separators. A final separator ends the last piece and opens no new one, so
a text and the same text with a final separator have the same pieces.
-/

set_option autoImplicit false

namespace RaptorCommon.LineText

variable {α : Type*}

/-- Put a symbol in front of the first piece, opening it where there is none. -/
def pushFront (c : α) : List (List α) → List (List α)
  | [] => [[c]]
  | l::ls => (c::l)::ls

def pieces [DecidableEq α] (sep : α) : List α → List (List α)
  | [] => []
  | c::rest => if c = sep then []::pieces sep rest else pushFront c (pieces sep rest)

def joined (sep : α) : List (List α) → List α
  | [] => []
  | l::ls => l ++ sep::joined sep ls

theorem joined_append (sep : α) (ls ms : List (List α)) :
    joined sep (ls++ms) = joined sep ls ++ joined sep ms := by
  induction ls with
  | nil => rfl
  | cons l ls ih => simp [joined, ih]

/-- The pieces of a text that a separator ends, one more than its separators. -/
def parts [DecidableEq α] (sep : α) (l : List α) : List (List α) := pieces sep (l++[sep])

def endWith : List (List α) → List α → List (List α)
  | [], _ => []
  | [l], m => [l++m]
  | l::k::ls, m => l::endWith (k::ls) m

theorem pieces_front [DecidableEq α] (sep : α) (l text : List α) (hl : sep ∉ l) :
    pieces sep (l ++ sep::text) = l::pieces sep text := by
  induction l with
  | nil => simp [pieces]
  | cons c l ih =>
    have hc : c ≠ sep := fun h => hl (by simp [h])
    have ht : sep ∉ l := fun h => hl (by simp [h])
    simp [pieces, hc, ih ht, pushFront]

theorem pieces_single [DecidableEq α] (sep : α) (l : List α) (hl : sep ∉ l) (hne : l ≠ []) :
    pieces sep l = [l] := by
  induction l with
  | nil => exact absurd rfl hne
  | cons c l ih =>
    have hc : c ≠ sep := fun h => hl (by simp [h])
    have ht : sep ∉ l := fun h => hl (by simp [h])
    by_cases h0 : l = []
    · simp [h0, pieces, hc, pushFront]
    · simp [pieces, hc, ih ht h0, pushFront]

theorem parts_single [DecidableEq α] {sep : α} {l : List α} (hl : sep ∉ l) : parts sep l = [l] :=
  pieces_front sep l [] hl

theorem parts_cons [DecidableEq α] (sep c : α) (l : List α) :
    parts sep (c::l) = if c = sep then []::parts sep l else pushFront c (parts sep l) := rfl

theorem parts_nonempty [DecidableEq α] (sep : α) (l : List α) : parts sep l ≠ [] := by
  cases l with
  | nil => simp [parts, pieces]
  | cons c l =>
    rw [parts_cons]
    split
    · simp
    · cases parts sep l <;> simp [pushFront]

theorem push_front_append (c : α) {ls : List (List α)} (h : ls ≠ []) (ms : List (List α)) :
    pushFront c (ls++ms) = pushFront c ls ++ ms := by
  cases ls with
  | nil => exact absurd rfl h
  | cons l ls => rfl

theorem pieces_end [DecidableEq α] (sep : α) (l text : List α) :
    pieces sep (l ++ sep::text) = parts sep l ++ pieces sep text := by
  induction l with
  | nil => simp [parts, pieces]
  | cons c l ih =>
    rw [parts_cons, List.cons_append, pieces, ih]
    split
    · rfl
    · exact push_front_append c (parts_nonempty sep l) _

theorem pieces_joined [DecidableEq α] (sep : α) (ls : List (List α)) :
    pieces sep (joined sep ls) = ls.flatMap (parts sep) := by
  induction ls with
  | nil => rfl
  | cons l ls ih => rw [joined, pieces_end, ih, List.flatMap_cons]

theorem push_front_end (c : α) {ls : List (List α)} (h : ls ≠ []) (m : List α) :
    pushFront c (endWith ls m) = endWith (pushFront c ls) m := by
  cases ls with
  | nil => exact absurd rfl h
  | cons l ls => cases ls <;> rfl

theorem parts_append [DecidableEq α] {sep : α} (l : List α) {m : List α} (hm : sep ∉ m) :
    parts sep (l++m) = endWith (parts sep l) m := by
  induction l with
  | nil => simpa [parts, pieces, endWith] using parts_single hm
  | cons c l ih =>
    have hne := parts_nonempty sep l
    rw [List.cons_append, parts_cons, parts_cons, ih]
    split
    · cases hp : parts sep l with
      | nil => exact absurd hp hne
      | cons k ls => rfl
    · exact push_front_end c hne m

theorem parts_front [DecidableEq α] {sep : α} {f l a : List α} {rest : List (List α)}
    (hf : sep ∉ f) (h : parts sep l = a::rest) : parts sep (f++l) = (f++a)::rest := by
  induction f with
  | nil => exact h
  | cons c f ih =>
    have hc : c ≠ sep := fun h => hf (by simp [h])
    have ht : sep ∉ f := fun h => hf (by simp [h])
    rw [List.cons_append, parts_cons, if_neg hc, ih ht]
    rfl

theorem mem_pushFront (c : α) (ls : List (List α)) (l : List α) (hl : l ∈ pushFront c ls) :
    (∃ m, l = c::m ∧ (m = [] ∨ m ∈ ls)) ∨ l ∈ ls := by
  cases ls with
  | nil => exact Or.inl ⟨[], by simpa [pushFront] using hl⟩
  | cons m ls =>
    rcases List.mem_cons.mp hl with h | h
    · exact Or.inl ⟨m, h, Or.inr (by simp)⟩
    · exact Or.inr (by simp [h])

theorem pieces_separator_free [DecidableEq α] (sep : α) (text : List α) : ∀ l ∈ pieces sep text, sep ∉ l := by
  induction text with
  | nil => simp [pieces]
  | cons c text ih =>
    intro l hl
    by_cases hc : c = sep
    · simp only [pieces, if_pos hc, List.mem_cons] at hl
      rcases hl with rfl | hl
      · simp
      · exact ih l hl
    · rw [pieces, if_neg hc] at hl
      rcases mem_pushFront c _ l hl with ⟨m, rfl, hm⟩ | hl
      · rcases hm with rfl | hm
        · simpa using fun h => hc h.symm
        · simpa using ⟨fun h => hc h.symm, ih m hm⟩
      · exact ih l hl

theorem pieces_subset [DecidableEq α] (sep : α) (text : List α) :
    ∀ l ∈ pieces sep text, ∀ c ∈ l, c ∈ text := by
  induction text with
  | nil => simp [pieces]
  | cons b text ih =>
    intro l hl c hc
    by_cases hb : b = sep
    · simp only [pieces, if_pos hb, List.mem_cons] at hl
      rcases hl with rfl | hl
      · simp at hc
      · exact List.mem_cons_of_mem _ (ih l hl c hc)
    · rw [pieces, if_neg hb] at hl
      rcases mem_pushFront b _ l hl with ⟨m, rfl, hm⟩ | hl
      · rcases List.mem_cons.mp hc with rfl | hc
        · simp
        · rcases hm with rfl | hm
          · simp at hc
          · exact List.mem_cons_of_mem _ (ih m hm c hc)
      · exact List.mem_cons_of_mem _ (ih l hl c hc)

theorem push_front_sizes (c : α) (ls : List (List α)) :
    ((pushFront c ls).map List.length).sum = (ls.map List.length).sum+1 ∧
      (pushFront c ls).length = max 1 ls.length := by
  cases ls with
  | nil => exact ⟨rfl, rfl⟩
  | cons l ls =>
    constructor
    · simp only [pushFront, List.map_cons, List.sum_cons, List.length_cons]
      omega
    · simp only [pushFront, List.length_cons]
      omega

theorem pieces_sizes [DecidableEq α] (sep : α) (text : List α) :
    ((pieces sep text).map List.length).sum ≤ text.length := by
  induction text with
  | nil => exact Nat.le_refl 0
  | cons c text ih =>
    rw [pieces, List.length_cons]
    split
    · rw [List.map_cons, List.sum_cons, List.length_nil]
      omega
    · rw [(push_front_sizes c (pieces sep text)).1]
      omega

theorem pieces_count [DecidableEq α] (sep : α) (text : List α) :
    (pieces sep text).length =
      text.count sep+(if text.getLast?.any (fun c => c ≠ sep) then 1 else 0) := by
  induction text with
  | nil => rfl
  | cons c text ih =>
    cases text with
    | nil =>
      by_cases hc : c = sep
      · simp [pieces, hc]
      · simp [pieces, hc, pushFront]
    | cons d text =>
      have hne : 1 ≤ (pieces sep (d::text)).length := by
        rw [pieces]
        split
        · rw [List.length_cons]
          omega
        · rw [(push_front_sizes d (pieces sep text)).2]
          omega
      rw [List.getLast?_cons_cons]
      by_cases hc : c = sep
      · rw [pieces, if_pos hc, List.length_cons, ih, hc, List.count_cons_self]
        omega
      · rw [pieces, if_neg hc, (push_front_sizes c _).2, List.count_cons_of_ne hc, ← ih]
        omega

theorem parts_separator_free [DecidableEq α] (sep : α) (l : List α) :
    ∀ m ∈ parts sep l, sep ∉ m := pieces_separator_free sep (l++[sep])

theorem parts_subset [DecidableEq α] (sep : α) (l : List α) :
    ∀ m ∈ parts sep l, ∀ c ∈ m, c ∈ l ∨ c = sep := by
  intro m hm c hc
  simpa using pieces_subset sep (l++[sep]) m hm c hc

theorem mem_push_front (c : α) (ls : List (List α)) : ∃ l ∈ pushFront c ls, c ∈ l := by
  cases ls with
  | nil => exact ⟨[c], by simp [pushFront]⟩
  | cons l ls => exact ⟨c::l, by simp [pushFront]⟩

theorem parts_mem [DecidableEq α] (sep : α) (l : List α) {c : α} (hc : c ∈ l) (hs : c ≠ sep) :
    ∃ m ∈ parts sep l, c ∈ m := by
  induction l with
  | nil => simp at hc
  | cons d l ih =>
    rw [parts_cons]
    rcases List.mem_cons.mp hc with rfl | hc
    · rw [if_neg hs]
      exact mem_push_front c _
    · obtain ⟨m, hm, hcm⟩ := ih hc
      split
      · exact ⟨m, by simp [hm], hcm⟩
      · cases hp : parts sep l with
        | nil => exact absurd hp (parts_nonempty sep l)
        | cons k ls =>
          rw [hp] at hm
          rcases List.mem_cons.mp hm with rfl | hm
          · exact ⟨d::m, by simp [pushFront], by simp [hcm]⟩
          · exact ⟨m, by simp [pushFront, hm], hcm⟩

theorem parts_length [DecidableEq α] (sep : α) (l : List α) :
    ∀ m ∈ parts sep l, m.length ≤ l.length := by
  induction l with
  | nil => simp [parts, pieces]
  | cons c l ih =>
    intro m hm
    rw [parts_cons] at hm
    rw [List.length_cons]
    split at hm
    · rcases List.mem_cons.mp hm with rfl | hm
      · simp
      · have := ih m hm
        omega
    · cases hp : parts sep l with
      | nil => exact absurd hp (parts_nonempty sep l)
      | cons k ls =>
        rw [hp] at hm ih
        rcases List.mem_cons.mp hm with rfl | hm
        · have := ih k (by simp)
          simpa using this
        · have := ih m (by simp [hm])
          omega

theorem joined_subset (sep : α) (ls : List (List α)) (c : α) (hc : c ∈ joined sep ls) :
    c = sep ∨ ∃ l ∈ ls, c ∈ l := by
  induction ls with
  | nil => simp [joined] at hc
  | cons l ls ih =>
    simp only [joined, List.mem_append, List.mem_cons] at hc
    rcases hc with h | h | h
    · exact Or.inr ⟨l, by simp, h⟩
    · exact Or.inl h
    · rcases ih h with h | ⟨m, hm, h⟩
      · exact Or.inl h
      · exact Or.inr ⟨m, by simp [hm], h⟩

section Positions

def lastWhere (p : α → Bool) : ℕ → List α → Option (ℕ × α)
  | _, [] => none
  | l, x::xs => (lastWhere p (l+1) xs).or (if p x then some (l, x) else none)

variable {p : α → Bool}

theorem last_where_cons (l : ℕ) (x : α) (xs : List α) :
    lastWhere p l (x::xs) = (lastWhere p (l+1) xs).or (lastWhere p l [x]) := rfl

theorem last_where_some {l : ℕ} {xs : List α} {r : ℕ × α} (h : lastWhere p l xs = some r) :
    l ≤ r.1 ∧ p r.2 = true ∧ r.2 ∈ xs := by
  induction xs generalizing l with
  | nil => cases h
  | cons x xs ih =>
    rw [lastWhere] at h
    cases hr : lastWhere p (l+1) xs with
    | some s =>
      rw [hr, Option.some_or, Option.some.injEq] at h
      subst h
      obtain ⟨h1, h2, h3⟩ := ih hr
      exact ⟨by omega, h2, List.mem_cons_of_mem x h3⟩
    | none =>
      rw [hr, Option.none_or] at h
      split at h
      next hp =>
        rw [Option.some.injEq] at h
        subst h
        exact ⟨le_refl l, hp, by simp⟩
      next => cases h

theorem last_where_at {l : ℕ} {xs : List α} {r : ℕ × α} (h : lastWhere p l xs = some r) :
    xs[r.1-l]? = some r.2 := by
  induction xs generalizing l with
  | nil => cases h
  | cons x xs ih =>
    rw [lastWhere] at h
    cases hr : lastWhere p (l+1) xs with
    | some s =>
      rw [hr, Option.some_or, Option.some.injEq] at h
      subst h
      have hl := (last_where_some hr).1
      rw [show s.1-l = s.1-(l+1)+1 by omega]
      exact ih hr
    | none =>
      rw [hr, Option.none_or] at h
      split at h
      next =>
        rw [Option.some.injEq] at h
        subst h
        simp
      next => cases h

theorem last_where_none {l : ℕ} {xs : List α} :
    lastWhere p l xs = none ↔ ∀ x ∈ xs, p x = false := by
  induction xs generalizing l with
  | nil => simp [lastWhere]
  | cons x xs ih =>
    rw [lastWhere, Option.or_eq_none_iff, ih, List.forall_mem_cons, and_comm]
    cases p x <;> simp

end Positions

end RaptorCommon.LineText
