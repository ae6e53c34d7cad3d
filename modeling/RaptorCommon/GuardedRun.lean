import Mathlib.Data.Nat.Notation
import Mathlib.Tactic.Common

/-!
# Runs that watch their bounds

A run ends with a value or is refused. Two more ends are kept apart because
no run should have them: a read or write outside its memory, and a loop that
is out of rounds.
-/

set_option autoImplicit false

namespace RaptorCommon.GuardedRun

inductive Stop where
  | refused
  | overrun
  | exhausted
  deriving DecidableEq

abbrev Attempt (α : Type) := Except Stop α

variable {α β : Type}

def refuse : Attempt α := .error .refused

def cell (cells : List β) (i : ℕ) : Attempt β :=
  match cells[i]? with
  | some c => .ok c
  | none => .error .overrun

/-- The run is refused or ends with a value that has the property. -/
def Within (Q : α → Prop) : Attempt α → Prop
  | .ok a => Q a
  | .error e => e = .refused

section Rules

variable {Q Q' : α → Prop} {R : β → Prop}

@[simp] theorem within_pure (a : α) : Within Q (pure a) ↔ Q a := Iff.rfl

@[simp] theorem within_ok (a : α) : Within Q (.ok a) ↔ Q a := Iff.rfl

@[simp] theorem within_refuse : Within Q refuse := rfl

@[simp] theorem within_bind (t : Attempt α) (f : α → Attempt β) :
    Within R (t >>= f) ↔ Within (fun a => Within R (f a)) t := by
  cases t <;> rfl

theorem ok_bind (a : α) (f : α → Attempt β) : (.ok a : Attempt α) >>= f = f a := rfl

theorem bind_ok {t : Attempt α} {f : α → Attempt β} {b : β} (h : t >>= f = .ok b) :
    ∃ a, t = .ok a ∧ f a = .ok b := by
  cases t with
  | ok a => exact ⟨a, rfl, h⟩
  | error e => cases h

theorem refuse_bind (f : α → Attempt β) : (refuse : Attempt α) >>= f = refuse := rfl

theorem Within.mono {t : Attempt α} (h : Within Q t) (hQ : ∀ a, Q a → Q' a) : Within Q' t := by
  cases t with
  | ok a => exact hQ a h
  | error e => exact h

theorem within_ite {c : Prop} [Decidable c] {t u : Attempt α} (ht : c → Within Q t)
    (hu : ¬c → Within Q u) : Within Q (if c then t else u) := by
  by_cases h : c
  · exact (if_pos h).symm ▸ ht h
  · exact (if_neg h).symm ▸ hu h

theorem within_cell {cells : List β} {i : ℕ} (h : i < cells.length) :
    Within (fun c => cells[i]? = some c) (cell cells i) := by
  unfold cell
  rw [List.getElem?_eq_getElem h]
  rfl

theorem cell_some {cells : List β} {i : ℕ} {c : β} (h : cells[i]? = some c) :
    cell cells i = .ok c := by
  unfold cell
  rw [h]

theorem Within.value {t : Attempt α} (h : Within Q t) {a : α} (ha : t = .ok a) : Q a := by
  rw [ha] at h
  exact h

end Rules

section Ending

variable {Q Q' : α → Prop} {R : β → Prop}

def Yields (Q : α → Prop) : Attempt α → Prop
  | .ok a => Q a
  | .error _ => False

theorem yields_ok (a : α) : Yields Q (.ok a) ↔ Q a := Iff.rfl

theorem yields_pure (a : α) : Yields Q (pure a) ↔ Q a := Iff.rfl

theorem yields_bind (t : Attempt α) (f : α → Attempt β) :
    Yields R (t >>= f) ↔ Yields (fun a => Yields R (f a)) t := by
  cases t <;> rfl

theorem Yields.mono {t : Attempt α} (h : Yields Q t) (hQ : ∀ a, Q a → Q' a) : Yields Q' t := by
  cases t with
  | ok a => exact hQ a h
  | error e => exact h

theorem yields_ite {c : Prop} [Decidable c] {t u : Attempt α} (ht : c → Yields Q t)
    (hu : ¬c → Yields Q u) : Yields Q (if c then t else u) := by
  by_cases h : c
  · exact (if_pos h).symm ▸ ht h
  · exact (if_neg h).symm ▸ hu h

theorem yields_iff {t : Attempt α} : Yields Q t ↔ ∃ a, t = .ok a ∧ Q a := by
  cases t with
  | ok a => exact ⟨fun h => ⟨a, rfl, h⟩, fun ⟨b, hb, h⟩ => Except.ok.inj hb ▸ h⟩
  | error e => exact ⟨False.elim, fun ⟨_, hb, _⟩ => by cases hb⟩

theorem yields_foldlM {Inv : α → Prop} {step : α → β → Attempt α} {bs : List β}
    (hstep : ∀ a, ∀ b ∈ bs, Inv a → Yields Inv (step a b)) {a : α} (ha : Inv a) :
    Yields Inv (bs.foldlM step a) := by
  induction bs generalizing a with
  | nil => exact ha
  | cons b bs ih =>
    rw [List.foldlM_cons, yields_bind]
    exact (hstep a b List.mem_cons_self ha).mono fun a' ha' =>
      ih (fun c d hd => hstep c d (List.mem_cons_of_mem b hd)) ha'

end Ending

end RaptorCommon.GuardedRun
