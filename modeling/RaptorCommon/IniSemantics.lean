import Mathlib.Logic.Function.Basic
import Mathlib.Data.List.Basic
import Mathlib.Tactic.Common

/-!
# What a sectioned key-value text means

A text is a list of items: headers, bindings and inert lines. Its meaning is
a finite map from section and key to the last value bound there. The values a
text binds to one place, in order, compose along concatenation, so an editor
can be judged line by line.
-/

set_option autoImplicit false

namespace RaptorCommon.IniSemantics

inductive Item (S K V : Type*) where
  | inert
  | header (s : S)
  | binding (k : K) (v : V)
  deriving DecidableEq

variable {S K V : Type*}

def endSection : S → List (Item S K V) → S
  | cur, [] => cur
  | cur, .inert::items => endSection cur items
  | _, .header s::items => endSection s items
  | cur, .binding _ _::items => endSection cur items

theorem end_section_append (cur : S) (xs ys : List (Item S K V)) :
    endSection cur (xs++ys) = endSection (endSection cur xs) ys := by
  induction xs generalizing cur with
  | nil => rfl
  | cons x xs ih => cases x <;> exact ih _

variable [DecidableEq S] [DecidableEq K]

def valuesAt (q : S × K) : S → List (Item S K V) → List V
  | _, [] => []
  | cur, .inert::items => valuesAt q cur items
  | _, .header s::items => valuesAt q s items
  | cur, .binding k v::items =>
    if (cur, k) = q then v::valuesAt q cur items else valuesAt q cur items

def answer (q : S × K) (cur : S) (items : List (Item S K V)) : Option V :=
  (valuesAt q cur items).getLast?

theorem values_append (q : S × K) (cur : S) (xs ys : List (Item S K V)) :
    valuesAt q cur (xs++ys) = valuesAt q cur xs ++ valuesAt q (endSection cur xs) ys := by
  induction xs generalizing cur with
  | nil => rfl
  | cons x xs ih =>
    cases x with
    | inert => exact ih _
    | header s => exact ih _
    | binding k v =>
      simp only [List.cons_append, valuesAt, endSection, ih]
      split <;> rfl

abbrev Settings (S K V : Type*) := S × K → Option V

/-- Read one item: a header moves the cursor, a binding inserts. -/
def interpret (st : S × Settings S K V) : Item S K V → S × Settings S K V
  | .inert => st
  | .header s => (s, st.2)
  | .binding k v => (st.1, Function.update st.2 (st.1, k) (some v))

/-- Inserting the bindings in order leaves the last one of each place, and
what was there before where the text binds nothing. -/
theorem interpret_answer (items : List (Item S K V)) (st : S × Settings S K V) (q : S × K) :
    (items.foldl interpret st).2 q = (answer q st.1 items).or (st.2 q) := by
  induction items generalizing st with
  | nil => rfl
  | cons x items ih =>
    rw [List.foldl_cons, ih]
    cases x with
    | inert => rfl
    | header s => rfl
    | binding k v =>
      simp only [answer, interpret, valuesAt]
      by_cases hq : (st.1, k) = q
      · subst hq
        rw [if_pos rfl, Function.update_self, List.getLast?_cons]
        cases (valuesAt (st.1, k) st.1 items).getLast? <;> rfl
      · rw [if_neg hq, Function.update_of_ne (Ne.symm hq)]

end RaptorCommon.IniSemantics
