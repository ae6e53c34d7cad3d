import Mathlib.Data.Fin.Basic
import Mathlib.Data.Fin.SuccPred
import Mathlib.Data.List.FinRange
import Mathlib.Data.List.Sort
import Mathlib.Algebra.Group.Fin.Basic
import Mathlib.Tactic

/-!
# A ring of the last values of a sequence

A ring of cells with a head shows the last values of an integer-indexed
sequence: the cell `j` before the head holds the value `j` before the current
one. Stepping the head into a blank cell and writing at the head keep this.
Insertion from the end of a sorted row sorts, and the sorted row of a list is
the only one.
-/

set_option autoImplicit false

namespace RaptorCommon.RingWindow

section Ring

variable {n : ℕ} {α : Type*}

def Shows (cells : Fin n → α) (head : Fin n) (f : ℤ → α) (cur : ℤ) : Prop :=
  ∀ j : Fin n, cells (head-j) = f (cur-j.val)

variable {cells : Fin n → α} {head : Fin n} {f g : ℤ → α} {cur : ℤ}

theorem shows_congr (h : Shows cells head f cur) (hfg : ∀ s ≤ cur, f s = g s) :
    Shows cells head g cur := by
  intro j
  rw [h j]
  exact hfg _ (by omega)

variable [NeZero n]

theorem shows_head (h : Shows cells head f cur) : cells head = f cur := by
  simpa using h 0

theorem shows_step (h : Shows cells head f cur) :
    Shows (Function.update cells (head+1) (f (cur+1))) (head+1) f (cur+1) := by
  intro j
  by_cases hj : j = 0
  · rw [hj, sub_zero, Function.update_self]
    simp
  · have hne : head+1-j ≠ head+1 := fun he => hj (by simpa using he)
    have hpos : 0 < j.val := Nat.pos_of_ne_zero fun h0 => hj (Fin.ext h0)
    have hpred : (j-1).val = j.val-1 := by
      have hn : 1 < n := by omega
      have hone : (1 : Fin n).val = 1 := by
        rw [Fin.val_one', Nat.mod_eq_of_lt hn]
      rw [Fin.sub_val_of_le (by rw [Fin.le_def, hone]; exact hpos), hone]
    rw [Function.update_of_ne hne]
    have hcell : head+1-j = head-(j-1) := by abel
    rw [hcell, h (j-1), hpred]
    congr 1
    omega

theorem shows_write (h : Shows cells head f cur) (v : α) :
    Shows (Function.update cells head v) head (Function.update f cur v) cur := by
  intro j
  by_cases hj : j = 0
  · subst hj
    simp
  · have hne : head-j ≠ head := fun he => hj (by simpa using he)
    have hpos : 0 < j.val := Nat.pos_of_ne_zero fun h0 => hj (Fin.ext h0)
    rw [Function.update_of_ne hne, Function.update_of_ne (by omega), h j]

/-- The cells hold the last values, in some order. -/
theorem shows_perm (h : Shows cells head f cur) :
    ((List.finRange n).map cells).Perm ((List.range n).map fun j : ℕ => f (cur-j)) := by
  have hturn : ((List.finRange n).map fun j => head-j).Perm (List.finRange n) := by
    apply (List.perm_ext_iff_of_nodup ?_ (List.nodup_finRange n)).mpr
    · intro i
      simp only [List.mem_map, List.mem_finRange, true_and, iff_true]
      exact ⟨head-i, sub_sub_cancel head i⟩
    · exact (List.nodup_finRange n).map fun i j hij => sub_right_injective hij
  have hcells := (hturn.map cells).symm
  rw [List.map_map] at hcells
  refine hcells.trans ?_
  have hval : List.range n = (List.finRange n).map Fin.val := (List.map_coe_finRange_eq_range).symm
  rw [hval, List.map_map]
  apply List.Perm.of_eq
  apply List.map_congr_left
  intro j _
  exact h j

end Ring

section Sorting

variable {α : Type*} [LinearOrder α]

/-- Insertion into a row held last element first: those above the value move up. -/
def insertLast (v : α) : List α → List α
  | [] => [v]
  | last::rest => if v < last then last::insertLast v rest else v::last::rest

theorem insert_last_ordered (v : α) (row : List α) :
    insertLast v row = row.orderedInsert (· ≥ ·) v := by
  induction row with
  | nil => rfl
  | cons last rest ih =>
    rw [insertLast, List.orderedInsert_cons]
    by_cases h : v < last
    · rw [if_pos h, if_neg (not_le.mpr h), ih]
    · rw [if_neg h, if_pos (not_lt.mp h)]

def insertionRow (values : List α) : List α :=
  (values.foldl (fun row v => insertLast v row) []).reverse

theorem insertion_fold (values row : List α) (h : row.Pairwise (· ≥ ·)) :
    (values.foldl (fun row v => insertLast v row) row).Pairwise (· ≥ ·) ∧
      (values.foldl (fun row v => insertLast v row) row).Perm (values ++ row) := by
  induction values generalizing row with
  | nil => exact ⟨h, .refl _⟩
  | cons v values ih =>
    rw [List.foldl_cons, insert_last_ordered]
    obtain ⟨hsorted, hperm⟩ := ih _ (h.orderedInsert v row)
    refine ⟨hsorted, hperm.trans ?_⟩
    refine ((List.perm_orderedInsert (· ≥ ·) v row).append_left values).trans ?_
    exact List.perm_middle

theorem insertion_row_sorted (values : List α) : (insertionRow values).Pairwise (· ≤ ·) :=
  List.pairwise_reverse.mpr (insertion_fold values [] .nil).1

theorem insertion_row_perm (values : List α) : (insertionRow values).Perm values := by
  have h := (insertion_fold values [] .nil).2
  rw [List.append_nil] at h
  exact (List.reverse_perm _).trans h

theorem insertion_row_unique {values row : List α} (hsorted : row.Pairwise (· ≤ ·))
    (hperm : row.Perm values) : insertionRow values = row :=
  List.Perm.eq_of_pairwise (fun _ _ _ _ hab hba => le_antisymm hab hba)
    (insertion_row_sorted values) hsorted ((insertion_row_perm values).trans hperm.symm)

end Sorting

end RaptorCommon.RingWindow
