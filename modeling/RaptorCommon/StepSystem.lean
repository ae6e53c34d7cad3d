import Mathlib.Data.Nat.Notation
import Mathlib.Logic.Function.Iterate

/-!
# Runs of a system of steps

A run is a list of actions, each of which a state may refuse. A condition on
the steps is asked of each action in the state before it, and what each step
under the condition preserves, a run of such steps preserves. A name in a
directory stands for at most one file at a time, and no file number is given
out twice.
-/

set_option autoImplicit false

namespace RaptorCommon.StepSystem

section Runs

variable {σ α : Type*} (step : σ → α → Option σ) (ok : σ → α → Prop)

def runFrom (s : σ) : List α → Option σ
  | [] => some s
  | a::acts => (step s a).bind fun s' => runFrom s' acts

/-- Every step of the run meets the condition. -/
def Along (s : σ) : List α → Prop
  | [] => True
  | a::acts => ok s a ∧ ∀ s', step s a = some s' → Along s' acts

variable {step ok}

theorem run_keeps {Inv : σ → Prop}
    (hstep : ∀ s a s', Inv s → ok s a → step s a = some s' → Inv s')
    {s s' : σ} {acts : List α} (hs : Inv s) (hok : Along step ok s acts)
    (hrun : runFrom step s acts = some s') : Inv s' := by
  induction acts generalizing s with
  | nil =>
    cases hrun
    exact hs
  | cons a acts ih =>
    obtain ⟨mid, hmid, hrest⟩ := Option.bind_eq_some_iff.mp hrun
    exact ih (hstep s a mid hs hok.1 hmid) (hok.2 mid hmid) hrest

end Runs

section Settling

variable {σ : Type*} {step : σ → σ} {s : σ} {n : ℕ}

/-- A run whose rank some later state falls below comes to a state that no step
changes. -/
theorem settles_of_rank (rank : σ → ℕ)
    (h : ∀ s, ∃ n, step (step^[n] s) = step^[n] s ∨ rank (step^[n] s) < rank s) (s : σ) :
    ∃ n, step (step^[n] s) = step^[n] s := by
  induction hr : rank s using Nat.strongRecOn generalizing s with
  | ind r ih =>
    obtain ⟨n, hn⟩ := h s
    rcases hn with hdone | hless
    · exact ⟨n, hdone⟩
    · obtain ⟨m, hm⟩ := ih _ (hr ▸ hless) (step^[n] s) rfl
      refine ⟨m+n, ?_⟩
      rwa [Function.iterate_add_apply]

theorem settled_stays (h : step (step^[n] s) = step^[n] s) (k : ℕ) :
    step^[n+k] s = step^[n] s := by
  rw [Nat.add_comm, Function.iterate_add_apply]
  exact Function.iterate_fixed h k

theorem settled_acyclic (h : step (step^[n] s) = step^[n] s) {j period : ℕ} (hp : 0 < period)
    (hcycle : step^[j+period] s = step^[j] s) : step (step^[j] s) = step^[j] s := by
  have hround : step^[period] (step^[j] s) = step^[j] s := by
    rwa [← Function.iterate_add_apply, Nat.add_comm]
  have hrounds : step^[n*period] (step^[j] s) = step^[j] s := by
    rw [Nat.mul_comm, Function.iterate_mul]
    exact Function.iterate_fixed hround n
  have hlong : n ≤ n*period+j := Nat.le_trans (Nat.le_mul_of_pos_right n hp) (Nat.le_add_right _ j)
  have hstay := settled_stays h (n*period+j-n)
  rw [Nat.add_sub_cancel' hlong, Function.iterate_add_apply, hrounds] at hstay
  rw [hstay, h]

end Settling

/-- The file a name stands for, among files numbered as they are made. -/
structure Entry where
  link : Option ℕ
  made : ℕ
  below : ∀ i, link = some i → i < made

def noFile : Entry := ⟨none, 0, nofun⟩

namespace Entry

/-- Opening with `O_CREAT`: the file of the name, made where there is none. -/
def opened (e : Entry) : ℕ × Entry :=
  match h : e.link with
  | some i => (i, e)
  | none => (e.made, ⟨some e.made, e.made+1, fun i hi => by cases hi; exact Nat.lt_succ_self _⟩)

def created (e : Entry) : Entry :=
  ⟨some e.made, e.made+1, fun i hi => by cases hi; exact Nat.lt_succ_self _⟩

def unlinked (e : Entry) : Entry := ⟨none, e.made, nofun⟩

theorem opened_keeps (e : Entry) {i : ℕ} (h : e.link = some i) : e.opened = (i, e) := by
  unfold opened
  split
  · rename_i j hj
    rw [h] at hj
    cases hj
    rfl
  · rename_i hj
    rw [h] at hj
    cases hj

end Entry

end RaptorCommon.StepSystem
