import Mathlib.Logic.Function.Basic
import Mathlib.Data.List.Basic
import Mathlib.Tactic.Common

/-!
# Writers that buffer their own keys

Writers share a store. Each keeps its writes in a buffer and flushes it into
the store at times of its own. When no key has two writers the store is
determined by the history, whatever the order: every key has the value its
writer last wrote before its last flush.
-/

set_option autoImplicit false

namespace RaptorCommon.WriteBack

variable {ι κ V : Type*}

inductive Event (ι κ V : Type*) where
  | write (p : ι) (k : κ) (v : V)
  | flush (p : ι)

/-- The newest event stands first. -/
abbrev History (ι κ V : Type*) := List (Event ι κ V)

structure State (ι κ V : Type*) where
  shared : κ → Option V
  buffer : ι → κ → Option V

variable [DecidableEq ι] [DecidableEq κ]

def latest (k : κ) : History ι κ V → Option V
  | [] => none
  | .write _ k' v::log => if k' = k then some v else latest k log
  | .flush _::log => latest k log

def committed (p : ι) (k : κ) : History ι κ V → Option V
  | [] => none
  | .write _ _ _::log => committed p k log
  | .flush p'::log => if p' = p then latest k log else committed p k log

def unflushed (p : ι) (k : κ) : History ι κ V → Option V
  | [] => none
  | .write _ k' v::log => if k' = k then some v else unflushed p k log
  | .flush p'::log => if p' = p then none else unflushed p k log

theorem latest_split (p : ι) (k : κ) (log : History ι κ V) :
    latest k log = (unflushed p k log).or (committed p k log) := by
  induction log with
  | nil => rfl
  | cons x log ih =>
    cases x with
    | write p' k' v =>
      by_cases hk : k' = k
      · simp [latest, unflushed, hk]
      · simp [latest, unflushed, committed, hk, ih]
    | flush p' =>
      by_cases hp : p' = p
      · simp [latest, unflushed, committed, hp]
      · simp [latest, unflushed, committed, hp, ih]

def act (st : State ι κ V) : Event ι κ V → State ι κ V
  | .write p k v => { st with
      buffer := Function.update st.buffer p (Function.update (st.buffer p) k (some v)) }
  | .flush p =>
    { shared := fun k => (st.buffer p k).or (st.shared k)
      buffer := Function.update st.buffer p (fun _ => none) }

/-- The state after a history. -/
def after (start : κ → Option V) : History ι κ V → State ι κ V
  | [] => ⟨start, fun _ _ => none⟩
  | x::log => act (after start log) x

/-- Every write is to a key of its writer. -/
def Owned (owner : κ → Option ι) (log : History ι κ V) : Prop :=
  ∀ p k v, .write p k v ∈ log → owner k = some p

variable {owner : κ → Option ι} {start : κ → Option V} {log : History ι κ V}

omit [DecidableEq ι] [DecidableEq κ] in
theorem owned_tail {x : Event ι κ V} (h : Owned owner (x::log)) : Owned owner log :=
  fun p k v hm => h p k v (by simp [hm])

theorem after_buffer (h : Owned owner log) (p : ι) (k : κ) :
    (after start log).buffer p k = if owner k = some p then unflushed p k log else none := by
  induction log with
  | nil => simp [after, unflushed]
  | cons x log ih =>
    have ih := ih (owned_tail h)
    cases x with
    | write p' k' v =>
      have hown := h p' k' v (by simp)
      by_cases hp : p = p'
      · subst hp
        by_cases hk : k = k'
        · subst hk
          simp [after, act, unflushed, hown]
        · simp [after, act, unflushed, hk, Ne.symm hk, ih]
      · have hne : owner k = some p → k' ≠ k := fun ho hk => by
          rw [hk, ho] at hown
          exact hp (Option.some.inj hown)
        simp only [after, act, Function.update_of_ne hp, ih, unflushed]
        split
        next ho => rw [if_neg (hne ho)]
        next => rfl
    | flush p' =>
      by_cases hp : p = p'
      · subst hp
        simp [after, act, unflushed]
      · simp [after, act, unflushed, hp, Ne.symm hp, ih]

/-- Every key has what its writer last wrote before its last flush, and a key
without such a value has the one it started with. -/
theorem after_shared (h : Owned owner log) (k : κ) :
    (after start log).shared k =
      ((owner k).bind (fun p => committed p k log)).or (start k) := by
  induction log with
  | nil => cases owner k <;> rfl
  | cons x log ih =>
    have ih := ih (owned_tail h)
    cases x with
    | write p' k' v =>
      refine Eq.trans ih ?_
      cases owner k <;> rfl
    | flush p' =>
      have hb : (after start log).buffer p' k = _ := after_buffer (owned_tail h) p' k
      simp only [after, act, ih, hb]
      cases ho : owner k with
      | none => simp
      | some p =>
        by_cases hp : p = p'
        · subst hp
          simp [committed, latest_split p k log, Option.or_assoc]
        · simp [committed, hp, Ne.symm hp]

end RaptorCommon.WriteBack
