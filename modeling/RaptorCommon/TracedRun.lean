import Mathlib.Data.Nat.Notation
import Mathlib.Tactic.Common

/-!
# Runs and what they touch

A run keeps what it touched, in order, and ends with a value unless one of its
loops ran out of fuel. A specification asks something of everything touched
and of the value, and that there is one. A mark is something touched only on
the way to a certain value.
-/

set_option autoImplicit false

namespace RaptorCommon.TracedRun

/-- The value is none where the run did not end. -/
structure Run (ε α : Type) where
  touched : List ε
  value : Option α
  deriving DecidableEq

namespace Run

variable {ε α β : Type}

def ended (a : α) : Run ε α := ⟨[], some a⟩

def followed (t : Run ε α) (f : α → Run ε β) : Run ε β :=
  match t.value with
  | none => ⟨t.touched, none⟩
  | some a => ⟨t.touched ++ (f a).touched, (f a).value⟩

instance : Monad (Run ε) where
  pure := ended
  bind := followed

def touch (e : ε) : Run ε Unit := ⟨[e], some ()⟩

/-- `&&` with a run on its right. -/
def andAlso (c : Bool) (t : Run ε Bool) : Run ε Bool := if c = true then t else pure false

/-- `||` of two runs. -/
def orElse (s t : Run ε Bool) : Run ε Bool := do if ← s then pure true else t

section Specifications

variable {P P' : ε → Prop} {Q Q' : α → Prop} {R : β → Prop}

def Meets (P : ε → Prop) (Q : α → Prop) (t : Run ε α) : Prop :=
  (∀ e ∈ t.touched, P e) ∧ ∃ a, t.value = some a ∧ Q a

theorem Meets.mono {t : Run ε α} (h : Meets P Q t) (hP : ∀ e, P e → P' e) (hQ : ∀ a, Q a → Q' a) :
    Meets P' Q' t := by
  obtain ⟨hall, a, hval, ha⟩ := h
  exact ⟨fun e he => hP e (hall e he), a, hval, hQ a ha⟩

theorem Meets.post {t : Run ε α} (h : Meets P Q t) {a : α} (ha : t.value = some a) : Q a := by
  obtain ⟨-, b, hb, hQ⟩ := h
  rw [Option.some.inj (ha.symm.trans hb)]
  exact hQ

@[simp] theorem meets_pure (a : α) : Meets P Q (pure a) ↔ Q a := by
  simp [Meets, pure, ended]

@[simp] theorem meets_touch {Q : Unit → Prop} (e : ε) : Meets P Q (touch e) ↔ P e ∧ Q () := by
  constructor
  · rintro ⟨hall, ⟨⟩, _, hQ⟩
    exact ⟨hall e (List.mem_singleton_self e), hQ⟩
  · rintro ⟨hP, hQ⟩
    exact ⟨fun d hd => List.mem_singleton.mp hd ▸ hP, (), rfl, hQ⟩

@[simp] theorem meets_bind (t : Run ε α) (f : α → Run ε β) :
    Meets P R (t >>= f) ↔ Meets P (fun a => Meets P R (f a)) t := by
  have hbind : t >>= f = followed t f := rfl
  rw [hbind, followed]
  cases hval : t.value with
  | none => simp [Meets, hval]
  | some a =>
    simp only [Meets, hval, List.mem_append, Option.some.injEq, exists_eq_left']
    constructor
    · rintro ⟨hall, hR⟩
      exact ⟨fun e he => hall e (.inl he), fun e he => hall e (.inr he), hR⟩
    · rintro ⟨ht, hf, hR⟩
      exact ⟨fun e he => he.elim (ht e) (hf e), hR⟩

theorem meets_ite {c : Prop} [Decidable c] {t u : Run ε α} (ht : c → Meets P Q t)
    (hu : ¬c → Meets P Q u) : Meets P Q (if c then t else u) := by
  by_cases h : c
  · exact (if_pos h).symm ▸ ht h
  · exact (if_neg h).symm ▸ hu h

abbrev Decides (P : ε → Prop) (c : Prop) (t : Run ε Bool) : Prop :=
  Meets P (fun b => b = true ↔ c) t

theorem decides_and {c d : Prop} [Decidable c] {t : Run ε Bool} (h : c → Decides P d t) :
    Decides P (c ∧ d) (andAlso (decide c) t) := by
  by_cases hc : c
  · rw [andAlso, if_pos (decide_eq_true hc)]
    exact (h hc).mono (fun _ he => he) fun b hb => hb.trans ⟨fun hd => ⟨hc, hd⟩, And.right⟩
  · rw [andAlso, if_neg (fun h => hc (of_decide_eq_true h)), Decides, meets_pure]
    exact ⟨fun hf => absurd hf Bool.false_ne_true, fun h => absurd h.1 hc⟩

theorem decides_or {c d : Prop} {s t : Run ε Bool} (hs : Decides P c s)
    (ht : ¬c → Decides P d t) : Decides P (c ∨ d) (orElse s t) := by
  rw [orElse, Decides, meets_bind]
  refine hs.mono (fun _ he => he) fun b hb => meets_ite (fun h => ?_) fun h => ?_
  · exact (meets_pure _).mpr ⟨fun _ => .inl (hb.mp h), fun _ => rfl⟩
  · have hc : ¬c := fun hc => h (hb.mpr hc)
    exact (ht hc).mono (fun _ he => he) fun b' hb' => hb'.trans ⟨.inr, fun h => h.resolve_left hc⟩

end Specifications

section Marks

variable {e : ε} {Q : α → Prop} {R : β → Prop}

def Marks (e : ε) (Q : α → Prop) (t : Run ε α) : Prop :=
  e ∈ t.touched → ∃ a, t.value = some a ∧ Q a

theorem Meets.marks {P : ε → Prop} {t : Run ε α} (h : Meets P Q t) : Marks e Q t := fun _ => h.2

theorem Meets.unmarked {P : ε → Prop} {t : Run ε α} (h : Meets P Q t) (he : ¬P e) :
    e ∉ t.touched := fun hmem => he (h.1 e hmem)

theorem marks_pure (a : α) : Marks e Q (pure a) := fun h => absurd h List.not_mem_nil

theorem marks_ite {c : Prop} [Decidable c] {t u : Run ε α} (ht : c → Marks e Q t)
    (hu : ¬c → Marks e Q u) : Marks e Q (if c then t else u) := by
  by_cases h : c
  · exact (if_pos h).symm ▸ ht h
  · exact (if_neg h).symm ▸ hu h

theorem marks_bind {t : Run ε α} {f : α → Run ε β} (ht : e ∉ t.touched)
    (hf : ∀ a, t.value = some a → Marks e R (f a)) : Marks e R (t >>= f) := by
  have hbind : t >>= f = followed t f := rfl
  rw [hbind, followed]
  cases hval : t.value with
  | none => exact fun h => absurd h ht
  | some a =>
    intro h
    exact hf a hval ((List.mem_append.mp h).resolve_left ht)

theorem unmarked_bind {t : Run ε α} {f : α → Run ε β} (ht : e ∉ t.touched)
    (hf : ∀ a, e ∉ (f a).touched) : e ∉ (t >>= f).touched := by
  have hbind : t >>= f = followed t f := rfl
  rw [hbind, followed]
  cases t.value with
  | none => exact ht
  | some a => exact fun h => (List.mem_append.mp h).elim ht (hf a)

theorem unmarked_and {c : Bool} {t : Run ε Bool} (ht : e ∉ t.touched) :
    e ∉ (andAlso c t).touched := by
  cases c with
  | false => exact List.not_mem_nil
  | true => exact ht

theorem unmarked_or {s t : Run ε Bool} (hs : e ∉ s.touched) (ht : e ∉ t.touched) :
    e ∉ (orElse s t).touched := by
  refine unmarked_bind hs fun b => ?_
  cases b with
  | false => exact ht
  | true => exact List.not_mem_nil

end Marks

end Run

section Loops

variable {ε σ ρ : Type}

inductive Turn (σ ρ : Type) where
  | goOn (s : σ)
  | leave (r : ρ)
  deriving DecidableEq

def Turn.After (G : σ → Prop) (Q : ρ → Prop) : Turn σ ρ → Prop
  | .goOn s => G s
  | .leave r => Q r

def loop (body : σ → Run ε (Turn σ ρ)) : ℕ → σ → Run ε ρ
  | 0, _ => ⟨[], none⟩
  | fuel+1, s => do
    match ← body s with
    | .goOn s => loop body fuel s
    | .leave r => pure r

variable {body : σ → Run ε (Turn σ ρ)} {P : ε → Prop} {Q : ρ → Prop}

/-- A loop whose turns keep the invariant and lower the size ends. -/
theorem loop_meets (Inv : σ → Prop) (size : σ → ℕ)
    (turn : ∀ s, Inv s → (body s).Meets P (Turn.After (fun s' => Inv s' ∧ size s' < size s) Q))
    {fuel : ℕ} {s : σ} (hs : Inv s) (hroom : size s < fuel) : (loop body fuel s).Meets P Q := by
  induction fuel generalizing s with
  | zero => exact absurd hroom (Nat.not_lt_zero _)
  | succ fuel ih =>
    rw [loop, Run.meets_bind]
    apply (turn s hs).mono (fun _ he => he)
    intro t ht
    cases t with
    | goOn s' => exact ih ht.1 (Nat.lt_of_lt_of_le ht.2 (Nat.le_of_lt_succ hroom))
    | leave r => exact (Run.meets_pure r).mpr ht

/-- What only a leaving turn touches, only the last turn touches. -/
theorem loop_marks {e : ε} (turn : ∀ s, (body s).Marks e (Turn.After (fun _ => False) Q))
    (fuel : ℕ) (s : σ) : (loop body fuel s).Marks e Q := by
  induction fuel generalizing s with
  | zero => exact fun h => absurd h List.not_mem_nil
  | succ fuel ih =>
    have hbind : loop body (fuel+1) s = (body s).followed fun t => match t with
      | .goOn s => loop body fuel s
      | .leave r => pure r := rfl
    rw [hbind, Run.followed]
    cases hval : (body s).value with
    | none =>
      intro h
      obtain ⟨t, ht, -⟩ := turn s h
      exact absurd (hval.symm.trans ht) (Option.some_ne_none t).symm
    | some t =>
      intro h
      rcases List.mem_append.mp h with hbody | hrest
      · obtain ⟨t', ht', hafter⟩ := turn s hbody
        obtain rfl : t = t' := Option.some.inj (hval.symm.trans ht')
        cases t with
        | goOn s' => exact hafter.elim
        | leave r => exact ⟨r, rfl, hafter⟩
      · cases t with
        | goOn s' => exact ih s' hrest
        | leave r => exact absurd hrest List.not_mem_nil

end Loops

end RaptorCommon.TracedRun
